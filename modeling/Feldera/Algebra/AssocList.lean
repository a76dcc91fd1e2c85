import Mathlib.Tactic

/-!
Association lists as finite maps: what `lookup` finds in a list from which keys have been removed,
and maps that are kept sorted by their keys.
-/

namespace Feldera.AssocList

open List

variable {α β : Type} {l : List (α × β)} {a : α} {b : β}

section

variable [DecidableEq α]

theorem lookup_filter_key (q : α → Bool) (l : List (α × β)) (a : α) :
    (l.filter fun f => q f.1).lookup a = if q a then l.lookup a else none := by
  induction l with
  | nil => simp
  | cons f l ih =>
    obtain ⟨k, b⟩ := f
    cases hk : q k with
    | true =>
      rw [filter_cons_of_pos (by simpa using hk), lookup_cons, lookup_cons, ih]
      cases hak : a == k with
      | true =>
        obtain rfl := beq_iff_eq.mp hak
        simp [hk]
      | false => rfl
    | false =>
      rw [filter_cons_of_neg (by simp [hk]), ih, lookup_cons]
      cases hak : a == k with
      | true =>
        obtain rfl := beq_iff_eq.mp hak
        simp [hk]
      | false => rfl

theorem lookup_filter_ne (l : List (α × β)) (a a' : α) :
    (l.filter fun f => f.1 ≠ a).lookup a' = if a' = a then none else l.lookup a' := by
  rw [lookup_filter_key fun k => decide (k ≠ a)]
  by_cases h : a' = a <;> simp [h]

theorem mem_of_lookup (h : l.lookup a = some b) : (a, b) ∈ l := by
  obtain ⟨before, after, hsplit, -⟩ := lookup_eq_some_iff.mp h
  simp [hsplit]

end

section

variable [LinearOrder α]

def getKey (l : List (α × β)) (a : α) : Option β :=
  l.lookup a

def removeKey (l : List (α × β)) (a : α) : List (α × β) :=
  l.filter fun p => p.1 ≠ a

theorem mem_removeKey {p : α × β} : p ∈ removeKey l a ↔ p ∈ l ∧ p.1 ≠ a := by
  simp [removeKey]

/-- The map with `b` at the key `a`, in the place of what was there. -/
def insertKey (l : List (α × β)) (a : α) (b : β) : List (α × β) :=
  l.filter (fun p => p.1 < a) ++ (a, b) :: l.filter fun p => a < p.1

abbrev Sorted (l : List (α × β)) : Prop :=
  l.Pairwise fun p q => p.1 < q.1

theorem mem_insertKey {p : α × β} : p ∈ insertKey l a b ↔ p = (a, b) ∨ p ∈ l ∧ p.1 ≠ a := by
  simp only [insertKey, mem_append, mem_cons, mem_filter, decide_eq_true_eq]
  grind

theorem insertKey_removeKey : insertKey (removeKey l a) a b = insertKey l a b := by
  simp only [insertKey, removeKey, filter_filter]
  refine congrArg₂ (fun l l' => l ++ (a, b) :: l') ?_ ?_ <;>
    refine filter_congr fun p _ => ?_ <;> grind

theorem sorted_insertKey (h : Sorted l) : Sorted (insertKey l a b) := by
  refine pairwise_append.mpr ⟨h.filter _, pairwise_cons.mpr ⟨?_, h.filter _⟩, ?_⟩
  · intro p hp
    simpa using (mem_filter.mp hp).2
  intro p hp q hq
  have hpa : p.1 < a := by simpa using (mem_filter.mp hp).2
  rcases mem_cons.mp hq with rfl | hq
  · exact hpa
  · exact hpa.trans (by simpa using (mem_filter.mp hq).2)

theorem Sorted.getKey_eq_some (h : Sorted l) : getKey l a = some b ↔ (a, b) ∈ l := by
  refine ⟨mem_of_lookup, fun hmem => ?_⟩
  induction l with
  | nil => cases hmem
  | cons p l ih =>
    obtain ⟨hlt, h⟩ := pairwise_cons.mp h
    rcases mem_cons.mp hmem with rfl | hmem
    · simp [getKey]
    · have hne : a ≠ p.1 := (hlt _ hmem).ne'
      rw [getKey, lookup_cons, beq_false_of_ne hne]
      exact ih h hmem

theorem sum_insertKey (f : α × β → ℕ) :
    ((insertKey l a b).map f).sum = f (a, b) + ((removeKey l a).map f).sum := by
  have hperm : (removeKey l a).Perm (l.filter (fun p => p.1 < a) ++ l.filter fun p => a < p.1) := by
    refine (filter_append_perm (fun p => decide (p.1 < a)) _).symm.trans ?_
    simp only [removeKey, filter_filter]
    refine List.Perm.of_eq (congrArg₂ _ ?_ ?_) <;>
      refine filter_congr fun p _ => ?_ <;> grind
  rw [(hperm.map f).sum_eq, insertKey, map_append, map_append, sum_append,
    sum_append, map_cons, sum_cons]
  omega

theorem Sorted.eq_of_mem {b' : β} (h : Sorted l) (hb : (a, b) ∈ l) (hb' : (a, b') ∈ l) : b = b' :=
  Option.some.inj ((h.getKey_eq_some.mpr hb).symm.trans (h.getKey_eq_some.mpr hb'))

theorem Sorted.nodup (h : Sorted l) : l.Nodup :=
  h.imp fun hlt => ne_of_apply_ne Prod.fst hlt.ne

theorem Sorted.sum_removeKey (h : Sorted l) (hmem : (a, b) ∈ l) (f : α × β → ℕ) :
    (l.map f).sum = f (a, b) + ((removeKey l a).map f).sum := by
  have hperm : (insertKey l a b).Perm l := by
    refine (perm_ext_iff_of_nodup (sorted_insertKey h).nodup h.nodup).mpr fun p => ?_
    rw [mem_insertKey]
    refine ⟨?_, fun hp => ?_⟩
    · rintro (rfl | ⟨hp, -⟩)
      · exact hmem
      · exact hp
    · by_cases hpa : p.1 = a
      · subst hpa
        exact .inl (Prod.ext rfl (h.eq_of_mem hp hmem))
      · exact .inr ⟨hp, hpa⟩
  rw [← (hperm.map f).sum_eq, sum_insertKey]

end

end Feldera.AssocList
