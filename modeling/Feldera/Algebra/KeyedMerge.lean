import Mathlib.Tactic

/-!
Vectors of keyed commands, each sorted by key, merged by repeatedly taking the
least head. Heads are compared as pairs: by key and, for one key, by the
commands themselves. The merge therefore keeps the order of the commands to
one key within a vector, but between vectors it goes by the order of the
commands; `Kept` says when the two agree, and `drain_filter_key` that they do then.
-/

namespace Feldera.KeyedMerge

open List

variable {K C : Type*}

/-- Puts back a vector unless it is used up. -/
def consNonempty (l : List (K × C)) (ls : List (List (K × C))) : List (List (K × C)) :=
  if l.isEmpty then ls else l :: ls

theorem consNonempty_flatten (l : List (K × C)) (ls : List (List (K × C))) :
    (consNonempty l ls).flatten = l ++ ls.flatten := by
  cases l with
  | nil => rfl
  | cons a l => rfl

theorem mem_consNonempty {l m : List (K × C)} {ls : List (List (K × C))}
    (hm : m ∈ consNonempty l ls) : (m = l ∧ l ≠ []) ∨ m ∈ ls := by
  cases l with
  | nil => exact Or.inr hm
  | cons a l =>
    rcases mem_cons.mp hm with rfl | hm
    · exact Or.inl ⟨rfl, by simp⟩
    · exact Or.inr hm

variable [LinearOrder K]

section

def sortByKey (l : List (K × C)) : List (K × C) :=
  l.insertionSort fun a b => a.1 ≤ b.1

def SortedByKey (l : List (K × C)) : Prop :=
  l.Pairwise fun a b => a.1 ≤ b.1

def commandsOf (k : K) (l : List (K × C)) : List C :=
  (l.filter fun a => decide (a.1 = k)).map Prod.snd

variable (k : K)

@[simp] theorem commandsOf_nil : commandsOf k ([] : List (K × C)) = [] := rfl

@[simp] theorem commandsOf_append (l m : List (K × C)) :
    commandsOf k (l ++ m) = commandsOf k l ++ commandsOf k m := by
  simp [commandsOf]

variable {k : K} {l : List (K × C)} {a : K × C}

theorem commandsOf_cons_of_eq (ha : a.1 = k) (l : List (K × C)) :
    commandsOf k (a :: l) = a.2 :: commandsOf k l := by
  simp [commandsOf, ha]

theorem commandsOf_cons_of_ne (ha : a.1 ≠ k) (l : List (K × C)) :
    commandsOf k (a :: l) = commandsOf k l := by
  simp [commandsOf, ha]

theorem commandsOf_eq_nil : commandsOf k l = [] ↔ ∀ a ∈ l, a.1 ≠ k := by
  simp [commandsOf]

theorem mem_commandsOf {c : C} : c ∈ commandsOf k l ↔ (k, c) ∈ l := by
  simp [commandsOf]

theorem commandsOf_flatten_map {f : List (K × C) → List (K × C)}
    (hf : ∀ l, commandsOf k (f l) = commandsOf k l) (ls : List (List (K × C))) :
    commandsOf k (ls.map f).flatten = commandsOf k ls.flatten := by
  induction ls with
  | nil => rfl
  | cons l ls ih => simp [hf, ih]

theorem commandsOf_flatten_eq_nil {ls : List (List (K × C))} (h : ∀ l ∈ ls, commandsOf k l = [])
    : commandsOf k ls.flatten = [] := by
  rw [commandsOf_eq_nil]
  intro a ha
  obtain ⟨l, hl, hal⟩ := mem_flatten.mp ha
  exact commandsOf_eq_nil.mp (h l hl) a hal

theorem commandsOf_filter_ne (k k' : K) (l : List (K × C)) :
    commandsOf k' (l.filter fun a => decide (a.1 ≠ k)) =
      if k' = k then [] else commandsOf k' l := by
  unfold commandsOf
  rw [filter_filter]
  split
  · next hk =>
    subst hk
    simp
  · next hk =>
    congr 1
    apply filter_congr
    intro a _
    by_cases ha : a.1 = k'
    · simp [ha, hk]
    · simp [ha]

/-- Keys that occur at most once, in order, increase strictly. -/
theorem SortedByKey.strict (h : SortedByKey l) (hone : ∀ k, (commandsOf k l).length ≤ 1) :
    l.Pairwise fun a b => a.1 < b.1 := by
  induction l with
  | nil => exact List.Pairwise.nil
  | cons a l ih =>
    obtain ⟨ha, hl⟩ := pairwise_cons.mp h
    have hnil : commandsOf a.1 l = [] := by
      have := hone a.1
      rw [commandsOf_cons_of_eq rfl, length_cons] at this
      exact eq_nil_of_length_eq_zero (by omega)
    refine pairwise_cons.mpr ⟨fun b hb => ?_, ih hl fun k => ?_⟩
    · exact lt_of_le_of_ne (ha b hb) (commandsOf_eq_nil.mp hnil b hb).symm
    have := hone k
    by_cases hk : a.1 = k
    · rw [commandsOf_cons_of_eq hk, length_cons] at this
      omega
    · rwa [commandsOf_cons_of_ne hk] at this

variable (l : List (K × C))

theorem sortByKey_sorted : SortedByKey (sortByKey l) := by
  exact pairwise_insertionSort _ l

private theorem commandsOf_orderedInsert (a : K × C) (l : List (K × C)) :
    commandsOf k (l.orderedInsert (fun a b => a.1 ≤ b.1) a) = commandsOf k (a :: l) := by
  induction l with
  | nil => rfl
  | cons b l ih =>
    rw [orderedInsert_cons]
    split
    · rfl
    · next hab =>
      by_cases ha : a.1 = k
      · -- `a` is inserted further on, so `b` belongs to an earlier key
        have hb : b.1 ≠ k := fun hb => hab (by rw [ha, hb])
        rw [commandsOf_cons_of_ne hb, ih, commandsOf_cons_of_eq ha,
          commandsOf_cons_of_eq ha, commandsOf_cons_of_ne hb]
      · rw [commandsOf_cons_of_ne ha]
        rw [commandsOf_cons_of_ne ha] at ih
        by_cases hb : b.1 = k
        · rw [commandsOf_cons_of_eq hb, commandsOf_cons_of_eq hb, ih]
        · rw [commandsOf_cons_of_ne hb, commandsOf_cons_of_ne hb, ih]

@[simp] theorem commandsOf_sortByKey : commandsOf k (sortByKey l) = commandsOf k l := by
  induction l with
  | nil => rfl
  | cons a l ih =>
    change commandsOf k ((sortByKey l).orderedInsert _ a) = _
    rw [commandsOf_orderedInsert]
    by_cases ha : a.1 = k
    · rw [commandsOf_cons_of_eq ha, commandsOf_cons_of_eq ha, ih]
    · rw [commandsOf_cons_of_ne ha, commandsOf_cons_of_ne ha, ih]

end

section

variable [LinearOrder C]

def PairLt (a b : K × C) : Prop :=
  a.1 < b.1 ∨ a.1 = b.1 ∧ a.2 < b.2

instance : DecidableRel (PairLt (K := K) (C := C)) :=
  fun a b => inferInstanceAs (Decidable (a.1 < b.1 ∨ a.1 = b.1 ∧ a.2 < b.2))

variable {a b : K × C} {ls rest : List (List (K × C))} {k : K}

theorem PairLt.key_le (h : PairLt a b) : a.1 ≤ b.1 := by
  rcases h with h | ⟨h, -⟩
  · exact h.le
  · exact h.le

theorem key_le_of_not_pairLt (h : ¬PairLt b a) : a.1 ≤ b.1 := by
  by_contra hlt
  exact h (Or.inl (not_le.mp hlt))

theorem PairLt.asymm (h : PairLt a b) : ¬PairLt b a := by
  rintro (hba | ⟨hba, hlt⟩)
  · exact absurd h.key_le (not_le.mpr hba)
  · rcases h with h | ⟨-, h⟩
    · exact h.ne' hba
    · exact lt_asymm h hlt

theorem not_pairLt_trans {c : K × C} (hab : ¬PairLt b a) (hbc : ¬PairLt c b) : ¬PairLt c a := by
  have hkab := key_le_of_not_pairLt hab
  have hkbc := key_le_of_not_pairLt hbc
  rintro (hca | ⟨hca, hlt⟩)
  · exact absurd (hkab.trans hkbc) (not_le.mpr hca)
  · have hkey : a.1 = b.1 := le_antisymm hkab (hca ▸ hkbc)
    have hle : a.2 ≤ b.2 := le_of_not_gt fun h => hab (Or.inr ⟨hkey.symm, h⟩)
    have hle' : b.2 ≤ c.2 := le_of_not_gt fun h => hbc (Or.inr ⟨hca.trans hkey, h⟩)
    exact absurd (hle.trans hle') (not_le.mpr hlt)

/-- Takes the least head, the first one of equals; a vector that is used up is removed. -/
def popMin : List (List (K × C)) → Option ((K × C) × List (List (K × C)))
  | [] => none
  | [] :: ls => popMin ls
  | (a :: l) :: ls =>
    match popMin ls with
    | none => some (a, consNonempty l ls)
    | some (b, rest) =>
      if PairLt b a then some (b, (a :: l) :: rest) else some (a, consNonempty l ls)

/-- The order in which `fuel` pops deliver the commands. -/
def drain : Nat → List (List (K × C)) → List (K × C)
  | 0, _ => []
  | fuel + 1, ls =>
    match popMin ls with
    | none => []
    | some (a, rest) => a :: drain fuel rest

def size (ls : List (List (K × C))) : Nat :=
  (ls.map List.length).sum

theorem popMin_eq_none (h : popMin ls = none) : ∀ l ∈ ls, l = [] := by
  induction ls with
  | nil => simp
  | cons m ls ih =>
    cases m with
    | nil => simpa using ih h
    | cons a m =>
      unfold popMin at h
      cases hp : popMin ls with
      | none => simp [hp] at h
      | some b =>
        simp only [hp] at h
        split at h <;> simp at h

/-- What one pop does: the vectors before the one it takes from have strictly greater
heads, those after it have heads that are not smaller. -/
structure Pop (ls : List (List (K × C))) (a : K × C) (rest : List (List (K × C)))
    (pre : List (List (K × C))) (l : List (K × C)) (post : List (List (K × C))) : Prop where
  vectors : ls = pre ++ (a :: l) :: post
  left : rest = pre ++ consNonempty l post
  before : ∀ m ∈ pre, ∀ b ∈ m.head?, PairLt a b
  after : ∀ m ∈ post, ∀ b ∈ m.head?, ¬PairLt b a

theorem popMin_spec (hne : ∀ l ∈ ls, l ≠ []) (h : popMin ls = some (a, rest)) :
    ∃ pre l post, Pop ls a rest pre l post := by
  induction ls generalizing a rest with
  | nil => simp [popMin] at h
  | cons m ls ih =>
    have hne' : ∀ l ∈ ls, l ≠ [] := fun l hl => hne l (by simp [hl])
    cases m with
    | nil => exact absurd rfl (hne [] (by simp))
    | cons c m =>
      unfold popMin at h
      cases hp : popMin ls with
      | none =>
        rw [hp] at h
        obtain ⟨rfl, rfl⟩ := Prod.mk.inj (Option.some.inj h)
        refine ⟨[], m, ls, rfl, rfl, by simp, ?_⟩
        intro l hl
        exact absurd (popMin_eq_none hp l hl) (hne' l hl)
      | some r =>
        obtain ⟨pre, l, post, hpop⟩ := ih hne' hp
        simp only [hp] at h
        split at h
        · next hbc =>
          obtain ⟨rfl, rfl⟩ := Prod.mk.inj (Option.some.inj h)
          refine ⟨(c :: m) :: pre, l, post, by rw [hpop.vectors]; rfl,
            by rw [hpop.left]; rfl, ?_, hpop.after⟩
          intro n hn d hd
          rcases mem_cons.mp hn with rfl | hn
          · rw [← Option.some.inj hd]
            exact hbc
          · exact hpop.before n hn d hd
        · next hbc =>
          obtain ⟨rfl, rfl⟩ := Prod.mk.inj (Option.some.inj h)
          refine ⟨[], m, ls, rfl, rfl, by simp, ?_⟩
          intro n hn d hd
          rw [hpop.vectors] at hn
          rcases mem_append.mp hn with hn | hn
          · exact not_pairLt_trans hbc (hpop.before n hn d hd).asymm
          · rcases mem_cons.mp hn with rfl | hn
            · rw [← Option.some.inj hd]
              exact hbc
            · exact not_pairLt_trans hbc (hpop.after n hn d hd)

namespace Pop

variable {ls rest pre post : List (List (K × C))} {a : K × C} {l : List (K × C)}

section

variable (h : Pop ls a rest pre l post)
include h

theorem mem_left {m : List (K × C)} (hm : m ∈ rest) : (m = l ∧ l ≠ []) ∨ m ∈ pre ∨ m ∈ post := by
  rw [h.left] at hm
  rcases mem_append.mp hm with hm | hm
  · exact Or.inr (Or.inl hm)
  · rcases mem_consNonempty hm with hm | hm
    · exact Or.inl hm
    · exact Or.inr (Or.inr hm)

theorem nonempty (hne : ∀ m ∈ ls, m ≠ []) : ∀ m ∈ rest, m ≠ [] := by
  intro m hm
  rcases h.mem_left hm with ⟨rfl, hl⟩ | hm | hm
  · exact hl
  · exact hne m (by simp [h.vectors, hm])
  · exact hne m (by simp [h.vectors, hm])

theorem flatten_left : rest.flatten = pre.flatten ++ (l ++ post.flatten) := by
  rw [h.left, flatten_append, consNonempty_flatten]

theorem flatten_vectors : ls.flatten = pre.flatten ++ a :: (l ++ post.flatten) := by
  rw [h.vectors, flatten_append, flatten_cons, cons_append]

theorem size_eq : size ls = size rest + 1 := by
  have hvectors := congrArg List.length h.flatten_vectors
  have hleft := congrArg List.length h.flatten_left
  simp only [length_flatten, length_append, length_cons] at hvectors hleft
  unfold size
  omega

theorem sorted (hs : ∀ m ∈ ls, SortedByKey m) : ∀ m ∈ rest, SortedByKey m := by
  intro m hm
  rcases h.mem_left hm with ⟨rfl, -⟩ | hm | hm
  · exact (pairwise_cons.mp (hs (a :: m) (by simp [h.vectors]))).2
  · exact hs m (by simp [h.vectors, hm])
  · exact hs m (by simp [h.vectors, hm])

end

omit [LinearOrder C] in
private theorem key_le_of_head {m : List (K × C)} (hm : SortedByKey m) {k : K}
    (hhead : ∀ b ∈ m.head?, k ≤ b.1) : ∀ b ∈ m, k ≤ b.1 := by
  cases m with
  | nil => simp
  | cons c m =>
    intro b hb
    have hc : k ≤ c.1 := hhead c rfl
    rcases mem_cons.mp hb with rfl | hb
    · exact hc
    · exact hc.trans ((pairwise_cons.mp hm).1 b hb)

variable (h : Pop ls a rest pre l post)
include h

theorem key_le (hs : ∀ m ∈ ls, SortedByKey m) : ∀ m ∈ ls, ∀ b ∈ m, a.1 ≤ b.1 := by
  intro m hm
  apply key_le_of_head (hs m hm)
  intro b hb
  rw [h.vectors] at hm
  rcases mem_append.mp hm with hm | hm
  · exact (h.before m hm b hb).key_le
  · rcases mem_cons.mp hm with rfl | hm
    · rw [← Option.some.inj hb]
    · exact key_le_of_not_pairLt (h.after m hm b hb)

theorem mem_flatten {b : K × C} : b ∈ ls.flatten ↔ b = a ∨ b ∈ rest.flatten := by
  rw [h.flatten_vectors, h.flatten_left]
  simp only [mem_append, mem_cons]
  tauto

theorem key_le_left (hs : ∀ m ∈ ls, SortedByKey m) : ∀ b ∈ rest.flatten, a.1 ≤ b.1 := by
  intro b hb
  obtain ⟨m, hm, hbm⟩ := List.mem_flatten.mp (h.mem_flatten.mpr (Or.inr hb))
  exact h.key_le hs m hm b hbm

end Pop

theorem popMin_isSome (hne : ∀ l ∈ ls, l ≠ []) (hsize : size ls ≠ 0) : (popMin ls).isSome := by
  cases h : popMin ls with
  | some _ => rfl
  | none =>
    cases ls with
    | nil => exact absurd rfl hsize
    | cons l ls => exact absurd (popMin_eq_none h l (by simp)) (hne l (by simp))

/-- Induction over the pops of a drain that has fuel for every command. -/
theorem drain_induction {P : List (List (K × C)) → List (K × C) → Prop} (hnil : P [] [])
    (hpop : ∀ ls a rest pre l post out, (∀ m ∈ ls, m ≠ []) → Pop ls a rest pre l post →
      P rest out → P ls (a :: out)) {fuel : Nat} (hne : ∀ m ∈ ls, m ≠ [])
    (hfuel : fuel = size ls) : P ls (drain fuel ls) := by
  induction fuel generalizing ls with
  | zero =>
    cases ls with
    | nil => exact hnil
    | cons l ls =>
      have hl : l ≠ [] := hne l (by simp)
      have hlen : l.length = 0 := by
        simp only [size, map_cons, sum_cons] at hfuel
        omega
      exact absurd (eq_nil_of_length_eq_zero hlen) hl
  | succ fuel ih =>
    have hsome := popMin_isSome hne (by omega)
    obtain ⟨⟨a, rest⟩, hp⟩ := Option.isSome_iff_exists.mp hsome
    obtain ⟨pre, l, post, h⟩ := popMin_spec hne hp
    have hrest := ih (h.nonempty hne) (by have := h.size_eq; omega)
    simpa [drain, hp] using hpop ls a rest pre l post _ hne h hrest

theorem drain_perm (hne : ∀ m ∈ ls, m ≠ []) : (drain (size ls) ls).Perm ls.flatten := by
  apply drain_induction (P := fun ls out => out.Perm ls.flatten) List.Perm.nil _ hne rfl
  intro ls a rest pre l post out _ h hout
  rw [h.flatten_vectors]
  rw [h.flatten_left] at hout
  exact (hout.cons a).trans perm_middle.symm

theorem drain_sorted (hne : ∀ m ∈ ls, m ≠ []) (hs : ∀ m ∈ ls, SortedByKey m) :
    SortedByKey (drain (size ls) ls) := by
  have hmain := drain_induction
    (P := fun ls out => (∀ m ∈ ls, SortedByKey m) →
      SortedByKey out ∧ ∀ b ∈ out, b ∈ ls.flatten)
    (fun _ => ⟨List.Pairwise.nil, by simp⟩) ?_ hne rfl
  · exact (hmain hs).1
  intro ls a rest pre l post out _ h ih hs
  obtain ⟨hsorted, hmem⟩ := ih (h.sorted hs)
  refine ⟨pairwise_cons.mpr ⟨fun b hb => ?_, hsorted⟩, ?_⟩
  · exact h.key_le_left hs b (hmem b hb)
  · intro b hb
    rw [h.mem_flatten]
    exact (mem_cons.mp hb).imp_right (hmem b)

/-- No vector holds a command to `k` that is greater than the first command to `k`
of a later vector. -/
def Kept (k : K) (ls : List (List (K × C))) : Prop :=
  ls.Pairwise fun l m => ∀ c ∈ commandsOf k l, ∀ d ∈ (commandsOf k m).head?, c ≤ d

instance (k : K) (ls : List (List (K × C))) : Decidable (Kept k ls) :=
  inferInstanceAs (Decidable (List.Pairwise _ _))

theorem Kept.map (h : Kept k ls) {f : List (K × C) → List (K × C)}
    (hf : ∀ l, commandsOf k (f l) = commandsOf k l) : Kept k (ls.map f) := by
  unfold Kept
  rw [pairwise_map]
  refine List.Pairwise.imp ?_ h
  intro l m hlm
  rw [hf, hf]
  exact hlm

theorem Kept.filter (h : Kept k ls) (p : List (K × C) → Bool) : Kept k (ls.filter p) :=
  List.Pairwise.filter p h

theorem kept_of_forall_nil (h : ∀ l ∈ ls, commandsOf k l = []) : Kept k ls := by
  apply pairwise_of_forall_mem_list
  intro l hl m _ c hc
  simp [h l hl] at hc

variable {pre post : List (List (K × C))} {l : List (K × C)}

section

variable (hs : ∀ m ∈ ls, SortedByKey m)
include hs

/-- When a command to `k` is popped, no earlier vector holds one. -/
theorem Pop.commandsOf_before (h : Pop ls a rest pre l post) (hk : Kept a.1 ls) :
    ∀ m ∈ pre, commandsOf a.1 m = [] := by
  intro m hm
  rw [commandsOf_eq_nil]
  intro c hc hca
  have hsorted : SortedByKey m := hs m (by simp [h.vectors, hm])
  cases m with
  | nil => simp at hc
  | cons b m =>
    have hab : PairLt a b := h.before _ hm b rfl
    have hbc : b.1 ≤ c.1 := by
      rcases mem_cons.mp hc with rfl | hc
      · exact le_rfl
      · exact (pairwise_cons.mp hsorted).1 c hc
    have hba : b.1 = a.1 := le_antisymm (hca ▸ hbc) hab.key_le
    have hlt : a.2 < b.2 := by
      rcases hab with hab | ⟨-, hab⟩
      · exact absurd hba hab.ne'
      · exact hab
    rw [h.vectors] at hk
    have hle := (pairwise_append.mp hk).2.2 _ hm (a :: l) (by simp) b.2
      (by simp [commandsOf_cons_of_eq hba]) a.2 (by simp [commandsOf_cons_of_eq])
    exact absurd hlt (not_lt.mpr hle)

theorem Pop.kept (h : Pop ls a rest pre l post) (hk : Kept k ls) : Kept k rest := by
  have hsub : rest.Sublist (pre ++ l :: post) := by
    rw [h.left]
    apply List.Sublist.append_left
    cases l with
    | nil => exact sublist_cons_self _ _
    | cons b l => exact List.Sublist.refl _
  refine List.Pairwise.sublist hsub ?_
  have hbefore : a.1 = k → ∀ m ∈ pre, commandsOf k m = [] := by
    rintro rfl
    exact h.commandsOf_before hs hk
  rw [h.vectors] at hk
  obtain ⟨hpre, hpost, hcross⟩ := pairwise_append.mp hk
  obtain ⟨hl, hpost⟩ := pairwise_cons.mp hpost
  refine pairwise_append.mpr ⟨hpre, pairwise_cons.mpr ⟨?_, hpost⟩, ?_⟩
  · intro m hm c hc
    refine hl m hm c ?_
    rw [mem_commandsOf] at hc ⊢
    exact mem_cons_of_mem a hc
  · intro m hm n hn c hc
    rcases mem_cons.mp hn with rfl | hn
    · by_cases ha : a.1 = k
      · simp [hbefore ha m hm] at hc
      · have := hcross m hm (a :: n) (by simp) c hc
        rwa [commandsOf_cons_of_ne ha] at this
    · exact hcross m hm n (by simp [hn]) c hc

/-- Under `Kept`, the commands to `k` come out of the merge as they lie in the vectors. -/
theorem commandsOf_drain (hne : ∀ m ∈ ls, m ≠ []) (hk : Kept k ls) :
    commandsOf k (drain (size ls) ls) = commandsOf k ls.flatten := by
  have hmain := drain_induction
    (P := fun ls out => (∀ m ∈ ls, SortedByKey m) → Kept k ls →
      commandsOf k out = commandsOf k ls.flatten)
    (fun _ _ => rfl) ?_ hne rfl
  · exact hmain hs hk
  intro ls a rest pre l post out _ h ih hs hk
  have hrest := ih (h.sorted hs) (h.kept hs hk)
  rw [h.flatten_left, commandsOf_append] at hrest
  rw [h.flatten_vectors, commandsOf_append]
  by_cases ha : a.1 = k
  · subst ha
    have hpre : commandsOf a.1 pre.flatten = [] :=
      commandsOf_flatten_eq_nil (h.commandsOf_before hs hk)
    rw [commandsOf_cons_of_eq rfl, commandsOf_cons_of_eq rfl, hrest, hpre]
    rfl
  · rw [commandsOf_cons_of_ne ha, commandsOf_cons_of_ne ha, hrest]

end

/-- `drain` over all vectors that hold a command. -/
def merged (ls : List (List (K × C))) : List (K × C) :=
  drain (size (ls.filter fun l => !l.isEmpty)) (ls.filter fun l => !l.isEmpty)

omit [LinearOrder K] [LinearOrder C] in
private theorem ne_nil_of_mem_filter : ∀ l ∈ ls.filter (fun l => !l.isEmpty), l ≠ [] := by
  intro l hl
  simpa using (mem_filter.mp hl).2

theorem merged_sorted (hs : ∀ l ∈ ls, SortedByKey l) : SortedByKey (merged ls) :=
  drain_sorted ne_nil_of_mem_filter fun l hl => hs l (mem_filter.mp hl).1

theorem commandsOf_merged (hs : ∀ l ∈ ls, SortedByKey l) (hk : Kept k ls) :
    commandsOf k (merged ls) = commandsOf k ls.flatten := by
  rw [← flatten_filter_not_isEmpty (L := ls)]
  exact commandsOf_drain (fun l hl => hs l (mem_filter.mp hl).1)
    ne_nil_of_mem_filter (hk.filter _)

theorem merged_perm (ls : List (List (K × C))) : (merged ls).Perm ls.flatten := by
  rw [← flatten_filter_not_isEmpty (L := ls)]
  exact drain_perm ne_nil_of_mem_filter

end

end Feldera.KeyedMerge
