import Mathlib.Tactic

/-!
Threads that execute a program again and again. A thread is described by the number of rounds that it
has begun and by the rest of its program; `level` is the number of rounds in which it has executed an
instruction. A run in
which something always happens sooner or later comes to an end of every bounded stretch.
-/

namespace Feldera.Rounds

open List

variable {ι : Type*} [DecidableEq ι] {n : ℕ} {program rest : List ι} {i j : ι}

/-- How often an instruction has been executed by a thread that has begun `n` rounds. -/
def level (n : ℕ) (rest : List ι) (i : ι) : ℕ := if i ∈ rest then n - 1 else n

theorem level_le : level n rest i ≤ n := by
  unfold level
  split <;> omega

theorem le_level : n ≤ level n rest i + 1 := by
  unfold level
  split <;> omega

@[simp] theorem level_nil : level n [] i = n := if_neg not_mem_nil

theorem level_of_mem (h : i ∈ rest) : level n rest i = n - 1 := if_pos h

theorem level_of_not_mem (h : i ∉ rest) : level n rest i = n := if_neg h

theorem level_begin (h : i ∈ program) : level (n + 1) program i = level n [] i := by
  rw [level_of_mem h, level_nil, Nat.add_sub_cancel]

theorem level_advance_of_ne (h : j ≠ i) : level n rest j = level n (i :: rest) j := by
  unfold level
  simp [h]

section

variable {κ : Type*} [Preorder κ] {key : ι → κ}

omit [DecidableEq ι] in
/-- What comes later in the program is left if something before it is. -/
theorem mem_rest (hrest : rest <:+ program) (hprogram : program.Pairwise fun i j => key i < key j)
    (hi : i ∈ rest) (hj : j ∈ program) (hlt : key i < key j) : j ∈ rest := by
  obtain ⟨before, rfl⟩ := hrest
  rcases mem_append.mp hj with hj | hj
  · exact absurd ((pairwise_append.mp hprogram).2.2 j hj i hi) hlt.asymm
  · exact hj

omit [DecidableEq ι] in
theorem not_mem_rest (hrest : i :: rest <:+ program)
    (hprogram : program.Pairwise fun i j => key i < key j) (hlt : ¬ key i < key j) : j ∉ rest := by
  intro hj
  exact hlt (rel_of_pairwise_cons (hprogram.sublist hrest.sublist) hj)

theorem level_le_level (hrest : rest <:+ program)
    (hprogram : program.Pairwise fun i j => key i < key j) (hj : j ∈ program)
    (hlt : key i < key j) : level n rest j ≤ level n rest i := by
  by_cases hi : i ∈ rest
  · rw [level_of_mem hi, level_of_mem (mem_rest hrest hprogram hi hj hlt)]
  · rw [level_of_not_mem hi]
    exact level_le

end

section

variable {T : Type*} {value : ℕ → T} {filled emptied : ℕ}

def slot (value : ℕ → T) (filled emptied : ℕ) : Option T :=
  if emptied < filled then some (value emptied) else none

theorem slot_empty (h : filled ≤ emptied) : slot value filled emptied = none :=
  if_neg (by omega)

theorem slot_full (h : emptied < filled) : slot value filled emptied = some (value emptied) :=
  if_pos h

end

section

variable {α : Type*} {l : List α} {P P' Q : α → Bool}

theorem countP_or (h : ∀ a ∈ l, P' a = (P a || Q a)) (hdisjoint : ∀ a ∈ l, Q a = true → P a = false) :
    l.countP P' = l.countP P + l.countP Q := by
  induction l with
  | nil => rfl
  | cons a l ih =>
    have hrest := ih (fun b hb => h b (mem_cons_of_mem _ hb))
      fun b hb => hdisjoint b (mem_cons_of_mem _ hb)
    rw [countP_cons, countP_cons, countP_cons, hrest, h a mem_cons_self]
    cases hQ : Q a with
    | true =>
      rw [hdisjoint a mem_cons_self hQ]
      simp
      omega
    | false =>
      simp
      omega

/-- How many elements are at level `n`. -/
def tally (l : List α) (f : α → ℕ) (n : ℕ) : ℕ := l.countP fun a => f a == n

variable {f f' : α → ℕ} {n : ℕ}

theorem tally_congr (h : ∀ a ∈ l, f' a = f a) : tally l f' n = tally l f n := by
  apply countP_congr
  intro a ha
  rw [h a ha]

theorem tally_eq_length_iff : tally l f n = l.length ↔ ∀ a ∈ l, f a = n := by
  rw [tally, countP_eq_length]
  simp only [beq_iff_eq]

theorem tally_eq_zero (h : ∀ a ∈ l, f a ≠ n) : tally l f n = 0 := by
  rw [tally, countP_eq_zero]
  intro a ha heq
  exact h a ha (beq_iff_eq.mp heq)

/-- Some elements reach level `n` and the others stay where they are. -/
theorem tally_add (hQ : ∀ a ∈ l, Q a = true → f a + 1 = n ∧ f' a = n)
    (hnot : ∀ a ∈ l, Q a = false → f' a = f a) : tally l f' n = tally l f n + l.countP Q := by
  apply countP_or
  · intro a ha
    cases hq : Q a with
    | true => simp [(hQ a ha hq).2]
    | false => simp [hnot a ha hq]
  · intro a ha hq
    have hlt := (hQ a ha hq).1
    rw [beq_eq_false_iff_ne]
    omega

/-- One element reaches level `n` and the others stay where they are. -/
theorem tally_succ [DecidableEq α] {a : α} (hnodup : l.Nodup) (ha : a ∈ l) (hlast : f a + 1 = n)
    (hreached : f' a = n) (hnot : ∀ b ∈ l, b ≠ a → f' b = f b) :
    tally l f' n = tally l f n + 1 := by
  rw [← count_eq_one_of_mem hnodup ha]
  apply tally_add
  · intro b _ hb
    obtain rfl : b = a := beq_iff_eq.mp hb
    exact ⟨hlast, hreached⟩
  · intro b hb hne
    exact hnot b hb (beq_eq_false_iff_ne.mp hne)

end

/-- If a measure is bound to grow as long as `done` does not hold, and is bounded until then, `done`
holds at some time. -/
theorem eventually_of_bounded {measure : ℕ → ℕ} {done : ℕ → Prop} {bound : ℕ}
    (hmono : ∀ t, measure t ≤ measure (t + 1))
    (hgrows : ∀ t, ¬ done t → ∃ t' ≥ t, measure t' < measure (t' + 1))
    (hbound : ∀ t, ¬ done t → measure t ≤ bound) : ∃ t, done t := by
  by_contra hnever
  have hnot : ∀ t, ¬ done t := fun t ht => hnever ⟨t, ht⟩
  have hlarge : ∀ k, ∃ t, k ≤ measure t := by
    intro k
    induction k with
    | zero => exact ⟨0, Nat.zero_le _⟩
    | succ k ih =>
      obtain ⟨t, ht⟩ := ih
      obtain ⟨t', ht', hlt⟩ := hgrows t (hnot t)
      have hle : measure t ≤ measure t' := monotone_nat_of_le_succ hmono ht'
      exact ⟨t' + 1, by omega⟩
  obtain ⟨t, ht⟩ := hlarge (bound + 1)
  have hle := hbound t (hnot t)
  omega

end Feldera.Rounds
