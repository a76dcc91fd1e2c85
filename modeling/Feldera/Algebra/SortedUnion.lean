import Mathlib.Tactic

/-!
The union of two association lists that are sorted by key: what two cursors see that walk side by
side, each step at the smaller of the two keys, or at both where the keys are equal.
-/

namespace Feldera.SortedUnion

open List

variable {α β : Type*} [LinearOrder α]

/-- The walk, for as many steps as the fuel allows. -/
def walk (combine : β → β → β) : ℕ → List (α × β) → List (α × β) → List (α × β)
  | 0, _, _ => []
  | _ + 1, [], ys => ys
  | _ + 1, xs, [] => xs
  | fuel + 1, x :: xs, y :: ys =>
    if x.1 < y.1 then x :: walk combine fuel xs (y :: ys)
    else if y.1 < x.1 then y :: walk combine fuel (x :: xs) ys
    else (x.1, combine x.2 y.2) :: walk combine fuel xs ys

/-- The union of two sorted association lists. -/
def unionWith (combine : β → β → β) (xs ys : List (α × β)) : List (α × β) :=
  walk combine (xs.length + ys.length) xs ys

/-- One step of the walk, with the walk from there on. -/
inductive Walk (combine : β → β → β) : List (α × β) → List (α × β) → List (α × β) → Prop
  | left (ys : List (α × β)) : Walk combine [] ys ys
  | right (xs : List (α × β)) : Walk combine xs [] xs
  | less {x y : α × β} {xs ys zs : List (α × β)} (h : x.1 < y.1)
      (rest : Walk combine xs (y :: ys) zs) : Walk combine (x :: xs) (y :: ys) (x :: zs)
  | greater {x y : α × β} {xs ys zs : List (α × β)} (h : y.1 < x.1)
      (rest : Walk combine (x :: xs) ys zs) : Walk combine (x :: xs) (y :: ys) (y :: zs)
  | equal {x y : α × β} {xs ys zs : List (α × β)} (h : x.1 = y.1) (rest : Walk combine xs ys zs) :
      Walk combine (x :: xs) (y :: ys) ((x.1, combine x.2 y.2) :: zs)

variable {combine : β → β → β} {xs ys zs : List (α × β)}

theorem walk_spec {fuel : ℕ} (h : xs.length + ys.length ≤ fuel) :
    Walk combine xs ys (walk combine fuel xs ys) := by
  induction fuel generalizing xs ys with
  | zero =>
    obtain ⟨hx, hy⟩ := Nat.add_eq_zero_iff.mp (Nat.le_zero.mp h)
    rw [length_eq_zero_iff.mp hx, length_eq_zero_iff.mp hy]
    exact .left []
  | succ fuel ih =>
    cases xs with
    | nil => exact .left ys
    | cons x xs =>
      cases ys with
      | nil => exact .right (x :: xs)
      | cons y ys =>
        simp only [length_cons] at h
        simp only [walk]
        split
        · next hlt => exact .less hlt (ih (by simp only [length_cons]; omega))
        · next hle =>
          split
          · next hgt => exact .greater hgt (ih (by simp only [length_cons]; omega))
          · next hge => exact .equal (le_antisymm (not_lt.mp hge) (not_lt.mp hle)) (ih (by omega))

theorem unionWith_spec (combine : β → β → β) (xs ys : List (α × β)) :
    Walk combine xs ys (unionWith combine xs ys) :=
  walk_spec le_rfl

variable (h : Walk combine xs ys zs)
include h

theorem Walk.exists_iff (a : α) {Q : β → Prop} (hQ : ∀ b c, Q (combine b c) ↔ Q b ∨ Q c) :
    (∃ p ∈ zs, p.1 = a ∧ Q p.2) ↔ (∃ p ∈ xs, p.1 = a ∧ Q p.2) ∨ ∃ p ∈ ys, p.1 = a ∧ Q p.2 := by
  induction h with
  | left ys => simp
  | right xs => simp
  | less hlt rest ih =>
    simp only [exists_mem_cons_iff] at ih ⊢
    rw [ih, or_assoc]
  | greater hlt rest ih =>
    simp only [exists_mem_cons_iff] at ih ⊢
    rw [ih, or_left_comm]
  | equal heq rest ih =>
    simp only [exists_mem_cons_iff] at ih ⊢
    rw [ih, hQ, heq, and_or_left, or_or_or_comm]

theorem Walk.fst_mem {p : α × β} (hp : p ∈ zs) : (∃ q ∈ xs, q.1 = p.1) ∨ ∃ q ∈ ys, q.1 = p.1 := by
  have hmem := (h.exists_iff p.1 (Q := fun _ => True) (by simp)).mp ⟨p, hp, rfl, trivial⟩
  simpa using hmem

theorem Walk.sorted (hx : xs.Pairwise fun p q => p.1 < q.1)
    (hy : ys.Pairwise fun p q => p.1 < q.1) : zs.Pairwise fun p q => p.1 < q.1 := by
  induction h with
  | left ys => exact hy
  | right xs => exact hx
  | less hlt rest ih =>
    obtain ⟨hhead, htail⟩ := pairwise_cons.mp hx
    refine pairwise_cons.mpr ⟨fun p hp => ?_, ih htail hy⟩
    rcases rest.fst_mem hp with ⟨q, hq, heq⟩ | ⟨q, hq, heq⟩
    · exact heq ▸ hhead q hq
    · rcases mem_cons.mp hq with rfl | hq
      · exact heq ▸ hlt
      · exact heq ▸ hlt.trans ((pairwise_cons.mp hy).1 q hq)
  | greater hlt rest ih =>
    obtain ⟨hhead, htail⟩ := pairwise_cons.mp hy
    refine pairwise_cons.mpr ⟨fun p hp => ?_, ih hx htail⟩
    rcases rest.fst_mem hp with ⟨q, hq, heq⟩ | ⟨q, hq, heq⟩
    · rcases mem_cons.mp hq with rfl | hq
      · exact heq ▸ hlt
      · exact heq ▸ hlt.trans ((pairwise_cons.mp hx).1 q hq)
    · exact heq ▸ hhead q hq
  | equal hkey rest ih =>
    obtain ⟨hxhead, hxtail⟩ := pairwise_cons.mp hx
    obtain ⟨hyhead, hytail⟩ := pairwise_cons.mp hy
    refine pairwise_cons.mpr ⟨fun p hp => ?_, ih hxtail hytail⟩
    rcases rest.fst_mem hp with ⟨q, hq, heq⟩ | ⟨q, hq, heq⟩
    · exact heq ▸ hxhead q hq
    · exact heq ▸ hkey ▸ hyhead q hq

/-- What holds of all entries of the lists, and of their combinations, holds of the union. -/
theorem Walk.forall_mem {P : β → Prop} (hP : ∀ b c, P b → P c → P (combine b c))
    (hx : ∀ p ∈ xs, P p.2) (hy : ∀ p ∈ ys, P p.2) : ∀ p ∈ zs, P p.2 := by
  induction h with
  | left ys => exact hy
  | right xs => exact hx
  | less hlt rest ih =>
    rw [forall_mem_cons] at hx ⊢
    exact ⟨hx.1, ih hx.2 hy⟩
  | greater hlt rest ih =>
    rw [forall_mem_cons] at hy ⊢
    exact ⟨hy.1, ih hx hy.2⟩
  | equal hkey rest ih =>
    rw [forall_mem_cons] at hx hy ⊢
    exact ⟨hP _ _ hx.1 hy.1, ih hx.2 hy.2⟩

end Feldera.SortedUnion
