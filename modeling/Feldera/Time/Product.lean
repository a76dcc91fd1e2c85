import Feldera.Time.Timestamp

/-!
Nested timestamps. The clock of a nested circuit shows a pair of an outer and an inner time. The
causal order is that of the components; the linear order is lexicographic, which is the order in
which the times are executed. The source counts both components in `u32`; here they do not
overflow.
-/

namespace Feldera.Time

open Timestamp

instance : Timestamp ℕ where
  lessEqual a b := decide (a ≤ b)
  join := max
  minimum := 0
  lessEqual_refl a := by simp
  lessEqual_trans a b c := by
    simp only [decide_eq_true_eq]
    exact le_trans
  lessEqual_antisymm a b := by
    simp only [decide_eq_true_eq]
    exact le_antisymm
  left_join a b := by simp
  right_join a b := by simp
  join_lessEqual a b c := by
    simp only [decide_eq_true_eq]
    exact max_le
  minimum_lessEqual a := by simp

@[ext] structure Product (TOuter TInner : Type*) where
  outer : TOuter
  inner : TInner

namespace Product

variable {TOuter TInner : Type*}

instance [LinearOrder TOuter] [LinearOrder TInner] : LinearOrder (Product TOuter TInner) :=
  LinearOrder.lift' (fun t => toLex (t.outer, t.inner)) fun a b h => by
    have hpair : (a.outer, a.inner) = (b.outer, b.inner) := toLex.injective h
    exact Product.ext (Prod.ext_iff.mp hpair).1 (Prod.ext_iff.mp hpair).2

instance [LinearOrder TOuter] [Timestamp TOuter] [LinearOrder TInner] [Timestamp TInner] :
    Timestamp (Product TOuter TInner) where
  lessEqual a b := lessEqual a.outer b.outer && lessEqual a.inner b.inner
  join a b := ⟨Timestamp.join a.outer b.outer, Timestamp.join a.inner b.inner⟩
  minimum := ⟨Timestamp.minimum, Timestamp.minimum⟩
  lessEqual_refl a := by simp [lessEqual_refl]
  lessEqual_trans a b c hab hbc := by
    simp only [Bool.and_eq_true] at hab hbc ⊢
    exact ⟨lessEqual_trans _ _ _ hab.1 hbc.1, lessEqual_trans _ _ _ hab.2 hbc.2⟩
  lessEqual_antisymm a b hab hba := by
    simp only [Bool.and_eq_true] at hab hba
    exact Product.ext (lessEqual_antisymm _ _ hab.1 hba.1)
      (lessEqual_antisymm _ _ hab.2 hba.2)
  left_join a b := by simp [left_join]
  right_join a b := by simp [right_join]
  join_lessEqual a b c hac hbc := by
    simp only [Bool.and_eq_true] at hac hbc ⊢
    exact ⟨join_lessEqual _ _ _ hac.1 hbc.1, join_lessEqual _ _ _ hac.2 hbc.2⟩
  minimum_lessEqual a := by simp [minimum_lessEqual]

theorem le_iff [LinearOrder TOuter] [LinearOrder TInner] {a b : Product TOuter TInner} :
    a ≤ b ↔ a.outer < b.outer ∨ a.outer = b.outer ∧ a.inner ≤ b.inner :=
  Prod.Lex.toLex_le_toLex

end Product

abbrev Nested := Product ℕ ℕ

namespace Nested

theorem lessEqual_iff {a b : Nested} :
    lessEqual a b = true ↔ a.outer ≤ b.outer ∧ a.inner ≤ b.inner := by
  change (decide (a.outer ≤ b.outer) && decide (a.inner ≤ b.inner)) = true ↔ _
  simp

@[simp] theorem outer_join (a b : Nested) :
    (Timestamp.join a b).outer = max a.outer b.outer := rfl

@[simp] theorem inner_join (a b : Nested) :
    (Timestamp.join a b).inner = max a.inner b.inner := rfl

def checkedRecede (scope : ℕ) (t : Nested) : Option Nested :=
  if scope = 0 then
    match t.inner with
    | 0 => none
    | inner + 1 => some ⟨t.outer, inner⟩
  else
    match t.outer with
    | 0 => none
    | outer + 1 => some ⟨outer, t.inner⟩

def epochStart (t : Nested) : Nested := ⟨t.outer, 0⟩

/-- Comparison with `epoch_end(0)`, whose inner time is the greatest one. -/
def withinEpoch (ts t : Nested) : Bool := decide (ts.outer ≤ t.outer)

end Nested

end Feldera.Time
