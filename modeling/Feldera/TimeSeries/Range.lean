import Mathlib.Tactic

/-!
Time ranges relative to a timestamp. Timestamps are unsigned integers of any width, so that the ends
of a range saturate or are undefined near zero and near the largest timestamp. A timestamp lies in
the range of another exactly when their distance lies between the offsets, whichever of the two the
range is computed from.
-/

namespace Feldera.TimeSeries

open BitVec Option

variable {w : ℕ}

section

variable (a b : BitVec w)

def checkedAdd : Option (BitVec w) :=
  if a.toNat + b.toNat < 2 ^ w then some (a + b) else none

def checkedSub : Option (BitVec w) :=
  if b ≤ a then some (a - b) else none

def saturatingAdd : BitVec w := (checkedAdd a b).getD (BitVec.allOnes w)

def saturatingSub : BitVec w := (checkedSub a b).getD 0

variable {a b} {c : BitVec w}

theorem checkedAdd_eq_some : checkedAdd a b = some c ↔ c.toNat = a.toNat + b.toNat := by
  have hc := c.isLt
  simp only [checkedAdd, ite_none_right_eq_some, Option.some.injEq, ← toNat_inj,
    toNat_add]
  constructor
  · rintro ⟨hlt, heq⟩
    rw [← heq, Nat.mod_eq_of_lt hlt]
  · intro heq
    have hlt : a.toNat + b.toNat < 2 ^ w := heq ▸ hc
    exact ⟨hlt, by rw [Nat.mod_eq_of_lt hlt, heq]⟩

theorem checkedSub_eq_some : checkedSub a b = some c ↔ c.toNat + b.toNat = a.toNat := by
  simp only [checkedSub, ite_none_right_eq_some, Option.some.injEq, ← toNat_inj,
    le_def]
  constructor
  · rintro ⟨hle, heq⟩
    rw [← heq, toNat_sub_of_le hle]
    omega
  · intro heq
    have hle : b.toNat ≤ a.toNat := by omega
    exact ⟨hle, by rw [toNat_sub_of_le hle]; omega⟩

theorem toNat_saturatingAdd (a b : BitVec w) :
    (saturatingAdd a b).toNat = min (a.toNat + b.toNat) (2 ^ w - 1) := by
  cases h : checkedAdd a b with
  | some c =>
    have hc := c.isLt
    rw [saturatingAdd, h, getD_some, checkedAdd_eq_some.mp h]
    rw [checkedAdd_eq_some.mp h] at hc
    omega
  | none =>
    have hle : 2 ^ w ≤ a.toNat + b.toNat := by simpa [checkedAdd] using h
    rw [saturatingAdd, h, getD_none, toNat_allOnes]
    omega

theorem toNat_saturatingSub (a b : BitVec w) : (saturatingSub a b).toNat = a.toNat - b.toNat := by
  cases h : checkedSub a b with
  | some c =>
    have heq := checkedSub_eq_some.mp h
    rw [saturatingSub, h, getD_some]
    omega
  | none =>
    have hlt : a < b := by simpa [checkedSub] using h
    rw [saturatingSub, h, getD_none, ofNat_eq_ofNat, toNat_zero]
    rw [lt_def] at hlt
    omega

end

inductive RelOffset (w : ℕ)
  | before (off : BitVec w)
  | after (off : BitVec w)

namespace RelOffset

def neg : RelOffset w → RelOffset w
  | .before ts => .after ts
  | .after ts => .before ts

def toInt : RelOffset w → ℤ
  | .before off => -off.toNat
  | .after off => off.toNat

variable (offset : RelOffset w)

@[simp]
theorem toInt_neg : offset.neg.toInt = -offset.toInt := by
  cases offset <;> simp [neg, toInt]

/-- The lower end of a range at an offset from `ts`. -/
def lower (ts : BitVec w) : RelOffset w → Option (BitVec w)
  | .before off => some (saturatingSub ts off)
  | .after off => checkedAdd ts off

/-- The upper end of a range at an offset from `ts`. -/
def upper (ts : BitVec w) : RelOffset w → Option (BitVec w)
  | .before off => checkedSub ts off
  | .after off => some (saturatingAdd ts off)

variable (ts s : BitVec w)

theorem lower_le :
    (∃ first, offset.lower ts = some first ∧ first ≤ s) ↔
      offset.toInt ≤ (s.toNat : ℤ) - ts.toNat := by
  simp only [le_def]
  cases offset with
  | before off =>
    simp only [lower, Option.some.injEq, exists_eq_left', toNat_saturatingSub, toInt]
    omega
  | after off =>
    simp only [lower, checkedAdd_eq_some, toInt]
    constructor
    · rintro ⟨first, hfirst, hle⟩
      omega
    · intro hle
      refine ⟨BitVec.ofNat w (ts.toNat + off.toNat), ?_, ?_⟩ <;>
        rw [toNat_ofNat, Nat.mod_eq_of_lt (by omega)]
      omega

theorem le_upper :
    (∃ last, offset.upper ts = some last ∧ s ≤ last) ↔
      (s.toNat : ℤ) - ts.toNat ≤ offset.toInt := by
  simp only [le_def]
  cases offset with
  | before off =>
    simp only [upper, checkedSub_eq_some, toInt]
    constructor
    · rintro ⟨last, hlast, hle⟩
      omega
    · intro hle
      refine ⟨BitVec.ofNat w (ts.toNat - off.toNat), ?_, ?_⟩ <;>
        rw [toNat_ofNat, Nat.mod_eq_of_lt (by omega)] <;> omega
  | after off =>
    simp only [upper, Option.some.injEq, exists_eq_left', toNat_saturatingAdd, toInt]
    omega

end RelOffset

structure RelRange (w : ℕ) where
  from_ : RelOffset w
  to_ : RelOffset w

structure Range (w : ℕ) where
  from_ : BitVec w
  to_ : BitVec w
deriving DecidableEq

def Range.Contains (range : Range w) (ts : BitVec w) : Prop := range.from_ ≤ ts ∧ ts ≤ range.to_

namespace RelRange

variable (r : RelRange w)

def rangeOf (ts : BitVec w) : Option (Range w) := do
  let from_ ← r.from_.lower ts
  let to_ ← r.to_.upper ts
  some ⟨from_, to_⟩

/-- `affected_range_of`, whose ends are those of the opposite offsets. -/
def affectedRangeOf (ts : BitVec w) : Option (Range w) := do
  let from_ ← r.to_.neg.lower ts
  let to_ ← r.from_.neg.upper ts
  some ⟨from_, to_⟩

theorem exists_contains (from_ to_ : RelOffset w) (ts s : BitVec w) :
    (∃ range, (do
        let first ← from_.lower ts
        let last ← to_.upper ts
        some (⟨first, last⟩ : Range w)) = some range ∧ range.Contains s) ↔
      from_.toInt ≤ (s.toNat : ℤ) - ts.toNat ∧ (s.toNat : ℤ) - ts.toNat ≤ to_.toInt := by
  rw [← RelOffset.lower_le, ← RelOffset.le_upper]
  simp only [bind_eq_bind, bind_eq_some_iff, Option.some.injEq, Range.Contains]
  constructor
  · rintro ⟨-, ⟨first, hfirst, last, hlast, rfl⟩, hle, hge⟩
    exact ⟨⟨first, hfirst, hle⟩, last, hlast, hge⟩
  · rintro ⟨⟨first, hfirst, hle⟩, last, hlast, hge⟩
    exact ⟨_, ⟨first, hfirst, last, hlast, rfl⟩, hle, hge⟩

/-- The assertion of `Range::new` in `affected_range_of` holds. -/
theorem affectedRangeOf_ordered (hr : r.from_.toInt ≤ r.to_.toInt) {ts : BitVec w} {range : Range w}
    (h : r.affectedRangeOf ts = some range) : range.from_ ≤ range.to_ := by
  simp only [affectedRangeOf, bind_eq_bind, bind_eq_some_iff, Option.some.injEq] at h
  obtain ⟨first, hfirst, last, hlast, rfl⟩ := h
  obtain ⟨from_, to_⟩ := r
  simp only [le_def]
  cases to_ <;> cases from_ <;>
    simp only [RelOffset.neg, RelOffset.lower, RelOffset.upper, RelOffset.toInt, Option.some.injEq,
      checkedAdd_eq_some, checkedSub_eq_some, ← toNat_inj, toNat_saturatingSub,
      toNat_saturatingAdd] at hfirst hlast hr <;>
    omega

/-- `s` lies in the range of `t` exactly when `t` lies in the range that `s` affects. -/
theorem range_duality (hr : r.from_.toInt ≤ r.to_.toInt) (t s : BitVec w) :
    ((∃ range, r.rangeOf t = some range ∧ range.Contains s) ↔
      ∃ range, r.affectedRangeOf s = some range ∧ range.Contains t) ∧
    ∀ range, r.affectedRangeOf s = some range → range.from_ ≤ range.to_ := by
  refine ⟨?_, fun range => r.affectedRangeOf_ordered hr⟩
  rw [rangeOf, affectedRangeOf, exists_contains, exists_contains, RelOffset.toInt_neg,
    RelOffset.toInt_neg]
  omega

/-- The range of 5 from 3 before to 1 before has 2, and 2 affects 3 to 5. -/
theorem range_duality_five :
    let r : RelRange 8 := ⟨.before 3, .before 1⟩
    ((∃ range, r.rangeOf 5 = some range ∧ range.Contains 2) ↔
      ∃ range, r.affectedRangeOf 2 = some range ∧ range.Contains 5) ∧
    r.rangeOf 5 = some ⟨2, 4⟩ ∧ r.affectedRangeOf 2 = some ⟨3, 5⟩ :=
  ⟨(range_duality _ (by decide) 5 2).1, by decide, by decide⟩

end RelRange

end Feldera.TimeSeries
