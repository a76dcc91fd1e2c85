import Mathlib.Tactic

/-!
The integer types of Rust, with the operations that fail on overflow.
-/

namespace Feldera.Sql

inductive Signed
  | i8 | i16 | i32 | i64 | i128
  deriving DecidableEq

namespace Signed

def bits : Signed → ℕ
  | i8 => 8
  | i16 => 16
  | i32 => 32
  | i64 => 64
  | i128 => 128

def minValue (S : Signed) : ℤ := -2 ^ (S.bits - 1)

def maxValue (S : Signed) : ℤ := 2 ^ (S.bits - 1) - 1

structure Value (S : Signed) where
  val : ℤ
  min_le : S.minValue ≤ val
  le_max : val ≤ S.maxValue
  deriving DecidableEq

def tryFrom (S : Signed) (x : ℤ) : Option S.Value :=
  if h : S.minValue ≤ x ∧ x ≤ S.maxValue then some ⟨x, h.1, h.2⟩ else none

/-- A computed value of the type, if it does not overflow. -/
def checked (S : Signed) (x : ℤ) : Option ℤ :=
  if S.minValue ≤ x ∧ x ≤ S.maxValue then some x else none

theorem checked_eq {S : Signed} {x : ℤ} (hmin : S.minValue ≤ x) (hmax : x ≤ S.maxValue) :
    S.checked x = some x :=
  if_pos ⟨hmin, hmax⟩

end Signed

inductive Unsigned
  | u8 | u16 | u32 | u64 | u128
  deriving DecidableEq

namespace Unsigned

def bits : Unsigned → ℕ
  | u8 => 8
  | u16 => 16
  | u32 => 32
  | u64 => 64
  | u128 => 128

/-- The first value that is too large for the next narrower type. -/
def large : Unsigned → ℕ
  | u8 => 0x1
  | u16 => 0x100
  | u32 => 0x10000
  | u64 => 0x100000000
  | u128 => 0x10000000000000000

def tryFrom (U : Unsigned) (x : ℤ) : Option ℕ :=
  if 0 ≤ x ∧ x < 2 ^ U.bits then some x.toNat else none

end Unsigned

end Feldera.Sql
