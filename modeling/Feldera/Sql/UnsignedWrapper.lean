import Feldera.Sql.Integers

/-!
`UnsignedWrapper`: the encoding of the values of a signed type, and of `NULL`, as unsigned numbers
that rolling aggregates sort and subtract.
-/

namespace Feldera.Sql

class ToInteger (O : Type) (S : Signed) where
  toInteger : O → S.Value

class FromInteger (O : Type) (S : Signed) where
  fromInteger : S.Value → O

instance (S : Signed) : ToInteger S.Value S := ⟨id⟩

instance (S : Signed) : FromInteger S.Value S := ⟨id⟩

namespace UnsignedWrapper

open ToInteger FromInteger Signed

variable {O : Type} (S I : Signed) (U : Unsigned)

/-- Without a result the code panics. -/
def fromSigned [ToInteger O S] (value : O) (ascending _nullsLast : Bool) : Option ℕ := do
  let i := (toInteger value : S.Value).val
  let i ← if ascending then some i else I.checked (-i)
  let i ← I.checked (i - S.minValue)
  let i ← I.checked (i + 1)
  if 0 ≤ i then U.tryFrom i else none

def fromOption [ToInteger O S] (value : Option O) (ascending nullsLast : Bool) : Option ℕ :=
  match value with
  | none => if nullsLast then some U.large else some 0
  | some value => fromSigned S I U value ascending nullsLast

def toSigned [FromInteger O S] (value : ℕ) (ascending _nullsLast : Bool) : Option O := do
  let i ← I.checked value
  let i ← I.checked (i + S.minValue)
  let i ← I.checked (i - 1)
  let i ← if ascending then some i else I.checked (-i)
  let s ← S.tryFrom i
  some (fromInteger s)

def toSignedOption [FromInteger O S] (value : ℕ) (ascending nullsLast : Bool) :
    Option (Option O) :=
  if nullsLast then
    if U.large = value then some none
    else (toSigned S I value ascending nullsLast).map some
  else if value = 0 then some none
  else (toSigned S I value ascending nullsLast).map some

/-- The code of a value: its distance from the reserved code 0. -/
def code (ascending : Bool) (x : ℤ) : ℕ :=
  ((if ascending then x else -x) - S.minValue + 1).toNat

/-- The value's code stays below the one reserved for `NULL` after all values. -/
def Clear (x : ℤ) (ascending nullsLast : Bool) : Prop :=
  nullsLast = true → if ascending then x < S.maxValue else S.minValue + 1 < x

variable {S I U}

/-- Half of the range of `S`, and the room that types of twice its width leave around it. -/
theorem exists_half (hI : I.bits = 2 * S.bits) (hU : U.bits = 2 * S.bits) :
    ∃ p : ℕ, 0 < p ∧ S.minValue = -p ∧ S.maxValue = p - 1 ∧ I.minValue ≤ -(2 * p + 1) ∧
      2 * p + 1 ≤ I.maxValue ∧ (2 * p + 1 : ℤ) < 2 ^ U.bits ∧ U.large = 2 * p := by
  refine ⟨2 ^ (S.bits - 1), ?_⟩
  cases S <;> cases I <;> simp only [bits] at hI <;> first | omega | skip
  all_goals cases U <;> simp only [bits, Unsigned.bits] at hU <;> first | omega | decide

theorem cast_code (ascending : Bool) (x : S.Value) :
    (code S ascending x.val : ℤ) = (if ascending then x.val else -x.val) - S.minValue + 1 := by
  obtain ⟨x, hmin, hmax⟩ := x
  rw [maxValue] at hmax
  rw [minValue] at hmin
  rw [code, minValue]
  cases ascending <;> simp only [if_true, Bool.false_eq_true, if_false] <;> omega

section

variable (hI : I.bits = 2 * S.bits) (hU : U.bits = 2 * S.bits) (ascending nullsLast : Bool)

include hI hU

theorem fromSigned_eq [ToInteger O S] (value : O) :
    fromSigned S I U value ascending nullsLast =
      some (code S ascending (toInteger value : S.Value).val) := by
  obtain ⟨p, -, hS, hS', hI, hI', hU, -⟩ := exists_half hI hU
  have hmin := (toInteger value : S.Value).min_le
  have hmax := (toInteger value : S.Value).le_max
  cases ascending <;>
    simp (disch := omega) only [fromSigned, code, checked_eq, Unsigned.tryFrom,
      Option.bind_eq_bind, Option.bind_some, if_true, Bool.false_eq_true, if_false]
  · rw [if_pos (by omega), if_pos (by omega)]
  · rw [if_pos (by omega), if_pos (by omega)]

theorem toSigned_code [FromInteger O S] (x : S.Value) :
    toSigned S I (code S ascending x.val) ascending nullsLast = some (fromInteger x : O) := by
  obtain ⟨p, -, hS, hS', hI, hI', -⟩ := exists_half hI hU
  have hcode := cast_code ascending x
  obtain ⟨x, hmin, hmax⟩ := x
  simp only [toSigned, hcode]
  cases ascending <;>
    simp (disch := omega) only [checked_eq, Option.bind_eq_bind, Option.bind_some,
      if_true, Bool.false_eq_true, if_false]
  · rw [show -(-x - S.minValue + 1 + S.minValue - 1) = x by omega, tryFrom,
      dif_pos ⟨hmin, hmax⟩, Option.bind_some]
  · rw [show x - S.minValue + 1 + S.minValue - 1 = x by omega, tryFrom,
      dif_pos ⟨hmin, hmax⟩, Option.bind_some]

end

end UnsignedWrapper

end Feldera.Sql
