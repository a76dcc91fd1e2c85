import Feldera.Sql.Integers

/-!
The string functions of SQL that take positions. Positions count characters from 1, while the code
slices strings at byte offsets, which it finds by walking over the characters. A function without a
result panics: on an overflow of 32 bits, or on an offset inside a character.
-/

namespace Feldera.Sql

open List Option

abbrev I32 := Signed.i32.Value

theorem I32.bounds (a : I32) : -2147483648 ≤ a.val ∧ a.val ≤ 2147483647 := ⟨a.min_le, a.le_max⟩

theorem checked_i32 {x : ℤ} (hmin : -2147483648 ≤ x) (hmax : x ≤ 2147483647) :
    Signed.i32.checked x = some x :=
  Signed.checked_eq hmin hmax

namespace Strings

variable (s : List Char)

def byteLen : ℕ := (s.map Char.utf8Size).sum

def splitAtByte : List Char → ℕ → Option (List Char × List Char)
  | s, 0 => some ([], s)
  | [], _ + 1 => none
  | c :: s, n + 1 =>
    if c.utf8Size ≤ n + 1 then (splitAtByte s (n + 1 - c.utf8Size)).map fun p => (c :: p.1, p.2)
    else none

def sliceFrom (start : ℕ) : Option (List Char) :=
  (splitAtByte s start).map Prod.snd

def sliceTo (stop : ℕ) : Option (List Char) := (splitAtByte s stop).map Prod.fst

def slice (start stop : ℕ) : Option (List Char) := do
  sliceFrom (← sliceTo s stop) start

def charIndices : ℕ → List Char → List ℕ
  | _, [] => []
  | byte, c :: s => byte :: charIndices (byte + c.utf8Size) s

/-- The loop of `byte_index` and `byte_index_rev` from the given count on. -/
def findIndex (charIndex : ℕ) : ℕ → List ℕ → Option ℕ
  | _, [] => none
  | count, byte :: l => if charIndex = count then some byte else findIndex charIndex (count + 1) l

def byteIndex (charIndex : ℕ) : ℕ :=
  if charIndex < byteLen s then (findIndex charIndex 0 (charIndices 0 s)).getD (byteLen s)
  else byteLen s

def byteIndexRev (charIndex : ℕ) : ℕ :=
  if charIndex < byteLen s then (findIndex charIndex 0 (charIndices 0 s).reverse).getD 0 else 0

def substring3 (left count : ℤ) : Option (List Char) :=
  if count ≤ 0 then some []
  else do
    let (startChar, charCount) ←
      if left < 1 then do
        let c ← Signed.i32.checked (count + left)
        let c ← Signed.i32.checked (c - 1)
        some (0, (max c 0).toNat)
      else do
        let l ← Signed.i32.checked (left - 1)
        some (l.toNat, count.toNat)
    let startByte := byteIndex s startChar
    let endByte := byteIndex (← sliceFrom s startByte) charCount + startByte
    slice s startByte endByte

def substring2 (left : ℤ) : Option (List Char) := do
  let charIndex ← Signed.i32.checked (max left 1 - 1)
  sliceFrom s (byteIndex s charIndex.toNat)

def left (nChars : ℤ) : Option (List Char) :=
  if nChars ≤ 0 then some []
  else
    let nBytes := byteIndex s nChars.toNat
    if nBytes < byteLen s then sliceTo s nBytes else some s

def right (nChars : ℤ) : Option (List Char) :=
  if nChars ≤ 0 then some []
  else do
    let charIndex ← Signed.i32.checked (nChars - 1)
    let byteIndex := byteIndexRev s charIndex.toNat
    if byteIndex = 0 then some s else sliceFrom s byteIndex

def asI32 (n : ℕ) : ℤ := (n + 2147483648) % 4294967296 - 2147483648

def charLength : ℤ := asI32 s.length

def overlay4 (source replacement : List Char) (position remove : ℤ) : Option (List Char) :=
  let remove := if remove < 0 then 0 else remove
  if position ≤ 0 then some source
  else if charLength source < position then some (source ++ replacement)
  else do
    let start ← substring3 source 1 (← Signed.i32.checked (position - 1))
    let stop ← substring2 source (← Signed.i32.checked (position + remove))
    some (start ++ replacement ++ stop)

def overlay3 (source replacement : List Char) (position : ℤ) : Option (List Char) :=
  overlay4 source replacement position (charLength replacement)

def find (needle : List Char) : ℕ → List Char → Option ℕ
  | byte, [] => if needle = [] then some byte else none
  | byte, c :: s =>
    if needle <+: c :: s then some byte else find needle (byte + c.utf8Size) s

def position (needle haystack : List Char) : Option ℤ :=
  match find needle 0 haystack with
  | none => some 0
  | some i => do
    let s ← sliceTo haystack i
    some (asI32 (s.length + 1))

def span (a b : ℤ) : List Char :=
  ((s.zipIdx 1).filter fun p => a ≤ p.2 ∧ p.2 < b).map Prod.fst

def suffix (a : ℤ) : List Char := span s a (s.length + 1)

section

variable (s t : List Char)

@[simp] theorem byteLen_nil : byteLen [] = 0 := rfl

@[simp] theorem byteLen_cons (c : Char) : byteLen (c :: s) = c.utf8Size + byteLen s := by
  simp [byteLen]

@[simp] theorem byteLen_append : byteLen (s ++ t) = byteLen s + byteLen t := by
  simp [byteLen]

theorem length_le_byteLen : s.length ≤ byteLen s := by
  induction s with
  | nil => exact Nat.zero_le _
  | cons c s ih =>
    have := c.utf8Size_pos
    simp only [length_cons, byteLen_cons]
    omega

theorem eq_nil_of_byteLen_eq_zero {s : List Char} (h : byteLen s = 0) : s = [] :=
  eq_nil_of_length_eq_zero (Nat.eq_zero_of_le_zero (h ▸ length_le_byteLen s))

theorem splitAtByte_append : splitAtByte (s ++ t) (byteLen s) = some (s, t) := by
  induction s with
  | nil => cases t <;> rfl
  | cons c s ih =>
    obtain ⟨n, hn⟩ := Nat.exists_eq_succ_of_ne_zero
      (show byteLen (c :: s) ≠ 0 by have := c.utf8Size_pos; simp; omega)
    have hle : c.utf8Size ≤ n + 1 := by simp at hn; omega
    have hsub : n + 1 - c.utf8Size = byteLen s := by simp at hn; omega
    rw [hn, cons_append, splitAtByte, if_pos hle, hsub, ih]
    rfl

variable (n : ℕ)

theorem splitAtByte_take : splitAtByte s (byteLen (s.take n)) = some (s.take n, s.drop n) := by
  simpa using splitAtByte_append (s.take n) (s.drop n)

/-- The offset of every character is the length of the characters before it. -/
theorem getElem?_charIndices (byte n : ℕ) :
    (charIndices byte s)[n]? = if n < s.length then some (byte + byteLen (s.take n)) else none := by
  induction s generalizing byte n with
  | nil => rfl
  | cons c s ih =>
    cases n with
    | zero => simp [charIndices]
    | succ n => simp [charIndices, ih, Nat.add_assoc]

theorem findIndex_eq (charIndex count : ℕ) (l : List ℕ) (h : count ≤ charIndex) :
    findIndex charIndex count l = l[charIndex - count]? := by
  induction l generalizing count with
  | nil => rfl
  | cons byte l ih =>
    rw [findIndex]
    by_cases heq : charIndex = count
    · simp [heq]
    · rw [if_neg heq, ih _ (by omega), show charIndex - count = charIndex - (count + 1) + 1 by omega]
      rfl

theorem byteIndex_eq : byteIndex s n = byteLen (s.take n) := by
  have hlen := length_le_byteLen s
  rw [byteIndex, findIndex_eq _ _ _ n.zero_le, Nat.sub_zero, getElem?_charIndices]
  by_cases hn : n < s.length
  · simp [hn, show n < byteLen s by omega]
  · simp [hn, take_of_length_le (not_lt.mp hn)]

theorem length_charIndices (byte : ℕ) : (charIndices byte s).length = s.length := by
  induction s generalizing byte with
  | nil => rfl
  | cons c s ih => simp [charIndices, ih]

theorem byteIndexRev_eq : byteIndexRev s n = byteLen (s.take (s.length - (n + 1))) := by
  have hlen := length_le_byteLen s
  rw [byteIndexRev, findIndex_eq _ _ _ n.zero_le, Nat.sub_zero]
  by_cases hn : n < s.length
  · rw [List.getElem?_reverse (by rwa [length_charIndices]), getElem?_charIndices,
      length_charIndices, Nat.sub_sub, Nat.add_comm 1 n]
    simp [show n < byteLen s by omega, show s.length - (n + 1) < s.length by omega]
  · rw [List.getElem?_eq_none (by simpa [length_charIndices] using hn),
      Nat.sub_eq_zero_of_le (by omega)]
    simp

@[simp] theorem sliceFrom_byteLen : sliceFrom s (byteLen (s.take n)) = some (s.drop n) := by
  rw [sliceFrom, splitAtByte_take, map_some]

@[simp] theorem sliceTo_byteLen : sliceTo s (byteLen (s.take n)) = some (s.take n) := by
  rw [sliceTo, splitAtByte_take, map_some]

theorem slice_byteLen (m n : ℕ) :
    slice s (byteLen (s.take m)) (byteLen ((s.drop m).take n) + byteLen (s.take m)) =
      some ((s.drop m).take n) := by
  have hstop : byteLen ((s.drop m).take n) + byteLen (s.take m) = byteLen (s.take (m + n)) := by
    rw [take_add, byteLen_append, Nat.add_comm]
  have hstart : s.take m = (s.take (m + n)).take m := by rw [take_take, Nat.min_eq_left (by omega)]
  rw [slice, hstop, sliceTo_byteLen, hstart]
  change sliceFrom _ _ = _
  rw [sliceFrom_byteLen, drop_take, Nat.add_sub_cancel_left]

end

/-- Positions as counts of characters to skip and to take. -/
theorem span_zipIdx (s : List Char) (k : ℕ) (a b : ℤ) :
    ((s.zipIdx k).filter fun p => a ≤ p.2 ∧ p.2 < b).map Prod.fst =
      (s.drop (a - k).toNat).take (b - max a k).toNat := by
  induction s generalizing k with
  | nil => simp
  | cons c s ih =>
    have ih := ih (k + 1)
    rw [zipIdx_cons, filter_cons]
    by_cases hk : (k : ℤ) < a
    · rw [show (a - k).toNat = (a - (k + 1 : ℕ)).toNat + 1 by omega,
        show max a (k : ℤ) = max a (k + 1 : ℕ) by omega, drop_succ_cons, ← ih]
      simp [show ¬a ≤ k by omega]
    rw [show (a - (k + 1 : ℕ)).toNat = 0 by omega] at ih
    rw [show (a - k).toNat = 0 by omega]
    by_cases hb : (k : ℤ) < b
    · rw [show (b - max a k).toNat = (b - max a (k + 1 : ℕ)).toNat + 1 by omega, drop_zero,
        take_succ_cons, ← drop_zero (l := s), ← ih]
      simp [show a ≤ k by omega, hb]
    · rw [show (b - max a (k + 1 : ℕ)).toNat = 0 by omega] at ih
      rw [show (b - max a k).toNat = 0 by omega, take_zero, if_neg (by simp [hb]), ih,
        take_zero]

theorem span_eq (s : List Char) (a b : ℤ) :
    span s a b = (s.drop (a - 1).toNat).take (b - max a 1).toNat :=
  span_zipIdx s 1 a b

theorem suffix_eq (s : List Char) (a : ℤ) : suffix s a = s.drop (a - 1).toNat := by
  rw [suffix, span_eq, take_of_length_le]
  rw [length_drop]
  omega

section

variable (s r : List Char) (a n p m : I32)

theorem substring3_eq : substring3 s a.val n.val = some (span s a.val (a.val + n.val)) := by
  have ha := a.bounds
  have hn := n.bounds
  generalize a.val = a at *
  generalize n.val = n at *
  rw [substring3, span_eq]
  by_cases hzero : n ≤ 0
  · rw [if_pos hzero, show (a + n - max a 1).toNat = 0 by omega, take_zero]
  rw [if_neg hzero]
  by_cases hone : a < 1
  · simp (disch := omega) only [hone, if_true, checked_i32, bind_eq_bind, bind_some,
      byteIndex_eq, sliceFrom_byteLen, slice_byteLen]
    rw [show (a - 1).toNat = 0 by omega, 
      show (a + n - max a 1).toNat = (max (n + a - 1) 0).toNat by omega]
  · simp (disch := omega) only [hone, if_false, checked_i32, bind_eq_bind, bind_some,
      byteIndex_eq, sliceFrom_byteLen, slice_byteLen]
    rw [show a + n - max a 1 = n by omega]

theorem substring2_eq : substring2 s a.val = some (suffix s a.val) := by
  have ha := a.bounds
  simp (disch := omega) only [substring2, checked_i32, bind_eq_bind, bind_some,
    byteIndex_eq, sliceFrom_byteLen, suffix_eq]
  rw [show (max a.val 1 - 1).toNat = (a.val - 1).toNat by omega]

theorem left_eq : left s n.val = some (span s 1 (n.val + 1)) := by
  rw [left, span_eq]
  by_cases hzero : n.val ≤ 0
  · rw [if_pos hzero, show (n.val + 1 - max 1 1).toNat = 0 by omega, take_zero]
  rw [if_neg hzero, byteIndex_eq, show (n.val + 1 - max 1 1).toNat = n.val.toNat by omega]
  have hlen := congrArg byteLen (take_append_drop n.val.toNat s)
  rw [byteLen_append] at hlen
  by_cases hlt : byteLen (s.take n.val.toNat) < byteLen s
  · simp only [hlt, if_true, sliceTo_byteLen, sub_self, Int.toNat_zero, drop_zero]
  · have hnil : s.drop n.val.toNat = [] := eq_nil_of_byteLen_eq_zero (by omega)
    simp only [hlt, if_false, sub_self, Int.toNat_zero, drop_zero]
    rw [take_of_length_le (drop_eq_nil_iff.mp hnil)]

theorem right_eq : right s n.val = some (suffix s (s.length - n.val + 1)) := by
  have hn := n.bounds
  rw [right, suffix_eq]
  by_cases hzero : n.val ≤ 0
  · rw [if_pos hzero, drop_of_length_le (by omega)]
  rw [if_neg hzero]
  simp (disch := omega) only [checked_i32, bind_eq_bind, bind_some, byteIndexRev_eq]
  rw [show (s.length - n.val + 1 - 1).toNat = s.length - ((n.val - 1).toNat + 1) by omega]
  split
  · next hbyte =>
    conv_lhs => rw [← take_append_drop (s.length - ((n.val - 1).toNat + 1)) s,
      eq_nil_of_byteLen_eq_zero hbyte, nil_append]
  · exact sliceFrom_byteLen ..

theorem asI32_eq {n : ℕ} (h : n < 2147483648) : asI32 n = n := by
  rw [asI32]
  omega

theorem overlay4_eq (hs : s.length < 2147483648) (hp : 1 ≤ p.val) (hm : 0 ≤ m.val)
    (hfits : p.val ≤ s.length → p.val + m.val ≤ 2147483647) :
    overlay4 s r p.val m.val = some (span s 1 p.val ++ r ++ suffix s (p.val + m.val)) := by
  rw [overlay4, charLength, asI32_eq hs, if_neg (by omega : ¬m.val < 0),
    if_neg (by omega : ¬p.val ≤ 0)]
  by_cases hlt : (s.length : ℤ) < p.val
  · have hspan : span s 1 p.val = s := by
      rw [span_eq, sub_self, Int.toNat_zero, drop_zero, take_of_length_le (by omega)]
    rw [if_pos hlt, hspan, suffix_eq, drop_of_length_le (by omega), append_nil]
  rw [if_neg hlt, checked_i32 (by omega) (by omega), checked_i32 (by omega) (by omega)]
  have h3 := substring3_eq s ⟨1, by decide, by decide⟩
    ⟨p.val - 1, (by omega : -2147483648 ≤ p.val - 1), (by omega : p.val - 1 ≤ 2147483647)⟩
  have h2 := substring2_eq s ⟨p.val + m.val, (by omega : -2147483648 ≤ p.val + m.val),
    (by omega : p.val + m.val ≤ 2147483647)⟩
  simp only [add_sub_cancel] at h3
  simp only [bind_eq_bind, bind_some, h2, h3]

/-- What `find` returns is the length of the characters before the first place. -/
theorem find_eq (needle : List Char) (byte : ℕ) :
    (find needle byte s = none ∧ ∀ i, ¬needle <+: s.drop i) ∨
      ∃ i ≤ s.length, find needle byte s = some (byte + byteLen (s.take i)) ∧
        needle <+: s.drop i ∧ ∀ j < i, ¬needle <+: s.drop j := by
  induction s generalizing byte with
  | nil =>
    by_cases h : needle = []
    · exact .inr ⟨0, le_rfl, by simp [find, h], by simp [h], by simp⟩
    · exact .inl ⟨by simp [find, h], by simpa using h⟩
  | cons c s ih =>
    rw [find]
    by_cases h : needle <+: c :: s
    · exact .inr ⟨0, Nat.zero_le _, by simp [h], h, by simp⟩
    rw [if_neg h]
    have hcons {P : ℕ → Prop} (h0 : P 0) (hs : ∀ j, P (j + 1)) (j : ℕ) : P j := by
      cases j
      · exact h0
      · exact hs _
    obtain ⟨hnone, hall⟩ | ⟨i, hi, hfind, hat, hbefore⟩ := ih (byte + c.utf8Size)
    · exact .inl ⟨hnone, hcons h hall⟩
    · refine .inr ⟨i + 1, Nat.succ_le_succ hi, by simp [hfind, Nat.add_assoc], hat, ?_⟩
      rintro (_ | j) hj
      · exact h
      · exact hbefore j (by omega)

theorem position_eq (hs : s.length < 2147483647) :
    ∃ p, position r s = some p ∧ (p = 0 ∧ (∀ i, ¬r <+: s.drop i) ∨
      ∃ i : ℕ, p = i + 1 ∧ r <+: s.drop i ∧ ∀ j < i, ¬r <+: s.drop j) := by
  obtain ⟨hnone, hall⟩ | ⟨i, hi, hfind, hat, hbefore⟩ := find_eq s r 0
  · exact ⟨0, by rw [position, hnone], .inl ⟨rfl, hall⟩⟩
  refine ⟨i + 1, ?_, .inr ⟨i, rfl, hat, hbefore⟩⟩
  rw [Nat.zero_add] at hfind
  simp only [position, hfind, sliceTo_byteLen, bind_eq_bind, bind_some]
  rw [length_take, Nat.min_eq_left hi, asI32_eq (by omega)]
  rfl

end

end Strings

end Feldera.Sql
