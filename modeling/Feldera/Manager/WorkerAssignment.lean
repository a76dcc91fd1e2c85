import Mathlib.Tactic

/-!
Which compiler worker a pipeline belongs to. The Rust code reads the first eight bytes of the
identifier as an unsigned number, the SQL queries for the next compilation as a signed one of which
they take the absolute value. The two agree where the first bit is not set, and otherwise only where
the number and its two's complement have the same remainder.
-/

namespace Feldera.Manager

abbrev PipelineId := Vector UInt8 16

def fromBeBytes (bytes : List UInt8) : ℕ :=
  bytes.foldl (fun value byte => value * 256 + byte.toNat) 0

def piplineUuidToU64 (id : PipelineId) : ℕ := fromBeBytes (id.toList.take 8)

/-- `is_pipeline_assigned_to_worker`; a remainder by zero panics. -/
def isPipelineAssignedToWorker (id : PipelineId) (workerIndex totalWorkers : ℕ) : Option Bool :=
  if totalWorkers = 0 then none
  else some (piplineUuidToU64 id % totalWorkers == workerIndex)

section

inductive SqlError
  | bigintOutOfRange
  | divisionByZero
deriving DecidableEq

/-- `total_workers as i64`, `worker_id as i64` and the cast from `bit(64)` to `bigint`. -/
def toBigint (n : ℕ) : ℤ := if n < 2 ^ 63 then n else n - 2 ^ 64

def hexText (bytes : List UInt8) : List Char :=
  bytes.flatMap fun byte =>
    [Nat.digitChar (byte.toNat / 16), Nat.digitChar (byte.toNat % 16)]

def idText (id : PipelineId) : List Char :=
  hexText (id.toList.take 4) ++ '-' :: hexText ((id.toList.drop 4).take 2) ++
    '-' :: hexText ((id.toList.drop 6).take 2) ++ '-' :: hexText ((id.toList.drop 8).take 2) ++
    '-' :: hexText (id.toList.drop 10)

def hexValue (c : Char) : ℕ :=
  if c.isDigit then c.toNat - '0'.toNat else c.toNat - 'a'.toNat + 10

def hexBits (digits : List Char) : ℕ :=
  digits.foldl (fun value digit => value * 16 + hexValue digit) 0

def absBigint (n : ℤ) : Except SqlError ℤ :=
  if n = -2 ^ 63 then .error .bigintOutOfRange else .ok |n|

/-- `abs(('x' || substr(replace(p.id::text, '-', ''), 1, 16))::bit(64)::bigint) % $2) = $3`. -/
def sqlAssigned (id : PipelineId) (workerId totalWorkers : ℕ) : Except SqlError Bool := do
  let digits := ((idText id).filter (· ≠ '-')).take 16
  let hash ← absBigint (toBigint (hexBits digits))
  if toBigint totalWorkers = 0 then .error .divisionByZero
  else pure (hash.tmod (toBigint totalWorkers) == toBigint workerId)

theorem hexText_append (bytes bytes' : List UInt8) :
    hexText (bytes ++ bytes') = hexText bytes ++ hexText bytes' :=
  List.flatMap_append

variable (bytes : List UInt8)

theorem length_hexText : (hexText bytes).length = 2 * bytes.length := by
  simp [hexText, Nat.mul_comm]

theorem hexValue_digitChar (n : Fin 16) : hexValue (Nat.digitChar n) = n := by
  revert n
  decide

theorem filter_hexText : (hexText bytes).filter (· ≠ '-') = hexText bytes := by
  refine List.filter_eq_self.mpr fun c hc => ?_
  obtain ⟨byte, -, hc⟩ := List.mem_flatMap.mp hc
  simp only [List.mem_cons, List.not_mem_nil, or_false] at hc
  rcases hc with rfl | rfl <;> simp

theorem foldl_hexText (value : ℕ) :
    (hexText bytes).foldl (fun value digit => value * 16 + hexValue digit) value =
      bytes.foldl (fun value byte => value * 256 + byte.toNat) value := by
  induction bytes generalizing value with
  | nil => rfl
  | cons byte bytes ih =>
    have hlt := byte.toNat_lt
    have hhigh := hexValue_digitChar ⟨byte.toNat / 16, by omega⟩
    have hlow := hexValue_digitChar ⟨byte.toNat % 16, by omega⟩
    rw [← List.singleton_append, hexText_append, List.foldl_append, ih, List.foldl_append]
    congr 1
    simp only [hexText, List.flatMap_singleton, List.foldl_cons, List.foldl_nil] at hhigh hlow ⊢
    rw [hhigh, hlow]
    omega

/-- The query reads the same eight bytes. -/
theorem hexBits_idText (id : PipelineId) :
    hexBits (((idText id).filter (· ≠ '-')).take 16) = piplineUuidToU64 id := by
  have hbytes : id.toList.take 4 ++ (id.toList.drop 4).take 2 ++ (id.toList.drop 6).take 2 =
      id.toList.take 8 := by
    rw [← List.take_add, ← List.take_add]
  have hlength : (hexText (id.toList.take 8)).length = 16 := by
    simp [length_hexText]
  have hdigits : (idText id).filter (· ≠ '-') = hexText (id.toList.take 8) ++
      (hexText ((id.toList.drop 8).take 2) ++ hexText (id.toList.drop 10)) := by
    simp only [idText, List.filter_append, List.filter_cons, filter_hexText, ← hbytes,
      hexText_append]
    simp
  rw [hdigits, List.take_left' hlength, hexBits, foldl_hexText, piplineUuidToU64, fromBeBytes]

end

theorem fromBeBytes_lt (bytes : List UInt8) : fromBeBytes bytes < 256 ^ bytes.length := by
  induction bytes using List.reverseRecOn with
  | nil => decide
  | append_singleton bytes byte ih =>
    have hlt := byte.toNat_lt
    rw [fromBeBytes, List.foldl_append] at *
    simp only [List.foldl_cons, List.foldl_nil, List.length_append, List.length_singleton, pow_succ]
    omega

variable (id : PipelineId)

theorem piplineUuidToU64_lt : piplineUuidToU64 id < 2 ^ 64 := by
  have hlt := fromBeBytes_lt (id.toList.take 8)
  rwa [show (id.toList.take 8).length = 8 by simp] at hlt

/-- The number and what the query makes of it have the same remainder. -/
def Aligned (id : PipelineId) (totalWorkers : ℕ) : Prop :=
  totalWorkers < 2 ^ 63 ∧
    (piplineUuidToU64 id < 2 ^ 63 ∨ 2 ^ 63 < piplineUuidToU64 id ∧
      (2 ^ 64 - piplineUuidToU64 id) % totalWorkers = piplineUuidToU64 id % totalWorkers)

theorem sqlAssigned_eq {id : PipelineId} {totalWorkers : ℕ} (haligned : Aligned id totalWorkers)
    {worker : ℕ} (hworker : worker < totalWorkers) :
    sqlAssigned id worker totalWorkers =
      .ok (piplineUuidToU64 id % totalWorkers == worker) := by
  obtain ⟨htotal, hhash⟩ := haligned
  have hlt := piplineUuidToU64_lt id
  have habs : ∃ hash : ℕ, absBigint (toBigint (piplineUuidToU64 id)) = .ok hash ∧
      hash % totalWorkers = piplineUuidToU64 id % totalWorkers := by
    rcases hhash with hsmall | ⟨hlarge, hsame⟩
    · refine ⟨_, ?_, rfl⟩
      rw [toBigint, if_pos hsmall, absBigint, if_neg (by omega), abs_of_nonneg (by omega)]
    · refine ⟨_, ?_, hsame⟩
      rw [toBigint, if_neg (by omega), absBigint, if_neg (by omega), abs_of_neg (by omega)]
      congr 1
      omega
  obtain ⟨hash, habs, hsame⟩ := habs
  have htotal' : toBigint totalWorkers = totalWorkers := if_pos htotal
  have hworker' : toBigint worker = worker := if_pos (by omega)
  have hpos : (totalWorkers : ℤ) ≠ 0 := by omega
  simp only [sqlAssigned, hexBits_idText, habs, htotal', hworker', if_neg hpos, bind, Except.bind,
    pure, Except.pure]
  rw [← Int.ofNat_tmod, ← hsame]
  congr 1
  rw [Bool.eq_iff_iff, beq_iff_eq, beq_iff_eq, Nat.cast_inj]

end Feldera.Manager
