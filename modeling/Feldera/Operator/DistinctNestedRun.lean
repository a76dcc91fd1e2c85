import Feldera.Operator.DistinctNested

/-!
Runs of `DistinctIncremental`. Before every iteration the trace holds the inputs so far, and every
record is noted for the next time of the current transaction at which its output may change. So what
is put out in an iteration is the mixed difference of `distinct` of the sums, and what is left of a
transaction when the operator reports a fixed point is zero.
-/

namespace Feldera.Operator.DistinctNested

open Time Trace NestedSum Circuit NestedOperator
open DistinctTotal (distinct)
open NestedTrace

variable {K V : Type*} [LinearOrder K] [LinearOrder V] {chunkSize : ℕ}
  {rows : List (List (Input K V))} {s : State K V} {x : Input K V} {k : K} {v : V} {o i : ℕ}

def distinctSum (w : ℕ → ℕ → ℤ) (o i : ℕ) : ℤ :=
  distinct (rect w o i)

theorem determined_distinctSum (w : ℕ → ℕ → ℤ) : Determined w (distinctSum w) :=
  fun _ _ _ _ h => congrArg distinct h

theorem partialDerivative_two (a b c d : ℤ) :
    partialDerivative 2 [a, b, c, d] = (d - c) - (b - a) := by
  change (d + -c) + -(b + -a) = _
  ring

/-- The partial derivative is the mixed difference. -/
theorem outputWeight_eq_mixed {w : K → V → ℕ → ℕ → ℤ} {trace : TimedTrace K V Nested ℤ}
    (h : Holds w o (i + 1) trace) (k : K) (v : V) :
    outputWeight ⟨o, i⟩ (trace.times k v) = mixed (distinctSum (w k v)) o i := by
  have hvalue : ∀ row col, o ≤ row + 1 → row ≤ o → col ≤ i →
      distinctVal (trace.times k v) (some ⟨row, col⟩) =
        distinctSum (w k v) (row + 1) (col + 1) := by
    intro row col hrow hle hcol
    rw [distinctVal, h k v row col hrow]
    rcases Nat.lt_or_eq_of_le hle with hlt | rfl
    · obtain rfl : o = row + 1 := le_antisymm hrow hlt
      rw [rect_upTo_rows]
      rfl
    · rw [rect_upTo_row _ _ (Nat.succ_le_succ hcol)]
      rfl
  -- The earlier corner of a row, and that there is none at its start.
  have hinner : ∀ row, o ≤ row + 1 → row ≤ o → distinctVal (trace.times k v)
      (Nested.checkedRecede 0 ⟨row, i⟩) = distinctSum (w k v) (row + 1) i := by
    intro row hrow hle
    cases i with
    | zero =>
      rw [distinctSum, rect_zero_right]
      rfl
    | succ i => exact hvalue row i hrow hle (Nat.le_succ i)
  have hpoint : outputWeight ⟨o, i⟩ (trace.times k v) =
      (distinctVal (trace.times k v) (some ⟨o, i⟩) -
        distinctVal (trace.times k v) (Nested.checkedRecede 0 ⟨o, i⟩)) -
      (distinctVal (trace.times k v) (Nested.checkedRecede 1 ⟨o, i⟩) -
        distinctVal (trace.times k v)
          ((Nested.checkedRecede 1 ⟨o, i⟩).bind (Nested.checkedRecede 0))) :=
    partialDerivative_two _ _ _ _
  rw [hpoint, hvalue o i (Nat.le_succ o) le_rfl le_rfl, hinner o (Nat.le_succ o) le_rfl]
  cases o with
  | zero => rfl
  | succ o => exact congrArg _ (congrArg₂ _ (hvalue o i le_rfl (Nat.le_succ o) le_rfl)
      (hinner o le_rfl (Nat.le_succ o)))

def Noted (s : State K V) (k : K) (v : V) (o : ℕ) (col : ℕ) : Prop :=
  ((⟨o, col⟩ : Nested), k, v) ∈ s.keysOfInterest

structure Follows (rows : List (List (Input K V))) (o i : ℕ) (s : State K V) : Prop where
  holds : Holds (inputAt rows) o i s.trace
  due : ∀ k v, Due (inputAt rows k v) (Noted s k v o) o i

theorem visits_iff (hx : (NestedOperator.row rows o)[i]? = some x) :
    Visits ⟨o, i⟩ x s k v ↔ inputAt rows k v o i ≠ 0 ∨ Noted s k v o i := by
  rw [inputAt_of_getElem? hx]
  rfl

theorem Follows.step (hx : (NestedOperator.row rows o)[i]? = some x) (h : Follows rows o i s) :
    Follows rows o (i + 1) ((operator chunkSize).eval ⟨o, i⟩ x s).1 := by
  have hholds := h.holds.step hx
  refine ⟨hholds, fun k v => (h.due k v).step (fun c hc hnoted => ?_) fun hstop c hc hsum => ?_⟩
  · refine (eval_noted _).mpr (.inl ⟨fun heq => hc.ne' ?_, hnoted⟩)
    exact congrArg Product.inner heq
  · obtain ⟨stop, hfrom, hto, htime⟩ := hholds.exists_stop hc hsum fun _ hp => hp
    exact ⟨stop, hfrom, hto, (eval_noted _).mpr (.inr ⟨(visits_iff hx).mpr hstop, htime⟩)⟩

theorem follows_before (chunkSize : ℕ) (rows : List (List (Input K V))) (ho : o ≤ rows.length)
    (hi : i ≤ (NestedOperator.row rows o).length) :
    Follows rows o i ((operator chunkSize).before start rows o i) := by
  refine before_invariant (P := Follows rows) ?_ (fun hx h => h.step hx)
    (fun _ h => ?_) ho hi
  · exact ⟨holds_nil _, fun k v => due_zero _ _ _⟩
  · exact ⟨h.holds.row, fun k v => due_zero _ _ _⟩

theorem outputAt_eq_mixed (hx : (NestedOperator.row rows o)[i]? = some x) :
    outputAt chunkSize rows k v o i = mixed (distinctSum (inputAt rows k v)) o i := by
  classical
  obtain ⟨hlt, -⟩ := List.getElem?_eq_some_iff.mp hx
  have hfollows := follows_before chunkSize rows (lt_of_getElem? hx).le hlt.le
  have hout : outputAt chunkSize rows k v o i = (((operator chunkSize).eval ⟨o, i⟩ x
      ((operator chunkSize).before start rows o i)).2.map fun c => c.weight (k, v, ())).sum := by
    rw [outputAt, NestedOperator.outputAt, hx]
    rfl
  rw [hout, eval_output]
  split
  · exact outputWeight_eq_mixed (hfollows.holds.step hx) k v
  · next hvisits =>
    by_contra hne
    exact hvisits ((visits_iff hx).mpr ((hfollows.due k v).stops (determined_distinctSum _)
      (Ne.symm hne)))

/-- No output is missed where a transaction ends. -/
theorem mixed_eq_zero_of_settled (hsettled : (operator chunkSize).Settled start rows)
    (hi : (NestedOperator.row rows o).length ≤ i) :
    mixed (distinctSum (inputAt rows k v)) o i = 0 := by
  rcases Nat.lt_or_ge o rows.length with ho | ho
  · have hfollows := follows_before chunkSize rows ho.le (le_refl (NestedOperator.row rows o).length)
    have hfix := hsettled o ho
    refine (hfollows.due k v).mixed_eq_zero (determined_distinctSum _) (fun c _ hnoted => ?_)
      (fun c hc => inputAt_of_length_le hc) hi
    have hnone := List.all_eq_true.mp (Bool.and_eq_true_iff.mp hfix).2 _ hnoted
    simp [Nested.withinEpoch] at hnone
  · refine mixed_eq_zero_of_row (determined_distinctSum _) fun col _ => inputAt_of_length_le ?_
    rw [row_eq_nil ho]
    exact Nat.zero_le col

theorem outputAt_of_settled (hsettled : (operator chunkSize).Settled start rows) :
    outputAt chunkSize rows k v o i = mixed (distinctSum (inputAt rows k v)) o i := by
  cases hx : (NestedOperator.row rows o)[i]? with
  | some x => exact outputAt_eq_mixed hx
  | none =>
    rw [mixed_eq_zero_of_settled hsettled (List.getElem?_eq_none_iff.mp hx), outputAt,
      NestedOperator.outputAt, hx]
    rfl

/-- Up to every time the outputs add up to `distinct` of the sum of the inputs, and a record that is
put out without being in the input was noted for that iteration. -/
theorem sum_outputs_eq_distinct (chunkSize : ℕ) (rows : List (List (Input K V)))
    (hsettled : (operator chunkSize).Settled start rows) (k : K) (v : V) (o i : ℕ) :
    ∑ row ∈ Finset.range (o + 1), ∑ col ∈ Finset.range (i + 1), outputAt chunkSize rows k v row col =
        distinct (∑ row ∈ Finset.range (o + 1), ∑ col ∈ Finset.range (i + 1),
          inputAt rows k v row col) ∧
      (outputAt chunkSize rows k v o i ≠ 0 → inputAt rows k v o i = 0 →
        ((⟨o, i⟩ : Nested), k, v) ∈
          ((operator chunkSize).before start rows o i).keysOfInterest) := by
  constructor
  · have hleft : ∀ col, distinctSum (inputAt rows k v) 0 col = 0 := fun _ => rfl
    have htop : ∀ row, distinctSum (inputAt rows k v) row 0 = 0 := fun row => by
      rw [distinctSum, rect_zero_right]
      rfl
    calc
      rect (outputAt chunkSize rows k v) (o + 1) (i + 1) =
          rect (mixed (distinctSum (inputAt rows k v))) (o + 1) (i + 1) :=
        rect_congr fun _ _ _ _ => outputAt_of_settled hsettled
      _ = distinctSum (inputAt rows k v) (o + 1) (i + 1) := rect_mixed hleft htop _ _
  · intro hne hzero
    cases hx : (NestedOperator.row rows o)[i]? with
    | none =>
      refine absurd ?_ hne
      rw [outputAt, NestedOperator.outputAt, hx]
      rfl
    | some x =>
      obtain ⟨hlt, -⟩ := List.getElem?_eq_some_iff.mp hx
      have hfollows := follows_before chunkSize rows (lt_of_getElem? hx).le hlt.le
      rw [outputAt_eq_mixed hx] at hne
      exact ((hfollows.due k v).stops (determined_distinctSum _) hne).resolve_left
        (not_not.mpr hzero)

/-- A record that comes in late in the first transaction and goes early in the second one. -/
def lateRecord : List (List (Input ℕ ℕ)) :=
  let quiet : Input ℕ ℕ := ⟨[], .none, []⟩
  let change (w : ℤ) : Input ℕ ℕ := ⟨[.ofTuples [((0, 0, ()), w)]], .none, []⟩
  [[quiet, change 1, quiet], [change (-1), quiet, quiet]]

/-- Its output changes at a time at which it is not in the input. -/
theorem sum_outputs_eq_distinct_lateRecord :
    (operator 1).Settled start lateRecord ∧ outputAt 1 lateRecord 0 0 1 1 ≠ 0 ∧
      inputAt lateRecord 0 0 1 1 = 0 ∧
      ∑ row ∈ Finset.range 2, ∑ col ∈ Finset.range 2, outputAt 1 lateRecord 0 0 row col =
        distinct (∑ row ∈ Finset.range 2, ∑ col ∈ Finset.range 2, inputAt lateRecord 0 0 row col) ∧
      ((⟨1, 1⟩ : Nested), 0, 0) ∈ ((operator 1).before start lateRecord 1 1).keysOfInterest := by
  have hsettled : (operator 1).Settled start lateRecord := by decide +kernel
  have hout : outputAt 1 lateRecord 0 0 1 1 ≠ 0 := by decide +kernel
  have hin : inputAt lateRecord 0 0 1 1 = 0 := by decide +kernel
  have hsum := sum_outputs_eq_distinct 1 lateRecord hsettled 0 0 1 1
  exact ⟨hsettled, hout, hin, hsum.1, hsum.2 hout hin⟩

end Feldera.Operator.DistinctNested
