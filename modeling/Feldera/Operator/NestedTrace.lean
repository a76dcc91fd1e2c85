import Feldera.Algebra.NestedSum
import Feldera.Circuit.NestedLoop
import Feldera.Trace.Snapshot
import Feldera.Trace.TimedTrace

/-!
The inputs of an operator of a nested circuit and their trace. In every iteration the accumulator
hands over what has come in, the trace takes it up at the time of the clock, and background merges
go on. At the end of a transaction `AccumulateZ1Trace` sets the frontier of the trace to the start
of the epoch that ends; a merge may use any frontier that has been set by then.
-/

namespace Feldera.Operator.NestedTrace

open Time Trace NestedSum Circuit Nested Timestamp Snapshot List

variable {K V : Type*} [LinearOrder K] [LinearOrder V]

/-- A background merge. The frontier that it has at a key and a value was set at the end of a
transaction; before any transaction has ended, it is the least time. -/
structure Merge (K V : Type*) where
  picks : ℕ → Bool
  epoch : K → V → ℕ
  place : ℕ

/-- The merge, as it is in transaction `o`. -/
def Merge.during (o : ℕ) (m : Merge K V) : TimedMerge K V Nested where
  picks := m.picks
  frontier k v := epochStart ⟨min (m.epoch k v) (o - 1), 0⟩
  place := m.place

def Merge.atRoot (m : Merge K V) : TimedMerge K V Unit where
  picks := m.picks
  frontier _ _ := ()
  place := m.place

/-- One iteration: the batches of its steps, the merges in the accumulator, and those in the trace
before the operator reads it. -/
structure Input (K V : Type*) [LinearOrder K] [LinearOrder V] where
  inputs : List (Batch K V Unit ℤ)
  accumulated : Merging K V ℤ
  merges : List (Merge K V)

namespace Input

/-- `Accumulator::eval`: the spine that is flushed. Batches without updates are not inserted. -/
def delta (x : Input K V) : List (Batch K V Unit ℤ) :=
  x.accumulated.merge (x.inputs.filter fun b => !b.layers.isEmpty)

/-- The trace that the operator reads, if merges are understood by `during`. -/
def traceBy {T : Type*} [LinearOrder T] [Timestamp T] (during : Merge K V → TimedMerge K V T)
    (x : Input K V) (time : T) (trace : TimedTrace K V T ℤ) : TimedTrace K V T ℤ :=
  x.merges.foldl (fun trace m => (during m).apply trace) (trace.append time x.delta)

/-- The trace that the operator reads in a nested circuit. -/
def trace (x : Input K V) (time : Nested) (trace : TimedTrace K V Nested ℤ) :
    TimedTrace K V Nested ℤ :=
  x.traceBy (Merge.during time.outer) time trace

/-- The iteration over a trace that is never merged. -/
def unmerged (x : Input K V) : Input K V := { x with merges := [] }

end Input

variable (rows : List (List (Input K V)))

def inputAt (k : K) (v : V) (o i : ℕ) : ℤ :=
  match (NestedOperator.row rows o)[i]? with
  | none => 0
  | some x => Snapshot.weight x.inputs (k, v, ())

variable {rows} {o i : ℕ} {trace : TimedTrace K V Nested ℤ} {k : K} {v : V} {x : Input K V}

theorem inputAt_of_getElem? (h : (NestedOperator.row rows o)[i]? = some x) :
    inputAt rows k v o i = weight x.inputs (k, v, ()) := by
  rw [inputAt, h]

theorem inputAt_of_length_le (h : (NestedOperator.row rows o).length ≤ i) :
    inputAt rows k v o i = 0 := by
  rw [inputAt, getElem?_eq_none h]

theorem Input.weight_delta (x : Input K V) (y : K × V × Unit) :
    weight x.delta y = weight x.inputs y :=
  (x.accumulated.weight_eq _ y).trans (weight_filter_nonempty x.inputs y)

/-- Before iteration `i` of transaction `o`, the trace holds what has come in, as far as it can be
seen from the last finished transaction on. -/
def Holds (w : K → V → ℕ → ℕ → ℤ) (o i : ℕ) (trace : TimedTrace K V Nested ℤ) : Prop :=
  ∀ k v row col, o ≤ row + 1 →
    through (trace.times k v) ⟨row, col⟩ = rect (upTo (w k v) o i) (row + 1) (col + 1)

theorem holds_nil (w : K → V → ℕ → ℕ → ℤ) : Holds w 0 0 [] := by
  intro k v row col _
  rw [upTo_zero]
  simp [rect, through, TimedTrace.times, TimedTrace.group, TimedTrace.tuples, Weighted.restrict]

variable {w : K → V → ℕ → ℕ → ℤ}

theorem holds_merges (m : List (Merge K V)) (h : Holds w o i trace) :
    Holds w o i (m.foldl (fun trace m => (m.during o).apply trace) trace) := by
  induction m generalizing trace with
  | nil => exact h
  | cons m ms ih =>
    refine ih fun k v row col hrow => ?_
    have hfrontier : lessEqual ((m.during o).frontier k v) (⟨row, col⟩ : Nested) = true :=
      lessEqual_iff.mpr ⟨(min_le_right _ _).trans (Nat.sub_le_of_le_add hrow), Nat.zero_le _⟩
    exact ((m.during o).through_apply trace k v hfrontier).trans (h k v row col hrow)

theorem Holds.append {delta : List (Batch K V Unit ℤ)}
    (hdelta : ∀ k v, weight delta (k, v, ()) = w k v o i) (h : Holds w o i trace) :
    Holds w o (i + 1) (trace.append ⟨o, i⟩ delta) := by
  intro k v row col hrow
  have hcond : lessEqual (⟨o, i⟩ : Nested) (⟨row, col⟩ : Nested) = true ↔
      o < row + 1 ∧ i < col + 1 := by
    rw [lessEqual_iff, Nat.lt_succ_iff, Nat.lt_succ_iff]
  rw [TimedTrace.through_append, h k v row col hrow, ← weight, hdelta, rect_upTo_succ_right]
  exact congrArg _ (if_congr hcond rfl rfl)

theorem Holds.next (hrest : ∀ k v col, i ≤ col → w k v o col = 0) (h : Holds w o i trace) :
    Holds w (o + 1) 0 trace := by
  intro k v row col hrow
  rw [h k v row col (Nat.le_of_succ_le hrow), upTo_succ_left (hrest k v)]

theorem Holds.step (hx : (NestedOperator.row rows o)[i]? = some x)
    (h : Holds (inputAt rows) o i trace) : Holds (inputAt rows) o (i + 1) (x.trace ⟨o, i⟩ trace) :=
  holds_merges x.merges (h.append fun k v =>
    (x.weight_delta (k, v, ())).trans (inputAt_of_getElem? hx).symm)

theorem Holds.row (h : Holds (inputAt rows) o (NestedOperator.row rows o).length trace) :
    Holds (inputAt rows) (o + 1) 0 trace :=
  h.next fun _ _ _ hcol => inputAt_of_length_le hcol

section

variable {T : Type*} [LinearOrder T] [Timestamp T]

/-- The nearest future time at which one of `times` becomes visible. -/
def timeOfInterest (time : T) (times : List (T × ℤ)) : Option T :=
  times.foldl (fun soonest p =>
    if lessEqual p.1 time then soonest
    else match soonest with
      | none => some (Timestamp.join time p.1)
      | some t => some (min t (Timestamp.join time p.1))) none

/-- The time of interest is the least of the times at which one of `times` becomes visible. -/
theorem timeOfInterest_spec (time : T) (times : List (T × ℤ)) :
    (∀ t, timeOfInterest time times = some t →
      ∃ p ∈ times, lessEqual p.1 time = false ∧ t = Timestamp.join time p.1) ∧
    ∀ p ∈ times, lessEqual p.1 time = false →
      ∃ t, timeOfInterest time times = some t ∧ t ≤ Timestamp.join time p.1 := by
  induction times using reverseRecOn with
  | nil => exact ⟨nofun, nofun⟩
  | append_singleton times q ih =>
    obtain ⟨hsound, hleast⟩ := ih
    unfold timeOfInterest at hsound hleast ⊢
    rw [foldl_append]
    generalize (foldl _ none times : Option T) = soonest at hsound hleast ⊢
    simp only [foldl_cons, foldl_nil, mem_append, mem_singleton]
    cases hq : lessEqual q.1 time with
    | true =>
      rw [if_pos rfl]
      constructor
      · intro t ht
        obtain ⟨p, hp, hlate, heq⟩ := hsound t ht
        exact ⟨p, Or.inl hp, hlate, heq⟩
      · rintro p (hp | rfl) hlate
        · exact hleast p hp hlate
        · exact absurd (hq.symm.trans hlate) (by simp)
    | false =>
      rw [if_neg (by simp)]
      cases soonest with
      | none =>
        constructor
        · rintro t ⟨⟩
          exact ⟨q, Or.inr rfl, hq, rfl⟩
        · rintro p (hp | rfl) hlate
          · obtain ⟨t, ht, -⟩ := hleast p hp hlate
            cases ht
          · exact ⟨_, rfl, le_rfl⟩
      | some s =>
        constructor
        · rintro t ⟨⟩
          rcases min_choice s (Timestamp.join time q.1) with hmin | hmin
          · obtain ⟨p, hp, hlate, heq⟩ := hsound s rfl
            exact ⟨p, Or.inl hp, hlate, hmin.trans heq⟩
          · exact ⟨q, Or.inr rfl, hq, hmin⟩
        · rintro p (hp | rfl) hlate
          · obtain ⟨t, ht, hle⟩ := hleast p hp hlate
            cases ht
            exact ⟨_, rfl, (min_le_left _ _).trans hle⟩
          · exact ⟨_, rfl, min_le_right _ _⟩

end

/-- A later column with something in the finished transactions is not missed: the time of interest
lies in the current transaction and is not after it. -/
theorem Holds.exists_stop (h : Holds w o (i + 1) trace) {c : ℕ} (hc : i < c)
    (hsum : column (w k v) o c ≠ 0) {times : List (Nested × ℤ)}
    (htimes : ∀ p ∈ trace.times k v, p ∈ times) :
    ∃ stop, i < stop ∧ stop ≤ c ∧ timeOfInterest (⟨o, i⟩ : Nested) times = some ⟨o, stop⟩ := by
  -- The finished transactions have an update at the inner time `c`.
  have hentry : ∃ p ∈ trace.times k v, p.1.outer ≤ o ∧ p.1.inner = c := by
    cases o with
    | zero => exact absurd (Finset.sum_range_zero _) hsum
    | succ o =>
      cases c with
      | zero => exact absurd hc (Nat.not_lt_zero i)
      | succ c =>
        have hnew := h k v o (c + 1) le_rfl
        have hold := h k v o c le_rfl
        rw [rect_upTo_rows] at hnew hold
        rw [rect_succ_right, ← hold] at hnew
        have hne : through (trace.times k v) ⟨o, c + 1⟩ ≠ through (trace.times k v) ⟨o, c⟩ := by
          rw [hnew]
          simpa using hsum
        by_contra hnone
        refine hne (congrArg sum (map_congr_left fun p hp => if_congr ?_ rfl rfl))
        rw [lessEqual_iff, lessEqual_iff]
        have hother : ¬(p.1.outer ≤ o + 1 ∧ p.1.inner = c + 1) := fun hp' => hnone ⟨p, hp, hp'⟩
        simp only
        omega
  obtain ⟨p, hp, houter, hinner⟩ := hentry
  have hlate : lessEqual p.1 (⟨o, i⟩ : Nested) = false := by
    rw [Bool.eq_false_iff, Ne, lessEqual_iff]
    simp only
    omega
  obtain ⟨hsound, hleast⟩ := timeOfInterest_spec (⟨o, i⟩ : Nested) times
  obtain ⟨t, ht, hle⟩ := hleast p (htimes p hp) hlate
  obtain ⟨q, -, hq, rfl⟩ := hsound t ht
  rw [Bool.eq_false_iff, Ne, lessEqual_iff] at hq
  rw [Product.le_iff] at hle
  simp only [outer_join, inner_join] at hq hle
  refine ⟨max i q.1.inner, by omega, by omega, ht.trans (congrArg some (Product.ext ?_ rfl))⟩
  simp only [outer_join]
  omega

end Feldera.Operator.NestedTrace
