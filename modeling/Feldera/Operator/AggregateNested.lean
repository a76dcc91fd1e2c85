import Feldera.Operator.AggregateIncremental

/-!
Runs of `AggregateIncremental` and `Upsert` in a nested circuit. The aggregate of a key depends on
the sum of its inputs only, so what is put out in an iteration is again a mixed difference: of the
function that tells whether a value is the aggregate of the key. For the keys that are visited
`Upsert` sees to that, whatever the output held before; for the others nothing changes.
-/

namespace Feldera.Operator.Aggregate

open Time Trace NestedSum Circuit NestedOperator List Weighted
open NestedTrace (Merge Holds inputAt timeOfInterest)

variable {K V Out : Type*} [LinearOrder K] [LinearOrder V] [LinearOrder Out]

structure Input (K V Out : Type*) [LinearOrder K] [LinearOrder V] [LinearOrder Out] where
  input : NestedTrace.Input K V
  accumulated : Merging K Out ℤ
  merges : ℕ → List (Merge K Out)

/-- The iteration over traces that are never merged. -/
def Input.unmerged (x : Input K V Out) : Input K V Out :=
  { x with input := x.input.unmerged, merges := fun _ => [] }

def built (c : Layers K Out Unit ℤ) : Batch K Out Unit ℤ :=
  Batch.ofTuples c.tuples

/-- What is added to the trace of the output at the end of an iteration. -/
def Input.delta (x : Input K V Out) (out : List (Layers K Out Unit ℤ)) :
    List (Batch K Out Unit ℤ) :=
  x.accumulated.merge ((out.map built).filter fun b => !b.layers.isEmpty)

structure State (K V Out T : Type*) [LinearOrder K] [LinearOrder V] [LinearOrder Out]
    [LinearOrder T] where
  trace : TimedTrace K V T ℤ
  keysOfInterest : List (T × K)
  emptyInput : Bool
  emptyOutput : Bool
  output : TimedTrace K Out T ℤ

def start {T : Type*} [LinearOrder T] : State K V Out T := ⟨[], [], false, false, []⟩

section

variable {T : Type*} [LinearOrder T] [Timestamp T]

structure During (K V Out T : Type*) where
  input : Merge K V → TimedMerge K V T
  output : Merge K Out → TimedMerge K Out T

/-- One iteration of the two operators. What is put out is what `AggregateIncremental` yields and
what `Upsert` makes of it; in the steps before the one that flushes there is nothing. -/
def step (agg : Aggregator V Out) (chunkSize : ℕ) (during : During K V Out T) (time : T)
    (x : Input K V Out) (s : State K V Out T) :
    State K V Out T × List (List (K × Option Out)) × List (Layers K Out Unit ℤ) :=
  let trace := x.input.traceBy during.input time s.trace
  let result := eval agg chunkSize time x.input.delta trace s.keysOfInterest
  let yields := (x.input.inputs.dropLast.map fun _ => []) ++ result.2.2
  let upserted := upserts time (fun step => (x.merges step).map during.output) 0 s.output yields
  (⟨trace, result.1, x.input.delta.all fun b => b.layers.isEmpty, result.2.1,
    upserted.1.append time (x.delta upserted.2)⟩, yields, upserted.2)

variable {agg : Aggregator V Out} {chunkSize : ℕ} {during : During K V Out T} {time : T}
  {x : Input K V Out} {s : State K V Out T} {k : K} {out : Out}

variable (time x s k) in
/-- Whether an iteration visits a key. -/
def Visits : Prop :=
  (∃ v, Snapshot.weight x.input.inputs (k, v, ()) ≠ 0) ∨ (time, k) ∈ s.keysOfInterest

omit [Timestamp T] in
theorem mem_visited_iff : k ∈ visited time x.input.delta s.keysOfInterest ↔ Visits time x s k := by
  rw [mem_visited]
  exact or_congr_left (exists_congr fun v => by rw [x.input.weight_delta])

theorem step_noted {t : T} :
    (t, k) ∈ (step agg chunkSize during time x s).1.keysOfInterest ↔
      t ≠ time ∧ (t, k) ∈ s.keysOfInterest ∨ Visits time x s k ∧
        timeOfInterest time (allTimes (x.input.traceBy during.input time s.trace) k) = some t := by
  refine (mem_eval_noted agg chunkSize time x.input.delta _ s.keysOfInterest).trans ?_
  rw [mem_visited_iff]

theorem flatten_yields : (step agg chunkSize during time x s).2.1.flatten =
    (visited time x.input.delta s.keysOfInterest).map fun k =>
      (k, valueOf agg time (x.input.traceBy during.input time s.trace) k) := by
  have hempty : (x.input.inputs.dropLast.map fun _ => ([] : List (K × Option Out))).flatten =
      [] := by
    rw [flatten_eq_nil_iff]
    intro l hl
    obtain ⟨b, -, rfl⟩ := mem_map.mp hl
    rfl
  refine Eq.trans ?_ (flatten_chunks agg chunkSize time x.input.delta _ s.keysOfInterest)
  change ((x.input.inputs.dropLast.map fun _ => []) ++ _).flatten = _
  rw [flatten_append, hempty, nil_append]

/-- Of a visited key the output gets the new value in place of what it held; of the others
nothing. -/
theorem step_output [Decidable (Visits time x s k)]
    (hkeeps : ∀ m : List (Merge K Out), Keeps time (m.map during.output)) :
    ((step agg chunkSize during time x s).2.2.map fun c => c.weight (k, out, ())).sum =
      if Visits time x s k then
        indicator (valueOf agg time (x.input.traceBy during.input time s.trace) k) out -
          through (s.output.times k out) time
      else 0 := by
  refine (weight_upserts (fun j => hkeeps (x.merges j)) 0 s.output
    (step agg chunkSize during time x s).2.1).trans ?_
  rw [flatten_yields, map_map]
  have hterm : ((visited time x.input.delta s.keysOfInterest).map
      ((fun kv : K × Option Out => if kv.1 = k then
        indicator kv.2 out - through (s.output.times k out) time else 0) ∘
        fun k => (k, valueOf agg time (x.input.traceBy during.input time s.trace) k))) =
      (visited time x.input.delta s.keysOfInterest).map fun k' => if k' = k then
        indicator (valueOf agg time (x.input.traceBy during.input time s.trace) k) out -
          through (s.output.times k out) time else 0 := by
    refine map_congr_left fun k' _ => if_ctx_congr Iff.rfl (fun hk => ?_) fun _ => rfl
    obtain rfl : k' = k := hk
    rfl
  rw [hterm, sum_ite_of_nodup nodup_visited]
  exact if_congr mem_visited_iff rfl rfl

theorem Input.weight_delta (x : Input K V Out) (y : List (Layers K Out Unit ℤ))
    (z : K × Out × Unit) : Snapshot.weight (x.delta y) z = (y.map fun c => c.weight z).sum := by
  refine (x.accumulated.weight_eq _ z).trans ((Snapshot.weight_filter_nonempty _ z).trans ?_)
  unfold Snapshot.weight
  rw [map_map]
  exact congrArg List.sum (map_congr_left fun c _ => Batch.weight_ofTuples c.tuples z)

theorem upserts_induction {merges : ℕ → List (TimedMerge K Out T)}
    {P : TimedTrace K Out T ℤ → Prop}
    (hmerge : ∀ j trace, P trace → P ((merges j).foldl (fun trace m => m.apply trace) trace))
    (chunks : List (List (K × Option Out))) {trace : TimedTrace K Out T ℤ} (h : P trace) (j : ℕ) :
    P (upserts time merges j trace chunks).1 := by
  induction chunks generalizing trace j with
  | nil => exact h
  | cons updates chunks ih => exact ih (hmerge j trace h) (j + 1)

end

section

def nestedMerges (o : ℕ) : During K V Out Nested := ⟨Merge.during o, Merge.during o⟩

def operator (agg : Aggregator V Out) (chunkSize : ℕ) : NestedOperator (State K V Out Nested)
    (Input K V Out) (List (List (K × Option Out)) × List (Layers K Out Unit ℤ)) where
  clockStart s := { s with emptyInput := false, emptyOutput := false }
  eval time x s := step agg chunkSize (nestedMerges time.outer) time x s
  fixedpoint time s := s.emptyInput && s.emptyOutput &&
    s.keysOfInterest.all fun p => !Nested.withinEpoch p.1 time

variable (agg : Aggregator V Out) (chunkSize : ℕ) (rows : List (List (Input K V Out)))

def inputs : List (List (NestedTrace.Input K V)) :=
  rows.map (List.map Input.input)

def outputAt (k : K) (out : Out) (o i : ℕ) : ℤ :=
  match (operator agg chunkSize).outputAt start rows o i with
  | none => 0
  | some y => (y.2.map fun c => c.weight (k, out, ())).sum

def yieldsAt (o i : ℕ) : List (List (K × Option Out)) :=
  match (operator agg chunkSize).outputAt start rows o i with
  | none => []
  | some y => y.1

def groupInputs (k : K) (o i : ℕ) : List (V × ℤ) :=
  (List.range o).flatMap fun row => (List.range i).flatMap fun col =>
    match (NestedOperator.row (inputs rows) row)[col]? with
    | none => []
    | some x => x.inputs.flatMap fun b => b.layers.valuesAt k

variable {agg chunkSize rows} {o i : ℕ} {x : Input K V Out}
  {s : State K V Out Nested} {k : K} {out : Out}

omit [LinearOrder Out] in
theorem sum_flatMap_weight {α : Type*} (l : List α) (f : α → List (V × ℤ)) (v : V) :
    weight (l.flatMap f) v = (l.map fun a => weight (f a) v).sum := by
  induction l with
  | nil => rfl
  | cons a l ih => rw [flatMap_cons, weight_append, ih, map_cons, sum_cons]

/-- The weights of a key's inputs are the sums of what comes in. -/
theorem weight_groupInputs (v : V) :
    weight (groupInputs rows k o i) v = rect (inputAt (inputs rows) k v) o i := by
  have hpoint : ∀ row col, weight
      (match (NestedOperator.row (inputs rows) row)[col]? with
        | none => []
        | some x => x.inputs.flatMap fun b => b.layers.valuesAt k : List (V × ℤ)) v =
      inputAt (inputs rows) k v row col := by
    intro row col
    unfold NestedTrace.inputAt
    cases (NestedOperator.row (inputs rows) row)[col]? with
    | none => rfl
    | some x =>
      dsimp only
      rw [sum_flatMap_weight]
      exact congrArg List.sum (map_congr_left fun b _ => b.isBatch.weight_valuesAt k v)
  unfold groupInputs rect
  rw [sum_flatMap_weight, ← sum_toFinset _ nodup_range, toFinset_range]
  refine Finset.sum_congr rfl fun row _ => ?_
  rw [sum_flatMap_weight, ← sum_toFinset _ nodup_range, toFinset_range]
  exact Finset.sum_congr rfl fun col _ => hpoint row col

variable (agg rows k out) in
def aggregateSum (o i : ℕ) : ℤ :=
  indicator (agg.aggregate (groupInputs rows k o i)) out

def keyInput (rows : List (List (Input K V Out))) (k : K) (o i : ℕ) : V → ℤ :=
  fun v => inputAt (inputs rows) k v o i

theorem rect_keyInput (v : V) :
    rect (keyInput rows k) o i v = rect (inputAt (inputs rows) k v) o i := by
  simp [rect, keyInput, Finset.sum_apply]

theorem column_keyInput (v : V) :
    column (keyInput rows k) o i v = column (inputAt (inputs rows) k v) o i := by
  simp [column, keyInput, Finset.sum_apply]

theorem determined_aggregateSum : Determined (keyInput rows k) (aggregateSum agg rows k out) := by
  intro o i o' i' h
  unfold aggregateSum
  rw [agg.congr fun v => ?_]
  rw [weight_groupInputs, weight_groupInputs, ← rect_keyInput, ← rect_keyInput, h]

theorem aggregateSum_zero_left : aggregateSum agg rows k out 0 i = 0 := by
  rw [aggregateSum, groupInputs, range_zero, flatMap_nil, agg.empty]
  rfl

theorem aggregateSum_zero_right : aggregateSum agg rows k out o 0 = 0 := by
  have hnil : groupInputs rows k o 0 = [] := by simp [groupInputs]
  rw [aggregateSum, hnil, agg.empty]
  rfl

omit [LinearOrder K] [LinearOrder Out] in
theorem keeps_during (time : Nested) (m : List (Merge K Out)) :
    Keeps time (m.map (Merge.during time.outer)) := by
  intro tm htm k v
  obtain ⟨m, -, rfl⟩ := mem_map.mp htm
  exact Nested.lessEqual_iff.mpr
    ⟨(min_le_right _ _).trans (Nat.sub_le _ _), Nat.zero_le _⟩

def Noted (s : State K V Out Nested) (k : K) (o : ℕ) (col : ℕ) : Prop :=
  ((⟨o, col⟩ : Nested), k) ∈ s.keysOfInterest

variable (rows o i s) in
structure Follows : Prop where
  holds : Holds (inputAt (inputs rows)) o i s.trace
  due : ∀ k, Due (keyInput rows k) (Noted s k o) o i

theorem getElem?_inputs (hx : (NestedOperator.row rows o)[i]? = some x) :
    (NestedOperator.row (inputs rows) o)[i]? = some x.input := by
  rw [inputs, row_map, List.getElem?_map, hx]
  rfl

theorem length_row_inputs :
    (NestedOperator.row (inputs rows) o).length = (NestedOperator.row rows o).length := by
  rw [inputs, row_map, length_map]

theorem visits_iff (hx : (NestedOperator.row rows o)[i]? = some x) :
    Visits ⟨o, i⟩ x s k ↔ keyInput rows k o i ≠ 0 ∨ Noted s k o i := by
  refine or_congr_left ?_
  rw [Function.ne_iff]
  refine exists_congr fun v => ?_
  rw [keyInput, NestedTrace.inputAt_of_getElem? (getElem?_inputs hx)]
  rfl

theorem Follows.step (hx : (NestedOperator.row rows o)[i]? = some x) (h : Follows rows o i s) :
    Follows rows o (i + 1) ((operator agg chunkSize).eval ⟨o, i⟩ x s).1 := by
  have hholds := h.holds.step (getElem?_inputs hx)
  refine ⟨hholds, fun k => (h.due k).step (fun c hc hnoted => ?_) fun hstop c hc hsum => ?_⟩
  · refine step_noted.mpr (.inl ⟨fun heq => hc.ne' ?_, hnoted⟩)
    exact congrArg Product.inner heq
  · obtain ⟨v, hv⟩ := Function.ne_iff.mp hsum
    rw [column_keyInput] at hv
    obtain ⟨stop, hfrom, hto, htime⟩ := hholds.exists_stop hc hv fun _ hp => mem_allTimes hp
    exact ⟨stop, hfrom, hto, step_noted.mpr (.inr ⟨(visits_iff hx).mpr hstop, htime⟩)⟩

theorem follows_before (agg : Aggregator V Out) (chunkSize : ℕ) (ho : o ≤ rows.length)
    (hi : i ≤ (NestedOperator.row rows o).length) :
    Follows rows o i ((operator agg chunkSize).before start rows o i) := by
  refine before_invariant (P := Follows rows) ?_ (fun hx h => h.step hx)
    (fun _ h => ?_) ho hi
  · exact ⟨NestedTrace.holds_nil _, fun k => due_zero _ _ _⟩
  · refine ⟨Holds.row ?_, fun k => due_zero _ _ _⟩
    rw [length_row_inputs]
    exact h.holds

variable (agg rows) in
/-- Nothing changes any more where a transaction ends. -/
def Quiet : Prop :=
  ∀ k out o i, (NestedOperator.row rows o).length ≤ i →
    mixed (aggregateSum agg rows k out) o i = 0

theorem quiet_of_settled (hsettled : (operator agg chunkSize).Settled start rows) :
    Quiet agg rows := by
  intro k out o i hi
  have hrest : ∀ col, (NestedOperator.row rows o).length ≤ col → keyInput rows k o col = 0 := by
    intro col hcol
    funext v
    exact NestedTrace.inputAt_of_length_le (length_row_inputs.trans_le hcol)
  rcases Nat.lt_or_ge o rows.length with ho | ho
  · have hfollows := follows_before agg chunkSize ho.le (le_refl (NestedOperator.row rows o).length)
    refine (hfollows.due k).mixed_eq_zero determined_aggregateSum (fun c _ hnoted => ?_) hrest hi
    have hnone := all_eq_true.mp (Bool.and_eq_true_iff.mp (hsettled o ho)).2 _ hnoted
    simp [Nested.withinEpoch] at hnone
  · refine mixed_eq_zero_of_row determined_aggregateSum fun col _ => hrest col ?_
    rw [row_eq_nil ho]
    exact Nat.zero_le col

theorem outputAt_of_getElem? (hx : (NestedOperator.row rows o)[i]? = some x) :
    outputAt agg chunkSize rows k out o i = (((operator agg chunkSize).eval ⟨o, i⟩ x
      ((operator agg chunkSize).before start rows o i)).2.2.map
        fun c => c.weight (k, out, ())).sum := by
  rw [outputAt, NestedOperator.outputAt, hx]
  rfl

theorem outputAt_of_length_le (hi : (NestedOperator.row rows o).length ≤ i) :
    outputAt agg chunkSize rows k out o i = 0 := by
  rw [outputAt, NestedOperator.outputAt, List.getElem?_eq_none hi]
  rfl

/-- The trace of the output holds what was put out. -/
theorem holds_output (agg : Aggregator V Out) (chunkSize : ℕ) (ho : o ≤ rows.length)
    (hi : i ≤ (NestedOperator.row rows o).length) :
    Holds (outputAt agg chunkSize rows) o i
      ((operator agg chunkSize).before start rows o i).output := by
  refine (show _ ∧ Holds (outputAt agg chunkSize rows) o i
      ((operator agg chunkSize).before start rows o i).output from before_invariant
    (P := fun o i s => s = (operator agg chunkSize).before start rows o i ∧
      Holds (outputAt agg chunkSize rows) o i s.output) ?_ ?_ ?_ ho hi).2
  · exact ⟨rfl, NestedTrace.holds_nil _⟩
  · rintro o i x s hx ⟨rfl, hholds⟩
    refine ⟨(before_succ hx).symm, Holds.append (fun k v => ?_) ?_⟩
    · rw [outputAt_of_getElem? hx]
      exact x.weight_delta _ (k, v, ())
    · refine upserts_induction (fun j trace h => ?_) _ hholds 0
      rw [foldl_map]
      exact NestedTrace.holds_merges (x.merges j) h
  · rintro o s ho ⟨rfl, hholds⟩
    exact ⟨(before_row ho).symm,
      hholds.next fun _ _ _ hcol => outputAt_of_length_le hcol⟩

theorem valueOf_eq (hholds : Holds (inputAt (inputs rows)) o (i + 1) (x.input.trace ⟨o, i⟩ s.trace)) :
    valueOf agg ⟨o, i⟩ (x.input.trace ⟨o, i⟩ s.trace) k =
      agg.aggregate (groupInputs rows k (o + 1) (i + 1)) := by
  refine agg.congr fun v => ?_
  rw [weight_cursorGroup, hholds k v o i (Nat.le_succ o), rect_upTo_row _ _ le_rfl,
    weight_groupInputs]

theorem outputAt_eq_mixed (hquiet : Quiet agg rows) (k : K) (out : Out) (o i : ℕ) :
    outputAt agg chunkSize rows k out o i = mixed (aggregateSum agg rows k out) o i := by
  classical
  induction o, i using lex_induction with
  | _ o i ih =>
    cases hx : (NestedOperator.row rows o)[i]? with
    | none =>
      have hi := List.getElem?_eq_none_iff.mp hx
      rw [outputAt_of_length_le hi, hquiet k out o i hi]
    | some x =>
      obtain ⟨hlt, -⟩ := List.getElem?_eq_some_iff.mp hx
      have ho := (lt_of_getElem? hx).le
      have hfollows := follows_before agg chunkSize ho hlt.le
      have hholds := holds_output agg chunkSize ho hlt.le k out o i (Nat.le_succ o)
      rw [rect_upTo_of_mixed (fun _ => aggregateSum_zero_left) (fun _ => aggregateSum_zero_right)
        ih] at hholds
      rw [outputAt_of_getElem? hx]
      refine (step_output (keeps_during ⟨o, i⟩)).trans ?_
      split
      · rw [hholds]
        change indicator (valueOf agg ⟨o, i⟩ (x.input.trace ⟨o, i⟩ _) k) out - _ = _
        rw [valueOf_eq (hfollows.holds.step (getElem?_inputs hx))]
        exact sub_sub_cancel _ _
      · next hvisits =>
        by_contra hne
        exact hvisits ((visits_iff hx).mpr ((hfollows.due k).stops determined_aggregateSum
          (Ne.symm hne)))

theorem sum_outputs (hquiet : Quiet agg rows) (k : K) (out : Out) (o i : ℕ) :
    rect (outputAt agg chunkSize rows k out) o i = aggregateSum agg rows k out o i := by
  have hleft : ∀ i, aggregateSum agg rows k out 0 i = 0 := fun _ => aggregateSum_zero_left
  rw [← rect_mixed hleft (fun _ => aggregateSum_zero_right) o i]
  exact rect_congr fun row _ col _ => outputAt_eq_mixed hquiet k out row col

end

end Feldera.Operator.Aggregate
