import Feldera.Time.Timestamp
import Feldera.Trace.MergeCursor

/-!
`ListMerger`: merges up to 64 cursors into one builder, a bounded amount of work
at a time. Each value that is written costs one unit of fuel; when the fuel is
used up the call returns, possibly in the middle of a key, and the next call
resumes there.

Index sets are increasing lists of cursor indexes. The source loops until it
returns; here every loop takes a bound on its number of rounds, and the results
hold for every bound that exceeds what the cursors have left.
-/

namespace Feldera.Trace.ListMerger

open Weighted Time LayerMerge

variable {σ K V T R : Type*} {n : Nat}

structure State (n : Nat) (σ K V T R : Type*) where
  cursors : Fin n → σ
  anyValues : Bool
  builder : Builder K V T R
  fuel : ℤ

/-- `ListMerger::new`, which refuses more than 64 cursors. -/
def new (cursors : Fin n → σ) : Option (State n σ K V T R) :=
  if n ≤ 64 then some ⟨cursors, false, Builder.new, 0⟩ else none

def State.refuel (s : State n σ K V T R) (fuel : ℤ) : State n σ K V T R :=
  { s with fuel := fuel }

/-- `IndexSet::is_long`: two or more indexes. -/
def isLong (indexes : List (Fin n)) : Bool :=
  decide (2 ≤ indexes.length)

def pushTimeDiffs (b : Builder K V T R) (td : List (T × R)) : Builder K V T R :=
  td.foldl (fun b p => b.pushTimeDiff p.1 p.2) b

theorem pushTimeDiffs_eq (b : Builder K V T R) (td : List (T × R)) :
    pushTimeDiffs b td = { b with diffs := b.diffs ++ td } := by
  induction td generalizing b with
  | nil => simp [pushTimeDiffs]
  | cons p td ih =>
    change pushTimeDiffs (b.pushTimeDiff p.1 p.2) td = _
    rw [ih]
    simp [Builder.pushTimeDiff]

section

variable [LinearOrder K] [LinearOrder V] [LinearOrder T] [AddCommMonoid R] [DecidableEq R]
  (C : MergeCursor σ K V T R)

/-- The data of a merger that do not change: whether its batches are timed, how times move
to the frontier, and the time that untimed batches use. -/
structure Config (T : Type*) where
  timed : Bool
  mapFunc : Option (T → T)
  default : T

/-- `time_map_func`: times do not move when the frontier is the minimum. -/
def timeMapFunc [Timestamp T] (frontier : T) : Option (T → T) :=
  if frontier = Timestamp.minimum then none else some fun t => Timestamp.join t frontier

def Config.ofFrontier [Timestamp T] (timed : Bool) (default frontier : T) : Config T :=
  ⟨timed, timeMapFunc frontier, default⟩

variable (cfg : Config T)

variable (s : State n σ K V T R)

variable (indexes : List (Fin n))

/-- Writes the value that the cursors `indexes` share, after its times. -/
def copyVal (td : List (T × R)) : Bool × Builder K V T R × ℤ :=
  match indexes.head?.bind fun i => C.getVal (s.cursors i) with
  | some v => (true, (pushTimeDiffs s.builder td).pushVal v, s.fuel - 1)
  | none => (false, s.builder, s.fuel)

/-- `copy_times`: whether a value was written, the builder and the fuel. -/
def copyTimes : Bool × Builder K V T R × ℤ :=
  let times := indexes.flatMap fun i => C.mapTimes (s.cursors i)
  if cfg.timed then
    match cfg.mapFunc with
    | some f =>
      let timeDiffs := consolidate (times.map fun p => (f p.1, p.2))
      if timeDiffs.isEmpty then (false, s.builder, s.fuel) else copyVal C s indexes timeDiffs
    | none =>
      if isLong indexes then
        let timeDiffs := consolidate times
        if timeDiffs.isEmpty then (false, s.builder, s.fuel) else copyVal C s indexes timeDiffs
      else copyVal C s indexes times
  else
    let tmpWeight := (times.map Prod.snd).sum
    if tmpWeight = 0 then (false, s.builder, s.fuel)
    else copyVal C s indexes [(cfg.default, tmpWeight)]

/-- Copies the value that the cursors `indexes` share and steps them. -/
def stepVals : State n σ K V T R :=
  let r := copyTimes C cfg s indexes
  { cursors := fun i => if i ∈ indexes then C.stepVal (s.cursors i) else s.cursors i
    anyValues := r.1 || s.anyValues
    builder := r.2.1
    fuel := r.2.2 }

def stepKeys : State n σ K V T R :=
  { s with cursors := fun i => if i ∈ indexes then C.stepKey (s.cursors i) else s.cursors i }

/-- Writes the key of cursor `i` if values have been written for it. -/
def pushKey (s : State n σ K V T R) (i : Fin n) : State n σ K V T R :=
  if s.anyValues then
    match C.getKey (s.cursors i) with
    | some k => { s with builder := s.builder.pushKey k, anyValues := false }
    | none => s
  else s

def keyValid (i : Fin n) : Bool :=
  (C.getKey (s.cursors i)).isSome

def valValid (i : Fin n) : Bool :=
  (C.getVal (s.cursors i)).isSome

/-- While more than one cursor has values below the minimum key: copies the least value.
The last component tells whether the call goes on. -/
def sharedVals : Nat → State n σ K V T R → List (Fin n) →
    State n σ K V T R × List (Fin n) × Bool
  | 0, s, minKeys => (s, minKeys, false)
  | rounds + 1, s, minKeys =>
    if isLong minKeys then
      let minVals := findMinIndexes
        (minKeys.filterMap fun i => (C.getVal (s.cursors i)).map fun v => (i, v))
      let s := stepVals C cfg s minVals
      let minKeys := minKeys.filter fun i => !decide (i ∈ minVals) || valValid C s i
      if s.fuel ≤ 0 then (s, minKeys, false) else sharedVals rounds s minKeys
    else (s, minKeys, true)

/-- Copies the values that one cursor has left below the minimum key. -/
def ownVals : Nat → State n σ K V T R → Fin n → State n σ K V T R × Bool
  | 0, s, _ => (s, false)
  | rounds + 1, s, i =>
    let s := stepVals C cfg s [i]
    if s.fuel ≤ 0 then (s, false)
    else if valValid C s i then ownVals rounds s i else (s, true)

/-- Copies the values below the minimum key, which the cursors `minKeys` hold. -/
def keyVals (bound : Nat) (s : State n σ K V T R) (minKeys : List (Fin n)) :
    State n σ K V T R × Bool :=
  match sharedVals C cfg bound s minKeys with
  | (s, _, false) => (s, false)
  | (s, minKeys, true) =>
    match minKeys.head? with
    | some i => ownVals C cfg bound s i
    | none => (s, true)

/-- While more than one cursor is left: merges the minimum key. -/
def keysLoop (bound : Nat) : Nat → State n σ K V T R → List (Fin n) →
    State n σ K V T R × List (Fin n) × Bool
  | 0, s, remaining => (s, remaining, false)
  | rounds + 1, s, remaining =>
    if isLong remaining && decide (0 < s.fuel) then
      let origMinKeys := findMinIndexes
        (remaining.filterMap fun i => (C.getKey (s.cursors i)).map fun k => (i, k))
      let minKeys := if s.anyValues then origMinKeys.filter (valValid C s) else origMinKeys
      match keyVals C cfg bound s minKeys with
      | (s, false) => (s, remaining, false)
      | (s, true) =>
        let s := match origMinKeys.head? with
          | some i => pushKey C s i
          | none => s
        let s := stepKeys C s origMinKeys
        let remaining := remaining.filter fun i => !decide (i ∈ origMinKeys) || keyValid C s i
        keysLoop bound rounds s remaining
    else (s, remaining, true)

def lastVals : Nat → State n σ K V T R → Fin n → State n σ K V T R × Bool
  | 0, s, _ => (s, false)
  | rounds + 1, s, i =>
    let s := stepVals C cfg s [i]
    if !valValid C s i then (s, true)
    else if s.fuel ≤ 0 then (s, false) else lastVals rounds s i

def lastKeys (bound : Nat) : Nat → State n σ K V T R → Fin n → State n σ K V T R
  | 0, s, _ => s
  | rounds + 1, s, i =>
    if 0 < s.fuel then
      match lastVals C cfg bound s i with
      | (s, false) => s
      | (s, true) =>
        let s := stepKeys C (pushKey C s i) [i]
        if keyValid C s i then lastKeys bound rounds s i else s
    else s

def work (bound : Nat) (s : State n σ K V T R) : State n σ K V T R :=
  let remaining := (List.finRange n).filter (keyValid C s)
  if remaining.isEmpty then s
  else
    match keysLoop C cfg bound bound s remaining with
    | (s, _, false) => s
    | (s, remaining, true) =>
      match remaining.head? with
      | some i => lastKeys C cfg bound bound s i
      | none => s

def calls (bound : Nat) (s : State n σ K V T R) (fuels : List ℤ) : State n σ K V T R :=
  fuels.foldl (fun s fuel => work C cfg bound (s.refuel fuel)) s

/-- Keys and values that the batches of the cursors have left. -/
def sizeLeft (s : State n (Layers K V T R) K V T R) : Nat :=
  ∑ i, LayerMerge.size (s.cursors i)

/-- The largest amount of fuel. -/
def isizeMax : ℤ := 2 ^ 63 - 1

/-- `ListMerger::merge`: a single call, whose fuel must not be used up. -/
def merge [Timestamp T] (keyFilter : Option (K → Bool)) (valueFilter : Option (V → Bool))
    (timed : Bool) (default : T) (batches : Fin n → Layers K V T R) : Option (Layers K V T R) :=
  (new fun i => mergeCursorStart keyFilter valueFilter (batches i)).bind fun s =>
    let s := work (mergeCursor keyFilter valueFilter) (.ofFrontier timed default default)
      (sizeLeft s + 1) (s.refuel isizeMax)
    if 0 < s.fuel then some s.builder.done else none

end

section

variable [LinearOrder T] [AddCommMonoid R] [DecidableEq R]
  {C : MergeCursor σ K V T R} {cfg : Config T} {ok : σ → Prop} {view : σ → Layers K V T R}

def views (view : σ → Layers K V T R) (s : State n σ K V T R) (i : Fin n) : Layers K V T R :=
  view (s.cursors i)

def Config.move (cfg : Config T) : T → T :=
  cfg.mapFunc.getD id

/-- A single list of consolidated times need not be consolidated again. -/
theorem consolidate_eq_self_of_isTimes {ts : List (T × R)} (h : IsTimes ts) :
    consolidate (moveTimes id ts) = ts := by
  have hid : moveTimes id ts = ts := by
    simp [moveTimes]
  rw [hid, consolidate_of_consolidated h.2]

theorem consolidate_of_subsingleton [Subsingleton T] (t : T) (f : T → T) (ts : List (T × R)) :
    consolidate (moveTimes f ts) =
      if (ts.map Prod.snd).sum = 0 then [] else [(t, (ts.map Prod.snd).sum)] := by
  have hweight : ∀ t', Weighted.weight (moveTimes f ts) t' = (ts.map Prod.snd).sum := by
    intro t'
    simp [Weighted.weight, moveTimes, Subsingleton.elim _ t', Function.comp_def]
  apply (consolidate_consolidated _).ext
  · split
    · exact Consolidated.nil
    · next hne => exact ⟨by simp, by simpa using hne⟩
  intro t'
  rw [weight_consolidate, hweight]
  split
  · next hzero => rw [hzero, weight_nil]
  · simp [Subsingleton.elim t t']

/-- `copy_times` writes the consolidated times of the shared value, if any are left. -/
theorem copyTimes_eq (hC : C.Lawful ok view) {s : State n σ K V T R}
    (hok : ∀ i, ok (s.cursors i)) (hdiffs : s.builder.diffs = [])
    (hunit : cfg.timed = false → Subsingleton T) {indexes : List (Fin n)} (hne : indexes ≠ [])
    {v : V} (hidx : ∀ i ∈ indexes, ∃ ts, headVal (views view s i) = some (v, ts) ∧ IsTimes ts) :
    copyTimes C cfg s indexes =
      if (consolidate (collected cfg.move (views view s) indexes)).isEmpty then
        (false, s.builder, s.fuel)
      else
        (true, writeVal s.builder v (consolidate (collected cfg.move (views view s) indexes)),
          s.fuel - 1) := by
  have hval : (indexes.head?.bind fun i => C.getVal (s.cursors i)) = some v := by
    cases indexes with
    | nil => exact absurd rfl hne
    | cons i indexes =>
      obtain ⟨ts, hts, -⟩ := hidx i (by simp)
      change C.getVal (s.cursors i) = some v
      rw [hC.getVal _ (hok i), show view (s.cursors i) = views view s i from rfl, hts]
      rfl
  have hcopy : ∀ td : List (T × R), copyVal C s indexes td =
      (true, { s.builder with vals := s.builder.vals ++ [(v, td)] }, s.fuel - 1) := by
    intro td
    rw [copyVal, hval]
    simp [pushTimeDiffs_eq, Builder.pushVal, hdiffs]
  have hwrite : ∀ td : List (T × R), td.isEmpty = false →
      copyVal C s indexes td = (true, writeVal s.builder v td, s.fuel - 1) := by
    intro td htd
    rw [hcopy, writeVal, htd]
    rfl
  have htimes : ∀ f : T → T,
      moveTimes f (indexes.flatMap fun i => C.mapTimes (s.cursors i)) =
        collected f (views view s) indexes := by
    intro f
    unfold collected moveTimes
    rw [List.map_flatMap]
    congr 1
    funext i
    rw [hC.mapTimes _ (hok i)]
    rfl
  generalize htd : consolidate (collected cfg.move (views view s) indexes) = td
  have hbranch : ∀ td', td' = td →
      (if td'.isEmpty then (false, s.builder, s.fuel) else copyVal C s indexes td') =
        if td.isEmpty then (false, s.builder, s.fuel)
        else (true, writeVal s.builder v td, s.fuel - 1) := by
    rintro td' rfl
    split
    · rfl
    · next hempty => exact hwrite _ (by simpa using hempty)
  unfold copyTimes
  cases htimed : cfg.timed with
  | false =>
    have : Subsingleton T := hunit htimed
    rw [← htd, ← htimes, consolidate_of_subsingleton cfg.default]
    simp only [Bool.false_eq_true, if_false]
    split
    · rfl
    · exact hwrite _ rfl
  | true =>
    simp only [if_true]
    cases hmap : cfg.mapFunc with
    | some f =>
      have hmove : cfg.move = f := by
        simp [Config.move, hmap]
      exact hbranch _ (by rw [← htd, hmove, ← htimes]; rfl)
    | none =>
      have hmove : cfg.move = id := by
        simp [Config.move, hmap]
      have hid : (indexes.flatMap fun i => C.mapTimes (s.cursors i)) =
          collected cfg.move (views view s) indexes := by
        rw [hmove, ← htimes]
        simp [moveTimes]
      by_cases hlong : isLong indexes = true
      · simp only [hlong, if_true]
        exact hbranch _ (by rw [hid, htd])
      -- one cursor: its times are consolidated already
      obtain ⟨i, rfl⟩ : ∃ i, indexes = [i] := by
        rw [← List.length_eq_one_iff]
        have hpos := List.length_pos_iff.mpr hne
        simp only [isLong, decide_eq_true_eq] at hlong
        omega
      obtain ⟨ts, hts, htimes'⟩ := hidx i (by simp)
      have hcollected : collected cfg.move (views view s) [i] = moveTimes id ts := by
        simp [collected, hmove, hts]
      have hempty : ts.isEmpty = false := by
        simpa using htimes'.1
      simp only [hlong]
      rw [← htd, hid, hcollected, consolidate_eq_self_of_isTimes htimes', hempty]
      have hmoved : moveTimes id ts = ts := by
        simp [moveTimes]
      rw [hmoved]
      exact hwrite ts hempty

end

section

variable [LinearOrder K] [LinearOrder V] [LinearOrder T] [AddCommMonoid R]
  {C : MergeCursor σ K V T R} {cfg : Config T} {ok : σ → Prop} {view : σ → Layers K V T R}
  {total : K × V × T → R}

def workLeft (view : σ → Layers K V T R) (s : State n σ K V T R) : Nat :=
  ∑ i, LayerMerge.size (views view s i)

variable (cfg ok view total) in
structure At (k : K) (s : State n σ K V T R) : Prop where
  cursors : ∀ i, ok (s.cursors i)
  atKey : AtKey cfg.move total k (views view s) s.builder
  any : s.anyValues = true ↔ s.builder.vals ≠ []

variable (cfg ok view total) in
structure Within (k : K) (s s' : State n σ K V T R) : Prop where
  state : At cfg ok view total k s'
  heads : ∀ i, headKey (views view s' i) = headKey (views view s i)
  any : s.anyValues = true → s'.anyValues = true
  fuel_le : s'.fuel ≤ s.fuel
  fuel_lt : s'.fuel < s.fuel → s'.anyValues = true ∧ workLeft view s' < workLeft view s
  left : workLeft view s' ≤ workLeft view s

variable {s : State n σ K V T R} {k : K}

theorem At.within (h : At cfg ok view total k s) : Within cfg ok view total k s s :=
  ⟨h, fun _ => rfl, id, le_rfl, fun hlt => absurd hlt (lt_irrefl _), le_rfl⟩

theorem Within.trans {s s' s'' : State n σ K V T R} (h : Within cfg ok view total k s s')
    (h' : Within cfg ok view total k s' s'') :
    Within cfg ok view total k s s'' where
  state := h'.state
  heads i := (h'.heads i).trans (h.heads i)
  any := h'.any ∘ h.any
  fuel_le := h'.fuel_le.trans h.fuel_le
  fuel_lt := by
    intro hlt
    rcases lt_or_ge s''.fuel s'.fuel with hlt' | hge
    · exact ⟨(h'.fuel_lt hlt').1, (h'.fuel_lt hlt').2.trans_le h.left⟩
    · have hfirst := h.fuel_lt (hge.trans_lt hlt)
      exact ⟨h'.any hfirst.1, h'.left.trans_lt hfirst.2⟩
  left := h'.left.trans h.left

variable [DecidableEq R]

/-- The cursors `indexes` are those at `k` that stand on the least value. -/
structure Least (view : σ → Layers K V T R) (k : K) (s : State n σ K V T R) (v : V)
    (indexes : List (Fin n)) : Prop where
  nodup : indexes.Nodup
  ne_nil : indexes ≠ []
  at_val : ∀ i ∈ indexes, headKey (views view s i) = some k ∧
    ∃ ts, headVal (views view s i) = some (v, ts)
  others : ∀ i, i ∉ indexes → ∀ q ∈ valsAt k (views view s i), v < q.1

theorem stepVals_within (hC : C.Lawful ok view) (hunit : cfg.timed = false → Subsingleton T)
    (h : At cfg ok view total k s) {v : V} {indexes : List (Fin n)}
    (hleast : Least view k s v indexes) :
    Within cfg ok view total k s (stepVals C cfg s indexes) ∧
      views view (stepVals C cfg s indexes) = handOver (views view s) indexes ∧
      workLeft view (stepVals C cfg s indexes) < workLeft view s := by
  have hviews : views view (stepVals C cfg s indexes) = handOver (views view s) indexes := by
    funext i
    unfold views handOver stepVals
    by_cases hi : i ∈ indexes
    · simp only [if_pos hi]
      exact hC.stepVal _ (h.cursors i)
    · simp only [if_neg hi]
  have hleft : workLeft view (stepVals C cfg s indexes) < workLeft view s := by
    unfold workLeft
    rw [hviews]
    refine size_handOver hleast.ne_nil fun i hi => ?_
    obtain ⟨-, ts, hts⟩ := hleast.at_val i hi
    simp [hts]
  have htimes : ∀ i ∈ indexes, ∃ ts, headVal (views view s i) = some (v, ts) ∧ IsTimes ts := by
    intro i hi
    obtain ⟨hkey, ts, hts⟩ := hleast.at_val i hi
    obtain ⟨vs, hvs⟩ := head_mem_valsAt hkey hts
    have hlayer := (h.atKey.rest i).valsAt k
    rw [hvs] at hlayer
    exact ⟨ts, hts, (isLayer_cons.mp hlayer).1⟩
  have hcopy := copyTimes_eq hC h.cursors h.atKey.diffs hunit hleast.ne_nil htimes
  have hmove := h.atKey.handOver hleast.nodup hleast.at_val hleast.others
  have hok : ∀ i, ok ((stepVals C cfg s indexes).cursors i) := by
    intro i
    unfold stepVals
    by_cases hi : i ∈ indexes
    · simp only [if_pos hi]
      exact hC.ok_stepVal _ (h.cursors i)
    · simp only [if_neg hi]
      exact h.cursors i
  have hbuilder : (stepVals C cfg s indexes).builder =
      writeVal s.builder v (consolidate (collected cfg.move (views view s) indexes)) := by
    simp only [stepVals, hcopy]
    split
    · next hempty => simp [writeVal, hempty]
    · rfl
  have hheads : ∀ i, headKey (views view (stepVals C cfg s indexes) i) =
      headKey (views view s i) := by
    intro i
    rw [hviews, headKey_handOver]
  refine ⟨⟨⟨hok, by rw [hviews, hbuilder]; exact hmove, ?_⟩, hheads, ?_, ?_, ?_, hleft.le⟩,
    hviews, hleft⟩
  · rw [hbuilder]
    simp only [stepVals, hcopy, writeVal]
    split
    · simpa using h.any
    · simp
  · intro hany
    simp [stepVals, hany]
  · simp only [stepVals, hcopy]
    split
    · exact le_rfl
    · change s.fuel - 1 ≤ s.fuel
      omega
  · intro hlt
    refine ⟨?_, hleft⟩
    simp only [stepVals, hcopy] at hlt ⊢
    split at hlt
    · exact absurd hlt (lt_irrefl _)
    · next hempty => simp [hempty]

end

end Feldera.Trace.ListMerger
