import Feldera.Trace.ListMergerRun

/-!
`PushMerger`: merges up to 64 push cursors into one builder. A push cursor may answer
`Pending` for a key or a value that has not been read from storage yet; the merger then
returns and is called again later. Unlike `ListMerger` it skips what the filters drop by
itself, and every step of a cursor costs fuel.

Within one call the answers of the cursors depend on their positions only (cursors
process storage results between calls). A position is given by the number of keys and of
values that are left. `Flow.panics` stands for unwrapping a value that is not there.
-/

namespace Feldera.Trace.PushMerger

open Weighted Time LayerMerge

variable {K V T R : Type*} {n : Nat}

inductive Pending
  | pending
deriving DecidableEq

structure Call (n : Nat) where
  fuel : ℤ
  keyReady : Fin n → Nat → Bool
  valReady : Fin n → Nat → Nat → Bool

/-- The merger with its builder and the fuel that is left; a cursor is what it has left of its
batch. -/
abbrev State (n : Nat) (K V T R : Type*) := ListMerger.State n (Layers K V T R) K V T R

inductive Flow
  | goesOn
  | returns
  | pending
  | panics
deriving DecidableEq

section

variable (call : Call n) (i : Fin n)

def key : Layers K V T R → Except Pending (Option K)
  | [] => .ok none
  | (k, _) :: rest =>
    if call.keyReady i (rest.length + 1) then .ok (some k) else .error .pending

def val : Layers K V T R → Except Pending (Option V)
  | [] => .ok none
  | (_, []) :: _ => .ok none
  | (_, p :: vs) :: rest =>
    if call.valReady i (rest.length + 1) (vs.length + 1) then .ok (some p.1)
    else .error .pending

/-- The value can be read and there is one. -/
def hasVal (l : Layers K V T R) : Bool :=
  (val call i l).toOption.join.isSome

variable (keyFilter : Option (K → Bool)) (valueFilter : Option (V → Bool))

/-- The loop of `skip_filtered_values` over the values of a key with `keys` keys left: the
values that are left, the fuel, and whether one that passes was found. -/
def skipVals (keys : Nat) : Vals V T R → ℤ → Vals V T R × ℤ × Except Pending Bool
  | [], fuel => ([], fuel, .ok false)
  | p :: vs, fuel =>
    if call.valReady i keys (vs.length + 1) then
      if includes valueFilter p.1 then (p :: vs, fuel, .ok true)
      else skipVals keys vs (fuel - 1)
    else (p :: vs, fuel, .error .pending)

def skipFilteredValues (l : Layers K V T R) (fuel : ℤ) :
    Layers K V T R × ℤ × Except Pending Bool :=
  if valueFilter.isSome then
    match l with
    | [] => ([], fuel, .ok false)
    | (k, vs) :: rest =>
      let r := skipVals call i valueFilter (rest.length + 1) vs fuel
      ((k, r.1) :: rest, r.2.1, r.2.2)
  else
    match val call i l with
    | .error e => (l, fuel, .error e)
    | .ok _ => (l, fuel, .ok true)

/-- The loop of `skip_filtered_keys`. -/
def skipKeys : Layers K V T R → ℤ → Layers K V T R × ℤ × Except Pending Unit
  | [], fuel => ([], fuel, .ok ())
  | (k, vs) :: rest, fuel =>
    if call.keyReady i (rest.length + 1) then
      if includes keyFilter k then
        match skipFilteredValues call i valueFilter ((k, vs) :: rest) fuel with
        | (l, fuel, .error e) => (l, fuel, .error e)
        | (l, fuel, .ok true) => (l, fuel, .ok ())
        | (_, fuel, .ok false) => skipKeys rest (fuel - 1)
      else skipKeys rest (fuel - 1)
    else ((k, vs) :: rest, fuel, .error .pending)

/-- `skip_filtered_keys`: without filters it only asks whether key and value are there. -/
def skipFilteredKeys (l : Layers K V T R) (fuel : ℤ) :
    Layers K V T R × ℤ × Except Pending Unit :=
  if keyFilter.isSome || valueFilter.isSome then
    skipKeys call i keyFilter valueFilter l fuel
  else
    match key call i l with
    | .error e => (l, fuel, .error e)
    | .ok none => (l, fuel, .ok ())
    | .ok (some _) =>
      match val call i l with
      | .error e => (l, fuel, .error e)
      | .ok _ => (l, fuel, .ok ())

end

section

variable [LinearOrder K] [LinearOrder V] [LinearOrder T] [AddCommMonoid R] [DecidableEq R]
  (call : Call n) (keyFilter : Option (K → Bool)) (valueFilter : Option (V → Bool))
  (cfg : ListMerger.Config T)

def setCursor (s : State n K V T R) (i : Fin n) (l : Layers K V T R) (fuel : ℤ) :
    State n K V T R :=
  { s with cursors := Function.update s.cursors i l, fuel := fuel }

/-- `step_val`; the answer tells whether a value is left. -/
def stepVal (s : State n K V T R) (i : Fin n) : State n K V T R × Except Pending Bool :=
  match skipFilteredValues call i valueFilter (LayerMerge.stepVal (s.cursors i))
      (s.fuel - 1) with
  | (l, fuel, .error e) => (setCursor s i l fuel, .error e)
  | (l, fuel, .ok _) => (setCursor s i l fuel, (val call i l).map Option.isSome)

/-- `step_key`; the answer tells whether a key is left. -/
def stepKey (s : State n K V T R) (i : Fin n) : State n K V T R × Except Pending Bool :=
  match skipFilteredKeys call i keyFilter valueFilter (s.cursors i).tail (s.fuel - 1) with
  | (l, fuel, .error e) => (setCursor s i l fuel, .error e)
  | (l, fuel, .ok ()) => (setCursor s i l fuel, (key call i l).map Option.isSome)

/-- `copy_times`, which panics if a cursor has no value. -/
def copyTimes (s : State n K V T R) (indexes : List (Fin n)) : Option (State n K V T R) :=
  if indexes.all fun i => hasVal call i (s.cursors i) then
    let r := ListMerger.copyTimes unfilteredMergeCursor cfg s indexes
    some { s with anyValues := r.1 || s.anyValues, builder := r.2.1, fuel := r.2.2 }
  else none

/-- The first loop of `merge`: skips what the filters drop and collects the cursors that have
keys. -/
def enter : List (Fin n) → State n K V T R → State n K V T R × Except Pending (List (Fin n))
  | [], s => (s, .ok [])
  | i :: indexes, s =>
    match skipFilteredKeys call i keyFilter valueFilter (s.cursors i) s.fuel with
    | (l, fuel, .error e) => (setCursor s i l fuel, .error e)
    | (l, fuel, .ok ()) =>
      let s := setCursor s i l fuel
      match key call i l, val call i l with
      | .error e, _ => (s, .error e)
      | .ok (some _), .error e => (s, .error e)
      | .ok (some _), .ok _ =>
        match enter indexes s with
        | (s, .ok remaining) => (s, .ok (i :: remaining))
        | r => r
      | .ok none, _ => enter indexes s

/-- Steps the cursors `indexes` to their next values; drops those without one from `minKeys`.
The last component tells whether one of them is pending. -/
def stepMinVals : List (Fin n) → State n K V T R → List (Fin n) → Bool →
    State n K V T R × List (Fin n) × Bool
  | [], s, minKeys, pending => (s, minKeys, pending)
  | i :: indexes, s, minKeys, pending =>
    match stepVal call valueFilter s i with
    | (s, .error _) => stepMinVals indexes s minKeys true
    | (s, .ok true) => stepMinVals indexes s minKeys pending
    | (s, .ok false) => stepMinVals indexes s (minKeys.filter fun j => decide (j ≠ i)) pending

/-- While more than one cursor has values below the minimum key: copies the least value. -/
def sharedVals : Nat → State n K V T R → List (Fin n) →
    State n K V T R × List (Fin n) × Flow
  | 0, s, minKeys => (s, minKeys, .returns)
  | rounds + 1, s, minKeys =>
    if ListMerger.isLong minKeys then
      if minKeys.any fun i => (val call i (s.cursors i)).toOption.isNone then
        (s, minKeys, .pending)
      else
        let minVals := findMinIndexes
          (minKeys.filterMap fun i => ((headVal (s.cursors i)).map Prod.fst).map fun v => (i, v))
        match copyTimes call cfg s minVals with
        | none => (s, minKeys, .panics)
        | some s =>
          match stepMinVals call valueFilter minVals s minKeys false with
          | (s, minKeys, true) => (s, minKeys, .pending)
          | (s, minKeys, false) =>
            if s.fuel ≤ 0 then (s, minKeys, .returns) else sharedVals rounds s minKeys
    else (s, minKeys, .goesOn)

def ownVals : Nat → State n K V T R → Fin n → State n K V T R × Flow
  | 0, s, _ => (s, .returns)
  | rounds + 1, s, i =>
    match val call i (s.cursors i) with
    | .error _ => (s, .pending)
    | .ok _ =>
      match copyTimes call cfg s [i] with
      | none => (s, .panics)
      | some s =>
        match stepVal call valueFilter s i with
        | (s, .error _) => (s, .pending)
        | (s, .ok false) => (s, .goesOn)
        | (s, .ok true) => if s.fuel ≤ 0 then (s, .returns) else ownVals rounds s i

def keyVals (bound : Nat) (s : State n K V T R) (minKeys : List (Fin n)) :
    State n K V T R × Flow :=
  match sharedVals call valueFilter cfg bound s minKeys with
  | (s, minKeys, .goesOn) =>
    match minKeys.head? with
    | some i => ownVals call valueFilter cfg bound s i
    | none => (s, .goesOn)
  | (s, _, flow) => (s, flow)

/-- Writes the key of cursor `i` if values have been written for it. -/
def pushKey (s : State n K V T R) (i : Fin n) : Option (State n K V T R) :=
  if s.anyValues then
    match key call i (s.cursors i) with
    | .ok (some k) => some { s with builder := s.builder.pushKey k, anyValues := false }
    | _ => none
  else some s

/-- Steps the cursors `indexes` to their next keys; drops those without one from
`remaining`. -/
def stepMinKeys : List (Fin n) → State n K V T R → List (Fin n) →
    State n K V T R × List (Fin n) × Flow
  | [], s, remaining => (s, remaining, .goesOn)
  | i :: indexes, s, remaining =>
    match stepKey call keyFilter valueFilter s i with
    | (s, .error _) => (s, remaining, .pending)
    | (s, .ok true) => stepMinKeys indexes s remaining
    | (s, .ok false) => stepMinKeys indexes s (remaining.filter fun j => decide (j ≠ i))

/-- While more than one cursor is left: merges the minimum key. -/
def keysLoop (bound : Nat) : Nat → State n K V T R → List (Fin n) →
    State n K V T R × List (Fin n) × Flow
  | 0, s, remaining => (s, remaining, .returns)
  | rounds + 1, s, remaining =>
    if ListMerger.isLong remaining then
      if s.fuel ≤ 0 then (s, remaining, .returns)
      else if remaining.any fun i => (key call i (s.cursors i)).toOption.isNone then
        (s, remaining, .panics)
      else
        let origMinKeys := findMinIndexes
          (remaining.filterMap fun i => (headKey (s.cursors i)).map fun k => (i, k))
        if origMinKeys.any fun i => (val call i (s.cursors i)).toOption.isNone then
          (s, remaining, .panics)
        else
          match keyVals call valueFilter cfg bound s
              (origMinKeys.filter fun i => hasVal call i (s.cursors i)) with
          | (s, .goesOn) =>
            match origMinKeys.head?.bind (pushKey call s) with
            | none => (s, remaining, .panics)
            | some s =>
              match stepMinKeys call keyFilter valueFilter origMinKeys s remaining with
              | (s, remaining, .goesOn) => keysLoop bound rounds s remaining
              | r => r
          | (s, flow) => (s, remaining, flow)
    else (s, remaining, .goesOn)

def lastKeys (bound : Nat) : Nat → State n K V T R → Fin n → State n K V T R × Flow
  | 0, s, _ => (s, .returns)
  | rounds + 1, s, i =>
    match ownVals call valueFilter cfg bound s i with
    | (s, .goesOn) =>
      match pushKey call s i with
      | none => (s, .panics)
      | some s =>
        match stepKey call keyFilter valueFilter s i with
        | (s, .error _) => (s, .pending)
        | (s, .ok false) => (s, .returns)
        | (s, .ok true) => if s.fuel ≤ 0 then (s, .returns) else lastKeys bound rounds s i
    | r => r

def merge (bound : Nat) (s : State n K V T R) : State n K V T R × Flow :=
  match enter call keyFilter valueFilter (List.finRange n) (s.refuel call.fuel) with
  | (s, .error _) => (s, .pending)
  | (s, .ok remaining) =>
    if remaining.isEmpty || decide (s.fuel ≤ 0) then (s, .returns)
    else
      match keysLoop call keyFilter valueFilter cfg bound bound s remaining with
      | (s, remaining, .goesOn) =>
        match remaining.head? with
        | some i => lastKeys call keyFilter valueFilter cfg bound bound s i
        | none => (s, .returns)
      | (s, _, flow) => (s, flow)

/-- `PushMerger::new`, which refuses more than 64 cursors. -/
def new (batches : List (Batch K V T R)) : Option (State batches.length K V T R) :=
  ListMerger.new fun i => (batches.get i).layers

def run (bound : Nat) (s : State n K V T R) (calls : List (Call n)) : State n K V T R :=
  calls.foldl (fun s call => (merge call keyFilter valueFilter cfg bound s).1) s

end

end Feldera.Trace.PushMerger
