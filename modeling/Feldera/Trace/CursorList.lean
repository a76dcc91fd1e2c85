import Feldera.Trace.JointPlace
import Feldera.Trace.MergeCursor

/-!
`CursorList`: several cursors read as one. It keeps the indexes of the cursors with the
first key, and of those among them with the first value, and after every move skips the
values and keys whose weights cancel. The loops that skip are bounded by `limit`; more
rounds than there are keys and values are never needed.
-/

namespace Feldera.Trace

open OrderedSum

variable {ι α σ K V R : Type*} {n : Nat}

/-- The indexes whose items come first in a direction, among those that have one. -/
def Direction.best [LinearOrder α] (d : Direction) (indexes : List ι) (g : ι → Option α) :
    List ι :=
  match d with
  | .forward => findMinIndexes (indexes.filterMap fun i => (g i).map fun a => (i, a))
  | .backward =>
    findMinIndexes (indexes.filterMap fun i => (g i).map fun a => (i, OrderDual.toDual a))

structure CursorList (n : Nat) (σ R : Type*) where
  cursors : Fin n → σ
  currentKey : List (Fin n)
  currentVal : List (Fin n)
  weight : R

namespace CursorList

def move (js : List (Fin n)) (f : Fin n → σ → σ) (l : CursorList n σ R) : CursorList n σ R :=
  { l with cursors := fun i => if i ∈ js then f i (l.cursors i) else l.cursors i }

variable (C : Fin n → Cursor σ K V R)

section

variable [LinearOrder K] [LinearOrder V]

/-- `minimize_vals` and `maximize_vals`. -/
def bestVals (d : Direction) (l : CursorList n σ R) : CursorList n σ R :=
  { l with currentVal := d.best l.currentKey fun i => (C i).getVal (l.cursors i) }

/-- `minimize_keys` and `maximize_keys`; both minimize the values. -/
def bestKeys (d : Direction) (l : CursorList n σ R) : CursorList n σ R :=
  bestVals C .forward
    { l with currentKey := d.best (List.finRange n) fun i => (C i).getKey (l.cursors i) }

variable [AddCommMonoid R]

/-- The sum that `is_zero_weight` stores. -/
def sumWeights (l : CursorList n σ R) : R :=
  (l.currentVal.flatMap fun i => (C i).mapTimes (l.cursors i)).sum

variable [DecidableEq R]

/-- `skip_zero_weight_vals_forward` and `skip_zero_weight_vals_reverse`. -/
def skipZeroWeightVals (d : Direction) : Nat → CursorList n σ R → CursorList n σ R
  | 0, l => l
  | limit + 1, l =>
    if l.currentVal = [] then l
    else
      let l := { l with weight := l.sumWeights C }
      if l.weight = 0 then
        skipZeroWeightVals d limit
          (bestVals C d (l.move l.currentVal fun i => (C i).stepVal d))
      else l

/-- `skip_zero_weight_keys_forward` and `skip_zero_weight_keys_reverse`; both skip the values of a
key in forward direction. -/
def skipZeroWeightKeys (limit : Nat) (d : Direction) :
    Nat → CursorList n σ R → CursorList n σ R
  | 0, l => l
  | rounds + 1, l =>
    if l.currentKey = [] then l
    else
      let l := skipZeroWeightVals C .forward limit l
      if l.currentVal = [] then
        skipZeroWeightKeys limit d rounds
          (bestKeys C d (l.move l.currentKey fun i => (C i).stepKey d))
      else l

def settleKeys (limit : Nat) (d : Direction) (l : CursorList n σ R) : CursorList n σ R :=
  skipZeroWeightKeys C limit d limit (bestKeys C d l)

def settleVals (limit : Nat) (d : Direction) (l : CursorList n σ R) : CursorList n σ R :=
  skipZeroWeightVals C d limit (bestVals C d l)

def new (limit : Nat) (cursors : Fin n → σ) : CursorList n σ R :=
  settleKeys C limit .forward ⟨cursors, [], [], 0⟩

/-- `seek_key_exact`: the cursors that find the key are the current ones; others may not have
moved. -/
def seekKeyExact (limit : Nat) (key : K) (l : CursorList n σ R) : CursorList n σ R × Bool :=
  let l := bestVals C .forward
    { l with
      cursors := fun i => ((C i).seekKeyExact key (l.cursors i)).1
      currentKey := (List.finRange n).filter fun i =>
        ((C i).seekKeyExact key (l.cursors i)).2 }
  if l.currentKey = [] then (l, false)
  else
    let l := skipZeroWeightVals C .forward limit l
    (l, !l.currentVal.isEmpty)

end

end CursorList

def cursorList [LinearOrder K] [LinearOrder V] [AddCommMonoid R] [DecidableEq R]
    (C : Fin n → Cursor σ K V R) (limit : Nat) : Cursor (CursorList n σ R) K V R where
  getKey l := l.currentKey.head?.bind fun i => (C i).getKey (l.cursors i)
  getVal l := l.currentVal.head?.bind fun i => (C i).getVal (l.cursors i)
  weight l := l.weight
  mapTimes l := l.currentVal.flatMap fun i => (C i).mapTimes (l.cursors i)
  stepKey d l := .settleKeys C limit d (l.move l.currentKey fun i => (C i).stepKey d)
  seekKey d key l :=
    .settleKeys C limit d (l.move (List.finRange n) fun i => (C i).seekKey d key)
  seekKeyWith d predicate l :=
    .settleKeys C limit d (l.move (List.finRange n) fun i => (C i).seekKeyWith d predicate)
  seekKeyExact key l := l.seekKeyExact C limit key
  resetKeys d l := .settleKeys C limit d (l.move (List.finRange n) fun i => (C i).resetKeys d)
  stepVal d l := .settleVals C limit d (l.move l.currentVal fun i => (C i).stepVal d)
  seekVal d val l := .settleVals C limit d (l.move l.currentKey fun i => (C i).seekVal d val)
  seekValWith d predicate l :=
    .settleVals C limit d (l.move l.currentKey fun i => (C i).seekValWith d predicate)
  resetVals d l := .settleVals C limit d (l.move l.currentKey fun i => (C i).resetVals d)

end Feldera.Trace
