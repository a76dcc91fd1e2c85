import Feldera.Trace.JointPlace

/-!
`CursorPair`: two cursors read as one. Instead of lists of indexes it keeps how the keys of
its cursors compare, and, for equal keys, how their values compare; an invalid key comes
after all others in the direction of the keys. The loops that skip what cancels are
bounded by `limit`.
-/

namespace Feldera.Trace

open OrderedSum

variable {α σ₁ σ₂ K V R : Type*}

/-- The comparison that puts the first cursor before the second. -/
def Direction.first : Direction → Ordering
  | .forward => .lt
  | .backward => .gt

/-- The comparison that puts the second cursor before the first. -/
def Direction.second : Direction → Ordering
  | .forward => .gt
  | .backward => .lt

/-- How two items compare, if they exist. -/
def Direction.order [LinearOrder α] (d : Direction) : Option α → Option α → Ordering
  | none, _ => d.second
  | some _, none => d.first
  | some a, some b => compare a b

structure CursorPair (σ₁ σ₂ R : Type*) where
  cursor1 : σ₁
  cursor2 : σ₂
  keyOrder : Ordering
  keyDirection : Direction
  valOrder : Ordering
  valDirection : Direction
  weight : R

namespace CursorPair

section

variable (c : CursorPair σ₁ σ₂ R)

def currentKey1 : Bool :=
  decide (c.keyOrder = c.keyDirection.first)

def currentKey2 : Bool :=
  decide (c.keyOrder = c.keyDirection.second)

def currentKey12 : Bool :=
  decide (c.keyOrder = .eq)

def currentVal1 : Bool :=
  c.currentKey1 || c.currentKey12 && decide (c.valOrder = c.valDirection.first)

def currentVal2 : Bool :=
  c.currentKey2 || c.currentKey12 && decide (c.valOrder = c.valDirection.second)

def currentVal12 : Bool :=
  c.currentKey12 && decide (c.valOrder = .eq)

end

section

variable (C₁ : Cursor σ₁ K V R) (C₂ : Cursor σ₂ K V R) (f : σ₁ → σ₁) (g : σ₂ → σ₂)
  (c : CursorPair σ₁ σ₂ R)

def getKey : Option K :=
  if c.currentKey1 then C₁.getKey c.cursor1 else C₂.getKey c.cursor2

def getVal : Option V :=
  if c.currentVal1 then C₁.getVal c.cursor1 else C₂.getVal c.cursor2

def keyValid : Bool :=
  if c.currentKey1 then (C₁.getKey c.cursor1).isSome
  else if c.currentKey2 then (C₂.getKey c.cursor2).isSome
  else true

def valValid : Bool :=
  if c.currentVal1 then (C₁.getVal c.cursor1).isSome
  else if c.currentVal2 then (C₂.getVal c.cursor2).isSome
  else true

def mapTimes : List R :=
  (if c.currentVal1 || c.currentVal12 then C₁.mapTimes c.cursor1 else []) ++
    (if c.currentVal2 || c.currentVal12 then C₂.mapTimes c.cursor2 else [])

def moveVals : CursorPair σ₁ σ₂ R :=
  { c with
    cursor1 := if c.currentVal1 || c.currentVal12 then f c.cursor1 else c.cursor1
    cursor2 := if c.currentVal2 || c.currentVal12 then g c.cursor2 else c.cursor2 }

def moveKeys : CursorPair σ₁ σ₂ R :=
  { c with
    cursor1 := if c.keyOrder ≠ c.keyDirection.second then f c.cursor1 else c.cursor1
    cursor2 := if c.keyOrder ≠ c.keyDirection.first then g c.cursor2 else c.cursor2 }

def moveBoth : CursorPair σ₁ σ₂ R :=
  { c with cursor1 := f c.cursor1, cursor2 := g c.cursor2 }

variable [LinearOrder K] [LinearOrder V]

/-- `update_val_order_forward` and `update_val_order_reverse`. -/
def updateValOrder (d : Direction) (c : CursorPair σ₁ σ₂ R) : CursorPair σ₁ σ₂ R :=
  { c with valOrder := d.order (C₁.getVal c.cursor1) (C₂.getVal c.cursor2) }

/-- `update_key_order_forward` and `update_key_order_reverse`; both compare the values of equal keys
in forward direction. -/
def updateKeyOrder (d : Direction) (c : CursorPair σ₁ σ₂ R) : CursorPair σ₁ σ₂ R :=
  let order := d.order (C₁.getKey c.cursor1) (C₂.getKey c.cursor2)
  let c := if order = .eq then updateValOrder C₁ C₂ .forward c else c
  { c with keyOrder := order }

variable [AddCommMonoid R] [DecidableEq R]

/-- `skip_zero_weight_vals_forward` and `skip_zero_weight_vals_reverse`; `is_zero_weight` stores the
weight. -/
def skipZeroWeightVals (d : Direction) : Nat → CursorPair σ₁ σ₂ R → CursorPair σ₁ σ₂ R
  | 0, c => c
  | limit + 1, c =>
    if c.valValid C₁ C₂ then
      let c := { c with weight := (c.mapTimes C₁ C₂).sum }
      if c.weight = 0 then
        skipZeroWeightVals d limit
          (updateValOrder C₁ C₂ d (c.moveVals (C₁.stepVal d) (C₂.stepVal d)))
      else c
    else c

/-- `skip_zero_weight_keys_forward` and `skip_zero_weight_keys_reverse`. -/
def skipZeroWeightKeys (limit : Nat) (d : Direction) :
    Nat → CursorPair σ₁ σ₂ R → CursorPair σ₁ σ₂ R
  | 0, c => c
  | rounds + 1, c =>
    if c.keyValid C₁ C₂ then
      let c := skipZeroWeightVals C₁ C₂ .forward limit c
      if c.valValid C₁ C₂ then c
      else
        skipZeroWeightKeys limit d rounds
          (updateKeyOrder C₁ C₂ d
            { c.moveKeys (C₁.stepKey d) (C₂.stepKey d) with valDirection := .forward })
    else c

def settleKeys (limit : Nat) (d : Direction) (c : CursorPair σ₁ σ₂ R) : CursorPair σ₁ σ₂ R :=
  skipZeroWeightKeys C₁ C₂ limit d limit
    (updateKeyOrder C₁ C₂ d { c with valDirection := .forward })

/-- What follows every move of the values: they are compared only if both cursors have the key. -/
def settleVals (limit : Nat) (d : Direction) (c : CursorPair σ₁ σ₂ R) : CursorPair σ₁ σ₂ R :=
  skipZeroWeightVals C₁ C₂ d limit
    (if c.currentKey1 || c.currentKey2 then c else updateValOrder C₁ C₂ d c)

def new (limit : Nat) (cursor1 : σ₁) (cursor2 : σ₂) : CursorPair σ₁ σ₂ R :=
  skipZeroWeightKeys C₁ C₂ limit .forward limit
    { cursor1 := cursor1
      cursor2 := cursor2
      keyOrder := Direction.forward.order (C₁.getKey cursor1) (C₂.getKey cursor2)
      keyDirection := .forward
      valOrder := Direction.forward.order (C₁.getVal cursor1) (C₂.getVal cursor2)
      valDirection := .forward
      weight := 0 }

/-- `seek_key_exact`: a cursor that does not find the key may not have moved. -/
def seekKeyExact (limit : Nat) (key : K) (c : CursorPair σ₁ σ₂ R) : CursorPair σ₁ σ₂ R × Bool :=
  let result1 := C₁.seekKeyExact key c.cursor1
  let result2 := C₂.seekKeyExact key c.cursor2
  let c := updateKeyOrder C₁ C₂ .forward
    { c with cursor1 := result1.1, cursor2 := result2.1, valDirection := .forward }
  if result1.2 || result2.2 then
    let c := skipZeroWeightVals C₁ C₂ .forward limit c
    (c, c.valValid C₁ C₂)
  else (c, false)

/-- The cursors with the current key are moved among their values: both, if both have it. -/
def moveKeyVals : CursorPair σ₁ σ₂ R :=
  if c.currentKey1 then { c with cursor1 := f c.cursor1 }
  else if c.currentKey2 then { c with cursor2 := g c.cursor2 }
  else c.moveBoth f g

/-- One step among the values: of equal keys, the cursors with the current value move. -/
def stepVals (f : σ₁ → σ₁) (g : σ₂ → σ₂) (d : Direction) (c : CursorPair σ₁ σ₂ R) :
    CursorPair σ₁ σ₂ R :=
  if c.currentKey1 then { c with cursor1 := f c.cursor1 }
  else if c.currentKey2 then { c with cursor2 := g c.cursor2 }
  else
    { c with
      cursor1 := if c.valOrder ≠ d.second then f c.cursor1 else c.cursor1
      cursor2 := if c.valOrder ≠ d.first then g c.cursor2 else c.cursor2 }

end

end CursorPair

def cursorPair [LinearOrder K] [LinearOrder V] [AddCommMonoid R] [DecidableEq R]
    (C₁ : Cursor σ₁ K V R) (C₂ : Cursor σ₂ K V R) (limit : Nat) :
    Cursor (CursorPair σ₁ σ₂ R) K V R where
  getKey c := if c.keyValid C₁ C₂ then c.getKey C₁ C₂ else none
  getVal c := if c.valValid C₁ C₂ then c.getVal C₁ C₂ else none
  weight c := c.weight
  mapTimes c := c.mapTimes C₁ C₂
  stepKey d c := .settleKeys C₁ C₂ limit d (c.moveKeys (C₁.stepKey d) (C₂.stepKey d))
  seekKey d key c := .settleKeys C₁ C₂ limit d (c.moveBoth (C₁.seekKey d key) (C₂.seekKey d key))
  seekKeyWith d predicate c :=
    .settleKeys C₁ C₂ limit d (c.moveBoth (C₁.seekKeyWith d predicate) (C₂.seekKeyWith d predicate))
  seekKeyExact key c := c.seekKeyExact C₁ C₂ limit key
  resetKeys d c :=
    .settleKeys C₁ C₂ limit d
      { c.moveBoth (C₁.resetKeys d) (C₂.resetKeys d) with keyDirection := d }
  stepVal d c := .settleVals C₁ C₂ limit d (c.stepVals (C₁.stepVal d) (C₂.stepVal d) d)
  seekVal d val c :=
    .settleVals C₁ C₂ limit d (c.moveKeyVals (C₁.seekVal d val) (C₂.seekVal d val))
  seekValWith d predicate c :=
    .settleVals C₁ C₂ limit d
      (c.moveKeyVals (C₁.seekValWith d predicate) (C₂.seekValWith d predicate))
  resetVals d c :=
    .settleVals C₁ C₂ limit d
      ({ c with valDirection := d }.moveKeyVals (C₁.resetVals d) (C₂.resetVals d))

end Feldera.Trace
