import Feldera.Trace.CursorListSum
import Feldera.Trace.CursorPair

/-!
A `CursorPair` does what a list of its two cursors does: the comparisons that it keeps say
which of the cursors lead, at the level of the keys and at that of the values. Only where
no key is left does it still move a cursor among its values, of which there are none.
-/

namespace Feldera.Trace

open OrderedSum

variable {α σ τ σ₁ σ₂ K V R : Type*}

section

variable [AddCommMonoid R]

/-- A cursor whose states are some of those of a larger type. -/
def Cursor.along (C : Cursor σ K V R) (get : τ → Option σ) (put : σ → τ) : Cursor τ K V R where
  getKey t := (get t).bind C.getKey
  getVal t := (get t).bind C.getVal
  weight t := (get t).elim 0 C.weight
  mapTimes t := (get t).elim [] C.mapTimes
  stepKey d t := (get t).elim t fun s => put (C.stepKey d s)
  seekKey d key t := (get t).elim t fun s => put (C.seekKey d key s)
  seekKeyWith d predicate t := (get t).elim t fun s => put (C.seekKeyWith d predicate s)
  seekKeyExact key t := (get t).elim (t, false) fun s => (C.seekKeyExact key s).map put id
  resetKeys d t := (get t).elim t fun s => put (C.resetKeys d s)
  stepVal d t := (get t).elim t fun s => put (C.stepVal d s)
  seekVal d val t := (get t).elim t fun s => put (C.seekVal d val s)
  seekValWith d predicate t := (get t).elim t fun s => put (C.seekValWith d predicate s)
  resetVals d t := (get t).elim t fun s => put (C.resetVals d s)

def Stance.along (S : Stance σ K V R) (put : σ → τ) : Stance τ K V R where
  firm p t := ∃ s, t = put s ∧ S.firm p s
  loose p t := ∃ s, t = put s ∧ S.loose p s
  near k p t := ∃ s, t = put s ∧ S.near k p s
  able t k := ∀ s, t = put s → S.able s k
  sure t k := ∀ s, t = put s → S.sure s k

variable {C : Cursor σ K V R} {get : τ → Option σ} {put : σ → τ} {entries : Entries K V R}
  {S : Stance σ K V R}

theorem Cursor.apply_along (hget : ∀ s, get (put s) = some s) (s : σ) (op : Op K V) :
    (C.along get put).apply (put s) op = (C.apply s op).map put id := by
  cases op <;> simp only [apply, along, hget] <;> rfl

variable [LinearOrder K] [LinearOrder V]

theorem Cursor.Lawful.along (h : C.Lawful entries S) (hget : ∀ s, get (put s) = some s) :
    (C.along get put).Lawful entries (S.along put) where
  getKey := by
    rintro p - ⟨s, rfl, hs⟩
    simpa [Cursor.along, hget] using h.getKey hs
  getVal := by
    rintro p - ⟨s, rfl, hs⟩ hne
    simpa [Cursor.along, hget] using h.getVal hs hne
  weight := by
    rintro p - ⟨s, rfl, hs⟩ hne q hq
    simpa [Cursor.along, hget] using h.weight hs hne q hq
  mapTimes := by
    rintro p - ⟨s, rfl, hs⟩ hne q hq
    simpa [Cursor.along, hget] using h.mapTimes hs hne q hq
  loose_of_firm := by
    rintro p - ⟨s, rfl, hs⟩
    exact ⟨s, rfl, h.loose_of_firm hs⟩
  apply := by
    rintro p - op ⟨s, rfl, hs⟩ hop hexact
    rw [Cursor.apply_along hget]
    exact ⟨_, rfl, h.apply op hs hop hexact⟩
  apply_loose := by
    rintro p - op ⟨s, rfl, hs⟩ hop hvalues
    rw [Cursor.apply_along hget]
    exact ⟨_, rfl, h.apply_loose op hs hop hvalues⟩
  near_of_firm := by
    rintro p - k ⟨s, rfl, hs⟩ hforward
    exact ⟨s, rfl, h.near_of_firm k hs hforward⟩
  near_of_loose := by
    rintro p - ⟨s, rfl, hs⟩ hforward k hk
    exact ⟨s, rfl, h.near_of_loose hs hforward k hk⟩
  near_self := by
    rintro p - k ⟨s, rfl, hs⟩
    exact ⟨s, rfl, h.near_self hs⟩
  near_seek := by
    rintro p - k k' ⟨s, rfl, hs⟩ hk
    simp only [Cursor.along, hget]
    exact ⟨_, rfl, h.near_seek hs hk⟩
  near_exact := by
    rintro p - k k' ⟨s, rfl, hs⟩ hk hable
    obtain ⟨hanswer, hfound, hnear⟩ := h.near_exact hs hk (hable s rfl)
    simp only [Cursor.along, hget]
    refine ⟨hanswer, fun htrue => ⟨⟨_, rfl, (hfound htrue).1⟩, fun hsure => ?_⟩, _, rfl, hnear⟩
    exact ⟨_, rfl, (hfound htrue).2 (hsure s rfl)⟩
  near_reset := by
    rintro p - k d ⟨s, rfl, hs⟩
    simp only [Cursor.along, hget]
    exact ⟨_, rfl, h.near_reset d hs⟩

end

section

def Direction.lead (d : Direction) (order : Ordering) : List (Fin 2) :=
  if order = d.first then [0] else if order = d.second then [1] else [0, 1]

variable (d : Direction)

theorem Direction.lead_ne_nil (order : Ordering) : d.lead order ≠ [] := by
  cases d <;> cases order <;> decide

/-- Whether the cursors that lead have an item. -/
def Direction.valid (d : Direction) (order : Ordering) (a b : Option α) : Bool :=
  if order = d.first then a.isSome else if order = d.second then b.isSome else true

variable [LinearOrder α]

theorem Direction.best_one (i : Fin 2) (g : Fin 2 → Option α) :
    d.best [i] g = if (g i).isSome then [i] else [] := by
  cases d <;> cases hg : g i <;> simp [best, findMinIndexes, hg]

/-- The first of two items are found by comparing them. -/
theorem Direction.best_two (g : Fin 2 → Option α) :
    d.best [0, 1] g =
      if d.valid (d.order (g 0) (g 1)) (g 0) (g 1) then d.lead (d.order (g 0) (g 1)) else [] := by
  cases h₀ : g 0 with
  | none =>
    cases d <;> cases h₁ : g 1 <;>
      simp [best, findMinIndexes, h₀, h₁, order, valid, lead, first, second]
  | some a =>
    cases h₁ : g 1 with
    | none => cases d <;> simp [best, findMinIndexes, h₀, h₁, order, valid, lead, first]
    | some b =>
      rcases lt_trichotomy a b with hab | rfl | hab
      · have hcmp := compare_lt_iff_lt.mpr hab
        cases d <;> simp [best, findMinIndexes, minStep, h₀, h₁, order, valid, lead, first,
          second, hcmp, hab, hab.not_gt, hab.ne']
      · cases d <;> simp [best, findMinIndexes, minStep, h₀, h₁, order, valid, lead, first, second]
      · have hcmp := compare_gt_iff_gt.mpr hab
        cases d <;> simp [best, findMinIndexes, minStep, h₀, h₁, order, valid, lead, first,
          second, hcmp, hab, hab.not_gt, hab.ne]

end

namespace CursorPair

def keys (c : CursorPair σ₁ σ₂ R) : List (Fin 2) :=
  c.keyDirection.lead c.keyOrder

def vals (c : CursorPair σ₁ σ₂ R) : List (Fin 2) :=
  if c.keyOrder = .eq then c.valDirection.lead c.valOrder else c.keys

def move (js : List (Fin 2)) (f : σ₁ → σ₁) (g : σ₂ → σ₂) (c : CursorPair σ₁ σ₂ R) :
    CursorPair σ₁ σ₂ R :=
  { c with
    cursor1 := if 0 ∈ js then f c.cursor1 else c.cursor1
    cursor2 := if 1 ∈ js then g c.cursor2 else c.cursor2 }

section

variable (f : σ₁ → σ₁) (g : σ₂ → σ₂) (c : CursorPair σ₁ σ₂ R)

theorem moveVals_eq : c.moveVals f g = c.move c.vals f g := by
  obtain ⟨_, _, ko, kd, vo, vd, _⟩ := c
  cases kd <;> cases ko <;> cases vd <;> cases vo <;> rfl

theorem moveKeys_eq : c.moveKeys f g = c.move c.keys f g := by
  obtain ⟨_, _, ko, kd, _, _, _⟩ := c
  cases kd <;> cases ko <;> rfl

theorem moveKeyVals_eq : c.moveKeyVals f g = c.move c.keys f g := by
  obtain ⟨_, _, ko, kd, _, _, _⟩ := c
  cases kd <;> cases ko <;> rfl

theorem stepVals_eq : c.stepVals f g c.valDirection = c.move c.vals f g := by
  obtain ⟨_, _, ko, kd, vo, vd, _⟩ := c
  cases kd <;> cases ko <;> cases vd <;> cases vo <;> rfl

theorem keys_cases : c.keys = [0] ∧ c.vals = [0] ∧ c.keyOrder = c.keyDirection.first ∨
    c.keys = [1] ∧ c.vals = [1] ∧ c.keyOrder = c.keyDirection.second ∨
    c.keys = [0, 1] ∧ c.vals = c.valDirection.lead c.valOrder ∧ c.keyOrder = .eq := by
  obtain ⟨_, _, ko, kd, vo, vd, _⟩ := c
  cases kd <;> cases ko <;> simp [keys, vals, Direction.lead, Direction.first, Direction.second]

theorem keys_ne_nil : c.keys ≠ [] :=
  c.keyDirection.lead_ne_nil c.keyOrder

theorem vals_ne_nil : c.vals ≠ [] := by
  unfold vals
  split
  · exact c.valDirection.lead_ne_nil c.valOrder
  · exact c.keys_ne_nil

end

def both (c : CursorPair σ₁ σ₂ R) : Fin 2 → σ₁ ⊕ σ₂
  | 0 => .inl c.cursor1
  | 1 => .inr c.cursor2

section

def asList (c : CursorPair σ₁ σ₂ R) : CursorList 2 (σ₁ ⊕ σ₂) R :=
  ⟨c.both, [], [], c.weight⟩

variable {C₁ : Cursor σ₁ K V R} {C₂ : Cursor σ₂ K V R} {c : CursorPair σ₁ σ₂ R}
  {l : CursorList 2 (σ₁ ⊕ σ₂) R} {d : Direction}

variable (c l) in
/-- The list has the cursors of the pair, with the same current key. -/
structure SameKey : Prop where
  cursors : l.cursors = c.both
  weight : l.weight = c.weight
  currentKey : l.currentKey = c.keys

variable (C₁ C₂ c l) in
structure Same : Prop extends SameKey c l where
  currentVal : l.currentVal = if c.valValid C₁ C₂ then c.vals else []

theorem valValid_eq (heq : c.keyOrder = .eq) : c.valValid C₁ C₂ =
    c.valDirection.valid c.valOrder (C₁.getVal c.cursor1) (C₂.getVal c.cursor2) := by
  obtain ⟨_, _, ko, kd, vo, vd, _⟩ := c
  obtain rfl : ko = .eq := heq
  cases kd <;> cases vd <;> cases vo <;> rfl

theorem Same.currentVal_ne_nil (h : Same C₁ C₂ c l) :
    l.currentVal ≠ [] ↔ c.valValid C₁ C₂ = true := by
  rw [h.currentVal]
  split
  · next hvalid => exact ⟨fun _ => hvalid, fun _ => c.vals_ne_nil⟩
  · next hvalid => exact ⟨fun hne => absurd rfl hne, fun htrue => absurd htrue hvalid⟩

theorem keyValid_eq : c.keyValid C₁ C₂ =
    c.keyDirection.valid c.keyOrder (C₁.getKey c.cursor1) (C₂.getKey c.cursor2) := by
  simp only [keyValid, currentKey1, currentKey2, Direction.valid, decide_eq_true_eq]

variable (C₁ C₂ c) in
theorem getKey_cases :
    (0 ∈ c.keys ∧ (if c.keyValid C₁ C₂ then c.getKey C₁ C₂ else none) = C₁.getKey c.cursor1) ∨
      1 ∈ c.keys ∧ (if c.keyValid C₁ C₂ then c.getKey C₁ C₂ else none) = C₂.getKey c.cursor2 := by
  obtain ⟨_, _, ko, kd, _, _, _⟩ := c
  cases kd <;> cases ko <;>
    simp [keys, Direction.lead, Direction.first, Direction.second, keyValid, getKey, currentKey1,
      currentKey2] <;> exact Eq.symm

variable (C₁ C₂ c) in
theorem getVal_cases :
    (0 ∈ c.vals ∧ c.getVal C₁ C₂ = C₁.getVal c.cursor1) ∨
      1 ∈ c.vals ∧ c.getVal C₁ C₂ = C₂.getVal c.cursor2 := by
  obtain ⟨_, _, ko, kd, vo, vd, _⟩ := c
  cases kd <;> cases ko <;> cases vd <;> cases vo <;>
    simp [vals, keys, Direction.lead, Direction.first, Direction.second, getVal, currentVal1,
      currentKey1, currentKey12]

theorem vals_subset_keys (c : CursorPair σ₁ σ₂ R) : c.vals ⊆ c.keys := by
  rcases c.keys_cases with ⟨hkeys, hvals, -⟩ | ⟨hkeys, hvals, -⟩ | ⟨hkeys, -, -⟩
  · rw [hkeys, hvals]
    exact List.Subset.refl _
  · rw [hkeys, hvals]
    exact List.Subset.refl _
  · rw [hkeys]
    exact fun i _ => List.mem_finRange i

/-- The cursors that an operation on values moves. -/
def movedVals (c : CursorPair σ₁ σ₂ R) : Op K V → List (Fin 2)
  | .stepVal _ => c.vals
  | _ => c.keys

theorem Same.movesVals (h : Same C₁ C₂ c l) (op : Op K V) :
    CursorList.MovesVals l (c.movedVals op) op := by
  cases op with
  | stepVal d =>
    have hcurrent := h.currentVal
    by_cases hvalid : c.valValid C₁ C₂ = true
    · rw [if_pos hvalid] at hcurrent
      exact .inl hcurrent.symm
    · rw [if_neg hvalid] at hcurrent
      exact .inr ⟨hcurrent, h.currentKey ▸ c.vals_subset_keys⟩
  | _ => exact h.currentKey.symm

variable [AddCommMonoid R]

def sides (C₁ : Cursor σ₁ K V R) (C₂ : Cursor σ₂ K V R) : Fin 2 → Cursor (σ₁ ⊕ σ₂) K V R
  | 0 => C₁.along Sum.getLeft? .inl
  | 1 => C₂.along Sum.getRight? .inr

theorem both_move (js : List (Fin 2)) (op : Op K V) :
    (c.move js (fun s => (C₁.apply s op).1) fun s => (C₂.apply s op).1).both =
      fun i => if i ∈ js then ((sides C₁ C₂ i).apply (c.both i) op).1 else c.both i := by
  funext i
  match i with
  | 0 =>
    simp only [both, move]
    split
    · cases op <;> rfl
    · rfl
  | 1 =>
    simp only [both, move]
    split
    · cases op <;> rfl
    · rfl

variable (C₁ C₂) in
theorem cursors_move (hcursors : l.cursors = c.both) (js : List (Fin 2)) (op : Op K V) :
    (l.move js fun i s => ((sides C₁ C₂ i).apply s op).1).cursors =
      (c.move js (fun s => (C₁.apply s op).1) fun s => (C₂.apply s op).1).both := by
  rw [both_move, ← hcursors]
  rfl

theorem mapTimes_eq : c.mapTimes C₁ C₂ =
    c.vals.flatMap fun i => (sides C₁ C₂ i).mapTimes (c.both i) := by
  obtain ⟨_, _, ko, kd, vo, vd, _⟩ := c
  cases kd <;> cases ko <;> cases vd <;> cases vo <;>
    simp [mapTimes, currentVal1, currentVal2, currentVal12, currentKey1, currentKey2,
      currentKey12, vals, keys, Direction.lead, Direction.first, Direction.second, sides, both,
      Cursor.along]

theorem Same.mapTimes_eq (h : Same C₁ C₂ c l) (hvalid : c.valValid C₁ C₂ = true) :
    (l.currentVal.flatMap fun i => (sides C₁ C₂ i).mapTimes (l.cursors i)) = c.mapTimes C₁ C₂ := by
  rw [CursorPair.mapTimes_eq, h.currentVal, if_pos hvalid, h.cursors]

variable [LinearOrder V]

section

variable (hdir : c.valDirection = d)
  (horder : c.keyOrder = .eq → c.valOrder = d.order (C₁.getVal c.cursor1) (C₂.getVal c.cursor2))
include hdir horder

/-- The first values, if the comparison of the values is up to date. -/
theorem best_vals :
    (d.best c.keys fun i => (sides C₁ C₂ i).getVal (c.both i)) =
      if c.valValid C₁ C₂ then c.vals else [] := by
  rcases c.keys_cases with ⟨hkeys, hvals, hko⟩ | ⟨hkeys, hvals, hko⟩ | ⟨hkeys, hvals, hko⟩
  · rw [hkeys, hvals, Direction.best_one]
    simp only [valValid, currentVal1, currentKey1, hko, decide_true, Bool.true_or, if_true]
    rfl
  · rw [hkeys, hvals, Direction.best_one]
    have hne : c.keyDirection.second ≠ c.keyDirection.first ∧ c.keyDirection.second ≠ .eq := by
      cases c.keyDirection <;> decide
    simp [valValid, currentVal1, currentKey1, currentVal2, currentKey2, currentKey12, hko, hne]
    rfl
  · rw [hkeys, hvals, Direction.best_two, valValid_eq hko, horder hko, hdir]
    rfl

theorem SameKey.same (h : SameKey c l) : Same C₁ C₂ c (l.bestVals (sides C₁ C₂) d) := by
  refine ⟨⟨h.cursors, h.weight, h.currentKey⟩, ?_⟩
  rw [← best_vals hdir horder, ← h.cursors, ← h.currentKey]
  rfl

end

theorem SameKey.updateValOrder (h : SameKey c l) (hdir : c.valDirection = d) :
    Same C₁ C₂ (c.updateValOrder C₁ C₂ d) (l.bestVals (sides C₁ C₂) d) :=
  SameKey.same (c := c.updateValOrder C₁ C₂ d) hdir (fun _ => rfl)
    ⟨h.cursors, h.weight, h.currentKey⟩

variable [DecidableEq R] (limit : Nat)

variable (C₁ C₂ d) in
theorem skipVals_fields (c : CursorPair σ₁ σ₂ R) :
    (c.skipZeroWeightVals C₁ C₂ d limit).keyDirection = c.keyDirection ∧
      (c.skipZeroWeightVals C₁ C₂ d limit).valDirection = c.valDirection := by
  induction limit generalizing c with
  | zero => exact ⟨rfl, rfl⟩
  | succ limit ih =>
    unfold skipZeroWeightVals
    split
    · dsimp only
      split
      · exact ih _
      · exact ⟨rfl, rfl⟩
    · exact ⟨rfl, rfl⟩

theorem Same.skipVals (h : Same C₁ C₂ c l) (hdir : c.valDirection = d) (limit : Nat) :
    Same C₁ C₂ (c.skipZeroWeightVals C₁ C₂ d limit)
      (l.skipZeroWeightVals (sides C₁ C₂) d limit) := by
  induction limit generalizing c l with
  | zero => exact h
  | succ limit ih =>
    unfold skipZeroWeightVals CursorList.skipZeroWeightVals
    by_cases hvalid : c.valValid C₁ C₂ = true
    · rw [if_pos hvalid, if_neg (h.currentVal_ne_nil.mpr hvalid)]
      have hsum : l.sumWeights (sides C₁ C₂) = (c.mapTimes C₁ C₂).sum :=
        congrArg List.sum (h.mapTimes_eq hvalid)
      rw [hsum]
      dsimp only
      split
      · refine ih (SameKey.updateValOrder (l := CursorList.move _ _ _) ⟨?_, rfl, h.currentKey⟩ hdir)
          hdir
        rw [h.currentVal, if_pos hvalid, moveVals_eq]
        exact cursors_move C₁ C₂ (c := { c with weight := _ }) h.cursors c.vals (.stepVal d)
      · exact ⟨⟨h.cursors, rfl, h.currentKey⟩, h.currentVal⟩
    · rw [if_neg hvalid, if_pos (not_not.mp (h.currentVal_ne_nil.not.mpr hvalid))]
      exact h

variable (C₁ C₂) in
theorem settleVals_fields (d : Direction) (c : CursorPair σ₁ σ₂ R) :
    (c.settleVals C₁ C₂ limit d).keyDirection = c.keyDirection ∧
      (c.settleVals C₁ C₂ limit d).valDirection = c.valDirection := by
  unfold settleVals
  split
  · exact skipVals_fields C₁ C₂ d limit c
  · exact skipVals_fields C₁ C₂ d limit _

theorem SameKey.settleVals (h : SameKey c l) (hdir : c.valDirection = d) (limit : Nat) :
    Same C₁ C₂ (c.settleVals C₁ C₂ limit d) (l.settleVals (sides C₁ C₂) limit d) := by
  unfold CursorPair.settleVals CursorList.settleVals
  by_cases hone : (c.currentKey1 || c.currentKey2) = true
  · rw [if_pos hone]
    refine (h.same hdir fun heq => ?_).skipVals hdir limit
    rw [currentKey1, currentKey2, heq] at hone
    cases hkd : c.keyDirection <;> rw [hkd] at hone <;> exact absurd hone (by decide)
  · rw [if_neg hone]
    exact (h.updateValOrder hdir).skipVals hdir limit

variable [LinearOrder K]

variable (c l) in
structure Ended : Prop where
  cursors : l.cursors = c.both
  currentKey : l.currentKey = []
  keyOrder : c.keyOrder ≠ .eq

variable (C₁ C₂ d) in
omit [DecidableEq R] [AddCommMonoid R] in
theorem updateKeyOrder_eq (c : CursorPair σ₁ σ₂ R) : ∃ valOrder,
    c.updateKeyOrder C₁ C₂ d = { c with
      keyOrder := d.order (C₁.getKey c.cursor1) (C₂.getKey c.cursor2), valOrder := valOrder } ∧
    (d.order (C₁.getKey c.cursor1) (C₂.getKey c.cursor2) = .eq →
      valOrder = Direction.forward.order (C₁.getVal c.cursor1) (C₂.getVal c.cursor2)) := by
  unfold updateKeyOrder updateValOrder
  by_cases heq : d.order (C₁.getKey c.cursor1) (C₂.getKey c.cursor2) = .eq
  · exact ⟨_, by simp only [heq, if_true], fun _ => rfl⟩
  · exact ⟨c.valOrder, by simp only [heq, if_false], fun h => absurd h heq⟩

variable (C₁ C₂ c l) in
/-- The pair and the list after they have looked for the first keys. -/
def Found : Prop :=
  c.keyValid C₁ C₂ = true ∧ Same C₁ C₂ c l ∨ c.keyValid C₁ C₂ = false ∧ Ended c l

variable (C₁ C₂) in
omit [DecidableEq R] in
theorem found_updateKeyOrder (hkey : c.keyDirection = d) (hval : c.valDirection = .forward)
    (hcursors : l.cursors = c.both) (hweight : l.weight = c.weight) :
    Found C₁ C₂ (c.updateKeyOrder C₁ C₂ d) (l.bestKeys (sides C₁ C₂) d) ∧
      (c.updateKeyOrder C₁ C₂ d).keyDirection = d ∧
      (c.updateKeyOrder C₁ C₂ d).valDirection = .forward := by
  obtain ⟨valOrder, heq, hvals⟩ := c.updateKeyOrder_eq C₁ C₂ d
  rw [heq]
  refine ⟨?_, hkey, hval⟩
  have hbest : (l.bestKeys (sides C₁ C₂) d).currentKey = d.best [0, 1] fun i =>
      (sides C₁ C₂ i).getKey (c.both i) := by
    rw [← hcursors]
    rfl
  rw [Direction.best_two] at hbest
  subst hkey
  cases hvalid : c.keyDirection.valid (c.keyDirection.order (C₁.getKey c.cursor1)
      (C₂.getKey c.cursor2)) (C₁.getKey c.cursor1) (C₂.getKey c.cursor2) with
  | true =>
    refine .inl ⟨keyValid_eq.trans hvalid, SameKey.same hval hvals ⟨hcursors, hweight, ?_⟩⟩
    exact hbest.trans (if_pos hvalid)
  | false =>
    refine .inr ⟨keyValid_eq.trans hvalid, hcursors, hbest.trans ?_, fun heq => ?_⟩
    · exact if_neg (Bool.eq_false_iff.mp hvalid)
    · rw [show c.keyDirection.order _ _ = Ordering.eq from heq] at hvalid
      cases hkd : c.keyDirection <;> rw [hkd] at hvalid <;> exact absurd hvalid (by simp [
        Direction.valid, Direction.first, Direction.second])

theorem Found.skipKeys (h : Found C₁ C₂ c l) (hkey : c.keyDirection = d)
    (hval : c.valDirection = .forward) (limit rounds : Nat) :
    (Same C₁ C₂ (c.skipZeroWeightKeys C₁ C₂ limit d rounds)
        (l.skipZeroWeightKeys (sides C₁ C₂) limit d rounds) ∨
      Ended (c.skipZeroWeightKeys C₁ C₂ limit d rounds)
        (l.skipZeroWeightKeys (sides C₁ C₂) limit d rounds)) ∧
      (c.skipZeroWeightKeys C₁ C₂ limit d rounds).keyDirection = d ∧
      (c.skipZeroWeightKeys C₁ C₂ limit d rounds).valDirection = .forward := by
  induction rounds generalizing c l with
  | zero => exact ⟨h.imp And.right And.right, hkey, hval⟩
  | succ rounds ih =>
    unfold skipZeroWeightKeys CursorList.skipZeroWeightKeys
    rcases h with ⟨hvalid, h⟩ | ⟨hvalid, h⟩
    · have hskip := h.skipVals hval limit
      obtain ⟨hskipKey, hskipVal⟩ := skipVals_fields C₁ C₂ .forward limit c
      have hne : l.currentKey ≠ [] := h.currentKey ▸ c.keys_ne_nil
      rw [if_pos hvalid, if_neg hne]
      dsimp only
      by_cases hvalValid : (c.skipZeroWeightVals C₁ C₂ .forward limit).valValid C₁ C₂ = true
      · rw [if_pos hvalValid, if_neg (hskip.currentVal_ne_nil.mpr hvalValid)]
        exact ⟨.inl hskip, hskipKey.trans hkey, hskipVal.trans hval⟩
      rw [if_neg hvalValid, if_pos (not_not.mp (hskip.currentVal_ne_nil.not.mpr hvalValid))]
      have hcursors := cursors_move C₁ C₂ hskip.cursors
        (c.skipZeroWeightVals C₁ C₂ .forward limit).keys (.stepKey d)
      rw [← hskip.currentKey] at hcursors
      obtain ⟨hnext, hnextKey, hnextVal⟩ := found_updateKeyOrder C₁ C₂
        (c := { (c.skipZeroWeightVals C₁ C₂ .forward limit).moveKeys (C₁.stepKey d)
          (C₂.stepKey d) with valDirection := .forward }) (hskipKey.trans hkey) rfl
        (hcursors.trans (by rw [hskip.currentKey, moveKeys_eq]; rfl)) hskip.weight
      exact ih hnext hnextKey hnextVal
    · rw [if_neg (Bool.eq_false_iff.mp hvalid), if_pos h.currentKey]
      exact ⟨.inr h, hkey, hval⟩

variable (C₁ C₂) in
theorem settleKeys_cases (hkey : c.keyDirection = d) (hcursors : l.cursors = c.both)
    (hweight : l.weight = c.weight) (limit : Nat) :
    (Same C₁ C₂ (c.settleKeys C₁ C₂ limit d) (l.settleKeys (sides C₁ C₂) limit d) ∨
      Ended (c.settleKeys C₁ C₂ limit d) (l.settleKeys (sides C₁ C₂) limit d)) ∧
      (c.settleKeys C₁ C₂ limit d).keyDirection = d ∧
      (c.settleKeys C₁ C₂ limit d).valDirection = .forward := by
  obtain ⟨hfound, hfoundKey, hfoundVal⟩ := found_updateKeyOrder C₁ C₂
    (c := { c with valDirection := .forward }) hkey rfl hcursors hweight
  exact hfound.skipKeys hfoundKey hfoundVal limit limit

end

end CursorPair

end Feldera.Trace
