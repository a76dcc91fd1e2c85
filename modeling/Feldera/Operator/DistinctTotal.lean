import Feldera.Trace.Snapshot

/-!
`DistinctIncrementalTotal`: `distinct` at the root scope. At the end of a transaction the operator
walks through the changes and looks every record up in the integral of the earlier transactions;
it puts out what the change of the weight changes in the result, in chunks of bounded size.
-/

namespace Feldera.Operator.DistinctTotal

open Trace OrderedSum List Layers Builder

variable {σ τ K V : Type*}

/-- A record with positive weight is kept with weight 1. -/
def distinct (w : ℤ) : ℤ := if 0 < w then 1 else 0

/-- The state of `eval`: the two cursors, the chunk that is being built, whether it has values of
the current key, and the chunks that were yielded. -/
structure State (σ τ K V : Type*) where
  delta : σ
  integral : τ
  builder : Builder K V Unit ℤ
  anyValues : Bool
  out : List (Layers K V Unit ℤ)

namespace State

def push (v : V) (w : ℤ) (s : State σ τ K V) : State σ τ K V :=
  { s with builder := (s.builder.pushTimeDiff () w).pushVal v, anyValues := true }

/-- `maybe_yield`: a full chunk is yielded, with the values of the current key so far. -/
def maybeYield (chunkSize : Nat) (key : K) (s : State σ τ K V) : State σ τ K V :=
  if chunkSize ≤ s.builder.numTuples then
    { s with
      builder := .new
      anyValues := false
      out := s.out ++ [(if s.anyValues then s.builder.pushKey key else s.builder).done] }
  else s

def finishKey (key : K) (s : State σ τ K V) : State σ τ K V :=
  if s.anyValues then { s with builder := s.builder.pushKey key } else s

end State

section

variable [DecidableEq V] (D : Cursor σ K V ℤ) (I : Cursor τ K V ℤ)

/-- A value of a key that the integral holds. -/
def foundVal (v : V) (w : ℤ) (s : State σ τ K V) : State σ τ K V :=
  let integral := I.seekVal .forward v s.integral
  let s := { s with integral := integral }
  let oldWeight := if I.getVal integral = some v then I.weight integral else 0
  let newWeight := oldWeight + w
  if oldWeight ≤ 0 then
    if 0 ≤ newWeight ∧ newWeight ≠ 0 then s.push v 1 else s
  else if newWeight ≤ 0 then s.push v (-1)
  else s

/-- A value of a key that the integral does not hold. -/
def newVal (v : V) (w : ℤ) (s : State σ τ K V) : State σ τ K V :=
  if 0 ≤ w then s.push v 1 else s

def evalVals (chunkSize : Nat) (found : Bool) (key : K) : Nat → State σ τ K V → State σ τ K V
  | 0, s => s
  | rounds + 1, s =>
    match D.getVal s.delta with
    | none => s
    | some v =>
      let w := D.weight s.delta
      let s := (if found then foundVal I v w s else newVal v w s).maybeYield chunkSize key
      evalVals chunkSize found key rounds { s with delta := D.stepVal .forward s.delta }

def evalKeys (chunkSize limit : Nat) : Nat → State σ τ K V → State σ τ K V
  | 0, s => s
  | rounds + 1, s =>
    match D.getKey s.delta with
    | none => s
    | some key =>
      let result := I.seekKeyExact key s.integral
      let s := evalVals D I chunkSize result.2 key limit
        { s with integral := result.1, anyValues := false }
      let s := s.finishKey key
      evalKeys chunkSize limit rounds { s with delta := D.stepKey .forward s.delta }

/-- The chunks that `eval` yields once the input is flushed. -/
def eval (chunkSize limit : Nat) (delta : σ) (integral : τ) : List (Layers K V Unit ℤ) :=
  let s := evalKeys D I chunkSize limit limit ⟨delta, integral, .new, false, []⟩
  s.out ++ [s.builder.done]

end

section

variable [LinearOrder K] [LinearOrder V] {s : State σ τ K V} {key : K}

namespace State

def weight (key : K) (s : State σ τ K V) (x : K × V × Unit) : ℤ :=
  (s.out.map fun c => c.weight x).sum +
    Layers.weight (s.builder.keys ++ [(key, s.builder.vals)]) x

/-- Values wait for the current key exactly if `any_values` says so. -/
structure Tidy (s : State σ τ K V) : Prop where
  diffs : s.builder.diffs = []
  anyValues : s.anyValues = !s.builder.vals.isEmpty

omit [LinearOrder K] [LinearOrder V] in
theorem tidy_push (v : V) (w : ℤ) : (s.push v w).Tidy :=
  ⟨rfl, by simp [push, pushVal, pushTimeDiff]⟩

theorem weight_push (h : s.Tidy) (v : V) (w : ℤ) (x : K × V × Unit) :
    (s.push v w).weight key x = s.weight key x + if x = (key, v, ()) then w else 0 := by
  obtain ⟨k', v', u⟩ := x
  have hvals : (s.push v w).builder.vals = s.builder.vals ++ [(v, [((), w)])] := by
    simp [push, pushVal, pushTimeDiff, h.diffs]
  have hkeys : (s.push v w).builder.keys = s.builder.keys := rfl
  have hout : (s.push v w).out = s.out := rfl
  unfold weight
  rw [hvals, hkeys, hout]
  simp only [weight_append, weight_cons, weight_nil, Vals.weight_append,
    Vals.weight_cons, Vals.weight_nil, Weighted.weight_cons, Weighted.weight_nil]
  by_cases hk : key = k'
  · by_cases hv : v = v'
    · simp [hk, hv, add_assoc]
    · simp [hk, hv, Ne.symm hv]
  · simp [hk, Ne.symm hk]

omit [LinearOrder K] [LinearOrder V] in
theorem Tidy.maybeYield (h : s.Tidy) (chunkSize : Nat) (key : K) :
    (s.maybeYield chunkSize key).Tidy := by
  unfold State.maybeYield
  split
  · exact ⟨rfl, rfl⟩
  · exact h

theorem weight_maybeYield (h : s.Tidy) (chunkSize : Nat) (x : K × V × Unit) :
    (s.maybeYield chunkSize key).weight key x = s.weight key x := by
  obtain ⟨k', v', u⟩ := x
  unfold maybeYield
  split
  · unfold weight
    have hchunk : Layers.weight (if s.anyValues then s.builder.pushKey key
        else s.builder).done (k', v', u) =
        Layers.weight (s.builder.keys ++ [(key, s.builder.vals)]) (k', v', u) := by
      rw [h.anyValues]
      cases hvals : s.builder.vals with
      | nil => simp [done, weight_cons]
      | cons q vals => simp [done, pushKey, hvals]
    simp [hchunk, new, weight_cons]
  · rfl

theorem finishKey_spec (key : K) (h : s.Tidy) :
    (s.finishKey key).builder.diffs = [] ∧ (s.finishKey key).builder.vals = [] ∧
      ∀ key' x, (s.finishKey key).weight key' x = s.weight key x := by
  unfold finishKey weight
  rw [h.anyValues]
  cases hvals : s.builder.vals with
  | nil =>
    refine ⟨h.diffs, hvals, fun key' x => ?_⟩
    obtain ⟨k', v', u⟩ := x
    simp [hvals, weight_cons]
  | cons q vals =>
    refine ⟨h.diffs, rfl, fun key' x => ?_⟩
    obtain ⟨k', v', u⟩ := x
    simp [hvals, pushKey, weight_cons]

end State

end

section

variable [LinearOrder K] [LinearOrder V] {D : Cursor σ K V ℤ} {I : Cursor τ K V ℤ}
  {SD : Stance σ K V ℤ} {SI : Stance τ K V ℤ} {delta integral : Batch K V Unit ℤ}
  {s : State σ τ K V} {key : K} {found : Bool} {chunkSize : Nat}

/-- What a change of weight `w` changes in the result. -/
def change (integral : Batch K V Unit ℤ) (key : K) (v : V) (w : ℤ) : ℤ :=
  distinct (integral.weight (key, v, ()) + w) - distinct (integral.weight (key, v, ()))

/-- The cursor of the integral has looked up a key, and the values `vals` are still to be looked up
below it. -/
structure Looks (SI : Stance τ K V ℤ) (integral : Batch K V Unit ℤ) (found : Bool) (key : K)
    (vals : List (V × ℤ)) (t : τ) : Prop where
  there : found = true → ∃ q : Place K V ℤ, q.keyDir = .forward ∧ q.valDir = .forward ∧
    q.rest = since (some key) integral.entries ∧ q.key = some key ∧ SI.loose q t ∧
    Weighted.Consolidated q.vals ∧
    ∀ r ∈ vals, Weighted.weight q.vals r.1 = integral.weight (key, r.1, ())
  absent : found = false → Ready SI integral.entries (some key) t ∧
    ∀ v, integral.weight (key, v, ()) = 0

variable {vals : List (V × ℤ)} {t : τ}

theorem Looks.ready (hI : I.Lawful integral.entries SI) (h : Looks SI integral found key vals t)
    : Ready SI integral.entries (some key) t := by
  cases hfound : found with
  | true =>
    obtain ⟨q, hdir, -, hrest, hkey, hq, -⟩ := h.there hfound
    exact ready_of_loose hI hdir hrest hkey hq
  | false => exact (h.absent hfound).1

theorem distinct_sub (a b : ℤ) : distinct a - distinct b =
    if 0 < a then if 0 < b then 0 else 1 else if 0 < b then -1 else 0 := by
  unfold distinct
  split <;> split <;> rfl

theorem val_spec (hI : I.Lawful integral.entries SI) {v : V} {w : ℤ}
    (hlooks : Looks SI integral found key ((v, w) :: vals) s.integral)
    (hvals : Weighted.Consolidated ((v, w) :: vals)) (hs : s.Tidy) :
    let s' := if found then foundVal I v w s else newVal v w s
    s'.Tidy ∧ s'.delta = s.delta ∧ Looks SI integral found key vals s'.integral ∧
      ∀ x, s'.weight key x =
        s.weight key x + if x = (key, v, ()) then change integral key v w else 0 := by
  cases hfound : found with
  | true =>
    obtain ⟨q, hdir, hvdir, hrest, hkey, hq, hqvals, hold⟩ := hlooks.there hfound
    have hne : q.rest ≠ [] := by
      intro hnil
      rw [Place.key, hnil] at hkey
      cases hkey
    obtain ⟨hq', holdWeight⟩ := hI.lookupVal hq hvdir hne hqvals v
    rw [hold (v, w) mem_cons_self] at holdWeight
    have hlooks' : Looks SI integral true key vals (I.seekVal .forward v s.integral) := by
      refine ⟨fun _ => ⟨{ q with vals := q.vals.dropWhile fun r => decide (r.1 < v) }, hdir, hvdir,
        hrest, hkey, hq', hqvals.dropWhile _, fun r hr => ?_⟩, by simp⟩
      have hlt : v < r.1 := hvals.head_lt r hr
      change Weighted.weight (q.vals.dropWhile fun r => decide (r.1 < v)) r.1 = _
      rw [Weighted.weight_dropWhile_lt _ hlt.le]
      exact hold r (mem_cons_of_mem _ hr)
    have htidy : ({ s with integral := I.seekVal .forward v s.integral } : State σ τ K V).Tidy :=
      ⟨hs.diffs, hs.anyValues⟩
    simp only [if_true, foundVal, holdWeight]
    unfold change
    generalize integral.weight (key, v, ()) = old
    split
    · split
      · rw [distinct_sub, if_pos (by omega), if_neg (by omega)]
        exact ⟨State.tidy_push v 1, rfl, hlooks', State.weight_push htidy v 1⟩
      · rw [distinct_sub, if_neg (by omega), if_neg (by omega)]
        exact ⟨htidy, rfl, hlooks', fun x => by simp [State.weight]⟩
    · split
      · rw [distinct_sub, if_neg (by omega), if_pos (by omega)]
        exact ⟨State.tidy_push v (-1), rfl, hlooks', State.weight_push htidy v (-1)⟩
      · rw [distinct_sub, if_pos (by omega), if_pos (by omega)]
        exact ⟨htidy, rfl, hlooks', fun x => by simp [State.weight]⟩
  | false =>
    obtain ⟨hready, hzero⟩ := hlooks.absent hfound
    have hlooks' : Looks SI integral false key vals s.integral := ⟨by simp, fun _ => ⟨hready, hzero⟩⟩
    have hw : w ≠ 0 := hvals.nonzero (v, w) mem_cons_self
    simp only [Bool.false_eq_true, if_false, newVal]
    unfold change
    rw [hzero v]
    split
    · rw [distinct_sub, if_pos (by omega), if_neg (lt_irrefl 0)]
      exact ⟨State.tidy_push v 1, rfl, hlooks', State.weight_push hs v 1⟩
    · rw [distinct_sub, if_neg (by omega), if_neg (lt_irrefl 0)]
      exact ⟨hs, rfl, hlooks', fun x => by simp⟩

/-- What the values of a key change in the weight of `x`. -/
def keyChange (integral : Batch K V Unit ℤ) (key : K) (vals : List (V × ℤ)) (x : K × V × Unit) :
    ℤ :=
  (vals.map fun r => if x = (key, r.1, ()) then change integral key r.1 r.2 else 0).sum

theorem evalVals_spec (chunkSize : Nat) {rounds : Nat} (hD : D.Lawful delta.entries SD)
    (hI : I.Lawful integral.entries SI) {p : Place K V ℤ} (hp : SD.firm p s.delta)
    (hdir : p.valDir = .forward) (hne : p.rest ≠ [])
    (hvals : Weighted.Consolidated p.vals)
    (hlooks : Looks SI integral found key p.vals s.integral) (hs : s.Tidy)
    (hrounds : p.vals.length < rounds) :
    let s' := evalVals D I chunkSize found key rounds s
    s'.Tidy ∧ SD.firm { p with vals := [] } s'.delta ∧
      Ready SI integral.entries (some key) s'.integral ∧
      ∀ x, s'.weight key x = s.weight key x + keyChange integral key p.vals x := by
  induction rounds generalizing p s with
  | zero => omega
  | succ rounds ih =>
    have hget := hD.getVal (hD.loose_of_firm hp) hne
    obtain ⟨keyDir, rest, valDir, vals⟩ := p
    obtain rfl : valDir = .forward := hdir
    cases vals with
    | nil =>
      have hstop : evalVals D I chunkSize found key (rounds + 1) s = s := by
        rw [evalVals, hget]
        rfl
      intro s'
      rw [show s' = s from hstop]
      exact ⟨hs, hp, hlooks.ready hI, fun x => (add_zero _).symm⟩
    | cons r vals =>
      obtain ⟨v, w⟩ := r
      have hweight : D.weight s.delta = w := hD.weight (hD.loose_of_firm hp) hne (v, w) rfl
      obtain ⟨hs₁, hdelta₁, hlooks₁, hweight₁⟩ := val_spec hI hlooks hvals hs
      have hstep : evalVals D I chunkSize found key (rounds + 1) s =
          let s₁ := (if found then foundVal I v w s else newVal v w s).maybeYield chunkSize key
          evalVals D I chunkSize found key rounds
            { s₁ with delta := D.stepVal .forward s₁.delta } := by
        rw [evalVals, hget, hweight]
        rfl
      rw [hstep]
      generalize (if found then foundVal I v w s else newVal v w s) = s₁ at *
      have hyield : (s₁.maybeYield chunkSize key).delta = s₁.delta ∧
          (s₁.maybeYield chunkSize key).integral = s₁.integral := by
        unfold State.maybeYield
        split
        · exact ⟨rfl, rfl⟩
        · exact ⟨rfl, rfl⟩
      have htidy := hs₁.maybeYield chunkSize key
      have hnext := hD.apply (.stepVal .forward) hp rfl nofun
      obtain ⟨hs', hdelta', hready', hweight'⟩ := ih
        (s := { s₁.maybeYield chunkSize key with
          delta := D.stepVal .forward (s₁.maybeYield chunkSize key).delta })
        (p := ⟨keyDir, rest, .forward, vals⟩) (by rw [hyield.1, hdelta₁]; exact hnext) rfl hne
        hvals.tail (by rw [hyield.2]; exact hlooks₁) ⟨htidy.diffs, htidy.anyValues⟩
        (Nat.lt_of_succ_lt_succ hrounds)
      refine ⟨hs', hdelta', hready', fun x => ?_⟩
      have hframe : State.weight key { s₁.maybeYield chunkSize key with
          delta := D.stepVal .forward (s₁.maybeYield chunkSize key).delta } x =
            (s₁.maybeYield chunkSize key).weight key x := rfl
      rw [hweight' x, hframe, State.weight_maybeYield hs₁, hweight₁ x, add_assoc]
      rfl

theorem evalKeys_spec (chunkSize : Nat) (hD : D.Lawful delta.entries SD)
    (hI : I.Lawful integral.entries SI)
    (hable : ∀ t k, SI.able t k) {rest : Entries K V ℤ} {last : Option K}
    (hp : SD.firm (.enter .forward rest) s.delta) (hrest : rest.Sublist delta.entries)
    (hlast : ∀ k ∈ last, ∀ r ∈ rest, k ≤ r.1) (hready : Ready SI integral.entries last s.integral)
    (hdiffs : s.builder.diffs = []) (hvals : s.builder.vals = []) {limit rounds : Nat}
    (hlimit : ∀ r ∈ rest, r.2.length < limit) (hrounds : rest.length < rounds) :
    let s' := evalKeys D I chunkSize limit rounds s
    s'.builder.vals = [] ∧ ∀ k x, s'.weight k x =
      s.weight k x + (rest.map fun r => keyChange integral r.1 r.2 x).sum := by
  induction rounds generalizing rest s last with
  | zero => omega
  | succ rounds ih =>
    have hget := hD.getKey (hD.loose_of_firm hp)
    cases rest with
    | nil =>
      have hstop : evalKeys D I chunkSize limit (rounds + 1) s = s := by
        rw [evalKeys, hget]
        rfl
      intro s'
      rw [show s' = s from hstop]
      exact ⟨hvals, fun k x => (add_zero _).symm⟩
    | cons r rest =>
      obtain ⟨key, vals⟩ := r
      have hmem : (key, vals) ∈ delta.entries := hrest.subset mem_cons_self
      have hordered : Ordered Direction.forward.lt ((key, vals) :: rest) :=
        delta.entries_ordered.sublist hrest
      obtain ⟨-, hcons⟩ := delta.vals_consolidated hmem
      have hkey : ∀ k ∈ last, k ≤ key := fun k hk => hlast k hk _ mem_cons_self
      obtain ⟨hready', hlookup⟩ :=
        hI.lookup integral.entries_ordered hready hkey (hable s.integral key)
      have hlooks : Looks SI integral (I.seekKeyExact key s.integral).2 key vals
          (I.seekKeyExact key s.integral).1 := by
        rcases hlookup with ⟨ivals, hivals, hhead, htrue, hloose⟩ | ⟨hnot, hfalse⟩
        · refine ⟨fun _ => ⟨_, rfl, rfl, rfl, ?_, hloose, ?_, fun r _ => ?_⟩, fun hfalse => ?_⟩
          · rw [Place.key, Place.enter, hhead]
            rfl
          · rw [Place.enter, hhead]
            exact (integral.vals_consolidated hivals).2
          · rw [Place.enter, hhead]
            exact integral.weight_of_mem_entries hivals r.1
          · exact absurd (htrue.symm.trans hfalse) (by simp)
        · exact ⟨fun htrue => absurd (hfalse.symm.trans htrue) (by simp),
            fun _ => ⟨hready', fun v => integral.weight_of_not_mem_keys hnot v⟩⟩
      have hstep : evalKeys D I chunkSize limit (rounds + 1) s =
          let s₁ := (evalVals D I chunkSize (I.seekKeyExact key s.integral).2 key limit
            { s with integral := (I.seekKeyExact key s.integral).1, anyValues := false }).finishKey
              key
          evalKeys D I chunkSize limit rounds
            { s₁ with delta := D.stepKey .forward s₁.delta } := by
        rw [evalKeys, hget]
        rfl
      rw [hstep]
      obtain ⟨htidy, hdelta, hready₁, hweight⟩ := evalVals_spec chunkSize hD hI
        (s := { s with integral := (I.seekKeyExact key s.integral).1, anyValues := false })
        hp rfl (cons_ne_nil _ _) hcons hlooks ⟨hdiffs, by rw [hvals]; rfl⟩
        (hlimit _ mem_cons_self)
      generalize evalVals D I chunkSize (I.seekKeyExact key s.integral).2 key limit
        { s with integral := (I.seekKeyExact key s.integral).1, anyValues := false } = s₁ at *
      obtain ⟨hdiffs₁, hvals₁, hweight₁⟩ := State.finishKey_spec key htidy
      have hcursors : (s₁.finishKey key).delta = s₁.delta ∧
          (s₁.finishKey key).integral = s₁.integral := by
        unfold State.finishKey
        split
        · exact ⟨rfl, rfl⟩
        · exact ⟨rfl, rfl⟩
      have hnext := hD.apply (.stepKey .forward) hdelta rfl (by simp)
      obtain ⟨hvals', hweight'⟩ := ih
        (s := { s₁.finishKey key with delta := D.stepKey .forward (s₁.finishKey key).delta })
        (by rw [hcursors.1]; exact hnext) ((sublist_cons_self _ _).trans hrest)
        (fun k hk r hr => Option.some.inj hk ▸ ((pairwise_cons.mp hordered).1 r hr).le)
        (by rw [hcursors.2]; exact hready₁) hdiffs₁ hvals₁
        (fun r hr => hlimit r (mem_cons_of_mem _ hr)) (Nat.lt_of_succ_lt_succ hrounds)
      refine ⟨hvals', fun k x => ?_⟩
      have hstart : State.weight key { s with
          integral := (I.seekKeyExact key s.integral).1, anyValues := false } x =
            s.weight k x := by
        obtain ⟨k', v', u⟩ := x
        unfold State.weight
        simp [hvals, weight_cons]
      have hframe : State.weight k { s₁.finishKey key with
          delta := D.stepKey .forward (s₁.finishKey key).delta } x =
            (s₁.finishKey key).weight k x := rfl
      rw [hweight' k x, hframe, hweight₁ k x, hweight x, hstart, add_assoc]
      rfl

/-- The changes of all keys add up to the change of each record. -/
theorem sum_keyChange (delta integral : Batch K V Unit ℤ) (k : K) (v : V) :
    (delta.entries.map fun r => keyChange integral r.1 r.2 (k, v, ())).sum =
      change integral k v (delta.weight (k, v, ())) := by
  have hkey : ∀ r : K × List (V × ℤ), keyChange integral r.1 r.2 (k, v, ()) =
      if r.1 = k then mass (change integral k v) r.2 v else 0 := by
    intro r
    unfold keyChange
    split
    · next heq =>
      refine congrArg List.sum (map_congr_left fun u _ => ?_)
      by_cases hv : u.1 = v
      · rw [if_pos (by rw [heq, hv]), if_pos hv, heq, hv]
      · rw [if_neg (by simpa using fun _ => Ne.symm hv), if_neg hv]
    · next hne =>
      refine sum_eq_zero fun c hc => ?_
      obtain ⟨u, -, rfl⟩ := mem_map.mp hc
      exact if_neg (by simpa using fun h => absurd h.symm hne)
  simp only [hkey]
  change mass (fun vals => mass (change integral k v) vals v) delta.entries k = _
  by_cases hk : k ∈ delta.entries.map Prod.fst
  · obtain ⟨r, hr, rfl⟩ := mem_map.mp hk
    obtain ⟨-, hcons⟩ := delta.vals_consolidated hr
    rw [delta.entries_ordered.mass_of_mem _ hr, ← delta.weight_of_mem_entries hr v]
    by_cases hv : Weighted.weight r.2 v = 0
    · rw [hv, mass_eq_zero _ fun u hu heq => ?_]
      · simp [change]
      · have hmem := (hcons.mem_iff u.1 u.2).mp hu
        rw [heq, hv] at hmem
        exact hmem.1 hmem.2.symm
    · have hmem := (hcons.mem_iff v _).mpr ⟨hv, rfl⟩
      have hordered : Ordered Direction.forward.lt r.2 := hcons.sorted
      exact hordered.mass_of_mem _ hmem
  · have hnot : ∀ r ∈ delta.entries, r.1 ≠ k := fun r hr heq =>
      hk (heq ▸ mem_map_of_mem hr)
    rw [mass_eq_zero _ hnot, delta.weight_of_not_mem_keys hk]
    simp [change]

/-- What `eval` yields adds up to the change of the result. -/
theorem eval_weight (hD : D.Lawful delta.entries SD) (hI : I.Lawful integral.entries SI)
    (hable : ∀ t k, SI.able t k) {s : σ} (hs : SD.firm (.enter .forward delta.entries) s)
    (ht : SI.firm (.enter .forward integral.entries) t) (chunkSize : Nat) {limit : Nat}
    (hlimit : volume delta.entries < limit) (k : K) (v : V) :
    ((eval D I chunkSize limit s t).map fun c => c.weight (k, v, ())).sum =
      change integral k v (delta.weight (k, v, ())) := by
  have hlast : ∀ k ∈ (none : Option K), ∀ r ∈ delta.entries, k ≤ r.1 := nofun
  obtain ⟨hvals, hweight⟩ := evalKeys_spec chunkSize hD hI hable (s := ⟨s, t, .new, false, []⟩) hs
    (List.Sublist.refl _) hlast (ready_of_firm hI rfl rfl ht) rfl rfl
    (fun r hr => lt_of_le_of_lt (vals_length_le_volume hr) hlimit)
    (lt_of_le_of_lt (length_le_volume _) hlimit)
  have htotal := hweight k (k, v, ())
  rw [sum_keyChange] at htotal
  unfold eval
  generalize evalKeys D I chunkSize limit limit ⟨s, t, .new, false, []⟩ = s' at hvals htotal ⊢
  have hstart : State.weight k (⟨s, t, .new, false, []⟩ : State σ τ K V) (k, v, ()) = 0 := by
    simp [State.weight, new, weight_cons]
  rw [hstart, zero_add] at htotal
  rw [← htotal, State.weight, hvals]
  simp [done, weight_cons]

end

section

variable [LinearOrder K] [LinearOrder V] (filter : KeyFilter K V ℤ)

/-- A transaction: the batches of its steps, the merges in the accumulator and in the integral
before it is flushed, the batches of the integral that fetch the keys, and the size of the chunks. -/
structure Transaction (K V : Type*) [LinearOrder K] [LinearOrder V] where
  inputs : List (Batch K V Unit ℤ)
  accumulated : Merging K V ℤ
  merging : Merging K V ℤ
  fetches : Batch K V Unit ℤ → Bool
  chunkSize : Nat

namespace Transaction

variable (t : Transaction K V)

/-- `Accumulator::eval`: the spine that is flushed. Batches without updates are not inserted. -/
def delta : List (Batch K V Unit ℤ) :=
  t.accumulated.merge (t.inputs.filter fun b => !b.layers.isEmpty)

variable (trace : List (Batch K V Unit ℤ))

def integral : List (Batch K V Unit ℤ) :=
  t.merging.merge trace

def fetched : List (Batch K V Unit ℤ) :=
  Snapshot.fetch t.fetches
    (fun k => decide (k ∈ (Snapshot.total t.delta).entries.map Prod.fst)) (t.integral trace)

/-- Everything that the operator yields: an empty batch in every step before the last one, which
flushes. -/
def outputs : List (Layers K V Unit ℤ) :=
  (t.inputs.dropLast.map fun _ => []) ++
    eval (Snapshot.cursor filter t.delta) (Snapshot.cursor filter (t.fetched trace)) t.chunkSize
      (volume (Snapshot.total t.delta).entries + 1) (Snapshot.start filter t.delta)
      (Snapshot.start filter (t.fetched trace))

/-- `AccumulateUntimedTraceAppend`: the integral after the transaction. -/
def append : List (Batch K V Unit ℤ) :=
  t.integral trace ++ t.delta

end Transaction

def traceAfter (history : List (Transaction K V)) : List (Batch K V Unit ℤ) :=
  history.foldl (fun trace t => t.append trace) []

def inputSum (history : List (Transaction K V)) (x : K × V × Unit) : ℤ :=
  (history.map fun t => Snapshot.weight t.inputs x).sum

variable (t : Transaction K V)

theorem Transaction.weight_delta (x : K × V × Unit) :
    Snapshot.weight t.delta x = Snapshot.weight t.inputs x :=
  (t.accumulated.weight_eq _ x).trans (Snapshot.weight_filter_nonempty t.inputs x)

variable (history : List (Transaction K V))

theorem weight_traceAfter (x : K × V × Unit) :
    Snapshot.weight (traceAfter history) x = inputSum history x := by
  induction history using List.reverseRecOn with
  | nil => rfl
  | append_singleton history t ih =>
    have happend : traceAfter (history ++ [t]) = t.append (traceAfter history) := by
      simp [traceAfter]
    have hsplit : Snapshot.weight (t.append (traceAfter history)) x =
        Snapshot.weight (t.integral (traceAfter history)) x + Snapshot.weight t.delta x := by
      unfold Transaction.append Snapshot.weight
      rw [map_append, sum_append]
    have hmerge : Snapshot.weight (t.integral (traceAfter history)) x =
        Snapshot.weight (traceAfter history) x := t.merging.weight_eq _ x
    rw [happend, hsplit, hmerge, ih, t.weight_delta]
    simp [inputSum]

/-- The chunks of a transaction add up to what the transaction changes in `distinct` of the sum of
all inputs. -/
theorem outputs_eq_distinct_change (history : List (Transaction K V)) (t : Transaction K V)
    (x : K × V × Unit) :
    ((t.outputs filter (traceAfter history)).map fun c => c.weight x).sum =
      distinct (inputSum (history ++ [t]) x) - distinct (inputSum history x) := by
  obtain ⟨k, v, u⟩ := x
  have heval := eval_weight (Snapshot.lawful filter t.delta)
    (Snapshot.lawful filter (t.fetched (traceAfter history)))
    (Snapshot.able filter (t.fetched (traceAfter history))) (Snapshot.firm_start filter t.delta)
    (Snapshot.firm_start filter (t.fetched (traceAfter history))) t.chunkSize
    (Nat.lt_succ_self _) k v
  have hempty : ((t.inputs.dropLast.map fun _ => ([] : Layers K V Unit ℤ)).map
      fun c => weight c (k, v, u)).sum = 0 := by
    rw [map_map]
    exact sum_eq_zero fun c hc => by
      obtain ⟨b, -, rfl⟩ := mem_map.mp hc
      rfl
  have hinput : inputSum (history ++ [t]) (k, v, u) =
      inputSum history (k, v, u) + (Snapshot.total t.delta).weight (k, v, u) := by
    rw [Snapshot.weight_total, t.weight_delta]
    simp [inputSum]
  rw [Transaction.outputs, map_append, sum_append, hempty, zero_add, heval, hinput]
  unfold change
  by_cases hk : k ∈ (Snapshot.total t.delta).entries.map Prod.fst
  · have hintegral : Snapshot.weight (t.integral (traceAfter history)) (k, v, ()) =
        inputSum history (k, v, ()) :=
      (t.merging.weight_eq _ _).trans (weight_traceAfter history _)
    have hfetched : Snapshot.weight (t.fetched (traceAfter history)) (k, v, ()) =
        Snapshot.weight (t.integral (traceAfter history)) (k, v, ()) :=
      Snapshot.weight_fetch t.fetches (t.integral (traceAfter history)) (by simpa using hk) (v, ())
    rw [Snapshot.weight_total (t.fetched (traceAfter history)), hfetched, hintegral]
  · have hzero := (Snapshot.total t.delta).weight_of_not_mem_keys hk v
    change (Snapshot.total t.delta).weight (k, v, u) = 0 at hzero
    rw [hzero]
    simp

end

end Feldera.Operator.DistinctTotal
