import Feldera.Trace.Snapshot

/-!
`Window::eval`. The result of a window changes where the window moves and where its contents
change: one forward cursor of the trace walks through the keys that leave the window at its start
and at its end and through those that enter it, and a cursor of the changes through those inside
the new window. The updates are put out in chunks of bounded size.
-/

namespace Feldera.Operator.Window

open Trace OrderedSum List Weighted

variable {σ τ K V : Type*}

section

variable [LinearOrder K]

/-- `before_start`: the key is to the left of the interval. -/
def beforeStart (inclusive : Bool) (start key : K) : Bool :=
  if inclusive then decide (key < start) else decide (key ≤ start)

/-- `before_end`: the key is not to the right of the interval. -/
def beforeEnd (inclusive : Bool) (stop key : K) : Bool :=
  if inclusive then decide (key ≤ stop) else decide (key < stop)

def within (inclusive : Bool × Bool) (bounds : K × K) (key : K) : Bool :=
  !beforeStart inclusive.1 bounds.1 key && beforeEnd inclusive.2 bounds.2 key

def seekAfterEnd (C : Cursor σ K V ℤ) (inclusive : Bool) (stop : K) (s : σ) : σ :=
  if inclusive then C.seekKeyWith .forward (fun key => decide (stop < key)) s
  else C.seekKey .forward stop s

def seekStart (C : Cursor σ K V ℤ) (inclusive : Bool) (start : K) (s : σ) : σ :=
  if inclusive then C.seekKey .forward start s
  else C.seekKeyWith .forward (fun key => decide (start < key)) s

end

/-- The updates that wait for a chunk, and the chunks that were yielded. -/
structure Chunks (K V : Type*) where
  tuples : List ((K × V × Unit) × ℤ)
  out : List (Layers K V Unit ℤ)

variable [LinearOrder K] [LinearOrder V]

/-- An update is pushed; a full chunk is yielded. -/
def Chunks.push (chunkSize : Nat) (key : K) (v : V) (w : ℤ) (c : Chunks K V) : Chunks K V :=
  let tuples := c.tuples ++ [((key, v, ()), w)]
  if chunkSize ≤ tuples.length then ⟨[], c.out ++ [Layers.ofTuples tuples]⟩ else ⟨tuples, c.out⟩

section

variable (C : Cursor σ K V ℤ) (diff : ℤ → ℤ) (chunkSize : Nat)

def pushVals (key : K) : Nat → σ × Chunks K V → σ × Chunks K V
  | 0, s => s
  | rounds + 1, s =>
    match C.getVal s.1 with
    | none => s
    | some v =>
      pushVals key rounds
        (C.stepVal .forward s.1, s.2.push chunkSize key v (diff (C.weight s.1)))

/-- The loop over the keys as long as they are `inside`. -/
def pushKeys (inside : K → Bool) (limit : Nat) : Nat → σ × Chunks K V → σ × Chunks K V
  | 0, s => s
  | rounds + 1, s =>
    match C.getKey s.1 with
    | none => s
    | some key =>
      if inside key then
        let s := pushVals C diff chunkSize key limit s
        pushKeys inside limit rounds (C.stepKey .forward s.1, s.2)
      else s

/-- What the move of the window from `bounds0` to `bounds1` changes in the contents that the trace
has. -/
def slide (inclusive : Bool × Bool) (limit : Nat) (bounds0 bounds1 : K × K)
    (s : σ × Chunks K V) : σ × Chunks K V :=
  -- Region 1: what slid out of the window.
  let s := pushKeys C Neg.neg chunkSize
    (fun key => beforeStart inclusive.1 bounds1.1 key && beforeEnd inclusive.2 bounds0.2 key)
    limit limit (seekStart C inclusive.1 bounds0.1 s.1, s.2)
  -- What dropped off the right end of the window.
  let s :=
    if bounds1.2 < bounds0.2 then
      pushKeys C Neg.neg chunkSize (beforeEnd inclusive.2 bounds0.2) limit limit
        (seekAfterEnd C inclusive.2 bounds1.2 s.1, s.2)
    else s
  -- Region 3: what slid into the window.
  pushKeys C id chunkSize (beforeEnd inclusive.2 bounds1.2) limit limit
    (seekStart C inclusive.1 bounds1.1 (seekAfterEnd C inclusive.2 bounds0.2 s.1), s.2)

/-- The chunks that `eval` yields once it is flushed. `window` is empty before the first time. -/
def eval (D : Cursor τ K V ℤ) (inclusive : Bool × Bool) (limit : Nat) (window : Option (K × K))
    (bounds : K × K) (trace : σ) (delta : τ) : List (Layers K V Unit ℤ) :=
  let c :=
    match window with
    | none => ⟨[], []⟩
    | some bounds0 => (slide C chunkSize inclusive limit bounds0 bounds (trace, ⟨[], []⟩)).2
  let s := pushKeys D id chunkSize (beforeEnd inclusive.2 bounds.2) limit limit
    (seekStart D inclusive.1 bounds.1 delta, c)
  s.2.out ++ [Layers.ofTuples s.2.tuples]

end

def Chunks.weight (c : Chunks K V) (x : K × V × Unit) : ℤ :=
  (c.out.map fun b => b.weight x).sum + Weighted.weight c.tuples x

theorem Chunks.weight_push (chunkSize : Nat) (key : K) (v : V) (w : ℤ) (c : Chunks K V)
    (x : K × V × Unit) :
    (c.push chunkSize key v w).weight x =
      c.weight x + Weighted.weight [((key, v, ()), w)] x := by
  unfold Chunks.push Chunks.weight
  dsimp only
  split
  · rw [map_append, sum_append, map_singleton, sum_singleton,
      Layers.weight_ofTuples, weight_append, weight_nil, add_zero, add_assoc]
    rfl
  · rw [weight_append, add_assoc]

section

def tuples (rest : Entries K V ℤ) : List ((K × V × Unit) × ℤ) :=
  rest.flatMap fun q => q.2.map fun r => ((q.1, r.1, ()), r.2)

theorem weight_vals (key : K) (vals : List (V × ℤ)) (k : K) (v : V) :
    weight (vals.map fun r => ((key, r.1, ()), r.2)) (k, v, ()) =
      if key = k then weight vals v else 0 := by
  induction vals with
  | nil => simp
  | cons r vals ih =>
    rw [map_cons, weight_cons, ih, weight_cons]
    by_cases hk : key = k
    · simp [hk]
    · simp [hk]

theorem weight_tuples (rest : Entries K V ℤ) (k : K) (v : V) :
    weight (tuples rest) (k, v, ()) = mass valueMass rest k v := by
  induction rest with
  | nil => rfl
  | cons q rest ih =>
    have hsplit : tuples (q :: rest) =
        (q.2.map fun r => ((q.1, r.1, ()), r.2)) ++ tuples rest := rfl
    rw [hsplit, weight_append, weight_vals, ih, mass_cons, Pi.add_apply]
    congr 1
    split
    · rfl
    · rfl

theorem weight_tuples_filter (b : Batch K V Unit ℤ) (P : K → Bool) (k : K) (v : V) :
    weight (tuples (b.entries.filter fun q => P q.1)) (k, v, ()) =
      if P k then b.weight (k, v, ()) else 0 := by
  rw [weight_tuples, mass_filter]
  split
  · exact mass_entries b.layers k v
  · rfl

end

section

variable {C : Cursor σ K V ℤ} {S : Stance σ K V ℤ} {b : Batch K V Unit ℤ}
  (diff : ℤ → ℤ) {s : σ} {c : Chunks K V}

theorem pushVals_spec (hC : C.Lawful b.entries S) (chunkSize : Nat) (key : K) {p : Place K V ℤ}
    (hp : S.firm p s) (hdir : p.valDir = .forward) (hne : p.rest ≠ []) {rounds : Nat}
    (hrounds : p.vals.length < rounds) :
    let r := pushVals C diff chunkSize key rounds (s, c)
    S.firm { p with vals := [] } r.1 ∧ ∀ x, r.2.weight x = c.weight x +
      weight (p.vals.map fun r => ((key, r.1, ()), diff r.2)) x := by
  induction rounds generalizing p s c with
  | zero => omega
  | succ rounds ih =>
    have hget := hC.getVal (hC.loose_of_firm hp) hne
    obtain ⟨keyDir, rest, valDir, vals⟩ := p
    obtain rfl : valDir = .forward := hdir
    cases vals with
    | nil =>
      have hstop : pushVals C diff chunkSize key (rounds + 1) (s, c) = (s, c) := by
        rw [pushVals, hget]
        rfl
      rw [hstop]
      exact ⟨hp, fun x => (add_zero _).symm⟩
    | cons r vals =>
      have hweight : C.weight s = r.2 := hC.weight (hC.loose_of_firm hp) hne r rfl
      have hstep : pushVals C diff chunkSize key (rounds + 1) (s, c) =
          pushVals C diff chunkSize key rounds
            (C.stepVal .forward s, c.push chunkSize key r.1 (diff r.2)) := by
        rw [pushVals, hget, hweight]
        rfl
      have hnext : S.firm ⟨keyDir, rest, .forward, vals⟩ (C.stepVal .forward s) :=
        hC.apply (.stepVal .forward) hp rfl nofun
      obtain ⟨hfirm, hsum⟩ := ih (c := c.push chunkSize key r.1 (diff r.2)) hnext rfl hne
        (Nat.lt_of_succ_lt_succ hrounds)
      rw [hstep]
      refine ⟨hfirm, fun x => ?_⟩
      rw [hsum x, Chunks.weight_push, add_assoc, ← weight_append]
      rfl

/-- The loop over the keys pushes everything that is inside up to the first key that is not. -/
theorem pushKeys_spec (hC : C.Lawful b.entries S) (chunkSize : Nat) (inside : K → Bool)
    {rest : Entries K V ℤ} (hp : S.firm (.enter .forward rest) s) {limit rounds : Nat}
    (hlimit : ∀ q ∈ rest, q.2.length < limit) (hrounds : rest.length < rounds) :
    let r := pushKeys C diff chunkSize inside limit rounds (s, c)
    S.firm (.enter .forward (rest.dropWhile fun q => inside q.1)) r.1 ∧
      ∀ x, r.2.weight x = c.weight x + weight
        ((tuples (rest.takeWhile fun q => inside q.1)).map fun p => (p.1, diff p.2)) x := by
  induction rounds generalizing rest s c with
  | zero => omega
  | succ rounds ih =>
    have hget := hC.getKey (hC.loose_of_firm hp)
    cases rest with
    | nil =>
      have hstop : pushKeys C diff chunkSize inside limit (rounds + 1) (s, c) = (s, c) := by
        rw [pushKeys, hget]
        rfl
      rw [hstop]
      exact ⟨hp, fun x => (add_zero _).symm⟩
    | cons q rest =>
      have hstep : pushKeys C diff chunkSize inside limit (rounds + 1) (s, c) =
          if inside q.1 then
            let r := pushVals C diff chunkSize q.1 limit (s, c)
            pushKeys C diff chunkSize inside limit rounds (C.stepKey .forward r.1, r.2)
          else (s, c) := by
        rw [pushKeys, hget]
        rfl
      rw [hstep]
      cases hin : inside q.1 with
      | false =>
        rw [if_neg Bool.false_ne_true, dropWhile_cons_of_neg (by simp [hin]),
          takeWhile_cons_of_neg (by simp [hin])]
        exact ⟨hp, fun x => (add_zero _).symm⟩
      | true =>
        rw [if_pos rfl, dropWhile_cons_of_pos (by simpa using hin),
          takeWhile_cons_of_pos (by simpa using hin)]
        obtain ⟨hvals, hsum⟩ := pushVals_spec diff (c := c) hC chunkSize q.1 hp rfl
          (cons_ne_nil _ _) (hlimit q mem_cons_self)
        generalize pushVals C diff chunkSize q.1 limit (s, c) = r at hvals hsum ⊢
        have hnext : S.firm (.enter .forward rest) (C.stepKey .forward r.1) :=
          hC.apply (.stepKey .forward) hvals rfl nofun
        obtain ⟨hfirm, hrest⟩ := ih (c := r.2) hnext
          (fun q' hq' => hlimit q' (mem_cons_of_mem _ hq')) (Nat.lt_of_succ_lt_succ hrounds)
        refine ⟨hfirm, fun x => ?_⟩
        have hhead : tuples (q :: rest.takeWhile fun q => inside q.1) =
            (q.2.map fun r => ((q.1, r.1, ()), r.2)) ++
              tuples (rest.takeWhile fun q => inside q.1) := rfl
        rw [hrest x, hsum x, hhead, map_append, weight_append, map_map,
          add_assoc]
        rfl

end

section

variable (inclusive : Bool)

theorem upward_beforeStart (start : K) :
    Upward Direction.forward.lt fun key => !beforeStart inclusive start key := by
  cases inclusive with
  | true => exact upward_of_le start
  | false =>
    intro a b hab ha
    simp only [beforeStart, Bool.false_eq_true, if_false, Bool.not_eq_true',
      decide_eq_false_iff_not, not_le] at ha ⊢
    exact ha.trans hab

theorem upward_beforeEnd (stop : K) :
    Upward Direction.forward.lt fun key => !beforeEnd inclusive stop key := by
  cases inclusive with
  | true =>
    intro a b hab ha
    simp only [beforeEnd, if_true, Bool.not_eq_true', decide_eq_false_iff_not, not_le] at ha ⊢
    exact ha.trans hab
  | false => exact upward_of_le stop

omit [LinearOrder V] in
theorem dropWhile_not_lt (bound : K) (rest : Entries K V ℤ) :
    (rest.dropWhile fun q => !decide (bound < q.1)) =
      rest.dropWhile fun q => decide (q.1 ≤ bound) := by
  simp only [← not_lt, decide_not]

variable {C : Cursor σ K V ℤ} {S : Stance σ K V ℤ} {b : Batch K V Unit ℤ}
  {P : K → Bool} {s : σ}

/-- The keys that the cursor has before it are those of the batch that satisfy `P`. -/
def Before (S : Stance σ K V ℤ) (b : Batch K V Unit ℤ) (P : K → Bool) (s : σ) : Prop :=
  S.firm (.enter .forward (b.entries.filter fun q => P q.1)) s

theorem before_of_firm (h : S.firm (.enter .forward b.entries) s) :
    Before S b (fun _ => true) s := by
  unfold Before
  rwa [filter_true]

theorem dropWhile_filter (b : Batch K V Unit ℤ) (P : K → Bool) {skip : K → Bool}
    (hskip : Upward Direction.forward.lt fun key => !skip key) :
    ((b.entries.filter fun q => P q.1).dropWhile fun q => skip q.1) =
      b.entries.filter fun q => P q.1 && !skip q.1 := by
  have hdrop := (b.entries_ordered.filter P).dropWhile_eq_filter hskip
  simp only [Bool.not_not] at hdrop
  rw [hdrop, filter_filter]
  exact filter_congr fun q _ => Bool.and_comm _ _

variable {inside : K → Bool}

theorem takeWhile_filter (b : Batch K V Unit ℤ) (P : K → Bool)
    (hinside : Upward Direction.forward.lt fun key => !inside key) :
    ((b.entries.filter fun q => P q.1).takeWhile fun q => inside q.1) =
      b.entries.filter fun q => P q.1 && inside q.1 := by
  have hordered := b.entries_ordered.filter P
  rw [show (b.entries.filter fun q => P q.1 && inside q.1) =
    (b.entries.filter fun q => P q.1).filter fun q => inside q.1 by
      rw [filter_filter]
      exact filter_congr fun q _ => Bool.and_comm _ _]
  generalize (b.entries.filter fun q => P q.1) = rest at hordered
  induction rest with
  | nil => rfl
  | cons q rest ih =>
    obtain ⟨hq, hrest⟩ := pairwise_cons.mp hordered
    cases hin : inside q.1 with
    | true =>
      rw [takeWhile_cons_of_pos (by simpa using hin),
        filter_cons_of_pos (by simpa using hin), ih hrest]
    | false =>
      rw [takeWhile_cons_of_neg (by simp [hin]), filter_cons_of_neg (by simp [hin])]
      refine (filter_eq_nil_iff.mpr fun r hr => ?_).symm
      have hout := hinside q.1 r.1 (hq r hr) (by simp [hin])
      simpa using hout

section

variable (hC : C.Lawful b.entries S) (h : Before S b P s) (inclusive : Bool)
include hC h

theorem Before.seekStart (start : K) :
    Before S b (fun key => P key && !beforeStart inclusive start key)
      (seekStart C inclusive start s) := by
  have hdrop := dropWhile_filter b P (upward_beforeStart inclusive start)
  unfold Before
  rw [← hdrop]
  cases inclusive with
  | true => exact hC.apply (.seekKey .forward start) h rfl nofun
  | false =>
    have hfirm := hC.apply (.seekKeyWith .forward fun key => decide (start < key)) h
      ⟨rfl, upward_of_lt start⟩ nofun
    rw [Place.apply, Place.enter, dropWhile_not_lt] at hfirm
    exact hfirm

theorem Before.seekAfterEnd (stop : K) :
    Before S b (fun key => P key && !beforeEnd inclusive stop key)
      (seekAfterEnd C inclusive stop s) := by
  have hdrop := dropWhile_filter b P (upward_beforeEnd inclusive stop)
  unfold Before
  rw [← hdrop]
  cases inclusive with
  | true =>
    have hfirm := hC.apply (.seekKeyWith .forward fun key => decide (stop < key)) h
      ⟨rfl, upward_of_lt stop⟩ (by simp)
    rw [Place.apply, Place.enter, dropWhile_not_lt] at hfirm
    exact hfirm
  | false => exact hC.apply (.seekKey .forward stop) h rfl (by simp)

end

theorem weight_map_id (l : List ((K × V × Unit) × ℤ)) (x : K × V × Unit) :
    weight (l.map fun p => (p.1, id p.2)) x = id (weight l x) :=
  congrArg (fun l => weight l x) (map_id l)

theorem Before.pushKeys (hC : C.Lawful b.entries S) (h : Before S b P s) {diff : ℤ → ℤ}
    (hdiff : ∀ (l : List ((K × V × Unit) × ℤ)) x,
      weight (l.map fun p => (p.1, diff p.2)) x = diff (weight l x))
    (chunkSize : Nat) (hinside : Upward Direction.forward.lt fun key => !inside key)
    {limit : Nat} (hlimit : volume b.entries < limit) (c : Chunks K V) :
    let r := pushKeys C diff chunkSize inside limit limit (s, c)
    Before S b (fun key => P key && !inside key) r.1 ∧ ∀ k v, r.2.weight (k, v, ()) =
      c.weight (k, v, ()) + diff (if P k && inside k then b.weight (k, v, ()) else 0) := by
  have hsub : ∀ q ∈ b.entries.filter fun q => P q.1, q ∈ b.entries :=
    fun q hq => (mem_filter.mp hq).1
  have hlength : (b.entries.filter fun q => P q.1).length < limit :=
    lt_of_le_of_lt ((length_filter_le _ _).trans (length_le_volume _)) hlimit
  obtain ⟨hfirm, hsum⟩ := pushKeys_spec diff (c := c) hC chunkSize inside h
    (fun q hq => lt_of_le_of_lt (vals_length_le_volume (hsub q hq)) hlimit) hlength
  rw [dropWhile_filter b P hinside] at hfirm
  refine ⟨hfirm, fun k v => ?_⟩
  rw [hsum, hdiff, takeWhile_filter b P hinside,
    weight_tuples_filter b fun key => P key && inside key]

end

section

variable {C : Cursor σ K V ℤ} {S : Stance σ K V ℤ} {b : Batch K V Unit ℤ} {s : σ}
  (inclusive : Bool)

theorem beforeStart_mono {start start' : K} (h : start ≤ start') {key : K}
    (hkey : beforeStart inclusive start key = true) : beforeStart inclusive start' key = true := by
  cases inclusive with
  | true => exact decide_eq_true ((of_decide_eq_true hkey).trans_le h)
  | false => exact decide_eq_true ((of_decide_eq_true hkey).trans h)

theorem beforeEnd_mono {stop stop' : K} (h : stop ≤ stop') {key : K}
    (hkey : beforeEnd inclusive stop key = true) : beforeEnd inclusive stop' key = true := by
  cases inclusive with
  | true => exact decide_eq_true ((of_decide_eq_true hkey).trans h)
  | false => exact decide_eq_true ((of_decide_eq_true hkey).trans_le h)

/-- What `slide` pushes is the difference between the trace within the new bounds and the trace
within the old ones. -/
theorem slide_weight (hC : C.Lawful b.entries S) (hs : S.firm (.enter .forward b.entries) s)
    (chunkSize : Nat) (inclusive : Bool × Bool) {limit : Nat} (hlimit : volume b.entries < limit)
    {bounds0 bounds1 : K × K} (hstart : bounds0.1 ≤ bounds1.1) (c : Chunks K V) (k : K) (v : V) :
    (slide C chunkSize inclusive limit bounds0 bounds1 (s, c)).2.weight (k, v, ()) =
      c.weight (k, v, ()) + ((if within inclusive bounds1 k then b.weight (k, v, ()) else 0) -
        if within inclusive bounds0 k then b.weight (k, v, ()) else 0) := by
  have hbegin := before_of_firm hs
  -- Region 1.
  have hleave : Upward Direction.forward.lt fun key =>
      !(beforeStart inclusive.1 bounds1.1 key && beforeEnd inclusive.2 bounds0.2 key) := by
    intro a a' haa' ha
    simp only [Bool.not_and, Bool.or_eq_true] at ha ⊢
    exact ha.imp (upward_beforeStart _ _ a a' haa') (upward_beforeEnd _ _ a a' haa')
  obtain ⟨hat1, hsum1⟩ :=
    (hbegin.seekStart hC inclusive.1 bounds0.1).pushKeys hC weight_neg chunkSize hleave hlimit c
  unfold slide
  dsimp only
  generalize pushKeys C Neg.neg chunkSize _ limit limit (seekStart C inclusive.1 bounds0.1 s, c) =
    r1 at hat1 hsum1 ⊢
  have hend0 := upward_beforeEnd inclusive.2 bounds0.2
  have hend1 := upward_beforeEnd inclusive.2 bounds1.2
  have hb := @beforeStart_mono K _ inclusive.1 _ _ hstart k
  split
  · next hshrink =>
    obtain ⟨hat2, hsum2⟩ :=
      (hat1.seekAfterEnd hC inclusive.2 bounds1.2).pushKeys hC weight_neg chunkSize hend0 hlimit r1.2
    generalize pushKeys C Neg.neg chunkSize _ limit limit
      (seekAfterEnd C inclusive.2 bounds1.2 r1.1, r1.2) = r2 at hat2 hsum2 ⊢
    obtain ⟨-, hsum3⟩ := ((hat2.seekAfterEnd hC inclusive.2 bounds0.2).seekStart hC inclusive.1
      bounds1.1).pushKeys hC weight_map_id chunkSize hend1 hlimit r2.2
    have he := @beforeEnd_mono K _ inclusive.2 _ _ hshrink.le k
    rw [hsum3, hsum2, hsum1]
    unfold within
    revert hb he
    cases beforeStart inclusive.1 bounds0.1 k <;> cases beforeStart inclusive.1 bounds1.1 k <;>
      cases beforeEnd inclusive.2 bounds0.2 k <;> cases beforeEnd inclusive.2 bounds1.2 k <;> simp
  · next hgrow =>
    obtain ⟨-, hsum3⟩ := ((hat1.seekAfterEnd hC inclusive.2 bounds0.2).seekStart hC inclusive.1
      bounds1.1).pushKeys hC weight_map_id chunkSize hend1 hlimit r1.2
    have he := @beforeEnd_mono K _ inclusive.2 _ _ (not_lt.mp hgrow) k
    rw [hsum3, hsum1]
    unfold within
    revert hb he
    cases beforeStart inclusive.1 bounds0.1 k <;> cases beforeStart inclusive.1 bounds1.1 k <;>
      cases beforeEnd inclusive.2 bounds0.2 k <;> cases beforeEnd inclusive.2 bounds1.2 k <;> simp

/-- The part of the trace that the move of the window changes. -/
def moved (inclusive : Bool × Bool) (window : Option (K × K)) (bounds : K × K) (k : K) (w : ℤ) :
    ℤ :=
  match window with
  | none => 0
  | some bounds0 =>
    (if within inclusive bounds k then w else 0) - if within inclusive bounds0 k then w else 0

/-- What `eval` yields: what the move of the window changes, and the changes within the new
bounds. -/
theorem eval_weight {D : Cursor τ K V ℤ} {SD : Stance τ K V ℤ} {delta : Batch K V Unit ℤ} {t : τ}
    (hC : C.Lawful b.entries S) (hs : S.firm (.enter .forward b.entries) s)
    (hD : D.Lawful delta.entries SD) (ht : SD.firm (.enter .forward delta.entries) t)
    (chunkSize : Nat) (inclusive : Bool × Bool) {limit : Nat} (hlimit : volume b.entries < limit)
    (hlimitD : volume delta.entries < limit) {window : Option (K × K)} {bounds : K × K}
    (hstart : ∀ bounds0 ∈ window, bounds0.1 ≤ bounds.1) (k : K) (v : V) :
    ((eval C chunkSize D inclusive limit window bounds s t).map fun c => c.weight (k, v, ())).sum =
      moved inclusive window bounds k (b.weight (k, v, ())) +
        if within inclusive bounds k then delta.weight (k, v, ()) else 0 := by
  have hbegin := before_of_firm ht
  have hinsert := fun c : Chunks K V =>
    ((hbegin.seekStart hD inclusive.1 bounds.1).pushKeys hD weight_map_id chunkSize
      (upward_beforeEnd inclusive.2 bounds.2) hlimitD c).2 k v
  have htotal : ∀ c : Chunks K V, ((c.out ++ [Layers.ofTuples c.tuples]).map fun c =>
      Layers.weight c (k, v, ())).sum = c.weight (k, v, ()) := by
    intro c
    rw [map_append, sum_append, map_singleton, sum_singleton,
      Layers.weight_ofTuples]
    rfl
  unfold eval
  rw [htotal, hinsert]
  cases window with
  | none =>
    simp [Chunks.weight, moved, within]
  | some bounds0 =>
    have hmove := slide_weight hC hs chunkSize inclusive hlimit (hstart bounds0 rfl) ⟨[], []⟩ k v
    dsimp only
    rw [hmove]
    simp [Chunks.weight, moved, within]

end

end Feldera.Operator.Window
