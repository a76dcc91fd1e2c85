import Feldera.Operator.GroupTransformer
import Feldera.Trace.Snapshot

/-!
`GroupTransform`: at the end of a transaction the operator walks through the keys that changed,
looks each of them up in the trace of the input and in that of the output, and lets its
transformer compute what changes in the output group. The updates are put out in chunks.
-/

namespace Feldera.Operator.GroupTransform

open Trace OrderedSum Weighted List TupleBuilder Batch

variable {σ τ υ K V O : Type*}

structure State (σ τ υ K O : Type*) where
  delta : σ
  input : τ
  output : υ
  builder : TupleBuilder K O Unit ℤ
  out : List (Layers K O Unit ℤ)

def State.maybeYield (chunkSize : Nat) (s : State σ τ υ K O) : State σ τ υ K O :=
  if chunkSize ≤ s.builder.numTuples then
    { s with builder := .new, out := s.out ++ [s.builder.done] }
  else s

variable (chunkSize : Nat) (s : State σ τ υ K O)

@[simp] theorem State.maybeYield_delta : (s.maybeYield chunkSize).delta = s.delta := by
  unfold State.maybeYield
  split <;> rfl

@[simp] theorem State.maybeYield_input : (s.maybeYield chunkSize).input = s.input := by
  unfold State.maybeYield
  split <;> rfl

@[simp] theorem State.maybeYield_output : (s.maybeYield chunkSize).output = s.output := by
  unfold State.maybeYield
  split <;> rfl

def openGroup (found : σ × Bool) : CursorGroup σ :=
  if found.2 then some (found.1, true) else none

/-- The base cursor once its group has been read. -/
def closeGroup (base : σ) (group : CursorGroup σ) : σ :=
  (group.map Prod.fst).getD base

section

variable [LinearOrder K] [LinearOrder V] [LinearOrder O] (D : Cursor σ K V ℤ) (I : Cursor τ K V ℤ)
  (X : Cursor υ K O ℤ) (T : GroupTransformer (CursorGroup σ) (CursorGroup τ) (CursorGroup υ) O)
  (chunkSize : Nat)

def pushGroup (key : K) (l : List (O × ℤ)) (b : TupleBuilder K O Unit ℤ) :
    TupleBuilder K O Unit ℤ :=
  l.foldl (fun b p => b.pushRefs key p.1 () p.2) b

def evalKey (key : K) (s : State σ τ υ K O) : State σ τ υ K O :=
  let input := I.seekKeyExact key s.input
  let output := X.seekKeyExact key s.output
  let r := T.transform (some (s.delta, true)) (openGroup input) (openGroup output)
  let s : State σ τ υ K O :=
    { delta := closeGroup s.delta r.delta
      input := closeGroup input.1 r.input
      output := closeGroup output.1 r.output
      builder := pushGroup key (T.monotonicity.arrange r.out) s.builder
      out := s.out }
  let s := s.maybeYield chunkSize
  { s with delta := D.stepKey .forward s.delta }

def evalKeys : Nat → State σ τ υ K O → State σ τ υ K O
  | 0, s => s
  | rounds + 1, s =>
    match D.getKey s.delta with
    | none => s
    | some key => evalKeys rounds (evalKey D I X T chunkSize key s)

/-- The chunks that `eval` yields once the input is flushed. -/
def eval (rounds : Nat) (delta : σ) (input : τ) (output : υ) : List (Layers K O Unit ℤ) :=
  let s := evalKeys D I X T chunkSize rounds ⟨delta, input, output, .new, []⟩
  s.out ++ [s.builder.done]

end

section

variable [LinearOrder K] [LinearOrder O] {b : TupleBuilder K O Unit ℤ} {key : K}

theorem pushGroup_spec {l : List (O × ℤ)} (hl : Consolidated l) (hb : b.Sound)
    (hkey : ∀ kv ∈ b.kv, kv.1 < key ∨ kv.1 = key ∧ ∀ p ∈ l, kv.2 < p.1) :
    (pushGroup key l b).Sound ∧ (∀ kv ∈ (pushGroup key l b).kv, kv.1 ≤ key) ∧
      ∀ k o, (pushGroup key l b).done.weight (k, o, ()) =
        b.done.weight (k, o, ()) + if key = k then weight l o else 0 := by
  induction l generalizing b with
  | nil =>
    refine ⟨hb, fun kv hkv => ?_, fun k o => by simp [pushGroup]⟩
    rcases hkey kv hkv with hlt | ⟨heq, -⟩
    · exact hlt.le
    · exact heq.le
  | cons p l ih =>
    have hpush : (b.pushRefs key p.1 () p.2).Sound := hb.pushRefs
      (fun kv hkv => (hkey kv hkv).imp_right fun h => ⟨h.1, h.2 p mem_cons_self⟩)
      (hl.nonzero p mem_cons_self)
    obtain ⟨hsound, hlast, hweight⟩ := ih hl.tail hpush fun kv hkv => by
      obtain rfl : (key, p.1) = kv := Option.some.inj hkv
      exact .inr ⟨rfl, hl.head_lt⟩
    refine ⟨hsound, hlast, fun k o => (hweight k o).trans ?_⟩
    have htidy : b.Tidy := fun hnone => by
      rw [hb.first hnone]
      exact ⟨rfl, rfl⟩
    rw [weight_pushRefs htidy, add_assoc, weight_cons]
    congr 1
    by_cases hk : key = k
    · by_cases ho : p.1 = o
      · simp [hk, ho]
      · simp [hk, ho, Ne.symm ho]
    · simp [hk, Ne.symm hk]

end

section

variable [LinearOrder K] [LinearOrder V] {C : Cursor σ K V ℤ} {S : Stance σ K V ℤ}
  {b : Batch K V Unit ℤ} {last : Option K} {s : σ} {key : K}

/-- A key is looked up and its group is read: the group is that of the batch, and whatever is done
with it, later keys can be looked up. -/
theorem openGroup_spec (hC : C.Lawful b.entries S) (hs : Ready S b.entries last s)
    (hlast : ∀ k ∈ last, k ≤ key) (hable : S.able s key) :
    ∃ rel base, CursorPair.Keeps C b.entries S rel ∧ base.rest ≠ [] ∧
      CursorGroup.At rel base (valuesAt b.entries key)
        (.enter .forward (units (valuesAt b.entries key))) (openGroup (C.seekKeyExact key s)) ∧
      ∀ g p, CursorGroup.At rel base (valuesAt b.entries key) p g →
        Ready S b.entries (some key) (closeGroup (C.seekKeyExact key s).1 g) := by
  obtain ⟨hready, hlookup⟩ := hC.lookup b.entries_ordered hs hlast hable
  rcases hlookup with ⟨vals, hmem, hhead, htrue, hloose⟩ | ⟨hnot, hfalse⟩
  · have hvals : valuesAt b.entries key = vals := valuesAt_of_mem b.entries_ordered hmem
    have hgroup : (Place.enter .forward (since (some key) b.entries)).group = vals := by
      rw [Place.group, Place.enter, hhead]
      rfl
    have henter : (Place.enter Direction.forward (since (some key) b.entries)).vals = vals := hgroup
    refine ⟨S.loose, .enter .forward (since (some key) b.entries), CursorPair.keeps_loose hC, ?_, ?_,
      fun g p hg => ?_⟩
    · intro hnil
      rw [show since (some key) b.entries = [] from hnil] at hhead
      cases hhead
    · have hat := CursorGroup.at_enter hgroup.symm hloose rfl rfl
      rw [henter] at hat
      rw [hvals, openGroup, if_pos htrue]
      exact hat
    · cases g with
      | none => exact hready
      | some g =>
        obtain ⟨-, q, hq, hdir, hrest, -⟩ := hg
        refine ready_of_loose hC hdir hrest ?_ hq
        rw [Place.key, hrest, Place.enter, hhead]
        rfl
  · have hvals : valuesAt b.entries key = [] := valuesAt_of_not_mem hnot
    rw [hvals, openGroup, if_neg (by simp [hfalse])]
    -- no base cursor stands behind an empty group
    refine ⟨fun _ _ => False, ⟨.forward, [(key, [])], .forward, []⟩, ⟨False.elim, fun _ h => h.elim⟩,
      cons_ne_nil _ _, ⟨rfl, rfl⟩, fun g p hg => ?_⟩
    cases g with
    | none => exact hready
    | some g =>
      obtain ⟨-, q, hq, -⟩ := hg
      exact hq.elim

end

section

variable [LinearOrder K] [LinearOrder V] [LinearOrder O] {D : Cursor σ K V ℤ} {I : Cursor τ K V ℤ}
  {X : Cursor υ K O ℤ} {T : GroupTransformer (CursorGroup σ) (CursorGroup τ) (CursorGroup υ) O}
  {SD : Stance σ K V ℤ} {SI : Stance τ K V ℤ} {SX : Stance υ K O ℤ}
  {delta input : Batch K V Unit ℤ} {output : Batch K O Unit ℤ} {limit : Nat}
  {F : List (V × ℤ) → O → ℤ} {s : State σ τ υ K O}

def State.weight (s : State σ τ υ K O) (x : K × O × Unit) : ℤ :=
  (s.out.map fun c => c.weight x).sum + s.builder.done.weight x

/-- The chunks are sorted and consolidated, and the last one goes up to the key `last`. -/
structure State.Sound (last : Option K) (s : State σ τ υ K O) : Prop where
  out : ∀ c ∈ s.out, IsBatch c
  builder : s.builder.Sound
  upTo : ∀ kv ∈ s.builder.kv, ∃ k ∈ last, kv.1 ≤ k

variable {last : Option K}

theorem State.Sound.maybeYield (h : s.Sound last) (chunkSize : Nat) :
    (s.maybeYield chunkSize).Sound last ∧
      ∀ x, (s.maybeYield chunkSize).weight x = s.weight x := by
  unfold State.maybeYield
  split
  · refine ⟨⟨fun c hc => ?_, sound_new, nofun⟩, fun x => ?_⟩
    · rcases mem_append.mp hc with hc | hc
      · exact h.out c hc
      · obtain rfl := mem_singleton.mp hc
        exact h.builder.isBatch
    · obtain ⟨k, o, u⟩ := x
      simp [State.weight, new, TupleBuilder.done, Builder.new, Builder.done]
  · exact ⟨h, fun _ => rfl⟩

/-- What changes in the output group of a key. -/
def groupChange (F : List (V × ℤ) → O → ℤ) (delta input : Batch K V Unit ℤ) (k : K) (o : O) : ℤ :=
  F (valuesAt (delta.add input).entries k) o - F (valuesAt input.entries k) o

omit [LinearOrder O] in
/-- A key that does not change keeps its group. -/
theorem groupChange_of_not_mem {k : K} (hk : k ∉ delta.entries.map Prod.fst) (o : O) :
    groupChange F delta input k o = 0 := by
  have hsame : valuesAt (delta.add input).entries k = valuesAt input.entries k := by
    refine Consolidated.ext ((delta.add input).valuesAt_consolidated k)
      (input.valuesAt_consolidated k) fun v => ?_
    rw [weight_valuesAt, weight_valuesAt, weight_add, delta.weight_of_not_mem_keys hk, zero_add]
  rw [groupChange, hsame, sub_self]

variable {rest : Entries K V ℤ} (hD : D.Lawful delta.entries SD) (hI : I.Lawful input.entries SI)
  (hX : X.Lawful output.entries SX) (hableI : ∀ t k, SI.able t k) (hableX : ∀ t k, SX.able t k)
  (hT : T.Realizes (groupCursor D) (groupCursor I) (groupCursor X) limit F) (chunkSize : Nat)
include hD hI hX hableI hableX hT

theorem evalKey_spec {key : K} {vals : List (V × ℤ)} (hmem : (key, vals) ∈ delta.entries)
    (hdelta : SD.firm (.enter .forward ((key, vals) :: rest)) s.delta)
    (hinput : Ready SI input.entries last s.input)
    (houtput : Ready SX output.entries last s.output) (hlast : ∀ k ∈ last, k < key)
    (hsound : s.Sound last)
    (hold : ∀ o, output.weight (key, o, ()) = F (valuesAt input.entries key) o)
    (hlimit : 2 * (vals.length + (valuesAt input.entries key).length) +
      (valuesAt output.entries key).length < limit) :
    let s' := evalKey D I X T chunkSize key s
    SD.firm (.enter .forward rest) s'.delta ∧ Ready SI input.entries (some key) s'.input ∧
      Ready SX output.entries (some key) s'.output ∧ s'.Sound (some key) ∧
      ∀ k o, s'.weight (k, o, ()) =
        s.weight (k, o, ()) + if key = k then groupChange F delta input key o else 0 := by
  have hvals : valuesAt delta.entries key = vals := valuesAt_of_mem delta.entries_ordered hmem
  obtain ⟨hvalsNe, hvalsCons⟩ := delta.vals_consolidated hmem
  have hle : ∀ k ∈ last, k ≤ key := fun k hk => (hlast k hk).le
  obtain ⟨relI, baseI, hkeepsI, hneI, hatI, hendI⟩ :=
    openGroup_spec hI hinput hle (hableI s.input key)
  obtain ⟨relX, baseX, hkeepsX, hneX, hatX, hendX⟩ :=
    openGroup_spec hX houtput hle (hableX s.output key)
  have hatD : (CursorGroup.stance SD.firm (.enter .forward ((key, vals) :: rest)) vals).firm
      (.enter .forward (units vals)) (some (s.delta, true)) :=
    CursorGroup.at_enter rfl hdelta rfl rfl
  have hlawD : (groupCursor D).Lawful (units vals)
      (CursorGroup.stance SD.firm (.enter .forward ((key, vals) :: rest)) vals) :=
    groupCursor_lawful hD (CursorPair.keeps_firm hD) (cons_ne_nil _ _) vals
  obtain ⟨⟨pD, hpD⟩, ⟨pI, hpI⟩, ⟨pX, hpX⟩, hholds, hweight⟩ := hT hlawD
    (groupCursor_lawful hI hkeepsI hneI (valuesAt input.entries key))
    (groupCursor_lawful hX hkeepsX hneX (valuesAt output.entries key))
    (fun _ _ => trivial) (fun _ _ => trivial) hatD hatI hatX hvalsCons
    (input.valuesAt_consolidated key) ((delta.add input).valuesAt_consolidated key)
    (output.valuesAt_consolidated key)
    (fun v => by
      rw [weight_valuesAt, weight_add, ← hvals, weight_valuesAt, weight_valuesAt])
    (fun o => by rw [weight_valuesAt, hold o]) hlimit
  unfold evalKey
  dsimp only
  generalize T.transform (some (s.delta, true)) (openGroup (I.seekKeyExact key s.input))
    (openGroup (X.seekKeyExact key s.output)) = r at hpD hpI hpX hholds hweight ⊢
  have hafter : ∀ kv ∈ s.builder.kv,
      kv.1 < key ∨ kv.1 = key ∧ ∀ p ∈ T.monotonicity.arrange r.out, kv.2 < p.1 := by
    intro kv hkv
    obtain ⟨k, hk, hkle⟩ := hsound.upTo kv hkv
    exact .inl (lt_of_le_of_lt hkle (hlast k hk))
  obtain ⟨hbuilder, hkv, hpushed⟩ := pushGroup_spec hholds hsound.builder hafter
  -- the cursor of the changes has only moved among the values
  have hbase : ∃ q, SD.firm q (closeGroup s.delta r.delta) ∧ q.keyDir = .forward ∧
      q.rest = (key, vals) :: rest := by
    cases hgroup : r.delta with
    | none =>
      rw [hgroup] at hpD
      exact absurd hpD.1 hvalsNe
    | some g =>
      rw [hgroup] at hpD
      obtain ⟨-, q, hq, hdir, hrest, -⟩ := hpD
      exact ⟨q, hq, hdir, hrest⟩
  obtain ⟨q, hq, hdir, hrest⟩ := hbase
  have hstep : SD.firm (.enter .forward rest) (D.stepKey .forward (closeGroup s.delta r.delta)) := by
    have hnext := hD.apply (.stepKey .forward) hq hdir.symm nofun
    rw [Place.apply, hdir, hrest] at hnext
    exact hnext
  have hyield : (State.mk (closeGroup s.delta r.delta)
      (closeGroup (I.seekKeyExact key s.input).1 r.input)
      (closeGroup (X.seekKeyExact key s.output).1 r.output)
      (pushGroup key (T.monotonicity.arrange r.out) s.builder) s.out).Sound (some key) :=
    ⟨hsound.out, hbuilder, fun kv hmem => ⟨key, rfl, hkv kv hmem⟩⟩
  obtain ⟨hsound', hweight'⟩ := hyield.maybeYield chunkSize
  refine ⟨?_, ?_, ?_, ⟨hsound'.out, hsound'.builder, hsound'.upTo⟩, fun k o => ?_⟩
  · rw [State.maybeYield_delta]
    exact hstep
  · rw [State.maybeYield_input]
    exact hendI _ _ hpI
  · rw [State.maybeYield_output]
    exact hendX _ _ hpX
  · refine (hweight' (k, o, ())).trans ?_
    rw [State.weight, State.weight, hpushed, add_assoc, Monotonicity.weight_arrange, hweight o]
    rfl

variable (hold : ∀ k o, output.weight (k, o, ()) = F (valuesAt input.entries k) o)
  (hlimit : ∀ r ∈ delta.entries, 2 * (r.2.length + (valuesAt input.entries r.1).length) +
    (valuesAt output.entries r.1).length < limit)
include hold hlimit

theorem evalKeys_spec (hrest : rest.Sublist delta.entries)
    (hdelta : SD.firm (.enter .forward rest) s.delta)
    (hinput : Ready SI input.entries last s.input)
    (houtput : Ready SX output.entries last s.output) (hlast : ∀ k ∈ last, ∀ r ∈ rest, k < r.1)
    (hsound : s.Sound last) {rounds : Nat} (hrounds : rest.length < rounds) :
    let s' := evalKeys D I X T chunkSize rounds s
    (∃ last, s'.Sound last) ∧ ∀ k o, s'.weight (k, o, ()) = s.weight (k, o, ()) +
      (rest.map fun r => if r.1 = k then groupChange F delta input k o else 0).sum := by
  induction rounds generalizing rest s last with
  | zero => omega
  | succ rounds ih =>
    have hget := hD.getKey (hD.loose_of_firm hdelta)
    cases rest with
    | nil =>
      have hstop : evalKeys D I X T chunkSize (rounds + 1) s = s := by
        rw [evalKeys, hget]
        rfl
      intro s'
      rw [show s' = s from hstop]
      exact ⟨⟨last, hsound⟩, fun k o => (add_zero _).symm⟩
    | cons r rest =>
      obtain ⟨key, vals⟩ := r
      have hmem : (key, vals) ∈ delta.entries := hrest.subset mem_cons_self
      have hordered : Ordered Direction.forward.lt ((key, vals) :: rest) :=
        delta.entries_ordered.sublist hrest
      have hstep : evalKeys D I X T chunkSize (rounds + 1) s =
          evalKeys D I X T chunkSize rounds (evalKey D I X T chunkSize key s) := by
        rw [evalKeys, hget]
        rfl
      obtain ⟨hdelta', hinput', houtput', hsound', hweight⟩ := evalKey_spec hD hI hX hableI hableX
        hT chunkSize hmem hdelta hinput houtput
        (fun k hk => hlast k hk _ mem_cons_self) hsound (hold key) (hlimit _ hmem)
      obtain ⟨hend, htotal⟩ := ih ((sublist_cons_self _ _).trans hrest) hdelta' hinput'
        houtput' (fun k hk r hr => Option.some.inj hk ▸ (pairwise_cons.mp hordered).1 r hr)
        hsound' (Nat.lt_of_succ_lt_succ hrounds)
      rw [hstep]
      refine ⟨hend, fun k o => ?_⟩
      rw [htotal k o, hweight k o, map_cons, sum_cons, add_assoc]
      congr 2
      split
      · next hkey => rw [hkey]
      · rfl

/-- The chunks that `eval` yields are batches, and they add up to the changes of all groups. -/
theorem eval_spec {d : σ} {i : τ} {x : υ} (hd : SD.firm (.enter .forward delta.entries) d)
    (hi : SI.firm (.enter .forward input.entries) i)
    (hx : SX.firm (.enter .forward output.entries) x) {rounds : Nat}
    (hrounds : delta.entries.length < rounds) :
    (∀ c ∈ eval D I X T chunkSize rounds d i x, IsBatch c) ∧
      ∀ k o, ((eval D I X T chunkSize rounds d i x).map fun c => c.weight (k, o, ())).sum =
        groupChange F delta input k o := by
  have hstart : (State.mk d i x .new [] : State σ τ υ K O).Sound none :=
    ⟨nofun, sound_new, nofun⟩
  obtain ⟨⟨last, hsound⟩, hweight⟩ := evalKeys_spec hD hI hX hableI hableX hT chunkSize hold hlimit
    (List.Sublist.refl _) hd (ready_of_firm hI rfl rfl hi) (ready_of_firm hX rfl rfl hx) nofun
    hstart hrounds
  unfold eval
  generalize evalKeys D I X T chunkSize rounds ⟨d, i, x, .new, []⟩ = s at hsound hweight ⊢
  refine ⟨fun c hc => ?_, fun k o => ?_⟩
  · rcases mem_append.mp hc with hc | hc
    · exact hsound.out c hc
    · obtain rfl := mem_singleton.mp hc
      exact hsound.builder.isBatch
  · have htotal := hweight k o
    have hzero : (State.mk d i x .new [] : State σ τ υ K O).weight (k, o, ()) = 0 := by
      simp [State.weight, new, TupleBuilder.done, Builder.new, Builder.done]
    have hnodup : (delta.entries.map Prod.fst).Nodup :=
      pairwise_map.mpr (delta.entries_ordered.imp fun hlt => ne_of_lt hlt)
    have hsum := sum_ite_of_nodup hnodup k (groupChange F delta input k o)
    rw [map_map] at hsum
    rw [hzero, zero_add] at htotal
    simp only [map_append, sum_append, map_cons, map_nil, sum_cons,
      sum_nil, add_zero]
    refine htotal.trans ?_
    by_cases hk : k ∈ delta.entries.map Prod.fst
    · rw [if_pos hk] at hsum
      exact hsum
    · rw [if_neg hk] at hsum
      rw [groupChange_of_not_mem hk] at hsum ⊢
      exact hsum

end

end Feldera.Operator.GroupTransform
