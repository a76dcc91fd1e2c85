import Feldera.Trace.JointPlace
import Feldera.Trace.LayerCursor
import Feldera.Trace.Lookup

/-!
`SaturatingCursor` adds a default value, the ghost, below every key that its cursor does not
hold. A key is sought with `seek_key_exact` only; where that misses the key, the cursor stands
on a ghost key, and the operations on values do not reach the cursor below.

The operations that are not implemented have no result.
-/

namespace Feldera.Trace

open OrderedSum List Place

variable {σ K V : Type*}

structure SaturatingCursor (σ K V : Type*) where
  cursor : σ
  onGhostKey : Bool
  ghostKey : K
  ghostVal : V
  ghostValValid : Bool

namespace SaturatingCursor

variable (C : Cursor σ K V ℤ) (saturate : Bool)

def new [Inhabited K] (ghostVal : V) (cursor : σ) : SaturatingCursor σ K V where
  cursor := cursor
  onGhostKey := if saturate then (C.getKey cursor).isNone else false
  ghostKey := default
  ghostVal := ghostVal
  ghostValValid := false

variable (c : SaturatingCursor σ K V)

def keyValid : Bool :=
  if saturate then true else (C.getKey c.cursor).isSome

def valValid : Bool :=
  if c.onGhostKey then c.ghostValValid else (C.getVal c.cursor).isSome

def key : Option K :=
  if c.onGhostKey then some c.ghostKey else C.getKey c.cursor

def val : Option V :=
  if c.onGhostKey then some c.ghostVal else C.getVal c.cursor

def weight (c : SaturatingCursor σ K V) : ℤ :=
  if c.onGhostKey then 1 else C.weight c.cursor

def mapTimes (c : SaturatingCursor σ K V) : List ℤ :=
  if c.onGhostKey then [1] else C.mapTimes c.cursor

def seen : Option (K × Option (V × ℤ)) :=
  if c.keyValid C saturate then
    (c.key C).map fun k =>
      (k, if c.valValid C then (c.val C).map fun v => (v, c.weight C) else none)
  else none

def seekKeyExact (key : K) (c : SaturatingCursor σ K V) : SaturatingCursor σ K V × Bool :=
  let result := C.seekKeyExact key c.cursor
  if result.2 then ({ c with cursor := result.1, onGhostKey := false }, true)
  else if saturate then
    ({ c with
        cursor := result.1
        ghostKey := key
        onGhostKey := true
        ghostValValid := true }, true)
  else ({ c with cursor := result.1 }, false)

/-- An operation on values: on a ghost key it sets `ghost_val_valid`, elsewhere it moves the
cursor. -/
def onVals (ghostValValid : Bool) (move : σ → σ) (c : SaturatingCursor σ K V) :
    SaturatingCursor σ K V :=
  if c.onGhostKey then { c with ghostValValid := ghostValValid }
  else { c with cursor := move c.cursor }

/-- The cursor after an operation and the answer of `seek_key_exact`; none for the operations that
are not implemented. -/
def apply [DecidableEq V] (c : SaturatingCursor σ K V) :
    Op K V → Option (SaturatingCursor σ K V × Bool)
  | .stepKey d => some ({ c with cursor := C.stepKey d c.cursor }, true)
  | .seekKey _ _ | .seekKeyWith _ _ => none
  | .seekKeyExact key => some (c.seekKeyExact C saturate key)
  | .resetKeys d =>
    let cursor := C.resetKeys d c.cursor
    some ({ c with
      cursor := cursor
      onGhostKey := if saturate then (C.getKey cursor).isNone else false }, true)
  | .stepVal d => some (c.onVals false (C.stepVal d), true)
  | .seekVal d val => some (c.onVals (decide (val = c.ghostVal)) (C.seekVal d val), true)
  | .seekValWith d predicate =>
    some (c.onVals (predicate c.ghostVal) (C.seekValWith d predicate), true)
  | .resetVals d => some (c.onVals true (C.resetVals d), true)

def run [DecidableEq V] (c : SaturatingCursor σ K V) (ops : List (Op K V)) :
    Option (SaturatingCursor σ K V × List Bool) :=
  ops.foldlM (fun x op => do
    let (c, answer) ← x.1.apply C saturate op
    pure (c, x.2 ++ [answer])) (c, [])

end SaturatingCursor

def soughtKeys (ops : List (Op K V)) : List K :=
  ops.filterMap fun
    | .seekKeyExact key => some key
    | _ => none

section

variable [LinearOrder K] [LinearOrder V]

/-- The batch with the ghost below each of the keys that it does not hold. -/
def Batch.extend (b : Batch K V Unit ℤ) (ghost : V) (keys : List K) : Batch K V Unit ℤ :=
  b.add (.ofTuples ((keys.dedup.filter fun k => decide (k ∉ b.entries.map Prod.fst)).map
    fun k => ((k, ghost, ()), 1)))

def Batch.valsOr (b : Batch K V Unit ℤ) (ghost : V) (k : K) : List (V × ℤ) :=
  match b.entries.find? fun q => decide (q.1 = k) with
  | some q => q.2
  | none => [(ghost, 1)]

theorem Batch.mem_entries (b : Batch K V Unit ℤ) {k : K} {vals : List (V × ℤ)}
    (hne : vals ≠ []) (hvals : Weighted.Consolidated vals)
    (hweight : ∀ v, Weighted.weight vals v = b.weight (k, v, ())) : (k, vals) ∈ b.entries := by
  obtain ⟨q, rest, rfl⟩ := exists_cons_of_ne_nil hne
  have hk : k ∈ b.entries.map Prod.fst := by
    by_contra hk
    have hzero := (hweight q.1).trans (b.weight_of_not_mem_keys hk q.1)
    rw [hvals.weight_head] at hzero
    exact hvals.nonzero q mem_cons_self hzero
  obtain ⟨p, hp, rfl⟩ := mem_map.mp hk
  have heq : p.2 = q :: rest := (b.vals_consolidated hp).2.ext hvals fun v =>
    (b.weight_of_mem_entries hp v).trans (hweight v).symm
  rw [← heq]
  exact hp

theorem weight_ghosts {T : Type*} [LinearOrder T] (t : T) (ghost : V) {keys : List K}
    (hkeys : keys.Nodup) (k : K) (v : V) :
    Weighted.weight (keys.map fun k => ((k, ghost, t), (1 : ℤ))) (k, v, t) =
      if k ∈ keys ∧ v = ghost then 1 else 0 := by
  induction keys with
  | nil => simp
  | cons k' keys ih =>
    obtain ⟨hnot, hnodup⟩ := nodup_cons.mp hkeys
    rw [map_cons, Weighted.weight_cons, ih hnodup]
    by_cases heq : k' = k
    · subst heq
      by_cases hv : v = ghost
      · simp [hv, hnot]
      · simp [hv, Ne.symm hv]
    · simp [heq, Ne.symm heq]

variable (b : Batch K V Unit ℤ)
include b

variable (ghost : V)

theorem Batch.valsOr_eq (k : K) :
    (∀ vals, (k, vals) ∈ b.entries → b.valsOr ghost k = vals) ∧
      (k ∉ b.entries.map Prod.fst → b.valsOr ghost k = [(ghost, 1)]) := by
  unfold valsOr
  cases hfind : b.entries.find? fun q => decide (q.1 = k) with
  | some q =>
    have hq := mem_of_find?_eq_some hfind
    obtain rfl : q.1 = k := by simpa using List.find?_some hfind
    refine ⟨fun vals hvals => ?_, fun hk => absurd (mem_map_of_mem hq) hk⟩
    have hhead := head_since_of_mem b.entries_ordered hvals
    rw [head_since_of_mem b.entries_ordered hq] at hhead
    rw [Option.some.inj hhead]
  | none =>
    refine ⟨fun vals hvals => ?_, fun _ => rfl⟩
    exact absurd (List.find?_eq_none.mp hfind _ hvals) (by simp)

/-- A sought key is an entry of the extended batch, with its values or the ghost. -/
theorem Batch.mem_entries_extend {keys : List K} {k : K} (hk : k ∈ keys) :
    (k, b.valsOr ghost k) ∈ (b.extend ghost keys).entries := by
  have hghosts : ∀ v, (b.extend ghost keys).weight (k, v, ()) = b.weight (k, v, ()) +
      if k ∉ b.entries.map Prod.fst ∧ v = ghost then 1 else 0 := by
    intro v
    have hmem : k ∈ keys.dedup.filter (fun k => decide (k ∉ b.entries.map Prod.fst)) ↔
        k ∉ b.entries.map Prod.fst := by
      rw [mem_filter, mem_dedup, decide_eq_true_eq]
      exact and_iff_right hk
    rw [extend, weight_add, weight_ofTuples, weight_ghosts () ghost (keys.nodup_dedup.filter _)]
    simp only [hmem]
  by_cases hmem : k ∈ b.entries.map Prod.fst
  · obtain ⟨q, hq, rfl⟩ := mem_map.mp hmem
    rw [(b.valsOr_eq ghost q.1).1 q.2 hq]
    refine mem_entries _ (b.vals_consolidated hq).1 (b.vals_consolidated hq).2 fun v => ?_
    rw [hghosts v, if_neg (fun h => h.1 hmem), add_zero]
    exact b.weight_of_mem_entries hq v
  · rw [(b.valsOr_eq ghost k).2 hmem]
    refine mem_entries _ (cons_ne_nil _ _) ⟨pairwise_singleton _ _, by simp⟩ fun v => ?_
    rw [hghosts v, b.weight_of_not_mem_keys hmem v]
    by_cases hv : v = ghost
    · simp [hv, hmem]
    · simp [hv, Ne.symm hv]

theorem Batch.extend_nil : b.extend ghost [] = b := by
  ext x
  simp [extend]

end

namespace SaturatingCursor

variable [LinearOrder K] [LinearOrder V] {C : Cursor σ K V ℤ} {S : Stance σ K V ℤ}
  {entries : Entries K V ℤ} {ghost : V} {last : Option K} {vals : List (V × ℤ)}
  {c : SaturatingCursor σ K V}

/-- An operation of a forward run: no key is sought before the last one. On a ghost key, no value
before a valid ghost is sought, and none that would find the ghost again once it was left. -/
def Permits (c : SaturatingCursor σ K V) (last : Option K) : Op K V → Prop
  | .seekKeyExact key => ∀ k ∈ last, k ≤ key
  | .stepVal d => d = .forward
  | .seekVal d val =>
    d = .forward ∧
      (c.onGhostKey = true → if c.ghostValValid then c.ghostVal ≤ val else val ≠ c.ghostVal)
  | .seekValWith d predicate =>
    d = .forward ∧ Upward (d.lt : V → V → Prop) predicate ∧
      (c.onGhostKey = true → c.ghostValValid = false → predicate c.ghostVal = false)
  | _ => False

variable (C c) in
/-- Every operation of a run is permitted where it is applied. -/
def Proper (ops : List (Op K V)) : Prop :=
  ∀ before op after, ops = before ++ op :: after →
    ∀ x ∈ c.run C true before, x.1.Permits (soughtKeys before).getLast? op

variable (C c) in
theorem proper_nil : c.Proper C [] :=
  fun _ _ _ hsplit => absurd hsplit (by simp)

theorem Proper.concat {ops : List (Op K V)} (h : c.Proper C ops) (op : Op K V)
    (hop : ∀ x ∈ c.run C true ops, x.1.Permits (soughtKeys ops).getLast? op) :
    c.Proper C (ops ++ [op]) := by
  intro before op' after hsplit
  rcases eq_nil_or_concat after with rfl | ⟨after, last, rfl⟩
  · obtain ⟨rfl, heq⟩ := append_inj' hsplit rfl
    obtain rfl : op = op' := by simpa using heq
    exact hop
  · rw [concat_eq_append, ← cons_append, ← append_assoc] at hsplit
    exact h before op' after (append_inj' hsplit rfl).1

def valsAfter (vals : List (V × ℤ)) : Op K V → List (V × ℤ)
  | .stepVal _ => vals.tail
  | .seekVal _ val => vals.dropWhile fun q => decide (q.1 < val)
  | .seekValWith _ predicate => vals.dropWhile fun q => !predicate q.1
  | _ => vals

/-- Places with forward values permit the operation, and it changes only their values. -/
def OnlyVals (op : Op K V) : Prop :=
  ∀ (l : Entries K V ℤ) (p : Place K V ℤ), p.valDir = .forward → p.Permits op ∧
    p.apply l op = { p with vals := valsAfter p.vals op }

variable (S entries ghost last vals c) in
/-- The cursor stands where the last key was sought, with the values `vals` left. -/
structure Stands : Prop where
  ghostVal : c.ghostVal = ghost
  onKey : c.onGhostKey = false → ∃ p : Place K V ℤ, p.keyDir = .forward ∧ p.valDir = .forward ∧
    p.rest = since last entries ∧ p.rest ≠ [] ∧ p.vals = vals ∧ S.loose p c.cursor ∧
      (last = none → S.firm p c.cursor) ∧ ∀ k ∈ last, p.key = some k
  onGhost : c.onGhostKey = true → vals = (if c.ghostValValid then [(ghost, 1)] else []) ∧
    (last = none → entries = []) ∧ (∀ k ∈ last, c.ghostKey = k) ∧ Ready S entries last c.cursor

theorem Stands.ready (hC : C.Lawful entries S) (h : Stands S entries ghost last vals c) :
    Ready S entries last c.cursor := by
  cases hghost : c.onGhostKey with
  | false =>
    obtain ⟨p, hdir, -, hrest, -, -, hloose, hfirm, hpk⟩ := h.onKey hghost
    cases last with
    | none => exact ready_of_firm hC hdir hrest (hfirm rfl)
    | some k => exact ready_of_loose hC hdir hrest (hpk k rfl) hloose
  | true => exact (h.onGhost hghost).2.2.2

variable {b : Batch K V Unit ℤ}

/-- `seek_key_exact` finds every key: with its values, or with the ghost. -/
theorem Stands.seek (hC : C.Lawful b.entries S) (hable : ∀ s k, S.able s k)
    (h : Stands S b.entries ghost last vals c) {key : K} (hkey : ∀ k ∈ last, k ≤ key) :
    (c.seekKeyExact C true key).2 = true ∧
      Stands S b.entries ghost (some key) (b.valsOr ghost key) (c.seekKeyExact C true key).1 := by
  obtain ⟨hready, hlookup⟩ := hC.lookup b.entries_ordered (h.ready hC) hkey (hable c.cursor key)
  unfold seekKeyExact
  generalize C.seekKeyExact key c.cursor = result at hready hlookup ⊢
  rcases hlookup with ⟨vals', hmem, hhead, htrue, hloose⟩ | ⟨hmem, hfalse⟩
  · rw [if_pos htrue]
    refine ⟨rfl, h.ghostVal, fun _ => ⟨_, rfl, rfl, rfl, ?_, ?_, hloose, by simp, ?_⟩, by simp⟩
    · intro hnil
      change since (some key) b.entries = [] at hnil
      rw [hnil] at hhead
      cases hhead
    · rw [enter, hhead, (b.valsOr_eq ghost key).1 vals' hmem]
      rfl
    · rintro k ⟨⟩
      rw [Place.key, enter, hhead]
      rfl
  · rw [if_neg (by simp [hfalse]), if_pos rfl]
    refine ⟨rfl, h.ghostVal, by simp,
      fun _ => ⟨(b.valsOr_eq ghost key).2 hmem, by simp, ?_, hready⟩⟩
    rintro k ⟨⟩
    rfl

section

variable (hC : C.Lawful entries S) (h : Stands S entries ghost last vals c)
include hC h

theorem Stands.onVals (op : Op K V) (hvalues : op.OnValues) (hpermits : OnlyVals op) {valid : Bool}
    (hvalid : c.onGhostKey = true → valsAfter (if c.ghostValValid then [(ghost, 1)] else []) op =
      if valid then [(ghost, 1)] else []) :
    Stands S entries ghost last (valsAfter vals op)
      (c.onVals valid fun s => (C.apply s op).1) := by
  have hexact : ∀ k, op ≠ .seekKeyExact k := by
    rintro k rfl
    exact hvalues
  unfold SaturatingCursor.onVals
  cases hghost : c.onGhostKey with
  | false =>
    rw [if_neg (by simp)]
    obtain ⟨p, hdir, hvdir, hrest, hne, hvals, hloose, hfirm, hpk⟩ := h.onKey hghost
    obtain ⟨hop, happly⟩ := hpermits entries p hvdir
    refine ⟨h.ghostVal, fun _ => ⟨p.apply entries op, ?_⟩, nofun⟩
    have hloose' := hC.apply_loose op hloose hop hvalues
    have hfirm' := fun hlast => hC.apply op (hfirm hlast) hop hexact
    rw [happly] at hloose' hfirm' ⊢
    exact ⟨hdir, hvdir, hrest, hne, by rw [hvals], hloose', hfirm', hpk⟩
  | true =>
    rw [if_pos rfl]
    obtain ⟨hvals, hrest⟩ := h.onGhost hghost
    refine ⟨h.ghostVal, nofun, fun _ => ⟨?_, hrest⟩⟩
    rw [hvals]
    exact hvalid hghost

theorem Stands.onValues {op : Op K V} (hop : c.Permits last op) (hvalues : op.OnValues) :
    (∃ c', c.apply C true op = some (c', true) ∧
        Stands S entries ghost last (valsAfter vals op) c') ∧ OnlyVals op := by
  have hghostVal := h.ghostVal
  cases op with
  | stepVal d =>
    obtain rfl : d = .forward := hop
    have hpermits : OnlyVals (.stepVal .forward : Op K V) := fun l p hp => ⟨hp.symm, rfl⟩
    refine ⟨⟨_, rfl, h.onVals hC (.stepVal .forward) trivial hpermits fun _ => ?_⟩, hpermits⟩
    cases c.ghostValValid with
    | false => rfl
    | true => rfl
  | seekVal d val =>
    obtain ⟨rfl, hcareful⟩ := hop
    have hpermits : OnlyVals (.seekVal .forward val : Op K V) := by
      intro l p hp
      refine ⟨hp.symm, ?_⟩
      simp only [Place.apply, hp]
      rfl
    refine ⟨⟨_, rfl, h.onVals hC (.seekVal .forward val) trivial hpermits
      fun hghost => ?_⟩, hpermits⟩
    have hcareful := hcareful hghost
    rw [hghostVal] at hcareful ⊢
    cases hvalid : c.ghostValValid with
    | false =>
      rw [hvalid] at hcareful
      have hne : val ≠ ghost := by simpa using hcareful
      simp [valsAfter, hne]
    | true =>
      rw [hvalid] at hcareful
      have hle : ghost ≤ val := by simpa using hcareful
      rcases hle.eq_or_lt with rfl | hlt
      · simp [valsAfter]
      · simp [valsAfter, hlt, hlt.ne']
  | seekValWith d predicate =>
    obtain ⟨rfl, hup, hcareful⟩ := hop
    have hpermits : OnlyVals (.seekValWith .forward predicate : Op K V) :=
      fun l p hp => ⟨⟨hp.symm, hup⟩, rfl⟩
    refine ⟨⟨_, rfl, h.onVals hC (.seekValWith .forward predicate) trivial hpermits
      fun hghost => ?_⟩, hpermits⟩
    have hcareful := hcareful hghost
    rw [hghostVal] at hcareful ⊢
    cases hvalid : c.ghostValValid with
    | false => simp [valsAfter, hcareful hvalid]
    | true =>
      cases hpred : predicate ghost with
      | false => simp [valsAfter, hpred]
      | true => simp [valsAfter, hpred]
  | resetVals d => exact absurd hop id
  | _ => exact hvalues.elim

end

/-- A new cursor stands on the first key of the batch, on a ghost key if there is none. -/
theorem stands_new [Inhabited K] (hC : C.Lawful entries S) {cursor : σ}
    (hfirm : S.firm (.enter .forward entries) cursor) (ghost : V) :
    Stands S entries ghost none (enter .forward entries).vals
      (new C true ghost cursor) := by
  have hkey := hC.getKey (hC.loose_of_firm hfirm)
  have honGhost : (new C true ghost cursor).onGhostKey = entries.isEmpty := by
    change (C.getKey cursor).isNone = _
    rw [hkey]
    cases entries with
    | nil => rfl
    | cons q entries => rfl
  refine ⟨rfl, fun hfalse => ?_, fun htrue => ?_⟩
  · rw [honGhost] at hfalse
    have hne : entries ≠ [] := by simpa using hfalse
    exact ⟨_, rfl, rfl, rfl, hne, rfl, hC.loose_of_firm hfirm, fun _ => hfirm, nofun⟩
  · rw [honGhost] at htrue
    obtain rfl : entries = [] := by simpa using htrue
    exact ⟨rfl, fun _ => rfl, nofun, ready_of_firm hC rfl rfl hfirm⟩

omit [LinearOrder K] in
theorem run_concat (c : SaturatingCursor σ K V) (ops : List (Op K V)) (op : Op K V) :
    c.run C true (ops ++ [op]) = (c.run C true ops).bind fun x =>
      (x.1.apply C true op).map fun r => (r.1, x.2 ++ [r.2]) := by
  unfold run
  rw [foldlM_append]
  refine congrArg (Option.bind _) (funext fun x => ?_)
  rw [foldlM_cons]
  cases x.1.apply C true op with
  | none => rfl
  | some r => rfl

omit [LinearOrder K] [LinearOrder V] in
theorem soughtKeys_concat (ops : List (Op K V)) (op : Op K V) :
    (op.OnValues → soughtKeys (ops ++ [op]) = soughtKeys ops) ∧
      ∀ key, op = .seekKeyExact key → soughtKeys (ops ++ [op]) = soughtKeys ops ++ [key] := by
  unfold soughtKeys
  rw [filterMap_append]
  refine ⟨fun hvalues => ?_, ?_⟩
  · cases op with
    | seekKeyExact key => exact hvalues.elim
    | _ => exact append_nil _
  · rintro key rfl
    rfl

/-- Along a forward run the cursor stands where a cursor over the extended batch is. -/
theorem run_stands {σ' : Type*} {keys : List K} {C' : Cursor σ' K V ℤ} {S' : Stance σ' K V ℤ}
    (hC : C.Lawful b.entries S) (hable : ∀ s k, S.able s k)
    (hC' : C'.Lawful (b.extend ghost keys).entries S') (htotal : S'.Total) {s' : σ'}
    (hstart : Stands S b.entries ghost none (enter .forward b.entries).vals c)
    (hs' : S'.firm (.enter .forward (b.extend ghost keys).entries) s') (ops : List (Op K V))
    (hproper : c.Proper C ops) (hkeys : soughtKeys ops ⊆ keys) :
    ∃ c', c.run C true ops = some (c', (C'.run S'.sure s' ops).2.2) ∧
      ∃ vals p, Stands S b.entries ghost (soughtKeys ops).getLast? vals c' ∧
        S'.firm p (C'.run S'.sure s' ops).1 ∧ p.keyDir = .forward ∧ p.valDir = .forward ∧
        p.rest = since (soughtKeys ops).getLast? (b.extend ghost keys).entries ∧
        (soughtKeys ops ≠ [] ∨ keys = [] → p.vals = vals) := by
  induction ops using List.reverseRecOn with
  | nil =>
    refine ⟨c, rfl, _, _, hstart, hs', rfl, rfl, rfl, ?_⟩
    rintro (hne | rfl)
    · exact absurd rfl hne
    · rw [b.extend_nil]
  | append_singleton ops op ih =>
    have hsub : soughtKeys ops ⊆ keys := by
      refine List.Subset.trans ?_ hkeys
      unfold soughtKeys
      rw [filterMap_append]
      exact subset_append_left _ _
    obtain ⟨c', hrun, vals, p, hstands, hfirm, hdir, hvdir, hrest, hvals⟩ :=
      ih (fun before op' after hsplit => hproper before op' (after ++ [op]) (by simp [hsplit])) hsub
    have hop := hproper ops op [] rfl _ hrun
    rw [run_concat, hrun, Cursor.run_concat]
    by_cases hvalues : op.OnValues
    · obtain ⟨⟨next, hnext, hstands'⟩, hpermits⟩ := hstands.onValues hC hop hvalues
      obtain ⟨hpop, happly⟩ := hpermits (b.extend ghost keys).entries p hvdir
      have hfirm' := hC'.apply op hfirm hpop fun k hk => by
        rw [hk] at hvalues
        exact hvalues
      have hanswer : (C'.apply (C'.run S'.sure s' ops).1 op).2 = true := by
        cases op with
        | seekKeyExact key => exact hvalues.elim
        | _ => rfl
      rw [happly] at hfirm'
      rw [(soughtKeys_concat ops op).1 hvalues, hanswer]
      refine ⟨next, by simp [hnext], _, _, hstands', hfirm', hdir, hvdir, hrest, fun h => ?_⟩
      rw [← hvals h]
    · cases op with
      | seekKeyExact key =>
        have hlast := (soughtKeys_concat ops (.seekKeyExact key)).2 key rfl
        have hmem : key ∈ keys := hkeys (by simp [hlast])
        obtain ⟨hanswer, hstands'⟩ := hstands.seek hC hable hop
        have hseek : p.seekKey key =
            .enter .forward (since (some key) (b.extend ghost keys).entries) := by
          rw [seekKey_of_forward hdir, hrest, since_dropWhile hop]
        have hhead := head_since_of_mem (b.extend ghost keys).entries_ordered
          (b.mem_entries_extend ghost hmem)
        obtain ⟨hanswer', hfound, -⟩ := hC'.near_exact (hC'.near_of_firm key hfirm hdir) le_rfl
          (htotal.able _ key)
        have htrue : (C'.seekKeyExact key (C'.run S'.sure s' ops).1).2 = true := by
          rw [hanswer', hseek, Place.key, enter, hhead]
          exact decide_eq_true rfl
        have hfirm' := (hfound htrue).2 (htotal.sure _ key)
        rw [hseek] at hfirm'
        rw [hlast, List.getLast?_concat]
        refine ⟨(c'.seekKeyExact C true key).1, ?_, _, _, hstands', hfirm', rfl, rfl, rfl,
          fun _ => ?_⟩
        · change some (_, _ ++ [(c'.seekKeyExact C true key).2]) =
            some (_, _ ++ [(C'.seekKeyExact key (C'.run S'.sure s' ops).1).2])
          rw [hanswer, htrue]
        · rw [enter, hhead]
          rfl
      | stepVal d => exact absurd trivial hvalues
      | seekVal d val => exact absurd trivial hvalues
      | seekValWith d predicate => exact absurd trivial hvalues
      | resetVals d => exact absurd trivial hvalues
      | _ => exact absurd hop id

/-- What is seen of the cursor once a key was sought, or if the batch has one. -/
theorem Stands.seen (hC : C.Lawful entries S) (h : Stands S entries ghost last vals c) {k : K}
    (hk : (since last entries).head?.map Prod.fst = some k ∧ last = none ∨ last = some k) :
    c.seen C true = some (k, vals.head?) := by
  unfold SaturatingCursor.seen keyValid key val valValid weight
  rw [if_pos rfl, if_pos rfl]
  cases hghost : c.onGhostKey with
  | false =>
    obtain ⟨p, -, -, hrest, hne, hvals, hloose, -, hpk⟩ := h.onKey hghost
    have hkey : p.key = some k := by
      rcases hk with ⟨hk, -⟩ | hk
      · rw [Place.key, hrest, hk]
      · exact hpk k hk
    have hgetVal := hC.getVal hloose hne
    rw [hvals] at hgetVal
    simp only [Bool.false_eq_true, if_false]
    rw [hC.getKey hloose, hkey, hgetVal]
    cases hhead : vals.head? with
    | none => rfl
    | some q =>
      have hweight := hC.weight hloose hne q (by rw [hvals, hhead]; rfl)
      simp [hweight]
  | true =>
    obtain ⟨hvals, hempty, hlast, -⟩ := h.onGhost hghost
    rcases hk with ⟨hk, hnone⟩ | hk
    · rw [hnone, hempty hnone] at hk
      cases hk
    simp only [if_true]
    rw [hlast k hk, hvals, h.ghostVal]
    cases c.ghostValValid with
    | false => rfl
    | true => rfl

end SaturatingCursor

section

variable [Inhabited K] [LinearOrder K] [LinearOrder V] {C : Cursor σ K V ℤ}
  {S : Stance σ K V ℤ}

/-- In every proper forward run, a saturating cursor gives the answers of a cursor over the batch
with the ghost below each of the sought keys that it does not hold, and shows the same. -/
theorem saturatingCursor_agrees_with_extended (b : Batch K V Unit ℤ)
    (hC : C.Lawful b.entries S) (hable : ∀ s k, S.able s k) {cursor : σ}
    (hfirm : S.firm (.enter .forward b.entries) cursor) (ghost : V) (ops : List (Op K V))
    (hproper : (SaturatingCursor.new C true ghost cursor).Proper C ops)
    (hkey : b.entries ≠ [] ∨ soughtKeys ops ≠ []) :
    let single := (layerCursor fun _ => true).run (fun _ _ => True)
      (LayerCursor.new (b.extend ghost (soughtKeys ops)).entries) ops
    ∃ c, (SaturatingCursor.new C true ghost cursor).run C true ops = some (c, single.2.2) ∧
      c.seen C true = (layerCursor fun _ => true).seen single.1 := by
  intro single
  have hextended : (layerCursor fun _ => true).Lawful (b.extend ghost (soughtKeys ops)).entries
      (LayerCursor.stance (b.extend ghost (soughtKeys ops)).entries) :=
    layerCursor_lawful fun _ _ => rfl
  obtain ⟨c, hrun, vals, p, hstands, hp, -, -, hrest, hvals⟩ := SaturatingCursor.run_stands hC hable
    hextended (LayerCursor.stance_total _) (SaturatingCursor.stands_new hC hfirm ghost)
    (LayerCursor.at_new _) ops hproper (List.Subset.refl _)
  refine ⟨c, hrun, Eq.trans ?_ (hextended.seen (hextended.loose_of_firm hp)).symm⟩
  rw [Place.seen, Place.key, hrest]
  cases hlast : (soughtKeys ops).getLast? with
  | none =>
    have hnil : soughtKeys ops = [] := List.getLast?_eq_none_iff.mp hlast
    obtain ⟨q, rest, hcons⟩ := exists_cons_of_ne_nil (hkey.resolve_right (not_not.mpr hnil))
    rw [hlast] at hstands
    rw [hstands.seen hC (.inl ⟨by rw [since, hcons]; rfl, rfl⟩), hvals (.inr hnil), hnil,
      b.extend_nil, since, hcons]
    rfl
  | some k =>
    have hmem : k ∈ soughtKeys ops := mem_of_getLast? hlast
    have hhead := head_since_of_mem (b.extend ghost (soughtKeys ops)).entries_ordered
      (b.mem_entries_extend ghost hmem)
    rw [hlast] at hstands
    rw [hstands.seen hC (.inr rfl), hvals (.inl (ne_nil_of_mem hmem)), hhead]
    rfl

def SaturatingCursor.oneKey : Batch ℕ ℕ Unit ℤ :=
  .ofTuples [((1, 5, ()), 2)]

def SaturatingCursor.saturated : SaturatingCursor (LayerCursor ℕ ℕ ℤ) ℕ ℕ :=
  .new (layerCursor fun _ => true) true 3 (.new oneKey.entries)

theorem saturatingCursor_agrees_with_extended_oneKey :
    let ops := [.seekKeyExact 0, .seekVal .forward 3, .stepVal .forward, .seekKeyExact 1]
    let single := (layerCursor fun _ => true).run (fun _ _ => True)
      (LayerCursor.new (SaturatingCursor.oneKey.extend 3 (soughtKeys ops)).entries) ops
    ∃ c, SaturatingCursor.saturated.run (layerCursor fun _ => true) true ops =
        some (c, single.2.2) ∧
      c.seen (layerCursor fun _ => true) true = (layerCursor fun _ => true).seen single.1 := by
  have hghost := (SaturatingCursor.proper_nil (layerCursor fun _ => true)
    SaturatingCursor.saturated).concat (.seekKeyExact 0) nofun
  have hvalid : ∀ x ∈ SaturatingCursor.saturated.run (layerCursor fun _ => true) true
      ([] ++ [.seekKeyExact 0]),
      if x.1.ghostValValid then x.1.ghostVal ≤ 3 else 3 ≠ x.1.ghostVal := by decide +kernel
  have hseek := hghost.concat (.seekVal .forward 3) fun x hx => ⟨rfl, fun _ => hvalid x hx⟩
  have hstep := hseek.concat (.stepVal .forward) fun _ _ => rfl
  have hproper := hstep.concat (.seekKeyExact 1) fun _ _ k hk => by
    obtain rfl : 0 = k := Option.some.inj hk
    exact Nat.zero_le 1
  exact saturatingCursor_agrees_with_extended SaturatingCursor.oneKey
    (layerCursor_lawful fun _ _ => rfl) (fun _ _ => trivial) (LayerCursor.at_new _) 3 _ hproper
    (.inr (cons_ne_nil _ _))

/-- On the missing key 0, `seek_val` of a value before the ghost loses the ghost, and `seek_val`
of the ghost finds it again after it was left; `seek_key` is not implemented. -/
theorem saturatingCursor_loses_ghost :
    let seen := fun ops => (SaturatingCursor.saturated.run (layerCursor fun _ => true) true
      ops).map fun x => x.1.seen (layerCursor fun _ => true) true
    let single := fun ops => (layerCursor fun _ => true).seen
      ((layerCursor fun _ => true).run (fun _ _ => True)
        (LayerCursor.new (SaturatingCursor.oneKey.extend 3 (soughtKeys ops)).entries) ops).1
    (seen [.seekKeyExact 0, .seekVal .forward 2] = some (some (0, none)) ∧
      single [.seekKeyExact 0, .seekVal .forward 2] = some (0, some (3, 1))) ∧
    (seen [.seekKeyExact 0, .stepVal .forward, .seekVal .forward 3] =
        some (some (0, some (3, 1))) ∧
      single [.seekKeyExact 0, .stepVal .forward, .seekVal .forward 3] = some (0, none)) ∧
    seen [.seekKey .forward 0] = none := by
  refine ⟨⟨?_, ?_⟩, ⟨?_, ?_⟩, rfl⟩
  · decide +kernel
  · decide +kernel
  · decide +kernel
  · decide +kernel

end

end Feldera.Trace
