import Feldera.Trace.SpineNonempty

/-!
Weights in an untimed spine: how moving batches between slots changes the total weight of
a key and value, and what a merge in progress will amount to (`Underway`). A merge by
`PushMerger` keeps that promise as long as it can be resumed.
-/

namespace Feldera.Trace.Spine

open Weighted Time LayerMerge ListMerger List

variable {K V R : Type*} [LinearOrder K] [LinearOrder V] [AddCommMonoid R]

section

def total (batches : List (Stored K V Unit R)) (k : K) (v : V) : R :=
  (batches.map fun b => b.layers.weight (k, v, ())).sum

@[simp] theorem total_nil (k : K) (v : V) : total ([] : List (Stored K V Unit R)) k v = 0 := rfl

variable (b : Stored K V Unit R)

@[simp] theorem total_cons (batches : List (Stored K V Unit R)) (k : K) (v : V) :
    total (b :: batches) k v = b.layers.weight (k, v, ()) + total batches k v := by
  simp [total]

@[simp] theorem total_append (batches batches' : List (Stored K V Unit R)) (k : K) (v : V) :
    total (batches ++ batches') k v = total batches k v + total batches' k v := by
  simp [total]

variable (batches : List (Stored K V Unit R))

@[simp] theorem total_persisted (k : K) (v : V) :
    total (batches.map Stored.persisted) k v = total batches k v := by
  simp [total, Stored.persisted, Function.comp_def]

theorem total_flatMap (f : Fin maxLevels → List (Stored K V Unit R)) (k : K) (v : V) :
    total ((finRange maxLevels).flatMap f) k v = ∑ level, total (f level) k v := by
  rw [Fin.sum_univ_def]
  induction finRange maxLevels with
  | nil => rfl
  | cons level levels ih => simp [ih]

def Shared.total (s : Shared K V Unit R) (k : K) (v : V) : R :=
  ∑ level, Spine.total (s.slots level).allBatches k v

variable (s : Shared K V Unit R)

theorem Shared.total_getBatches (k : K) (v : V) : Spine.total s.getBatches k v = s.total k v :=
  total_flatMap _ k v

/-- Weight of `(k, v)` in the slots other than `level`. -/
def Shared.elsewhere (s : Shared K V Unit R) (level : Fin maxLevels) (k : K) (v : V) : R :=
  ∑ l ∈ Finset.univ \ {level}, Spine.total (s.slots l).allBatches k v

variable (level : Fin maxLevels)

theorem Shared.total_eq (k : K) (v : V) :
    s.total k v = Spine.total (s.slots level).allBatches k v + s.elsewhere level k v :=
  Finset.sum_eq_add_sum_sdiff_singleton_of_mem (Finset.mem_univ level) _

variable (slot : Slot K V Unit R) (k : K) (v : V)

theorem Shared.total_setSlot :
    (s.setSlot level slot).total k v =
      Spine.total slot.allBatches k v + s.elsewhere level k v := by
  rw [total_eq _ level]
  unfold elsewhere setSlot
  congr 1
  · simp
  · refine Finset.sum_congr rfl fun l hl => ?_
    have hne : l ≠ level := by simpa using hl
    simp [hne]

theorem Shared.total_push :
    (s.push b).total k v = s.total k v + b.layers.weight (k, v, ()) := by
  unfold push
  rw [total_setSlot, total_eq s (sizeToLevel b.len)]
  simp only [Slot.allBatches, total_append, total_cons, total_nil]
  abel

theorem Stored.weight_of_isEmpty {b : Stored K V Unit R} (h : IsBatch b.layers)
    (hempty : b.isEmpty = true) (x : K × V × Unit) : b.layers.weight x = 0 := by
  rw [(isEmpty_iff h).mp hempty, Layers.weight_nil]

variable {batches : List (Stored K V Unit R)}

theorem total_filter_nonempty (hbatches : ∀ b ∈ batches, IsBatch b.layers) (k : K) (v : V) :
    total (batches.filter fun b => !b.isEmpty) k v = total batches k v := by
  induction batches with
  | nil => rfl
  | cons b batches ih =>
    have hih := ih fun x hx => hbatches x (by simp [hx])
    cases hb : b.isEmpty with
    | true =>
      rw [filter_cons_of_neg (by simp [hb]), hih, total_cons,
        Stored.weight_of_isEmpty (hbatches b (by simp)) hb, zero_add]
    | false => rw [filter_cons_of_pos (by simp [hb]), total_cons, hih, total_cons]

theorem Shared.total_foldl_push :
    (batches.foldl push s).total k v = s.total k v + Spine.total batches k v := by
  induction batches generalizing s with
  | nil => exact (add_zero _).symm
  | cons b batches ih => rw [foldl_cons, ih, total_push, total_cons, add_assoc]

theorem Shared.total_adding (hbatches : ∀ b ∈ batches, IsBatch b.layers) (k : K) (v : V) :
    (s.adding batches).total k v = s.total k v + Spine.total batches k v := by
  rw [adding, total_foldl_push, total_filter_nonempty hbatches]

theorem Shared.total_takeLooseBatches :
    s.takeLooseBatches.2.total k v + Spine.total s.takeLooseBatches.1 k v = s.total k v := by
  unfold takeLooseBatches Shared.total
  rw [total_flatMap, ← Finset.sum_add_distrib]
  refine Finset.sum_congr rfl fun level _ => ?_
  simp only [Slot.allBatches, total_append, total_nil, zero_add]
  exact add_comm _ _

theorem Slot.total_tryStartMerge :
    total (slot.tryStartMerge level).1.allBatches k v = total slot.allBatches k v := by
  rcases slot.tryStartMerge_cases level with h | ⟨batches, rest, hnone, hloose, h⟩
  · rw [h]
  · rw [h]
    simp only [allBatches, hnone, hloose, Option.getD_some, Option.getD_none, total_append,
      total_nil, add_zero]
    exact add_comm _ _

end

section

variable {cfg : Config K V Unit R}
  {keyFilter : Option (K → Bool)} {valueFilter : Option (V → Bool)}

def mergerConfig (cfg : Config K V Unit R) : ListMerger.Config Unit :=
  .ofFrontier cfg.timed () ()

inductive Underway (cfg : Config K V Unit R) (sum : K × V × Unit → R) (m : Merge K V Unit R) :
    Prop
  | list (type : m.mergerType = .listMerger) (ok : Layers K V Unit R → Prop)
      (view : Layers K V Unit R → Layers K V Unit R)
      (lawful : (mergeCursor m.keyFilter m.valueFilter).Lawful ok view)
      (size : ∀ l, size (view l) ≤ size l)
      (rests : ListMerger.Resting (mergerConfig cfg) ok view sum m.state)
      (finished : m.done = true → ∀ i, headKey (ListMerger.views view m.state i) = none)
  | push (type : m.mergerType = .pushMerger)
      (rests : PushMerger.Rest m.keyFilter m.valueFilter (mergerConfig cfg) sum m.state)
      (finished : m.done = true → ∀ i, m.state.cursors i = [])

omit [LinearOrder K] [LinearOrder V] [AddCommMonoid R] in
theorem move_unit (f : Unit → Unit) (l : Layers K V Unit R) : move f l = l := by
  simp [move, moveVals, moveTimes]

variable (keyFilter valueFilter) in
def passingSum (batches : List (Stored K V Unit R)) (x : K × V × Unit) : R :=
  (batches.map fun b => (passing keyFilter valueFilter b.layers).weight x).sum

theorem passingSum_eq (batches : List (Stored K V Unit R)) (f : Unit → Unit) :
    passingSum keyFilter valueFilter batches = fun x =>
      ∑ i : Fin batches.length,
        (move f (passing keyFilter valueFilter (batches.get i).layers)).weight x := by
  funext x
  rw [passingSum, ← Fin.sum_univ_fun_getElem]
  exact Finset.sum_congr rfl fun i _ => by rw [move_unit]; rfl

section

variable {k : K} {v : V} (hk : includes keyFilter k = true) (hv : includes valueFilter v = true)
include hk hv

theorem weight_passing_of_includes (l : Layers K V Unit R) :
    (passing keyFilter valueFilter l).weight (k, v, ()) = l.weight (k, v, ()) := by
  unfold Layers.weight
  rw [tuples_passing]
  have hfilter := weight_filter l.tuples
    (fun x : K × V × Unit => includes keyFilter x.1 && includes valueFilter x.2.1) (k, v, ())
  rw [if_pos (by simp [hk, hv])] at hfilter
  exact hfilter

theorem passingSum_of_includes (batches : List (Stored K V Unit R)) :
    passingSum keyFilter valueFilter batches (k, v, ()) = total batches k v := by
  simp only [passingSum, total, weight_passing_of_includes hk hv]

end

variable {batches : List (Stored K V Unit R)} {m : Merge K V Unit R}

theorem underway_new (hbatches : ∀ b ∈ batches, IsBatch b.layers)
    (hnew : Merge.new cfg batches keyFilter valueFilter = some m) :
    m.keyFilter = keyFilter ∧ m.valueFilter = valueFilter ∧
      Underway cfg (passingSum keyFilter valueFilter batches) m := by
  have hget : ∀ i : Fin batches.length, IsBatch (batches.get i).layers :=
    fun i => hbatches _ (get_mem batches i)
  obtain ⟨state, hstate, rfl⟩ := Option.map_eq_some_iff.mp hnew
  refine ⟨rfl, rfl, ?_⟩
  rw [passingSum_eq batches (mergerConfig cfg).move]
  unfold new at hstate
  split at hstate
  · cases hstate
    cases htype : cfg.mergerType with
    | listMerger =>
      obtain ⟨ok, view, hC, hsize, hview⟩ :=
        mergeCursor_lawful (T := Unit) (R := R) keyFilter valueFilter
      exact .list rfl ok view hC hsize
        (resting_new (mergerConfig cfg) hview hget 0) nofun
    | pushMerger =>
      exact .push rfl (PushMerger.rest_new keyFilter valueFilter (mergerConfig cfg) hget 0) nofun
  · cases hstate

variable {sum : K × V × Unit → R}

theorem Underway.finished (h : Underway cfg sum m) (hdone : m.done = true) :
    IsBatch m.state.builder.done ∧ ∀ x, m.state.builder.done.weight x = sum x := by
  cases h with
  | list _ ok view _ _ hrests hfinished => exact hrests.finished (hfinished hdone)
  | push _ hrests hfinished => exact hrests.finished (hfinished hdone)

variable [DecidableEq R]

theorem Underway.merge {m' : Merge K V Unit R} (h : Underway cfg sum m)
    (hres : m.mergerType = .pushMerger → PushMerger.Resumable m.keyFilter m.valueFilter m.state)
    {frontier : Unit} {fuel : ℤ} {ready : Readiness}
    (hmerge : m.merge cfg frontier fuel ready = .ok m') :
    m'.keyFilter = m.keyFilter ∧ m'.valueFilter = m.valueFilter ∧ Underway cfg sum m' := by
  have hunit : (mergerConfig cfg).timed = false → Subsingleton Unit := fun _ => inferInstance
  cases h with
  | list htype ok view hC hsize hrests _ =>
    unfold Merge.merge at hmerge
    rw [htype] at hmerge
    cases hmerge
    have hbound : workLeft view (m.state.refuel fuel) <
        sizeLeft m.state + 1 :=
      Nat.lt_succ_of_le (Finset.sum_le_sum fun i _ => hsize _)
    obtain ⟨hadvanced, hend⟩ :=
      work_advanced hC hunit hbound (hrests.refuel fuel)
    exact ⟨rfl, rfl, .list rfl ok view hC hsize hadvanced.resting fun hdone =>
      hend (of_decide_eq_true hdone)⟩
  | push htype hrests _ =>
    unfold Merge.merge at hmerge
    rw [htype] at hmerge
    have hbound : PushMerger.workLeft m.state < sizeLeft m.state + 1 :=
      Nat.lt_succ_of_le le_rfl
    obtain ⟨hrest, -, hflow, hend⟩ := PushMerger.merge_rest
      ⟨fuel, fun i => ready.keyReady i, fun i => ready.valReady i⟩ hunit hbound hrests
      (hres htype) rfl
    change m.afterPush
      (PushMerger.merge _ m.keyFilter m.valueFilter (mergerConfig cfg) _ m.state).1
      (PushMerger.merge _ m.keyFilter m.valueFilter (mergerConfig cfg) _ m.state).2 = _ at hmerge
    rcases hflow with hflow | hflow
    · rw [hflow] at hmerge
      cases hmerge
      exact ⟨rfl, rfl, .push htype hrest fun hdone => hend hflow (of_decide_eq_true hdone)⟩
    · rw [hflow] at hmerge
      cases hmerge
      exact ⟨rfl, rfl, .push htype hrest nofun⟩

variable (keyFilter valueFilter) in
/-- Batches that give what passes the filters the same weights. -/
def SameTotal (batches batches' : List (Stored K V Unit R)) : Prop :=
  ∀ k v, includes keyFilter k = true → includes valueFilter v = true →
    total batches k v = total batches' k v

variable (hbatches : ∀ b ∈ batches, IsBatch b.layers)
include hbatches

variable {result : Stored K V Unit R}

/-- Merging the last batches keeps the weights of what passes. -/
theorem mergeOnce_sameTotal {n : Nat}
    (hresult : mergeOnce cfg keyFilter valueFilter .memory (batches.drop n) = .ok result) :
    IsBatch result.layers ∧
      SameTotal keyFilter valueFilter (batches.take n ++ [result]) batches := by
  obtain ⟨hbatch, hweight⟩ := mergeOnce_spec (fun _ => inferInstance)
    (fun b hb => hbatches b (mem_of_mem_drop hb)) hresult
  refine ⟨hbatch, fun k v hk hv => ?_⟩
  have hdrop : result.layers.weight (k, v, ()) = total (batches.drop n) k v :=
    (hweight _).trans (passingSum_of_includes hk hv _)
  rw [total_append, total_cons, total_nil, add_zero, hdrop, ← total_append, take_append_drop]

theorem mergeLoop_spec {left : List (Stored K V Unit R)}
    (hloop : mergeLoop cfg keyFilter valueFilter batches = .ok left) :
    left.length ≤ 1 ∧ (∀ b ∈ left, IsBatch b.layers) ∧
      SameTotal keyFilter valueFilter left batches := by
  fun_induction mergeLoop cfg keyFilter valueFilter batches with
  | case1 batches hlen e he => cases hloop
  | case2 batches hlen result hresult hempty ih =>
    obtain ⟨hbatch, hsame⟩ := mergeOnce_sameTotal hbatches hresult
    obtain ⟨hleft, hall, hrest⟩ := ih (fun b hb => hbatches b (mem_of_mem_take hb)) hloop
    refine ⟨hleft, hall, fun k v hk hv => (hrest k v hk hv).trans ?_⟩
    rw [← hsame k v hk hv, total_append, total_cons,
      Stored.weight_of_isEmpty hbatch hempty, total_nil, add_zero, add_zero]
  | case3 batches hlen result hresult hempty ih =>
    obtain ⟨hbatch, hsame⟩ := mergeOnce_sameTotal hbatches hresult
    obtain ⟨hleft, hall, hrest⟩ := ih (fun b hb => by
      rcases mem_append.mp hb with hb | hb
      · exact hbatches b (mem_of_mem_take hb)
      · rwa [mem_singleton.mp hb]) hloop
    exact ⟨hleft, hall, fun k v hk hv => (hrest k v hk hv).trans (hsame k v hk hv)⟩
  | case4 batches hlen =>
    cases hloop
    exact ⟨by omega, hbatches, fun _ _ _ _ => rfl⟩

theorem mergeBatches_spec (hmerge : mergeBatches cfg keyFilter valueFilter batches = .ok result)
    : IsBatch result.layers ∧ SameTotal keyFilter valueFilter [result] batches := by
  unfold mergeBatches at hmerge
  obtain ⟨left, hloop, hmerge⟩ := Checked.bind_eq_ok.mp hmerge
  cases hmerge
  obtain ⟨hlen, hall, hsame⟩ := mergeLoop_spec
    (fun b hb => hbatches b (mem_filter.mp hb).1) hloop
  have hlast : SameTotal keyFilter valueFilter left batches := fun k v hk hv =>
    (hsame k v hk hv).trans (total_filter_nonempty hbatches k v)
  match left, hlen with
  | [], _ => exact ⟨IsLayer.nil _, fun k v hk hv => by simpa using hlast k v hk hv⟩
  | [b], _ => exact ⟨hall b (by simp), hlast⟩

end

end Feldera.Trace.Spine
