import Feldera.Trace.SpineWeights

/-!
An untimed spine keeps what was inserted into it. What a spine stands for is its ledger:
the batches that were inserted and the most recent filters. Whatever callers and the worker
do, and in whatever order, the batches in the slots and in the hands of paused callers
give everything that the most recent filters accept the weight that the inserted batches
give it. A checkpoint stands for the ledger at the time it was taken.
-/

namespace Feldera.Trace.Spine

open Weighted Time LayerMerge Shared List Function

variable {K V R : Type*} [LinearOrder K] [LinearOrder V] [AddCommMonoid R]

structure Ledger (K V R : Type*) [LinearOrder K] [LinearOrder V] [AddCommMonoid R] where
  inserted : List (Batch K V Unit R)
  keyFilter : Option (K → Bool)
  valueFilter : Option (V → Bool)

namespace Ledger

def new : Ledger K V R := ⟨[], none, none⟩

variable (l : Ledger K V R)

/-- The most recent filters accept `(k, v)`. -/
def accepts (k : K) (v : V) : Bool :=
  includes l.keyFilter k && includes l.valueFilter v

def weight (l : Ledger K V R) (k : K) (v : V) : R :=
  (l.inserted.map fun b => b.weight (k, v, ())).sum

def insert (b : Batch K V Unit R) : Ledger K V R :=
  { l with inserted := l.inserted ++ [b] }

theorem weight_insert (b : Batch K V Unit R) (k : K) (v : V) :
    (l.insert b).weight k v = l.weight k v + b.weight (k, v, ()) := by
  simp [insert, weight]

end Ledger

structure History (K V R : Type*) [LinearOrder K] [LinearOrder V] [AddCommMonoid R] where
  ledger : Ledger K V R
  saved : Option (Ledger K V R)

/-- What an action does to the ledger. -/
def History.after (h : History K V R) : Action K V Unit R → History K V R
  | .insert batch _ | .insertArc batch _ => { h with ledger := h.ledger.insert batch }
  | .retainKeys filter => { h with ledger := { h.ledger with keyFilter := some filter } }
  | .retainValues filter => { h with ledger := { h.ledger with valueFilter := some filter } }
  | .save => { h with saved := some h.ledger }
  | .restore => { h with ledger := h.saved.getD h.ledger }
  | _ => h

/-- A new filter accepts only what the previous one accepts. -/
def Narrows (l : Ledger K V R) : Action K V Unit R → Prop
  | .retainKeys filter => ∀ k, filter k = true → includes l.keyFilter k = true
  | .retainValues filter => ∀ v, filter v = true → includes l.valueFilter v = true
  | _ => True

/-- A merge by `PushMerger` can be resumed. -/
def Resumes (s : State K V Unit R) : Action K V Unit R → Prop
  | .merge level _ _ => ∀ m ∈ s.worker.mergers level, m.mergerType = .pushMerger →
      PushMerger.Resumable m.keyFilter m.valueFilter m.state
  | _ => True

section

/-- Filters that accept all that the ledger's filters accept. -/
structure Covers (keyFilter : Option (K → Bool)) (valueFilter : Option (V → Bool))
    (l : Ledger K V R) : Prop where
  keys : ∀ k, includes l.keyFilter k = true → includes keyFilter k = true
  vals : ∀ v, includes l.valueFilter v = true → includes valueFilter v = true

inductive MergeOf (cfg : Config K V Unit R) (l : Ledger K V R) :
    Option (Merge K V Unit R) → Option (List (Stored K V Unit R)) → Prop
  | idle : MergeOf cfg l none none
  | running {m : Merge K V Unit R} {inputs : List (Stored K V Unit R)}
      (covers : Covers m.keyFilter m.valueFilter l)
      (underway : Underway cfg (passingSum m.keyFilter m.valueFilter inputs) m) :
      MergeOf cfg l (some m) (some inputs)

structure Represents (cfg : Config K V Unit R) (s : State K V Unit R) (l : Ledger K V R) :
    Prop where
  slots : ∀ level, ∀ b ∈ (s.shared.slots level).allBatches, IsBatch b.layers
  held : ∀ b ∈ s.held, IsBatch b.layers
  merges : ∀ level, MergeOf cfg l (s.worker.mergers level)
    (s.shared.slots level).mergingBatches
  shared : Covers s.shared.keyFilter s.shared.valueFilter l
  worker : Covers s.worker.keyFilter s.worker.valueFilter l
  own : Covers s.keyFilter s.valueFilter l
  weight : ∀ k v, l.accepts k v = true →
    s.shared.total k v + total s.held k v = l.weight k v

structure Saved (batches : List (Stored K V Unit R)) (l : Ledger K V R) : Prop where
  storage : ∀ b ∈ batches, b.location = .storage
  isBatch : ∀ b ∈ batches, IsBatch b.layers
  weight : ∀ k v, l.accepts k v = true → total batches k v = l.weight k v

structure Conserved (cfg : Config K V Unit R) (x : State K V Unit R × History K V R) :
    Prop where
  represents : Represents cfg x.1 x.2.ledger
  saved : ∀ batches, x.1.checkpoint = some batches →
    ∃ l, x.2.saved = some l ∧ Saved batches l

theorem Covers.none (l : Ledger K V R) : Covers none none l :=
  ⟨fun _ _ => rfl, fun _ _ => rfl⟩

variable {valueFilter : Option (V → Bool)} {keyFilter : Option (K → Bool)}

theorem Covers.accepts {l : Ledger K V R} (h : Covers keyFilter valueFilter l) {k : K} {v : V}
    (hl : l.accepts k v = true) : includes keyFilter k = true ∧ includes valueFilter v = true := by
  obtain ⟨hk, hv⟩ := Bool.and_eq_true_iff.mp hl
  exact ⟨h.keys k hk, h.vals v hv⟩

variable {l l' : Ledger K V R}

theorem Covers.mono (h : Covers keyFilter valueFilter l)
    (hl : Covers l.keyFilter l.valueFilter l') : Covers keyFilter valueFilter l' :=
  ⟨fun k hk => h.keys k (hl.keys k hk), fun v hv => h.vals v (hl.vals v hv)⟩

theorem MergeOf.mono {cfg : Config K V Unit R} {m : Option (Merge K V Unit R)}
    {inputs : Option (List (Stored K V Unit R))} (h : MergeOf cfg l m inputs)
    (hl : Covers l.keyFilter l.valueFilter l') : MergeOf cfg l' m inputs := by
  cases h with
  | idle => exact .idle
  | running hcovers hunderway => exact .running (hcovers.mono hl) hunderway

theorem represents_new (cfg : Config K V Unit R) :
    Represents cfg (State.new : State K V Unit R) Ledger.new where
  slots level b hb := absurd hb (by simp [State.new, Shared.new, Slot.allBatches])
  held b hb := absurd hb not_mem_nil
  merges _ := .idle
  shared := .none _
  worker := .none _
  own := .none _
  weight k v _ := by
    simp [State.new, Shared.new, Shared.total, Slot.allBatches, Ledger.weight, Ledger.new]

end

section

omit [LinearOrder K] [LinearOrder V] [AddCommMonoid R]

variable (s : Shared K V Unit R)

theorem Shared.merging_push (b : Stored K V Unit R) (level : Fin maxLevels) :
    ((s.push b).slots level).mergingBatches = (s.slots level).mergingBatches := by
  unfold push setSlot
  by_cases hlevel : level = sizeToLevel b.len
  · subst hlevel
    simp
  · simp [hlevel]

variable (batches : List (Stored K V Unit R))

theorem Shared.merging_adding (level : Fin maxLevels) :
    ((s.adding batches).slots level).mergingBatches = (s.slots level).mergingBatches := by
  unfold adding
  induction batches.filter fun b => !b.isEmpty generalizing s with
  | nil => rfl
  | cons b batches ih => rw [foldl_cons, ih, merging_push]

theorem Shared.filters_adding :
    (s.adding batches).keyFilter = s.keyFilter ∧
      (s.adding batches).valueFilter = s.valueFilter := by
  unfold adding
  induction batches.filter fun b => !b.isEmpty generalizing s with
  | nil => exact ⟨rfl, rfl⟩
  | cons b batches ih =>
    rw [foldl_cons]
    exact ih (s.push b)

variable {s : Shared K V Unit R}

theorem Shared.mem_adding {batches : List (Stored K V Unit R)} {x : Stored K V Unit R}
    {level : Fin maxLevels} (hx : x ∈ ((s.adding batches).slots level).allBatches) :
    x ∈ (s.slots level).allBatches ∨ x ∈ batches :=
  (mem_foldl_push s hx).imp_right fun hmem => (mem_filter.mp hmem).1

theorem Shared.mem_takeLooseBatches_fst {b : Stored K V Unit R} (hb : b ∈ s.takeLooseBatches.1)
    : ∃ level, b ∈ (s.slots level).allBatches := by
  obtain ⟨level, -, hmem⟩ := mem_flatMap.mp hb
  exact ⟨level, mem_append_left _ hmem⟩

end

variable {cfg : Config K V Unit R} {s s' : State K V Unit R} {l : Ledger K V R}

/-- What `insert` adds has the weights of the batch where the filters accept. -/
theorem rewritten_spec [DecidableEq R] {b b' : Stored K V Unit R} (hb : IsBatch b.layers)
    (hcovers : Covers s.shared.keyFilter s.shared.valueFilter l)
    (hb' : rewritten cfg s.shared b = .ok b') :
    IsBatch b'.layers ∧ ∀ k v, l.accepts k v = true →
      b'.layers.weight (k, v, ()) = b.layers.weight (k, v, ()) := by
  unfold rewritten at hb'
  split at hb'
  · obtain ⟨hbatch, hweight⟩ := mergeOnce_spec (fun _ => inferInstance) (by simpa using hb) hb'
    refine ⟨hbatch, fun k v hl => ?_⟩
    obtain ⟨hk, hv⟩ := hcovers.accepts hl
    rw [hweight, map_singleton, sum_singleton, weight_passing_of_includes hk hv]
  · cases hb'
    exact ⟨hb, fun _ _ _ => rfl⟩

/-- A new spine that takes over a checkpoint stands for its ledger. -/
theorem Saved.restored {batches : List (Stored K V Unit R)} (h : Saved batches l)
    (checkpoint : Option (List (Stored K V Unit R))) :
    Represents cfg { State.new with
      shared := State.new.shared.adding batches
      checkpoint := checkpoint } l where
  slots level b hb := (mem_adding hb).elim
    (fun hold => absurd hold (by simp [State.new, Shared.new, Slot.allBatches])) (h.isBatch b)
  held b hb := absurd hb not_mem_nil
  merges level := by
    rw [merging_adding]
    exact .idle
  shared := by
    rw [(filters_adding _ batches).1, (filters_adding _ batches).2]
    exact .none l
  worker := .none l
  own := .none l
  weight k v hacc := by
    have hzero : (State.new : State K V Unit R).shared.total k v = 0 := by
      simp [State.new, Shared.new, Shared.total, Slot.allBatches]
    change (adding _ batches).total k v + total [] k v = _
    rw [total_adding _ h.isBatch, hzero, zero_add, total_nil, add_zero]
    exact h.weight k v hacc

section

variable (h : Represents cfg s l)
include h

theorem Represents.relabel {l' : Ledger K V R} (hl : Covers l.keyFilter l.valueFilter l')
    (hweight : ∀ k v, l'.accepts k v = true → l'.weight k v = l.weight k v) :
    Represents cfg s l' where
  slots := h.slots
  held := h.held
  merges level := (h.merges level).mono hl
  shared := h.shared.mono hl
  worker := h.worker.mono hl
  own := h.own.mono hl
  weight k v hacc := by
    obtain ⟨hk, hv⟩ := hl.accepts hacc
    rw [hweight k v hacc]
    exact h.weight k v (Bool.and_eq_true_iff.mpr ⟨hk, hv⟩)

theorem Represents.holdLoose : Represents cfg s.holdLoose l where
  slots level b hb := h.slots level b (mem_takeLooseBatches hb)
  held b hb := by
    rcases mem_append.mp hb with hb | hb
    · exact h.held b hb
    · obtain ⟨level, hlevel⟩ := mem_takeLooseBatches_fst hb
      exact h.slots level b hlevel
  merges := h.merges
  shared := h.shared
  worker := h.worker
  own := h.own
  weight k v hacc := by
    have hloose := s.shared.total_takeLooseBatches k v
    change s.shared.takeLooseBatches.2.total k v +
      total (s.held ++ s.shared.takeLooseBatches.1) k v = _
    rw [total_append, ← h.weight k v hacc, ← hloose]
    exact add_left_comm _ _ _ |>.trans (add_comm _ _)

theorem Represents.resume :
    Represents cfg { s with shared := s.shared.adding s.held, held := [] } l where
  slots level b hb := (mem_adding hb).elim (h.slots level b) (h.held b)
  held b hb := absurd hb not_mem_nil
  merges level := by
    rw [merging_adding]
    exact h.merges level
  shared := by
    rw [(s.shared.filters_adding s.held).1, (s.shared.filters_adding s.held).2]
    exact h.shared
  worker := h.worker
  own := h.own
  weight k v hacc := by
    rw [s.shared.total_adding h.held, total_nil, add_zero]
    exact h.weight k v hacc

/-- A checkpoint stands for the ledger, and so does the spine while `save` holds its batches. -/
theorem Represents.save (hheld : s.held = []) (checkpoint : Option (List (Stored K V Unit R))) :
    Represents cfg { s with
      shared := s.shared.takeLooseBatches.2
      held := s.shared.takeLooseBatches.1.map Stored.persisted
      checkpoint := checkpoint } l ∧
    Saved (s.shared.takeLooseBatches.1.map Stored.persisted ++
      s.shared.takeLooseBatches.2.getBatches.map Stored.persisted) l := by
  have hloose := h.holdLoose
  have hpersisted : ∀ {batches : List (Stored K V Unit R)},
      (∀ b ∈ batches, IsBatch b.layers) →
      ∀ b ∈ batches.map Stored.persisted, IsBatch b.layers := by
    intro batches hall b hb
    obtain ⟨b', hb', rfl⟩ := mem_map.mp hb
    exact hall b' hb'
  have hweight : ∀ k v, l.accepts k v = true →
      s.shared.takeLooseBatches.2.total k v + total s.shared.takeLooseBatches.1 k v =
        l.weight k v := by
    intro k v hacc
    have htotal := hloose.weight k v hacc
    change _ + total (s.held ++ s.shared.takeLooseBatches.1) k v = _ at htotal
    rwa [hheld, nil_append] at htotal
  have hfirst : ∀ b ∈ s.shared.takeLooseBatches.1, IsBatch b.layers :=
    fun b hb => hloose.held b (mem_append_right _ hb)
  have hsecond : ∀ b ∈ s.shared.takeLooseBatches.2.getBatches, IsBatch b.layers := by
    intro b hb
    obtain ⟨level, -, hmem⟩ := mem_flatMap.mp hb
    exact hloose.slots level b hmem
  refine ⟨⟨hloose.slots, hpersisted hfirst, h.merges, h.shared, h.worker, h.own,
    fun k v hacc => ?_⟩, ⟨fun b hb => ?_, fun b hb => ?_, fun k v hacc => ?_⟩⟩
  · rw [total_persisted]
    exact hweight k v hacc
  · rcases mem_append.mp hb with hb | hb <;>
      · obtain ⟨b', -, rfl⟩ := mem_map.mp hb
        rfl
  · exact (mem_append.mp hb).elim (hpersisted hfirst b) (hpersisted hsecond b)
  · rw [total_append, total_persisted, total_persisted, total_getBatches, add_comm]
    exact hweight k v hacc

variable {level : Fin maxLevels}

/-- A finished merge takes the place of its inputs. -/
theorem Represents.mergeComplete {m : Merge K V Unit R} {merging : List (Stored K V Unit R)}
    (hm : s.worker.mergers level = some m) (hdone : m.done = true)
    (hmerging : (s.shared.slots level).mergingBatches = some merging) :
    Represents cfg { s with
      shared := (s.shared.setSlot level
        { s.shared.slots level with mergingBatches := none }).adding
          [⟨m.state.builder.done, m.location⟩]
      worker := { s.worker with
        mergers := update s.worker.mergers level none } } l := by
  have hof := h.merges level
  rw [hm, hmerging] at hof
  cases hof with
  | running hcovers hunderway =>
    obtain ⟨hbatch, hweight⟩ := hunderway.finished hdone
    have hnew : ∀ b ∈ [(⟨m.state.builder.done, m.location⟩ : Stored K V Unit R)],
        IsBatch b.layers := by simpa using hbatch
    refine ⟨fun l' b hb => ?_, h.held, fun l' => ?_, ?_, h.worker, h.own, fun k v hacc => ?_⟩
    · exact (mem_adding hb).elim
        (fun hold => h.slots l' b (mem_setSlot_loose hold)) (hnew b)
    · rw [merging_adding]
      change MergeOf cfg l (update s.worker.mergers level none l')
        (update s.shared.slots level _ l').mergingBatches
      by_cases hlevel : l' = level
      · subst hlevel
        rw [update_self, update_self]
        exact .idle
      · rw [update_of_ne hlevel, update_of_ne hlevel]
        exact h.merges l'
    · rw [(filters_adding _ _).1, (filters_adding _ _).2]
      exact h.shared
    · obtain ⟨hk, hv⟩ := hcovers.accepts hacc
      have hbefore := s.shared.total_eq level k v
      have hsum : m.state.builder.done.weight (k, v, ()) = total merging k v :=
        (hweight _).trans (passingSum_of_includes hk hv merging)
      rw [← h.weight k v hacc, total_adding _ hnew, total_setSlot, hbefore]
      simp only [Slot.allBatches, hmerging, Option.getD_some, Option.getD_none, total_append,
        total_cons, total_nil, hsum]
      abel

theorem Represents.startMerges {mergers : Fin maxLevels → Option (Merge K V Unit R)}
    (hmergers : Started cfg s mergers) :
    Represents cfg { s with
      shared := { s.shared with
        slots := fun level => ((s.shared.slots level).tryStartMerge level).1 }
      worker := { s.worker with mergers := mergers } } l := by
  refine ⟨fun level b hb => h.slots level b ((Slot.mem_tryStartMerge _ level b).mp hb), h.held,
    fun level => ?_, h.shared, h.worker, h.own, fun k v hacc => ?_⟩
  · have hlevel := hmergers level
    change MergeOf cfg l (mergers level)
      ((s.shared.slots level).tryStartMerge level).1.mergingBatches
    rcases (s.shared.slots level).tryStartMerge_cases level with hsame |
      ⟨batches, rest, hnone, hloose, hstart⟩
    · rw [hsame] at hlevel ⊢
      rw [show mergers level = s.worker.mergers level from hlevel]
      exact h.merges level
    rw [hstart] at hlevel ⊢
    obtain ⟨m, hm, hnew⟩ := hlevel
    have hbatches : ∀ b ∈ batches, IsBatch b.layers := fun b hb =>
      h.slots level b (mem_append_left _ (by simp [hloose, hb]))
    obtain ⟨hkey, hval, hunderway⟩ := underway_new hbatches hnew
    rw [hm]
    refine .running ?_ ?_
    · rw [hkey, hval]
      exact h.worker
    · rw [hkey, hval]
      exact hunderway
  · have hshared : Shared.total { s.shared with
        slots := fun level => ((s.shared.slots level).tryStartMerge level).1 } k v =
        s.shared.total k v :=
      Finset.sum_congr rfl fun level _ => Slot.total_tryStartMerge level _ k v
    rw [hshared]
    exact h.weight k v hacc

variable [DecidableEq R]

theorem Represents.insert (batch : Batch K V Unit R) {location : BatchLocation}
    (hinsert : insert cfg s ⟨batch.layers, location⟩ = .ok s') :
    Represents cfg s' (l.insert batch) := by
  have hl : Covers l.keyFilter l.valueFilter (l.insert batch) := ⟨fun _ => id, fun _ => id⟩
  rcases insert_eq_ok hinsert with ⟨hempty, rfl⟩ | ⟨-, b', hb', rfl⟩
  · refine h.relabel hl fun k v _ => ?_
    rw [Ledger.weight_insert, Batch.weight,
      Stored.weight_of_isEmpty (b := ⟨batch.layers, location⟩) batch.isBatch hempty, add_zero]
  obtain ⟨hbatch, hweight⟩ := rewritten_spec batch.isBatch h.shared hb'
  refine ⟨fun level x hx => ?_, h.held, fun level => ?_, h.shared.mono hl, h.worker.mono hl,
    h.own.mono hl, fun k v hacc => ?_⟩
  · rcases (s.shared.mem_push b' x level).mp hx with hold | ⟨-, rfl⟩
    · exact h.slots level x hold
    · exact hbatch
  · rw [merging_push]
    exact (h.merges level).mono hl
  · have htotal := h.weight k v hacc
    rw [total_push, hweight k v hacc, Ledger.weight_insert, ← htotal, Batch.weight]
    exact add_right_comm _ _ _

theorem Represents.mergePaused {batch : Stored K V Unit R}
    (hmerge : mergeBatches cfg s.keyFilter s.valueFilter s.held = .ok batch) :
    Represents cfg { s with held := [batch] } l := by
  obtain ⟨hbatch, hsame⟩ := mergeBatches_spec h.held hmerge
  refine { h with held := by simpa using hbatch, weight := fun k v hacc => ?_ }
  obtain ⟨hk, hv⟩ := h.own.accepts hacc
  rw [hsame k v hk hv]
  exact h.weight k v hacc

theorem Represents.merge {m m' : Merge K V Unit R} (hm : s.worker.mergers level = some m)
    (hres : m.mergerType = .pushMerger → PushMerger.Resumable m.keyFilter m.valueFilter m.state)
    {fuel : ℤ} {ready : Readiness} (hmerge : m.merge cfg s.worker.frontier fuel ready = .ok m')
    :
    Represents cfg { s with worker := { s.worker with
      mergers := update s.worker.mergers level (some m') } } l := by
  refine { h with merges := fun l' => ?_ }
  by_cases hlevel : l' = level
  · subst hlevel
    have hof := h.merges l'
    rw [hm] at hof
    change MergeOf cfg l (update s.worker.mergers l' (some m') l') _
    rw [update_self]
    generalize (s.shared.slots l').mergingBatches = merging at hof
    cases hof with
    | running hcovers hunderway =>
      obtain ⟨hkey, hval, hunderway'⟩ := hunderway.merge hres hmerge
      rw [← hkey, ← hval] at hcovers hunderway'
      exact .running hcovers hunderway'
  · change MergeOf cfg l (update s.worker.mergers level (some m') l') _
    rw [update_of_ne hlevel]
    exact h.merges l'

end

variable [DecidableEq R]

def recordedStep (cfg : Config K V Unit R) (x : State K V Unit R × History K V R)
    (a : Action K V Unit R) : Except Stop (State K V Unit R × History K V R) :=
  (step cfg x.1 a).map fun s => (s, x.2.after a)

/-- One action, if filters become narrower and merges can be resumed. -/
theorem Conserved.step {x : State K V Unit R × History K V R} {s' : State K V Unit R}
    {a : Action K V Unit R} (h : Conserved cfg x) (hnarrows : Narrows x.2.ledger a)
    (hresumes : Resumes x.1 a) (hstep : Step cfg x.1 a s') : Conserved cfg (s', x.2.after a) := by
  obtain ⟨s, ledger, saved⟩ := x
  obtain ⟨hrep, hsaved⟩ := h
  dsimp only at hrep hsaved hnarrows hresumes hstep ⊢
  cases hstep with
  | insert hinsert =>
    refine ⟨hrep.insert _ hinsert, ?_⟩
    rcases insert_eq_ok hinsert with ⟨-, rfl⟩ | ⟨-, b', -, rfl⟩ <;> exact hsaved
  | insertArc hinsert =>
    refine ⟨hrep.insert _ hinsert, ?_⟩
    rcases insert_eq_ok hinsert with ⟨-, rfl⟩ | ⟨-, b', -, rfl⟩ <;> exact hsaved
  | retainKeys filter =>
    have hl : Covers ledger.keyFilter ledger.valueFilter { ledger with keyFilter := some filter } :=
      ⟨hnarrows, fun _ => id⟩
    have hrel := hrep.relabel hl fun k v _ => rfl
    exact ⟨{ hrel with
      shared := ⟨fun _ => id, hrel.shared.vals⟩, own := ⟨fun _ => id, hrel.own.vals⟩ }, hsaved⟩
  | retainValues filter =>
    have hl : Covers ledger.keyFilter ledger.valueFilter
        { ledger with valueFilter := some filter } := ⟨fun _ => id, hnarrows⟩
    have hrel := hrep.relabel hl fun k v _ => rfl
    exact ⟨{ hrel with
      shared := ⟨hrel.shared.keys, fun _ => id⟩, own := ⟨hrel.own.keys, fun _ => id⟩ }, hsaved⟩
  | setFrontier frontier => exact ⟨{ hrep with }, hsaved⟩
  | holdLoose ha => rcases ha with rfl | rfl | rfl <;> exact ⟨hrep.holdLoose, hsaved⟩
  | resume => exact ⟨hrep.resume, hsaved⟩
  | mergePaused hmerge => exact ⟨hrep.mergePaused hmerge, hsaved⟩
  | save hheld =>
    obtain ⟨hrep', hcheckpoint⟩ := hrep.save hheld _
    refine ⟨hrep', ?_⟩
    rintro batches ⟨⟩
    exact ⟨ledger, rfl, hcheckpoint⟩
  | restore hcheckpoint hinserts =>
    obtain ⟨l, rfl, hl⟩ := hsaved _ hcheckpoint
    rw [inserts_storage hl.storage] at hinserts
    cases hinserts
    refine ⟨hl.restored _, ?_⟩
    rintro batches ⟨⟩
    exact ⟨l, rfl, hl⟩
  | readShared => exact ⟨{ hrep with worker := hrep.shared }, hsaved⟩
  | merge hm hmerge => exact ⟨hrep.merge hm (hresumes _ hm) hmerge, hsaved⟩
  | mergeComplete hm hdone hmerging => exact ⟨hrep.mergeComplete hm hdone hmerging, hsaved⟩
  | startMerges hmergers => exact ⟨hrep.startMerges hmergers, hsaved⟩

section

def start : State K V Unit R × History K V R :=
  (State.new, ⟨Ledger.new, none⟩)

variable (cfg : Config K V Unit R)

theorem conserved_invariant :
    Machine.Invariant (recordedStep cfg)
      (fun x a => Narrows x.2.ledger a ∧ Resumes x.1 a) (Conserved cfg) := by
  refine ⟨fun {x a x'} h hguard hstep => ?_⟩
  unfold recordedStep at hstep
  obtain ⟨s', hs, hstep⟩ := Checked.bind_eq_ok.mp hstep
  cases hstep
  exact h.step hguard.1 hguard.2 (step_eq_ok hs)

def pushConfig : Config ℕ ℕ Unit ℤ :=
  ⟨.pushMerger, none, fun _ => 8, false, true⟩

/-- Eight small batches, a value filter, and a merge during whose first step the second value of
the key 1 cannot be read. -/
def pendingMerge (filter : ℕ → Bool) : List (Action ℕ ℕ Unit ℤ) :=
  [.insert (Batch.ofTuples [((1, 5, ()), 1), ((1, 6, ()), 1), ((2, 7, ()), 1)]) .memory,
    .insert (Batch.ofTuples [((3, 7, ()), 1)]) .memory,
    .insert (Batch.ofTuples [((3, 7, ()), 1)]) .memory,
    .insert (Batch.ofTuples [((3, 7, ()), 1)]) .memory,
    .insert (Batch.ofTuples [((3, 7, ()), 1)]) .memory,
    .insert (Batch.ofTuples [((3, 7, ()), 1)]) .memory,
    .insert (Batch.ofTuples [((3, 7, ()), 1)]) .memory,
    .insert (Batch.ofTuples [((3, 7, ()), 1)]) .memory,
    .retainValues filter, .readShared, .startMerges,
    .merge 0 1 ⟨fun _ _ => true, fun _ keys vals => decide ((keys, vals) ≠ (2, 1))⟩,
    .merge 0 1 ⟨fun _ _ => true, fun _ _ _ => true⟩, .mergeComplete 0]

section

variable {cfg : Config K V Unit R} {actions : List (Action K V Unit R)} {s : State K V Unit R}
  {h : History K V R} (hguard : Machine.Guarded (recordedStep cfg)
    (fun x a => Narrows x.2.ledger a ∧ Resumes x.1 a) start actions)
  (hrun : Machine.run (recordedStep cfg) start actions = .ok (s, h))
include hguard hrun

theorem conserved_of_run : Conserved cfg (s, h) := by
  have hstart : Conserved cfg (start : State K V Unit R × History K V R) :=
    ⟨represents_new cfg, nofun⟩
  exact Machine.run_invariant (conserved_invariant cfg) hstart hguard hrun

/-- In the runs of `run_conserves`, whatever is inserted, merged and filtered after the last `save`,
its batches are well formed and on storage, and agree with what had been inserted by then on
everything that the filters accepted then. -/
theorem checkpoint_conserves {batches : List (Stored K V Unit R)}
    (hsaved : s.checkpoint = some batches) :
    ∃ l, h.saved = some l ∧ (∀ b ∈ batches, b.location = .storage ∧ IsBatch b.layers) ∧
      ∀ k v, l.accepts k v = true → (batches.map fun b => b.layers.weight (k, v, ())).sum =
        (l.inserted.map fun b => b.weight (k, v, ())).sum := by
  obtain ⟨l, hl, hbatches⟩ := (conserved_of_run hguard hrun).saved batches hsaved
  exact ⟨l, hl, fun b hb => ⟨hbatches.storage b hb, hbatches.isBatch b hb⟩, hbatches.weight⟩

end

/-- What is inserted after the checkpoint is not part of it. -/
theorem checkpoint_conserves_two : ∃ s h batches,
    Machine.run (recordedStep pushConfig) start
      [.insert (Batch.ofTuples [((1, 5, ()), 1)]) .memory, .save,
        .insert (Batch.ofTuples [((1, 5, ()), 1)]) .memory] = .ok (s, h) ∧
      s.checkpoint = some batches ∧ (batches.map fun b => b.layers.weight (1, 5, ())).sum = 1 := by
  refine ⟨_, _, _, rfl, rfl, ?_⟩
  have htrivial : True ∧ True := ⟨trivial, trivial⟩
  have hguard : Machine.Guarded (recordedStep pushConfig)
      (fun x a => Narrows x.2.ledger a ∧ Resumes x.1 a) start
      [.insert (Batch.ofTuples [((1, 5, ()), 1)]) .memory, .save,
        .insert (Batch.ofTuples [((1, 5, ()), 1)]) .memory] :=
    ⟨htrivial, htrivial, htrivial, trivial⟩
  obtain ⟨l, hl, -, hweight⟩ := checkpoint_conserves hguard rfl rfl
  cases hl
  exact (hweight 1 5 rfl).trans rfl

end

end Feldera.Trace.Spine
