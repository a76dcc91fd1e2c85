import Feldera.Algebra.Machine

/-!
`WatermarkTracker` keeps the watermarks of an input until their records are completed. A scan from
the front of its list stamps them with the time of processing, and another one takes them out.
-/

namespace Feldera.Adapters.Watermarks

open List

variable {α M : Type*}

structure Watermark (M : Type*) where
  timestamp : ℤ
  metadata : Option M

structure Entry (M : Type*) where
  watermark : Watermark M
  globalOffset : ℕ
  processedAt : Option ℤ

structure CompletedWatermark (M : Type*) where
  metadata : M
  ingestedAt : ℤ
  processedAt : ℤ
  completedAt : ℤ
  deriving DecidableEq

namespace Entry

variable (e : Entry M) (records : ℕ) (ts : ℤ)

def isDue : Bool :=
  e.globalOffset ≤ records && e.processedAt.isNone

def isCompleted : Bool :=
  e.globalOffset ≤ records

def complete : Option (CompletedWatermark M) :=
  e.watermark.metadata.map fun metadata =>
    ⟨metadata, e.watermark.timestamp, e.processedAt.getD ts, ts⟩

/-- What is recorded in the histograms of the processing and the completion latency. -/
def latency : ℤ × ℤ :=
  (e.processedAt.getD ts - e.watermark.timestamp, ts - e.watermark.timestamp)

end Entry

structure WatermarkTracker (M : Type*) where
  totalCompletedRecords : ℕ
  watermarkList : List (Entry M)
  completedWatermark : Option (CompletedWatermark M)
  latencies : List (ℤ × ℤ)

inductive Call (M : Type*)
  | append (watermarks : List (Watermark M)) (globalOffset : ℕ)
  | updateProcessed (records : ℕ) (ts : ℤ)
  | updateCompleted (records : ℕ) (ts : ℤ)

def maxTrackedWatermarks : ℕ := 10000

def WatermarkTracker.call (s : WatermarkTracker M) : Call M → WatermarkTracker M
  | .append watermarks globalOffset =>
    let kept := watermarks.take (maxTrackedWatermarks - s.watermarkList.length)
    { s with watermarkList := s.watermarkList ++ kept.map (⟨·, globalOffset, none⟩) }
  | .updateProcessed records ts =>
    { s with
      watermarkList :=
        (s.watermarkList.takeWhile (·.isDue records)).map ({ · with processedAt := some ts }) ++
          s.watermarkList.dropWhile (·.isDue records) }
  | .updateCompleted records ts =>
    let popped := s.watermarkList.takeWhile (·.isCompleted records)
    { totalCompletedRecords := records
      watermarkList := s.watermarkList.dropWhile (·.isCompleted records)
      completedWatermark := (popped.filterMap (·.complete ts)).getLast?.or s.completedWatermark
      latencies := s.latencies ++ popped.map (·.latency ts) }

/-- The watermarks in the order in which they were appended: those that are completed, with the
time, and those that are not. Each has the time of the first call that found it processed. -/
structure History (M : Type*) where
  completed : List (Entry M × ℤ)
  waiting : List (Entry M)

def History.call (h : History M) : Call M → History M
  | .append watermarks globalOffset =>
    { h with waiting := h.waiting ++ watermarks.map (⟨·, globalOffset, none⟩) }
  | .updateProcessed records ts =>
    { h with
      waiting := h.waiting.map fun e =>
        if e.isDue records then { e with processedAt := some ts } else e }
  | .updateCompleted records ts =>
    ⟨h.completed ++ (h.waiting.filter (·.isCompleted records)).map (·, ts),
      h.waiting.filter fun e => !e.isCompleted records⟩

def History.last (h : History M) : Option (CompletedWatermark M) :=
  (h.completed.filterMap fun r => r.1.complete r.2).getLast?

abbrev State (M : Type*) := WatermarkTracker M × History M

def new : State M :=
  (⟨0, [], none, []⟩, ⟨[], []⟩)

def next (s : State M) (c : Call M) : Except Unit (State M) :=
  .ok (s.1.call c, s.2.call c)

/-- Offsets and the count of completed records do not decrease, and nothing is dropped. What is
appended is not completed yet, and nothing that is due stands behind something that is not. -/
def Orderly (s : State M) : Call M → Prop
  | .append watermarks globalOffset => s.1.totalCompletedRecords < globalOffset ∧
    (∀ e ∈ s.1.watermarkList, e.globalOffset ≤ globalOffset) ∧
    s.1.watermarkList.length + watermarks.length ≤ maxTrackedWatermarks
  | .updateProcessed records _ =>
    s.1.watermarkList.Pairwise fun a b => b.isDue records → a.isDue records
  | .updateCompleted records _ => s.1.totalCompletedRecords ≤ records

instance (s : State M) : DecidablePred (Orderly s)
  | .append .. | .updateProcessed .. | .updateCompleted .. => by unfold Orderly; infer_instance

/-- What is completed are the watermarks up to the count, and all of them are reported. -/
def Reported (s : WatermarkTracker M) (h : History M) : Prop :=
  s.completedWatermark = h.last ∧ s.latencies = (h.completed.map fun r => r.1.latency r.2) ∧
    (h.completed.map Prod.fst ++ h.waiting).filter (·.isCompleted s.totalCompletedRecords) =
      h.completed.map Prod.fst

/-- A scan reaches all that satisfy `p`, if none of them stands behind one that does not. -/
theorem scan_eq {p : α → Bool} {l : List α} (h : l.Pairwise fun a b => p b → p a) (f : α → α) :
    l.takeWhile p = l.filter p ∧ l.dropWhile p = (l.filter fun a => !p a) ∧
      (l.takeWhile p).map f ++ l.dropWhile p = l.map fun a => if p a then f a else a := by
  induction l with
  | nil => simp
  | cons a l ih =>
    obtain ⟨ha, hl⟩ := pairwise_cons.mp h
    obtain ⟨htake, hdrop, hmap⟩ := ih hl
    cases hp : p a with
    | true => simp [hp, ← hmap, ← htake, ← hdrop]
    | false =>
      have hnot : ∀ b ∈ l, p b = false := fun b hb => by simpa [hp] using ha b hb
      have hmap : (l.map fun a => if p a then f a else a) = l :=
        (map_congr_left fun b hb => by simp [hnot b hb]).trans (map_id l)
      have hfilter : l.filter p = [] := by simpa using hnot
      have hrest : (l.filter fun a => !p a) = l := by simpa using hnot
      simp [hp, hmap, hfilter, hrest]

variable {s : WatermarkTracker M} {h : History M}

structure Follows (s : WatermarkTracker M) (h : History M) : Prop where
  list : s.watermarkList = h.waiting
  last : s.completedWatermark = h.last
  latencies : s.latencies = h.completed.map fun r => r.1.latency r.2
  sorted : h.waiting.Pairwise fun a b => a.globalOffset ≤ b.globalOffset
  completed : ∀ r ∈ h.completed, r.1.globalOffset ≤ s.totalCompletedRecords
  waiting : ∀ e ∈ h.waiting, s.totalCompletedRecords < e.globalOffset

theorem Follows.call (hs : Follows s h) {c : Call M} (hc : Orderly (s, h) c) :
    Follows (s.call c) (h.call c) := by
  cases c with
  | append watermarks globalOffset =>
    obtain ⟨hlt, hle, hlen⟩ := hc
    rw [hs.list] at hle hlen
    refine ⟨?_, hs.last, hs.latencies, ?_, hs.completed, ?_⟩
    · simp [WatermarkTracker.call, History.call, hs.list, Nat.le_sub_of_add_le' hlen]
    · refine pairwise_append.mpr ⟨hs.sorted, ?_, ?_⟩
      · exact pairwise_map.mpr (pairwise_of_forall fun _ _ => le_rfl)
      intro a ha b hb
      obtain ⟨w, -, rfl⟩ := mem_map.mp hb
      exact hle a ha
    · intro e he
      rcases mem_append.mp he with he | he
      · exact hs.waiting e he
      · obtain ⟨w, -, rfl⟩ := mem_map.mp he
        exact hlt
  | updateProcessed records ts =>
    have hoffset : ∀ e : Entry M, (if e.isDue records then { e with processedAt := some ts }
        else e).globalOffset = e.globalOffset := by
      intro e
      split <;> rfl
    refine ⟨?_, hs.last, hs.latencies, ?_, hs.completed, ?_⟩
    · rw [History.call, ← hs.list]
      exact (scan_eq hc _).2.2
    · simpa [History.call, pairwise_map, hoffset] using hs.sorted
    · intro e he
      obtain ⟨e', he', rfl⟩ := mem_map.mp he
      exact (hoffset e').symm ▸ hs.waiting e' he'
  | updateCompleted records ts =>
    have hsorted : h.waiting.Pairwise fun a b => b.isCompleted records → a.isCompleted records :=
      hs.sorted.imp fun hab hb => decide_eq_true (hab.trans (of_decide_eq_true hb))
    obtain ⟨htake, hdrop, -⟩ := scan_eq hsorted id
    refine ⟨?_, ?_, ?_, hs.sorted.filter _, ?_, ?_⟩
    · rw [WatermarkTracker.call, hs.list]
      exact hdrop
    · simp [WatermarkTracker.call, History.call, History.last, hs.list, htake, hs.last,
        filterMap_map]
    · simp [WatermarkTracker.call, History.call, hs.list, htake, hs.latencies]
    · intro r hr
      rcases mem_append.mp hr with hr | hr
      · exact (hs.completed r hr).trans hc
      · obtain ⟨e, he, rfl⟩ := mem_map.mp hr
        exact of_decide_eq_true (mem_filter.mp he).2
    · intro e he
      change records < e.globalOffset
      simpa [Entry.isCompleted] using (mem_filter.mp he).2

/-- If nothing is appended that is already completed, and nothing that is due stands behind
something that is not, the tracker reports the watermarks whose offset is at most the count, with
their times. -/
theorem reports_completed (calls : List (Call M))
    (hcalls : Machine.Guarded next Orderly new calls) :
    ∃ s h, Machine.run next new calls = .ok (s, h) ∧ Reported s h := by
  have hnew : Follows (new : State M).1 new.2 := ⟨rfl, rfl, rfl, .nil, nofun, nofun⟩
  obtain ⟨⟨s, h⟩, hrun, hs⟩ := Machine.run_total (I := fun s : State M => Follows s.1 s.2)
    (fun hs hc => ⟨_, rfl, hs.call hc⟩) hnew hcalls
  refine ⟨s, h, hrun, hs.last, hs.latencies, ?_⟩
  rw [filter_append, filter_eq_self.mpr, filter_eq_nil_iff.mpr, append_nil]
  · exact fun e he => by simpa [Entry.isCompleted] using hs.waiting e he
  · intro e he
    obtain ⟨r, hr, rfl⟩ := mem_map.mp he
    exact decide_eq_true (hs.completed r hr)

def oneByOne (records : ℕ) : List (Call ℕ) :=
  [.append [⟨0, some 1⟩] 1, .updateProcessed 1 10, .updateCompleted records 15,
    .append [⟨0, some 2⟩] 2, .updateProcessed 2 20, .updateCompleted 2 30]

theorem reports_completed_oneByOne :
    ∃ s h, Machine.run next new (oneByOne 1) = .ok (s, h) ∧ Reported s h :=
  reports_completed (oneByOne 1) (by decide)

/-- While the first watermark waits, the second one is not stamped: 30 is reported instead of 20. -/
theorem reports_late : ∃ s h, Machine.run next new (oneByOne 0) = .ok (s, h) ∧
    s.completedWatermark = some ⟨2, 0, 30, 30⟩ ∧
    h.last = some ⟨2, 0, 20, 30⟩ :=
  ⟨_, _, rfl, by decide, by decide⟩

end Feldera.Adapters.Watermarks
