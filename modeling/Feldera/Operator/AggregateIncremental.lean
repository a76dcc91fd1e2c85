import Feldera.Algebra.SortedUnion
import Feldera.Operator.NestedTrace

/-!
`AggregateIncremental` and `Upsert`. In every iteration `AggregateIncremental` computes the
aggregates of the keys of the input, and of those that it has noted for this time in
`keys_of_interest`, and hands them on in chunks. `Upsert` turns every new aggregate into updates of
its output: the new value comes in, and whatever the output holds for the key at this time goes.
-/

namespace Feldera.Operator.Aggregate

open Time Trace Weighted SortedUnion List
open Snapshot hiding weight
open NestedTrace (timeOfInterest)

structure Aggregator (V Out : Type*) [DecidableEq V] where
  aggregate : List (V × ℤ) → Option Out
  congr : ∀ {l m : List (V × ℤ)}, (∀ v, weight l v = weight m v) → aggregate l = aggregate m
  empty : aggregate [] = none

variable {K V Out T : Type*} [LinearOrder K] [LinearOrder V] [LinearOrder T] [Timestamp T]

section

/-- What a `CursorGroup` shows: the values of a key with their weights at the times that are not
after `time`. -/
def cursorGroup (trace : TimedTrace K V T ℤ) (key : K) (time : T) : List (V × ℤ) :=
  (items (trace.group key)).map fun v => (v, through (trace.times key v) time)

def allTimes (trace : TimedTrace K V T ℤ) (key : K) : List (T × ℤ) :=
  (items (trace.group key)).flatMap (trace.times key)

/-- The state of `eval`: what is noted, the chunk that is being built, and the chunks that were
yielded. -/
structure Work (K Out T : Type*) where
  keysOfInterest : List (T × K)
  result : List (K × Option Out)
  out : List (List (K × Option Out))

variable (agg : Aggregator V Out)

/-- `eval_key`. The source looks for the time of interest in nested scopes only; in the root scope
there is none. -/
def evalKey (time : T) (trace : TimedTrace K V T ℤ) (key : K) (s : Work K Out T) : Work K Out T :=
  if (trace.group key).isEmpty then { s with result := s.result ++ [(key, none)] }
  else
    { s with
      result := s.result ++ [(key, agg.aggregate (cursorGroup trace key time))]
      keysOfInterest := s.keysOfInterest ++
        ((timeOfInterest time (allTimes trace key)).map fun t => (t, key)).toList }

def maybeYield (chunkSize : ℕ) (s : Work K Out T) : Work K Out T :=
  if chunkSize ≤ s.result.length then { s with result := [], out := s.out ++ [s.result] } else s

def evalKeys (chunkSize : ℕ) (time : T) (trace : TimedTrace K V T ℤ) (keys : List K)
    (s : Work K Out T) : Work K Out T :=
  keys.foldl (fun s key => maybeYield chunkSize (evalKey agg time trace key s)) s

/-- The set of keys that are noted for a time, in order. -/
def interesting (time : T) (keysOfInterest : List (T × K)) : List K :=
  ((keysOfInterest.filter fun p => decide (p.1 = time)).map Prod.snd).dedup.insertionSort (· ≤ ·)

def deltaKeys (delta : List (Batch K V Unit ℤ)) : List K :=
  (Snapshot.total delta).entries.map Prod.fst

/-- The keys that are visited: those of the input and those that are noted. -/
def visited (time : T) (delta : List (Batch K V Unit ℤ)) (keysOfInterest : List (T × K)) : List K :=
  (unionWith (fun _ _ => ()) ((deltaKeys delta).map fun k => (k, ()))
    ((interesting time keysOfInterest).map fun k => (k, ()))).map Prod.fst

/-- The chunks of an iteration. A last chunk without anything in it is not yielded if the chunk
before it was completed by a key that is noted, after all keys of the input. -/
def chunks (visited delta : List K) (s : Work K Out T) : List (List (K × Option Out)) :=
  if s.result.isEmpty && visited.getLast?.any fun k => decide (k ∉ delta) then s.out
  else s.out ++ [s.result]

/-- What an iteration of `AggregateIncremental` leaves behind: the noted keys, whether the output
counts as empty, and the chunks. The last chunk does not count. -/
def eval (chunkSize : ℕ) (time : T) (delta : List (Batch K V Unit ℤ)) (trace : TimedTrace K V T ℤ)
    (keysOfInterest : List (T × K)) : List (T × K) × Bool × List (List (K × Option Out)) :=
  let visited := visited time delta keysOfInterest
  let s := evalKeys agg chunkSize time trace visited
    ⟨keysOfInterest.filter fun p => decide (p.1 ≠ time), [], []⟩
  (s.keysOfInterest, s.out.all List.isEmpty, chunks visited (deltaKeys delta) s)

end

section

variable [LinearOrder Out]

/-- The updates of one key in `Upsert::eval`. -/
def keyUpdates (time : T) (trace : TimedTrace K Out T ℤ) (kv : K × Option Out) : List (Out × ℤ) :=
  consolidate ((kv.2.map fun val => (val, (1 : ℤ))).toList ++
    ((cursorGroup trace kv.1 time).filter fun p => decide (p.2 ≠ 0)).map fun p => (p.1, -p.2))

/-- `Upsert::eval`, with the delayed trace of its output. No key and no value is filtered. -/
def upsert (time : T) (trace : TimedTrace K Out T ℤ) (updates : List (K × Option Out)) :
    Layers K Out Unit ℤ :=
  (updates.foldl (fun b kv => (keyUpdates time trace kv).foldl
    (fun b p => b.pushRefs kv.1 p.1 () p.2) b) TupleBuilder.new).done

/-- One step of `Upsert` for each chunk, with the merges in its trace before every step. -/
def upserts (time : T) (merges : ℕ → List (TimedMerge K Out T)) : ℕ → TimedTrace K Out T ℤ →
    List (List (K × Option Out)) → TimedTrace K Out T ℤ × List (Layers K Out Unit ℤ)
  | _, trace, [] => (trace, [])
  | step, trace, updates :: rest =>
    let trace := (merges step).foldl (fun trace m => m.apply trace) trace
    let result := upserts time merges (step + 1) trace rest
    (result.1, upsert time trace updates :: result.2)

end

section

variable {trace : TimedTrace K V T ℤ} {key : K} {time : T} {v : V}

omit [Timestamp T] in
theorem times_eq_nil_of_not_mem (h : v ∉ items (trace.group key)) : trace.times key v = [] := by
  refine map_eq_nil_iff.mpr (filter_eq_nil_iff.mpr fun x hx heq => h ?_)
  exact mem_items.mpr ⟨x, hx, of_decide_eq_true heq⟩

theorem weight_cursorGroup (v : V) :
    weight (cursorGroup trace key time) v = through (trace.times key v) time := by
  have hnodup : (items (trace.group key)).Nodup := (items_sorted _).imp fun hlt => hlt.ne
  have hterm : ∀ u, (if u = v then through (trace.times key u) time else 0) =
      if u = v then through (trace.times key v) time else 0 := by
    intro u
    by_cases huv : u = v
    · rw [huv]
    · rw [if_neg huv, if_neg huv]
  have hsum : weight (cursorGroup trace key time) v = ((items (trace.group key)).map fun u =>
      if u = v then through (trace.times key v) time else 0).sum := by
    unfold cursorGroup weight
    rw [map_map]
    exact congrArg List.sum (map_congr_left fun u _ => hterm u)
  rw [hsum, sum_ite_of_nodup hnodup]
  split
  · rfl
  · next hv =>
    rw [times_eq_nil_of_not_mem hv]
    rfl

theorem cursorGroup_eq_nil (h : (trace.group key).isEmpty = true) :
    cursorGroup trace key time = [] := by
  rw [cursorGroup, isEmpty_iff.mp h]
  rfl

omit [Timestamp T] in
theorem mem_allTimes {p : T × ℤ} (hp : p ∈ trace.times key v) : p ∈ allTimes trace key := by
  refine mem_flatMap.mpr ⟨v, ?_, hp⟩
  by_contra hv
  rw [times_eq_nil_of_not_mem hv] at hp
  cases hp

end

section

variable {agg : Aggregator V Out} {time : T} {trace : TimedTrace K V T ℤ} {s : Work K Out T}

/-- Everything that was handed on so far. -/
def Work.pairs (s : Work K Out T) : List (K × Option Out) :=
  s.out.flatten ++ s.result

def valueOf (agg : Aggregator V Out) (time : T) (trace : TimedTrace K V T ℤ) (key : K) :
    Option Out :=
  agg.aggregate (cursorGroup trace key time)

theorem pairs_evalKey (key : K) : (evalKey agg time trace key s).pairs =
    s.pairs ++ [(key, valueOf agg time trace key)] := by
  unfold evalKey
  split
  · next hgroup =>
    rw [valueOf, cursorGroup_eq_nil hgroup, agg.empty]
    exact (append_assoc _ _ _).symm
  · exact (append_assoc _ _ _).symm

theorem noted_evalKey (key : K) (t : T) (k : K) :
    (t, k) ∈ (evalKey agg time trace key s).keysOfInterest ↔ (t, k) ∈ s.keysOfInterest ∨
      k = key ∧ timeOfInterest time (allTimes trace key) = some t := by
  unfold evalKey
  split
  · next hgroup =>
    refine (or_iff_left ?_).symm
    rintro ⟨-, htime⟩
    rw [allTimes, isEmpty_iff.mp hgroup] at htime
    cases htime
  · simp only [mem_append, Option.mem_toList, Option.map_eq_some_iff, Prod.mk.injEq]
    refine or_congr_right ⟨?_, ?_⟩
    · rintro ⟨t, ht, rfl, rfl⟩
      exact ⟨rfl, ht⟩
    · rintro ⟨rfl, ht⟩
      exact ⟨t, ht, rfl, rfl⟩

variable (chunkSize : ℕ)

omit [LinearOrder K] [LinearOrder T] [Timestamp T] in
theorem maybeYield_spec (s : Work K Out T) :
    (maybeYield chunkSize s).pairs = s.pairs ∧
      (maybeYield chunkSize s).keysOfInterest = s.keysOfInterest := by
  unfold maybeYield Work.pairs
  split
  · exact ⟨by simp, rfl⟩
  · exact ⟨rfl, rfl⟩

variable (agg time trace) in
theorem evalKeys_spec (keys : List K) (s : Work K Out T) :
    (evalKeys agg chunkSize time trace keys s).pairs =
        s.pairs ++ keys.map (fun k => (k, valueOf agg time trace k)) ∧
      ∀ t k, (t, k) ∈ (evalKeys agg chunkSize time trace keys s).keysOfInterest ↔
        (t, k) ∈ s.keysOfInterest ∨
          k ∈ keys ∧ timeOfInterest time (allTimes trace k) = some t := by
  induction keys generalizing s with
  | nil => exact ⟨(append_nil _).symm, by simp [evalKeys]⟩
  | cons key keys ih =>
    obtain ⟨hpairs, hnoted⟩ := ih (maybeYield chunkSize (evalKey agg time trace key s))
    obtain ⟨hyield, hkeep⟩ := maybeYield_spec chunkSize (evalKey agg time trace key s)
    constructor
    · refine hpairs.trans ?_
      rw [hyield, pairs_evalKey, append_assoc]
      rfl
    intro t k
    refine (hnoted t k).trans ?_
    rw [hkeep, noted_evalKey, or_assoc, mem_cons, or_and_right]
    refine or_congr_right (or_congr_left (and_congr_right ?_))
    rintro rfl
    rfl

end

section

omit [Timestamp T]

variable {time : T} {delta : List (Batch K V Unit ℤ)} {keysOfInterest : List (T × K)} {k : K}

theorem mem_interesting : k ∈ interesting time keysOfInterest ↔ (time, k) ∈ keysOfInterest := by
  rw [interesting, mem_insertionSort, mem_dedup, mem_map]
  constructor
  · rintro ⟨⟨t, k'⟩, hp, rfl⟩
    obtain ⟨hmem, ht⟩ := mem_filter.mp hp
    obtain rfl : t = time := of_decide_eq_true ht
    exact hmem
  · intro hmem
    exact ⟨(time, k), mem_filter.mpr ⟨hmem, decide_eq_true rfl⟩, rfl⟩

theorem interesting_sorted : (interesting time keysOfInterest).Pairwise (· < ·) := by
  have hnodup : (interesting time keysOfInterest).Nodup :=
    (perm_insertionSort _ _).nodup_iff.mpr (nodup_dedup _)
  have hle : (interesting time keysOfInterest).Pairwise (· ≤ ·) := pairwise_insertionSort _ _
  exact (hle.and hnodup).imp fun h => lt_of_le_of_ne h.1 h.2

theorem mem_deltaKeys : k ∈ deltaKeys delta ↔ ∃ v, Snapshot.weight delta (k, v, ()) ≠ 0 := by
  constructor
  · intro hk
    obtain ⟨p, hp, rfl⟩ := mem_map.mp hk
    obtain ⟨hne, hcons⟩ := (total delta).vals_consolidated hp
    obtain ⟨q, hq⟩ := exists_mem_of_ne_nil _ hne
    obtain ⟨hweight, heq⟩ := (hcons.mem_iff q.1 q.2).mp hq
    refine ⟨q.1, ?_⟩
    rw [← weight_total, ← (total delta).weight_of_mem_entries hp, heq]
    exact hweight
  · rintro ⟨v, hne⟩
    by_contra hk
    rw [← weight_total] at hne
    exact hne ((total delta).weight_of_not_mem_keys hk v)

theorem mem_visited : k ∈ visited time delta keysOfInterest ↔
    (∃ v, Snapshot.weight delta (k, v, ()) ≠ 0) ∨ (time, k) ∈ keysOfInterest := by
  have hunion := (unionWith_spec (fun _ _ => ()) ((deltaKeys delta).map fun k => (k, ()))
    ((interesting time keysOfInterest).map fun k => (k, ()))).exists_iff k (Q := fun _ => True)
    (by simp)
  rw [← mem_deltaKeys, ← mem_interesting]
  simpa [visited] using hunion

theorem nodup_visited : (visited time delta keysOfInterest).Nodup := by
  have hsorted := (unionWith_spec (fun _ _ => ()) ((deltaKeys delta).map fun k => (k, ()))
    ((interesting time keysOfInterest).map fun k => (k, ()))).sorted
    (by
      rw [deltaKeys, map_map, pairwise_map]
      exact (total delta).entries_ordered)
    (by
      rw [pairwise_map]
      exact interesting_sorted)
  rw [visited, List.Nodup, pairwise_map]
  exact hsorted.imp fun hlt => hlt.ne

end

section

variable (agg : Aggregator V Out) (chunkSize : ℕ) (time : T) (delta : List (Batch K V Unit ℤ))
  (trace : TimedTrace K V T ℤ) (keysOfInterest : List (T × K))

theorem flatten_chunks :
    (eval agg chunkSize time delta trace keysOfInterest).2.2.flatten =
      (visited time delta keysOfInterest).map fun k => (k, valueOf agg time trace k) := by
  obtain ⟨hpairs, -⟩ := evalKeys_spec agg time trace chunkSize
    (visited time delta keysOfInterest)
    ⟨keysOfInterest.filter fun p => decide (p.1 ≠ time), [], []⟩
  refine Eq.trans ?_ (hpairs.trans (nil_append _))
  unfold eval chunks Work.pairs
  dsimp only
  split
  · next hlast =>
    rw [isEmpty_iff.mp (Bool.and_eq_true_iff.mp hlast).1, append_nil]
  · simp

theorem mem_eval_noted {t : T} {k : K} :
    (t, k) ∈ (eval agg chunkSize time delta trace keysOfInterest).1 ↔
      t ≠ time ∧ (t, k) ∈ keysOfInterest ∨ k ∈ visited time delta keysOfInterest ∧
        timeOfInterest time (allTimes trace k) = some t := by
  obtain ⟨-, hnoted⟩ := evalKeys_spec agg time trace chunkSize
    (visited time delta keysOfInterest)
    ⟨keysOfInterest.filter fun p => decide (p.1 ≠ time), [], []⟩
  refine (hnoted t k).trans (or_congr_left ?_)
  simp [and_comm]

end

section

variable [LinearOrder Out] {time : T} {trace : TimedTrace K Out T ℤ} {k : K} {out : Out}

def indicator (value : Option Out) (out : Out) : ℤ :=
  if value = some out then 1 else 0

/-- The updates of a key replace what the output holds of it by the new value. -/
theorem weight_keyUpdates (kv : K × Option Out) :
    weight (keyUpdates time trace kv) out =
      indicator kv.2 out - through (trace.times kv.1 out) time := by
  have hnew : weight (kv.2.map fun val => (val, (1 : ℤ))).toList out = indicator kv.2 out := by
    cases kv.2 with
    | none => rfl
    | some val => simp [indicator]
  rw [keyUpdates, weight_consolidate, weight_append, hnew, weight_neg, weight_filter_ne_zero,
    weight_cursorGroup, sub_eq_add_neg]

variable (k out) in
omit [Timestamp T] [LinearOrder T] in
private theorem pushes_spec (key : K) (updates : List (Out × ℤ)) {b : TupleBuilder K Out Unit ℤ}
    (hb : b.Tidy) :
    (updates.foldl (fun b p => b.pushRefs key p.1 () p.2) b).Tidy ∧
      (updates.foldl (fun b p => b.pushRefs key p.1 () p.2) b).done.weight (k, out, ()) =
        b.done.weight (k, out, ()) + if key = k then weight updates out else 0 := by
  induction updates generalizing b with
  | nil => exact ⟨hb, by simp⟩
  | cons p updates ih =>
    obtain ⟨htidy, hweight⟩ := ih (TupleBuilder.tidy_pushRefs b key p.1 () p.2)
    refine ⟨htidy, hweight.trans ?_⟩
    rw [TupleBuilder.weight_pushRefs hb, weight_cons]
    by_cases hk : key = k
    · by_cases hv : p.1 = out
      · simp [hk, hv, add_assoc]
      · simp [hk, hv, Ne.symm hv]
    · simp [hk, Ne.symm hk]

theorem weight_upsert (updates : List (K × Option Out)) :
    (upsert time trace updates).weight (k, out, ()) = (updates.map fun kv =>
      if kv.1 = k then indicator kv.2 out - through (trace.times k out) time else 0).sum := by
  have hgeneral : ∀ {b : TupleBuilder K Out Unit ℤ}, b.Tidy →
      (updates.foldl (fun b kv => (keyUpdates time trace kv).foldl
        (fun b p => b.pushRefs kv.1 p.1 () p.2) b) b).done.weight (k, out, ()) =
        b.done.weight (k, out, ()) + (updates.map fun kv =>
          if kv.1 = k then indicator kv.2 out - through (trace.times k out) time else 0).sum := by
    induction updates with
    | nil => simp
    | cons kv updates ih =>
      intro b hb
      obtain ⟨htidy, hweight⟩ := pushes_spec k out kv.1 (keyUpdates time trace kv) hb
      rw [foldl_cons, ih htidy, hweight, map_cons, sum_cons, weight_keyUpdates,
        add_assoc]
      congr 2
      refine if_ctx_congr Iff.rfl (fun hk => ?_) fun _ => rfl
      rw [hk]
  refine (hgeneral TupleBuilder.tidy_new).trans (zero_add _)

/-- Merges that keep what can be seen at a time. -/
def Keeps (time : T) (merges : List (TimedMerge K Out T)) : Prop :=
  ∀ m ∈ merges, ∀ k v, Timestamp.lessEqual (m.frontier k v) time = true

theorem Keeps.through {merges : List (TimedMerge K Out T)} {t : T} (h : Keeps t merges)
    (trace : TimedTrace K Out T ℤ) (k : K) (out : Out) : through (TimedTrace.times
      (merges.foldl (fun trace m => m.apply trace) trace) k out) t =
        through (trace.times k out) t := by
  induction merges generalizing trace with
  | nil => rfl
  | cons m merges ih =>
    rw [foldl_cons, ih fun m' hm' => h m' (mem_cons_of_mem _ hm')]
    exact m.through_apply trace k out (h m mem_cons_self k out)

theorem weight_upserts {merges : ℕ → List (TimedMerge K Out T)} (hkeeps : ∀ j, Keeps time (merges j))
    (step : ℕ) (trace : TimedTrace K Out T ℤ) (chunks : List (List (K × Option Out))) :
    ((upserts time merges step trace chunks).2.map fun c => c.weight (k, out, ())).sum =
      (chunks.flatten.map fun kv =>
        if kv.1 = k then indicator kv.2 out - through (trace.times k out) time else 0).sum := by
  induction chunks generalizing step trace with
  | nil => rfl
  | cons updates chunks ih =>
    simp only [upserts, map_cons, sum_cons, flatten_cons, map_append,
      sum_append]
    rw [weight_upsert, ih, (hkeeps step).through]

end

end Feldera.Operator.Aggregate
