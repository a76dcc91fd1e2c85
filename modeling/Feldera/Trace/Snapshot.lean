import Feldera.Trace.CursorListSum
import Feldera.Trace.Lookup

/-!
Snapshots of spines: the batches that a spine holds at some moment, read through one
`CursorList`. Which batches they are depends on the background merges, which keep the sum;
operators read a snapshot through its cursor only, so they see the sum.
-/

namespace Feldera.Trace

open OrderedSum List

variable {K V R : Type*} [LinearOrder K] [LinearOrder V] [AddCommMonoid R]

def valuesAt (entries : Entries K V R) (k : K) : List (V × R) :=
  ((entries.find? fun q => decide (q.1 = k)).map Prod.snd).getD []

variable {entries : Entries K V R}

omit [LinearOrder V] [AddCommMonoid R] in
theorem valuesAt_of_mem (h : Ordered Direction.forward.lt entries) {q : K × List (V × R)}
    (hq : q ∈ entries) : valuesAt entries q.1 = q.2 := by
  induction entries with
  | nil => exact absurd hq not_mem_nil
  | cons p entries ih =>
    obtain ⟨hp, hentries⟩ := pairwise_cons.mp h
    rcases mem_cons.mp hq with rfl | hq
    · simp [valuesAt]
    have hlt : p.1 < q.1 := hp q hq
    have hskip : valuesAt (p :: entries) q.1 = valuesAt entries q.1 := by
      rw [valuesAt, List.find?_cons_of_neg (by simpa using hlt.ne)]
      rfl
    rw [hskip, ih hentries hq]

omit [LinearOrder V] [AddCommMonoid R] in
theorem valuesAt_of_not_mem {k : K} (hk : k ∉ entries.map Prod.fst) : valuesAt entries k = [] := by
  have hnone : (entries.find? fun q => decide (q.1 = k)) = none := by
    refine List.find?_eq_none.mpr fun q hq => ?_
    simpa using fun heq => hk (mem_map.mpr ⟨q, hq, heq⟩)
  rw [valuesAt, hnone]
  rfl

variable (b : Batch K V Unit R) (k : K)

theorem Batch.weight_valuesAt (v : V) :
    Weighted.weight (valuesAt b.entries k) v = b.weight (k, v, ()) := by
  by_cases hk : k ∈ b.entries.map Prod.fst
  · obtain ⟨q, hq, rfl⟩ := mem_map.mp hk
    rw [valuesAt_of_mem b.entries_ordered hq, b.weight_of_mem_entries hq]
  · rw [valuesAt_of_not_mem hk, b.weight_of_not_mem_keys hk]
    rfl

theorem Batch.valuesAt_consolidated : Weighted.Consolidated (valuesAt b.entries k) := by
  by_cases hk : k ∈ b.entries.map Prod.fst
  · obtain ⟨q, hq, rfl⟩ := mem_map.mp hk
    rw [valuesAt_of_mem b.entries_ordered hq]
    exact (b.vals_consolidated hq).2
  · rw [valuesAt_of_not_mem hk]
    exact .nil

/-- The key filters of batches. A batch in memory has none, which is one that lets every key
pass. -/
structure KeyFilter (K V R : Type*) [LinearOrder K] [LinearOrder V] [AddCommMonoid R] where
  mayContain : Batch K V Unit R → K → Bool
  sound : ∀ b, ∀ q ∈ b.entries, mayContain b q.1 = true

def KeyFilter.none : KeyFilter K V R := ⟨fun _ _ => true, fun _ _ _ => rfl⟩

/-- Background merges: they replace the batches of a spine and keep the sum. -/
structure Merging (K V R : Type*) [LinearOrder K] [LinearOrder V] [AddCommMonoid R] where
  merge : List (Batch K V Unit R) → List (Batch K V Unit R)
  weight_eq : ∀ batches x, ((merge batches).map fun b => b.weight x).sum =
    (batches.map fun b => b.weight x).sum

def Merging.none : Merging K V R := ⟨id, fun _ _ => rfl⟩

/-- The entries of a batch whose keys satisfy `keys`. -/
def Batch.restrict (keys : K → Bool) (b : Batch K V Unit R) : Batch K V Unit R :=
  ⟨b.layers.filter fun p => keys p.1, b.isBatch.sorted.filter _,
    fun p hp => b.isBatch.contents p (mem_filter.mp hp).1⟩

theorem Batch.weight_restrict (keys : K → Bool) (b : Batch K V Unit R) {k : K}
    (hk : keys k = true) (x : V × Unit) : (b.restrict keys).weight (k, x) = b.weight (k, x) := by
  change Layers.weight (b.layers.filter fun p => keys p.1) (k, x) = b.layers.weight (k, x)
  induction b.layers with
  | nil => rfl
  | cons p layers ih =>
    by_cases hp : keys p.1 = true
    · rw [filter_cons_of_pos (by simpa using hp), Layers.weight_cons, Layers.weight_cons, ih]
    · have hne : p.1 ≠ k := fun heq => hp (heq ▸ hk)
      rw [filter_cons_of_neg (by simpa using hp), Layers.weight_cons, if_neg hne, zero_add, ih]

namespace Snapshot

def weight (batches : List (Batch K V Unit R)) (x : K × V × Unit) : R :=
  (batches.map fun b => b.weight x).sum

theorem weight_filter_nonempty (inputs : List (Batch K V Unit R)) (x : K × V × Unit) :
    weight (inputs.filter fun b => !b.layers.isEmpty) x = weight inputs x := by
  unfold weight
  induction inputs with
  | nil => rfl
  | cons b inputs ih =>
    rw [map_cons, sum_cons, ← ih]
    cases hb : b.layers.isEmpty with
    | true =>
      have hzero : b.weight x = 0 := by
        unfold Batch.weight
        rw [isEmpty_iff.mp hb]
        rfl
      rw [filter_cons_of_neg (by simp [hb]), hzero, zero_add]
    | false => rw [filter_cons_of_pos (by simp [hb]), map_cons, sum_cons]

/-- `fetch`: the batches that can fetch keys do so, the others are read as they are. -/
def fetch (fetches : Batch K V Unit R → Bool) (keys : K → Bool)
    (batches : List (Batch K V Unit R)) : List (Batch K V Unit R) :=
  (batches.filter fetches).map (Batch.restrict keys) ++ batches.filter fun b => !fetches b

theorem weight_fetch (fetches : Batch K V Unit R → Bool) {keys : K → Bool}
    (batches : List (Batch K V Unit R)) {k : K} (hk : keys k = true) (x : V × Unit) :
    weight (fetch fetches keys batches) (k, x) = weight batches (k, x) := by
  unfold weight fetch
  rw [map_append, sum_append, map_map]
  induction batches with
  | nil => simp
  | cons b batches ih =>
    rw [map_cons, sum_cons, ← ih]
    cases hb : fetches b with
    | true => simp [hb, b.weight_restrict keys hk, add_assoc]
    | false => simp [hb, add_left_comm]

variable [DecidableEq R] (filter : KeyFilter K V R) (batches : List (Batch K V Unit R))

def total : Batch K V Unit R :=
  Batch.sum (List.finRange batches.length) batches.get

theorem weight_total (x : K × V × Unit) : (total batches).weight x = weight batches x := by
  rw [total, Batch.weight_sum, weight]
  conv_rhs => rw [← map_get_finRange batches, map_map]
  rfl

/-- More rounds than any loop of the cursor takes. -/
def limit : Nat :=
  ((List.finRange batches.length).map fun i => volume (batches.get i).entries).sum + 1

def cursor : Cursor (CursorList batches.length (LayerCursor K V R) R) K V R :=
  cursorList (fun i => layerCursor (filter.mayContain (batches.get i))) (limit batches)

def start : CursorList batches.length (LayerCursor K V R) R :=
  CursorList.ofBatches (fun i => filter.mayContain (batches.get i)) (limit batches) batches.get

def stance : Stance (CursorList batches.length (LayerCursor K V R) R) K V R :=
  CursorList.stance (fun i => layerCursor (filter.mayContain (batches.get i)))
    (fun i => (batches.get i).entries) fun i => LayerCursor.stance (batches.get i).entries

theorem lawful : (cursor filter batches).Lawful (total batches).entries
    (stance filter batches) :=
  cursorList_lawful (fun i => layerCursor_lawful (filter.sound (batches.get i)))
    (fun _ _ _ => trivial)
    (keySums_batches (Batch.weight_sum (List.finRange batches.length) batches.get))
    (Nat.lt_succ_self _)

theorem firm_start : (stance filter batches).firm (.enter .forward (total batches).entries)
    (start filter batches) :=
  CursorList.firm_new (fun i => layerCursor_lawful (filter.sound (batches.get i)))
    (keySums_batches (Batch.weight_sum (List.finRange batches.length) batches.get))
    (Nat.lt_succ_self _) fun _ => LayerCursor.at_new _

omit [DecidableEq R] in
theorem able (s : CursorList batches.length (LayerCursor K V R) R) (k : K) :
    (stance filter batches).able s k :=
  trivial

end Snapshot

end Feldera.Trace
