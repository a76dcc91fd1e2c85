import Feldera.Trace.Cursor

/-!
Places of several cursors that are read as one. Each cursor stands at its own place; the
sum of what is left to them is what is left to the cursor over the sum. The cursors that
lead are those on the first key, and among them those on the first value. Entries that
cancel are dropped from the places of the cursors that lead without changing the sum.
-/

namespace Feldera.Trace

open OrderedSum
open List hiding tails

variable {ι K V R : Type*}

def headVals (rest : Entries K V R) : List (V × R) :=
  (rest.head?.map Prod.snd).getD []

theorem tails_subset [DecidableEq ι] (js : List ι) (rests : ι → Entries K V R) (i : ι) :
    tails js rests i ⊆ rests i := by
  unfold tails
  split
  · exact tail_subset _
  · exact List.Subset.refl _

structure Place.Within (entries : Entries K V R) (p : Place K V R) : Prop where
  rest : p.rest.Sublist (p.keyDir.list entries)
  vals : p.vals.length ≤ (headVals p.rest).length

def volume (entries : Entries K V R) : Nat :=
  (entries.map fun p => p.2.length + 1).sum

theorem length_le_volume (entries : Entries K V R) : entries.length ≤ volume entries := by
  have hone : ∀ m ∈ entries.map fun p => p.2.length + 1, 1 ≤ m := by
    intro m hm
    obtain ⟨q, -, rfl⟩ := mem_map.mp hm
    exact Nat.le_add_left 1 _
  have hsum := length_le_sum_of_one_le _ hone
  rwa [length_map] at hsum

theorem vals_length_le_volume {entries : Entries K V R} {q : K × List (V × R)}
    (hq : q ∈ entries) : q.2.length ≤ volume entries := by
  have hmem : q.2.length + 1 ∈ entries.map fun p => p.2.length + 1 := mem_map_of_mem hq
  exact (Nat.le_succ _).trans (single_le_sum (by simp) _ hmem)

namespace Place.Within

variable {entries : Entries K V R} {p : Place K V R}

theorem enter {d : Direction} {rest : Entries K V R} (h : rest.Sublist (d.list entries)) :
    Within entries (.enter d rest) :=
  ⟨h, le_rfl⟩

theorem mem (h : p.Within entries) {q : K × List (V × R)} (hq : q ∈ p.rest) : q ∈ entries := by
  have hmem := h.rest.mem hq
  cases hdir : p.keyDir with
  | forward => simpa [hdir, Direction.list] using hmem
  | backward => simpa [hdir, Direction.list] using hmem

theorem rest_length (h : p.Within entries) : p.rest.length ≤ volume entries := by
  have hlist : (p.keyDir.list entries).length = entries.length := by
    cases p.keyDir with
    | forward => rfl
    | backward => exact length_reverse
  exact (h.rest.length_le.trans hlist.le).trans (length_le_volume entries)

theorem vals_length (h : p.Within entries) : p.vals.length ≤ volume entries := by
  refine h.vals.trans ?_
  cases hrest : p.rest with
  | nil => exact Nat.zero_le _
  | cons q rest => exact vals_length_le_volume (h.mem (by simp [hrest]))

variable [LinearOrder K] [LinearOrder V]

theorem apply (h : p.Within entries) (op : Op K V) : (p.apply entries op).Within entries := by
  cases op with
  | stepKey d => exact enter ((tail_sublist _).trans h.rest)
  | seekKey d key => exact enter ((dropWhile_sublist _).trans h.rest)
  | seekKeyExact key => exact enter ((dropWhile_sublist _).trans h.rest)
  | seekKeyWith d predicate => exact enter ((dropWhile_sublist _).trans h.rest)
  | resetKeys d => exact enter (List.Sublist.refl _)
  | stepVal d => exact ⟨h.rest, (tail_sublist _).length_le.trans h.vals⟩
  | seekVal d val => exact ⟨h.rest, (dropWhile_sublist _).length_le.trans h.vals⟩
  | seekValWith d predicate =>
    exact ⟨h.rest, (dropWhile_sublist _).length_le.trans h.vals⟩
  | resetVals d =>
    refine ⟨h.rest, ?_⟩
    cases d with
    | forward => exact le_rfl
    | backward => exact (length_reverse).le

end Place.Within

variable [LinearOrder V] [AddCommMonoid R]

abbrev valueMass (vals : List (V × R)) : V → R :=
  mass id vals

theorem headMass_valueMass (rest : Entries K V R) :
    headMass valueMass rest = valueMass (headVals rest) := by
  cases rest with
  | nil => rfl
  | cons p rest => rfl

variable [LinearOrder K]

structure KeySums (idx : List ι) (d : Direction) (rests : ι → Entries K V R)
    (total : Entries K V R) : Prop where
  sums : Sums d.lt valueMass idx rests total
  each : ∀ i ∈ idx, ∀ p ∈ rests i, Ordered Direction.forward.lt p.2
  ordered : ∀ p ∈ total, Ordered Direction.forward.lt p.2
  nonzero : ∀ p ∈ total, ∀ q ∈ p.2, q.2 ≠ 0

namespace KeySums

variable {idx js : List ι} {d : Direction} {rests rests' : ι → Entries K V R}
  {total total' : Entries K V R}

section

variable (h : KeySums idx d rests total)
include h

theorem mono (hsums : Sums d.lt valueMass idx rests' total')
    (hrests : ∀ i ∈ idx, rests' i ⊆ rests i) (htotal : total' ⊆ total) :
    KeySums idx d rests' total' where
  sums := hsums
  each i hi p hp := h.each i hi p (hrests i hi hp)
  ordered p hp := h.ordered p (htotal hp)
  nonzero p hp := h.nonzero p (htotal hp)

theorem congr (heq : ∀ i ∈ idx, rests' i = rests i) : KeySums idx d rests' total := by
  refine h.mono (h.sums.congr heq) (fun i hi => ?_) (List.Subset.refl _)
  rw [heq i hi]
  exact List.Subset.refl _

theorem dropWhile {P : K → Bool} (hP : Upward (d.lt : K → K → Prop) P) :
    KeySums idx d (fun i => (rests i).dropWhile fun p => !P p.1)
      (total.dropWhile fun p => !P p.1) :=
  h.mono (h.sums.dropWhile hP) (fun _ _ => (dropWhile_sublist _).subset)
    (dropWhile_sublist _).subset

theorem seek (key : K) :
    KeySums idx d (fun i => (rests i).dropWhile fun p => decide (d.lt p.1 key))
      (total.dropWhile fun p => decide (d.lt p.1 key)) := by
  have hdrop := h.dropWhile (upward_of_le key)
  simpa only [Bool.not_not] using hdrop

end

theorem list (h : KeySums idx .forward rests total) (d : Direction) :
    KeySums idx d (fun i => d.list (rests i)) (d.list total) := by
  cases d with
  | forward => exact h
  | backward =>
    refine ⟨h.sums.reverse, fun i hi p hp => ?_, fun p hp => ?_, fun p hp => ?_⟩
    · exact h.each i hi p (mem_reverse.mp hp)
    · exact h.ordered p (mem_reverse.mp hp)
    · exact h.nonzero p (mem_reverse.mp hp)

variable (h : KeySums idx d rests total)
include h

section

variable (hlead : Leading d.lt idx rests js)

include hlead

theorem advance_zero [DecidableEq ι]
    (hzero : (js.map fun i => headMass valueMass (rests i)).sum = 0) :
    KeySums idx d (tails js rests) total :=
  h.mono (h.sums.advance_zero hlead hzero) (fun i _ => tails_subset js rests i)
    (List.Subset.refl _)

theorem advance_top [DecidableEq ι]
    (hne : (js.map fun i => headMass valueMass (rests i)).sum ≠ 0) :
    KeySums idx d (tails js rests) total.tail := by
  obtain ⟨k, b, rest, rfl, -, -, -, hsums⟩ := h.sums.advance_top hlead hne
  exact h.mono hsums (fun i _ => tails_subset js rests i) (tail_subset _)

/-- The values of the cursors that lead add up to those of the first key, if that is where they
stand, and cancel otherwise. -/
theorem enter :
    ∃ vals, Sums Direction.forward.lt id js (fun i => headVals (rests i)) vals ∧
      ((vals = [] ∧ (js.map fun i => headMass valueMass (rests i)).sum = 0) ∨
        (vals ≠ [] ∧ vals = headVals total ∧
          (js.map fun i => headMass valueMass (rests i)).sum ≠ 0)) := by
  have heach : ∀ i ∈ js, Ordered Direction.forward.lt (headVals (rests i)) := by
    intro i hi
    cases hrest : rests i with
    | nil => exact List.Pairwise.nil
    | cons p rest =>
      exact h.each i (hlead.subset hi) p (by simp [hrest])
  have hmass : ∀ v, (js.map fun i => headMass valueMass (rests i)).sum v =
      (js.map fun i => mass id (headVals (rests i)) v).sum := by
    intro v
    have heval := map_list_sum (Pi.evalAddMonoidHom (fun _ : V => R) v)
      (js.map fun i => headMass valueMass (rests i))
    rw [map_map] at heval
    refine heval.trans (congrArg List.sum (map_congr_left fun i _ => ?_))
    exact congrFun (headMass_valueMass (rests i)) v
  by_cases hzero : (js.map fun i => headMass valueMass (rests i)).sum = 0
  · refine ⟨[], ⟨heach, List.Pairwise.nil, by simp, fun v => ?_⟩, .inl ⟨rfl, hzero⟩⟩
    rw [← hmass v, hzero]
    rfl
  classical
  obtain ⟨k, b, rest, rfl, hb, -⟩ := h.sums.advance_top hlead hzero
  have hmem : (k, b) ∈ (k, b) :: rest := by simp
  refine ⟨b, ⟨heach, h.ordered _ hmem, h.nonzero _ hmem, fun v => ?_⟩,
    .inr ⟨?_, rfl, hzero⟩⟩
  · rw [← hmass v, ← hb]
  · rintro rfl
    exact hzero hb.symm

end

/-- A key whose entries cancel is not the first one of the sum. -/
theorem key_ne_of_cancel {k : K} (hleast : Least d.lt idx rests k)
    (hzero : ((idx.filter fun i => decide ((rests i).head?.map Prod.fst = some k)).map fun i =>
      headMass valueMass (rests i)).sum = 0) : total.head?.map Prod.fst ≠ some k := by
  intro hhead
  cases htotal : total with
  | nil => simp [htotal] at hhead
  | cons q rest =>
    obtain rfl : q.1 = k := by simpa [htotal] using hhead
    refine h.sums.nonzero q (by simp [htotal]) ?_
    have hordered := h.sums.ordered
    rw [htotal] at hordered
    rw [← hordered.mass_head valueMass, ← htotal, h.sums.mass_eq, hleast.sum_mass h.sums, hzero]

end KeySums

section

def Batch.entries (b : Batch K V Unit R) : Entries K V R :=
  b.layers.map fun p => (p.1, p.2.weights)

def Batch.sum [DecidableEq R] (idx : List ι) (batches : ι → Batch K V Unit R) :
    Batch K V Unit R :=
  Batch.ofTuples (idx.flatMap fun i => (batches i).layers.tuples)

theorem Batch.weight_sum [DecidableEq R] (idx : List ι) (batches : ι → Batch K V Unit R)
    (x : K × V × Unit) :
    (Batch.sum idx batches).weight x = (idx.map fun i => (batches i).weight x).sum := by
  rw [Batch.sum, Batch.weight_ofTuples, flatMap_def, Weighted.weight_flatten, map_map]
  rfl

theorem mass_entries (b : Layers K V Unit R) (k : K) (v : V) :
    mass valueMass (b.map fun p => (p.1, p.2.weights)) k v = b.weight (k, v, ()) := by
  induction b with
  | nil => rfl
  | cons p b ih =>
    rw [map_cons, mass_cons, Layers.weight_cons, Pi.add_apply, ih]
    congr 1
    split
    · exact Vals.weight_weights p.2 v
    · rfl

variable (b : Batch K V Unit R)

theorem Batch.entries_ordered : Ordered Direction.forward.lt b.entries := by
  refine pairwise_map.mpr ?_
  exact b.isBatch.sorted

variable {p : K × List (V × R)}

theorem Batch.vals_consolidated (hp : p ∈ b.entries) : p.2 ≠ [] ∧ Weighted.Consolidated p.2 := by
  obtain ⟨q, hq, rfl⟩ := mem_map.mp hp
  have hvals := b.isBatch.contents q hq
  exact ⟨by simpa [Vals.weights] using hvals.1, Vals.weights_consolidated hvals⟩

theorem Batch.weight_of_mem_entries (hp : p ∈ b.entries) (v : V) :
    Weighted.weight p.2 v = b.weight (p.1, v, ()) := by
  obtain ⟨q, hq, rfl⟩ := mem_map.mp hp
  rw [Vals.weight_weights]
  exact (Weighted.weight_flat_of_mem b.isBatch Vals.tuples hq (v, ())).symm

theorem Batch.weight_of_not_mem_keys {k : K} (hk : k ∉ b.entries.map Prod.fst) (v : V) :
    b.weight (k, v, ()) = 0 := by
  have hmass : mass valueMass b.entries k = 0 :=
    mass_eq_zero valueMass fun p hp heq => hk (heq ▸ mem_map_of_mem hp)
  exact (mass_entries b.layers k v).symm.trans (congrFun hmass v)

/-- The entries of batches add up to those of their sum. -/
theorem keySums_batches {idx : List ι} {batches : ι → Batch K V Unit R}
    {total : Batch K V Unit R}
    (h : ∀ x, total.weight x = (idx.map fun i => (batches i).weight x).sum) :
    KeySums idx .forward (fun i => (batches i).entries) total.entries where
  sums := by
    refine ⟨fun i _ => (batches i).entries_ordered, total.entries_ordered, fun p hp hzero => ?_,
      fun k => ?_⟩
    · obtain ⟨hne, hcons⟩ := total.vals_consolidated hp
      obtain ⟨q, vals, hvals⟩ := exists_cons_of_ne_nil hne
      have hordered : Ordered Direction.forward.lt p.2 := hcons.sorted
      rw [hvals] at hordered
      have hmass := congrFun hzero q.1
      rw [hvals, valueMass, hordered.mass_head id] at hmass
      exact hcons.nonzero q (by simp [hvals]) hmass
    · funext v
      have heval := map_list_sum (Pi.evalAddMonoidHom (fun _ : V => R) v)
        (idx.map fun i => mass valueMass (batches i).entries k)
      rw [map_map] at heval
      refine (mass_entries total.layers k v).trans ((h (k, v, ())).trans (Eq.trans ?_ heval.symm))
      exact congrArg List.sum (map_congr_left fun i _ => (mass_entries _ k v).symm)
  each i _ p hp := ((batches i).vals_consolidated hp).2.sorted
  ordered p hp := (total.vals_consolidated hp).2.sorted
  nonzero p hp := (total.vals_consolidated hp).2.nonzero

end

structure Fresh (idx : List ι) (d : Direction) (places : ι → Place K V R)
    (total : Entries K V R) : Prop where
  enter : ∀ i ∈ idx, places i = .enter d (places i).rest
  keys : KeySums idx d (fun i => (places i).rest) total

/-- The cursors `js` lead, and those that follow have not moved among their values. The place `p`
is what is left of the sum, entries that cancel included. -/
structure Joined (idx : List ι) (places : ι → Place K V R) (js : List ι) (p : Place K V R) :
    Prop where
  keyDir : ∀ i ∈ idx, (places i).keyDir = p.keyDir
  keys : KeySums idx p.keyDir (fun i => (places i).rest) p.rest
  lead : Leading p.keyDir.lt idx (fun i => (places i).rest) js
  fresh : ∀ i ∈ idx, i ∉ js → places i = .enter p.keyDir (places i).rest
  valDir : ∀ i ∈ js, (places i).valDir = p.valDir
  vals : Sums p.valDir.lt id js (fun i => (places i).vals) p.vals

/-- Whether the keys that lead cancel. -/
def Standing (places : ι → Place K V R) (js : List ι) : Prop :=
  (js.map fun i => headMass valueMass (places i).rest).sum ≠ 0

section

variable {idx js vs : List ι} {d : Direction} {places places' : ι → Place K V R}
  {total : Entries K V R} {p : Place K V R}

theorem Fresh.joined (h : Fresh idx d places total)
    (hlead : Leading d.lt idx (fun i => (places i).rest) js) :
    ∃ vals, Joined idx places js ⟨d, total, .forward, vals⟩ ∧
      ((vals = [] ∧ ¬Standing places js) ∨
        (vals = headVals total ∧ vals ≠ [] ∧ Standing places js)) := by
  obtain ⟨vals, hsums, hvals⟩ := h.keys.enter hlead
  have henter := fun i hi => h.enter i (hlead.subset hi)
  refine ⟨vals, ⟨fun i hi => ?_, h.keys, hlead, fun i hi _ => h.enter i hi, fun i hi => ?_, ?_⟩,
    ?_⟩
  · rw [h.enter i hi]
    rfl
  · rw [henter i hi]
    rfl
  · refine hsums.congr fun i hi => ?_
    rw [henter i hi]
    rfl
  · rcases hvals with ⟨hnil, hzero⟩ | ⟨hne, hhead, hmass⟩
    · exact .inl ⟨hnil, fun hstanding => hstanding hzero⟩
    · exact .inr ⟨hhead, hne, hmass⟩

/-- The cursors that lead step to their next keys. -/
theorem Joined.stepKey [DecidableEq ι] (h : Joined idx places js p)
    (hjs : ∀ i ∈ js, places' i = .enter p.keyDir (places i).rest.tail)
    (hother : ∀ i ∈ idx, i ∉ js → places' i = places i) :
    (Standing places js → Fresh idx p.keyDir places' p.rest.tail) ∧
      (¬Standing places js → Fresh idx p.keyDir places' p.rest) := by
  have hrest : ∀ i ∈ idx, (places' i).rest = tails js (fun i => (places i).rest) i := by
    intro i hi
    by_cases hmem : i ∈ js
    · rw [hjs i hmem, tails, if_pos hmem]
      rfl
    · rw [hother i hi hmem, tails, if_neg hmem]
  have henter : ∀ i ∈ idx, places' i = .enter p.keyDir (places' i).rest := by
    intro i hi
    by_cases hmem : i ∈ js
    · rw [hjs i hmem]
      rfl
    · rw [hother i hi hmem]
      exact h.fresh i hi hmem
  have hkeys : ∀ {total}, KeySums idx p.keyDir (tails js fun i => (places i).rest) total →
      Fresh idx p.keyDir places' total := by
    intro total hkeys
    exact ⟨henter, hkeys.congr hrest⟩
  constructor
  · intro hstanding
    exact hkeys (h.keys.advance_top h.lead hstanding)
  · intro hzero
    exact hkeys (h.keys.advance_zero h.lead (not_not.mp hzero))

theorem KeySums.fresh {rests : ι → Entries K V R} (h : KeySums idx d rests total)
    (hplaces : ∀ i ∈ idx, places i = .enter d (rests i)) : Fresh idx d places total := by
  have hrest : ∀ i ∈ idx, (places i).rest = rests i := by
    intro i hi
    rw [hplaces i hi]
    rfl
  refine ⟨fun i hi => ?_, h.congr hrest⟩
  rw [hrest i hi]
  exact hplaces i hi

/-- Where the cursors are from a key on, if they are near it. -/
theorem fresh_seekKey {k k' : K} (hforward : p.keyDir = .forward)
    (hdir : ∀ i ∈ idx, (places i).keyDir = .forward)
    (hkeys : KeySums idx .forward
      (fun i => (places i).rest.dropWhile fun q => decide (q.1 < k))
      (p.rest.dropWhile fun q => decide (q.1 < k))) (hk : k ≤ k') :
    Fresh idx .forward (fun i => (places i).seekKey k') (p.seekKey k').rest := by
  have hseek := hkeys.seek k'
  change KeySums _ _ (fun i => ((places i).rest.dropWhile _).dropWhile fun q =>
    decide (q.1 < k')) ((p.rest.dropWhile _).dropWhile fun q => decide (q.1 < k')) at hseek
  simp only [dropWhile_lt_dropWhile_lt hk] at hseek
  rw [Place.seekKey_of_forward hforward]
  exact hseek.fresh fun i hi => Place.seekKey_of_forward (hdir i hi) k'

omit [LinearOrder V] [AddCommMonoid R] in
theorem least_seekKey (hdir : ∀ i ∈ idx, (places i).keyDir = .forward) (k : K) :
    Least Direction.forward.lt idx (fun i => ((places i).seekKey k).rest) k := by
  intro i hi q hq
  change q ∈ ((places i).seekKey k).rest.head? at hq
  rw [Place.seekKey_of_forward (hdir i hi)] at hq
  have hnot := head?_dropWhile_not (fun q => decide (q.1 < k)) (places i).rest
  change q ∈ ((places i).rest.dropWhile fun q => decide (q.1 < k)).head? at hq
  rw [Option.mem_def.mp hq] at hnot
  have hle : k ≤ q.1 := by simpa using hnot
  exact hle.eq_or_lt.imp Eq.symm id

/-- From a key on, what is left is the same before and after it was sought. -/
theorem keySums_seekKey {k : K} (hforward : p.keyDir = .forward)
    (h : KeySums idx .forward (fun i => (places i).rest) (p.seekKey k).rest) :
    KeySums idx .forward (fun i => (places i).rest.dropWhile fun q => decide (q.1 < k))
      (p.rest.dropWhile fun q => decide (q.1 < k)) := by
  have hseek := h.seek k
  rw [Place.seekKey_of_forward hforward] at hseek
  change KeySums _ _ _ ((p.rest.dropWhile _).dropWhile fun q => decide (q.1 < k)) at hseek
  rwa [dropWhile_lt_dropWhile_lt le_rfl] at hseek

theorem Joined.moveVals (h : Joined idx places js p) {valDir : Direction}
    {vals : List (V × R)} (hkeys : ∀ i ∈ idx, (places' i).keyDir = (places i).keyDir ∧
      (places' i).rest = (places i).rest)
    (hother : ∀ i ∈ idx, i ∉ js → places' i = places i)
    (hdir : ∀ i ∈ js, (places' i).valDir = valDir)
    (hvals : Sums valDir.lt id js (fun i => (places' i).vals) vals) :
    Joined idx places' js ⟨p.keyDir, p.rest, valDir, vals⟩ where
  keyDir i hi := (hkeys i hi).1.trans (h.keyDir i hi)
  keys := h.keys.congr fun i hi => (hkeys i hi).2
  lead := h.lead.congr fun i hi => (hkeys i hi).2
  fresh i hi hmem := by
    rw [hother i hi hmem]
    exact h.fresh i hi hmem
  valDir := hdir
  vals := hvals

omit [LinearOrder K] in
theorem Standing.congr (hstanding : Standing places js)
    (hrest : ∀ i ∈ js, (places' i).rest = (places i).rest) : Standing places' js := by
  unfold Standing at hstanding ⊢
  rwa [map_congr_left fun i hi => by rw [hrest i hi]]

end

end Feldera.Trace
