import Feldera.Operator.Neighborhood

/-!
The neighborhood of the sum of the local neighborhoods is the neighborhood of the whole
collection. A worker keeps the first and the last rows of its own part only; with weights that do
not cancel, a row of the window of the whole is in the window of every worker that holds the row.
-/

namespace Feldera.Operator.Neighborhood

open Trace OrderedSum List TupleBuilder

section

variable {K V : Type*}

theorem weight_pushRows [LinearOrder K] [LinearOrder V] (l : List ((K ×ₗ V) × ℤ))
    {b : TupleBuilder K V Unit ℤ} (hb : b.Tidy) :
    (pushRows l b).Tidy ∧ ∀ k v, (pushRows l b).done.weight (k, v, ()) =
      b.done.weight (k, v, ()) + mass id l (toLex (k, v)) := by
  induction l generalizing b with
  | nil => exact ⟨hb, fun k v => (add_zero _).symm⟩
  | cons row l ih =>
    obtain ⟨htidy, hweight⟩ :=
      ih (b.tidy_pushRefs (ofLex row.1).1 (ofLex row.1).2 () row.2)
    refine ⟨htidy, fun k v => ?_⟩
    have hrow : (k, v, ()) = ((ofLex row.1).1, (ofLex row.1).2, ()) ↔ row.1 = toLex (k, v) := by
      rw [Prod.mk.injEq, Prod.mk.injEq]
      exact ⟨fun h => congrArg toLex (Prod.ext h.1.symm h.2.1.symm), fun h => by simp [h]⟩
    refine (hweight k v).trans ?_
    rw [weight_pushRefs hb, mass_cons, add_assoc]
    simp only [hrow, id_eq]

/-- An update with another key than the last one starts a new layer. -/
theorem done_pushRefs_of_ne {T R : Type*} [DecidableEq K] [DecidableEq V]
    {b : TupleBuilder K V T R} (hfirst : b.kv = none → b.builder = .new) {key : K}
    (hne : ∀ kv ∈ b.kv, kv.1 ≠ key) (val : V) (time : T) (weight : R) :
    (b.pushRefs key val time weight).done = b.done ++ [(key, [(val, [(time, weight)])])] := by
  obtain ⟨builder, kv⟩ := b
  cases kv with
  | none =>
    obtain rfl : builder = .new := hfirst rfl
    rfl
  | some kv =>
    have hkey : kv.1 ≠ key := hne kv rfl
    simp [pushRefs, done, Builder.pushTimeDiff, Builder.pushVal,
      Builder.pushKey, Builder.done, hkey]

/-- Rows with different keys are pushed as they are. -/
theorem done_pushNumbered [DecidableEq K] [DecidableEq V] (l : List ((ℤ × K × V) × ℤ))
    (hl : l.Pairwise fun row row' => row.1 ≠ row'.1) :
    (pushNumbered l .new).done = zset l ∧
      (pushNumbered l .new).kv = l.getLast?.map fun row => (row.1, ()) := by
  induction l using List.reverseRecOn with
  | nil => exact ⟨rfl, rfl⟩
  | append_singleton l row ih =>
    obtain ⟨hpairs, -, hlast⟩ := pairwise_append.mp hl
    obtain ⟨hdone, hkv⟩ := ih hpairs
    have hpush : pushNumbered (l ++ [row]) .new =
        (pushNumbered l .new).pushRefs row.1 () () row.2 := by
      simp [pushNumbered]
    rw [hpush]
    refine ⟨?_, by rw [List.getLast?_concat]; rfl⟩
    rw [done_pushRefs_of_ne, hdone, zset, zset, map_append]
    · rfl
    · intro hnone
      rw [hkv, Option.map_eq_none_iff, List.getLast?_eq_none_iff] at hnone
      rw [hnone]
      rfl
    · intro kv hmem
      rw [hkv] at hmem
      obtain ⟨row', hrow', rfl⟩ := Option.map_eq_some_iff.mp hmem
      exact hlast row' (mem_of_getLast? hrow') row (mem_singleton_self row)

variable {row : (ℤ × K × V) × ℤ} {l : List ((K ×ₗ V) × ℤ)}

theorem numberBefore_lt (h : row ∈ numberBefore l) : row.1.1 < 0 := by
  obtain ⟨x, hx, rfl⟩ := mem_map.mp h
  have hle := le_snd_of_mem_zipIdx hx
  simp only
  omega

theorem numberAfter_le (h : row ∈ numberAfter l) : 0 ≤ row.1.1 := by
  obtain ⟨x, -, rfl⟩ := mem_map.mp h
  simp only
  omega

theorem pairwise_zipIdx {α : Type*} (l : List α) (n : Nat) :
    (l.zipIdx n).Pairwise fun x y => x.2 ≠ y.2 := by
  have h : ((l.zipIdx n).map Prod.snd).Nodup := by
    rw [zipIdx_map_snd]
    exact nodup_range'
  exact pairwise_map.mp h

theorem neighborhood_pairwise (before after : List ((K ×ₗ V) × ℤ)) :
    ((numberBefore before).reverse ++ numberAfter after).Pairwise
      fun row row' => row.1 ≠ row'.1 := by
  refine pairwise_append.mpr ⟨?_, ?_, ?_⟩
  · refine pairwise_reverse.mpr (pairwise_map.mpr ?_)
    refine (pairwise_zipIdx before 1).imp fun hne heq => hne ?_
    have hindex := congrArg Prod.fst heq
    simp only at hindex
    omega
  · refine pairwise_map.mpr ((pairwise_zipIdx after 0).imp fun hne heq => hne ?_)
    have hindex := congrArg Prod.fst heq
    simp only at hindex
    omega
  · intro row hrow row' hrow' heq
    have hlt := numberBefore_lt (mem_reverse.mp hrow)
    have hle := numberAfter_le hrow'
    rw [heq] at hlt
    omega

end

section

variable {σ K V : Type*} [LinearOrder K] [LinearOrder V] {C : Cursor σ K V ℤ}
  {S : Stance σ K V ℤ} {b : Batch K V Unit ℤ} {s : σ} {rounds : Nat}

def localRows (descr : NeighborhoodDescr K V) (l : List ((K ×ₗ V) × ℤ)) : List ((K ×ₗ V) × ℤ) :=
  (preceding descr l).reverse ++ following descr l

section

variable (hC : C.Lawful b.entries S) (hs : S.firm (.enter .forward b.entries) s)
  (hrounds : b.entries.length < rounds) (descr : NeighborhoodDescr K V)
include hC hs hrounds

theorem weight_localEval (k : K) (v : V) :
    (localEval C rounds (some descr) s).weight (k, v, ()) =
      mass id (localRows descr (rows b)) (toLex (k, v)) := by
  simp only [localEval, collectWindow_eq hC hs hrounds]
  obtain ⟨htidy, hbefore⟩ := weight_pushRows (preceding descr (rows b)).reverse
    (tidy_new (K := K) (V := V) (T := Unit) (R := ℤ))
  rw [(weight_pushRows _ htidy).2, hbefore, localRows, mass_append]
  exact congrArg (· + _) (zero_add _)

theorem numberedEval_eq :
    numberedEval C rounds (some descr) s = zset (neighborhood descr (rows b)) := by
  simp only [numberedEval, collectWindow_eq hC hs hrounds]
  have hpush : pushNumbered (numberAfter (following descr (rows b)))
      (pushNumbered (numberBefore (preceding descr (rows b))).reverse .new) =
      pushNumbered (neighborhood descr (rows b)) .new :=
    (foldl_append).symm
  simp only [hpush]
  exact (done_pushNumbered _ (neighborhood_pairwise _ _)).1

end

end

section

variable {ι K V : Type*} [LinearOrder K] [LinearOrder V] (descr : NeighborhoodDescr K V)
  (l : List ((K ×ₗ V) × ℤ))

theorem filter_isPast_localRows :
    (localRows descr l).filter (fun row => descr.isPast row.1) =
      (l.filter fun row => descr.isPast row.1).take (descr.after + 1) := by
  have hnone : (preceding descr l).reverse.filter (fun row => descr.isPast row.1) = [] := by
    refine filter_eq_nil_iff.mpr fun row hrow => ?_
    have hmem := mem_of_mem_take (mem_reverse.mp hrow)
    simpa using (mem_filter.mp (mem_reverse.mp hmem)).2
  rw [localRows, filter_append, hnone, nil_append]
  refine filter_eq_self.mpr fun row hrow => ?_
  exact (mem_filter.mp (mem_of_mem_take hrow)).2

theorem filter_not_isPast_localRows :
    ((localRows descr l).filter fun row => !descr.isPast row.1).reverse =
      (l.filter fun row => !descr.isPast row.1).reverse.take descr.before := by
  have hnone : (following descr l).filter (fun row => !descr.isPast row.1) = [] := by
    refine filter_eq_nil_iff.mpr fun row hrow => ?_
    simpa using (mem_filter.mp (mem_of_mem_take hrow)).2
  have hall : (preceding descr l).reverse.filter (fun row => !descr.isPast row.1) =
      (preceding descr l).reverse := by
    refine filter_eq_self.mpr fun row hrow => ?_
    have hmem := mem_of_mem_take (mem_reverse.mp hrow)
    exact (mem_filter.mp (mem_reverse.mp hmem)).2
  rw [localRows, filter_append, hnone, append_nil, hall, reverse_reverse]
  rfl

variable {descr} in
theorem isPast_of_le {row row' : K ×ₗ V} (h : row ≤ row') (hpast : descr.isPast row = true) :
    descr.isPast row' = true := by
  unfold NeighborhoodDescr.isPast at hpast ⊢
  split
  · rfl
  · next key hanchor =>
    rw [hanchor] at hpast
    exact decide_eq_true ((of_decide_eq_true hpast).trans h)

theorem localRows_ordered {l : List ((K ×ₗ V) × ℤ)} (hl : Ordered Direction.forward.lt l) :
    Ordered Direction.forward.lt (localRows descr l) := by
  have hbefore : (preceding descr l).reverse.Sublist
      (l.filter fun row => !descr.isPast row.1) := by
    have h := (take_sublist descr.before
      (l.filter fun row => !descr.isPast row.1).reverse).reverse
    rwa [reverse_reverse] at h
  have hafter : (following descr l).Sublist (l.filter fun row => descr.isPast row.1) :=
    take_sublist _ _
  refine pairwise_append.mpr ⟨?_, ?_, fun row hrow row' hrow' => ?_⟩
  · exact List.Pairwise.sublist (hbefore.trans filter_sublist) hl
  · exact List.Pairwise.sublist (hafter.trans filter_sublist) hl
  have hnot : descr.isPast row.1 = false := by
    simpa using (mem_filter.mp (hbefore.subset hrow)).2
  have hpast := (mem_filter.mp (hafter.subset hrow')).2
  refine (lt_or_ge row.1 row'.1).resolve_right fun hle => ?_
  rw [isPast_of_le hle hpast] at hnot
  cases hnot

variable {descr} {idx : List ι} {parts : ι → List ((K ×ₗ V) × ℤ)}
  {whole gathered : List ((K ×ₗ V) × ℤ)}

/-- Truncation by the workers does not change the window. -/
theorem neighborhood_gathered (hwhole : Sums Direction.forward.lt id idx parts whole)
    (hgathered : Sums Direction.forward.lt id idx (fun i => localRows descr (parts i)) gathered)
    (hpos : ∀ i ∈ idx, ∀ row ∈ parts i, 0 < row.2) :
    neighborhood descr gathered = neighborhood descr whole := by
  have hfollowing : following descr gathered = following descr whole := by
    refine (hwhole.filter descr.isPast).take Function.injective_id ?_
      (fun i hi row hrow => hpos i hi row (mem_of_mem_filter hrow)) fun _ _ => le_rfl
    exact (hgathered.filter descr.isPast).congr fun i _ =>
      (filter_isPast_localRows descr (parts i)).symm
  have hpreceding : preceding descr gathered = preceding descr whole := by
    -- the same from the other end
    have hwhole' : Sums Direction.backward.lt id idx
        (fun i => ((parts i).filter fun row => !descr.isPast row.1).reverse)
        (whole.filter fun row => !descr.isPast row.1).reverse :=
      (hwhole.filter fun row => !descr.isPast row).reverse
    have hgathered' : Sums Direction.backward.lt id idx
        (fun i => ((localRows descr (parts i)).filter fun row => !descr.isPast row.1).reverse)
        (gathered.filter fun row => !descr.isPast row.1).reverse :=
      (hgathered.filter fun row => !descr.isPast row).reverse
    refine hwhole'.take Function.injective_id ?_ (fun i hi row hrow => ?_) fun _ _ => le_rfl
    · exact hgathered'.congr fun i _ => (filter_not_isPast_localRows descr (parts i)).symm
    · exact hpos i hi row (mem_of_mem_filter (mem_reverse.mp hrow))
  rw [neighborhood, neighborhood, hfollowing, hpreceding]

end

section

variable {K V : Type*} [LinearOrder K] [LinearOrder V] (filter : KeyFilter K V ℤ)

def localNeighborhood (batches : List (Batch K V Unit ℤ))
    (descr : Option (NeighborhoodDescr K V)) : Layers K V Unit ℤ :=
  localEval (Snapshot.cursor filter batches) ((Snapshot.total batches).entries.length + 1) descr
    (Snapshot.start filter batches)

def numberedNeighborhood (batches : List (Batch K V Unit ℤ))
    (descr : Option (NeighborhoodDescr K V)) : Layers (ℤ × K × V) Unit Unit ℤ :=
  numberedEval (Snapshot.cursor filter batches) ((Snapshot.total batches).entries.length + 1) descr
    (Snapshot.start filter batches)

variable {filter}

theorem rows_pos {b : Batch K V Unit ℤ} (hpos : ∀ x, 0 ≤ b.weight x) {row : (K ×ₗ V) × ℤ}
    (hrow : row ∈ rows b) : 0 < row.2 := by
  have hmass := (rows_ordered b).mass_of_mem id hrow
  have hweight : mass id (rows b) row.1 = b.weight ((ofLex row.1).1, (ofLex row.1).2, ()) :=
    mass_rows b _ _
  have hnonneg := hpos ((ofLex row.1).1, (ofLex row.1).2, ())
  rw [← hweight, hmass] at hnonneg
  exact lt_of_le_of_ne hnonneg (rows_nonzero b hrow).symm

/-- The collection is split among the workers in any way, a record perhaps among several of them,
and no part has negative weights. Then numbering the sum of the local neighborhoods, in whatever
batches it is stored, gives the neighborhood of the whole collection. -/
theorem numberedNeighborhood_gathered {n : Nat} (traces : Fin n → List (Batch K V Unit ℤ))
    (hpos : ∀ w x, 0 ≤ Snapshot.weight (traces w) x) (descr : Option (NeighborhoodDescr K V))
    (gathered : List (Batch K V Unit ℤ))
    (hgathered : ∀ x, Snapshot.weight gathered x =
      ((List.finRange n).map fun w => (localNeighborhood filter (traces w) descr).weight x).sum)
    (whole : Batch K V Unit ℤ)
    (hwhole : ∀ x, whole.weight x =
      ((List.finRange n).map fun w => Snapshot.weight (traces w) x).sum) :
    numberedNeighborhood filter gathered descr =
      zset ((descr.map fun descr => neighborhood descr (rows whole)).getD []) := by
  cases descr with
  | none => rfl
  | some descr =>
    have hnumbered := numberedEval_eq (Snapshot.lawful filter gathered)
      (Snapshot.firm_start filter gathered) (Nat.lt_succ_self _) descr
    refine hnumbered.trans (congrArg zset ?_)
    have hparts : Sums Direction.forward.lt id (List.finRange n)
        (fun w => rows (Snapshot.total (traces w))) (rows whole) := by
      refine sums_rows (fun w _ => rows_ordered _) fun k v => (hwhole (k, v, ())).trans ?_
      refine congrArg List.sum (map_congr_left fun w _ => ?_)
      rw [mass_rows, Snapshot.weight_total]
    refine neighborhood_gathered hparts (sums_rows (fun w _ => ?_) fun k v => ?_) ?_
    · exact localRows_ordered descr (rows_ordered _)
    · rw [Snapshot.weight_total, hgathered]
      refine congrArg List.sum (map_congr_left fun w _ => ?_)
      exact weight_localEval (Snapshot.lawful filter (traces w))
        (Snapshot.firm_start filter (traces w)) (Nat.lt_succ_self _) descr k v
    · intro w _ row hrow
      refine rows_pos (fun x => ?_) hrow
      rw [Snapshot.weight_total]
      exact hpos w x

def sharedKey : Fin 2 → List ((ℕ × ℕ × Unit) × ℤ)
  | 0 => [((1, 0, ()), 1), ((2, 0, ()), 2)]
  | 1 => [((2, 0, ()), 1), ((3, 0, ()), 1)]

theorem numberedNeighborhood_sharedKey :
    let descr : NeighborhoodDescr ℕ ℕ := ⟨some 2, 0, 1, 0⟩
    let traces w := [Batch.ofTuples (sharedKey w)]
    numberedNeighborhood .none [Batch.ofTuples ((List.finRange 2).flatMap fun w =>
        (localNeighborhood .none (traces w) (some descr)).tuples)] (some descr) =
      zset [((-1, 1, 0), 1), ((0, 2, 0), 3)] := by
  intro descr traces
  have hone : ∀ (l : List ((ℕ × ℕ × Unit) × ℤ)) x,
      Snapshot.weight [Batch.ofTuples l] x = Weighted.weight l x := fun l x =>
    (add_zero _).trans (Batch.weight_ofTuples l x)
  refine (numberedNeighborhood_gathered traces (fun w x => ?_) (some descr) _ (fun x => ?_)
    (Batch.ofTuples ((List.finRange 2).flatMap sharedKey)) fun x => ?_).trans (by decide +kernel)
  · rw [hone]
    refine sum_nonneg fun y hy => ?_
    obtain ⟨p, hp, rfl⟩ := mem_map.mp hy
    have hnonneg : ∀ w, ∀ p ∈ sharedKey w, 0 ≤ p.2 := by decide
    split
    · exact hnonneg w p hp
    · exact le_rfl
  · rw [hone, flatMap_def, Weighted.weight_flatten, map_map]
    rfl
  · rw [Batch.weight_ofTuples, flatMap_def, Weighted.weight_flatten, map_map]
    exact congrArg List.sum (map_congr_left fun w _ => (hone _ x).symm)

end

end Feldera.Operator.Neighborhood
