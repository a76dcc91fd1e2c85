import Feldera.Trace.CursorList
import Feldera.Trace.LayerCursor

/-!
A `CursorList` over lawful cursors is a lawful cursor over the sum of their entries. Its
indexes are those of the cursors that lead. The loop that skips values keeps the place of
the sum, since what it drops cancels; the one that skips keys ends where the sum begins.
-/

namespace Feldera.Trace

open OrderedSum
open List hiding tails

variable {ι α β σ K V R : Type*} {n : Nat}

section

variable [LinearOrder α] (indexes : List ι) (g : ι → Option α)

theorem filterMap_filter_eq (m : α) :
    ((indexes.filterMap fun i => (g i).map fun a => (i, a)).filter fun q =>
      decide (q.2 = m)).map Prod.fst = indexes.filter fun i => decide (g i = some m) := by
  induction indexes with
  | nil => rfl
  | cons i indexes ih =>
    cases hg : g i with
    | none => simp [hg, ih]
    | some a =>
      by_cases ham : a = m
      · simp [hg, ham, ih]
      · simp [hg, ham, ih]

theorem findMinIndexes_cases :
    (findMinIndexes (indexes.filterMap fun i => (g i).map fun a => (i, a)) = [] ∧
      ∀ i ∈ indexes, g i = none) ∨
    ∃ m, findMinIndexes (indexes.filterMap fun i => (g i).map fun a => (i, a)) =
        (indexes.filter fun i => decide (g i = some m)) ∧
      (∀ i ∈ indexes, ∀ a ∈ g i, m ≤ a) ∧ ∃ i ∈ indexes, g i = some m := by
  by_cases hnil : (indexes.filterMap fun i => (g i).map fun a => (i, a)) = []
  · refine .inl ⟨by rw [hnil]; rfl, fun i hi => ?_⟩
    have hnone := filterMap_eq_nil_iff.mp hnil i hi
    simpa using hnone
  obtain ⟨m, hfind, hle, q, hq, hqm⟩ := findMinIndexes_spec hnil
  have hmem : ∀ i ∈ indexes, ∀ a ∈ g i,
      (i, a) ∈ indexes.filterMap fun i => (g i).map fun a => (i, a) := by
    intro i hi a ha
    exact mem_filterMap.mpr ⟨i, hi, by rw [Option.mem_def.mp ha]; rfl⟩
  obtain ⟨i, hi, hgi⟩ := mem_filterMap.mp hq
  obtain ⟨a, ha, rfl⟩ := Option.map_eq_some_iff.mp hgi
  refine .inr ⟨m, hfind.trans (filterMap_filter_eq indexes g m),
    fun i hi a ha => hle _ (hmem i hi a ha), i, hi, hqm ▸ ha⟩

/-- The best indexes are those that lead. -/
theorem Direction.best_leading (d : Direction) {indexes : List ι} {g : ι → Option α}
    {ls : ι → List (α × β)} (hg : ∀ i ∈ indexes, g i = (ls i).head?.map Prod.fst) :
    Leading d.lt indexes ls (d.best indexes g) ∧
      (d.best indexes g = [] → ∀ i ∈ indexes, ls i = []) ∧
      ∀ i ∈ d.best indexes g, i ∈ indexes ∧ ls i ≠ [] := by
  have hnone : ∀ i ∈ indexes, g i = none → ls i = [] := by
    intro i hi hi'
    rw [hg i hi] at hi'
    simpa using hi'
  -- the same argument in both orders
  have hcases : (d.best indexes g = [] ∧ ∀ i ∈ indexes, g i = none) ∨
      ∃ m, d.best indexes g = (indexes.filter fun i => decide (g i = some m)) ∧
        (∀ i ∈ indexes, ∀ a ∈ g i, a = m ∨ d.lt m a) ∧ ∃ i ∈ indexes, g i = some m := by
    cases d with
    | forward =>
      rcases findMinIndexes_cases indexes g with hnil | ⟨m, hbest, hle, hex⟩
      · exact .inl hnil
      · exact .inr ⟨m, hbest, fun i hi a ha => (hle i hi a ha).eq_or_lt.imp Eq.symm id, hex⟩
    | backward =>
      have hdual := findMinIndexes_cases indexes fun i => (g i).map OrderDual.toDual
      simp only [Option.map_map, Function.comp_def] at hdual
      rcases hdual with ⟨hnil, hall⟩ | ⟨m, hbest, hle, i, hi, him⟩
      · exact .inl ⟨hnil, fun i hi => by simpa using hall i hi⟩
      refine .inr ⟨OrderDual.ofDual m, hbest.trans ?_, fun i hi a ha => ?_, i, hi, ?_⟩
      · refine filter_congr fun i _ => ?_
        cases g i with
        | none => simp
        | some a =>
          simp only [Option.map_some, Option.some.injEq]
          rfl
      · have hma := hle i hi (OrderDual.toDual a) (by rw [Option.mem_def.mp ha]; rfl)
        exact (OrderDual.le_toDual.mp hma).eq_or_lt
      · obtain ⟨a, ha, rfl⟩ := Option.map_eq_some_iff.mp him
        exact ha
  rcases hcases with ⟨hnil, hall⟩ | ⟨m, hbest, hle, i, hi, him⟩
  · have hls := fun i hi => hnone i hi (hall i hi)
    rw [hnil]
    exact ⟨.inl ⟨nil_subset _, hls⟩, fun _ => hls, by simp⟩
  have hfilter : d.best indexes g =
      indexes.filter fun i => decide ((ls i).head?.map Prod.fst = some m) := by
    rw [hbest]
    exact filter_congr fun i hi => by rw [hg i hi]
  have hne : d.best indexes g ≠ [] := by
    rw [hbest]
    exact ne_nil_of_mem (mem_filter.mpr ⟨hi, by simp [him]⟩)
  refine ⟨.inr ⟨m, fun i hi p hp => ?_, hne, hfilter⟩, fun hnil => absurd hnil hne,
    fun j hj => ?_⟩
  · exact hle i hi p.1 (by rw [hg i hi, Option.mem_def.mp hp]; rfl)
  · rw [hfilter, mem_filter] at hj
    refine ⟨hj.1, fun hnil => ?_⟩
    rw [hnil] at hj
    simp at hj

end

namespace CursorList

variable [LinearOrder K] [LinearOrder V] [AddCommMonoid R]
  {C : Fin n → Cursor σ K V R} {entries : Fin n → Entries K V R} {S : Fin n → Stance σ K V R}
  {rel : Fin n → Place K V R → σ → Prop} {places : Fin n → Place K V R} {p : Place K V R}
  {l : CursorList n σ R}

variable (C entries S rel) in
structure Keeps (js : List (Fin n)) : Prop where
  loose : ∀ i ∈ js, ∀ {p s}, rel i p s → (S i).loose p s
  onValues : ∀ i ∈ js, ∀ {p s} (op : Op K V), rel i p s → p.Permits op → op.OnValues →
    rel i (p.apply (entries i) op) ((C i).apply s op).1

/-- The cursors `js` show their places, the others will be where they should from `k` on. -/
def LooseFrom (S : Fin n → Stance σ K V R) (js : List (Fin n)) (k : K) (i : Fin n)
    (p : Place K V R) (s : σ) : Prop :=
  (i ∈ js → (S i).loose p s) ∧ (i ∉ js → (S i).near k p s)

section

variable (hC : ∀ i, (C i).Lawful (entries i) (S i)) (js : List (Fin n))
include hC

theorem keeps_firm :
    Keeps C entries S (fun i => (S i).firm) js where
  loose i _ _ _ h := (hC i).loose_of_firm h
  onValues i _ _ _ op h hop hvalues := (hC i).apply op h hop fun k hk => by
    rw [hk] at hvalues
    exact hvalues

theorem keeps_loose (k : K) :
    Keeps C entries S (LooseFrom S js k) js where
  loose _ hi _ _ h := h.1 hi
  onValues i hi _ _ op h hop hvalues :=
    ⟨fun _ => (hC i).apply_loose op (h.1 hi) hop hvalues, fun hno => absurd hi hno⟩

end

variable (C entries rel places p l) in
/-- The cursors stand at the places, and the indexes are up to date. -/
structure Moving : Prop where
  rel : ∀ i, rel i (places i) (l.cursors i)
  within : ∀ i, (places i).Within (entries i)
  joined : Joined (List.finRange n) places l.currentKey p
  keyed : ∀ i ∈ l.currentKey, (places i).rest ≠ []
  exhausted : l.currentKey = [] → ∀ i, (places i).rest = []
  values : l.currentVal =
    p.valDir.best l.currentKey fun i => (C i).getVal (l.cursors i)

variable (C entries rel places p l) in
structure Settled : Prop
    extends Moving C entries rel places p l where
  standing : l.currentKey ≠ [] → Standing places l.currentKey
  weight : l.currentVal ≠ [] →
    l.weight ≠ 0 ∧ l.weight = (l.currentVal.map fun i => headMass id (places i).vals).sum

section

variable (hC : ∀ i, (C i).Lawful (entries i) (S i)) (hkeeps : Keeps C entries S rel l.currentKey)
include hC hkeeps

section

variable (h : Moving C entries rel places p l)
include h

theorem Moving.val_leading :
    Leading p.valDir.lt l.currentKey (fun i => (places i).vals) l.currentVal ∧
      (l.currentVal = [] → ∀ i ∈ l.currentKey, (places i).vals = []) ∧
      ∀ i ∈ l.currentVal, i ∈ l.currentKey ∧ (places i).vals ≠ [] := by
  rw [h.values]
  exact p.valDir.best_leading fun i hi =>
    (hC i).getVal (hkeeps.loose i hi (h.rel i)) (h.keyed i hi)

/-- The weights of the current values add up to those of the entries. -/
theorem Moving.sumWeights_eq :
    l.sumWeights C = (l.currentVal.map fun i => headMass id (places i).vals).sum := by
  unfold sumWeights
  rw [flatMap_def, sum_flatten, map_map]
  refine congrArg List.sum (map_congr_left fun i hi => ?_)
  obtain ⟨hkey, hvals⟩ := (h.val_leading hC hkeeps).2.2 i hi
  obtain ⟨q, vals, hcons⟩ := exists_cons_of_ne_nil hvals
  have htimes := (hC i).mapTimes (hkeeps.loose i hkey (h.rel i)) (h.keyed i hkey) q
    (by rw [hcons]; rfl)
  rw [hcons]
  exact htimes

/-- A current value that does not cancel is the first one of the sum. -/
theorem Moving.vals_ne_nil
    (hne : (l.currentVal.map fun i => headMass id (places i).vals).sum ≠ 0) : p.vals ≠ [] := by
  obtain ⟨v, w, rest, hvals, -⟩ := h.joined.vals.advance_top (h.val_leading hC hkeeps).1 hne
  rw [hvals]
  exact cons_ne_nil _ _

theorem Moving.vals_eq_nil (hnil : l.currentVal = []) : p.vals = [] :=
  h.joined.vals.eq_nil ((h.val_leading hC hkeeps).2.1 hnil)

omit hC in
theorem Moving.moveVals {js : List (Fin n)} (hjs : js ⊆ l.currentKey) (op : Op K V)
    (hvalues : op.OnValues) (hop : ∀ i ∈ js, (places i).Permits op) {valDir : Direction}
    {vals : List (V × R)} (weight : R)
    (hdir : ∀ i ∈ l.currentKey, (if i ∈ js then (places i).apply (entries i) op
      else places i).valDir = valDir)
    (hvals : Sums valDir.lt id l.currentKey (fun i =>
      (if i ∈ js then (places i).apply (entries i) op else places i).vals) vals) :
    Moving C entries rel
      (fun i => if i ∈ js then (places i).apply (entries i) op else places i)
      ⟨p.keyDir, p.rest, valDir, vals⟩
      (bestVals C valDir
        ({ l with weight := weight }.move js fun i s => ((C i).apply s op).1)) := by
  have hkeys : ∀ i, (if i ∈ js then (places i).apply (entries i) op else places i).keyDir =
      (places i).keyDir ∧
      (if i ∈ js then (places i).apply (entries i) op else places i).rest = (places i).rest := by
    intro i
    split
    · cases op with
      | stepVal d => exact ⟨rfl, rfl⟩
      | seekVal d val => exact ⟨rfl, rfl⟩
      | seekValWith d predicate => exact ⟨rfl, rfl⟩
      | resetVals d => exact ⟨rfl, rfl⟩
      | _ => exact hvalues.elim
    · exact ⟨rfl, rfl⟩
  refine ⟨fun i => ?_, fun i => ?_, ?_, fun i hi => ?_, fun hnil i => ?_, rfl⟩
  · by_cases hi : i ∈ js
    · simp only [bestVals, move, if_pos hi]
      exact hkeeps.onValues i (hjs hi) op (h.rel i) (hop i hi) hvalues
    · simp only [bestVals, move, if_neg hi]
      exact h.rel i
  · split
    · exact (h.within i).apply _
    · exact h.within i
  · refine h.joined.moveVals (fun i _ => hkeys i) (fun i _ hi => ?_) hdir hvals
    exact if_neg fun hmem => hi (hjs hmem)
  · rw [(hkeys i).2]
    exact h.keyed i hi
  · rw [(hkeys i).2]
    exact h.exhausted hnil i

/-- The values that lead cancel, and the cursors step over them. -/
theorem Moving.stepCancelled (weight : R) (hzero : l.sumWeights C = 0) :
    Moving C entries rel
      (fun i => if i ∈ l.currentVal then (places i).apply (entries i) (.stepVal p.valDir)
        else places i) p
      (bestVals C p.valDir ({ l with weight := weight }.move l.currentVal fun i =>
        (C i).stepVal p.valDir)) := by
  obtain ⟨hlead, -, hsub⟩ := h.val_leading hC hkeeps
  refine h.moveVals hkeeps (fun i hi => (hsub i hi).1) (.stepVal p.valDir) trivial
    (fun i hi => (h.joined.valDir i (hsub i hi).1).symm) weight (fun i hi => ?_) ?_
  · have hdir := h.joined.valDir i hi
    split
    · exact hdir
    · exact hdir
  · rw [h.sumWeights_eq hC hkeeps] at hzero
    refine (h.joined.vals.advance_zero hlead hzero).congr fun i _ => ?_
    unfold tails
    split <;> rfl

end

variable [DecidableEq R]

omit hkeeps in
theorem Moving.skipVals (h : Moving C entries rel places p l)
    (hkeeps : Keeps C entries S rel l.currentKey) {limit : Nat}
    (hlimit : (l.currentKey.map fun i => (places i).vals.length).sum < limit) :
    ∃ places', Moving C entries rel places' p (l.skipZeroWeightVals C p.valDir limit) ∧
      (l.skipZeroWeightVals C p.valDir limit).currentKey = l.currentKey ∧
      (∀ i, (places' i).rest = (places i).rest) ∧
      ((l.skipZeroWeightVals C p.valDir limit).currentVal ≠ [] →
        (l.skipZeroWeightVals C p.valDir limit).weight ≠ 0 ∧
        (l.skipZeroWeightVals C p.valDir limit).weight =
          ((l.skipZeroWeightVals C p.valDir limit).currentVal.map fun i =>
            headMass id (places' i).vals).sum) := by
  induction limit generalizing places l with
  | zero => omega
  | succ limit ih =>
    unfold skipZeroWeightVals
    by_cases hnil : l.currentVal = []
    · rw [if_pos hnil]
      exact ⟨places, h, rfl, fun _ => rfl, fun hne => absurd hnil hne⟩
    rw [if_neg hnil]
    by_cases hzero : l.sumWeights C = 0
    · rw [if_pos hzero]
      obtain ⟨hlead, -, hsub⟩ := h.val_leading hC hkeeps
      have hstep := h.stepCancelled hC hkeeps (l.sumWeights C) hzero
      have hshorter := hlead.length_lt (by
        obtain ⟨i, hi⟩ := exists_mem_of_ne_nil _ hnil
        exact ⟨i, hsub i hi⟩)
      obtain ⟨places', hmoving, hkey, hrest, hweight⟩ := ih hstep hkeeps (by
        refine lt_of_le_of_lt (le_of_eq ?_) (lt_of_lt_of_le hshorter (Nat.le_of_lt_succ hlimit))
        refine congrArg List.sum (map_congr_left fun i _ => ?_)
        unfold tails
        split <;> rfl)
      refine ⟨places', hmoving, hkey, fun i => (hrest i).trans ?_, hweight⟩
      split <;> rfl
    · rw [if_neg hzero]
      refine ⟨places, ⟨h.rel, h.within, h.joined, h.keyed, h.exhausted, h.values⟩, rfl,
        fun _ => rfl, fun _ => ⟨hzero, h.sumWeights_eq hC hkeeps⟩⟩

end

section

omit [LinearOrder K] [LinearOrder V] [AddCommMonoid R] in
theorem sum_le_volume (f : Fin n → Nat) (hf : ∀ i, f i ≤ volume (entries i))
    {js : List (Fin n)} (hjs : js.Sublist (finRange n)) :
    (js.map f).sum ≤ ((finRange n).map fun i => volume (entries i)).sum :=
  (sum_le_sum fun i _ => hf i).trans
    (List.Sublist.sum_le_sum (hjs.map _) fun _ _ => Nat.zero_le _)

theorem Moving.currentKey_sublist (h : Moving C entries rel places p l) :
    l.currentKey.Sublist (finRange n) := by
  rcases h.joined.lead with ⟨-, hempty⟩ | ⟨k, -, -, hfilter⟩
  · cases hkeys : l.currentKey with
    | nil => exact nil_sublist _
    | cons i js =>
      exact absurd (hempty i (mem_finRange i)) (h.keyed i (by simp [hkeys]))
  · rw [hfilter]
    exact filter_sublist

variable {limit : Nat} {d : Direction} {total : Entries K V R}

theorem Moving.vals_lt (h : Moving C entries rel places p l)
    (hlimit : ((finRange n).map fun i => volume (entries i)).sum < limit) :
    (l.currentKey.map fun i => (places i).vals.length).sum < limit :=
  lt_of_le_of_lt (sum_le_volume _ (fun i => (h.within i).vals_length) h.currentKey_sublist)
    hlimit

variable (hC : ∀ i, (C i).Lawful (entries i) (S i))
include hC

theorem firm_move (hfirm : ∀ i, (S i).firm (places i) (l.cursors i)) (js : List (Fin n))
    (op : Op K V) (hexact : ∀ k, op ≠ .seekKeyExact k)
    (hop : ∀ i ∈ js, (places i).Permits op) (i : Fin n) :
    (S i).firm (if i ∈ js then (places i).apply (entries i) op else places i)
      ((l.move js fun i s => ((C i).apply s op).1).cursors i) := by
  by_cases hi : i ∈ js
  · simp only [move, if_pos hi]
    exact (hC i).apply op (hfirm i) (hop i hi) hexact
  · simp only [move, if_neg hi]
    exact hfirm i

/-- The keys that lead cancel, and the cursors step over them. -/
theorem Moving.stepKeys (h : Moving C entries (fun i => (S i).firm) places p l)
    (hcancel : ¬Standing places l.currentKey) :
    ∃ places', (∀ i, (S i).firm (places' i)
        ((l.move l.currentKey fun i => (C i).stepKey p.keyDir).cursors i)) ∧
      (∀ i, (places' i).Within (entries i)) ∧
      Fresh (finRange n) p.keyDir places' p.rest ∧
      ∀ i, (places' i).rest = tails l.currentKey (fun i => (places i).rest) i := by
  have hdir := fun i => h.joined.keyDir i (mem_finRange i)
  refine ⟨fun i => if i ∈ l.currentKey then (places i).apply (entries i) (.stepKey p.keyDir)
    else places i, ?_, fun i => ?_, ?_, fun i => ?_⟩
  · exact firm_move hC h.rel l.currentKey (.stepKey p.keyDir) nofun fun i _ => (hdir i).symm
  · dsimp only
    split
    · exact (h.within i).apply _
    · exact h.within i
  · refine (h.joined.stepKey (fun i hi => ?_) fun i _ hi => if_neg hi).2 hcancel
    rw [if_pos hi]
    simp only [Place.apply, hdir i]
  · dsimp only [tails]
    split <;> rfl

variable (hlimit : ((List.finRange n).map fun i => volume (entries i)).sum < limit)
  (hfirm : ∀ i, (S i).firm (places i) (l.cursors i)) (hwithin : ∀ i, (places i).Within (entries i))
  (hfresh : Fresh (List.finRange n) d places total)
include hfirm hwithin hfresh

theorem moving_bestKeys :
    ∃ vals, Moving C entries (fun i => (S i).firm) places ⟨d, total, .forward, vals⟩
        (bestKeys C d l) ∧
      ((vals = [] ∧ ¬Standing places (bestKeys C d l).currentKey) ∨
        (vals = headVals total ∧ vals ≠ [] ∧ Standing places (bestKeys C d l).currentKey)) := by
  have hkeys : ∀ i ∈ finRange n,
      (C i).getKey (l.cursors i) = (places i).rest.head?.map Prod.fst :=
    fun i _ => (hC i).getKey ((hC i).loose_of_firm (hfirm i))
  obtain ⟨hlead, hnil, hsub⟩ := d.best_leading hkeys
  obtain ⟨vals, hjoined, hvals⟩ := hfresh.joined hlead
  exact ⟨vals, ⟨hfirm, hwithin, hjoined, fun i hi => (hsub i hi).2,
    fun hempty i => hnil hempty i (mem_finRange i), rfl⟩, hvals⟩

variable [DecidableEq R]
include hlimit

/-- Skipping keys ends at the first key of the sum. -/
theorem settled_skipKeys {rounds : Nat}
    (hrounds : ((finRange n).map fun i => (places i).rest.length).sum < rounds) :
    ∃ places', Settled C entries (fun i => (S i).firm) places' (.enter d total)
      (skipZeroWeightKeys C limit d rounds (bestKeys C d l)) := by
  induction rounds generalizing places l with
  | zero => omega
  | succ rounds ih =>
    obtain ⟨vals, hmoving, hvals⟩ := moving_bestKeys hC hfirm hwithin hfresh
    have hkeeps := keeps_firm hC (bestKeys C d l).currentKey
    unfold skipZeroWeightKeys
    by_cases hnil : (bestKeys C d l).currentKey = []
    · rw [if_pos hnil]
      -- no cursor has a key left, and neither has the sum
      have htotal : total = [] :=
        hmoving.joined.keys.sums.eq_nil fun i _ => hmoving.exhausted hnil i
      have hempty : vals = [] := by
        rcases hvals with ⟨hv, -⟩ | ⟨-, -, hstanding⟩
        · exact hv
        · rw [hnil] at hstanding
          exact absurd rfl hstanding
      subst htotal hempty
      refine ⟨places, hmoving, fun hne => absurd hnil hne, fun hne => ?_⟩
      obtain ⟨i, hi⟩ := exists_mem_of_ne_nil _ hne
      have hkey := ((hmoving.val_leading hC hkeeps).2.2 i hi).1
      rw [hnil] at hkey
      exact absurd hkey not_mem_nil
    · rw [if_neg hnil]
      obtain ⟨places', hmoving', hkey, hrest, hweight⟩ :=
        hmoving.skipVals hC hkeeps (hmoving.vals_lt hlimit)
      change Moving C entries _ places' _
        (skipZeroWeightVals C .forward limit (bestKeys C d l)) at hmoving'
      change (skipZeroWeightVals C .forward limit (bestKeys C d l)).currentKey = _ at hkey
      change (skipZeroWeightVals C .forward limit (bestKeys C d l)).currentVal ≠ [] → _ at hweight
      change ∃ places', Settled C entries _ places' (.enter d total)
        (if (skipZeroWeightVals C .forward limit (bestKeys C d l)).currentVal = [] then _ else _)
      generalize skipZeroWeightVals C .forward limit (bestKeys C d l) = l' at hmoving' hkey hweight ⊢
      rw [← hkey] at hvals hkeeps
      have hstand : Standing places l'.currentKey ↔ Standing places' l'.currentKey :=
        ⟨fun hs => hs.congr fun i _ => hrest i, fun hs => hs.congr fun i _ => (hrest i).symm⟩
      by_cases hvalNil : l'.currentVal = []
      · rw [if_pos hvalNil]
        have hcancel : ¬Standing places l'.currentKey := by
          rcases hvals with ⟨-, hzero⟩ | ⟨-, hne, -⟩
          · exact hzero
          · exact absurd (hmoving'.vals_eq_nil hC hkeeps hvalNil) hne
        obtain ⟨next, hnextFirm, hnextWithin, hnextFresh, hnextRest⟩ :=
          hmoving'.stepKeys hC (hstand.not.mp hcancel)
        refine ih hnextFirm hnextWithin hnextFresh ?_
        have hshorter := hmoving'.joined.lead.length_lt (by
          obtain ⟨i, hi⟩ := exists_mem_of_ne_nil _ hnil
          exact ⟨i, mem_finRange i, hrest i ▸ hmoving.keyed i hi⟩)
        simp only [hrest] at hshorter
        simp only [hnextRest, hrest]
        omega
      · rw [if_neg hvalNil]
        have hsum := hweight hvalNil
        have hne := hmoving'.vals_ne_nil hC hkeeps (hsum.2 ▸ hsum.1)
        rcases hvals with ⟨hv, -⟩ | ⟨hv, -, hstanding⟩
        · exact absurd hv hne
        · subst hv
          exact ⟨places', hmoving', fun _ => hstand.mp hstanding, hweight⟩

theorem settled_settleKeys :
    ∃ places', Settled C entries (fun i => (S i).firm) places' (.enter d total)
      (settleKeys C limit d l) := by
  refine settled_skipKeys hC hlimit hfirm hwithin hfresh (lt_of_le_of_lt ?_ hlimit)
  exact sum_le_volume _ (fun i => (hwithin i).rest_length) (List.Sublist.refl _)

end

end CursorList

end Feldera.Trace
