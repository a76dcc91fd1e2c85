import Feldera.Trace.CursorListLawful

/-!
`CursorList` behaves as a cursor over the sum. After `seek_key_exact` has found its key, the
cursors that do not hold it may have been left behind: the values of the key are right, and
so is everything after a further seek, but the next key is only right if no cursor was left
behind.
-/

namespace Feldera.Trace

open OrderedSum CursorList
open List hiding tails

variable {σ K V R : Type*} {n : Nat} [LinearOrder K] [LinearOrder V] [AddCommMonoid R]
  {C : Fin n → Cursor σ K V R} {entries : Fin n → Entries K V R}
  {S : Fin n → Stance σ K V R} {rel : Fin n → Place K V R → σ → Prop}
  {places : Fin n → Place K V R} {p : Place K V R} {l : CursorList n σ R} {limit : Nat}
  {total : Entries K V R}

namespace CursorList

variable (hC : ∀ i, (C i).Lawful (entries i) (S i))
  (hlimit : ((List.finRange n).map fun i => volume (entries i)).sum < limit)

section

theorem Settled.rest_eq_nil (h : Settled C entries rel places p l) (hnil : l.currentKey = []) :
    p.rest = [] :=
  h.joined.keys.sums.eq_nil fun i _ => h.exhausted hnil i

variable (hkeeps : Keeps C entries S rel l.currentKey)
include hC hkeeps

variable (h : Settled C entries rel places p l)
include h

variable {i : Fin n}

theorem Settled.getKey_of_mem (hi : i ∈ l.currentKey) : (C i).getKey (l.cursors i) = p.key := by
  obtain ⟨k, b, rest, hrest, -, -, hfilter, -⟩ :=
    h.joined.keys.sums.advance_top h.joined.lead (h.standing (ne_nil_of_mem hi))
  have hkey := (hC i).getKey (hkeeps.loose i hi (h.rel i))
  rw [hfilter, mem_filter] at hi
  rw [Place.key, hrest]
  exact hkey.trans (of_decide_eq_true hi.2)

theorem Settled.getKey [DecidableEq R] : (cursorList C limit).getKey l = p.key := by
  change l.currentKey.head?.bind _ = p.key
  cases hkeys : l.currentKey with
  | nil =>
    rw [Place.key, h.rest_eq_nil hkeys]
    rfl
  | cons i js => exact h.getKey_of_mem hC hkeeps (by simp [hkeys])

theorem Settled.getVal_of_mem (hi : i ∈ l.currentVal) :
    (C i).getVal (l.cursors i) = p.vals.head?.map Prod.fst := by
  obtain ⟨hlead, -, hsub⟩ := h.val_leading hC hkeeps
  obtain ⟨hne, hsum⟩ := h.weight (ne_nil_of_mem hi)
  obtain ⟨v, w, rest, hpv, -, -, hfilter, -⟩ := h.joined.vals.advance_top hlead (hsum ▸ hne)
  have hkey := (hsub i hi).1
  have hval := (hC i).getVal (hkeeps.loose i hkey (h.rel i)) (h.keyed i hkey)
  rw [hfilter, mem_filter] at hi
  rw [hpv]
  exact hval.trans (of_decide_eq_true hi.2)

theorem Settled.getVal [DecidableEq R] :
    (cursorList C limit).getVal l = p.vals.head?.map Prod.fst := by
  change l.currentVal.head?.bind _ = p.vals.head?.map Prod.fst
  cases hvals : l.currentVal with
  | nil =>
    rw [h.vals_eq_nil hC hkeeps hvals]
    rfl
  | cons i js => exact h.getVal_of_mem hC hkeeps (by simp [hvals])

theorem Settled.weight_eq {q : V × R} (hq : q ∈ p.vals.head?) :
    l.weight = q.2 ∧ l.sumWeights C = q.2 := by
  have hne : l.currentVal ≠ [] := by
    intro hnil
    rw [h.vals_eq_nil hC hkeeps hnil] at hq
    simp at hq
  obtain ⟨hweight, hsum⟩ := h.weight hne
  obtain ⟨v, w, rest, hpv, hw, -⟩ :=
    h.joined.vals.advance_top (h.val_leading hC hkeeps).1 (hsum ▸ hweight)
  obtain rfl : (v, w) = q := by simpa [hpv] using hq
  exact ⟨hsum.trans hw.symm, (h.sumWeights_eq hC hkeeps).trans hw.symm⟩

end

section

theorem Settled.sums_list (h : Settled C entries rel places p l) (d : Direction) :
    Sums d.lt id l.currentKey (fun i => d.list (headVals (places i).rest))
      (d.list (headVals p.rest)) := by
  obtain ⟨vals, hsums, hvals⟩ := h.joined.keys.enter h.joined.lead
  have hhead : vals = headVals p.rest := by
    rcases hvals with ⟨hv, hzero⟩ | ⟨-, hv, -⟩
    · by_cases hnil : l.currentKey = []
      · rw [hv, h.rest_eq_nil hnil]
        rfl
      · exact absurd hzero (h.standing hnil)
    · exact hv
  subst hhead
  cases d with
  | forward => exact hsums
  | backward => exact hsums.reverse

/-- The cursors that an operation on values moves: those with the current value, those with the
current key. Where no value is left, a step does no harm to any of them. -/
def MovesVals (l : CursorList n σ R) (js : List (Fin n)) : Op K V → Prop
  | .stepVal _ => js = l.currentVal ∨ l.currentVal = [] ∧ js ⊆ l.currentKey
  | _ => js = l.currentKey

variable [DecidableEq R]
include hC hlimit

variable {vals : List (V × R)} {d : Direction}

theorem Moving.settled
    (h : Moving C entries rel places ⟨p.keyDir, p.rest, d, vals⟩ (bestVals C d l))
    (hkeeps : Keeps C entries S rel l.currentKey)
    (hstanding : l.currentKey ≠ [] → Standing places l.currentKey) :
    (settleVals C limit d l).currentKey = l.currentKey ∧
      ∃ places', Settled C entries rel places' ⟨p.keyDir, p.rest, d, vals⟩
        (settleVals C limit d l) := by
  obtain ⟨places', hmoving, hkey, hrest, hweight⟩ := h.skipVals hC hkeeps (h.vals_lt hlimit)
  refine ⟨hkey, places', hmoving, fun hne => ?_, hweight⟩
  change (settleVals C limit d l).currentKey ≠ [] at hne
  have hkey' : (settleVals C limit d l).currentKey = l.currentKey := hkey
  rw [hkey'] at hne ⊢
  exact (hstanding hne).congr fun i _ => hrest i

variable (hkeeps : Keeps C entries S rel l.currentKey)
include hkeeps

variable {js : List (Fin n)}

theorem Settled.moveVals (h : Settled C entries rel places p l) (hjs : js ⊆ l.currentKey)
    (op : Op K V) (hvalues : op.OnValues) (hop : ∀ i ∈ js, (places i).Permits op)
    (hdir : ∀ i ∈ l.currentKey, (if i ∈ js then (places i).apply (entries i) op
      else places i).valDir = d)
    (hvals : Sums d.lt id l.currentKey (fun i =>
      (if i ∈ js then (places i).apply (entries i) op else places i).vals) vals) :
    (settleVals C limit d (l.move js fun i s => ((C i).apply s op).1)).currentKey =
        l.currentKey ∧
      ∃ places', Settled C entries rel places' ⟨p.keyDir, p.rest, d, vals⟩
        (settleVals C limit d (l.move js fun i s => ((C i).apply s op).1)) := by
  have hmoving := h.toMoving.moveVals hkeeps hjs op hvalues hop l.weight hdir hvals
  refine hmoving.settled hC hlimit hkeeps fun hne => ?_
  refine (h.standing hne).congr fun i _ => ?_
  split
  · rw [(Place.apply_onValues _ _ hvalues).2]
  · rfl

theorem Settled.onValues (h : Settled C entries rel places p l) (total : Entries K V R)
    (op : Op K V) (hop : p.Permits op) (hvalues : op.OnValues) (hmoves : MovesVals l js op) :
    (settleVals C limit (p.apply total op).valDir
        (l.move js fun i s => ((C i).apply s op).1)).currentKey = l.currentKey ∧
      ∃ places', Settled C entries rel places' (p.apply total op)
        (settleVals C limit (p.apply total op).valDir
          (l.move js fun i s => ((C i).apply s op).1)) := by
  obtain ⟨hlead, hnone, hsub⟩ := h.val_leading hC hkeeps
  have hdir := h.joined.valDir
  cases op with
  | stepVal d =>
    obtain rfl : d = p.valDir := hop
    have hjs : js ⊆ l.currentKey := by
      rcases hmoves with rfl | ⟨-, hjs⟩
      · exact fun i hi => (hsub i hi).1
      · exact hjs
    refine h.moveVals hC hlimit hkeeps hjs (.stepVal p.valDir) trivial
      (fun i hi => (hdir i (hjs hi)).symm) (fun i hi => ?_) ?_
    · split
      · exact hdir i hi
      · exact hdir i hi
    by_cases hnil : l.currentVal = []
    · have hsums := h.joined.vals
      rw [h.vals_eq_nil hC hkeeps hnil] at hsums ⊢
      refine hsums.congr fun i hi => ?_
      split
      · exact (congrArg tail (hnone hnil i hi)).trans (hnone hnil i hi).symm
      · rfl
    · obtain rfl : js = l.currentVal := hmoves.resolve_right fun hright => hnil hright.1
      obtain ⟨hweight, hsum⟩ := h.weight hnil
      obtain ⟨v, w, rest, hpv, -, -, -, hsums⟩ :=
        h.joined.vals.advance_top hlead (hsum ▸ hweight)
      rw [hpv]
      refine hsums.congr fun i _ => ?_
      unfold tails
      split <;> rfl
  | seekVal d val =>
    obtain rfl : d = p.valDir := hop
    obtain rfl : js = l.currentKey := hmoves
    refine h.moveVals hC hlimit hkeeps (List.Subset.refl _) (.seekVal p.valDir val) trivial
      (fun i hi => (hdir i hi).symm) (fun i hi => ?_) ?_
    · rw [if_pos hi]
      exact hdir i hi
    have hsums := h.joined.vals.dropWhile (upward_of_le val)
    simp only [Bool.not_not] at hsums
    refine hsums.congr fun i hi => ?_
    rw [if_pos hi]
    simp only [Place.apply, hdir i hi]
  | seekValWith d predicate =>
    obtain ⟨rfl, hup⟩ := hop
    obtain rfl : js = l.currentKey := hmoves
    refine h.moveVals hC hlimit hkeeps (List.Subset.refl _) (.seekValWith p.valDir predicate)
      trivial (fun i hi => ⟨(hdir i hi).symm, hup⟩) (fun i hi => ?_) ?_
    · rw [if_pos hi]
      exact hdir i hi
    · refine (h.joined.vals.dropWhile hup).congr fun i hi => ?_
      rw [if_pos hi]
      rfl
  | resetVals d =>
    obtain rfl : js = l.currentKey := hmoves
    refine h.moveVals hC hlimit hkeeps (List.Subset.refl _) (.resetVals d) trivial
      (fun i hi => trivial) (fun i hi => ?_) ?_
    · rw [if_pos hi]
      rfl
    · refine (h.sums_list d).congr fun i hi => ?_
      rw [if_pos hi]
      rfl
  | _ => exact hvalues.elim

end

variable (C l) in
/-- `seek_key_exact` of `k` moves every cursor to where `seek_key` moves it. -/
def LeavesNoneBehind (k : K) : Prop :=
  ∀ i, ((C i).seekKeyExact k (l.cursors i)).1 = (C i).seekKey .forward k (l.cursors i)

variable (C entries S) in
def stance : Stance (CursorList n σ R) K V R where
  firm p l := ∃ places, Settled C entries (fun i => (S i).firm) places p l
  loose p l := (∃ places, Settled C entries (fun i => (S i).firm) places p l) ∨
    ∃ places k, p.keyDir = .forward ∧ p.key = some k ∧
      Settled C entries (LooseFrom S l.currentKey k) places p l
  near k p l := p.keyDir = .forward ∧ ∃ places : Fin n → Place K V R,
    (∀ i, (places i).keyDir = .forward ∧ (S i).near k (places i) (l.cursors i) ∧
      (places i).Within (entries i)) ∧
    KeySums (List.finRange n) .forward
      (fun i => (places i).rest.dropWhile fun q => decide (q.1 < k))
      (p.rest.dropWhile fun q => decide (q.1 < k))
  able _ _ := True
  sure := LeavesNoneBehind C

section

variable [DecidableEq R] (total : Entries K V R) (op : Op K V) (hop : p.Permits op)
  (hvalues : op.OnValues)
  {js : List (Fin n)} (hmoves : MovesVals l js op)
include hC hlimit hop hvalues hmoves

theorem firm_onValues (h : (stance C entries S).firm p l) :
    (stance C entries S).firm (p.apply total op)
      (settleVals C limit (p.apply total op).valDir
        (l.move js fun i s => ((C i).apply s op).1)) := by
  obtain ⟨places, h⟩ := h
  exact (h.onValues hC hlimit (keeps_firm hC _) total op hop hvalues hmoves).2

theorem loose_onValues (h : (stance C entries S).loose p l) :
    (stance C entries S).loose (p.apply total op)
      (settleVals C limit (p.apply total op).valDir
        (l.move js fun i s => ((C i).apply s op).1)) := by
  rcases h with hfirm | ⟨places, k, hforward, hkey, h⟩
  · exact .inl (firm_onValues hC hlimit total op hop hvalues hmoves hfirm)
  obtain ⟨hcurrent, places', h'⟩ :=
    h.onValues hC hlimit (keeps_loose hC _ k) total op hop hvalues hmoves
  rw [← hcurrent] at h'
  obtain ⟨hkeyDir, hrest⟩ := Place.apply_onValues total p hvalues
  refine .inr ⟨places', k, hkeyDir.trans hforward, ?_, h'⟩
  rwa [Place.key, hrest]

omit hC hlimit hmoves [AddCommMonoid R] [DecidableEq R] in
theorem apply_onValues [AddCommMonoid R] [DecidableEq R] : ∃ js, MovesVals l js op ∧
    ((cursorList C limit).apply l op).1 = settleVals C limit (p.apply total op).valDir
      (l.move js fun i s => ((C i).apply s op).1) := by
  cases op with
  | stepVal d =>
    obtain rfl : d = p.valDir := hop
    exact ⟨l.currentVal, .inl rfl, rfl⟩
  | seekVal d val =>
    obtain rfl : d = p.valDir := hop
    exact ⟨l.currentKey, rfl, rfl⟩
  | seekValWith d predicate =>
    obtain rfl : d = p.valDir := hop.1
    exact ⟨l.currentKey, rfl, rfl⟩
  | resetVals d => exact ⟨l.currentKey, rfl, rfl⟩
  | _ => exact hvalues.elim

end

section

variable {k : K}

theorem Settled.near (h : Settled C entries rel places p l) (hforward : p.keyDir = .forward)
    (hnear : ∀ i, (S i).near k (places i) (l.cursors i)) : (stance C entries S).near k p l := by
  refine ⟨hforward, places, fun i => ⟨?_, hnear i, h.within i⟩, ?_⟩
  · exact (h.joined.keyDir i (mem_finRange i)).trans hforward
  · have hkeys := h.joined.keys
    rw [hforward] at hkeys
    exact hkeys.seek k

include hC

/-- A list that shows a key has settled there, for what is known of its cursors. -/
theorem loose_cases (h : (stance C entries S).loose p l) : ∃ rel places,
    Keeps C entries S rel l.currentKey ∧ Settled C entries rel places p l := by
  rcases h with ⟨places, h⟩ | ⟨places, k, -, -, h⟩
  · exact ⟨_, places, keeps_firm hC _, h⟩
  · exact ⟨_, places, keeps_loose hC _ k, h⟩

theorem near_of_firm (h : (stance C entries S).firm p l) (hforward : p.keyDir = .forward) :
    (stance C entries S).near k p l := by
  obtain ⟨places, h⟩ := h
  refine h.near hforward fun i => (hC i).near_of_firm k (h.rel i) ?_
  exact (h.joined.keyDir i (mem_finRange i)).trans hforward

/-- The cursors of a list that shows a key are near that key. -/
theorem Settled.near_of_loose (h : Settled C entries (LooseFrom S l.currentKey k) places p l)
    (hkey : p.key = some k) (hforward : p.keyDir = .forward) (i : Fin n) :
    (S i).near k (places i) (l.cursors i) := by
  by_cases hi : i ∈ l.currentKey
  · have hdir := (h.joined.keyDir i (mem_finRange i)).trans hforward
    refine (hC i).near_of_loose ((h.rel i).1 hi) hdir k ?_
    obtain ⟨k', b, rest, hrest, -, -, hfilter, -⟩ :=
      h.joined.keys.sums.advance_top h.joined.lead (h.standing (ne_nil_of_mem hi))
    obtain rfl : k' = k := by simpa [Place.key, hrest] using hkey
    rw [hfilter, mem_filter] at hi
    exact of_decide_eq_true hi.2
  · exact (h.rel i).2 hi

theorem near_of_loose (h : (stance C entries S).loose p l) (hforward : p.keyDir = .forward)
    (k : K) (hk : k ∈ p.key) : (stance C entries S).near k p l := by
  rcases h with hfirm | ⟨places, k', -, hk', h⟩
  · exact near_of_firm hC hfirm hforward
  · obtain rfl : k' = k := Option.some.inj (hk'.symm.trans hk)
    exact h.near hforward (h.near_of_loose hC hk' hforward)

omit hC in
theorem near_self (h : (stance C entries S).near k p l) :
    (stance C entries S).near k (p.seekKey k) l := by
  obtain ⟨hforward, places, hplaces, hkeys⟩ := h
  refine ⟨hforward, places, hplaces, ?_⟩
  rw [Place.seekKey_of_forward hforward]
  change KeySums _ _ _ ((p.rest.dropWhile _).dropWhile _)
  rwa [dropWhile_lt_dropWhile_lt le_rfl]

variable [DecidableEq R]
include hlimit

theorem near_seek {k k' : K} (h : (stance C entries S).near k p l) (hk : k ≤ k') :
    (stance C entries S).firm (p.seekKey k') ((cursorList C limit).seekKey .forward k' l) := by
  obtain ⟨hforward, places, hplaces, hkeys⟩ := h
  have hfresh := fresh_seekKey hforward (fun i _ => (hplaces i).1) hkeys hk
  have hsettled := settled_settleKeys hC hlimit
    (l := l.move (finRange n) fun i => (C i).seekKey .forward k') (fun i => ?_)
    (fun i => (hplaces i).2.2.apply (.seekKey .forward k')) hfresh
  · rwa [Place.seekKey_of_forward hforward] at hsettled ⊢
  · simp only [move, mem_finRange, if_true]
    exact (hC i).near_seek (hplaces i).2.1 hk

theorem near_reset (hsum : KeySums (finRange n) .forward entries total) (d : Direction)
    (h : (stance C entries S).near k p l) :
    (stance C entries S).firm (.enter d (d.list total)) ((cursorList C limit).resetKeys d l) := by
  obtain ⟨-, places, hplaces, -⟩ := h
  refine settled_settleKeys hC hlimit (fun i => ?_)
    (fun i => Place.Within.enter (List.Sublist.refl _)) ((hsum.list d).fresh fun i _ => rfl)
  simp only [move, mem_finRange, if_true]
  exact (hC i).near_reset d (hplaces i).2.1

end

section

variable (hable : ∀ i s k, (S i).able s k)

def sought (C : Fin n → Cursor σ K V R) (key : K) (l : CursorList n σ R) : CursorList n σ R :=
  bestVals C .forward
    { l with
      cursors := fun i => ((C i).seekKeyExact key (l.cursors i)).1
      currentKey := (List.finRange n).filter fun i =>
        ((C i).seekKeyExact key (l.cursors i)).2 }

include hC hable

variable {k k' : K}

/-- The cursors that answered are those with the key, and none has a smaller one left. -/
theorem sought_currentKey (hk : k ≤ k') (hdir : ∀ i, (places i).keyDir = .forward)
    (hnear : ∀ i, (S i).near k (places i) (l.cursors i)) :
    ((sought C k' l).currentKey = (finRange n).filter fun i =>
      decide (((places i).seekKey k').rest.head?.map Prod.fst = some k')) ∧
    Least Direction.forward.lt (finRange n) (fun i => ((places i).seekKey k').rest) k' := by
  constructor
  · refine filter_congr fun i _ => ?_
    exact ((hC i).near_exact (hnear i) hk (hable i _ _)).1
  · exact least_seekKey (fun i _ => hdir i) k'

variable [DecidableEq R]
include hlimit

/-- Skipping the values of the key that was sought: whether it is there, and where the cursors
are, for whatever is known of them. -/
theorem sought_settled (hk : k ≤ k') (hforward : p.keyDir = .forward)
    (hplaces : ∀ i, (places i).keyDir = .forward ∧ (S i).near k (places i) (l.cursors i) ∧
      (places i).Within (entries i))
    (hkeys : KeySums (finRange n) .forward
      (fun i => (places i).rest.dropWhile fun q => decide (q.1 < k))
      (p.rest.dropWhile fun q => decide (q.1 < k))) (hne : (sought C k' l).currentKey ≠ [])
    (hkeeps : Keeps C entries S rel (sought C k' l).currentKey)
    (hrel : ∀ i, rel i ((places i).seekKey k') ((sought C k' l).cursors i))
    {l' : CursorList n σ R} (hl' : skipZeroWeightVals C .forward limit (sought C k' l) = l') :
    l'.currentKey = (sought C k' l).currentKey ∧
      ∃ places', (∀ i, (places' i).rest = ((places i).seekKey k').rest) ∧
        (l'.currentVal = [] → (p.seekKey k').key ≠ some k' ∧
          Moving C entries rel places' ⟨.forward, (p.seekKey k').rest, .forward, []⟩ l') ∧
        (l'.currentVal ≠ [] → (p.seekKey k').key = some k' ∧
          Settled C entries rel places' (p.seekKey k') l') := by
  subst hl'
  obtain ⟨hfilter, hleast⟩ := sought_currentKey hC hable hk (fun i => (hplaces i).1)
    fun i => (hplaces i).2.1
  have hfresh := fresh_seekKey hforward (fun i _ => (hplaces i).1) hkeys hk
  have hkeyed : ∀ i ∈ (sought C k' l).currentKey, ((places i).seekKey k').rest ≠ [] := by
    intro i hi hnil
    rw [hfilter, mem_filter, hnil] at hi
    exact absurd (of_decide_eq_true hi.2) (by simp)
  obtain ⟨vals, hjoined, hvals⟩ := hfresh.joined (.inr ⟨k', hleast, hne, hfilter⟩)
  have hmoving : Moving C entries rel (fun i => (places i).seekKey k')
      ⟨.forward, (p.seekKey k').rest, .forward, vals⟩ (sought C k' l) :=
    ⟨hrel, fun i => (hplaces i).2.2.apply (.seekKey .forward k'), hjoined, hkeyed,
      fun hnil => absurd hnil hne, rfl⟩
  obtain ⟨places', hmoving', hkey, hrest, hweight⟩ :=
    hmoving.skipVals hC hkeeps (hmoving.vals_lt hlimit)
  refine ⟨hkey, places', hrest, fun hnil => ?_, fun hvalNe => ?_⟩
  · have hkeeps' := hkeeps
    rw [← hkey] at hkeeps'
    obtain rfl : vals = [] := hmoving'.vals_eq_nil hC hkeeps' hnil
    rcases hvals with ⟨-, hzero⟩ | ⟨-, hv, -⟩
    · refine ⟨?_, hmoving'⟩
      rw [hfilter] at hzero
      exact hfresh.keys.key_ne_of_cancel hleast (not_not.mp hzero)
    · exact absurd rfl hv
  · have hkeeps' := hkeeps
    rw [← hkey] at hkeeps'
    obtain ⟨hnonzero, hsum⟩ := hweight hvalNe
    have hvalsNe := hmoving'.vals_ne_nil hC hkeeps' (hsum ▸ hnonzero)
    rcases hvals with ⟨hv, -⟩ | ⟨hv, -, hstanding⟩
    · exact absurd hv hvalsNe
    have hplace : p.seekKey k' = ⟨.forward, (p.seekKey k').rest, .forward, vals⟩ := by
      rw [hv, Place.seekKey_of_forward hforward]
      rfl
    constructor
    · -- the sum begins with the key that leads
      obtain ⟨k'', b, rest, htotal, -, -, hfilter', -⟩ :=
        hfresh.keys.sums.advance_top hjoined.lead hstanding
      obtain ⟨i, hi⟩ := exists_mem_of_ne_nil _ hne
      have hik := (mem_filter.mp (hfilter ▸ hi)).2
      have hik' := (mem_filter.mp (hfilter' ▸ hi)).2
      have heq := (of_decide_eq_true hik').symm.trans (of_decide_eq_true hik)
      rw [Place.key, htotal]
      exact heq
    · refine ⟨hplace ▸ hmoving', fun _ => ?_, hweight⟩
      rw [show (skipZeroWeightVals C .forward limit (sought C k' l)).currentKey = _ from hkey]
      exact hstanding.congr fun i _ => hrest i

theorem near_exact (h : (stance C entries S).near k p l) (hk : k ≤ k')
    {r : CursorList n σ R × Bool} (hr : (cursorList C limit).seekKeyExact k' l = r) :
    r.2 = decide ((p.seekKey k').key = some k') ∧
      (r.2 = true → (stance C entries S).loose (p.seekKey k') r.1 ∧
        ((stance C entries S).sure l k' → (stance C entries S).firm (p.seekKey k') r.1)) ∧
      (stance C entries S).near k' p r.1 := by
  subst hr
  obtain ⟨hforward, places, hplaces, hkeys⟩ := h
  have hexact := fun i => (hC i).near_exact (hplaces i).2.1 hk (hable i (l.cursors i) k')
  have hfresh := fresh_seekKey hforward (fun i _ => (hplaces i).1) hkeys hk
  -- from `k'` on, the sum is that of the cursors
  have hnear : ∀ {places' : Fin n → Place K V R} {l' : CursorList n σ R},
      (∀ i, (places' i).keyDir = .forward ∧ (S i).near k' (places' i) (l'.cursors i) ∧
        (places' i).Within (entries i)) →
      (∀ i, (places' i).rest = ((places i).seekKey k').rest) →
      (stance C entries S).near k' p l' := by
    intro places' l' hplaces' hrest
    exact ⟨hforward, places', hplaces',
      keySums_seekKey hforward (hfresh.keys.congr fun i _ => hrest i)⟩
  by_cases hnil : (sought C k' l).currentKey = []
  · have hresult : (cursorList C limit).seekKeyExact k' l = (sought C k' l, false) := by
      change (if (sought C k' l).currentKey = [] then _ else _) = _
      rw [if_pos hnil]
      rfl
    obtain ⟨hfilter, hleast⟩ := sought_currentKey hC hable hk (fun i => (hplaces i).1)
      fun i => (hplaces i).2.1
    rw [hresult]
    have hdir : ∀ i, ((places i).seekKey k').keyDir = .forward := fun i => (hplaces i).1
    refine ⟨(decide_eq_false ?_).symm, nofun, hnear (fun i => ⟨hdir i, ?_, ?_⟩) fun i => rfl⟩
    · refine hfresh.keys.key_ne_of_cancel hleast ?_
      rw [← hfilter, hnil]
      rfl
    · exact (hC i).near_self (hexact i).2.2
    · exact (hplaces i).2.2.apply (.seekKey .forward k')
  · -- the cursors that answered show the key, the others are near it
    have hrel : ∀ i, LooseFrom S (sought C k' l).currentKey k' i ((places i).seekKey k')
        ((sought C k' l).cursors i) := by
      intro i
      refine ⟨fun hi => ?_, fun _ => (hC i).near_self (hexact i).2.2⟩
      exact ((hexact i).2.1 (mem_filter.mp hi).2).1
    have hresult : (cursorList C limit).seekKeyExact k' l =
        (skipZeroWeightVals C .forward limit (sought C k' l),
          !(skipZeroWeightVals C .forward limit (sought C k' l)).currentVal.isEmpty) := by
      change (if (sought C k' l).currentKey = [] then _ else _) = _
      rw [if_neg hnil]
      rfl
    obtain ⟨hkey, places', hrest, hmissing, hfound⟩ := sought_settled hC hlimit hable hk hforward
      hplaces hkeys hnil (keeps_loose hC _ k') hrel rfl
    have hfirm := fun hsure : (stance C entries S).sure l k' =>
      sought_settled hC hlimit hable hk hforward hplaces hkeys hnil (keeps_firm hC _) (fun i => by
        have hseek := (hC i).near_seek (hplaces i).2.1 hk
        rwa [← hsure i] at hseek) rfl
    rw [hresult]
    generalize skipZeroWeightVals C .forward limit (sought C k' l) = l' at *
    -- a cursor that shows the key is near it
    have hshown : ∀ {q : Place K V R}, Moving C entries
        (LooseFrom S (sought C k' l).currentKey k') places' q l' → q.keyDir = .forward →
        (stance C entries S).near k' p l' := by
      intro q hmoving hdir
      have hplaceDir := fun i => (hmoving.joined.keyDir i (mem_finRange i)).trans hdir
      refine hnear (fun i => ⟨hplaceDir i, ?_, hmoving.within i⟩) hrest
      by_cases hi : i ∈ (sought C k' l).currentKey
      · refine (hC i).near_of_loose ((hmoving.rel i).1 hi) (hplaceDir i) k' ?_
        have hanswer := (hexact i).1.symm.trans (mem_filter.mp hi).2
        rw [Place.key, hrest i]
        exact of_decide_eq_true hanswer
      · exact (hmoving.rel i).2 hi
    by_cases hvalNil : l'.currentVal = []
    · obtain ⟨hne, hmoving⟩ := hmissing hvalNil
      refine ⟨?_, fun htrue => ?_, hshown hmoving rfl⟩
      · rw [hvalNil]
        exact (decide_eq_false hne).symm
      · rw [hvalNil] at htrue
        exact absurd htrue (by simp)
    · obtain ⟨hkey', hsettled⟩ := hfound hvalNil
      have hplaceForward : (p.seekKey k').keyDir = .forward := hforward
      refine ⟨?_, fun _ => ⟨.inr ⟨places', k', hplaceForward, hkey', ?_⟩, fun hsure => ?_⟩,
        hshown hsettled.toMoving hplaceForward⟩
      · rw [decide_eq_true hkey']
        simpa using hvalNil
      · rw [hkey]
        exact hsettled
      · obtain ⟨-, next, -, -, hnext⟩ := hfirm hsure
        exact ⟨next, (hnext hvalNil).2⟩

end

section

variable [DecidableEq R]
include hC hlimit

theorem firm_moveKeys (h : (stance C entries S).firm p l) (op : Op K V)
    (hexact : ∀ k, op ≠ .seekKeyExact k) {d : Direction}
    (hmove : ∀ places : Fin n → Place K V R,
      Settled C entries (fun i => (S i).firm) places p l →
      (∀ i, (places i).Permits op) ∧
        Fresh (finRange n) d (fun i => (places i).apply (entries i) op) total) :
    (stance C entries S).firm (.enter d total)
      (settleKeys C limit d (l.move (finRange n) fun i s => ((C i).apply s op).1)) := by
  obtain ⟨places, h⟩ := h
  obtain ⟨hpermits, hfresh⟩ := hmove places h
  refine settled_settleKeys hC hlimit (fun i => ?_) (fun i => (h.within i).apply op) hfresh
  have hfirm := firm_move hC h.rel (finRange n) op hexact (fun i _ => hpermits i) i
  rwa [if_pos (mem_finRange i)] at hfirm

theorem firm_apply (hsum : KeySums (finRange n) .forward entries total) (op : Op K V)
    (h : (stance C entries S).firm p l) (hop : p.Permits op)
    (hexact : ∀ k, op ≠ .seekKeyExact k) :
    (stance C entries S).firm (p.apply total op) ((cursorList C limit).apply l op).1 := by
  have honValues : op.OnValues →
      (stance C entries S).firm (p.apply total op) ((cursorList C limit).apply l op).1 := by
    intro hvalues
    obtain ⟨js, hmoves, heq⟩ := apply_onValues total op hop hvalues
    rw [heq]
    exact firm_onValues hC hlimit total op hop hvalues hmoves h
  have hdir : ∀ {places : Fin n → Place K V R},
      Settled C entries (fun i => (S i).firm) places p l → ∀ i, (places i).keyDir = p.keyDir :=
    fun h i => h.joined.keyDir i (mem_finRange i)
  cases op with
  | stepKey d =>
    obtain rfl : d = p.keyDir := hop
    obtain ⟨places, h⟩ := h
    have hfirm := firm_move hC h.rel l.currentKey (.stepKey p.keyDir) (by simp) fun i _ =>
      (hdir h i).symm
    refine settled_settleKeys hC hlimit hfirm (fun i => ?_) ?_
    · split
      · exact (h.within i).apply _
      · exact h.within i
    have hstep : ∀ i ∈ l.currentKey, (if i ∈ l.currentKey then
        (places i).apply (entries i) (.stepKey p.keyDir) else places i) =
          .enter p.keyDir (places i).rest.tail := by
      intro i hi
      rw [if_pos hi]
      simp only [Place.apply, hdir h i]
    obtain ⟨hstand, hzero⟩ := h.joined.stepKey hstep fun i _ hi => if_neg hi
    by_cases hnil : l.currentKey = []
    · have hfresh := hzero (by rw [hnil]; exact fun hs => hs rfl)
      rw [h.rest_eq_nil hnil] at hfresh ⊢
      exact hfresh
    · exact hstand (h.standing hnil)
  | seekKey d key =>
    obtain rfl : d = p.keyDir := hop
    refine firm_moveKeys hC hlimit h (.seekKey p.keyDir key) (by simp) fun places h => ⟨fun i =>
      (hdir h i).symm, (h.joined.keys.seek key).fresh fun i _ => ?_⟩
    simp only [Place.apply, Place.seekKey, hdir h i]
  | seekKeyWith d predicate =>
    obtain ⟨rfl, hup⟩ := hop
    refine firm_moveKeys hC hlimit h (.seekKeyWith p.keyDir predicate) (by simp) fun places h =>
      ⟨fun i => ⟨(hdir h i).symm, hup⟩, (h.joined.keys.dropWhile hup).fresh fun i _ => ?_⟩
    simp only [Place.apply, hdir h i]
  | seekKeyExact key => exact absurd rfl (hexact key)
  | resetKeys d =>
    refine firm_moveKeys hC hlimit h (.resetKeys d) (by simp) fun places h => ⟨fun _ => trivial,
      (hsum.list d).fresh fun i _ => rfl⟩
  | _ => exact honValues trivial

end

end CursorList

variable [DecidableEq R]

theorem cursorList_lawful (hC : ∀ i, (C i).Lawful (entries i) (S i))
    (hable : ∀ i s k, (S i).able s k)
    (hsum : KeySums (finRange n) .forward entries total)
    (hlimit : ((finRange n).map fun i => volume (entries i)).sum < limit) :
    (cursorList C limit).Lawful total (stance C entries S) where
  getKey {p l} h := by
    obtain ⟨rel, places, hkeeps, h⟩ := loose_cases hC h
    exact h.getKey hC hkeeps
  getVal {p l} h _ := by
    obtain ⟨rel, places, hkeeps, h⟩ := loose_cases hC h
    exact h.getVal hC hkeeps
  weight {p l} h _ q hq := by
    obtain ⟨rel, places, hkeeps, h⟩ := loose_cases hC h
    exact (h.weight_eq hC hkeeps hq).1
  mapTimes {p l} h _ q hq := by
    obtain ⟨rel, places, hkeeps, h⟩ := loose_cases hC h
    exact (h.weight_eq hC hkeeps hq).2
  loose_of_firm h := .inl h
  apply op h hop hexact := firm_apply hC hlimit hsum op h hop hexact
  apply_loose {p l} op h hop hvalues := by
    obtain ⟨js, hmoves, heq⟩ := apply_onValues total op hop hvalues
    rw [heq]
    exact loose_onValues hC hlimit total op hop hvalues hmoves h
  near_of_firm k h hforward := near_of_firm hC h hforward
  near_of_loose h hforward k hk := near_of_loose hC h hforward k hk
  near_self h := near_self h
  near_seek h hk := near_seek hC hlimit h hk
  near_exact h hk _ := near_exact hC hlimit hable h hk rfl
  near_reset d h := near_reset hC hlimit hsum d h

section

theorem CursorList.firm_new (hC : ∀ i, (C i).Lawful (entries i) (S i))
    (hsum : KeySums (finRange n) .forward entries total)
    (hlimit : ((finRange n).map fun i => volume (entries i)).sum < limit)
    {cursors : Fin n → σ} (hfirm : ∀ i, (S i).firm (.enter .forward (entries i)) (cursors i)) :
    (stance C entries S).firm (.enter .forward total) (CursorList.new C limit cursors) :=
  settled_settleKeys hC hlimit hfirm (fun _ => Place.Within.enter (List.Sublist.refl _))
    (hsum.fresh fun _ _ => rfl)

def CursorList.ofBatches (mayContain : Fin n → K → Bool) (limit : Nat)
    (batches : Fin n → Batch K V Unit R) : CursorList n (LayerCursor K V R) R :=
  CursorList.new (fun i => layerCursor (mayContain i)) limit fun i =>
    LayerCursor.new (batches i).entries

/-- In every proper run, a list of cursors of batches gives the answers of a cursor over their sum,
and shows the same key, value and weight, unless a key was missing. -/
theorem cursorList_agrees_with_sum (batches : Fin n → Batch K V Unit R)
    (mayContain : Fin n → K → Bool)
    (hmay : ∀ i, ∀ q ∈ (batches i).entries, mayContain i q.1 = true) (limit : Nat)
    (hlimit : ((List.finRange n).map fun i => volume (batches i).entries).sum < limit)
    (ops : List (Op K V))
    (hproper : (cursorList (fun i => layerCursor (mayContain i)) limit).Proper
      (fun _ _ => True) (LeavesNoneBehind fun i => layerCursor (mayContain i))
      (ofBatches mayContain limit batches) ops) :
    let list := (cursorList (fun i => layerCursor (mayContain i)) limit).run
      (LeavesNoneBehind fun i => layerCursor (mayContain i))
      (ofBatches mayContain limit batches) ops
    let single := (layerCursor fun _ => true).run (fun _ _ => True)
      (LayerCursor.new (Batch.sum (List.finRange n) batches).entries) ops
    list.2.2 = single.2.2 ∧
      (list.2.1.missing = false →
        (cursorList (fun i => layerCursor (mayContain i)) limit).seen list.1 =
          (layerCursor fun _ => true).seen single.1) := by
  have hsum := keySums_batches (Batch.weight_sum (List.finRange n) batches)
  have hC := fun i => layerCursor_lawful (hmay i)
  refine (cursorList_lawful hC (fun _ _ _ => trivial) hsum hlimit).agree
    (layerCursor_lawful fun _ _ => rfl) (LayerCursor.stance_total _) ?_ ?_ ops hproper
  · exact firm_new hC hsum hlimit fun i => LayerCursor.at_new _
  · exact LayerCursor.at_new _

/-- Keys 1 and 3 in memory, key 2 on storage with a filter that excludes the other keys. -/
def CursorList.splitBatches : Fin 2 → Batch ℕ ℕ Unit ℤ :=
  ![.ofTuples [((1, 0, ()), 1), ((3, 0, ()), 1)], .ofTuples [((2, 0, ()), 1)]]

def CursorList.splitFilters : Fin 2 → ℕ → Bool :=
  ![fun _ => true, fun k => decide (k = 2)]

theorem cursorList_agrees_with_sum_split :
    let list := (cursorList (fun i => layerCursor (splitFilters i)) 9).run
      (LeavesNoneBehind fun i => layerCursor (splitFilters i))
      (ofBatches splitFilters 9 splitBatches)
      [.seekKeyExact 3, .stepVal .forward, .seekKeyExact 4]
    let single := (layerCursor fun _ => true).run (fun _ _ => True)
      (LayerCursor.new (Batch.sum (List.finRange 2) splitBatches).entries)
      [.seekKeyExact 3, .stepVal .forward, .seekKeyExact 4]
    list.2.2 = single.2.2 ∧
      (list.2.1.missing = false →
        (cursorList (fun i => layerCursor (splitFilters i)) 9).seen list.1 =
          (layerCursor fun _ => true).seen single.1) := by
  have hfind := (Cursor.proper_nil
    (cursorList (fun i => layerCursor (splitFilters i)) 9) (fun _ _ => True)
    (LeavesNoneBehind fun i => layerCursor (splitFilters i))
    (ofBatches splitFilters 9 splitBatches)).concat
      (.seekKeyExact 3) ⟨rfl, fun _ k hk => nomatch hk⟩ fun _ _ => trivial
  have hstep := hfind.concat (.stepVal .forward) ⟨rfl, by decide +kernel⟩ fun _ _ => trivial
  have hproper := hstep.concat (.seekKeyExact 4)
    ⟨rfl, fun _ k hk => Option.some.inj hk ▸ Nat.le_succ 3⟩ fun _ _ => trivial
  exact cursorList_agrees_with_sum splitBatches splitFilters
    (by decide +kernel) 9 (by decide +kernel) _ hproper

/-- After key 3 was found, the next key is 2: the cursor that does not hold 3 was left behind. And
after key 0, which is missing, the list shows no key where the sum shows the next one. -/
theorem cursorList_left_behind :
    let C := cursorList (fun i => layerCursor (splitFilters i)) 9
    let list := fun ops => C.seen (C.run
      (LeavesNoneBehind fun i => layerCursor (splitFilters i))
      (ofBatches splitFilters 9 splitBatches) ops).1
    let single := fun ops => (layerCursor fun _ => true).seen
      ((layerCursor fun _ => true).run (fun _ _ => True)
        (LayerCursor.new (Batch.sum (List.finRange 2) splitBatches).entries) ops).1
    (list [.seekKeyExact 3, .stepKey .forward] = some (2, some (0, 1)) ∧
      single [.seekKeyExact 3, .stepKey .forward] = none) ∧
    (list [.seekKeyExact 0] = none ∧ single [.seekKeyExact 0] = some (1, some (0, 1))) := by
  decide +kernel

end

end Feldera.Trace
