import Feldera.Trace.CursorPairExact

/-!
`CursorGroup`: the values of the current key of a cursor, read as the keys of a cursor that has no
values of its own. Where a key is missing, an operator reads its group through a `CursorEmpty`.
Both are one type of cursors here.
-/

namespace Feldera.Trace

open OrderedSum List Place

variable {σ K V R : Type*}

/-- A `CursorGroup`, which is its base cursor and whether the unit value is still to come, or a
`CursorEmpty`. -/
abbrev CursorGroup (σ : Type*) := Option (σ × Bool)

def units (vals : List (V × R)) : Entries V Unit R :=
  vals.map fun r => (r.1, [((), r.2)])

/-- The operations of `CursorGroup` and `CursorEmpty`. -/
def groupCursor [DecidableEq V] [Zero R] (C : Cursor σ K V R) : Cursor (CursorGroup σ) V Unit R where
  getKey s := s.bind fun s => C.getVal s.1
  getVal s := s.bind fun s => if s.2 then some () else none
  weight s := (s.map fun s => C.weight s.1).getD 0
  mapTimes s := (s.map fun s => C.mapTimes s.1).getD []
  stepKey d s := s.map fun s => (C.stepVal d s.1, true)
  seekKey d val s := s.map fun s => (C.seekVal d val s.1, true)
  seekKeyWith d predicate s := s.map fun s => (C.seekValWith d predicate s.1, true)
  seekKeyExact val s :=
    let s := s.map fun s => (C.seekVal .forward val s.1, true)
    (s, decide ((s.bind fun s => C.getVal s.1) = some val))
  resetKeys d s := s.map fun s => (C.resetVals d s.1, true)
  stepVal _ s := s.map fun s => (s.1, false)
  seekVal _ _ s := s
  seekValWith _ predicate s := s.map fun s => (s.1, s.2 && predicate ())
  resetVals _ s := s.map fun s => (s.1, true)

section

variable (vals : List (V × R))

theorem dropWhile_units (P : V → Bool) :
    (units vals).dropWhile (fun q => P q.1) = units (vals.dropWhile fun r => P r.1) := by
  induction vals with
  | nil => rfl
  | cons r vals ih =>
    cases hP : P r.1 with
    | true =>
      rw [dropWhile_cons_of_pos (by simpa using hP), ← ih]
      exact dropWhile_cons_of_pos (by simpa using hP)
    | false =>
      rw [dropWhile_cons_of_neg (by simp [hP])]
      exact dropWhile_cons_of_neg (by simp [hP])

theorem list_units (d : Direction) : d.list (units vals) = units (d.list vals) := by
  cases d with
  | forward => rfl
  | backward => exact map_reverse.symm

theorem head_units : (units vals).head?.map Prod.fst = vals.head?.map Prod.fst := by
  cases vals with
  | nil => rfl
  | cons r vals => rfl

theorem tail_units : (units vals).tail = units vals.tail := by
  cases vals with
  | nil => rfl
  | cons r vals => rfl

theorem volume_units : volume (units vals) = 2 * vals.length := by
  induction vals with
  | nil => rfl
  | cons r vals ih =>
    have hcons : volume (units (r :: vals)) = 2 + volume (units vals) := rfl
    rw [hcons, ih, length_cons]
    omega

end

variable {C : Cursor σ K V R} {entries : Entries K V R} {S : Stance σ K V R}
  {rel : Place K V R → σ → Prop} {base : Place K V R} {p : Place V Unit R} {s : CursorGroup σ}

def Place.group (base : Place K V R) : List (V × R) :=
  (base.rest.head?.map Prod.snd).getD []

variable (rel base) in
/-- A group with the values `vals`: the base cursor stands on the key of `base`, and the values that
it has before it are the keys of the place. An empty cursor has none. -/
def CursorGroup.At (vals : List (V × R)) (p : Place V Unit R) : CursorGroup σ → Prop
  | none => vals = [] ∧ p.rest = []
  | some s => vals = base.group ∧ ∃ q, rel q s.1 ∧ q.keyDir = base.keyDir ∧ q.rest = base.rest ∧
      p.keyDir = q.valDir ∧ p.rest = units q.vals ∧
      ∀ r ∈ p.rest.head?, p.vals = if s.2 then r.2 else []

namespace CursorGroup

variable {vals : List (V × R)}

theorem at_enter {t : σ} {q : Place K V R} (hvals : vals = base.group) (hq : rel q t)
    (hkeyDir : q.keyDir = base.keyDir) (hrest : q.rest = base.rest) :
    At rel base vals (.enter q.valDir (units q.vals)) (some (t, true)) := by
  refine ⟨hvals, q, hq, hkeyDir, hrest, rfl, rfl, fun r hr => ?_⟩
  change ((units q.vals).head?.map Prod.snd).getD [] = r.2
  rw [show (units q.vals).head? = some r from hr]
  rfl

theorem At.setVals {t : σ × Bool} (h : At rel base vals p (some t)) {b : Bool} {valDir : Direction}
    {us : List (Unit × R)} (hus : ∀ r ∈ p.rest.head?, us = if b then r.2 else []) :
    At rel base vals { p with valDir := valDir, vals := us } (some (t.1, b)) := by
  obtain ⟨hgroup, q, hq, hkeyDir, hrest, hdir, hunits, -⟩ := h
  exact ⟨hgroup, q, hq, hkeyDir, hrest, hdir, hunits, hus⟩

theorem At.head_vals {t : CursorGroup σ} (h : At rel base vals p t) {r : V × List (Unit × R)}
    (hr : r ∈ p.rest.head?) : ∃ w, r.2 = [((), w)] := by
  cases t with
  | none =>
    rw [h.2] at hr
    cases hr
  | some t =>
    obtain ⟨-, q, -, -, -, -, hunits, -⟩ := h
    have hmem := mem_of_head? (Option.mem_def.mp hr)
    rw [hunits] at hmem
    obtain ⟨u, -, rfl⟩ := mem_map.mp hmem
    exact ⟨u.2, rfl⟩

theorem At.getVal [LinearOrder V] [Zero R] (h : At rel base vals p s) (hrest : p.rest ≠ []) :
    (groupCursor C).getVal s = p.vals.head?.map Prod.fst := by
  cases s with
  | none => exact absurd h.2 hrest
  | some s =>
    obtain ⟨-, q, -, -, -, -, hunits, hvals⟩ := h
    cases hqvals : q.vals with
    | nil => exact absurd (by rw [hunits, hqvals]; rfl) hrest
    | cons r rest =>
      have hval := hvals (r.1, [((), r.2)]) (by rw [hunits, hqvals]; rfl)
      rw [hval]
      change (if s.2 then some () else none) = _
      cases s.2 with
      | false => rfl
      | true => rfl

variable [LinearOrder K] [LinearOrder V]

/-- An operation on the keys of the group is one on the values of the base cursor. -/
theorem At.moveKeys (hkeeps : CursorPair.Keeps C entries S rel) {t : σ × Bool}
    (h : At rel base vals p (some t)) (op : Op K V) (hop : op.OnValues)
    (hpermits : ∀ q : Place K V R, q.rest = base.rest → p.keyDir = q.valDir → q.Permits op) :
    ∃ q : Place K V R, p.keyDir = q.valDir ∧ p.rest = units q.vals ∧ q.group = vals ∧
      At rel base vals (.enter (q.apply entries op).valDir (units (q.apply entries op).vals))
        (some ((C.apply t.1 op).1, true)) := by
  obtain ⟨hgroup, q, hq, hkeyDir, hrest, hdir, hunits, -⟩ := h
  have hnext := hkeeps.onValues op hq (hpermits q hrest hdir) hop
  have hkeys := apply_onValues entries q hop
  refine ⟨q, hdir, hunits, ?_, at_enter hgroup hnext (hkeys.1.trans hkeyDir)
    (hkeys.2.trans hrest)⟩
  rw [hgroup, Place.group, Place.group, hrest]

variable [AddCommMonoid R]

section

variable (hC : C.Lawful entries S) (hkeeps : CursorPair.Keeps C entries S rel)
  (hne : base.rest ≠ []) (h : At rel base vals p s)
include hC hkeeps hne h

theorem At.getKey : (groupCursor C).getKey s = p.key := by
  cases s with
  | none =>
    rw [Place.key, h.2]
    rfl
  | some s =>
    obtain ⟨-, q, hq, -, hrest, -, hunits, -⟩ := h
    rw [Place.key, hunits, head_units]
    exact hC.getVal (hkeeps.loose hq) (hrest ▸ hne)

/-- The value of a group that is still to come has the weight of the base cursor. -/
theorem At.weight (hrest : p.rest ≠ []) {u : Unit × R} (hu : u ∈ p.vals.head?) :
    (groupCursor C).weight s = u.2 ∧ ((groupCursor C).mapTimes s).sum = u.2 := by
  cases s with
  | none => exact absurd h.2 hrest
  | some s =>
    obtain ⟨-, q, hq, -, hqrest, -, hunits, hvals⟩ := h
    have hqne : q.rest ≠ [] := hqrest ▸ hne
    cases hqvals : q.vals with
    | nil => exact absurd (by rw [hunits, hqvals]; rfl) hrest
    | cons r rest =>
      have hval := hvals (r.1, [((), r.2)]) (by rw [hunits, hqvals]; rfl)
      have hmem : r ∈ q.vals.head? := by
        rw [hqvals]
        rfl
      rw [hval] at hu
      cases hb : s.2 with
      | false =>
        rw [hb] at hu
        cases hu
      | true =>
        rw [hb] at hu
        obtain rfl : ((), r.2) = u := Option.some.inj hu
        exact ⟨hC.weight (hkeeps.loose hq) hqne r hmem, hC.mapTimes (hkeeps.loose hq) hqne r hmem⟩

end

variable (rel base) in
def stance (vals : List (V × R)) :
    Stance (CursorGroup σ) V Unit R where
  firm := At rel base vals
  loose := At rel base vals
  near k p s := p.keyDir = .forward ∧ ∃ p' : Place V Unit R, p'.keyDir = .forward ∧
    At rel base vals p' s ∧ (p'.rest.dropWhile fun q => decide (q.1 < k)) =
      p.rest.dropWhile fun q => decide (q.1 < k)
  able _ _ := True
  sure _ _ := True

theorem At.apply (hkeeps : CursorPair.Keeps C entries S rel) (h : At rel base vals p s)
    (op : Op V Unit) (hop : p.Permits op) (hexact : ∀ v, op ≠ .seekKeyExact v) :
    At rel base vals (p.apply (units vals) op) ((groupCursor C).apply s op).1 := by
  cases s with
  | none =>
    obtain ⟨hvals, hrest⟩ := h
    have hnone : ((groupCursor C).apply none op).1 = none := by
      cases op <;> rfl
    rw [hnone]
    refine ⟨hvals, ?_⟩
    cases op with
    | stepKey d => simp [Place.apply, enter, hrest]
    | seekKey d v => simp [Place.apply, Place.seekKey, enter, hrest]
    | seekKeyWith d predicate => simp [Place.apply, enter, hrest]
    | seekKeyExact v => exact absurd rfl (hexact v)
    | resetKeys d =>
      rw [hvals]
      cases d <;> rfl
    | _ => exact hrest
  | some t =>
    cases op with
    | stepKey d =>
      obtain ⟨q, hdir, hunits, -, hat⟩ := h.moveKeys hkeeps (.stepVal d) trivial
        fun q _ hdir => hop.trans hdir
      have hplace : p.apply (units vals) (.stepKey d) = .enter q.valDir (units q.vals.tail) := by
        rw [Place.apply, hdir, hunits, tail_units]
      rw [hplace]
      exact hat
    | seekKey d v =>
      obtain ⟨q, hdir, hunits, -, hat⟩ := h.moveKeys hkeeps (.seekVal d v) trivial
        fun q _ hdir => hop.trans hdir
      have hplace : p.apply (units vals) (.seekKey d v) =
          .enter q.valDir (units (q.vals.dropWhile fun r => decide (q.valDir.lt r.1 v))) := by
        rw [Place.apply, Place.seekKey, hdir, hunits,
          dropWhile_units q.vals fun u => decide (q.valDir.lt u v)]
      rw [hplace]
      exact hat
    | seekKeyWith d predicate =>
      obtain ⟨q, hdir, hunits, -, hat⟩ := h.moveKeys hkeeps (.seekValWith d predicate) trivial
        fun q _ hdir => ⟨hop.1.trans hdir, hop.2⟩
      have hplace : p.apply (units vals) (.seekKeyWith d predicate) =
          .enter q.valDir (units (q.vals.dropWhile fun r => !predicate r.1)) := by
        rw [Place.apply, hdir, hunits, dropWhile_units q.vals fun u => !predicate u]
      rw [hplace]
      exact hat
    | seekKeyExact v => exact absurd rfl (hexact v)
    | resetKeys d =>
      obtain ⟨q, -, -, hgroup, hat⟩ := h.moveKeys hkeeps (.resetVals d) trivial
        fun q _ _ => trivial
      have hplace : p.apply (units vals) (.resetKeys d) =
          .enter d (units (d.list q.group)) := by
        rw [Place.apply, list_units, hgroup]
      rw [hplace]
      exact hat
    | stepVal d =>
      refine h.setVals fun r hr => ?_
      obtain ⟨w, hw⟩ := h.head_vals hr
      obtain ⟨-, q, -, -, -, -, -, hvals⟩ := h
      rw [hvals r hr, hw]
      cases t.2 <;> rfl
    | seekVal d u =>
      have hsame : (p.vals.dropWhile fun q => decide (p.valDir.lt q.1 u)) = p.vals := by
        cases hvals : p.vals with
        | nil => rfl
        | cons q us =>
          refine dropWhile_cons_of_neg fun hlt => ?_
          cases hdir : p.valDir with
          | forward => exact absurd (hdir ▸ of_decide_eq_true hlt) (lt_irrefl _)
          | backward => exact absurd (hdir ▸ of_decide_eq_true hlt) (lt_irrefl _)
      rw [Place.apply, hsame]
      exact h
    | seekValWith d predicate =>
      refine h.setVals fun r hr => ?_
      obtain ⟨w, hw⟩ := h.head_vals hr
      obtain ⟨-, q, -, -, -, -, -, hvals⟩ := h
      rw [hvals r hr, hw]
      cases t.2 with
      | false => rfl
      | true =>
        cases hpred : predicate () with
        | true => simp [hpred]
        | false => simp [hpred]
    | resetVals d =>
      refine h.setVals fun r hr => ?_
      obtain ⟨w, hw⟩ := h.head_vals hr
      rw [if_pos rfl, Option.mem_def.mp hr, hw]
      cases d with
      | forward => exact hw
      | backward => simp [Direction.list, hw]

theorem near_apply (hkeeps : CursorPair.Keeps C entries S rel) {k k' : V}
    (h : (stance rel base vals).near k p s) (hk : k ≤ k') :
    At rel base vals (p.seekKey k') ((groupCursor C).seekKey .forward k' s) := by
  obtain ⟨hforward, p', hforward', hat, hrest⟩ := h
  have hseek := hat.apply (C := C) hkeeps (.seekKey .forward k') hforward'.symm nofun
  have hplace : p'.apply (units vals) (.seekKey .forward k') = p.seekKey k' := by
    rw [Place.apply, seekKey_of_forward hforward', seekKey_of_forward hforward,
      ← dropWhile_lt_dropWhile_lt hk, hrest, dropWhile_lt_dropWhile_lt hk]
  rw [← hplace]
  exact hseek

end CursorGroup

variable [LinearOrder K] [LinearOrder V] [AddCommMonoid R]

theorem groupCursor_lawful (hC : C.Lawful entries S) (hkeeps : CursorPair.Keeps C entries S rel)
    (hne : base.rest ≠ []) (vals : List (V × R)) :
    (groupCursor C).Lawful (units vals) (CursorGroup.stance rel base vals) where
  getKey h := h.getKey hC hkeeps hne
  getVal h hrest := h.getVal hrest
  weight h hrest _ hu := (h.weight hC hkeeps hne hrest hu).1
  mapTimes h hrest _ hu := (h.weight hC hkeeps hne hrest hu).2
  loose_of_firm h := h
  apply op h hop hexact := h.apply hkeeps op hop hexact
  apply_loose op h hop hvalues := h.apply hkeeps op hop fun k hk => by
    rw [hk] at hvalues
    exact hvalues
  near_of_firm _ h hforward := ⟨hforward, _, hforward, h, rfl⟩
  near_of_loose h hforward _ _ := ⟨hforward, _, hforward, h, rfl⟩
  near_self {p s k} h := by
    obtain ⟨hforward, p', hforward', hat, hrest⟩ := h
    refine ⟨hforward, p', hforward', hat, ?_⟩
    rw [hrest, seekKey_of_forward hforward]
    exact (dropWhile_lt_dropWhile_lt le_rfl _).symm
  near_seek h hk := CursorGroup.near_apply hkeeps h hk
  near_exact {p s k k'} h hk _ := by
    have hat := CursorGroup.near_apply (C := C) hkeeps h hk
    have hkey := hat.getKey hC hkeeps hne
    have hfound : ((groupCursor C).seekKeyExact k' s).2 =
        decide ((p.seekKey k').key = some k') := by
      rw [← hkey]
      rfl
    have hdir : (p.seekKey k').keyDir = .forward := by
      rw [seekKey_of_forward h.1]
      rfl
    refine ⟨hfound, fun _ => ⟨hat, fun _ => hat⟩, h.1, p.seekKey k', hdir, hat, ?_⟩
    rw [seekKey_of_forward h.1]
    exact dropWhile_lt_dropWhile_lt le_rfl _
  near_reset {p s k} d h := by
    obtain ⟨-, p', -, hat, -⟩ := h
    exact hat.apply hkeeps (.resetKeys d) trivial nofun

theorem mass_units (vals : List (V × R)) (v : V) :
    mass valueMass (units vals) v () = Weighted.weight vals v := by
  induction vals with
  | nil => rfl
  | cons r vals ih =>
    have hcons : units (r :: vals) = (r.1, [((), r.2)]) :: units vals := rfl
    rw [hcons, mass_cons, Pi.add_apply, ih, Weighted.weight_cons]
    congr 1
    split
    · simp [valueMass]
    · rfl

/-- Two groups add up if their weights do. -/
theorem keySums_units {vals : Bool → List (V × R)} {total : List (V × R)}
    (hvals : ∀ i, Weighted.Consolidated (vals i)) (htotal : Weighted.Consolidated total)
    (h : ∀ v, Weighted.weight total v =
      Weighted.weight (vals false) v + Weighted.weight (vals true) v) :
    KeySums [false, true] .forward (fun i => units (vals i)) (units total) where
  sums := by
    refine ⟨fun i _ => pairwise_map.mpr (hvals i).sorted,
      pairwise_map.mpr htotal.sorted, fun p hp hzero => ?_, fun v => ?_⟩
    · obtain ⟨r, hr, rfl⟩ := mem_map.mp hp
      have hone : r.2 = 0 := by simpa [valueMass] using congrFun hzero ()
      exact htotal.nonzero r hr hone
    · funext u
      have hmass := fun l : List (V × R) => mass_units l v
      simp only [map_cons, map_nil, sum_cons, sum_nil, add_zero, Pi.add_apply]
      rw [hmass total, hmass (vals false), hmass (vals true), h v]
  each i _ p hp := by
    obtain ⟨r, -, rfl⟩ := mem_map.mp hp
    exact pairwise_singleton _ _
  ordered p hp := by
    obtain ⟨r, -, rfl⟩ := mem_map.mp hp
    exact pairwise_singleton _ _
  nonzero p hp q hq := by
    obtain ⟨r, hr, rfl⟩ := mem_map.mp hp
    obtain rfl := mem_singleton.mp hq
    exact htotal.nonzero r hr

end Feldera.Trace
