import Feldera.Algebra.TruncatedSum
import Feldera.Trace.Keyval
import Feldera.Trace.Snapshot

/-!
`neighborhood`: a window of rows around an anchor. Every worker computes the window of its own
part of the collection, the windows are gathered by one worker, and that worker computes the window
of their sum, with row numbers.
-/

namespace Feldera.Operator.Neighborhood

open Trace OrderedSum List

structure NeighborhoodDescr (K V : Type*) where
  anchor : Option K
  anchorVal : V
  before : Nat
  after : Nat

section

variable {σ K V : Type*} [DecidableEq K] [DecidableEq V] (C : Cursor σ K V ℤ) (rounds : Nat)

/-- What `NeighborhoodLocal` and `NeighborhoodNumbered` have in common: the rows that precede the
anchor, from the last one on, and the others, from the first one on. -/
def collectWindow (descr : NeighborhoodDescr K V) (s : σ) :
    List ((K ×ₗ V) × ℤ) × List ((K ×ₗ V) × ℤ) :=
  let s := match descr.anchor with
    | some key => C.seekKeyval .forward rounds key descr.anchorVal s
    | none => s
  let after := C.collect .forward rounds (descr.after + 1) s
  let s := C.resetVals .backward (C.resetKeys .backward after.2)
  match descr.anchor with
  | none => ([], after.1)
  | some key =>
    let s := C.seekKeyval .backward rounds key descr.anchorVal s
    let s := if C.keyval s = some (key, descr.anchorVal) then C.stepKeyval .backward rounds s else s
    ((C.collect .backward rounds descr.before s).1, after.1)

variable (rows : List ((K ×ₗ V) × ℤ))

def pushRows (b : TupleBuilder K V Unit ℤ) : TupleBuilder K V Unit ℤ :=
  rows.foldl (fun b row => b.pushRefs (ofLex row.1).1 (ofLex row.1).2 () row.2) b

variable (descr : Option (NeighborhoodDescr K V))

def localEval (s : σ) : Layers K V Unit ℤ :=
  match descr with
  | none => []
  | some descr =>
    let window := collectWindow C rounds descr s
    (pushRows window.2 (pushRows window.1.reverse .new)).done

/-- Rows that follow the anchor are numbered from zero. -/
def numberAfter : List ((ℤ × K × V) × ℤ) :=
  rows.zipIdx.map fun row => (((row.2 : ℤ), ofLex row.1.1), row.1.2)

/-- Rows that precede it are numbered downwards from minus one. -/
def numberBefore : List ((ℤ × K × V) × ℤ) :=
  (rows.zipIdx 1).map fun row => ((-(row.2 : ℤ), ofLex row.1.1), row.1.2)

def pushNumbered (rows : List ((ℤ × K × V) × ℤ)) (b : TupleBuilder (ℤ × K × V) Unit Unit ℤ) :
    TupleBuilder (ℤ × K × V) Unit Unit ℤ :=
  rows.foldl (fun b row => b.pushRefs row.1 () () row.2) b

def numberedEval (s : σ) : Layers (ℤ × K × V) Unit Unit ℤ :=
  match descr with
  | none => []
  | some descr =>
    let window := collectWindow C rounds descr s
    (pushNumbered (numberAfter window.2)
      (pushNumbered (numberBefore window.1).reverse .new)).done

end

section

variable {K V : Type*} [LinearOrder K] [LinearOrder V]

variable (descr : NeighborhoodDescr K V)

/-- The row is at the anchor or past it. -/
def NeighborhoodDescr.isPast (row : K ×ₗ V) : Bool :=
  match descr.anchor with
  | none => true
  | some key => decide (toLex (key, descr.anchorVal) ≤ row)

variable (rows : List ((K ×ₗ V) × ℤ))

/-- The first rows at or past the anchor. -/
def following : List ((K ×ₗ V) × ℤ) :=
  (rows.filter fun row => descr.isPast row.1).take (descr.after + 1)

/-- The last rows before the anchor, from the last one on. -/
def preceding : List ((K ×ₗ V) × ℤ) :=
  (rows.filter fun row => !descr.isPast row.1).reverse.take descr.before

/-- The numbered neighborhood of the rows of a collection. -/
def neighborhood : List ((ℤ × K × V) × ℤ) :=
  (numberBefore (preceding descr rows)).reverse ++ numberAfter (following descr rows)

def zset {α : Type*} (rows : List (α × ℤ)) : Layers α Unit Unit ℤ :=
  rows.map fun row => (row.1, [((), [((), row.2)])])

end

/-! ### Rows of batches -/

section

variable {K V R : Type*} [LinearOrder K] [LinearOrder V] [AddCommMonoid R]

def rows (b : Batch K V Unit R) : List ((K ×ₗ V) × R) :=
  rowsOf .forward b.entries

variable (b : Batch K V Unit R)

theorem rows_ordered : Ordered Direction.forward.lt (rows b) := by
  refine pairwise_flatMap.mpr ⟨fun e he => ?_, ?_⟩
  · refine pairwise_map.mpr ((b.vals_consolidated he).2.sorted.imp fun hlt => ?_)
    exact (Direction.lt_toLex .forward _ _ _ _).mpr (.inr ⟨rfl, hlt⟩)
  · refine b.entries_ordered.imp fun hlt row hrow row' hrow' => ?_
    obtain ⟨q, -, rfl⟩ := mem_map.mp hrow
    obtain ⟨q', -, rfl⟩ := mem_map.mp hrow'
    exact (Direction.lt_toLex .forward _ _ _ _).mpr (.inl hlt)

theorem rows_nonzero {row : (K ×ₗ V) × R} (h : row ∈ rows b) : row.2 ≠ 0 := by
  obtain ⟨e, he, hrow⟩ := mem_flatMap.mp h
  obtain ⟨q, hq, rfl⟩ := mem_map.mp hrow
  exact (b.vals_consolidated he).2.nonzero q hq

theorem mass_block (e : K × List (V × R)) (k : K) (v : V) :
    mass id (block .forward e) (toLex (k, v)) = if e.1 = k then valueMass e.2 v else 0 := by
  change (List.map _ (List.map _ e.2)).sum = _
  rw [map_map]
  split
  · next heq =>
    subst heq
    refine congrArg List.sum (map_congr_left fun q _ => ?_)
    simp
  · next hne =>
    refine sum_eq_zero fun x hx => ?_
    obtain ⟨q, -, rfl⟩ := mem_map.mp hx
    simp [hne]

theorem mass_append {α β M : Type*} [DecidableEq α] [AddCommMonoid M] (f : β → M)
    (l m : List (α × β)) (a : α) : mass f (l ++ m) a = mass f l a + mass f m a := by
  unfold mass
  rw [map_append, sum_append]

theorem mass_rows (k : K) (v : V) : mass id (rows b) (toLex (k, v)) = b.weight (k, v, ()) := by
  have hentries : ∀ l : Entries K V R,
      mass id (rowsOf .forward l) (toLex (k, v)) = mass valueMass l k v := by
    intro l
    induction l with
    | nil => rfl
    | cons e l ih =>
      rw [rowsOf_cons, mass_append, ih, mass_block, mass_cons, Pi.add_apply]
      congr 1
      split <;> rfl
  exact (hentries b.entries).trans (mass_entries b.layers k v)

theorem sums_rows {ι : Type*} {idx : List ι} {ls : ι → List ((K ×ₗ V) × R)}
    {total : Batch K V Unit R} (heach : ∀ i ∈ idx, Ordered Direction.forward.lt (ls i))
    (h : ∀ k v, total.weight (k, v, ()) =
      (idx.map fun i => mass id (ls i) (toLex (k, v))).sum) :
    Sums Direction.forward.lt id idx ls (rows total) where
  each := heach
  ordered := rows_ordered total
  nonzero _ hp := rows_nonzero total hp
  mass_eq a := by
    obtain ⟨k, v⟩ := a
    exact (mass_rows total k v).trans (h k v)

end

/-! ### What the operators compute -/

section

variable {σ K V : Type*} [LinearOrder K] [LinearOrder V] {C : Cursor σ K V ℤ}
  {S : Stance σ K V ℤ} {b : Batch K V Unit ℤ} {s : σ} {rounds : Nat}

theorem onRow_start (hs : S.firm (.enter .forward b.entries) s) :
    OnRow S .forward b.entries.length (rows b) s := by
  rw [Place.enter_forward] at hs
  refine ⟨_, hs, Place.faces_facing _ _, ?_, le_rfl, Place.rows_facing _ _⟩
  intro hne
  cases hentries : b.entries with
  | nil => exact absurd hentries hne
  | cons e entries => exact (b.vals_consolidated (hentries ▸ mem_cons_self)).1

variable (descr : NeighborhoodDescr K V) {key : K}

section

variable (hanchor : descr.anchor = some key) (l : List ((K ×ₗ V) × ℤ))
  (hl : Ordered Direction.forward.lt l)
include hanchor hl

theorem dropWhile_eq_filter_isPast :
    (l.dropWhile fun row => decide (Direction.forward.lt row.1 (toLex (key, descr.anchorVal)))) =
      l.filter fun row => descr.isPast row.1 := by
  have h := hl.dropWhile_eq_filter (upward_of_le (toLex (key, descr.anchorVal)))
  simp only [Bool.not_not] at h
  rw [h]
  apply filter_congr
  intro row _
  rw [NeighborhoodDescr.isPast, hanchor, ← decide_not]
  exact decide_eq_decide.mpr not_lt

/-- From the first row backward, without the anchor itself. -/
theorem filter_lt_of_reverse :
    let a := toLex (key, descr.anchorVal)
    let l' := l.reverse.dropWhile fun row => decide (Direction.backward.lt row.1 a)
    (if l'.head?.map Prod.fst = some a then l'.tail else l') =
      (l.filter fun row => !descr.isPast row.1).reverse := by
  intro a l'
  have hreverse : Ordered Direction.backward.lt l.reverse := hl.reverse
  have hl' : l' = l.reverse.filter fun row => !decide (Direction.backward.lt row.1 a) := by
    have h := hreverse.dropWhile_eq_filter (upward_of_le a)
    simp only [Bool.not_not] at h
    exact h
  have hordered : Ordered Direction.backward.lt l' := by
    rw [hl']
    exact hreverse.filter fun row => !decide (Direction.backward.lt row a)
  have hleast : ∀ p ∈ l'.head?, p.1 = a ∨ Direction.backward.lt a p.1 := by
    intro p hp
    have hmem := mem_of_mem_head? hp
    rw [hl'] at hmem
    have hnot : ¬Direction.backward.lt p.1 a := by
      simpa only [Bool.not_eq_true', decide_eq_false_iff_not] using (mem_filter.mp hmem).2
    exact (not_lt.mp hnot : p.1 ≤ a).eq_or_lt
  rw [← filter_of_least hordered hleast, hl', filter_filter, ← filter_reverse]
  apply filter_congr
  intro row _
  rw [NeighborhoodDescr.isPast, hanchor, ← decide_not, ← decide_not, ← Bool.decide_and]
  refine decide_eq_decide.mpr ⟨fun h => not_le.mpr h.1, fun h => ?_⟩
  exact ⟨not_le.mp h, fun hlt : a < row.1 => h hlt.le⟩

end

theorem onRow_stepOver (hC : C.Lawful b.entries S) {bound : Nat} (hrounds : bound < rounds)
    {l : List ((K ×ₗ V) × ℤ)} (hs : OnRow S .backward bound l s) (key : K) (val : V) :
    OnRow S .backward bound (if l.head?.map Prod.fst = some (toLex (key, val)) then l.tail else l)
      (if C.keyval s = some (key, val) then C.stepKeyval .backward rounds s else s) := by
  cases l with
  | nil =>
    rw [hC.keyval_nil hs]
    exact hs
  | cons row l =>
    have hkeyval : C.keyval s = some (key, val) ↔ row.1 = toLex (key, val) := by
      rw [(hC.keyval_cons hs).1]
      exact Option.some_inj
    by_cases hrow : row.1 = toLex (key, val)
    · rw [if_pos (hkeyval.mpr hrow), if_pos (by simp [hrow])]
      exact hC.stepKeyval hrounds hs
    · rw [if_neg (mt hkeyval.mp hrow), if_neg (by simpa using hrow)]
      exact hs

theorem collectWindow_eq (hC : C.Lawful b.entries S)
    (hs : S.firm (.enter .forward b.entries) s) (hrounds : b.entries.length < rounds)
    (descr : NeighborhoodDescr K V) :
    collectWindow C rounds descr s = (preceding descr (rows b), following descr (rows b)) := by
  have hstart := onRow_start hs
  unfold collectWindow
  cases hanchor : descr.anchor with
  | none =>
    obtain ⟨hafter, -⟩ := hC.collect hrounds (descr.after + 1) hstart
    have hpast : ∀ row : (K ×ₗ V) × ℤ, descr.isPast row.1 = true := fun row => by
      simp [NeighborhoodDescr.isPast, hanchor]
    simp only [hafter, preceding, following, hpast, Bool.not_true, filter_false,
      filter_true, reverse_nil, take_nil]
  | some key =>
    let sought := C.seekKeyval .forward rounds key descr.anchorVal s
    have hseek : OnRow S .forward b.entries.length _ sought :=
      hC.seekKeyval hs ⟨rfl, fun _ => rfl⟩ rfl b.entries_ordered le_rfl hrounds key descr.anchorVal
    obtain ⟨hafter, p, hfirm, -⟩ := hC.collect hrounds (descr.after + 1) hseek
    -- the second pass starts from the last row
    let last := C.resetVals .backward (C.resetKeys .backward
      (C.collect .forward rounds (descr.after + 1) sought).2)
    have hlast : S.firm ⟨.backward, b.entries.reverse, .backward, _⟩ last :=
      hC.apply (.resetVals .backward) (hC.apply (.resetKeys .backward) hfirm trivial nofun)
        trivial nofun
    have hback : OnRow S .backward b.entries.length ((rows b).reverse.dropWhile fun row =>
        decide (Direction.backward.lt row.1 (toLex (key, descr.anchorVal))))
        (C.seekKeyval .backward rounds key descr.anchorVal last) := by
      rw [rows, ← rowsOf_reverse]
      exact hC.seekKeyval hlast ⟨rfl, fun _ => rfl⟩ rfl b.entries_ordered.reverse
        (length_reverse.trans_le le_rfl) hrounds key descr.anchorVal
    have hbefore := (hC.collect hrounds descr.before
      (onRow_stepOver hC hrounds hback key descr.anchorVal)).1
    rw [filter_lt_of_reverse descr hanchor (rows b) (rows_ordered b)] at hbefore
    have hpast : (rowsOf .forward b.entries).dropWhile (fun row =>
        decide (Direction.forward.lt row.1 (toLex (key, descr.anchorVal)))) = _ :=
      dropWhile_eq_filter_isPast descr hanchor (rows b) (rows_ordered b)
    exact Prod.ext hbefore (hafter.trans (congrArg (List.take _) hpast))

end

end Feldera.Operator.Neighborhood
