import Feldera.File.PathSearch

/-!
Seeks in a row group. The search from the root and the forward seek from a path both end on
the row that the keys of the group alone determine, or with nothing when there is none.
-/

namespace Feldera.File

open Algebra ReadProgram

variable {K A : Type} {env : TreeNode → Except Fault (TreeBlock K A)} {items : List (K × A)}
  {groups : Option (List Nat)} {root : TreeNode} {H : Nat} {compare : K → Ordering}
  {target rows : RowRange} {bias : Ordering} {res : Option (Path K A) × K}

variable (env items root compare bias) in
/-- A seek in the rows `rows` ends with a valid path to the best of their keys, or with nothing
when no key matches. -/
def Located (rows : RowRange) (res : Option (Path K A) × K) : Prop :=
  (∃ path x, res = (some path, x.1) ∧ path.Valid env root ∧
      Best (keyClass items compare) bias rows.start rows.stop path.row ∧
      items[path.row]? = some x) ∨
    res.1 = none ∧ ∀ r, ¬ Best (keyClass items compare) bias rows.start rows.stop r

theorem best_rowClass {lo hi r : Nat} (hb : Sided bias) (hhi : hi ≤ items.length)
    (hr : Best (keyClass items compare) bias target.start target.stop r) (hlo : lo ≤ r)
    (hlt : r < hi) : Best (rowClass items target compare) bias lo hi r := by
  have ht : target.contains r := ⟨hr.le, hr.lt⟩
  refine ⟨hlo, hlt, by rw [rowClass_eq_keyClass (by omega) ht]; exact hr.hit, ?_⟩
  intro j _ hj₂ hside
  have hx := List.getElem?_eq_getElem (show j < items.length by omega)
  have h₁ := ht.1
  have h₂ := ht.2
  obtain rfl | rfl := hb
  · have hjr : j < r := hside
    by_cases hj : j < target.start
    · exact rowClass_eq_gt hx hj
    · rw [rowClass_eq_keyClass (by omega) ⟨by omega, by omega⟩]
      exact hr.ahead j (by omega) (by omega) hside
  · have hjr : r < j := hside
    by_cases hj : target.stop ≤ j
    · exact rowClass_eq_lt hx (by omega) hj
    · rw [rowClass_eq_keyClass (by omega) ⟨by omega, by omega⟩]
      exact hr.ahead j (by omega) (by omega) hside

/-- What a search below a node finds is the best key of the target, if the target starts in
the node and no best key lies behind it. -/
theorem Found.located (hb : Sided bias) (hstop : rows.stop ≤ items.length)
    (hstart : rows.start ≤ target.start) (hgt : bias = .gt → target.stop ≤ rows.stop)
    (hin : ∀ r, Best (keyClass items compare) bias target.start target.stop r → r < rows.stop)
    (hf : Found env items root target compare bias rows res) :
    Located env items root compare bias target res := by
  obtain ⟨path, x, hres, hv, hbest, ht, hx⟩ | ⟨hnone, hall⟩ := hf
  · have h₁ := ht.1
    have h₂ := ht.2
    have h₃ := hbest.lt
    refine .inl ⟨path, x, hres, hv, ⟨h₁, h₂, ?_, fun j hj₁ hj₂ hside => ?_⟩, hx⟩
    · rw [← rowClass_eq_keyClass (by omega) ht]
      exact hbest.hit
    have hj : j < rows.stop := by
      obtain rfl | rfl := hb
      · exact Nat.lt_trans hside h₃
      · exact lt_of_lt_of_le hj₂ (hgt rfl)
    rw [← rowClass_eq_keyClass (by omega) ⟨hj₁, hj₂⟩]
    exact hbest.ahead j (by omega) hj hside
  · refine .inr ⟨hnone, fun r hr => hall r ?_ ⟨hr.le, hr.lt⟩⟩
    exact best_rowClass hb hstop hr (hstart.trans hr.le) (hin r hr)

/-- Rows that are all too small do not change what a forward seek looks for. -/
theorem Located.of_later {start start' stop : Nat} (hle : start ≤ start')
    (hgt : ∀ j, start ≤ j → j < start' → keyClass items compare j = .gt)
    (hl : Located env items root compare .lt ⟨start', stop⟩ res) :
    Located env items root compare .lt ⟨start, stop⟩ res := by
  obtain ⟨path, x, hres, hv, hbest, hx⟩ | ⟨hnone, hall⟩ := hl
  · have hle' := hbest.le
    refine .inl ⟨path, x, hres, hv, ⟨hle.trans hle', hbest.lt, hbest.hit, ?_⟩, hx⟩
    intro j hj₁ hj₂ hside
    by_cases hj : j < start'
    · exact hgt j hj₁ hj
    · exact hbest.ahead j (by simpa using hj) hj₂ hside
  · refine .inr ⟨hnone, fun r hr => ?_⟩
    by_cases hlt : r < start'
    · exact hr.hit (hgt r hr.le hlt)
    · exact hall r (hr.mono hle le_rfl (by simpa using hlt) hr.lt)

theorem IndexBlock.Holds.compareMax_keyClass {b : IndexBlock K} (hb : b.Holds items rows) :
    b.compareMax compare = .ok (keyClass items compare (rows.stop - 1)) := by
  have hbounds := hb.childRows_bounds hb.children_pos
  have hstop := hb.stop_le
  have hx := List.getElem?_eq_getElem (show rows.stop - 1 < items.length by omega)
  rw [hb.compareMax_eq hx, keyClass_eq hx]

section

variable [LT K] {group : RowGroup} (hroot : Stored env items groups H root)
  (hH : H ≤ maxDepth) (hall : root.rows = ⟨0, items.length⟩)
  (hs : SortedRows items group.rows) (hc : LawfulCompare compare)
include hroot hH hall hs hc

theorem Path.run_bestMatch (hg : group.column.root = some root) (hb : Sided bias)
    (key : K) : ∃ res, (bestMatch group compare bias key).run env = .ok res ∧
      Located env items root compare bias group.rows res := by
  have hd := rowClass_descends hs le_rfl le_rfl hc
  obtain ⟨res, hres, hf⟩ := run_search hb hd (levels 0) hroot .root
    (by simpa using hH) (by unfold levels; omega) key
  refine ⟨res, ?_, ?_⟩
  · simp only [bestMatch, hg]
    exact hres
  · have hstop := hs.stop_le
    rw [hall] at hf
    exact hf.located hb le_rfl (Nat.zero_le _) (fun _ => hstop)
      (fun r hr => lt_of_lt_of_le hr.lt hstop)

variable {node : TreeNode}

/-- The climb from a node whose last row is too small finds the first key behind the node that
is not. -/
theorem Path.run_climb {indexes : List (IndexBlock K)} (hchain : Chain env root indexes node)
    (hstart : group.rows.start < node.rows.stop)
    (hlast : node.rows.stop ≤ group.rows.stop →
      keyClass items compare (node.rows.stop - 1) = .gt) (key : K) :
    ∃ res, (climb compare ⟨node.rows.stop, group.rows.stop⟩ key indexes).run env = .ok res ∧
      Located env items root compare .lt ⟨node.rows.stop, group.rows.stop⟩ res := by
  induction hchain generalizing key with
  | root =>
    refine ⟨(none, key), rfl, .inr ⟨rfl, fun r hr => ?_⟩⟩
    have h₁ := hr.le
    have h₂ := hr.lt
    have h₃ := hs.stop_le
    simp only [hall] at h₁ h₂
    omega
  | @child indexes node child b i above read lt getChild ih =>
    obtain ⟨h, hst, hlen⟩ := above.stored hroot
    obtain ⟨h', rfl, holds, hchild⟩ := hst.index_inv read
    have hrows := holds.getChild_rows lt getChild
    have hbounds := holds.childRows_bounds lt
    rw [← hrows] at hbounds
    have hstop := holds.stop_le
    have hdk := keyClass_descends hs hc
    by_cases hup : node.rows.stop < group.rows.stop ∧
        keyClass items compare (node.rows.stop - 1) = .gt
    · obtain ⟨res, hres, hl⟩ := ih (by omega) (fun _ => hup.2) key
      have hmax : b.compareMax compare = .ok .gt := by
        rw [holds.compareMax_keyClass, hup.2]
      refine ⟨res, ?_, hl.of_later hbounds.2.2 fun j hj₁ hj₂ => ?_⟩
      · simp only [climb, run_bind, run_ofExcept, holds.rows_eq, ok_bind,
          hmax, hup.1, and_self, if_true]
        exact hres
      · exact hdk.descends.gt_before (j := node.rows.stop - 1) (by omega) (by omega) (by omega)
          hup.2
    · have hmax : ∃ m, (if node.rows.stop < group.rows.stop then b.compareMax compare
          else pure .eq) = .ok m ∧ ¬ (node.rows.stop < group.rows.stop ∧ m = .gt) := by
        by_cases hlt : node.rows.stop < group.rows.stop
        · rw [if_pos hlt]
          exact ⟨_, holds.compareMax_keyClass, hup⟩
        · rw [if_neg hlt]
          exact ⟨_, rfl, fun h => hlt h.1⟩
      obtain ⟨m, hm, hstay⟩ := hmax
      -- a best key behind the node would make the last row of the node too small
      have hin : ∀ r, Best (keyClass items compare) .lt child.rows.stop group.rows.stop r →
          r < node.rows.stop := by
        intro r hr
        by_contra hge
        have hlt : node.rows.stop < group.rows.stop := by
          have := hr.lt
          omega
        apply hup
        refine ⟨hlt, ?_⟩
        obtain heq | hlt' := Nat.eq_or_lt_of_le hbounds.2.2
        · rw [← heq]
          exact hlast (by omega)
        · exact hr.ahead _ (by omega) (by omega) (show node.rows.stop - 1 < r by omega)
      have hd : DescendsStrictly (rowClass items ⟨child.rows.stop, group.rows.stop⟩ compare) 0
          items.length := rowClass_descends hs hstart.le le_rfl hc
      have hfinish : ∀ res, Found env items root ⟨child.rows.stop, group.rows.stop⟩ compare .lt
          node.rows res → Located env items root compare .lt
            ⟨child.rows.stop, group.rows.stop⟩ res := fun res hf =>
        hf.located (.inl rfl) hstop (by simp only; omega) nofun hin
      obtain ⟨best, key', hfind, hbest⟩ := holds.findBestMatch_eq (.inl rfl)
        (hd.mono (Nat.zero_le node.rows.start) hstop) key
      obtain ⟨c, r, rfl, hlt, hr, hbest⟩ | ⟨rfl, hnone⟩ := hbest
      · obtain ⟨next, hnext, hstored⟩ := hchild c hlt
        have hpush : pushIndexBlock indexes b = .ok (b :: indexes) := pushIndexBlock_eq (by omega)
        have hdepth : h' + (b :: indexes).length ≤ maxDepth := by
          simp only [List.length_cons]
          omega
        obtain ⟨res, hres, hf⟩ := run_search (.inl rfl) hd (levels (b :: indexes).length) hstored
          (.child above read hlt hnext) hdepth (levels_lt hdepth) key'
        rw [holds.getChild_rows hlt hnext] at hf
        have hcb := holds.childRows_bounds hlt
        refine ⟨res, ?_, hfinish res (hf.of_child (.inl rfl) hcb.1 hcb.2.2 hr hbest)⟩
        simp only [climb, run_bind, run_ofExcept, holds.rows_eq, ok_bind,
          hm, if_neg hstay, hfind, hnext, hpush]
        exact hres
      · refine ⟨(none, key'), ?_, hfinish _ (.nothing key' hnone)⟩
        simp only [climb, run_bind, run_ofExcept, holds.rows_eq, ok_bind,
          hm, if_neg hstay, hfind, run_pure]

variable {path : Path K A}

omit hroot hH hall in
theorem Path.findBestMatch_here (hchain : Chain env root path.indexes node)
    (hread : env node = .ok (.data path.data)) (holds : path.data.Holds items groups node.rows)
    {start last : Nat} (hstart : group.rows.start ≤ start) (hnode : node.rows.start ≤ start)
    (hle : start ≤ last) (hlast : last < node.rows.stop) (hstop : last < group.rows.stop)
    (hit : keyClass items compare last ≠ .gt) (key : K) :
    ∃ i key', path.data.findBestMatch ⟨start, group.rows.stop⟩ compare .lt key =
        .ok (some i, key') ∧
      Located env items root compare .lt ⟨start, group.rows.stop⟩
        (some { path with row := path.data.firstRow + i }, key') := by
  have hd : DescendsStrictly (rowClass items ⟨start, group.rows.stop⟩ compare) 0 items.length :=
    rowClass_descends hs hstart le_rfl hc
  have hbefore : ∀ r, Best (keyClass items compare) .lt start group.rows.stop r →
      r < node.rows.stop := by
    intro r hr
    by_contra hge
    exact hit (hr.ahead last hle hstop (show last < r by omega))
  obtain ⟨r, hr, -⟩ := Best.of_hit (.inl rfl) hle hstop hit
  have hrnode : Best (rowClass items ⟨start, group.rows.stop⟩ compare) .lt node.rows.start
      node.rows.stop r := best_rowClass (.inl rfl) holds.stop_le hr (hnode.trans hr.le)
    (hbefore r hr)
  obtain ⟨best, key', hfind, hbest⟩ := holds.findBestMatch_eq (.inl rfl)
    (hd.mono (Nat.zero_le node.rows.start) holds.stop_le) key
  obtain ⟨i, y, rfl, hbest, ht, hy, rfl⟩ | ⟨rfl, hnone⟩ := hbest
  · refine ⟨i, y.1, hfind, ?_⟩
    rw [← holds.firstRow] at ht hy
    have hbest' : Best (rowClass items ⟨start, group.rows.stop⟩ compare) .lt node.rows.start
        node.rows.stop (path.data.firstRow + i) := by rwa [holds.firstRow]
    have hf : Found env items root ⟨start, group.rows.stop⟩ compare .lt node.rows
        (some { path with row := path.data.firstRow + i }, y.1) :=
      .inl ⟨_, y, rfl, ⟨node, hchain, hread, hbest'.le, hbest'.lt⟩, hbest', ht, hy⟩
    exact hf.located (.inl rfl) holds.stop_le hnode nofun hbefore
  · exact absurd ⟨hr.le, hr.lt⟩ (hnone r hrnode)

/-- The forward seek from a path finds the first key from the current row on that is not too
small. -/
theorem Path.run_advanceToFirstGe (hv : path.Valid env root)
    (hrow : group.rows.contains path.row) {x : K × A} (hx : items[path.row]? = some x) :
    ∃ res, (path.advanceToFirstGe group compare x.1).run env = .ok res ∧
      Located env items root compare .lt ⟨path.row, group.rows.stop⟩ res := by
  obtain ⟨node, hchain, hread, hin⟩ := id hv
  obtain ⟨h, hst, -⟩ := hchain.stored hroot
  obtain ⟨-, holds⟩ := hst.data_inv hread
  have hstop := holds.stop_le
  have hdk := keyClass_descends hs hc
  obtain ⟨hg₁, hg₂⟩ := hrow
  obtain ⟨hn₁, hn₂⟩ := id hin
  unfold advanceToFirstGe
  by_cases hstay : compare x.1 ≠ .gt
  · rw [if_pos hstay]
    refine ⟨_, rfl, .inl ⟨path, x, rfl, hv, ⟨le_rfl, hg₂, ?_, fun j hj₁ _ hside => ?_⟩, hx⟩⟩
    · rwa [keyClass_eq hx]
    · exact absurd hside (Nat.not_lt.mpr hj₁)
  rw [if_neg hstay]
  have hgt : keyClass items compare path.row = .gt := by
    rw [keyClass_eq hx]
    exact not_not.mp hstay
  obtain ⟨last, hlast⟩ : ∃ n, n = min node.rows.stop group.rows.stop - 1 := ⟨_, rfl⟩
  obtain ⟨y, hy⟩ : ∃ y, items[last]? = some y := ⟨_, List.getElem?_eq_getElem (by omega)⟩
  have hkey : path.data.keyForRow last = .ok y.1 :=
    holds.keyForRow_eq ⟨by omega, by omega⟩ hy
  simp only [holds.rows_eq, ← hlast, run_bind, run_ofExcept, hkey, ok_bind]
  have hclass : keyClass items compare last = compare y.1 := keyClass_eq hy
  by_cases hhere : compare y.1 ≠ .gt
  · have hlt : path.row < last := by
      obtain heq | hlt := Nat.eq_or_lt_of_le (show path.row ≤ last by omega)
      · rw [heq, hclass] at hgt
        exact absurd hgt hhere
      · exact hlt
    obtain ⟨i, key', hfind, hl⟩ := findBestMatch_here hs hc hchain hread holds
      (show group.rows.start ≤ path.row + 1 by omega) (by omega) (show path.row + 1 ≤ last by omega)
      (by omega) (by omega) (by rwa [hclass]) y.1
    refine ⟨_, ?_, hl.of_later (Nat.le_succ path.row) fun j hj₁ hj₂ => ?_⟩
    · rw [if_pos hhere]
      simp only [run_bind, run_ofExcept, hfind, ok_bind,
        run_pure]
    · obtain rfl : j = path.row := by omega
      exact hgt
  · have hlastgt : keyClass items compare last = .gt := by
      rw [hclass]
      exact not_not.mp hhere
    have hsmall : ∀ j, path.row ≤ j → j ≤ last → keyClass items compare j = .gt := fun j hj₁ hj₂ =>
      hdk.descends.gt_before (by omega) hj₂ (by omega) hlastgt
    obtain ⟨res, hres, hl⟩ := run_climb hroot hH hall hs hc hchain (by omega)
      (fun hle => by rwa [show node.rows.stop - 1 = last by omega]) y.1
    rw [if_neg hhere]
    refine ⟨res, hres, ?_⟩
    by_cases hend : node.rows.stop ≤ group.rows.stop
    · exact hl.of_later hn₂.le fun j hj₁ hj₂ => hsmall j hj₁ (by omega)
    -- the row group ends in this data block, and the range that was sought is inverted
    have hempty : ∀ r, ¬ Best (keyClass items compare) .lt node.rows.stop group.rows.stop r := by
      intro r hr
      have := hr.le
      have := hr.lt
      omega
    obtain ⟨p, z, -, -, hbest, -⟩ | ⟨hnone, -⟩ := hl
    · exact absurd hbest (hempty _)
    · refine .inr ⟨hnone, fun r hr => hr.hit (hsmall r hr.le ?_)⟩
      have hlt : r < group.rows.stop := hr.lt
      omega

end

end Feldera.File
