import Feldera.File.CursorLawful

/-!
Every call on a cursor does what it does on the list of the rows; the key, the item and the
row group in the next column are those of the list's row.
-/

namespace Feldera.File

open Algebra RowRange ReadProgram Position

variable {K A : Type} [LT K] {env : TreeNode → Except Fault (TreeBlock K A)}
  {items : List (K × A)} {groups : Option (List Nat)} {column : Column} {c : Cursor K A}

theorem RowRange.len_pos {r : RowRange} : 0 < r.len ↔ ¬ r.isEmpty := by
  simp only [len, isEmpty]
  omega

section

variable (hcol : column.Stored env items groups) (hv : c.Valid env items column)
include hcol hv

theorem Cursor.goes_moveNext : Goes env items column c.moveNext (c.view.call items .moveNext) := by
  have hp := hv.position
  have hafter := hv.moveAfter
  have hgoOn : ∀ row, c.rowGroup.rows.start ≤ row →
      Goes env items column
        (Position.next.goOn c.position c.rowGroup row >>= fun position => c.goTo position)
        ⟨c.rowGroup.rows, if row < c.rowGroup.rows.stop then .on (row - c.rowGroup.rows.start)
          else .after⟩ := by
    intro row hrow
    unfold Position.next.goOn
    split
    · exact goes_moveToRow hcol hv ⟨hrow, ‹_›⟩
    · exact goes_to hcol hv.column_eq hv.sorted hafter
  simp only [moveNext, ListCursor.call, hv.length_list]
  simp only [ListCursor.next, view]
  cases hc : c.position with
  | before =>
    have hfirst := hgoOn c.rowGroup.rows.start le_rfl
    rw [hc, Nat.sub_self] at hfirst
    simp only [Position.view, RowRange.len, Nat.sub_pos_iff_lt]
    exact hfirst
  | row path =>
    rw [hc] at hp
    have hrow := hp.2.1.1
    have hiff : path.row - c.rowGroup.rows.start + 1 < c.rowGroup.rows.len ↔
        path.row + 1 < c.rowGroup.rows.stop := by
      simp only [RowRange.len]
      omega
    have hnext := hgoOn (path.row + 1) (by omega)
    rw [hc, Nat.sub_add_comm hrow] at hnext
    simp only [Position.view, hiff]
    exact hnext
  | after hint =>
    rw [hc] at hp
    exact goes_to hcol hv.column_eq hv.sorted hp

theorem Cursor.goes_movePrev : Goes env items column c.movePrev (c.view.call items .movePrev) := by
  have hp := hv.position
  have hto := fun row (hrow : c.rowGroup.rows.contains row) => goes_moveToRow hcol hv hrow
  have hbefore : Goes env items column (c.goTo .before) ⟨c.rowGroup.rows, .before⟩ :=
    ⟨{ c with position := .before }, rfl, ⟨hv.column_eq, hv.sorted, trivial⟩, rfl⟩
  simp only [movePrev, ListCursor.call, hv.length_list]
  simp only [ListCursor.prev, view]
  cases hc : c.position with
  | before => exact hbefore
  | row path =>
    rw [hc] at hp hto
    obtain ⟨h₁, h₂⟩ := hp.2.1
    simp only [prev, Position.view, Nat.sub_pos_iff_lt]
    by_cases hlt : c.rowGroup.rows.start < path.row
    · have hempty : ¬ c.rowGroup.rows.isEmpty := not_not.mpr (h₁.trans_lt h₂)
      have hgo := hto (path.row - 1) ⟨by omega, by omega⟩
      rw [Position.moveToRow, if_neg hempty, Nat.sub_right_comm] at hgo
      rw [if_pos hlt, if_pos hlt]
      exact hgo
    · rw [if_neg hlt, if_neg hlt]
      exact hbefore
  | after hint =>
    rw [hc] at hto
    simp only [prev, Position.view, len_pos]
    by_cases hempty : c.rowGroup.rows.isEmpty
    · rw [if_pos hempty, if_neg (not_not.mpr hempty)]
      exact hbefore
    have hlt := not_not.mp hempty
    have hgo := hto (c.rowGroup.rows.stop - 1) ⟨by omega, by omega⟩
    rw [Position.moveToRow, if_neg hempty, Nat.sub_right_comm] at hgo
    rw [if_neg hempty, if_pos hempty]
    exact hgo

theorem Cursor.goes_moveFirst :
    Goes env items column c.moveFirst (c.view.call items .moveFirst) := by
  simp only [moveFirst, ListCursor.call, hv.length_list, len_pos]
  by_cases hempty : c.rowGroup.rows.isEmpty
  · have hrun : (c.position.moveToRow c.rowGroup c.rowGroup.rows.start).run env =
        .ok c.position := by
      unfold Position.moveToRow
      rw [if_pos hempty]
      rfl
    rw [if_neg (not_not.mpr hempty)]
    exact .bind hrun (goes_to hcol hv.column_eq hv.sorted hv.position)
  · have hgo := goes_moveToRow hcol hv ⟨le_rfl, not_not.mp hempty⟩
    rw [Nat.sub_self] at hgo
    rw [if_pos hempty]
    exact hgo

theorem Cursor.goes_moveLast : Goes env items column c.moveLast (c.view.call items .moveLast) := by
  simp only [moveLast, ListCursor.call, hv.length_list, len_pos]
  by_cases hempty : c.rowGroup.rows.isEmpty
  · rw [if_pos hempty, if_neg (not_not.mpr hempty)]
    exact .pure (hv.withPosition (p := .after none) nofun)
  · have hlt := not_not.mp hempty
    rw [if_neg hempty, if_pos hempty, RowRange.len, Nat.sub_right_comm]
    exact goes_moveToRow hcol hv ⟨by omega, by omega⟩

theorem Cursor.goes_toRow (row : Nat) :
    Goes env items column (c.moveToRow row) (c.view.call items (.moveToRow row)) := by
  simp only [moveToRow, ListCursor.call, hv.length_list]
  by_cases hlt : row < c.rowGroup.rows.len
  · have hrow : c.rowGroup.rows.contains (c.rowGroup.rows.start + row) := by
      simp only [RowRange.len, contains] at *
      omega
    have hgo := goes_moveToRow hcol hv hrow
    rw [Nat.add_sub_cancel_left] at hgo
    rw [if_pos hlt, if_pos hlt]
    exact hgo
  · rw [if_neg hlt, if_neg hlt]
    exact .pure (hv.withPosition hv.moveAfter)

variable {compare : K → Ordering} {ok : K → Bool}

/-- A forward seek, for any comparison that the test `ok` comes from. -/
theorem Cursor.goes_seek (hc : LawfulCompare compare) (hok : ∀ k, ok k = true ↔ compare k ≠ .gt)
    :
    Goes env items column (c.advanceToFirstGe compare)
      ⟨c.rowGroup.rows, c.view.seek items ok⟩ := by
  have hs := hv.sorted
  have hp := hv.position
  simp only [advanceToFirstGe, ListCursor.seek, view, ListCursor.list]
  cases hpos : c.position with
  | before =>
    obtain ⟨p, key', hrun, ⟨path, rfl, hvalid, hbest⟩ | ⟨rfl, hnone⟩⟩ :=
      run_bestMatch hcol hv.column_eq hs hc (.inl rfl) c.key
    · simp only [Position.view, seekFrom_best (i := 0) hs.stop_le hok hbest]
      exact .bind hrun ⟨_, rfl, ⟨hv.column_eq, hs, hvalid⟩, rfl⟩
    · simp only [Position.view, seekFrom_none (i := 0) hs.stop_le hok hnone]
      exact .bind hrun ⟨_, rfl, ⟨hv.column_eq, hs, nofun⟩, rfl⟩
  | row path =>
    rw [hpos] at hp
    obtain ⟨⟨root, hroot, hpath⟩, hrow, x, hx, hkey⟩ := hp
    obtain ⟨hrows, ⟨H, hst⟩, -⟩ := hcol.root root hroot
    obtain ⟨⟨found, key'⟩, hrun, hl⟩ := Path.run_advanceToFirstGe hst (hcol.height_le hroot hst)
      hrows hs hc hpath hrow hx
    have hstart : c.rowGroup.rows.start + (path.row - c.rowGroup.rows.start) = path.row :=
      Nat.add_sub_cancel' hrow.1
    rw [← hkey] at hrun
    have hrun' : ((Position.row path).advanceToFirstGe c.rowGroup compare c.key).run env =
        .ok (found.elim (.after none) .row, key') := by
      rw [Position.advanceToFirstGe, run_bind_ok hrun]
      cases found <;> rfl
    apply Goes.bind hrun'
    obtain ⟨path', y, ⟨⟩, hpath', hbest, hy⟩ | ⟨rfl, hall⟩ := hl
    · have hin : c.rowGroup.rows.contains path'.row := ⟨hrow.1.trans hbest.le, hbest.lt⟩
      simp only [Position.view, seekFrom_best hs.stop_le hok (by rw [hstart]; exact hbest)]
      exact ⟨_, rfl, ⟨hv.column_eq, hs, ⟨root, hroot, hpath'⟩, hin, y, hy, rfl⟩, rfl⟩
    · simp only [Position.view, seekFrom_none hs.stop_le hok (by rw [hstart]; exact hall)]
      exact ⟨_, rfl, ⟨hv.column_eq, hs, nofun⟩, rfl⟩
  | after hint =>
    rw [hpos] at hp
    exact ⟨_, rfl, ⟨hv.column_eq, hs, hp⟩, rfl⟩

/-- A backward seek, for any comparison that the test `ok` comes from. -/
theorem Cursor.goes_rewind (hc : LawfulCompare compare)
    (hok : ∀ k, ok k = true ↔ compare k ≠ .lt) :
    Goes env items column (c.rewindToLastLe compare)
      ⟨c.rowGroup.rows, c.view.rewind items ok⟩ := by
  have hs := hv.sorted
  have hp := hv.position
  have hstop := hs.stop_le
  have hdk := keyClass_descends hs hc
  have hfull : c.rowGroup.rows.start + c.rowGroup.rows.len = c.rowGroup.rows.stop :=
    Nat.add_sub_cancel' hs.start_le
  obtain ⟨p, key', hrun, hfound⟩ :=
    run_bestMatch hcol hv.column_eq hs hc (.inr rfl) c.key
  apply Goes.bind hrun
  -- it suffices to know that the position chosen is the one on the list
  have hgo : ∀ (q : Position K A) (key : K), q.Valid env items column c.rowGroup.rows key →
      c.view.rewind items ok = q.view c.rowGroup.rows →
      Goes env items column (({ c with key := key' } : Cursor K A).goTo q)
        ⟨c.rowGroup.rows, c.view.rewind items ok⟩ := by
    intro q key hq hview
    rw [hview]
    exact goes_to (c := { c with key := key' }) hcol hv.column_eq hs hq
  simp only [ListCursor.rewind, view, ListCursor.list] at hgo ⊢
  obtain ⟨q, rfl, hq, hbest⟩ | ⟨rfl, hnone⟩ := hfound
  · cases hpos : c.position with
    | before =>
      rw [hpos] at hgo
      exact hgo .before c.key trivial rfl
    | row path =>
      rw [hpos] at hp hgo
      obtain ⟨h₁, h₂⟩ := hp.2.1
      have hn : c.rowGroup.rows.start + (path.row - c.rowGroup.rows.start + 1) = path.row + 1 := by
        omega
      have hrewind := fun {r} => rewindFrom_best (r := r) hstop hok
        (path.row - c.rowGroup.rows.start + 1) (by omega)
      rw [hn] at hrewind
      by_cases hlt : q.row < path.row
      · rw [if_pos (show (Position.row q).lt (.row path) from hlt)]
        exact hgo (.row q) key' hq
          (hrewind (hbest.mono le_rfl (by omega) hbest.le (by omega)))
      have hhit : keyClass items compare path.row ≠ .lt := fun hkey =>
        hbest.hit (hdk.descends.lt_after h₁ (Nat.le_of_not_lt hlt) hbest.lt hkey)
      rw [if_neg (show ¬ (Position.row q).lt (.row path) from hlt)]
      refine hgo (.row path) c.key hp (hrewind ⟨h₁, Nat.lt_succ_self _, hhit, ?_⟩)
      exact fun j _ hj hside => absurd (Nat.le_of_lt_succ hj) (Nat.not_le.mpr hside)
    | after hint =>
      rw [hpos] at hgo
      refine hgo (.row q) key' hq ?_
      simp only [Position.view]
      rw [length_slice hstop, rewindFrom_best hstop hok _ le_rfl (by rw [hfull]; exact hbest)]
  · have hall : ∀ r, c.rowGroup.rows.start ≤ r → r < c.rowGroup.rows.stop →
        keyClass items compare r = .lt := by
      intro r h₁ h₂
      by_contra hne
      obtain ⟨r', hr', -⟩ := Best.of_hit (.inr rfl) h₁ h₂ hne
      exact hnone r' hr'
    have hbefore : (if Position.before.lt c.position then .before else c.position) = .before := by
      cases c.position <;> rfl
    rw [if_neg (by decide : ¬ Ordering.gt = .lt), hbefore]
    refine hgo .before c.key trivial ?_
    cases hpos : c.position with
    | before => rfl
    | row path =>
      rw [hpos] at hp
      obtain ⟨h₁, h₂⟩ := hp.2.1
      simp only [Position.view]
      rw [rewindFrom_none hstop hok _ (by simp only [RowRange.len]; omega)]
      exact fun r hr₁ hr₂ => hall r hr₁ (by omega)
    | after hint =>
      simp only [Position.view]
      rw [length_slice hstop, rewindFrom_none hstop hok _ le_rfl]
      exact fun r hr₁ hr₂ => hall r hr₁ (by omega)

theorem Cursor.goes_firstWithHint [Inhabited K] {rows : RowRange} (hs : SortedRows items rows) :
    Goes env items column (RowGroup.firstWithHint ⟨c.rowGroup.column, rows⟩ c)
      (c.view.call items (.firstWithHint rows)) := by
  simp only [ListCursor.call, length_slice hs.stop_le, RowGroup.firstWithHint]
  by_cases hempty : rows.isEmpty
  · rw [if_pos hempty, if_neg (by rwa [len_pos, not_not])]
    exact ⟨⟨⟨c.rowGroup.column, rows⟩, .after none, default⟩, rfl, ⟨hv.column_eq, hs, nofun⟩, rfl⟩
  have hlt : rows.start < rows.stop := not_not.mp hempty
  have hhint : ∀ p, c.position.hint = some p → column.PathValid env p := hv.moveAfter
  have hstop := hs.stop_le
  let group : RowGroup := ⟨c.rowGroup.column, rows⟩
  obtain ⟨path, hrun, hrow, hp⟩ := Path.run_fromHint hcol (show group.column = _ from hv.column_eq)
    hhint (show rows.start < items.length by omega)
  have hx := List.getElem?_eq_getElem (show path.row < items.length by omega)
  rw [if_neg hempty, if_pos (len_pos.mpr hempty)]
  apply Goes.bind hrun
  refine ⟨⟨⟨c.rowGroup.column, rows⟩, .row path, _⟩, ?_, ⟨hv.column_eq, hs, hp,
    ⟨hrow.ge, hrow.trans_lt hlt⟩, _, hx, rfl⟩, ?_⟩
  · simp only [readKey, Position.path, Path.key_eq hcol hp hx, run_bind,
      run_ofExcept, ok_bind, run_pure]
  · simp only [view, Position.view, hrow, Nat.sub_self]

theorem Cursor.goes_call [Inhabited K] (call : Call K) (hl : call.Lawful items) :
    Goes env items column (c.call call) (c.view.call items call) := by
  cases call with
  | moveNext => exact goes_moveNext hcol hv
  | movePrev => exact goes_movePrev hcol hv
  | moveFirst => exact goes_moveFirst hcol hv
  | moveLast => exact goes_moveLast hcol hv
  | moveToRow row => exact goes_toRow hcol hv row
  | advanceToFirstGe compare => exact goes_seek hcol hv hl fun k => by simp
  | rewindToLastLe compare => exact goes_rewind hcol hv hl fun k => by simp
  | seekForwardUntil predicate =>
    apply goes_seek hcol hv
    · intro k k' hk hne
      have hpred : predicate k = true := by
        by_contra hfalse
        exact hne (if_neg hfalse)
      exact if_pos (hl k k' hk hpred)
    · intro k
      cases predicate k <;> simp
  | seekBackwardUntil predicate =>
    apply goes_rewind hcol hv
    · intro k k' hk hne
      have hpred : predicate k = false := by
        by_contra htrue
        exact hne (by simp [htrue])
      have hpred' : predicate k' = false := by
        by_contra htrue
        rw [Bool.not_eq_false] at htrue
        rw [hl k k' hk htrue] at hpred
        exact absurd hpred nofun
      simp [hpred']
    · intro k
      cases predicate k <;> simp
  | firstWithHint rows => exact goes_firstWithHint hcol hv hl

/-- What can be seen of a valid cursor is the row of the list. -/
theorem Cursor.observe_eq :
    c.key? = (c.view.item items).map Prod.fst ∧ c.item = .ok (c.view.item items) ∧
      ∀ g, groups = some g → c.nextColumn = .ok (c.view.nextColumn g) := by
  have hp := hv.position
  cases hpos : c.position with
  | before =>
    simp [key?, item, nextColumn, view, hpos, Position.path, Position.view, ListCursor.item,
      ListCursor.nextColumn]
  | row path =>
    rw [hpos] at hp
    obtain ⟨hpath, hrow, x, hx, hkey⟩ := hp
    have hstart := Nat.add_sub_cancel' hrow.1
    have hlist : (c.view.list items)[path.row - c.rowGroup.rows.start]? = some x := by
      have hlt : path.row - c.rowGroup.rows.start < c.rowGroup.rows.len := by
        have := hrow.2
        simp only [RowRange.len]
        omega
      rw [ListCursor.list, view, getElem?_slice _ _ hlt, hstart, hx]
    have hitem : c.view.item items = some x := by
      rw [← hlist]
      simp only [ListCursor.item, view, hpos, Position.view]
    refine ⟨?_, ?_, fun g hg => ?_⟩
    · rw [hitem]
      simp only [key?, hpos, Position.path, Option.map_some, hkey]
    · rw [hitem]
      simp only [item, hpos, Position.path, Path.item_eq hcol hpath hx, ok_bind]
      rfl
    subst hg
    obtain ⟨rows, holds, hin⟩ := hpath.holds hcol
    obtain ⟨hlen, hsorted⟩ := hcol.groups g rfl
    have hlt : path.row < items.length := lt_of_lt_of_le hrow.2 hv.sorted.stop_le
    have hg₁ := List.getElem?_eq_getElem (show path.row < g.length by omega)
    have hg₂ := List.getElem?_eq_getElem (show path.row + 1 < g.length by omega)
    have hgroup := holds.rowGroupForRow_eq hin hg₁ hg₂
      (List.pairwise_iff_getElem.mp hsorted _ _ _ _ (Nat.lt_succ_self _))
    simp only [nextColumn, hpos, Position.path, Path.rowGroup, hgroup, view, Position.view,
      ListCursor.nextColumn, hstart, List.getD_eq_getElem?_getD, hg₁, hg₂, Option.getD_some]
  | after hint =>
    simp [key?, item, nextColumn, view, hpos, Position.path, Position.view, ListCursor.item,
      ListCursor.nextColumn]

end

end Feldera.File
