import Feldera.TimeSeries.Range

/-!
`Ranges`, the time ranges in which a delta changes a rolling aggregate, and the cursor that
restricts a partition to them. Ranges are pushed in the order of their lower ends and joined where
they meet, so that they stay apart and in order; the cursor relies on that.
-/

namespace Feldera.TimeSeries

open List

variable {w : ℕ} {A : Type*}

/-- `push_monotonic`; nothing where its assertion fails. -/
def pushMonotonic (ranges : List (Range w)) (range : Range w) : Option (List (Range w)) :=
  match ranges.getLast? with
  | some last =>
    if range.from_ ≤ last.to_ then
      if last.from_ ≤ range.from_ then
        let to_ := if last.to_ ≤ range.to_ then range.to_ else last.to_
        some (ranges.dropLast ++ [⟨last.from_, to_⟩])
      else none
    else some (ranges ++ [range])
  | none => some (ranges ++ [range])

def Ranges.merge (ranges other : List (Range w)) : Option (List (Range w)) :=
  (List.merge ranges other fun a b => a.from_ ≤ b.from_).foldlM pushMonotonic []

/-- `affected_ranges`, for the timestamps of the delta. The two lists of its loop do not depend on
each other. -/
def RelRange.affectedRanges (r : RelRange w) (delta : List (BitVec w)) :
    Option (List (Range w)) := do
  let affected ← (delta.filterMap r.affectedRangeOf).foldlM pushMonotonic []
  let deltas ← (delta.map fun ts => ⟨ts, ts⟩).foldlM pushMonotonic []
  Ranges.merge affected deltas

/-- The entries from the current key on, and the ranges from `current_range` on. -/
structure RangeCursor (w : ℕ) (A : Type*) where
  rest : List (BitVec w × A)
  ranges : List (Range w)

namespace RangeCursor

def advance : List (Range w) → List (BitVec w × A) → RangeCursor w A
  | [], rest => ⟨rest, []⟩
  | range :: ranges, rest =>
    match rest.dropWhile (·.1 < range.from_) with
    | [] => ⟨[], range :: ranges⟩
    | entry :: rest =>
      if entry.1 ≤ range.to_ then ⟨entry :: rest, range :: ranges⟩
      else advance ranges (entry :: rest)

/-- What `while cursor.key_valid()` visits in at most `fuel` rounds. -/
def visited : ℕ → RangeCursor w A → List (BitVec w × A)
  | fuel + 1, ⟨entry :: rest, range :: ranges⟩ =>
    entry :: visited fuel (advance (range :: ranges) rest)
  | _, _ => []

end RangeCursor

instance Range.decidableContains (range : Range w) (ts : BitVec w) :
    Decidable (range.Contains ts) :=
  inferInstanceAs (Decidable (_ ∧ _))

/-- The aggregate at `ts` is to be computed anew. -/
def RelRange.affects (r : RelRange w) (delta : List (BitVec w)) (ts : BitVec w) : Bool :=
  delta.any fun key => key = ts || (r.rangeOf ts).any (·.Contains key)

/-- Ranges that are not empty, in order and apart. -/
structure Separated (ranges : List (Range w)) : Prop where
  nonempty : ∀ r ∈ ranges, r.from_ ≤ r.to_
  apart : ranges.Pairwise fun r r' => r.to_ < r'.from_

def covers (ranges : List (Range w)) (ts : BitVec w) : Bool := ranges.any (·.Contains ts)

variable {ranges l : List (Range w)} {range : Range w} {ts : BitVec w}

theorem covers_cons :
    covers (range :: ranges) ts = (decide (range.Contains ts) || covers ranges ts) := rfl

theorem pushMonotonic_spec (h : Separated ranges) (hrange : range.from_ ≤ range.to_)
    (hfrom : ∀ r ∈ ranges, r.from_ ≤ range.from_) :
    ∃ ranges', pushMonotonic ranges range = some ranges' ∧ Separated ranges' ∧
      (∀ r ∈ ranges', r.from_ ≤ range.from_) ∧
      ∀ ts, covers ranges' ts = covers (ranges ++ [range]) ts := by
  rcases ranges.eq_nil_or_concat with rfl | ⟨init, last, rfl⟩
  · exact ⟨[range], rfl, ⟨by simpa using hrange, pairwise_singleton _ _⟩, by simp, by simp⟩
  obtain ⟨hle, hsep⟩ := h
  simp only [concat_eq_append, mem_append, mem_singleton, or_imp, forall_and, forall_eq,
    pairwise_append] at hle hsep hfrom
  simp only [pushMonotonic, concat_eq_append, getLast?_append, getLast?_singleton, Option.some_or,
    hfrom.2, if_true, dropLast_concat]
  split
  · refine ⟨_, rfl, ⟨by grind, ?_⟩, by grind, fun ts => ?_⟩
    · simpa [pairwise_append] using ⟨hsep.1, hsep.2.2⟩
    simp only [covers, any_append, any_cons, any_nil, Range.Contains]
    grind
  · refine ⟨_, rfl, ⟨by grind, ?_⟩, by grind, fun ts => rfl⟩
    simp only [pairwise_append, mem_append]
    grind

theorem foldlM_pushMonotonic (hl : ∀ r ∈ l, r.from_ ≤ r.to_)
    (hsorted : l.Pairwise fun r r' => r.from_ ≤ r'.from_) :
    ∃ ranges, l.foldlM pushMonotonic [] = some ranges ∧ Separated ranges ∧
      (∀ r ∈ ranges, ∃ r' ∈ l, r.from_ ≤ r'.from_) ∧ ∀ ts, covers ranges ts = covers l ts := by
  induction l using reverseRecOn with
  | nil => exact ⟨[], rfl, ⟨by simp, .nil⟩, by simp, fun _ => rfl⟩
  | append_singleton l range ih =>
    simp only [mem_append, mem_singleton, or_imp, forall_and, forall_eq, pairwise_append]
      at hl hsorted
    obtain ⟨ranges, hfold, hranges, hfrom, hcovers⟩ := ih hl.1 hsorted.1
    obtain ⟨out, hpush, hout, hlast, hcovers'⟩ := pushMonotonic_spec hranges hl.2 fun r hr => by
      obtain ⟨r', hr', hle⟩ := hfrom r hr
      exact BitVec.le_trans hle (hsorted.2.2 r' hr')
    refine ⟨out, by simp [hfold, hpush], hout, fun r hr => ⟨range, by simp, hlast r hr⟩, ?_⟩
    intro ts
    have hts := hcovers ts
    simp_all [covers]

theorem Separated.sorted (h : Separated ranges) :
    ranges.Pairwise fun r r' => r.from_ ≤ r'.from_ :=
  h.apart.imp_of_mem fun hr _ hlt => BitVec.le_trans (h.nonempty _ hr) (BitVec.le_of_lt hlt)

theorem Ranges.merge_spec {other : List (Range w)} (h : Separated ranges)
    (hother : Separated other) :
    ∃ ranges', Ranges.merge ranges other = some ranges' ∧ Separated ranges' ∧
      ∀ ts, covers ranges' ts = (covers ranges ts || covers other ts) := by
  have hsorted : (ranges.merge other fun a b => a.from_ ≤ b.from_).Pairwise
      fun a b => decide (a.from_ ≤ b.from_) :=
    pairwise_merge (by simpa using fun a b c => BitVec.le_trans)
      (by simpa using fun a b : Range w => BitVec.le_total a.from_ b.from_) _ _
      (by simpa using h.sorted) (by simpa using hother.sorted)
  obtain ⟨out, hfold, hout, -, hcovers⟩ := foldlM_pushMonotonic
    (fun r hr => (mem_merge.mp hr).elim (h.nonempty r) (hother.nonempty r))
    (by simpa using hsorted)
  refine ⟨out, hfold, hout, fun ts => ?_⟩
  rw [hcovers, Bool.eq_iff_iff]
  simp [covers, mem_merge, or_and_right, exists_or]

namespace RelRange

variable (r : RelRange w)

theorem affectedRangeOf_mono {ts ts' : BitVec w} (h : ts ≤ ts') {range range' : Range w}
    (hrange : r.affectedRangeOf ts = some range) (hrange' : r.affectedRangeOf ts' = some range') :
    range.from_ ≤ range'.from_ := by
  simp only [affectedRangeOf, Option.bind_eq_bind, Option.bind_eq_some_iff, Option.some.injEq]
    at hrange hrange'
  obtain ⟨first, hfirst, -, -, rfl⟩ := hrange
  obtain ⟨first', hfirst', -, -, rfl⟩ := hrange'
  have hle := (r.to_.neg.lower_le ts' first').mp ⟨first', hfirst', BitVec.le_refl _⟩
  rw [BitVec.le_def] at h
  obtain ⟨lower, hlower, hle⟩ := (r.to_.neg.lower_le ts first').mpr (by omega)
  obtain rfl : lower = first := Option.some.inj (hlower.symm.trans hfirst)
  exact hle

theorem affectedRangeOf_contains (key ts : BitVec w) :
    (r.affectedRangeOf key).any (·.Contains ts) = (r.rangeOf ts).any (·.Contains key) := by
  have hleft := exists_contains r.to_.neg r.from_.neg key ts
  have hright := exists_contains r.from_ r.to_ ts key
  simp only [RelOffset.toInt_neg] at hleft
  rw [Bool.eq_iff_iff, Option.any_eq_true, Option.any_eq_true]
  simp only [decide_eq_true_eq]
  refine hleft.trans (Iff.trans ?_ hright.symm)
  omega

theorem covers_affected (delta : List (BitVec w)) (ts : BitVec w) :
    (covers (delta.filterMap r.affectedRangeOf) ts || covers (delta.map fun ts => ⟨ts, ts⟩) ts) =
      r.affects delta ts := by
  induction delta with
  | nil => rfl
  | cons key delta ih =>
    have hpoint : decide ((⟨key, key⟩ : Range w).Contains ts) = decide (key = ts) := by
      apply decide_eq_decide.mpr
      exact ⟨fun h => BitVec.le_antisymm h.1 h.2, by rintro rfl; simp [Range.Contains]⟩
    have hkey := r.affectedRangeOf_contains key ts
    rw [affects, any_cons, ← affects, ← ih, ← hkey]
    cases hrange : r.affectedRangeOf key <;>
      simp [hrange, covers_cons, hpoint, Bool.or_assoc, Bool.or_left_comm]

theorem affectedRanges_spec (hr : r.from_.toInt ≤ r.to_.toInt) {delta : List (BitVec w)}
    (hdelta : delta.Pairwise (· < ·)) :
    ∃ ranges, r.affectedRanges delta = some ranges ∧ Separated ranges ∧
      ∀ ts, covers ranges ts = r.affects delta ts := by
  obtain ⟨affected, haffected, hseparated, -, hcovers⟩ :=
    foldlM_pushMonotonic (l := delta.filterMap r.affectedRangeOf)
      (fun range hrange => by
        obtain ⟨ts, -, hts⟩ := mem_filterMap.mp hrange
        exact r.affectedRangeOf_ordered hr hts)
      (hdelta.filterMap r.affectedRangeOf fun ts ts' hlt range hrange range' hrange' =>
        r.affectedRangeOf_mono (BitVec.le_of_lt hlt) hrange hrange')
  obtain ⟨deltas, hdeltas, hseparated', -, hcovers'⟩ :=
    foldlM_pushMonotonic (l := delta.map fun ts => ⟨ts, ts⟩) (by simp)
      (pairwise_map.mpr (hdelta.imp BitVec.le_of_lt))
  obtain ⟨ranges, hmerge, hranges, hunion⟩ := Ranges.merge_spec hseparated hseparated'
  refine ⟨ranges, by simp [affectedRanges, haffected, hdeltas, hmerge], hranges, fun ts => ?_⟩
  rw [hunion, hcovers, hcovers', covers_affected]

end RelRange

namespace RangeCursor

theorem filter_dropWhile (h : Separated (range :: ranges)) (rest : List (BitVec w × A)) :
    (rest.dropWhile (·.1 < range.from_)).filter (covers (range :: ranges) ·.1) =
      rest.filter (covers (range :: ranges) ·.1) := by
  induction rest with
  | nil => rfl
  | cons entry rest ih =>
    rw [dropWhile_cons]
    split
    · next hlt =>
      have hnext := (pairwise_cons.mp h.apart).1
      have hle := h.nonempty range mem_cons_self
      rw [ih, filter_cons_of_neg]
      simp only [covers, any_eq_true, Range.Contains, mem_cons]
      grind
    · rfl

theorem visited_advance (h : Separated ranges) {rest : List (BitVec w × A)}
    (hrest : rest.Pairwise (·.1 < ·.1)) {fuel : ℕ} (hfuel : rest.length ≤ fuel) :
    visited fuel (advance ranges rest) = rest.filter (covers ranges ·.1) := by
  induction fuel generalizing ranges rest with
  | zero =>
    obtain rfl := eq_nil_of_length_eq_zero (Nat.le_zero.mp hfuel)
    rfl
  | succ fuel ih =>
    induction ranges generalizing rest with
    | nil => cases rest <;> simp [advance, visited, covers]
    | cons range ranges ihr =>
      have hsuffix := dropWhile_suffix (l := rest) (·.1 < range.from_)
      have hsorted := hrest.sublist hsuffix.sublist
      have hlen := hsuffix.length_le
      have hfrom := head?_dropWhile_not (·.1 < range.from_) rest
      rw [advance, ← filter_dropWhile h rest]
      cases hdrop : rest.dropWhile (·.1 < range.from_) with
      | nil => rfl
      | cons entry rest' =>
        rw [hdrop] at hsorted hlen hfrom
        simp only [head?_cons, length_cons, pairwise_cons, decide_eq_false_iff_not,
          BitVec.not_lt] at hlen hfrom hsorted
        dsimp only
        split
        · next hto =>
          rw [visited, ih h hsorted.2 (by omega), filter_cons_of_pos]
          simp [covers_cons, Range.Contains, hfrom, hto]
        · next hto =>
          rw [ihr ⟨fun r hr => h.nonempty r (mem_cons_of_mem _ hr), h.apart.of_cons⟩
            (pairwise_cons.mpr hsorted) (by simp; omega)]
          apply filter_congr
          intro e he
          have hlt : ¬ e.1 ≤ range.to_ := by grind
          simp [covers_cons, Range.Contains, hlt]

end RangeCursor

/-- No assertion of `affected_ranges` fails, the ranges are not empty, in order and apart, and a
cursor that is restricted to them visits exactly the entries whose aggregate is to be computed anew:
those at the timestamps of the delta and those in whose range the delta has a timestamp. -/
theorem RelRange.visits_affected (r : RelRange w) (hr : r.from_.toInt ≤ r.to_.toInt)
    (delta : List (BitVec w)) (hdelta : delta.Pairwise (· < ·)) :
    ∃ ranges, r.affectedRanges delta = some ranges ∧ Separated ranges ∧
      ∀ trace : List (BitVec w × A), trace.Pairwise (·.1 < ·.1) → ∀ fuel ≥ trace.length,
        RangeCursor.visited fuel (.advance ranges trace) = trace.filter (r.affects delta ·.1) := by
  obtain ⟨ranges, heq, hranges, hcovers⟩ := r.affectedRanges_spec hr hdelta
  refine ⟨ranges, heq, hranges, fun trace htrace fuel hfuel => ?_⟩
  rw [RangeCursor.visited_advance hranges htrace hfuel]
  simp only [hcovers]

/-- With a range of the last two timestamps, 3 and 5 affect 6, and 20 affects 21. -/
theorem RelRange.visits_affected_six :
    ∃ ranges, (⟨.before 2, .before 0⟩ : RelRange 8).affectedRanges [3, 5, 20] = some ranges ∧
      RangeCursor.visited 4 (.advance ranges [(1, ()), (6, ()), (8, ()), (21, ())]) =
        [(6, ()), (21, ())] := by
  obtain ⟨ranges, heq, -, hvisited⟩ := RelRange.visits_affected (A := Unit)
    (⟨.before 2, .before 0⟩ : RelRange 8) (by decide) [3, 5, 20] (by decide)
  exact ⟨ranges, heq, (hvisited _ (by decide) 4 (by decide)).trans (by decide)⟩

end Feldera.TimeSeries
