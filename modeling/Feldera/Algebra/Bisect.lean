import Mathlib.Tactic

/-!
Bisection over an index range whose probes answer less, equal or greater. A probe may fail
and carries a scratch state; an equal answer ends the search at once, and a probe that
answers `bias` is remembered as the best index so far.

Over answers that descend from greater through equal to less, the search finds an equal
index, or else the first index that is not greater (bias less) or the last that is not less
(bias greater).
-/

namespace Feldera.Algebra

structure Search (σ : Type) where
  best : Option Nat
  mid : Nat
  scratch : σ

def bisect {σ ε : Type} (probe : Nat → σ → Except ε (Ordering × σ)) (bias : Ordering) :
    Nat → Nat → Nat → Search σ → Except ε (Search σ)
  | 0, _, _, s => .ok s
  | fuel + 1, start, stop, s =>
    if start < stop then do
      let mid := (start + stop) / 2
      let (cmp, scratch) ← probe mid s.scratch
      let best := if cmp = bias then some mid else s.best
      match cmp with
      | .eq => .ok ⟨some mid, mid, scratch⟩
      | .lt => bisect probe bias fuel start mid ⟨best, mid, scratch⟩
      | .gt => bisect probe bias fuel (mid + 1) stop ⟨best, mid, scratch⟩
    else .ok s

structure Descends (cls : Nat → Ordering) (lo hi : Nat) : Prop where
  ne_gt : ∀ i j, lo ≤ i → i < j → j < hi → cls i ≠ .gt → cls j ≠ .gt
  eq_lt : ∀ i j, lo ≤ i → i < j → j < hi → cls i = .lt → cls j = .lt

/-- Once an answer is not greater, every later one is less. -/
def DescendsStrictly (cls : Nat → Ordering) (lo hi : Nat) : Prop :=
  ∀ i j, lo ≤ i → i < j → j < hi → cls i ≠ .gt → cls j = .lt

/-- The search is for the first or for the last match. -/
abbrev Sided (bias : Ordering) : Prop :=
  bias = .lt ∨ bias = .gt

/-- On which side of `i` a search with this bias has to find nothing. -/
def Ahead : Ordering → Nat → Nat → Prop
  | .lt, j, i => j < i
  | .gt, j, i => i < j
  | .eq, _, _ => False

/-- The index in `lo..hi` that a search with the given bias looks for. -/
structure Best (cls : Nat → Ordering) (bias : Ordering) (lo hi i : Nat) : Prop where
  le : lo ≤ i
  lt : i < hi
  hit : cls i ≠ bias.swap
  ahead : ∀ j, lo ≤ j → j < hi → Ahead bias j i → cls j = bias.swap

namespace Best

variable {cls : Nat → Ordering} {bias : Ordering} {lo hi lo' hi' i j : Nat}

theorem mono (h : Best cls bias lo hi i) (hlo : lo ≤ lo') (hhi : hi' ≤ hi) (hi₁ : lo' ≤ i)
    (hi₂ : i < hi') : Best cls bias lo' hi' i :=
  ⟨hi₁, hi₂, h.hit, fun j hj₁ hj₂ => h.ahead j (by omega) (by omega)⟩

theorem unique (hb : Sided bias) (h : Best cls bias lo hi i)
    (h' : Best cls bias lo hi j) : i = j := by
  obtain hlt | rfl | hlt := Nat.lt_trichotomy i j
  · obtain rfl | rfl := hb
    · exact absurd (h'.ahead i h.le h.lt hlt) h.hit
    · exact absurd (h.ahead j h'.le h'.lt hlt) h'.hit
  · rfl
  · obtain rfl | rfl := hb
    · exact absurd (h.ahead j h'.le h'.lt hlt) h'.hit
    · exact absurd (h'.ahead i h.le h.lt hlt) h.hit

/-- A range with a hit has a best index, and the hit is not ahead of it. -/
theorem of_hit (hb : Sided bias) (hlo : lo ≤ i) (hhi : i < hi)
    (hit : cls i ≠ bias.swap) : ∃ r, Best cls bias lo hi r ∧ ¬ Ahead bias i r := by
  obtain rfl | rfl := hb
  · induction i using Nat.strong_induction_on with
    | _ i ih =>
      by_cases hall : ∀ j, lo ≤ j → j < i → cls j = .gt
      · exact ⟨i, ⟨hlo, hhi, hit, fun j hj₁ _ hside => hall j hj₁ hside⟩, Nat.lt_irrefl i⟩
      · push Not at hall
        obtain ⟨j, hj₁, hj₂, hj⟩ := hall
        obtain ⟨r, hr, hside⟩ := ih j hj₂ hj₁ (hj₂.trans hhi) hj
        exact ⟨r, hr, fun h => hside (Nat.lt_trans hj₂ h)⟩
  · induction hn : hi - i using Nat.strong_induction_on generalizing i with
    | _ n ih =>
      by_cases hall : ∀ j, i < j → j < hi → cls j = .lt
      · exact ⟨i, ⟨hlo, hhi, hit, fun j _ hj₂ hside => hall j hside hj₂⟩, Nat.lt_irrefl i⟩
      · push Not at hall
        obtain ⟨j, hj₁, hj₂, hj⟩ := hall
        obtain ⟨r, hr, hside⟩ := ih (hi - j) (by omega) (by omega) hj₂ hj rfl
        exact ⟨r, hr, fun h => hside (Nat.lt_trans h hj₁)⟩

end Best

section

variable {σ ε : Type} {probe : Nat → σ → Except ε (Ordering × σ)} {cls : Nat → Ordering}
  {bias : Ordering}

/-- Every probe of the range answers according to `cls`, whatever the scratch state. -/
def Answers (probe : Nat → σ → Except ε (Ordering × σ)) (cls : Nat → Ordering) (lo hi : Nat) :
    Prop :=
  ∀ i s, lo ≤ i → i < hi → ∃ s', probe i s = .ok (cls i, s')

/-- What the search has found when it ends: an equal index, the best index of the range, or
what it started with when the range holds neither. -/
inductive Finds (cls : Nat → Ordering) (bias : Ordering) (lo hi : Nat) (before : Option Nat) :
    Option Nat → Prop
  | equal {i : Nat} : lo ≤ i → i < hi → cls i = .eq → Finds cls bias lo hi before (some i)
  | best {i : Nat} : Best cls bias lo hi i → Finds cls bias lo hi before (some i)
  | nothing : (∀ i, lo ≤ i → i < hi → cls i = bias.swap) → Finds cls bias lo hi before before

variable {hi hi' lo lo' mid : Nat} {after before : Option Nat} {s : Search σ}

theorem Answers.mono (h : Answers probe cls lo hi) (hlo : lo ≤ lo') (hhi : hi' ≤ hi) :
    Answers probe cls lo' hi' :=
  fun i s h₁ h₂ => h i s (by omega) (by omega)

theorem Descends.mono (h : Descends cls lo hi) (hlo : lo ≤ lo') (hhi : hi' ≤ hi) :
    Descends cls lo' hi' :=
  ⟨fun i j h₁ h₂ h₃ => h.ne_gt i j (by omega) h₂ (by omega),
    fun i j h₁ h₂ h₃ => h.eq_lt i j (by omega) h₂ (by omega)⟩

theorem Descends.gt_before {i j : Nat} (h : Descends cls lo hi) (hlo : lo ≤ i) (hij : i ≤ j)
    (hj : j < hi) (hgt : cls j = .gt) : cls i = .gt := by
  obtain rfl | hlt := Nat.eq_or_lt_of_le hij
  · exact hgt
  · by_contra hne
    exact h.ne_gt i j hlo hlt hj hne hgt

theorem Descends.lt_after {i j : Nat} (h : Descends cls lo hi) (hlo : lo ≤ i) (hij : i ≤ j)
    (hj : j < hi) (hcls : cls i = .lt) : cls j = .lt := by
  obtain rfl | hlt := Nat.eq_or_lt_of_le hij
  · exact hcls
  · exact h.eq_lt i j hlo hlt hj hcls

theorem DescendsStrictly.mono (h : DescendsStrictly cls lo hi) (hlo : lo ≤ lo') (hhi : hi' ≤ hi)
    : DescendsStrictly cls lo' hi' :=
  fun i j h₁ h₂ h₃ => h i j (by omega) h₂ (by omega)

theorem DescendsStrictly.descends (h : DescendsStrictly cls lo hi) : Descends cls lo hi :=
  ⟨fun i j h₁ h₂ h₃ hne => by simp [h i j h₁ h₂ h₃ hne],
    fun i j h₁ h₂ h₃ heq => h i j h₁ h₂ h₃ (by simp [heq])⟩

theorem Best.of_eq (hb : Sided bias) (hd : DescendsStrictly cls lo hi)
    (hlo : lo ≤ mid) (hhi : mid < hi) (heq : cls mid = .eq) : Best cls bias lo hi mid := by
  obtain rfl | rfl := hb
  · refine ⟨hlo, hhi, by simp [heq], fun j hj₁ _ hside => ?_⟩
    by_contra hne
    simp [hd j mid hj₁ hside hhi hne] at heq
  · exact ⟨hlo, hhi, by simp [heq], fun j _ hj₂ hside => hd mid j hlo hside hj₂ (by simp [heq])⟩

theorem Finds.below (hd : Descends cls lo hi) (hb : Sided bias) (hlo : lo ≤ mid)
    (hhi : mid < hi) (hmid : cls mid = .lt)
    (h : Finds cls bias lo mid (if cls mid = bias then some mid else before) after) :
    Finds cls bias lo hi before after := by
  have habove : ∀ j, mid ≤ j → j < hi → cls j = .lt := fun j hj hj' =>
    hd.lt_after hlo hj hj' hmid
  cases h with
  | equal h₁ h₂ heq => exact .equal h₁ (by omega) heq
  | best hbest =>
    refine .best ⟨hbest.le, Nat.lt_trans hbest.lt hhi, hbest.hit, fun j hj₁ hj₂ hside => ?_⟩
    by_cases hj : j < mid
    · exact hbest.ahead j hj₁ hj hside
    · obtain rfl | rfl := hb
      · exact absurd (Nat.lt_trans hside hbest.lt) hj
      · exact habove j (by omega) hj₂
  | nothing hnone =>
    obtain rfl | rfl := hb
    · rw [if_pos hmid]
      exact .best ⟨hlo, hhi, by simp [hmid], fun j hj₁ _ hside => hnone j hj₁ hside⟩
    rw [if_neg (by simp [hmid])]
    refine .nothing fun j hj₁ hj₂ => ?_
    by_cases hj : j < mid
    · exact hnone j hj₁ hj
    · exact habove j (by omega) hj₂

theorem Finds.above (hd : Descends cls lo hi) (hb : Sided bias) (hlo : lo ≤ mid)
    (hhi : mid < hi) (hmid : cls mid = .gt)
    (h : Finds cls bias (mid + 1) hi (if cls mid = bias then some mid else before) after) :
    Finds cls bias lo hi before after := by
  have hbelow : ∀ j, lo ≤ j → j ≤ mid → cls j = .gt := fun j hj hj' =>
    hd.gt_before hj hj' hhi hmid
  cases h with
  | equal h₁ h₂ heq => exact .equal (by omega) h₂ heq
  | best hbest =>
    have hle := hbest.le
    refine .best ⟨by omega, hbest.lt, hbest.hit, fun j hj₁ hj₂ hside => ?_⟩
    by_cases hj : mid < j
    · exact hbest.ahead j hj hj₂ hside
    · obtain rfl | rfl := hb
      · exact hbelow j hj₁ (by omega)
      · exact absurd (Nat.lt_trans hle hside) hj
  | nothing hnone =>
    obtain rfl | rfl := hb
    · rw [if_neg (by simp [hmid])]
      refine .nothing fun j hj₁ hj₂ => ?_
      by_cases hj : mid < j
      · exact hnone j hj hj₂
      · exact hbelow j hj₁ (by omega)
    · rw [if_pos hmid]
      exact .best ⟨hlo, hhi, by simp [hmid], fun j _ hj₂ hside => hnone j hside hj₂⟩

/-- Over strictly descending answers the search finds the best index or nothing. -/
theorem Finds.best_or_nothing (hd : DescendsStrictly cls lo hi) (hb : Sided bias)
    (h : Finds cls bias lo hi before after) :
    (∃ i, after = some i ∧ Best cls bias lo hi i) ∨
      after = before ∧ ∀ i, lo ≤ i → i < hi → cls i = bias.swap := by
  cases h with
  | equal h₁ h₂ heq => exact .inl ⟨_, rfl, .of_eq hb hd h₁ h₂ heq⟩
  | best hbest => exact .inl ⟨_, rfl, hbest⟩
  | nothing hnone => exact .inr ⟨rfl, hnone⟩

theorem bisect_finds (hb : Sided bias) (fuel : Nat) (hd : Descends cls lo hi)
    (hp : Answers probe cls lo hi) (hfuel : hi - lo ≤ fuel) :
    ∃ r, bisect probe bias fuel lo hi s = .ok r ∧ Finds cls bias lo hi s.best r.best := by
  induction fuel generalizing lo hi s with
  | zero => exact ⟨s, rfl, .nothing fun i h₁ h₂ => by omega⟩
  | succ fuel ih =>
    unfold bisect
    by_cases hlt : lo < hi
    · have hmid₁ : lo ≤ (lo + hi) / 2 := by omega
      have hmid₂ : (lo + hi) / 2 < hi := by omega
      obtain ⟨s', hs'⟩ := hp _ s.scratch hmid₁ hmid₂
      simp only [if_pos hlt, hs', bind, Except.bind]
      cases hcls : cls ((lo + hi) / 2) with
      | eq => exact ⟨_, rfl, .equal hmid₁ hmid₂ hcls⟩
      | lt =>
        have hfuel' : (lo + hi) / 2 - lo ≤ fuel := by omega
        obtain ⟨r, hr, hf⟩ := ih (hd.mono le_rfl hmid₂.le) (hp.mono le_rfl hmid₂.le) hfuel'
        exact ⟨r, hr, .below hd hb hmid₁ hmid₂ hcls (by rwa [hcls])⟩
      | gt =>
        have hlo' : lo ≤ (lo + hi) / 2 + 1 := by omega
        have hfuel' : hi - ((lo + hi) / 2 + 1) ≤ fuel := by omega
        obtain ⟨r, hr, hf⟩ := ih (hd.mono hlo' le_rfl) (hp.mono hlo' le_rfl) hfuel'
        exact ⟨r, hr, .above hd hb hmid₁ hmid₂ hcls (by rwa [hcls])⟩
    · exact ⟨s, by simp [hlt], .nothing fun i h₁ h₂ => by omega⟩

/-- A search for an equal answer finds one when there is one. -/
theorem bisect_equal (fuel : Nat) {i : Nat} (hd : Descends cls lo hi)
    (hp : Answers probe cls lo hi) (hfuel : hi - lo ≤ fuel) (hlo : lo ≤ i) (hhi : i < hi)
    (heq : cls i = .eq) :
    ∃ r j, bisect probe .eq fuel lo hi s = .ok r ∧ r.best = some j ∧ j < hi ∧ cls j = .eq := by
  induction fuel generalizing lo hi s with
  | zero => omega
  | succ fuel ih =>
    unfold bisect
    have hlt : lo < hi := by omega
    have hmid₁ : lo ≤ (lo + hi) / 2 := by omega
    have hmid₂ : (lo + hi) / 2 < hi := by omega
    obtain ⟨s', hs'⟩ := hp _ s.scratch hmid₁ hmid₂
    simp only [if_pos hlt, hs', bind, Except.bind]
    cases hcls : cls ((lo + hi) / 2) with
    | eq => exact ⟨_, _, rfl, rfl, hmid₂, hcls⟩
    | lt =>
      have hi' : i < (lo + hi) / 2 := by
        by_contra hge
        simp [hd.lt_after hmid₁ (Nat.le_of_not_lt hge) hhi hcls] at heq
      have hfuel' : (lo + hi) / 2 - lo ≤ fuel := by omega
      obtain ⟨r, j, hr, hbest, hlt, hj⟩ :=
        ih (hd.mono le_rfl hmid₂.le) (hp.mono le_rfl hmid₂.le) hfuel' hlo hi'
      exact ⟨r, j, hr, hbest, hlt.trans hmid₂, hj⟩
    | gt =>
      have hi' : (lo + hi) / 2 + 1 ≤ i := by
        by_contra hge
        simp [hd.gt_before hlo (by omega) hmid₂ hcls] at heq
      have hlo' : lo ≤ (lo + hi) / 2 + 1 := by omega
      have hfuel' : hi - ((lo + hi) / 2 + 1) ≤ fuel := by omega
      exact ih (hd.mono hlo' le_rfl) (hp.mono hlo' le_rfl) hfuel' hi' hhi

/-- When every probe leaves `f i` in the scratch state, a search that has found something
ends with the scratch state of its last probe. -/
theorem bisect_scratch {f : Nat → σ} (fuel : Nat) {r : Search σ}
    (hp : ∀ i s, lo ≤ i → i < hi → ∃ o, probe i s = .ok (o, f i))
    (hs : s.best.isSome → s.scratch = f s.mid) (hr : bisect probe bias fuel lo hi s = .ok r) :
    r.best.isSome → r.scratch = f r.mid := by
  induction fuel generalizing lo hi s with
  | zero =>
    obtain rfl : s = r := Except.ok.inj hr
    exact hs
  | succ fuel ih =>
    unfold bisect at hr
    by_cases hlt : lo < hi
    · obtain ⟨o, ho⟩ := hp ((lo + hi) / 2) s.scratch (by omega) (by omega)
      simp only [if_pos hlt, ho, bind, Except.bind] at hr
      cases o with
      | eq =>
        cases hr
        exact fun _ => rfl
      | lt =>
        exact ih (fun i s h₁ h₂ => hp i s h₁ (by omega)) (fun _ => rfl) hr
      | gt =>
        exact ih (fun i s h₁ h₂ => hp i s (by omega) h₂) (fun _ => rfl) hr
    · obtain rfl : s = r := by simpa [hlt] using hr
      exact hs

/-- A search over strictly descending answers whose probes leave `f i` in the scratch state. -/
theorem bisect_best {f : Nat → σ} (hb : Sided bias) (scratch : σ)
    (hd : DescendsStrictly cls lo hi)
    (hp : ∀ i s, lo ≤ i → i < hi → probe i s = .ok (cls i, f i)) :
    ∃ r, bisect probe bias (hi - lo) lo hi ⟨none, 0, scratch⟩ = .ok r ∧
      ((∃ i, r.best = some i ∧ Best cls bias lo hi i ∧ r.scratch = f r.mid) ∨
        r.best = none ∧ ∀ i, lo ≤ i → i < hi → cls i = bias.swap) := by
  have hp' : Answers probe cls lo hi := fun i s h₁ h₂ => ⟨f i, hp i s h₁ h₂⟩
  obtain ⟨r, hr, hfinds⟩ := bisect_finds hb (hi - lo) hd.descends hp' le_rfl
  refine ⟨r, hr, ?_⟩
  obtain ⟨i, hsome, hbest⟩ | hnone := hfinds.best_or_nothing hd hb
  · have hscratch := bisect_scratch (hi - lo) (fun i s h₁ h₂ => ⟨cls i, hp i s h₁ h₂⟩)
      (by simp) hr (Option.isSome_of_eq_some hsome)
    exact .inl ⟨i, hsome, hbest, hscratch⟩
  · exact .inr hnone

end

end Feldera.Algebra
