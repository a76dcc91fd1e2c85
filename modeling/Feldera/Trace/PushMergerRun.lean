import Feldera.Trace.PushCursor

/-!
Between two calls the cursors need not stand on something that passes the filters:
skipping may have been cut short. What they have left to contribute is what passes of
the rest of their batches (`Rest`). Inside a call every cursor stands on something that
passes, and the key in progress is merged as `ListMerger` does it; a loop that is cut
short, for lack of fuel or because a value is pending, leaves the merger at rest.
-/

namespace Feldera.Trace.PushMerger

open Weighted Time LayerMerge ListMerger List

variable {K V T R : Type*} {n : Nat} {keyFilter : Option (K → Bool)}
  {valueFilter : Option (V → Bool)} {cfg : Config T} {total : K × V × T → R}
  {call : Call n} {k : K} {s s' : State n K V T R} {l : Layers K V T R}

section

variable (keyFilter valueFilter) in
theorem headKey_passingRest (l : Layers K V T R) :
    headKey (passingRest keyFilter valueFilter l) = headKey l := by
  cases l <;> rfl

theorem headVal_passingRest (h : Skipped keyFilter valueFilter l) :
    headVal (passingRest keyFilter valueFilter l) = headVal l := by
  cases l with
  | nil => rfl
  | cons p rest => exact head_passingVals valueFilter h.2

theorem hasVal_eq {i : Fin n} (h : Readable call i l) : hasVal call i l = (headVal l).isSome := by
  rw [hasVal, h.val]
  exact Option.isSome_map ..

/-- On a key that passes, what passes of the rest drops the key if none of its values does. -/
theorem sameAt_passing (hk : headKey l = some k) (hinc : includes keyFilter k = true) :
    SameAt k (passingRest keyFilter valueFilter l) (passing keyFilter valueFilter l) := by
  obtain ⟨vs, rest, rfl⟩ := headKey_eq_some.mp hk
  rw [passing_cons]
  cases hvs : passingVals valueFilter vs with
  | nil => exact Or.inr (Or.inl (by simp [passingRest, hvs]))
  | cons q us => exact Or.inl (by simp [passingRest, hvs, hinc])

theorem passing_eq_of_vals (hskipped : Skipped keyFilter valueFilter l)
    (hspent : spentKey l = none) :
    passing keyFilter valueFilter l = passingRest keyFilter valueFilter l := by
  cases l with
  | nil => rfl
  | cons p rest =>
    obtain ⟨k, vs⟩ := p
    cases vs with
    | nil => simp [spentKey] at hspent
    | cons q vs =>
      have hq := hskipped.2 q rfl
      rw [passing_cons, passingRest, hskipped.1]
      simp [passingVals, hq]

/-- Keys and values left in all cursors, whether or not they pass. -/
abbrev workLeft (s : State n K V T R) : Nat :=
  ListMerger.workLeft (fun l => l) s

abbrev Spent (s s' : State n K V T R) : Prop :=
  ListMerger.Spent (fun l => l) s s'

theorem workLeft_congr (h : s'.cursors = s.cursors) : workLeft s' = workLeft s := by
  unfold workLeft ListMerger.workLeft ListMerger.views
  rw [h]

theorem setCursor_self (i : Fin n) (fuel : ℤ) : (setCursor s i l fuel).cursors i = l := by
  simp [setCursor]

theorem setCursor_of_ne {i j : Fin n} (hj : j ≠ i) (fuel : ℤ) :
    (setCursor s i l fuel).cursors j = s.cursors j := by
  simp [setCursor, hj]

@[elab_as_elim] theorem setCursor_elim {motive : Fin n → Layers K V T R → Prop} {i : Fin n}
    {fuel : ℤ} (j : Fin n) (hi : motive i l) (hother : ∀ j, j ≠ i → motive j (s.cursors j)) :
    motive j ((setCursor s i l fuel).cursors j) := by
  by_cases hj : j = i
  · subst hj
    rwa [setCursor_self]
  · rw [setCursor_of_ne hj]
    exact hother j hj

/-- What can be read is not pending. -/
theorem any_isNone_eq_false {α : Type*} {f : Fin n → Except Pending α} {g : Fin n → α}
    (h : ∀ i, f i = .ok (g i)) (indexes : List (Fin n)) :
    (indexes.any fun i => (f i).toOption.isNone) = false := by
  rw [any_eq_false]
  intro i _
  simp [h i, Except.toOption]

theorem workLeft_setCursor (s : State n K V T R) (i : Fin n) (l : Layers K V T R) (fuel : ℤ) :
    workLeft (setCursor s i l fuel) + size (s.cursors i) =
      workLeft s + size l := by
  have hupdate : ∀ j, size ((setCursor s i l fuel).cursors j) =
      Function.update (fun j => size (s.cursors j)) i (size l) j := by
    intro j
    by_cases hj : j = i
    · subst hj
      simp [setCursor_self]
    · simp [setCursor_of_ne, hj]
  have hbefore : workLeft s = size (s.cursors i) +
      ∑ j ∈ Finset.univ \ {i}, LayerMerge.size (s.cursors j) :=
    Finset.sum_eq_add_sum_sdiff_singleton_of_mem (Finset.mem_univ i) _
  have hafter : workLeft (setCursor s i l fuel) = LayerMerge.size l +
      ∑ j ∈ Finset.univ \ {i}, LayerMerge.size (s.cursors j) := by
    unfold workLeft ListMerger.workLeft ListMerger.views
    simp only [hupdate]
    exact Finset.sum_update_of_mem (Finset.mem_univ i) _ _
  omega

/-- On an exhausted key a cursor that skips stands on no value at all. -/
theorem spentKey_of_valsAt [LinearOrder K] (hskipped : Skipped keyFilter valueFilter l)
    (hk : headKey l = some k) (hvals : valsAt k (passingRest keyFilter valueFilter l) = []) :
    spentKey l = some k := by
  obtain ⟨vs, rest, rfl⟩ := headKey_eq_some.mp hk
  cases vs with
  | nil => rfl
  | cons q vs =>
    have hq := hskipped.2 q rfl
    simp [passingRest, valsAt, passingVals, hq] at hvals

end

variable [LinearOrder K] [LinearOrder V] [LinearOrder T] [AddCommMonoid R]

section

variable (keyFilter valueFilter cfg total) in
inductive Rest (s : State n K V T R) : Prop
  | between (rest : ∀ i, IsRest (s.cursors i))
      (between : Between cfg.move total (fun i => passing keyFilter valueFilter (s.cursors i))
        s.builder)
      (any : s.anyValues = false)
      (spent_le : ∀ i e, spentKey (s.cursors i) = some e →
        ∀ j, ∀ k ∈ headKey (passing keyFilter valueFilter (s.cursors j)), e ≤ k)
      (spent_eq : ∀ i j e e', spentKey (s.cursors i) = some e →
        spentKey (s.cursors j) = some e' → e = e')
  | inside (k : K) (rest : ∀ i, IsRest (s.cursors i))
      (atKey : AtKey cfg.move total k (fun i => passing keyFilter valueFilter (s.cursors i))
        s.builder)
      (any : s.anyValues = true) (vals : s.builder.vals ≠ [])
      (passes : includes keyFilter k = true)
      (at_key : ∃ i, headKey (s.cursors i) = some k)
      (ge : ∀ i, ∀ k' ∈ headKey (s.cursors i), k ≤ k')
      (spent : ∀ i e, spentKey (s.cursors i) = some e → e = k)

theorem Rest.isRest (h : Rest keyFilter valueFilter cfg total s) : ∀ i, IsRest (s.cursors i) := by
  cases h with
  | between hrest _ _ _ _ => exact hrest
  | inside _ hrest _ _ _ _ _ _ _ => exact hrest

theorem passing_isBatch_of_isRest (h : IsRest l) : IsBatch (passing keyFilter valueFilter l) := by
  cases l with
  | nil => exact IsLayer.nil _
  | cons p rest =>
    obtain ⟨k, vs⟩ := p
    have hrest := passing_isBatch keyFilter valueFilter h.2.2
    rw [passing_cons]
    split
    · next hcond =>
      refine isLayer_cons.mpr ⟨⟨by simpa using (Bool.and_eq_true_iff.mp hcond).2, ?_⟩, ?_, hrest⟩
      · exact ⟨h.1.sorted.filter _, fun p hp => h.1.contents p (mem_filter.mp hp).1⟩
      · intro q hq
        obtain ⟨p, hp, hpq⟩ := exists_mem_of_mem_passing keyFilter valueFilter hq
        exact hpq ▸ h.2.1 p hp
    · exact hrest

theorem headKey_le_of_passing (h : IsRest l)
    (hk : headKey (passing keyFilter valueFilter l) = some k) : ∃ k' ∈ headKey l, k' ≤ k := by
  obtain ⟨p, hp, rfl⟩ := exists_mem_of_headKey_passing keyFilter valueFilter hk
  cases l with
  | nil => exact absurd hp not_mem_nil
  | cons q rest =>
    refine ⟨q.1, rfl, ?_⟩
    rcases mem_cons.mp hp with rfl | hp
    · exact le_rfl
    · exact (h.2.1 p hp).le

/-- A cursor that stands on something that passes, or on an exhausted `k`. -/
theorem sameAt_passingRest (h : IsRest l) (hskipped : Skipped keyFilter valueFilter l)
    (hspent : ∀ e, spentKey l = some e → e = k) :
    SameAt k (passing keyFilter valueFilter l) (passingRest keyFilter valueFilter l) := by
  cases he : spentKey l with
  | none => exact Or.inl (passing_eq_of_vals hskipped he).symm
  | some e =>
    obtain rfl := hspent e he
    obtain ⟨rest, rfl⟩ := spentKey_eq_some.mp he
    have hpassing : passing keyFilter valueFilter ((e, []) :: rest) =
        passing keyFilter valueFilter rest := by
      rw [passing_cons]
      simp [passingVals]
    rw [hpassing]
    refine Or.inr (Or.inr ⟨rfl, fun hhead => ?_⟩)
    obtain ⟨p, hp, hpk⟩ := exists_mem_of_headKey_passing keyFilter valueFilter hhead
    exact absurd hpk (h.2.1 p hp).ne'

section

variable (hat : AtKey cfg.move total k (views (passingRest keyFilter valueFilter) s) s.builder)
include hat

/-- The exhausted cursors all stand on the key in progress. -/
theorem spent_eq_of_atKey (i : Fin n) (e : K) (he : spentKey (s.cursors i) = some e) : e = k := by
  by_contra hne
  obtain ⟨rest, hl⟩ := spentKey_eq_some.mp he
  have hview : views (passingRest keyFilter valueFilter) s i =
      (e, []) :: passing keyFilter valueFilter rest := by
    rw [views, hl]
    rfl
  have hbatch := hat.fresh i (by rw [hview]; simpa [headKey] using hne)
  rw [hview] at hbatch
  exact (isLayer_cons.mp hbatch).1.1 rfl

/-- A call that stops below the key `k` is at rest. -/
theorem rest_of_atKey (hrest : ∀ i, IsRest (s.cursors i))
    (hany : s.anyValues = true ↔ s.builder.vals ≠ []) (hinc : includes keyFilter k = true)
    (hk : ∃ i, headKey (s.cursors i) = some k)
    (hskipped : ∀ i, headKey (s.cursors i) ≠ some k → Skipped keyFilter valueFilter (s.cursors i)) :
    Rest keyFilter valueFilter cfg total s := by
  have hspent := spent_eq_of_atKey hat
  have hat' : AtKey cfg.move total k (fun i => passing keyFilter valueFilter (s.cursors i))
      s.builder := by
    refine hat.congr fun i => ?_
    by_cases hi : headKey (s.cursors i) = some k
    · exact sameAt_passing hi hinc
    · refine Or.inl (passing_eq_of_vals (hskipped i hi) ?_)
      by_contra hne
      exact hi (headKey_of_spentKey (eq_of_spentKey_ne_none hne (hspent i)))
  cases hvalues : s.anyValues with
  | true =>
    refine .inside k hrest hat' hvalues (hany.mp hvalues) hinc hk (fun i k' hk' => ?_) hspent
    exact hat.key_le i k' ((headKey_passingRest keyFilter valueFilter _).trans hk')
  | false =>
    have hvals : s.builder.vals = [] := by
      by_contra hne
      rw [hany.mpr hne] at hvalues
      cases hvalues
    refine .between hrest
      (hat'.between hvals fun i => passing_isBatch_of_isRest (hrest i)) hvalues ?_ ?_
    · intro i e he j k' hk'
      rw [hspent i e he]
      exact hat'.key_le j k' hk'
    · intro i j e e' he he'
      rw [hspent i e he, hspent j e' he']

end

end

section

variable {indexes minKeys : List (Fin n)} {v : V} {Q : Prop}

variable (keyFilter valueFilter cfg total call) in
/-- The key `k` is being merged, and every cursor stands on something that passes. -/
structure Inside (k : K) (s : State n K V T R) : Prop where
  state : ListMerger.At cfg (Skipped keyFilter valueFilter) (passingRest keyFilter valueFilter)
    total k s
  rest : ∀ i, IsRest (s.cursors i)
  readable : ∀ i, Readable call i (s.cursors i)
  passes : includes keyFilter k = true
  at_key : ∃ i, headKey (s.cursors i) = some k

theorem Inside.settled (h : Inside keyFilter valueFilter cfg total call k s) (i : Fin n) :
    Settled keyFilter valueFilter call i (s.cursors i) :=
  ⟨h.state.cursors i, h.readable i⟩

theorem Inside.headVal_of_least (h : Inside keyFilter valueFilter cfg total call k s)
    (hleast : Least (passingRest keyFilter valueFilter) k s v indexes) :
    ∀ i ∈ indexes, (headVal (s.cursors i)).isSome := by
  intro i hi
  obtain ⟨-, ts, hts⟩ := hleast.at_val i hi
  rw [views, headVal_passingRest (h.state.cursors i)] at hts
  simp [hts]

variable (keyFilter valueFilter call) in
theorem stepMinVals_spec (hnodup : indexes.Nodup) (hrest : ∀ i ∈ indexes, IsRest (s.cursors i))
    (hsettled : ∀ i ∈ indexes, Settled keyFilter valueFilter call i (s.cursors i))
    (hval : ∀ i ∈ indexes, (headVal (s.cursors i)).isSome) (minKeys : List (Fin n))
    (pending : Bool) :
    ∃ s' minKeys' pending', stepMinVals call valueFilter indexes s minKeys pending =
        (s', minKeys', pending') ∧
      s'.builder = s.builder ∧ s'.anyValues = s.anyValues ∧
      (∀ i, i ∉ indexes → s'.cursors i = s.cursors i) ∧
      (∀ i ∈ indexes, IsRest (s'.cursors i) ∧ headKey (s'.cursors i) = headKey (s.cursors i) ∧
        passingRest keyFilter valueFilter (s'.cursors i) =
          LayerMerge.stepVal (passingRest keyFilter valueFilter (s.cursors i))) ∧
      s'.fuel ≤ s.fuel ∧ workLeft s' + indexes.length ≤ workLeft s ∧
      (pending' = false → pending = false ∧
        (∀ i ∈ indexes, Settled keyFilter valueFilter call i (s'.cursors i)) ∧
        minKeys' = minKeys.filter fun i =>
          !decide (i ∈ indexes) || (headVal (s'.cursors i)).isSome) := by
  induction indexes generalizing s minKeys pending with
  | nil =>
    refine ⟨s, minKeys, pending, rfl, rfl, rfl, fun _ _ => rfl, by simp, le_rfl, le_rfl, ?_⟩
    intro hp
    exact ⟨hp, by simp, by simp⟩
  | cons i indexes ih =>
    obtain ⟨hi, hnodup'⟩ := nodup_cons.mp hnodup
    obtain ⟨l, fuel, r, hstep, hl, hhead, hview, hfuel, hcost, hok⟩ :=
      stepVal_moved call (hrest i (by simp)) (hsettled i (by simp)) (hval i (by simp))
    have hwork := workLeft_setCursor s i l fuel
    have hsame : ∀ j ∈ indexes, (setCursor s i l fuel).cursors j = s.cursors j := by
      intro j hj
      refine setCursor_of_ne ?_ fuel
      rintro rfl
      exact hi hj
    -- the cursors that are stepped later are not touched by the step of `i`
    have hih := fun mk p => ih hnodup' (s := setCursor s i l fuel)
      (fun j hj => by rw [hsame j hj]; exact hrest j (by simp [hj]))
      (fun j hj => by rw [hsame j hj]; exact hsettled j (by simp [hj]))
      (fun j hj => by rw [hsame j hj]; exact hval j (by simp [hj])) mk p
    have hcont : ∃ mk p, stepMinVals call valueFilter (i :: indexes) s minKeys pending =
          stepMinVals call valueFilter indexes (setCursor s i l fuel) mk p ∧
        (p = false → pending = false ∧ Settled keyFilter valueFilter call i l ∧
          mk = minKeys.filter fun j => decide (j ≠ i) || (headVal l).isSome) := by
      rw [stepMinVals, hstep]
      cases r with
      | error e => exact ⟨_, _, rfl, nofun⟩
      | ok b =>
        obtain ⟨hset, hb⟩ := hok b rfl
        cases b with
        | true => exact ⟨_, _, rfl, fun hp => ⟨hp, hset, by simp [← hb]⟩⟩
        | false => exact ⟨_, _, rfl, fun hp => ⟨hp, hset, by simp [← hb]⟩⟩
    obtain ⟨mk, p, heq, hp⟩ := hcont
    obtain ⟨s', mk', p', heq', hbuilder, hany, hout, hin, hfuel', hleft, hend⟩ := hih mk p
    have hcursor : s'.cursors i = l := (hout i hi).trans (setCursor_self i fuel)
    refine ⟨s', mk', p', heq.trans heq', hbuilder, hany, ?_, ?_, ?_, ?_, ?_⟩
    · intro j hj
      rw [mem_cons, not_or] at hj
      rw [hout j hj.2, setCursor_of_ne hj.1]
    · intro j hj
      rcases mem_cons.mp hj with rfl | hj
      · rw [hcursor]
        exact ⟨hl, hhead, hview⟩
      · have hj' := hin j hj
        rw [hsame j hj] at hj'
        exact hj'
    · exact hfuel'.trans hfuel.le
    · rw [length_cons]
      omega
    · intro hp'
      obtain ⟨hp0, hset, hmk⟩ := hend hp'
      obtain ⟨hpending, hset', hmk'⟩ := hp hp0
      refine ⟨hpending, ?_, ?_⟩
      · intro j hj
        rcases mem_cons.mp hj with rfl | hj
        · rw [hcursor]
          exact hset'
        · exact hset j hj
      · rw [hmk, hmk', filter_filter]
        refine filter_congr fun j _ => ?_
        by_cases hji : j = i
        · subst hji
          simp [hi, hcursor]
        · simp [hji]

variable (keyFilter valueFilter cfg total s s') in
structure Part (flow : Flow) (Q : Prop) : Prop where
  spent : Spent s s'
  goes_on : flow = .goesOn → Q
  returns : flow = .returns → Rest keyFilter valueFilter cfg total s' ∧
    (0 < s'.fuel → ∀ i, s'.cursors i = [])
  pending : flow = .pending → Rest keyFilter valueFilter cfg total s'
  no_panic : flow ≠ .panics

variable {flow : Flow} {Q' : Prop}

section

variable (h : Spent s s')

include h

theorem Part.after {s'' : State n K V T R}
    (h' : Part keyFilter valueFilter cfg total s' s'' flow Q) (hQ : Q → Q') :
    Part keyFilter valueFilter cfg total s s'' flow Q' :=
  ⟨h.trans h'.spent, fun hflow => hQ (h'.goes_on hflow), h'.returns, h'.pending, h'.no_panic⟩

theorem Part.goesOn (hQ : Q) :
    Part keyFilter valueFilter cfg total s s' .goesOn Q :=
  ⟨h, fun _ => hQ, nofun, nofun, nofun⟩

theorem Part.outOfFuel (hrest : Rest keyFilter valueFilter cfg total s')
    (hfuel : s'.fuel ≤ 0) : Part keyFilter valueFilter cfg total s s' .returns Q :=
  ⟨h, nofun, fun _ => ⟨hrest, fun hpos => absurd hfuel (not_le.mpr hpos)⟩, nofun, nofun⟩

theorem Part.isPending (hrest : Rest keyFilter valueFilter cfg total s') :
    Part keyFilter valueFilter cfg total s s' .pending Q :=
  ⟨h, nofun, nofun, fun _ => hrest, nofun⟩

end

theorem Part.stop (h : Part keyFilter valueFilter cfg total s s' flow Q) (hflow : flow ≠ .goesOn)
    : Part keyFilter valueFilter cfg total s s' flow Q' :=
  ⟨h.spent, fun hgo => absurd hgo hflow, h.returns, h.pending, h.no_panic⟩

variable [DecidableEq R]

variable (keyFilter valueFilter cfg) in
structure Stepped (s s' : State n K V T R) (indexes : List (Fin n)) : Prop where
  builder : s'.builder =
    (stepVals (filteredMergeCursor keyFilter valueFilter) cfg s indexes).builder
  any : s'.anyValues =
    (stepVals (filteredMergeCursor keyFilter valueFilter) cfg s indexes).anyValues
  views : ∀ i, passingRest keyFilter valueFilter (s'.cursors i) =
    handOver (views (passingRest keyFilter valueFilter) s) indexes i
  rest : ∀ i, IsRest (s'.cursors i)
  others : ∀ i, i ∉ indexes → s'.cursors i = s.cursors i
  heads : ∀ i, headKey (s'.cursors i) = headKey (s.cursors i)
  fuel_le : s'.fuel ≤ s.fuel
  left : workLeft s' < workLeft s

theorem Stepped.spent (h : Stepped keyFilter valueFilter cfg s s' indexes) : Spent s s' :=
  ⟨h.fuel_le, h.left.le, fun _ => h.left⟩

variable (hunit : cfg.timed = false → Subsingleton T)
  (h : Inside keyFilter valueFilter cfg total call k s)
include hunit h

section

variable (hleast : Least (passingRest keyFilter valueFilter) k s v indexes)
include hleast

theorem Inside.copyTimes :
    ∃ s', copyTimes call cfg s indexes = some s' ∧ s'.cursors = s.cursors ∧ s'.fuel ≤ s.fuel ∧
      s'.builder = (stepVals (filteredMergeCursor keyFilter valueFilter) cfg s
        indexes).builder ∧
      s'.anyValues = (stepVals (filteredMergeCursor keyFilter valueFilter) cfg s
        indexes).anyValues := by
  have hall : (indexes.all fun i => hasVal call i (s.cursors i)) = true := by
    rw [all_eq_true]
    intro i hi
    rw [hasVal_eq (h.readable i)]
    exact h.headVal_of_least hleast i hi
  refine ⟨⟨s.cursors, (ListMerger.copyTimes unfilteredMergeCursor cfg s indexes).1 || s.anyValues,
    (ListMerger.copyTimes unfilteredMergeCursor cfg s indexes).2.1,
    (ListMerger.copyTimes unfilteredMergeCursor cfg s indexes).2.2⟩,
    by rw [PushMerger.copyTimes, if_pos hall], rfl, ?_, rfl, rfl⟩
  exact (stepVals_within (filteredMergeCursor_lawful keyFilter valueFilter) hunit
    h.state hleast).1.fuel_le

/-- Copying the least value and stepping the cursors that stand on it. -/
theorem stepMinVals_stepped (minKeys : List (Fin n)) :
    ∃ s₁ s' minKeys' pending, copyTimes call cfg s indexes = some s₁ ∧
      stepMinVals call valueFilter indexes s₁ minKeys false = (s', minKeys', pending) ∧
      Stepped keyFilter valueFilter cfg s s' indexes ∧
      (pending = false →
        (∀ i ∈ indexes, Settled keyFilter valueFilter call i (s'.cursors i)) ∧
        minKeys' = minKeys.filter fun i =>
          !decide (i ∈ indexes) || (headVal (s'.cursors i)).isSome) := by
  obtain ⟨s₁, hcopy, hcursors, hfuel, hbuilder, hany⟩ := Inside.copyTimes hunit h hleast
  have hval := h.headVal_of_least hleast
  obtain ⟨s', mk, p, heq, hbuilder', hany', hout, hin, hfuel', hleft, hend⟩ :=
    stepMinVals_spec keyFilter valueFilter call hleast.nodup (s := s₁)
      (fun i _ => by rw [hcursors]; exact h.rest i) (fun i _ => by rw [hcursors]; exact h.settled i)
      (fun i hi => by rw [hcursors]; exact hval i hi) minKeys false
  rw [hcursors] at hout hin
  have hwork : workLeft s₁ = workLeft s := workLeft_congr hcursors
  have hpos := length_pos_iff.mpr hleast.ne_nil
  refine ⟨s₁, s', mk, p, hcopy, heq, ?_, fun hp => (hend hp).2⟩
  refine ⟨hbuilder'.trans hbuilder, hany'.trans hany, ?_, ?_, hout, ?_, hfuel'.trans hfuel,
    by omega⟩
  · intro i
    unfold handOver views
    by_cases hi : i ∈ indexes
    · rw [if_pos hi, (hin i hi).2.2]
    · rw [if_neg hi, hout i hi]
  · intro i
    by_cases hi : i ∈ indexes
    · exact (hin i hi).1
    · rw [hout i hi]
      exact h.rest i
  · intro i
    by_cases hi : i ∈ indexes
    · exact (hin i hi).2.1
    · rw [hout i hi]

variable (hstep : Stepped keyFilter valueFilter cfg s s' indexes)
include hstep

theorem Stepped.views_eq : ListMerger.views (passingRest keyFilter valueFilter) s' =
    ListMerger.views (passingRest keyFilter valueFilter)
      (stepVals (filteredMergeCursor keyFilter valueFilter) cfg s indexes) := by
  obtain ⟨-, hviews, -⟩ := stepVals_within
    (filteredMergeCursor_lawful keyFilter valueFilter) hunit h.state hleast
  rw [hviews]
  exact funext hstep.views

theorem Stepped.atKey :
    AtKey cfg.move total k (ListMerger.views (passingRest keyFilter valueFilter) s')
        s'.builder ∧ (s'.anyValues = true ↔ s'.builder.vals ≠ []) ∧
      ∀ i, headKey (s'.cursors i) ≠ some k → s'.cursors i = s.cursors i := by
  obtain ⟨hwithin, -⟩ := stepVals_within
    (filteredMergeCursor_lawful keyFilter valueFilter) hunit h.state hleast
  refine ⟨?_, ?_, fun i hi => hstep.others i fun hmem => hi ?_⟩
  · rw [hstep.views_eq hunit h hleast, hstep.builder]
    exact hwithin.state.atKey
  · rw [hstep.any, hstep.builder]
    exact hwithin.state.any
  · rw [hstep.heads i, ← headKey_passingRest keyFilter valueFilter]
    exact (hleast.at_val i hmem).1

theorem Stepped.toRest : Rest keyFilter valueFilter cfg total s' := by
  obtain ⟨hat, hany, hothers⟩ := hstep.atKey hunit h hleast
  obtain ⟨i, hi⟩ := h.at_key
  refine rest_of_atKey hat hstep.rest hany h.passes ⟨i, (hstep.heads i).trans hi⟩ fun j hj => ?_
  rw [hothers j hj]
  exact h.state.cursors j

variable (hsettled : ∀ i ∈ indexes, Settled keyFilter valueFilter call i (s'.cursors i))
include hsettled

theorem Stepped.inside : Inside keyFilter valueFilter cfg total call k s' := by
  obtain ⟨hat, hany, -⟩ := hstep.atKey hunit h hleast
  obtain ⟨i, hi⟩ := h.at_key
  have hall : ∀ j, Settled keyFilter valueFilter call j (s'.cursors j) := by
    intro j
    by_cases hj : j ∈ indexes
    · exact hsettled j hj
    · rw [hstep.others j hj]
      exact h.settled j
  exact ⟨⟨fun j => (hall j).skipped, hat, hany⟩, hstep.rest, fun j => (hall j).readable,
    h.passes, i, (hstep.heads i).trans hi⟩

/-- The cursors with values left after a step that left nothing pending. -/
theorem Stepped.hasVals
    (hmk : HasVals (passingRest keyFilter valueFilter) k s minKeys) :
    HasVals (passingRest keyFilter valueFilter) k s' (minKeys.filter fun i =>
      !decide (i ∈ indexes) || (headVal (s'.cursors i)).isSome) := by
  have hC := filteredMergeCursor_lawful (T := T) (R := R) keyFilter valueFilter
  have hinside := hstep.inside hunit h hleast hsettled
  obtain ⟨hwithin, -⟩ := stepVals_within hC hunit h.state hleast
  have hnext := HasVals.step hC hunit h.state hmk hleast
  have hview := congrFun (hstep.views_eq hunit h hleast)
  have hvalid : ∀ i, valValid (filteredMergeCursor keyFilter valueFilter)
      (stepVals (filteredMergeCursor keyFilter valueFilter) cfg s indexes) i =
        (headVal (s'.cursors i)).isSome := by
    intro i
    rw [valValid_eq hC hwithin.state.cursors, ← hview, ListMerger.views,
      headVal_passingRest (hinside.state.cursors i)]
  refine ⟨hmk.nodup.filter _, fun i => ?_⟩
  rw [hview, ← hnext.mem i, mem_filter, mem_filter, hvalid]

end

variable {rounds bound : Nat}

theorem sharedVals_part (hrounds : workLeft s < rounds)
    (hmk : HasVals (passingRest keyFilter valueFilter) k s minKeys)
    {r : State n K V T R × List (Fin n) × Flow}
    (hr : sharedVals call valueFilter cfg rounds s minKeys = r) :
    Part keyFilter valueFilter cfg total s r.1 r.2.2
      (Inside keyFilter valueFilter cfg total call k r.1 ∧
        HasVals (passingRest keyFilter valueFilter) k r.1 r.2.1 ∧
        isLong r.2.1 = false ∧
        ∀ i, headKey (r.1.cursors i) = headKey (s.cursors i)) := by
  subst hr
  induction rounds generalizing s minKeys with
  | zero => omega
  | succ rounds ih =>
    unfold sharedVals
    by_cases hlong : isLong minKeys = true
    · have hready := any_isNone_eq_false (fun i => (h.readable i).val) minKeys
      obtain ⟨v, hleast⟩ := least_of_findMin
        (filteredMergeCursor_lawful keyFilter valueFilter) h.state hmk
        (ne_nil_of_isLong hlong)
      obtain ⟨s₁, s', mk, p, hcopy, hsteps, hstep, hend⟩ :=
        stepMinVals_stepped hunit h hleast minKeys
      simp only [hlong, hready, if_true, Bool.false_eq_true, if_false]
      change copyTimes call cfg s (findMinIndexes (minKeys.filterMap fun i =>
        ((headVal (s.cursors i)).map Prod.fst).map fun v => (i, v))) = some s₁ at hcopy
      rw [hcopy]
      change stepMinVals call valueFilter (findMinIndexes (minKeys.filterMap fun i =>
        ((headVal (s.cursors i)).map Prod.fst).map fun v => (i, v))) s₁ minKeys false = _
        at hsteps
      simp only [hsteps]
      have hspent := hstep.spent
      cases p with
      | true => exact Part.isPending hspent (hstep.toRest hunit h hleast)
      | false =>
        obtain ⟨hsettled, rfl⟩ := hend rfl
        have hinside := hstep.inside hunit h hleast hsettled
        have hmk' := hstep.hasVals hunit h hleast hsettled hmk
        have hleft := hstep.left
        simp only
        split
        · next hstop => exact Part.outOfFuel hspent (hstep.toRest hunit h hleast) hstop
        · refine Part.after hspent (ih hinside (by omega) hmk') ?_
          rintro ⟨hin, hvals, hshort, hheads⟩
          exact ⟨hin, hvals, hshort, fun i => (hheads i).trans (hstep.heads i)⟩
    · simp only [hlong]
      exact Part.goesOn (ListMerger.Spent.refl s) ⟨h, hmk, by simpa using hlong, fun _ => rfl⟩

variable {r : State n K V T R × Flow}

theorem ownVals_part {i : Fin n} (hrounds : workLeft s < rounds)
    (hmk : HasVals (passingRest keyFilter valueFilter) k s [i])
    (hr : ownVals call valueFilter cfg rounds s i = r) :
    Part keyFilter valueFilter cfg total s r.1 r.2
      (Inside keyFilter valueFilter cfg total call k r.1 ∧
        (∀ j, valsAt k (views (passingRest keyFilter valueFilter) r.1 j) = []) ∧
        ∀ j, headKey (r.1.cursors j) = headKey (s.cursors j)) := by
  subst hr
  induction rounds generalizing s with
  | zero => omega
  | succ rounds ih =>
    obtain ⟨v, hleast⟩ := hmk.least
    obtain ⟨s₁, s', mk, p, hcopy, hsteps, hstep, hend⟩ := stepMinVals_stepped hunit h hleast [i]
    have hspent := hstep.spent
    have hleft := hstep.left
    rw [ownVals, (h.readable i).val]
    simp only [hcopy]
    -- a single step is the loop over one cursor
    rw [stepMinVals] at hsteps
    generalize stepVal call valueFilter s₁ i = r at hsteps ⊢
    obtain ⟨s₂, answer⟩ := r
    cases answer with
    | error e =>
      cases hsteps
      exact Part.isPending hspent (hstep.toRest hunit h hleast)
    | ok b =>
      have hresult : s₂ = s' ∧ p = false ∧ mk = if b then [i] else [] := by
        cases b <;> simpa [stepMinVals, and_comm, eq_comm] using hsteps
      obtain ⟨rfl, rfl, hmk'⟩ := hresult
      obtain ⟨hsettled, hfilter⟩ := hend rfl
      have hinside := hstep.inside hunit h hleast hsettled
      have hvals := hstep.hasVals hunit h hleast hsettled hmk
      rw [← hfilter, hmk'] at hvals
      cases b with
      | false =>
        refine Part.goesOn hspent ⟨hinside, fun j => ?_, hstep.heads⟩
        by_contra hj
        exact absurd ((hvals.mem j).mpr hj) (by simp)
      | true =>
        simp only
        split
        · next hstop => exact Part.outOfFuel hspent (hstep.toRest hunit h hleast) hstop
        · refine Part.after hspent (ih hinside (by omega) hvals) ?_
          rintro ⟨hin, hdone, hheads⟩
          exact ⟨hin, hdone, fun j => (hheads j).trans (hstep.heads j)⟩

theorem keyVals_part (hbound : workLeft s < bound)
    (hmk : HasVals (passingRest keyFilter valueFilter) k s minKeys)
    (hr : keyVals call valueFilter cfg bound s minKeys = r) :
    Part keyFilter valueFilter cfg total s r.1 r.2
      (Inside keyFilter valueFilter cfg total call k r.1 ∧
        (∀ j, valsAt k (views (passingRest keyFilter valueFilter) r.1 j) = []) ∧
        ∀ j, headKey (r.1.cursors j) = headKey (s.cursors j)) := by
  subst hr
  have hshared := sharedVals_part hunit h hbound hmk rfl
  unfold keyVals
  generalize sharedVals call valueFilter cfg bound s minKeys = r at hshared ⊢
  obtain ⟨s', minKeys', flow⟩ := r
  cases flow with
  | goesOn =>
    obtain ⟨hinside, hmk', hshort, hheads⟩ := hshared.goes_on rfl
    cases minKeys' with
    | nil =>
      refine Part.goesOn hshared.spent ⟨hinside, fun j => ?_, hheads⟩
      by_contra hj
      exact absurd ((hmk'.mem j).mpr hj) (by simp)
    | cons i rest =>
      obtain rfl := eq_nil_of_isLong hshort
      refine Part.after hshared.spent
        (ownVals_part hunit hinside (hshared.spent.left.trans_lt hbound) hmk' rfl) ?_
      rintro ⟨hin, hdone, hheads'⟩
      exact ⟨hin, hdone, fun j => (hheads' j).trans (hheads j)⟩
  | returns => exact hshared.stop nofun
  | pending => exact hshared.stop nofun
  | panics => exact absurd rfl hshared.no_panic

end

end Feldera.Trace.PushMerger
