import Feldera.Trace.PushMergerKeys

/-!
A call of `PushMerger` first makes every cursor stand on something that passes; this is where it can go
wrong. With a value filter, cursors whose values of an unfinished key are exhausted
leave that key, and if all of them do, the key is never written and its values end up
below the next one. Without a value filter, a cursor that an early return left on an
exhausted key is read as if it had a value when it is the only one left. `Resumable`
excludes both.
-/

namespace Feldera.Trace.PushMerger

open Weighted Time LayerMerge List

variable {K V T R : Type*} {n : Nat}
  [LinearOrder K] [LinearOrder V] [LinearOrder T] [AddCommMonoid R]
  {keyFilter : Option (K → Bool)} {valueFilter : Option (V → Bool)}
  {cfg : ListMerger.Config T} {total : K × V × T → R} {call : Call n} {s s' : State n K V T R}

section

variable (keyFilter valueFilter call) in
theorem enter_moved {indexes : List (Fin n)} (hnodup : indexes.Nodup)
    (hrest : ∀ i ∈ indexes, IsRest (s.cursors i)) :
    ∃ s' answer, enter call keyFilter valueFilter indexes s = (s', answer) ∧
      s'.builder = s.builder ∧ s'.anyValues = s.anyValues ∧
      (∀ i, i ∉ indexes → s'.cursors i = s.cursors i) ∧
      (∀ i ∈ indexes, ∃ fuel fuel',
        Moved keyFilter valueFilter (s.cursors i) (s'.cursors i) fuel fuel') ∧
      Spent s s' ∧
      ∀ remaining, answer = .ok remaining →
        remaining = (indexes.filter fun i => (headKey (s'.cursors i)).isSome) ∧
        ∀ i ∈ indexes, Settled keyFilter valueFilter call i (s'.cursors i) ∧
          (valueFilter.isSome = true → spentKey (s'.cursors i) = none) := by
  induction indexes generalizing s with
  | nil =>
    refine ⟨s, .ok [], rfl, rfl, rfl, fun _ _ => rfl, by simp, ListMerger.Spent.refl s, ?_⟩
    rintro remaining ⟨⟩
    exact ⟨rfl, by simp⟩
  | cons i indexes ih =>
    obtain ⟨hi, hnodup'⟩ := nodup_cons.mp hnodup
    obtain ⟨l, fuel, r, hskip, hmoved, hok⟩ :=
      skipFilteredKeys_moved keyFilter valueFilter call i (hrest i (by simp)) s.fuel
    have hwork := workLeft_setCursor s i l fuel
    have hcost := hmoved.cost
    have hfuel := hmoved.fuel_le
    have hself : (setCursor s i l fuel).cursors i = l := setCursor_self i fuel
    have hother : ∀ j, j ≠ i → (setCursor s i l fuel).cursors j = s.cursors j :=
      fun j hj => setCursor_of_ne hj fuel
    have hsame : ∀ j ∈ indexes, (setCursor s i l fuel).cursors j = s.cursors j :=
      fun j hj => hother j fun hji => hi (hji ▸ hj)
    have hle : workLeft (setCursor s i l fuel) ≤ workLeft s := by omega
    have hspent : Spent s (setCursor s i l fuel) := by
      refine ⟨hfuel, hle, fun hlt => ?_⟩
      have hlt' : fuel < s.fuel := hlt
      exact show workLeft (setCursor s i l fuel) < workLeft s by omega
    rw [enter, hskip]
    cases r with
    | error e =>
      refine ⟨_, _, rfl, rfl, rfl, ?_, ?_, hspent, nofun⟩
      · exact fun j hj => hother j (ne_of_not_mem_cons hj)
      · refine forall_mem_cons.mpr ⟨⟨_, _, hself.symm ▸ hmoved⟩, fun j hj => ?_⟩
        rw [hsame j hj]
        exact ⟨0, 0, Moved.refl (hrest j (by simp [hj])) 0⟩
    | ok u =>
      obtain ⟨hsettled, hspentKey⟩ := hok rfl
      obtain ⟨s', answer, heq, hbuilder, hany, hout, hin, hspent', hend⟩ :=
        ih hnodup' (s := setCursor s i l fuel) fun j hj => by
          rw [hsame j hj]
          exact hrest j (by simp [hj])
      have hcursor : s'.cursors i = l := (hout i hi).trans hself
      simp only [hsettled.readable.key, hsettled.readable.val, heq]
      rw [← hcursor] at hmoved hsettled hspentKey
      refine ⟨s', answer.map fun remaining =>
        if (headKey l).isSome then i :: remaining else remaining, ?_, hbuilder, hany, fun j hj => ?_,
        forall_mem_cons.mpr ⟨⟨_, _, hmoved⟩, fun j hj => hsame j hj ▸ hin j hj⟩,
        hspent.trans hspent', fun remaining hrem => ?_⟩
      · cases headKey l <;> cases answer <;> rfl
      · rw [hout j (not_mem_of_not_mem_cons hj), hother j (ne_of_not_mem_cons hj)]
      cases answer with
      | error e => cases hrem
      | ok remaining' =>
        obtain ⟨rfl, hall⟩ := hend remaining' rfl
        refine ⟨?_, forall_mem_cons.mpr ⟨⟨hsettled, hspentKey⟩, hall⟩⟩
        rw [← Except.ok.inj hrem, filter_cons, hcursor]

/-- The merger can be resumed. With a value filter, if values of an unfinished key have been
written, some cursor on the least key still has a value that passes. Without one, a cursor
that stands on an exhausted key is not the only one with keys that pass. -/
def Resumable (keyFilter : Option (K → Bool)) (valueFilter : Option (V → Bool))
    (s : State n K V T R) : Prop :=
  (valueFilter.isSome = true → s.anyValues = true →
    ∃ i, ∃ k ∈ headKey (passing keyFilter valueFilter (s.cursors i)),
      ∀ j, ∀ k' ∈ headKey (s.cursors j), k ≤ k') ∧
  (valueFilter.isNone = true →
    ∀ i, ∀ k ∈ spentKey (s.cursors i), includes keyFilter k = true →
      ∃ j, j ≠ i ∧ ∃ q ∈ s.cursors j, includes keyFilter q.1 = true)

instance (s : State n K V T R) : Decidable (Resumable keyFilter valueFilter s) := by
  unfold Resumable
  infer_instance

theorem Rest.enter (h : Rest keyFilter valueFilter cfg total s)
    (hres : Resumable keyFilter valueFilter s) (hbuilder : s'.builder = s.builder)
    (hany : s'.anyValues = s.anyValues)
    (hmoved : ∀ i, ∃ fuel fuel',
      Moved keyFilter valueFilter (s.cursors i) (s'.cursors i) fuel fuel') :
    Rest keyFilter valueFilter cfg total s' := by
  have hrest : ∀ i, IsRest (s'.cursors i) := fun i => by
    obtain ⟨_, _, hm⟩ := hmoved i
    exact hm.rest
  have hviews : (fun i => passing keyFilter valueFilter (s'.cursors i)) =
      fun i => passing keyFilter valueFilter (s.cursors i) := by
    funext i
    obtain ⟨_, _, hm⟩ := hmoved i
    exact hm.passing
  have hspent : ∀ i e, spentKey (s'.cursors i) = some e → spentKey (s.cursors i) = some e := by
    intro i e he
    obtain ⟨_, _, hm⟩ := hmoved i
    rwa [hm.spent e he] at he
  cases h with
  | between _ hbetween hno hle heq =>
    refine .between hrest (by rw [hviews, hbuilder]; exact hbetween) (hany.trans hno) ?_ ?_
    · intro i e he j k hk
      rw [congrFun hviews j] at hk
      exact hle i e (hspent i e he) j k hk
    · intro i j e e' he he'
      exact heq i j e e' (hspent i e he) (hspent j e' he')
  | inside k hrest₀ hat hyes hvals hinc hat_key hge hspent₀ =>
    refine .inside k hrest (by rw [hviews, hbuilder]; exact hat) (hany.trans hyes)
      (by rw [hbuilder]; exact hvals) hinc ?_ ?_ fun i e he => hspent₀ i e (hspent i e he)
    · obtain ⟨i, hi⟩ := hat_key
      cases hvf : valueFilter with
      | none =>
        -- exhausted cursors stay on the key
        obtain ⟨_, _, hm⟩ := hmoved i
        exact ⟨i, by rw [hm.unfiltered hvf k hi hinc, hi]⟩
      | some filter =>
        obtain ⟨j, k', hj, hmin⟩ := hres.1 (by rw [hvf]; rfl) hyes
        obtain rfl : k' = k := le_antisymm (hmin i k hi) (hat.key_le j k' hj)
        obtain ⟨k'', hk'', hle⟩ := headKey_le_of_passing (hrest₀ j) hj
        obtain rfl : k'' = k' := le_antisymm hle (hge j k'' hk'')
        obtain ⟨_, _, hm⟩ := hmoved j
        exact ⟨j, hm.stays k'' hk'' hj⟩
    · intro i k' hk'
      obtain ⟨_, _, hm⟩ := hmoved i
      cases hk : headKey (s.cursors i) with
      | none =>
        rw [show s.cursors i = [] by simpa [headKey] using hk] at hm
        simp [hm.eq_nil, headKey] at hk'
      | some k'' => exact (hge i k'' hk).trans (hm.ge k'' hk k' hk')

end

section

/-- Without a value filter, the only cursor left after entering a call has a value. -/
theorem spentKey_of_alone {i : Fin n} (hrest : ∀ j, IsRest (s.cursors j))
    (hres : Resumable keyFilter valueFilter s) (hvf : valueFilter = none)
    (hmoved : ∀ j, ∃ fuel fuel',
      Moved keyFilter valueFilter (s.cursors j) (s'.cursors j) fuel fuel')
    (hskipped : Skipped keyFilter valueFilter (s'.cursors i))
    (halone : ∀ j, j ≠ i → s'.cursors j = []) : spentKey (s'.cursors i) = none := by
  by_contra hne
  obtain ⟨e, he⟩ := Option.ne_none_iff_exists'.mp hne
  obtain ⟨_, _, hm⟩ := hmoved i
  have hinc : includes keyFilter e = true := by
    obtain ⟨rest, hl⟩ := spentKey_eq_some.mp he
    rw [hl] at hskipped
    exact hskipped.1
  have hl := hm.spent e he
  rw [hl] at he
  obtain ⟨j, hj, q, hq, hqinc⟩ := hres.2 (by simp [hvf]) i e he hinc
  obtain ⟨_, _, hmj⟩ := hmoved j
  have hempty := halone j hj
  -- `q` still passes, so cursor `j` cannot have been exhausted
  by_cases hqvals : q.2 = []
  · cases hlj : s.cursors j with
    | nil => simp [hlj] at hq
    | cons p rest =>
      rw [hlj] at hq
      have hrestj := hrest j
      rw [hlj] at hrestj
      rcases mem_cons.mp hq with rfl | hq
      · have hstay := hmj.unfiltered hvf q.1 (by rw [hlj]; rfl) hqinc
        rw [hempty, hlj] at hstay
        cases hstay
      · exact (hrestj.2.2.contents q hq).1 hqvals
  · have hpassing := hmj.passing
    rw [hempty] at hpassing
    have hmem : (q.1, passingVals valueFilter q.2) ∈
        passing keyFilter valueFilter (s.cursors j) := by
      refine mem_filter.mpr ⟨mem_map.mpr ⟨q, mem_filter.mpr ⟨hq, hqinc⟩, rfl⟩, ?_⟩
      simpa [passingVals, hvf, includes] using hqvals
    rw [← hpassing] at hmem
    exact not_mem_nil hmem

variable (keyFilter valueFilter cfg) in
theorem rest_new {batches : Fin n → Layers K V T R} (hbatches : ∀ i, IsBatch (batches i))
    (fuel : ℤ) :
    Rest keyFilter valueFilter cfg
      (fun x => ∑ i, (move cfg.move (passing keyFilter valueFilter (batches i))).weight x)
      ⟨batches, false, Builder.new, fuel⟩ := by
  have hspent : ∀ i, spentKey (batches i) = none := fun i => spentKey_of_isBatch (hbatches i)
  exact .between (fun i => IsBatch.isRest (hbatches i))
    ⟨fun i => passing_isBatch keyFilter valueFilter (hbatches i), rfl, rfl, IsLayer.nil _,
      fun i k _ => nofun, fun x => zero_add _⟩ rfl (fun i e he => absurd he (by simp [hspent i]))
    fun i j e e' he => absurd he (by simp [hspent i])

theorem Rest.finished (h : Rest keyFilter valueFilter cfg total s)
    (hnil : ∀ i, s.cursors i = []) :
    IsBatch s.builder.done ∧ ∀ x, s.builder.done.weight x = total x := by
  cases h with
  | inside k _ _ _ _ _ hat_key _ _ =>
    obtain ⟨i, hi⟩ := hat_key
    simp [hnil i, headKey] at hi
  | between _ hbetween _ _ _ =>
    exact hbetween.finished fun i => by rw [hnil i]; rfl

variable [DecidableEq R] {bound : Nat}

variable (call) in
/-- A call that resumes a merger leaves it at rest; it reports completion only when all cursors
are exhausted. -/
theorem merge_rest (hunit : cfg.timed = false → Subsingleton T) (hbound : workLeft s < bound)
    (h : Rest keyFilter valueFilter cfg total s) (hres : Resumable keyFilter valueFilter s)
    {r : State n K V T R × Flow} (hr : merge call keyFilter valueFilter cfg bound s = r) :
    Rest keyFilter valueFilter cfg total r.1 ∧ Spent (s.refuel call.fuel) r.1 ∧
      (r.2 = .returns ∨ r.2 = .pending) ∧
      (r.2 = .returns → 0 < r.1.fuel → ∀ i, r.1.cursors i = []) := by
  subst hr
  have hrest := h.isRest
  obtain ⟨s', answer, henter, hbuilder, hany, -, hmoved, hspent, hend⟩ :=
    enter_moved keyFilter valueFilter call (nodup_finRange n) (s := s.refuel call.fuel)
      fun i _ => hrest i
  have hmoved' : ∀ i, ∃ fuel fuel',
      Moved keyFilter valueFilter (s.cursors i) (s'.cursors i) fuel fuel' :=
    fun i => hmoved i (mem_finRange i)
  have hrest' : Rest keyFilter valueFilter cfg total s' := h.enter hres hbuilder hany hmoved'
  have hleft : workLeft s' < bound := lt_of_le_of_lt hspent.left hbound
  have hpart : ∀ {s'' : State n K V T R} {flow : Flow},
      Part keyFilter valueFilter cfg total s' s'' flow False →
      Rest keyFilter valueFilter cfg total s'' ∧ Spent (s.refuel call.fuel) s'' ∧
        (flow = .returns ∨ flow = .pending) ∧
        (flow = .returns → 0 < s''.fuel → ∀ i, s''.cursors i = []) := by
    intro s'' flow hp
    cases flow with
    | goesOn => exact (hp.goes_on rfl).elim
    | returns =>
      obtain ⟨hr, hempty⟩ := hp.returns rfl
      exact ⟨hr, hspent.trans hp.spent, Or.inl rfl, fun _ => hempty⟩
    | pending => exact ⟨hp.pending rfl, hspent.trans hp.spent, Or.inr rfl, by simp⟩
    | panics => exact absurd rfl hp.no_panic
  unfold merge
  rw [henter]
  cases answer with
  | error e => exact hpart (Part.isPending (ListMerger.Spent.refl s') hrest')
  | ok remaining =>
    obtain ⟨hremaining, hsettled⟩ := hend remaining rfl
    have hready : Ready keyFilter valueFilter cfg total call s' remaining := by
      refine ⟨hrest', fun i => (hsettled i (mem_finRange i)).1, ?_, fun i => ?_⟩
      · rw [hremaining]
        exact (nodup_finRange n).filter _
      · rw [hremaining]
        simp [ListMerger.views]
    have hexhausted : ∀ {s'' : State n K V T R} {remaining' : List (Fin n)},
        ListMerger.Remaining (fun l => l) s'' remaining' →
        ∀ j, j ∉ remaining' → s''.cursors j = [] := by
      intro s'' remaining' hrem j hj
      have hnone := (hrem.mem j).not.mp hj
      simpa [headKey, ListMerger.views] using hnone
    dsimp only
    split
    · next hstop =>
      refine hpart ⟨ListMerger.Spent.refl s', by simp, fun _ => ⟨hrest', fun hpos j => ?_⟩, by simp,
        by simp⟩
      have hnil : remaining = [] := by simpa [not_le.mpr hpos] using hstop
      exact hexhausted hready.remaining j (by simp [hnil])
    · have hloop := keysLoop_part hunit hleft hleft hready rfl
      generalize hr : keysLoop call keyFilter valueFilter cfg bound bound s' remaining = r
        at hloop ⊢
      obtain ⟨s'', remaining', flow⟩ := r
      cases flow with
      | returns => exact hpart (hloop.stop (by simp))
      | pending => exact hpart (hloop.stop (by simp))
      | panics => exact absurd rfl hloop.no_panic
      | goesOn =>
        obtain ⟨hready', hshort, hcases⟩ := hloop.goes_on rfl
        dsimp only at hready' hshort hcases ⊢
        have hspent'' : Spent s' s'' := hloop.spent
        cases remaining' with
        | nil =>
          exact hpart ⟨hspent'', by simp, fun _ => ⟨hready'.rest, fun _ j =>
            hexhausted hready'.remaining j not_mem_nil⟩, by simp, by simp⟩
        | cons i others =>
          obtain rfl := ListMerger.eq_nil_of_isLong hshort
          have hval : spentKey (s''.cursors i) = none := by
            rcases hcases with hcases | hcases
            · exact hcases i
            cases hcases
            cases hvf : valueFilter with
            | some filter =>
              exact (hsettled i (mem_finRange i)).2 (by rw [hvf]; rfl)
            | none =>
              exact spentKey_of_alone hrest hres hvf hmoved' (hready'.settled i).skipped
                fun j hj => hexhausted hready'.remaining j (by simp [hj])
          have hlt : workLeft s'' < bound := lt_of_le_of_lt hspent''.left hleft
          exact hpart (Part.after hspent'' (lastKeys_part hunit hlt hlt hready' hval) id)

theorem run_concat (calls : List (Call n)) : run keyFilter valueFilter cfg bound s (calls ++ [call]) =
    (merge call keyFilter valueFilter cfg bound (run keyFilter valueFilter cfg bound s calls)).1 := by
  simp [run]

/-- Calls that can all be resumed leave the merger at rest; each one that neither is pending nor
completes has used up its fuel and done some work. -/
theorem run_rest (hunit : cfg.timed = false → Subsingleton T) (hbound : workLeft s < bound)
    (h : Rest keyFilter valueFilter cfg total s) (calls : List (Call n))
    (hres : ∀ before call after, calls = before ++ call :: after →
      Resumable keyFilter valueFilter (run keyFilter valueFilter cfg bound s before)) :
    Rest keyFilter valueFilter cfg total (run keyFilter valueFilter cfg bound s calls) ∧
      workLeft (run keyFilter valueFilter cfg bound s calls) ≤ workLeft s ∧
      ((∀ before call after, calls = before ++ call :: after → 0 < call.fuel ∧
        (merge call keyFilter valueFilter cfg bound
          (run keyFilter valueFilter cfg bound s before)).1.fuel ≤ 0) →
        workLeft (run keyFilter valueFilter cfg bound s calls) + calls.length ≤ workLeft s) := by
  induction calls using List.reverseRecOn with
  | nil => exact ⟨h, le_rfl, fun _ => le_rfl⟩
  | append_singleton calls call ih =>
    obtain ⟨hrest, hleft, hcount⟩ := ih fun before call' after hsplit =>
      hres before call' (after ++ [call]) (by simp [hsplit])
    obtain ⟨hrest', hspent, -, -⟩ := merge_rest call hunit (hleft.trans_lt hbound) hrest
      (hres calls call [] rfl) rfl
    rw [run_concat]
    refine ⟨hrest', hspent.left.trans hleft, fun hstops => ?_⟩
    have hbefore := hcount fun before call' after hsplit =>
      hstops before call' (after ++ [call]) (by simp [hsplit])
    obtain ⟨hpos, hfuel⟩ := hstops calls call [] rfl
    have hlt : workLeft _ < workLeft (run keyFilter valueFilter cfg bound s calls) :=
      hspent.fuel_lt (lt_of_le_of_lt hfuel hpos)
    rw [length_append, length_singleton]
    omega

/-- Merging at most 64 batches by calls that can all be resumed: no call panics, and a call that
reports completion has built the consolidated sum of what passes the filters, with times
joined with the frontier. If the calls have positive fuel and none is pending, one of them
completes after at most as many calls as there are keys and values. -/
theorem run_merge [Timestamp T] (keyFilter : Option (K → Bool)) (valueFilter : Option (V → Bool))
    (batches : List (Batch K V T R)) (timed : Bool)
    (htimed : timed = false → Subsingleton T) (default frontier : T)
    {s : State batches.length K V T R} (hnew : new batches = some s) {bound : Nat}
    (hbound : (batches.map fun b => LayerMerge.size b.layers).sum < bound)
    (calls : List (Call batches.length))
    (hres : ∀ before call after, calls = before ++ call :: after →
      Resumable keyFilter valueFilter (run keyFilter valueFilter
        (.ofFrontier timed default frontier) bound s before)) :
    (∀ before call after, calls = before ++ call :: after →
      (merge call keyFilter valueFilter (.ofFrontier timed default frontier) bound
        (run keyFilter valueFilter (.ofFrontier timed default frontier) bound s
          before)).2 ≠ .panics ∧
      ((merge call keyFilter valueFilter (.ofFrontier timed default frontier) bound
          (run keyFilter valueFilter (.ofFrontier timed default frontier) bound s
            before)).2 = .returns →
        0 < (run keyFilter valueFilter (.ofFrontier timed default frontier) bound s
          (before ++ [call])).fuel →
        (run keyFilter valueFilter (.ofFrontier timed default frontier) bound s
            (before ++ [call])).builder.done =
          (Batch.ofTuples
            (ListMerger.mergedTuples keyFilter valueFilter frontier batches)).layers)) ∧
    ((∀ call ∈ calls, 0 < call.fuel) →
      (batches.map fun b => LayerMerge.size b.layers).sum < calls.length →
      (∀ before call after, calls = before ++ call :: after →
        (merge call keyFilter valueFilter (.ofFrontier timed default frontier) bound
          (run keyFilter valueFilter (.ofFrontier timed default frontier) bound s
            before)).2 ≠ .pending) →
      ∃ before call after, calls = before ++ call :: after ∧
        (merge call keyFilter valueFilter (.ofFrontier timed default frontier) bound
          (run keyFilter valueFilter (.ofFrontier timed default frontier) bound s
            before)).2 = .returns ∧
        0 < (run keyFilter valueFilter (.ofFrontier timed default frontier) bound s
          (before ++ [call])).fuel) := by
  have hs : s = ⟨fun i => (batches.get i).layers, false, Builder.new, 0⟩ := by
    unfold new ListMerger.new at hnew
    split at hnew
    · exact (Option.some.inj hnew).symm
    · exact absurd hnew (by simp)
  set cfg : ListMerger.Config T := .ofFrontier timed default frontier
  have hmove : cfg.move = fun t => Timestamp.join t frontier :=
    ListMerger.move_ofFrontier timed default frontier
  have hstart := rest_new keyFilter valueFilter cfg (fun i => (batches.get i).isBatch) 0
  rw [← hs, hmove] at hstart
  have hsize : workLeft s = (batches.map fun b => LayerMerge.size b.layers).sum := by
    rw [← Fin.sum_univ_fun_getElem, hs]
    rfl
  have hmerge : ∀ before call after, calls = before ++ call :: after → _ :=
    fun before call after hsplit =>
      have hrest := run_rest htimed (hsize ▸ hbound) hstart before
        fun before' call' after' hsplit' => hres before' call' (after' ++ call :: after)
          (by simp [hsplit, hsplit'])
      merge_rest call htimed (lt_of_le_of_lt hrest.2.1 (hsize ▸ hbound)) hrest.1
        (hres before call after hsplit) rfl
  refine ⟨fun before call after hsplit => ?_, fun hpos hlen hready => ?_⟩
  · obtain ⟨hrest, -, hflow, hempty⟩ := hmerge before call after hsplit
    refine ⟨by rcases hflow with hflow | hflow <;> simp [hflow], fun hreturns hfuel => ?_⟩
    rw [run_concat] at hfuel ⊢
    obtain ⟨hbatch, hweight⟩ := hrest.finished (hempty hreturns hfuel)
    refine hbatch.ext (Layers.ofTuples_isBatch _) fun x => ?_
    rw [hweight, Batch.ofTuples, Layers.weight_ofTuples, ListMerger.weight_mergedTuples]
  · by_contra hno
    push Not at hno
    have hcount := (run_rest htimed (hsize ▸ hbound) hstart calls hres).2.2
      fun before call after hsplit => by
        obtain ⟨-, -, hflow, -⟩ := hmerge before call after hsplit
        refine ⟨hpos call (by simp [hsplit]), ?_⟩
        have hstop := hno before call after hsplit
          (hflow.resolve_right (hready before call after hsplit))
        rwa [run_concat] at hstop
    rw [hsize] at hcount
    omega

/-- A value of the key 1 is pending and does not pass when it arrives: the key is left without
being written, and the value 5 that was copied before ends up below the key 2. -/
theorem value_below_next_key : ∃ s,
    new [Batch.ofTuples [((1, 5, ()), (1 : ℤ)), ((1, 6, ()), 1), ((2, 7, ()), 1)]] = some s ∧
    (merge ⟨10, fun _ _ => true, fun _ _ _ => true⟩ none (some fun v : ℕ => decide (v ≠ 6))
      (.ofFrontier false () ()) 20
      (run none (some fun v : ℕ => decide (v ≠ 6)) (.ofFrontier false () ()) 20 s
        [⟨10, fun _ _ => true, fun _ keys vals => decide ((keys, vals) ≠ (2, 1))⟩])).2 =
      .returns ∧
    (run none (some fun v : ℕ => decide (v ≠ 6)) (.ofFrontier false () ()) 20 s
      [⟨10, fun _ _ => true, fun _ keys vals => decide ((keys, vals) ≠ (2, 1))⟩,
        ⟨10, fun _ _ => true, fun _ _ _ => true⟩]).fuel = 5 ∧
    (run none (some fun v : ℕ => decide (v ≠ 6)) (.ofFrontier false () ()) 20 s
      [⟨10, fun _ _ => true, fun _ keys vals => decide ((keys, vals) ≠ (2, 1))⟩,
        ⟨10, fun _ _ => true, fun _ _ _ => true⟩]).builder.done =
      [((2 : ℕ), [(5, [((), 1)]), (7, [((), 1)])])] :=
  ⟨_, rfl, by decide, by decide, by decide⟩

/-- The same schedule without a filter: the first call is pending, the second one completes. -/
theorem run_merge_pending : ∃ s,
    new [Batch.ofTuples [((1, 5, ()), (1 : ℤ)), ((1, 6, ()), 1), ((2, 7, ()), 1)]] = some s ∧
    (run none none (.ofFrontier false () ()) 20 s
      [⟨10, fun _ _ => true, fun _ keys vals => decide ((keys, vals) ≠ (2, 1))⟩,
        ⟨10, fun _ _ => true, fun _ _ _ => true⟩]).builder.done =
      [((1 : ℕ), [((5 : ℕ), [((), 1)]), (6, [((), 1)])]), (2, [(7, [((), 1)])])] := by
  refine ⟨_, rfl, ?_⟩
  have hmerge := (run_merge none none
    [Batch.ofTuples [(((1 : ℕ), (5 : ℕ), ()), (1 : ℤ)), ((1, 6, ()), 1), ((2, 7, ()), 1)]] false
    (fun _ => inferInstance) () () rfl (show _ < 20 by decide)
    [⟨10, fun _ _ => true, fun _ keys vals => decide ((keys, vals) ≠ (2, 1))⟩,
      ⟨10, fun _ _ => true, fun _ _ _ => true⟩] ?_).1
    [⟨10, fun _ _ => true, fun _ keys vals => decide ((keys, vals) ≠ (2, 1))⟩]
    ⟨10, fun _ _ => true, fun _ _ _ => true⟩ [] rfl
  · exact (hmerge.2 (by decide) (by decide)).trans (by decide)
  rintro before call after hsplit
  match before with
  | [] => decide
  | [_] =>
    obtain ⟨rfl, -⟩ := List.cons.inj hsplit
    decide
  | _ :: _ :: _ => simp at hsplit

/-- A key filter: the early return leaves the second cursor on the exhausted key 1, and the next
call reads a value there. -/
example : ∃ s,
    new [Batch.ofTuples [((1, 5, ()), (1 : ℤ)), ((2, 7, ()), 1)],
      Batch.ofTuples [((1, 5, ()), 1)]] = some s ∧
    (merge ⟨10, fun _ _ => true, fun _ _ _ => true⟩ (some fun k : ℕ => decide (k ≠ 2)) none
      (.ofFrontier false () ()) 20
      (run (some fun k : ℕ => decide (k ≠ 2)) (none : Option (ℕ → Bool))
        (.ofFrontier false () ()) 20 s
        [⟨10, fun i keys => decide ((i, keys) ≠ (0, 1)), fun _ _ _ => true⟩])).2 = .panics :=
  ⟨_, rfl, by decide⟩

end

end Feldera.Trace.PushMerger
