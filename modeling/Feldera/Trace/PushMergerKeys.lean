import Feldera.Trace.PushMergerRun

/-!
What the loops of `PushMerger` over keys keep. Once the values of a key are exhausted and
the key is written, its cursors go on one by one; an early return leaves some of them on
the exhausted key, which the next call steps over.
-/

namespace Feldera.Trace.PushMerger

open Weighted Time LayerMerge ListMerger List

variable {K V T R : Type*} {n : Nat}
  [LinearOrder K] [LinearOrder V] [LinearOrder T] [AddCommMonoid R]
  {keyFilter : Option (K → Bool)} {valueFilter : Option (V → Bool)}
  {cfg : ListMerger.Config T} {total : K × V × T → R} {call : Call n}

section

variable (keyFilter valueFilter cfg total call) in
structure Ready (s : State n K V T R) (remaining : List (Fin n)) : Prop where
  rest : Rest keyFilter valueFilter cfg total s
  settled : ∀ i, Settled keyFilter valueFilter call i (s.cursors i)
  remaining : ListMerger.Remaining (fun l => l) s remaining

variable {i : Fin n} {k : K} {remaining indexes : List (Fin n)} {s : State n K V T R}
  {bound rounds : Nat}

/-- The least key can be merged if one of its cursors has a value or if it is unfinished. -/
theorem Ready.inside (h : Ready keyFilter valueFilter cfg total call s remaining)
    (hi : headKey (s.cursors i) = some k) (hmin : ∀ j, ∀ k' ∈ headKey (s.cursors j), k ≤ k')
    (hval : (∃ j, headKey (s.cursors j) = some k ∧ spentKey (s.cursors j) = none) ∨
      s.anyValues = true) : Inside keyFilter valueFilter cfg total call k s := by
  have hinc : includes keyFilter k = true := by
    have hskipped := (h.settled i).skipped
    obtain ⟨vs, rest, hl⟩ := headKey_eq_some.mp hi
    rw [hl] at hskipped
    exact hskipped.1
  have hisRest := h.rest.isRest
  have hview : AtKey cfg.move total k (fun j => passing keyFilter valueFilter (s.cursors j))
      s.builder → (∀ j e, spentKey (s.cursors j) = some e → e = k) →
      AtKey cfg.move total k (views (passingRest keyFilter valueFilter) s)
        s.builder := by
    intro hat hspent
    exact hat.congr fun j => sameAt_passingRest (hisRest j) (h.settled j).skipped (hspent j)
  have hskip : ∀ j, Skipped keyFilter valueFilter (s.cursors j) := fun j => (h.settled j).skipped
  have hread : ∀ j, Readable call j (s.cursors j) := fun j => (h.settled j).readable
  cases h.rest with
  | between hrest hbetween hany hle heq =>
    obtain ⟨j, hj, hjval⟩ := hval.resolve_right (by simp [hany])
    have hpass : headKey (passing keyFilter valueFilter (s.cursors j)) = some k := by
      rw [passing_eq_of_vals (hskip j) hjval, headKey_passingRest, hj]
    have hspent : ∀ j' e, spentKey (s.cursors j') = some e → e = k := by
      intro j' e he
      exact le_antisymm (hle j' e he j k hpass) (hmin j' e (headKey_of_spentKey he))
    have hat := hbetween.atKey hpass fun j' k' hk' => by
      obtain ⟨k'', hk'', hle'⟩ := headKey_le_of_passing (hisRest j') hk'
      exact (hmin j' k'' hk'').trans hle'
    exact ⟨⟨hskip, hview hat hspent, by simp [hany, hbetween.vals]⟩, hrest, hread, hinc, i, hi⟩
  | inside k' hrest hat hany hvals hinc' hat_key hge hspent =>
    obtain ⟨j, hj⟩ := hat_key
    obtain rfl : k' = k := le_antisymm (hge i k hi) (hmin j k' hj)
    exact ⟨⟨hskip, hview hat hspent, by simp [hany, hvals]⟩, hrest, hread, hinc, i, hi⟩

variable (keyFilter valueFilter cfg total k s) in
/-- The values of the key `k` are exhausted and the key is written. -/
structure Closed : Prop where
  rest : ∀ i, IsRest (s.cursors i)
  between : Between cfg.move total (fun i => passing keyFilter valueFilter (s.cursors i))
    s.builder
  any : s.anyValues = false
  spent : ∀ i e, spentKey (s.cursors i) = some e → e = k
  le : ∀ j, ∀ k' ∈ headKey (passing keyFilter valueFilter (s.cursors j)), k ≤ k'

theorem Closed.toRest (h : Closed keyFilter valueFilter cfg total k s) :
    Rest keyFilter valueFilter cfg total s := by
  refine .between h.rest h.between h.any ?_ ?_
  · intro i e he j k' hk'
    rw [h.spent i e he]
    exact h.le j k' hk'
  · intro i j e e' he he'
    rw [h.spent i e he, h.spent j e' he']

theorem Closed.headKey_of_spent (h : Closed keyFilter valueFilter cfg total k s)
    (hi : spentKey (s.cursors i) ≠ none) : headKey (s.cursors i) = some k :=
  headKey_of_spentKey (eq_of_spentKey_ne_none hi (h.spent i))

theorem Inside.pushKey (h : Inside keyFilter valueFilter cfg total call k s)
    (hdone : ∀ j, valsAt k (views (passingRest keyFilter valueFilter) s j) = [])
    (hi : headKey (s.cursors i) = some k) :
    ∃ s', pushKey call s i = some s' ∧ s'.cursors = s.cursors ∧ s'.fuel = s.fuel ∧
      Closed keyFilter valueFilter cfg total k s' := by
  have hkey : key call i (s.cursors i) = .ok (some k) := by
    rw [(h.readable i).key, hi]
  have hspent := spent_eq_of_atKey h.state.atKey
  have hbetween := h.state.atKey.nextKey hdone
  have hviews : nextKey (views (passingRest keyFilter valueFilter) s) k =
      fun j => passing keyFilter valueFilter (s.cursors j) := by
    funext j
    unfold nextKey views
    rw [headKey_passingRest]
    by_cases hj : headKey (s.cursors j) = some k
    · obtain ⟨rest, hl⟩ := spentKey_eq_some.mp
        (spentKey_of_valsAt (h.state.cursors j) hj (hdone j))
      rw [if_pos hj, hl, passing_cons]
      simp [passingRest, passingVals]
    · rw [if_neg hj, passing_eq_of_vals (h.state.cursors j)]
      by_contra hne
      exact hj (headKey_of_spentKey (eq_of_spentKey_ne_none hne (hspent j)))
  rw [hviews] at hbetween
  have hle : ∀ j, ∀ k' ∈ headKey (passing keyFilter valueFilter (s.cursors j)), k ≤ k' := by
    intro j k' hk'
    obtain ⟨k'', hk'', hle'⟩ := headKey_le_of_passing (h.rest j) hk'
    refine le_trans (h.state.atKey.key_le j k'' ?_) hle'
    exact (headKey_passingRest keyFilter valueFilter _).trans hk''
  unfold PushMerger.pushKey
  cases hany : s.anyValues with
  | true =>
    have hvals : s.builder.vals.isEmpty = false := by simpa using h.state.any.mp hany
    have hwrite : writeKey s.builder k = s.builder.pushKey k := by simp [writeKey, hvals]
    rw [hwrite] at hbetween
    rw [hkey]
    exact ⟨_, rfl, rfl, rfl, h.rest, hbetween, rfl, hspent, hle⟩
  | false =>
    have hvals : s.builder.vals.isEmpty = true := by
      simpa using h.state.any.not.mp (by simp [hany])
    have hwrite : writeKey s.builder k = s.builder := by simp [writeKey, hvals]
    rw [hwrite] at hbetween
    exact ⟨s, rfl, rfl, rfl, h.rest, hbetween, hany, hspent, hle⟩

variable (keyFilter valueFilter cfg total call s) in
structure KeysStepped (count : Nat) (r : State n K V T R × List (Fin n) × Flow) : Prop where
  part : Part keyFilter valueFilter cfg total s r.1 r.2.2
    (Ready keyFilter valueFilter cfg total call r.1 r.2.1 ∧
      (∀ i, spentKey (r.1.cursors i) = none) ∧ workLeft r.1 + count ≤ workLeft s)
  no_return : r.2.2 ≠ .returns

/-- The cursors of a written key go on to their next keys. -/
theorem stepMinKeys_part (hnodup : indexes.Nodup)
    (h : Closed keyFilter valueFilter cfg total k s)
    (hsettled : ∀ i, Settled keyFilter valueFilter call i (s.cursors i))
    (hremaining : ListMerger.Remaining (fun l => l) s remaining)
    (hidx : ∀ i ∈ indexes, spentKey (s.cursors i) = some k)
    (hspent : ∀ i, i ∉ indexes → spentKey (s.cursors i) = none) :
    KeysStepped keyFilter valueFilter cfg total call s indexes.length
      (stepMinKeys call keyFilter valueFilter indexes s remaining) := by
  induction indexes generalizing s remaining with
  | nil =>
    exact ⟨Part.goesOn (ListMerger.Spent.refl s)
      ⟨⟨h.toRest, hsettled, hremaining⟩, fun i => hspent i not_mem_nil, le_rfl⟩,
      by simp [stepMinKeys]⟩
  | cons i indexes ih =>
    obtain ⟨hi, hnodup'⟩ := nodup_cons.mp hnodup
    obtain ⟨rest, hl⟩ := spentKey_eq_some.mp (hidx i (by simp))
    have hkey : (headKey (s.cursors i)).isSome := hl ▸ rfl
    obtain ⟨l, fuel, r, hstep, hmoved, hsize, hnone, hok⟩ :=
      stepKey_moved keyFilter valueFilter call (h.rest i) hkey
    have hwork := workLeft_setCursor s i l fuel
    have hcost := hmoved.cost
    have hfuel := hmoved.fuel_le
    have hother : ∀ j, j ≠ i → (setCursor s i l fuel).cursors j = s.cursors j :=
      fun j hj => setCursor_of_ne hj fuel
    have hself : (setCursor s i l fuel).cursors i = l := setCursor_self i fuel
    have hlt : workLeft (setCursor s i l fuel) < workLeft s := by omega
    have hsteps : Spent s (setCursor s i l fuel) := by
      refine ⟨?_, hlt.le, fun _ => hlt⟩
      change fuel ≤ s.fuel
      omega
    have hpassing : passing keyFilter valueFilter l = passing keyFilter valueFilter (s.cursors i) := by
      rw [hmoved.passing, hl, passing_cons]
      simp [passingVals]
    have hviews : (fun j => passing keyFilter valueFilter ((setCursor s i l fuel).cursors j)) =
        fun j => passing keyFilter valueFilter (s.cursors j) :=
      funext fun j => setCursor_elim j hpassing fun _ _ => rfl
    have hclosed : Closed keyFilter valueFilter cfg total k (setCursor s i l fuel) := by
      refine ⟨fun j => setCursor_elim j hmoved.rest fun j _ => h.rest j, ?_, h.any,
        fun j => setCursor_elim j (by simp [hnone]) fun j _ => h.spent j, fun j k' hk' => ?_⟩
      · rw [hviews]
        exact h.between
      · rw [congrFun hviews j] at hk'
        exact h.le j k' hk'
    have hidx' : ∀ j ∈ indexes, spentKey ((setCursor s i l fuel).cursors j) = some k := by
      intro j hj
      rw [hother j (fun hji => hi (hji ▸ hj))]
      exact hidx j (by simp [hj])
    have hspent' : ∀ j, j ∉ indexes → spentKey ((setCursor s i l fuel).cursors j) = none :=
      fun j => setCursor_elim j (fun _ => hnone) fun j hji hj => hspent j (by simp [hj, hji])
    -- once the step of `i` is answered, the other cursors follow
    have hnext : ∀ remaining', Settled keyFilter valueFilter call i l →
        ListMerger.Remaining (fun l => l) (setCursor s i l fuel) remaining' →
        KeysStepped keyFilter valueFilter cfg total call s (indexes.length + 1)
          (stepMinKeys call keyFilter valueFilter indexes (setCursor s i l fuel)
            remaining') := by
      intro remaining' hset hrem
      obtain ⟨hpart, hret⟩ := ih hnodup' hclosed
        (fun j => setCursor_elim j hset fun j _ => hsettled j) hrem hidx' hspent'
      refine ⟨Part.after hsteps hpart ?_, hret⟩
      rintro ⟨hready, hnospent, hleft⟩
      exact ⟨hready, hnospent, by omega⟩
    rw [stepMinKeys, hstep]
    cases r with
    | error e => exact ⟨Part.isPending hsteps hclosed.toRest, by simp⟩
    | ok b =>
      obtain ⟨hset, hb⟩ := hok b rfl
      cases b with
      | true =>
        refine hnext _ hset ⟨hremaining.nodup, fun j => ?_⟩
        rw [hremaining.mem j]
        by_cases hj : j = i
        · subst hj
          simp only [views, hself, ← hb, hkey]
        · simp only [views, hother j hj]
      | false =>
        refine hnext _ hset ⟨hremaining.nodup.filter _, fun j => ?_⟩
        rw [mem_filter, hremaining.mem j]
        by_cases hj : j = i
        · subst hj
          simp [views, hself, ← hb]
        · simp [views, hother j hj, hj]

/-- If the cursors at the least key have no values and nothing is unfinished, that key is
already written. -/
theorem Ready.closed (h : Ready keyFilter valueFilter cfg total call s remaining)
    (hi : spentKey (s.cursors i) = some k) (hany : s.anyValues = false) :
    Closed keyFilter valueFilter cfg total k s := by
  cases h.rest with
  | between hrest hbetween _ hle heq =>
    exact ⟨hrest, hbetween, hany, fun j e he => heq j i e k he hi, hle i k hi⟩
  | inside _ _ _ hany' _ _ _ _ _ => exact nomatch hany.symm.trans hany'

theorem Inside.hasVals (h : Inside keyFilter valueFilter cfg total call k s)
    (hnodup : indexes.Nodup) (hidx : ∀ i, i ∈ indexes ↔ headKey (s.cursors i) = some k) :
    ListMerger.HasVals (passingRest keyFilter valueFilter) k s
      (indexes.filter fun i => hasVal call i (s.cursors i)) := by
  refine ⟨hnodup.filter _, fun i => ?_⟩
  rw [mem_filter, hidx, hasVal_eq (h.readable i), valsAt_ne_nil_iff,
    views, headKey_passingRest, headVal_passingRest (h.state.cursors i)]

variable [DecidableEq R] (hunit : cfg.timed = false → Subsingleton T)
include hunit

variable (hbound : workLeft s < bound)
include hbound

/-- One key: its values, the key itself, and the step to the next keys. -/
theorem Ready.mergeKey (h : Ready keyFilter valueFilter cfg total call s remaining)
    (hnodup : indexes.Nodup) (hne : indexes ≠ [])
    (hidx : ∀ i, i ∈ indexes ↔ headKey (s.cursors i) = some k)
    (hmin : ∀ j, ∀ k' ∈ headKey (s.cursors j), k ≤ k') {r : State n K V T R × Flow}
    (hr : keyVals call valueFilter cfg bound s
      (indexes.filter fun i => hasVal call i (s.cursors i)) = r) :
    Part keyFilter valueFilter cfg total s r.1 r.2
      (∃ s', indexes.head?.bind (pushKey call r.1) = some s' ∧ Spent s s' ∧
        KeysStepped keyFilter valueFilter cfg total call s' indexes.length
          (stepMinKeys call keyFilter valueFilter indexes s' remaining)) := by
  subst hr
  obtain ⟨i, rest, rfl⟩ := exists_cons_of_ne_nil hne
  have hi : headKey (s.cursors i) = some k := (hidx i).mp (by simp)
  by_cases hval : (∃ j, headKey (s.cursors j) = some k ∧ spentKey (s.cursors j) = none) ∨
      s.anyValues = true
  · have hinside := h.inside hi hmin hval
    have hpart := keyVals_part hunit hinside hbound (hinside.hasVals hnodup hidx) rfl
    generalize keyVals call valueFilter cfg bound s
      ((i :: rest).filter fun i => hasVal call i (s.cursors i)) = r at hpart ⊢
    refine ⟨hpart.spent, fun hgo => ?_, hpart.returns, hpart.pending, hpart.no_panic⟩
    obtain ⟨hin, hdone, hheads⟩ := hpart.goes_on hgo
    obtain ⟨s', hpush, hcursors, hfuel, hclosed⟩ :=
      hin.pushKey hdone ((hheads i).trans hi)
    have hspent : Spent r.1 s' := by
      have hsame := workLeft_congr hcursors
      exact ⟨hfuel.le, hsame.le, fun hlt => absurd hfuel hlt.ne⟩
    refine ⟨s', hpush, hpart.spent.trans hspent, ?_⟩
    refine stepMinKeys_part hnodup hclosed (fun j => ?_) ?_ (fun j hj => ?_) fun j hj => ?_
    · rw [hcursors]
      exact hin.settled j
    · refine ⟨h.remaining.nodup, fun j => ?_⟩
      rw [h.remaining.mem j]
      simp only [views, hcursors, hheads j]
    · rw [hcursors]
      exact spentKey_of_valsAt (hin.state.cursors j) ((hheads j).trans ((hidx j).mp hj)) (hdone j)
    · by_contra hsome
      have he := hclosed.headKey_of_spent hsome
      rw [hcursors, hheads j] at he
      exact hj ((hidx j).mpr he)
  · -- the key was written before an early return: its cursors only have to go on
    rw [not_or] at hval
    obtain ⟨hspent, hany⟩ := hval
    push Not at hspent
    have hall : ∀ j ∈ i :: rest, spentKey (s.cursors j) = some k := by
      intro j hj
      have hjk := (hidx j).mp hj
      obtain ⟨e, he⟩ := Option.ne_none_iff_exists'.mp (hspent j hjk)
      rw [he, ← headKey_of_spentKey he, hjk]
    have hclosed := h.closed (hall i (by simp)) (by simpa using hany)
    have hnil : ((i :: rest).filter fun i => hasVal call i (s.cursors i)) = [] := by
      rw [filter_eq_nil_iff]
      intro j hj
      obtain ⟨l, hl⟩ := spentKey_eq_some.mp (hall j hj)
      rw [hasVal_eq (h.settled j).readable, hl]
      simp [headVal]
    have hkey : keyVals call valueFilter cfg bound s [] = (s, .goesOn) := by
      cases bound with
      | zero => omega
      | succ rounds => simp [keyVals, sharedVals, isLong]
    rw [hnil, hkey]
    refine Part.goesOn (ListMerger.Spent.refl s) ⟨s, ?_, ListMerger.Spent.refl s, ?_⟩
    · simp [pushKey, hany]
    · refine stepMinKeys_part hnodup hclosed h.settled h.remaining hall fun j hj => ?_
      by_contra hsome
      exact hj ((hidx j).mpr (hclosed.headKey_of_spent hsome))

theorem keysLoop_part (hrounds : workLeft s < rounds)
    (h : Ready keyFilter valueFilter cfg total call s remaining)
    {r : State n K V T R × List (Fin n) × Flow}
    (hr : keysLoop call keyFilter valueFilter cfg bound rounds s remaining = r) :
    Part keyFilter valueFilter cfg total s r.1 r.2.2
      (Ready keyFilter valueFilter cfg total call r.1 r.2.1 ∧ isLong r.2.1 = false ∧
        ((∀ i, spentKey (r.1.cursors i) = none) ∨ r = (s, remaining, .goesOn))) := by
  subst hr
  induction rounds generalizing s remaining with
  | zero => omega
  | succ rounds ih =>
    by_cases hlong : isLong remaining = true
    · unfold keysLoop
      rw [if_pos hlong]
      by_cases hfuel : s.fuel ≤ 0
      · rw [if_pos hfuel]
        exact Part.outOfFuel (ListMerger.Spent.refl s) h.rest hfuel
      have hkeys := any_isNone_eq_false (fun i => (h.settled i).readable.key) remaining
      have hsome : ∃ i ∈ remaining, (headKey (s.cursors i)).isSome := by
        obtain ⟨i, hi⟩ := exists_mem_of_ne_nil _ (ne_nil_of_isLong hlong)
        exact ⟨i, hi, (h.remaining.mem i).mp hi⟩
      obtain ⟨k, hnodup, hmem, hle, i, hi, hik⟩ :=
        findMinIndexes_filterMap h.remaining.nodup hsome
      have hin : ∀ j k', headKey (s.cursors j) = some k' → j ∈ remaining :=
        fun j k' hj => (h.remaining.mem j).mpr (by simp [views, hj])
      rw [if_neg hfuel, hkeys]
      simp only [Bool.false_eq_true, if_false]
      generalize findMinIndexes
        (remaining.filterMap fun i => (headKey (s.cursors i)).map fun k => (i, k)) = indexes
        at hnodup hmem ⊢
      have hidx : ∀ j, j ∈ indexes ↔ headKey (s.cursors j) = some k := by
        intro j
        rw [hmem j]
        exact ⟨fun hj => hj.2, fun hj => ⟨hin j k hj, hj⟩⟩
      have hmin : ∀ j, ∀ k' ∈ headKey (s.cursors j), k ≤ k' :=
        fun j k' hj => hle j (hin j k' hj) k' hj
      have hne : indexes ≠ [] := ne_nil_of_mem ((hidx i).mpr hik)
      have hvals := any_isNone_eq_false (fun i => (h.settled i).readable.val) indexes
      have hpart := h.mergeKey hunit hbound hnodup hne hidx hmin rfl
      rw [hvals]
      simp only [Bool.false_eq_true, if_false]
      generalize keyVals call valueFilter cfg bound s
        (indexes.filter fun i => hasVal call i (s.cursors i)) = r at hpart ⊢
      obtain ⟨s₁, flow⟩ := r
      cases flow with
      | goesOn =>
        obtain ⟨s', hpush, hspent, hkeysStepped⟩ := hpart.goes_on rfl
        simp only [hpush]
        generalize stepMinKeys call keyFilter valueFilter indexes s' remaining = r
          at hkeysStepped ⊢
        obtain ⟨s'', remaining', flow⟩ := r
        obtain ⟨hstepped, hret⟩ := hkeysStepped
        cases flow with
        | goesOn =>
          obtain ⟨hready, hnone, hleft⟩ := hstepped.goes_on rfl
          dsimp only at hready hnone hleft ⊢
          have hpos := length_pos_iff.mpr hne
          have hspent' : workLeft s' ≤ workLeft s := hspent.left
          have hlt : workLeft s'' < workLeft s := by omega
          have hspent'' : Spent s' s'' := hstepped.spent
          refine Part.after (hspent.trans hspent'')
            (ih (hlt.trans hbound) (by omega) hready) ?_
          rintro ⟨hready', hshort, hcases⟩
          refine ⟨hready', hshort, Or.inl (hcases.elim id fun heq => ?_)⟩
          rw [heq]
          exact hnone
        | returns => exact absurd rfl hret
        | pending => exact Part.isPending (hspent.trans hstepped.spent) (hstepped.pending rfl)
        | panics => exact absurd rfl hstepped.no_panic
      | returns => exact hpart.stop (by simp)
      | pending => exact hpart.stop (by simp)
      | panics => exact absurd rfl hpart.no_panic
    · have hstop : keysLoop call keyFilter valueFilter cfg bound (rounds + 1) s remaining =
          (s, remaining, .goesOn) := by
        rw [keysLoop, if_neg hlong]
      rw [hstop]
      exact Part.goesOn (ListMerger.Spent.refl s) ⟨h, by simpa using hlong, Or.inr rfl⟩

theorem lastKeys_part (hrounds : workLeft s < rounds)
    (h : Ready keyFilter valueFilter cfg total call s [i]) (hval : spentKey (s.cursors i) = none)
    :
    Part keyFilter valueFilter cfg total s
      (lastKeys call keyFilter valueFilter cfg bound rounds s i).1
      (lastKeys call keyFilter valueFilter cfg bound rounds s i).2 False := by
  induction rounds generalizing s with
  | zero => omega
  | succ rounds ih =>
    obtain ⟨k, hi⟩ : ∃ k, headKey (s.cursors i) = some k :=
      Option.isSome_iff_exists.mp ((h.remaining.mem i).mp (by simp))
    have honly : ∀ j k', headKey (s.cursors j) = some k' → j = i := fun j k' hj =>
      mem_singleton.mp ((h.remaining.mem j).mpr (by simp [views, hj]))
    have hidx : ∀ j, j ∈ [i] ↔ headKey (s.cursors j) = some k := by
      intro j
      rw [mem_singleton]
      exact ⟨fun hj => hj ▸ hi, honly j k⟩
    have hmin : ∀ j, ∀ k' ∈ headKey (s.cursors j), k ≤ k' := by
      intro j k' hj
      obtain rfl := honly j k' hj
      exact (Option.mem_unique hi hj).le
    have hhas : hasVal call i (s.cursors i) = true := by
      rw [hasVal_eq (h.settled i).readable]
      cases hl : s.cursors i with
      | nil => simp [hl, headKey] at hi
      | cons p rest =>
        obtain ⟨k', vs⟩ := p
        cases vs with
        | nil => simp [hl, spentKey] at hval
        | cons q vs => rfl
    have hpart := h.mergeKey hunit hbound (nodup_singleton i) (by simp) hidx hmin rfl
    have hfilter : ([i].filter fun i => hasVal call i (s.cursors i)) = [i] := by simp [hhas]
    have hkey : keyVals call valueFilter cfg bound s [i] =
        ownVals call valueFilter cfg bound s i := by
      cases bound with
      | zero => omega
      | succ bound => simp [keyVals, sharedVals, isLong]
    rw [hfilter, hkey] at hpart
    unfold lastKeys
    generalize ownVals call valueFilter cfg bound s i = r at hpart ⊢
    obtain ⟨s₁, flow⟩ := r
    cases flow with
    | returns => exact hpart.stop (by simp)
    | pending => exact hpart.stop (by simp)
    | panics => exact absurd rfl hpart.no_panic
    | goesOn =>
      obtain ⟨s', hpush, hspent, hstepped, hret⟩ := hpart.goes_on rfl
      have hpush' : pushKey call s₁ i = some s' := hpush
      simp only [hpush']
      rw [stepMinKeys] at hstepped hret
      generalize stepKey call keyFilter valueFilter s' i = r at hstepped hret ⊢
      obtain ⟨s'', answer⟩ := r
      cases answer with
      | error e => exact Part.isPending (hspent.trans hstepped.spent) (hstepped.pending rfl)
      | ok b =>
        cases b with
        | false =>
          obtain ⟨hready, -, -⟩ := hstepped.goes_on rfl
          refine ⟨hspent.trans hstepped.spent, by simp, fun _ => ⟨hready.rest, fun _ j => ?_⟩,
            by simp, by simp⟩
          have hnone := (hready.remaining.mem j).not.mp (by simp [stepMinKeys])
          simpa [headKey, views, stepMinKeys] using hnone
        | true =>
          obtain ⟨hready, hnone, hleft⟩ := hstepped.goes_on rfl
          have hleft' : workLeft s'' + 1 ≤ workLeft s' := hleft
          have hspent' : workLeft s' ≤ workLeft s := hspent.left
          have hspent'' : Spent s' s'' := hstepped.spent
          simp only
          split
          · next hstop => exact Part.outOfFuel (hspent.trans hspent'') hready.rest hstop
          · exact Part.after (hspent.trans hspent'')
              (ih (by omega) (by omega) hready (hnone i)) id

end

end Feldera.Trace.PushMerger
