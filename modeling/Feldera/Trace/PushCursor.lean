import Feldera.Trace.PushMerger

/-!
What the skipping functions and the steps of a single push cursor do. Skipping never
changes what passes the filters, whether or not it ends early because data is pending;
when it ends, the cursor stands on something that passes and that can be read.
-/

namespace Feldera.Trace.PushMerger

open Weighted LayerMerge List

variable {K V T R : Type*} {n : Nat}

/-- The key a cursor stands on although its values are exhausted. -/
def spentKey : Layers K V T R → Option K
  | (k, []) :: _ => some k
  | _ => none

variable {l : Layers K V T R} {e : K}

theorem spentKey_eq_some : spentKey l = some e ↔ ∃ rest, l = (e, []) :: rest := by
  cases l with
  | nil => simp [spentKey]
  | cons p rest =>
    obtain ⟨k, vs⟩ := p
    cases vs <;> simp [spentKey]

theorem eq_of_spentKey_ne_none {k : K} (h : spentKey l ≠ none)
    (hspent : ∀ e, spentKey l = some e → e = k) : spentKey l = some k := by
  obtain ⟨e, he⟩ := Option.ne_none_iff_exists'.mp h
  rw [he, hspent e he]

theorem headKey_of_spentKey (h : spentKey l = some e) : headKey l = some e := by
  obtain ⟨rest, rfl⟩ := spentKey_eq_some.mp h
  rfl

structure Readable (call : Call n) (i : Fin n) (l : Layers K V T R) : Prop where
  key : key call i l = .ok (headKey l)
  val : val call i l = .ok ((headVal l).map Prod.fst)

section

variable (call : Call n) (i : Fin n) (valueFilter : Option (V → Bool))

theorem skipVals_spec (keys : Nat) (vs : Vals V T R) (fuel : ℤ)
    {r : Vals V T R × ℤ × Except Pending Bool}
    (hr : skipVals call i valueFilter keys vs fuel = r) :
    passingVals valueFilter r.1 = passingVals valueFilter vs ∧ r.1 <:+ vs ∧
      r.2.1 + vs.length = fuel + r.1.length ∧ (∀ b, r.2.2 = .ok b → (b = true ↔ r.1 ≠ [])) ∧
      (∀ e, r.2.2 = .error e → r.1 ≠ []) ∧
      ∀ b, r.2.2 = .ok b → ∀ p us, r.1 = p :: us →
        includes valueFilter p.1 = true ∧ call.valReady i keys (us.length + 1) = true := by
  subst hr
  induction vs generalizing fuel with
  | nil => simp [skipVals]
  | cons p vs ih =>
    unfold skipVals
    by_cases hready : call.valReady i keys (vs.length + 1) = true
    · by_cases hp : includes valueFilter p.1 = true
      · simp [hready, hp]
      obtain ⟨hpass, hsuffix, hfuel, hok, herr, hhead⟩ := ih (fuel - 1)
      simp only [hready, hp, if_true, Bool.false_eq_true, if_false]
      refine ⟨hpass.trans (by simp [passingVals, hp]), hsuffix.trans (suffix_cons _ _), ?_,
        hok, herr, hhead⟩
      simp only [length_cons, Nat.cast_add, Nat.cast_one] at hfuel ⊢
      omega
    · simp [hready]

theorem skipFilteredValues_spec (k : K) (vs : Vals V T R) (rest : Layers K V T R) (fuel : ℤ) :
    ∃ us fuel' r, skipFilteredValues call i valueFilter ((k, vs) :: rest) fuel =
        ((k, us) :: rest, fuel', r) ∧
      passingVals valueFilter us = passingVals valueFilter vs ∧ us <:+ vs ∧
      fuel' + vs.length = fuel + us.length ∧ (valueFilter = none → us = vs) ∧
      (∀ e, r = .error e → us ≠ []) ∧
      ∀ b, r = .ok b → (b = false ↔ valueFilter.isSome = true ∧ us = []) ∧
        val call i ((k, us) :: rest) = .ok (us.head?.map Prod.fst) ∧
        ∀ p ∈ us.head?, includes valueFilter p.1 = true := by
  cases valueFilter with
  | none =>
    have hval : ∀ o, val call i ((k, vs) :: rest) = .ok o → o = vs.head?.map Prod.fst := by
      intro o ho
      cases vs with
      | nil => simpa [val, eq_comm] using ho
      | cons p vs =>
        simp only [val] at ho
        split at ho
        · simpa [eq_comm] using ho
        · cases ho
    cases hv : val call i ((k, vs) :: rest) with
    | error e =>
      refine ⟨vs, fuel, .error e, by simp [skipFilteredValues, hv], rfl, suffix_refl _, rfl,
        fun _ => rfl, ?_, nofun⟩
      rintro - - rfl
      simp [val] at hv
    | ok o =>
      refine ⟨vs, fuel, .ok true, by simp [skipFilteredValues, hv], rfl, suffix_refl _, rfl,
        fun _ => rfl, nofun, ?_⟩
      rintro b ⟨⟩
      exact ⟨by simp, by rw [hv, hval o hv], fun _ _ => rfl⟩
  | some filter =>
    obtain ⟨hpass, hsuffix, hfuel, hok, herr, hhead⟩ :=
      skipVals_spec call i (some filter) (rest.length + 1) vs fuel rfl
    refine ⟨_, _, _, rfl, hpass, hsuffix, hfuel, nofun, herr, fun b hb => ?_⟩
    have hb' := hok b hb
    have hhead' := hhead b hb
    generalize (skipVals call i (some filter) (rest.length + 1) vs fuel).1 = us at hb' hhead' ⊢
    refine ⟨?_, ?_, ?_⟩
    · rw [← Bool.not_eq_true, hb']
      simp
    · cases us with
      | nil => rfl
      | cons p us => simp [val, (hhead' p us rfl).2]
    cases us with
    | nil => simp
    | cons p us =>
      rintro q ⟨⟩
      exact (hhead' p us rfl).1

end

section

variable [LinearOrder K] [LinearOrder V] [LinearOrder T] [AddCommMonoid R]
  (keyFilter : Option (K → Bool)) (valueFilter : Option (V → Bool))

variable {l : Layers K V T R} {k : K}

omit [LinearOrder K] [LinearOrder V] [LinearOrder T] [AddCommMonoid R] in
theorem exists_mem_of_mem_passing {q : K × Vals V T R} (hq : q ∈ passing keyFilter valueFilter l)
    : ∃ p ∈ l, p.1 = q.1 := by
  obtain ⟨p, hp, rfl⟩ := mem_map.mp (mem_filter.mp hq).1
  exact ⟨p, (mem_filter.mp hp).1, rfl⟩

omit [LinearOrder K] [LinearOrder V] [LinearOrder T] [AddCommMonoid R] in
theorem exists_mem_of_headKey_passing (hk : headKey (passing keyFilter valueFilter l) = some k)
    : ∃ p ∈ l, p.1 = k := by
  obtain ⟨q, hq, rfl⟩ := Option.map_eq_some_iff.mp hk
  exact exists_mem_of_mem_passing keyFilter valueFilter (mem_of_mem_head? hq)

theorem spentKey_of_isBatch (h : IsBatch l) : spentKey l = none := by
  cases l with
  | nil => rfl
  | cons p l =>
    obtain ⟨k, vs⟩ := p
    cases vs with
    | nil => exact absurd rfl (isLayer_cons.mp h).1.1
    | cons q vs => rfl

/-- Where skipping may take a cursor: from `l` to `l'`, using up fuel. -/
structure Moved (l l' : Layers K V T R) (fuel fuel' : ℤ) : Prop where
  passing : passing keyFilter valueFilter l' = passing keyFilter valueFilter l
  rest : IsRest l'
  fuel_le : fuel' ≤ fuel
  cost : fuel + size l' ≤ fuel' + size l
  spent : ∀ e, spentKey l' = some e → l' = l
  stays : ∀ k, headKey l = some k →
    headKey (Trace.passing keyFilter valueFilter l) = some k → headKey l' = some k
  unfiltered : valueFilter = none → ∀ k, headKey l = some k → includes keyFilter k = true → l' = l
  ge : ∀ k ∈ headKey l, ∀ k' ∈ headKey l', k ≤ k'

variable {keyFilter valueFilter}

theorem Moved.refl (h : IsRest l) (fuel : ℤ) :
    Moved keyFilter valueFilter l l fuel fuel where
  passing := rfl
  rest := h
  fuel_le := le_rfl
  cost := le_rfl
  spent _ _ := rfl
  stays _ hk _ := hk
  unfiltered _ _ _ _ := rfl
  ge _ hk _ hk' := (Option.mem_unique hk hk').le

variable {rest : Layers K V T R} {fuel fuel' : ℤ}

theorem Moved.vals {vs us : Vals V T R} (h : IsRest ((k, vs) :: rest))
    (hpass : passingVals valueFilter us = passingVals valueFilter vs) (hsuffix : us <:+ vs)
    (hfuel : fuel' + vs.length = fuel + us.length) (hnone : valueFilter = none → us = vs)
    (hspent : us = [] → us = vs) :
    Moved keyFilter valueFilter ((k, vs) :: rest) ((k, us) :: rest) fuel fuel' where
  passing := by
    rw [passing_cons, passing_cons, hpass]
  rest := by
    refine ⟨⟨h.1.sorted.sublist hsuffix.sublist, fun p hp => ?_⟩, h.2⟩
    exact h.1.contents p (hsuffix.subset hp)
  fuel_le := by
    have hlen := hsuffix.length_le
    omega
  cost := by
    simp only [size_cons]
    omega
  spent e he := by
    cases us with
    | nil => rw [hspent rfl]
    | cons p us => simp [spentKey] at he
  stays _ hk _ := hk
  unfiltered hvf _ _ _ := by rw [hnone hvf]
  ge k' hk k'' hk' := by
    cases hk
    cases hk'
    exact le_rfl

/-- A cursor does not move backwards. -/
theorem Moved.eq_nil (h : Moved keyFilter valueFilter [] l fuel fuel') : l = [] := by
  have hcost := h.cost
  have hfuel := h.fuel_le
  cases l with
  | nil => rfl
  | cons p l =>
    rw [size_nil, size_cons] at hcost
    omega

/-- Going on from a key of which nothing passes. -/
theorem Moved.advance {vs : Vals V T R} {fuel fuel₁ fuel' : ℤ} (h : IsRest ((k, vs) :: rest))
    (hdrop : includes keyFilter k = false ∨
      valueFilter.isSome = true ∧ passingVals valueFilter vs = []) (hle : fuel₁ < fuel)
    (hcost : fuel ≤ fuel₁ + (vs.length + 1))
    (hmoved : Moved keyFilter valueFilter rest l fuel₁ fuel') :
    Moved keyFilter valueFilter ((k, vs) :: rest) l fuel fuel' := by
  have hpassing : Trace.passing keyFilter valueFilter ((k, vs) :: rest) =
      Trace.passing keyFilter valueFilter rest := by
    rw [passing_cons]
    rcases hdrop with hk | ⟨-, hvs⟩
    · simp [hk]
    · simp [hvs]
  have hgt : ∀ k' ∈ headKey l, k < k' := by
    intro k' hk'
    cases hrest : rest with
    | nil =>
      rw [hrest] at hmoved
      simp [hmoved.eq_nil, headKey] at hk'
    | cons p rest' =>
      have hp : k < p.1 := h.2.1 p (by simp [hrest])
      exact hp.trans_le (hmoved.ge p.1 (by simp [hrest, headKey]) k' hk')
  exact
    { passing := hmoved.passing.trans hpassing.symm
      rest := hmoved.rest
      fuel_le := hmoved.fuel_le.trans hle.le
      cost := by
        have hcost' := hmoved.cost
        simp only [size_cons]
        omega
      spent := by
        intro e he
        rw [hmoved.spent e he, spentKey_of_isBatch h.2.2] at he
        cases he
      stays := by
        intro k' hk' hpass
        cases hk'
        rw [hpassing] at hpass
        obtain ⟨p, hp, hpk⟩ := exists_mem_of_headKey_passing keyFilter valueFilter hpass
        exact absurd hpk (h.2.1 p hp).ne'
      unfiltered := by
        intro hvf k' hk' hinc
        cases hk'
        rcases hdrop with hk | ⟨hsome, -⟩
        · rw [hk] at hinc
          cases hinc
        · rw [hvf] at hsome
          cases hsome
      ge := by
        intro k' hk' k'' hk''
        cases hk'
        exact (hgt k'' hk'').le }

structure Settled (keyFilter : Option (K → Bool)) (valueFilter : Option (V → Bool))
    (call : Call n) (i : Fin n) (l : Layers K V T R) : Prop where
  skipped : Skipped keyFilter valueFilter l
  readable : Readable call i l

variable (call : Call n) (i : Fin n)

omit [LinearOrder K] [LinearOrder V] [LinearOrder T] [AddCommMonoid R] in
theorem settled_nil : Settled (T := T) (R := R) keyFilter valueFilter call i [] :=
  ⟨trivial, rfl, rfl⟩

theorem skipKeys_moved (h : IsRest l) (fuel : ℤ)
    {r : Layers K V T R × ℤ × Except Pending Unit}
    (hr : skipKeys call i keyFilter valueFilter l fuel = r) :
    Moved keyFilter valueFilter l r.1 fuel r.2.1 ∧
      (r.2.2 = .ok () → Settled keyFilter valueFilter call i r.1 ∧
        (valueFilter.isSome = true → spentKey r.1 = none)) := by
  subst hr
  induction l generalizing fuel with
  | nil => exact ⟨Moved.refl h fuel, fun _ => ⟨settled_nil call i, fun _ => rfl⟩⟩
  | cons p rest ih =>
    obtain ⟨k, vs⟩ := p
    have hrest : IsRest rest := IsBatch.isRest h.2.2
    rw [skipKeys]
    by_cases hready : call.keyReady i (rest.length + 1) = true
    · by_cases hk : includes keyFilter k = true
      · obtain ⟨us, fuel', r, heq, hpass, hsuffix, hfuel, hnone, herr, hok⟩ :=
          skipFilteredValues_spec call i valueFilter k vs rest fuel
        rw [if_pos hready, if_pos hk, heq]
        cases r with
        | error e =>
          refine ⟨Moved.vals h hpass hsuffix hfuel hnone fun hus => ?_, by simp⟩
          exact absurd hus (herr e rfl)
        | ok b =>
          obtain ⟨hb, hval, hhead⟩ := hok b rfl
          cases b with
          | true =>
            refine ⟨Moved.vals h hpass hsuffix hfuel hnone fun hus => ?_,
              fun _ => ⟨⟨⟨hk, hhead⟩, ?_, hval⟩, fun hsome => ?_⟩⟩
            · refine hnone ?_
              by_contra hne
              exact absurd (hb.mpr ⟨Option.isSome_iff_ne_none.mpr hne, hus⟩) (by simp)
            · simp [key, hready, headKey]
            · cases us with
              | nil => exact absurd (hb.mpr ⟨hsome, rfl⟩) (by simp)
              | cons q us => rfl
          | false =>
            obtain ⟨hsome, rfl⟩ := hb.mp rfl
            obtain ⟨hmoved, hend⟩ := ih hrest (fuel' - 1)
            simp only [length_nil] at hfuel
            refine ⟨Moved.advance h (Or.inr ⟨hsome, hpass.symm⟩) (by omega) (by omega) hmoved, hend⟩
      · obtain ⟨hmoved, hend⟩ := ih hrest (fuel - 1)
        rw [if_pos hready, if_neg hk]
        exact ⟨Moved.advance h (Or.inl (by simpa using hk)) (by omega) (by omega) hmoved, hend⟩
    · rw [if_neg hready]
      exact ⟨Moved.refl h fuel, by simp⟩

variable (keyFilter valueFilter) in
theorem skipFilteredKeys_moved (h : IsRest l) (fuel : ℤ) :
    ∃ l' fuel' r, skipFilteredKeys call i keyFilter valueFilter l fuel = (l', fuel', r) ∧
      Moved keyFilter valueFilter l l' fuel fuel' ∧
      (r = .ok () → Settled keyFilter valueFilter call i l' ∧
        (valueFilter.isSome = true → spentKey l' = none)) := by
  by_cases hfilter : (keyFilter.isSome || valueFilter.isSome) = true
  · refine ⟨_, _, _, ?_, skipKeys_moved call i h fuel rfl⟩
    rw [skipFilteredKeys, if_pos hfilter]
  obtain ⟨rfl, rfl⟩ : keyFilter = none ∧ valueFilter = none := by simpa using hfilter
  have hskipped : Skipped none none l := by
    cases l with
    | nil => trivial
    | cons p rest => exact ⟨rfl, fun _ _ => rfl⟩
  rw [skipFilteredKeys, if_neg hfilter]
  cases l with
  | nil => exact ⟨_, _, _, rfl, Moved.refl h fuel, fun _ => ⟨settled_nil call i, nofun⟩⟩
  | cons p rest =>
    obtain ⟨k, vs⟩ := p
    by_cases hready : call.keyReady i (rest.length + 1) = true
    · have hkey : key call i ((k, vs) :: rest) = .ok (some k) := by simp [key, hready]
      cases vs with
      | nil =>
        rw [hkey]
        exact ⟨_, _, _, rfl, Moved.refl h fuel, fun _ => ⟨⟨hskipped, hkey, rfl⟩, nofun⟩⟩
      | cons q vs =>
        by_cases hval : call.valReady i (rest.length + 1) (vs.length + 1) = true
        · have hv : val call i ((k, q :: vs) :: rest) = .ok (some q.1) := by simp [val, hval]
          rw [hkey, hv]
          exact ⟨_, _, _, rfl, Moved.refl h fuel, fun _ => ⟨⟨hskipped, hkey, hv⟩, nofun⟩⟩
        · have hv : val call i ((k, q :: vs) :: rest) = .error .pending := by simp [val, hval]
          rw [hkey, hv]
          exact ⟨_, _, _, rfl, Moved.refl h fuel, nofun⟩
    · have hkey : key call i ((k, vs) :: rest) = .error .pending := by simp [key, hready]
      rw [hkey]
      exact ⟨_, _, _, rfl, Moved.refl h fuel, nofun⟩

variable {s : State n K V T R} {i : Fin n}

theorem stepVal_moved (hrest : IsRest (s.cursors i))
    (hsettled : Settled keyFilter valueFilter call i (s.cursors i))
    (hval : (headVal (s.cursors i)).isSome) :
    ∃ l fuel r, stepVal call valueFilter s i = (setCursor s i l fuel, r) ∧ IsRest l ∧
      headKey l = headKey (s.cursors i) ∧
      passingRest keyFilter valueFilter l =
        LayerMerge.stepVal (passingRest keyFilter valueFilter (s.cursors i)) ∧
      fuel < s.fuel ∧ s.fuel + LayerMerge.size l ≤ fuel + LayerMerge.size (s.cursors i) ∧
      ∀ b, r = .ok b →
        Settled keyFilter valueFilter call i l ∧ b = (headVal l).isSome := by
  cases hl : s.cursors i with
  | nil => simp [hl, headVal] at hval
  | cons p rest =>
    obtain ⟨k, vs⟩ := p
    rw [hl] at hrest hsettled
    cases vs with
    | nil => simp [hl, headVal] at hval
    | cons q vs =>
      obtain ⟨us, fuel', r, heq, hpass, hsuffix, hfuel, -, -, hok⟩ :=
        skipFilteredValues_spec call i valueFilter k vs rest (s.fuel - 1)
      have hlen := hsuffix.length_le
      have hq : includes valueFilter q.1 = true := hsettled.skipped.2 q rfl
      have hview : passingRest keyFilter valueFilter ((k, us) :: rest) =
          LayerMerge.stepVal (passingRest keyFilter valueFilter ((k, q :: vs) :: rest)) := by
        simp only [passingRest, LayerMerge.stepVal, hpass]
        simp [passingVals, hq]
      have hkey : key call i ((k, us) :: rest) = .ok (some k) := hsettled.readable.key
      have hisRest : IsRest ((k, us) :: rest) := by
        refine ⟨⟨hrest.1.tail.sorted.sublist hsuffix.sublist, fun p hp => ?_⟩, hrest.2⟩
        exact hrest.1.tail.contents p (hsuffix.subset hp)
      have hsize : s.fuel + size ((k, us) :: rest) ≤
          fuel' + size ((k, q :: vs) :: rest) := by
        simp only [size_cons, length_cons]
        omega
      rw [stepVal, hl]
      simp only [LayerMerge.stepVal, tail_cons, heq]
      cases r with
      | error e => exact ⟨_, _, _, rfl, hisRest, rfl, hview, by omega, hsize, by simp⟩
      | ok b =>
        obtain ⟨-, hv, hhead⟩ := hok b rfl
        refine ⟨_, _, _, rfl, hisRest, rfl, hview, by omega, hsize, ?_⟩
        intro b' hb'
        refine ⟨⟨⟨hsettled.skipped.1, hhead⟩, hkey, hv⟩, ?_⟩
        rw [hv] at hb'
        have hb := Except.ok.inj hb'
        rw [← hb, Option.isSome_map]
        rfl

variable (keyFilter valueFilter) in
theorem stepKey_moved (hrest : IsRest (s.cursors i)) (hkey : (headKey (s.cursors i)).isSome) :
    ∃ l fuel r, stepKey call keyFilter valueFilter s i = (setCursor s i l fuel, r) ∧
      Moved keyFilter valueFilter (s.cursors i).tail l (s.fuel - 1) fuel ∧
      size (s.cursors i).tail < size (s.cursors i) ∧ spentKey l = none ∧
      ∀ b, r = .ok b →
        Settled keyFilter valueFilter call i l ∧ b = (headKey l).isSome := by
  have hbatch := hrest.tail
  obtain ⟨l, fuel, r, heq, hmoved, hok⟩ := skipFilteredKeys_moved keyFilter valueFilter call i
    (IsBatch.isRest hbatch) (s.fuel - 1)
  have hspent : spentKey l = none := by
    by_contra hne
    obtain ⟨e, he⟩ := Option.ne_none_iff_exists'.mp hne
    rw [hmoved.spent e he, spentKey_of_isBatch hbatch] at he
    cases he
  rw [stepKey, heq]
  cases r with
  | error e => exact ⟨_, _, _, rfl, hmoved, size_tail hkey, hspent, nofun⟩
  | ok u =>
    refine ⟨_, _, _, rfl, hmoved, size_tail hkey, hspent, fun b hb => ⟨(hok rfl).1, ?_⟩⟩
    rw [(hok rfl).1.readable.key] at hb
    exact (Except.ok.inj hb).symm

end

end Feldera.Trace.PushMerger
