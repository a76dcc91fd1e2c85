import Feldera.Trace.CursorGroup
import Mathlib.Data.List.TakeWhile

/-!
Group transformers. A transformer computes what changes in the output group of a key, given what
changes in its input group. `DiffGroupTransformer` makes one out of a transformer that computes
the whole output group each time: it takes the old output group away from the new one, and keeps
to the order in which the new one comes.
-/

namespace Feldera.Operator.GroupTransform

open Trace OrderedSum Weighted List

variable {δ ι ο ρ V O : Type*}

inductive Monotonicity
  | ascending
  | descending
  | unordered
deriving DecidableEq

structure Outcome (δ ι ο O : Type*) where
  out : List (O × ℤ)
  delta : δ
  input : ι
  output : ο

structure GroupTransformer (δ ι ο O : Type*) where
  monotonicity : Monotonicity
  transform : δ → ι → ο → Outcome δ ι ο O

structure NonIncremental (ρ O : Type*) where
  monotonicity : Monotonicity
  transform : ρ → List (O × ℤ) × ρ

section

variable [LinearOrder V] [LinearOrder O] (X : Cursor ο O Unit ℤ)

/-- The loop that retracts keys of the output trace as long as they are `before` something. -/
def retract (d : Direction) (before : O → Bool) : Nat → ο × List (O × ℤ) → ο × List (O × ℤ)
  | 0, s => s
  | rounds + 1, s =>
    match X.getKey s.1 with
    | none => s
    | some key =>
      if before key then
        retract d before rounds (X.stepKey d s.1, s.2 ++ [(key, -X.weight s.1)])
      else s

/-- The callback that interleaves an output with the retractions before it. -/
def interleave (d : Direction) (limit : Nat) (s : ο × List (O × ℤ)) (p : O × ℤ) :
    ο × List (O × ℤ) :=
  let s := retract X d (fun key => decide (d.lt key p.1)) limit s
  if X.getKey s.1 = some p.1 then
    let w := p.2 + -X.weight s.1
    (X.stepKey d s.1, if w = 0 then s.2 else s.2 ++ [(p.1, w)])
  else (s.1, s.2 ++ [p])

/-- All outputs in the order of direction `d`, and then what remains of the output trace. -/
def interleaveAll (d : Direction) (limit : Nat) (out : List (O × ℤ)) (output : ο) :
    ο × List (O × ℤ) :=
  retract X d (fun _ => true) limit (out.foldl (interleave X d limit) (output, []))

def diff (D : Cursor δ V Unit ℤ) (I : Cursor ι V Unit ℤ) (limit : Nat)
    (T : NonIncremental (CursorPair δ ι ℤ) O) : GroupTransformer δ ι ο O where
  monotonicity := T.monotonicity
  transform delta input output :=
    let r := T.transform (CursorPair.new D I limit delta input)
    let s := match T.monotonicity with
      | .ascending => interleaveAll X .forward limit r.1 output
      | .descending => interleaveAll X .backward limit r.1 (X.resetKeys .backward output)
      | .unordered => retract X .forward (fun _ => true) limit (output, r.1)
    ⟨s.2, r.2.cursor1, r.2.cursor2, s.1⟩

end

/-- The order in which the updates of a key are pushed to the builder. -/
def Monotonicity.arrange [LinearOrder O] (m : Monotonicity) (out : List (O × ℤ)) :
    List (O × ℤ) :=
  match m with
  | .ascending => out
  | .descending => out.reverse
  | .unordered => consolidate out

theorem Monotonicity.weight_arrange [LinearOrder O] (m : Monotonicity) (out : List (O × ℤ))
    (o : O) : weight (m.arrange out) o = weight out o := by
  cases m with
  | ascending => rfl
  | descending => exact weight_perm (reverse_perm out) o
  | unordered => exact weight_consolidate out o

section

variable [LinearOrder V] [LinearOrder O]

/-- The updates are in the order that the transformer promises, without zero weights. -/
def Monotonicity.Holds (m : Monotonicity) (out : List (O × ℤ)) : Prop :=
  Consolidated (m.arrange out)

/-- The transformer computes the output group `F l` of the group `l`. -/
def NonIncremental.Computes (T : NonIncremental ρ O) (C : Cursor ρ V Unit ℤ) (limit : Nat)
    (F : List (V × ℤ) → O → ℤ) : Prop :=
  ∀ {l : List (V × ℤ)} {S : Stance ρ V Unit ℤ} {s : ρ}, C.Lawful (units l) S → Consolidated l →
    S.firm (.enter .forward (units l)) s → l.length < limit →
    (∃ p, S.firm p (T.transform s).2) ∧ T.monotonicity.Holds (T.transform s).1 ∧
      ∀ o, weight (T.transform s).1 o = F l o

/-- The transformer puts out what changes in the output group `F`, if the output trace holds
that of the old group. -/
def GroupTransformer.Realizes (T : GroupTransformer δ ι ο O) (D : Cursor δ V Unit ℤ)
    (I : Cursor ι V Unit ℤ) (X : Cursor ο O Unit ℤ) (limit : Nat) (F : List (V × ℤ) → O → ℤ) :
    Prop :=
  ∀ {delta input total : List (V × ℤ)} {output : List (O × ℤ)} {SD : Stance δ V Unit ℤ}
    {SI : Stance ι V Unit ℤ} {SX : Stance ο O Unit ℤ} {d : δ} {i : ι} {x : ο},
    D.Lawful (units delta) SD → I.Lawful (units input) SI → X.Lawful (units output) SX →
    (∀ s k, SD.able s k) → (∀ s k, SI.able s k) →
    SD.firm (.enter .forward (units delta)) d → SI.firm (.enter .forward (units input)) i →
    SX.firm (.enter .forward (units output)) x → Consolidated delta → Consolidated input →
    Consolidated total → Consolidated output →
    (∀ v, weight total v = weight delta v + weight input v) → (∀ o, weight output o = F input o) →
    2 * (delta.length + input.length) + output.length < limit →
    let r := T.transform d i x
    (∃ p, SD.firm p r.delta) ∧ (∃ p, SI.firm p r.input) ∧ (∃ p, SX.firm p r.output) ∧
      T.monotonicity.Holds r.out ∧ ∀ o, weight r.out o = F total o - F input o

end

section

variable [LinearOrder O] {X : Cursor ο O Unit ℤ} {S : Stance ο O Unit ℤ} {output : List (O × ℤ)}
  {x : ο} {d : Direction} {rest : List (O × ℤ)}
  {rounds : Nat}

section

variable (hX : X.Lawful (units output) S) (hx : S.firm (.enter d (units rest)) x)
  (hrounds : rest.length < rounds) (acc : List (O × ℤ))
include hX hx hrounds acc

theorem retract_spec (before : O → Bool) :
    let r := retract X d before rounds (x, acc)
    S.firm (.enter d (units (rest.dropWhile fun p => before p.1))) r.1 ∧
      r.2 = acc ++ (rest.takeWhile fun p => before p.1).map fun p => (p.1, -p.2) := by
  induction rounds generalizing rest x acc with
  | zero => omega
  | succ rounds ih =>
    have hget := hX.getKey (hX.loose_of_firm hx)
    cases rest with
    | nil =>
      have hstop : retract X d before (rounds + 1) (x, acc) = (x, acc) := by
        rw [retract, hget]
        rfl
      rw [hstop]
      exact ⟨hx, (append_nil acc).symm⟩
    | cons p rest =>
      have hweight : X.weight x = p.2 :=
        hX.weight (hX.loose_of_firm hx) (cons_ne_nil _ _) ((), p.2) rfl
      have hstep : retract X d before (rounds + 1) (x, acc) =
          if before p.1 then retract X d before rounds (X.stepKey d x, acc ++ [(p.1, -p.2)])
          else (x, acc) := by
        rw [retract, hget, hweight]
        rfl
      rw [hstep]
      cases hbefore : before p.1 with
      | false =>
        rw [if_neg Bool.false_ne_true, dropWhile_cons_of_neg (by simp [hbefore]),
          takeWhile_cons_of_neg (by simp [hbefore])]
        exact ⟨hx, (append_nil acc).symm⟩
      | true =>
        rw [if_pos rfl, dropWhile_cons_of_pos (by simpa using hbefore),
          takeWhile_cons_of_pos (by simpa using hbefore)]
        have hnext : S.firm (.enter d (units rest)) (X.stepKey d x) :=
          hX.apply (.stepKey d) hx rfl nofun
        obtain ⟨hfirm, hacc⟩ := ih hnext (Nat.lt_of_succ_lt_succ hrounds) (acc ++ [(p.1, -p.2)])
        refine ⟨hfirm, ?_⟩
        rw [hacc, append_assoc]
        rfl

theorem retract_all :
    let r := retract X d (fun _ => true) rounds (x, acc)
    (∃ p, S.firm p r.1) ∧ r.2 = acc ++ rest.map fun p => (p.1, -p.2) := by
  obtain ⟨hfirm, hacc⟩ := retract_spec hX hx hrounds acc (fun _ => true)
  refine ⟨⟨_, hfirm⟩, ?_⟩
  rw [hacc, takeWhile_eq_self_iff.mpr fun _ _ => rfl]

end

structure Sorted (d : Direction) (l : List (O × ℤ)) : Prop where
  ordered : Ordered d.lt l
  nonzero : ∀ p ∈ l, p.2 ≠ 0

variable {l m : List (O × ℤ)}

theorem Sorted.sublist (h : Sorted d m) (hl : l.Sublist m) : Sorted d l :=
  ⟨List.Pairwise.sublist hl h.ordered, fun p hp => h.nonzero p (hl.subset hp)⟩

theorem Sorted.neg {l : List (O × ℤ)} (h : Sorted d l) : Sorted d (l.map fun p => (p.1, -p.2)) := by
  refine ⟨pairwise_map.mpr h.ordered, fun p hp => ?_⟩
  obtain ⟨q, hq, rfl⟩ := mem_map.mp hp
  exact neg_ne_zero.mpr (h.nonzero q hq)

theorem Sorted.append (hl : Sorted d l) (hm : Sorted d m) (h : ∀ p ∈ l, ∀ q ∈ m, d.lt p.1 q.1) :
    Sorted d (l ++ m) :=
  ⟨pairwise_append.mpr ⟨hl.ordered, hm.ordered, h⟩, fun p hp =>
    (mem_append.mp hp).elim (hl.nonzero p) (hm.nonzero p)⟩

/-- What is emitted with an output: it goes up to the output, and what is left of the output trace
comes after it. -/
structure Emits (d : Direction) (p : O × ℤ) (rest rest' e : List (O × ℤ)) : Prop where
  sorted : Sorted d e
  upTo : ∀ q ∈ e, q.1 = p.1 ∨ d.lt q.1 p.1 ∧ ∃ q' ∈ rest, q'.1 = q.1
  sublist : rest'.Sublist rest
  after : ∀ q ∈ rest', d.lt p.1 q.1
  weight : ∀ o, weight e o = weight [p] o - (weight rest o - weight rest' o)

section

variable (hX : X.Lawful (units output) S) (hx : S.firm (.enter d (units rest)) x)
  (hrest : Sorted d rest) {limit : Nat} (hlimit : rest.length < limit) (acc : List (O × ℤ))
include hX hx hrest hlimit

theorem interleave_spec {p : O × ℤ} (hp : p.2 ≠ 0) :
    ∃ rest' e, S.firm (.enter d (units rest')) (interleave X d limit (x, acc) p).1 ∧
      (interleave X d limit (x, acc) p).2 = acc ++ e ∧ Emits d p rest rest' e := by
  obtain ⟨hfirm, hacc⟩ := retract_spec hX hx hlimit acc (fun key => decide (d.lt key p.1))
  have hsplit := takeWhile_append_dropWhile (p := fun q => decide (d.lt q.1 p.1)) (l := rest)
  have hbefore : ∀ q ∈ rest.takeWhile fun q => decide (d.lt q.1 p.1), d.lt q.1 p.1 := by
    intro q hq
    have hlt := mem_takeWhile_imp hq
    exact of_decide_eq_true hlt
  have hhead := List.head?_dropWhile_not (fun q : O × ℤ => decide (d.lt q.1 p.1)) rest
  unfold interleave
  dsimp only
  generalize retract X d (fun key => decide (d.lt key p.1)) limit (x, acc) = r at hfirm hacc ⊢
  generalize (rest.takeWhile fun q => decide (d.lt q.1 p.1)) = before at *
  generalize (rest.dropWhile fun q => decide (d.lt q.1 p.1)) = left at *
  subst hsplit
  have hget := hX.getKey (hX.loose_of_firm hfirm)
  rw [Place.key, Place.enter, head_units] at hget
  have hneg : Sorted d (before.map fun q => (q.1, -q.2)) :=
    (hrest.sublist (sublist_append_left _ _)).neg
  have hupTo : ∀ q ∈ before.map fun q => (q.1, -q.2),
      d.lt q.1 p.1 ∧ ∃ q' ∈ before ++ left, q'.1 = q.1 := by
    intro q hq
    obtain ⟨q', hq', rfl⟩ := mem_map.mp hq
    exact ⟨hbefore q' hq', q', mem_append_left _ hq', rfl⟩
  -- what is emitted at the key of the output itself
  have hemits : ∀ (at' rest' : List (O × ℤ)), Sorted d at' → (∀ q ∈ at', q.1 = p.1) →
      rest'.Sublist left → (∀ q ∈ rest', d.lt p.1 q.1) →
      (∀ o, weight at' o = weight [p] o - (weight left o - weight rest' o)) →
      Emits d p (before ++ left) rest' ((before.map fun q => (q.1, -q.2)) ++ at') := by
    intro at' rest' hsorted hat hsub hafter hweight
    refine ⟨hneg.append hsorted fun q hq q' hq' => ?_, fun q hq => ?_,
      hsub.trans (sublist_append_right _ _), hafter, fun o => ?_⟩
    · rw [hat q' hq']
      exact (hupTo q hq).1
    · exact (mem_append.mp hq).elim (fun h => .inr (hupTo q h)) fun h => .inl (hat q h)
    · rw [weight_append, weight_append, weight_neg, hweight o]
      omega
  have hself : Sorted d [p] := ⟨pairwise_singleton _ _, by simpa using hp⟩
  cases left with
  | nil =>
    refine ⟨[], (before.map fun q => (q.1, -q.2)) ++ [p], ?_⟩
    rw [hget, if_neg (by simp), hacc, append_assoc]
    exact ⟨hfirm, rfl, hemits [p] [] hself (by simp) (List.Sublist.refl _) (by simp) (by simp)⟩
  | cons q left =>
    have hq : ¬d.lt q.1 p.1 := by simpa using hhead
    have hleft : Sorted d (q :: left) := hrest.sublist (sublist_append_right _ _)
    have hafter : ∀ r ∈ left, d.lt q.1 r.1 := (pairwise_cons.mp hleft.ordered).1
    rw [hget]
    by_cases heq : q.1 = p.1
    · have hweight : X.weight r.1 = q.2 :=
        hX.weight (hX.loose_of_firm hfirm) (cons_ne_nil _ _) ((), q.2) rfl
      have hnext : S.firm (.enter d (units left)) (X.stepKey d r.1) :=
        hX.apply (.stepKey d) hfirm rfl (by simp)
      rw [if_pos (by simp [heq]), hweight, hacc]
      refine ⟨left, (before.map fun q => (q.1, -q.2)) ++
        (if p.2 + -q.2 = 0 then [] else [(p.1, p.2 + -q.2)]), hnext, ?_, ?_⟩
      · dsimp only
        split
        · rw [append_nil]
        · rw [append_assoc]
      · refine hemits _ left ?_ ?_ (sublist_cons_self _ _) (fun r hr => heq ▸ hafter r hr) ?_
        · split
          · exact ⟨List.Pairwise.nil, by simp⟩
          · next hne => exact ⟨pairwise_singleton _ _, by simpa using hne⟩
        · split
          · simp
          · simp
        intro o
        split
        · next hzero =>
          by_cases ho : p.1 = o
          · simp [heq, ho]
            omega
          · simp [heq, ho]
        · by_cases ho : p.1 = o
          · simp [heq, ho]
            omega
          · simp [heq, ho]
    · have hlt : d.lt p.1 q.1 := by
        rcases trichotomous_of d.lt p.1 q.1 with h | h | h
        · exact h
        · exact absurd h.symm heq
        · exact absurd h hq
      refine ⟨q :: left, (before.map fun q => (q.1, -q.2)) ++ [p], ?_⟩
      rw [if_neg (by simpa using heq), hacc, append_assoc]
      refine ⟨hfirm, rfl, hemits [p] (q :: left) hself (by simp) (List.Sublist.refl _) ?_ (by simp)⟩
      intro r hr
      rcases mem_cons.mp hr with rfl | hr
      · exact hlt
      · exact trans_of d.lt hlt (hafter r hr)

/-- All outputs interleaved with the retractions: the difference of the two, in order. -/
theorem interleaveAll_spec {out : List (O × ℤ)} (hout : Sorted d out) :
    let r := retract X d (fun _ => true) limit (out.foldl (interleave X d limit) (x, acc))
    (∃ p, S.firm p r.1) ∧ ∃ e, r.2 = acc ++ e ∧ Sorted d e ∧
      (∀ q ∈ e, ∃ q' ∈ out ++ rest, q'.1 = q.1) ∧ ∀ o, weight e o = weight out o - weight rest o := by
  induction out generalizing x rest acc with
  | nil =>
    obtain ⟨hfirm, hacc⟩ := retract_all hX hx hlimit acc
    refine ⟨hfirm, _, hacc, hrest.neg, fun q hq => ?_, fun o => ?_⟩
    · obtain ⟨q', hq', rfl⟩ := mem_map.mp hq
      exact ⟨q', hq', rfl⟩
    · rw [weight_neg, weight_nil, zero_sub]
  | cons p out ih =>
    obtain ⟨rest', e, hfirm, hacc, hemits⟩ :=
      interleave_spec hX hx hrest hlimit acc (hout.nonzero p mem_cons_self)
    have hafter : ∀ q ∈ out, d.lt p.1 q.1 := (pairwise_cons.mp hout.ordered).1
    obtain ⟨hend, e', hacc', hsorted', hmem', hweight'⟩ := ih hfirm
      (hrest.sublist hemits.sublist) (lt_of_le_of_lt hemits.sublist.length_le hlimit)
      (acc ++ e) (hout.sublist (sublist_cons_self _ _))
    have hpair : interleave X d limit (x, acc) p =
        ((interleave X d limit (x, acc) p).1, acc ++ e) := Prod.ext rfl hacc
    rw [foldl_cons, hpair]
    have hlater : ∀ q ∈ e', d.lt p.1 q.1 := by
      intro q hq
      obtain ⟨q', hq', heq⟩ := hmem' q hq
      rw [← heq]
      exact (mem_append.mp hq').elim (hafter q') (hemits.after q')
    refine ⟨hend, e ++ e', by rw [hacc', append_assoc], ?_, fun q hq => ?_, fun o => ?_⟩
    · refine hemits.sorted.append hsorted' fun q hq q' hq' => ?_
      rcases hemits.upTo q hq with heq | ⟨hlt, -⟩
      · rw [heq]
        exact hlater q' hq'
      · exact trans_of d.lt hlt (hlater q' hq')
    · rcases mem_append.mp hq with hq | hq
      · rcases hemits.upTo q hq with heq | ⟨-, q', hq', heq⟩
        · exact ⟨p, mem_append_left _ mem_cons_self, heq.symm⟩
        · exact ⟨q', mem_append_right _ hq', heq⟩
      obtain ⟨q', hq', heq⟩ := hmem' q hq
      refine ⟨q', ?_, heq⟩
      rcases mem_append.mp hq' with h | h
      · exact mem_append_left _ (mem_cons_of_mem _ h)
      · exact mem_append_right _ (hemits.sublist.subset h)
    · have hp : weight (p :: out) o = weight [p] o + weight out o := by simp
      rw [weight_append, hemits.weight o, hweight' o, hp]
      omega

end

end

section

variable [LinearOrder V] [LinearOrder O] {D : Cursor δ V Unit ℤ} {I : Cursor ι V Unit ℤ}
  {X : Cursor ο O Unit ℤ} {limit : Nat} {F : List (V × ℤ) → O → ℤ}
  {l : List (O × ℤ)}

theorem sorted_of_consolidated (h : Consolidated l) : Sorted .forward l :=
  ⟨h.sorted, h.nonzero⟩

theorem sorted_of_consolidated_reverse (h : Consolidated l.reverse) : Sorted .backward l :=
  ⟨pairwise_reverse.mp h.sorted, fun p hp => h.nonzero p (mem_reverse.mpr hp)⟩

theorem Sorted.consolidated (h : Sorted .forward l) : Consolidated l :=
  ⟨h.ordered, h.nonzero⟩

theorem Sorted.consolidated_reverse (h : Sorted .backward l) : Consolidated l.reverse :=
  ⟨pairwise_reverse.mpr h.ordered, fun p hp => h.nonzero p (mem_reverse.mp hp)⟩

theorem length_le_of_sum {delta input total : List (V × ℤ)} (htotal : Consolidated total)
    (hsum : ∀ v, weight total v = weight delta v + weight input v) :
    total.length ≤ delta.length + input.length := by
  have hnodup : (total.map Prod.fst).Nodup :=
    pairwise_map.mpr (htotal.sorted.imp fun hlt => hlt.ne)
  have hsub : total.map Prod.fst ⊆ (delta ++ input).map Prod.fst := by
    intro v hv
    obtain ⟨p, hp, rfl⟩ := mem_map.mp hv
    by_contra hnot
    have hzero : ∀ q ∈ delta ++ input, q.1 ≠ p.1 := fun q hq heq =>
      hnot (heq ▸ mem_map_of_mem hq)
    have hweight := ((htotal.mem_iff p.1 p.2).mp hp)
    rw [hsum, ← weight_append, weight_eq_zero_of_forall_ne hzero] at hweight
    exact hweight.1 hweight.2.symm
  have hle := (subperm_of_subset hnodup hsub).length_le
  simpa using hle

/-- What `DiffGroupTransformer` puts out is what changes. -/
theorem diff_realizes {T : NonIncremental (CursorPair δ ι ℤ) O}
    (hT : T.Computes (cursorPair D I limit) limit F) :
    (diff X D I limit T).Realizes D I X limit F := by
  intro delta input total output SD SI SX d i x hD hI hX hableD hableI hd hi hx hdelta hinput
    htotal houtput hsum hold hlimit
  -- the two groups as one family, as the pair cursor has them
  obtain ⟨E, hEdelta, hEinput, hentries⟩ : ∃ E : Bool → Entries V Unit ℤ, E false = units delta ∧
      E true = units input ∧ KeySums [false, true] .forward E (units total) := by
    have hcons : ∀ b, Consolidated (cond b input delta) := by
      intro b
      cases b
      exacts [hdelta, hinput]
    exact ⟨fun b => units (cond b input delta), rfl, rfl, keySums_units hcons htotal hsum⟩
  have hvolume : volume (E false) + volume (E true) < limit := by
    rw [hEdelta, hEinput, volume_units, volume_units]
    omega
  rw [← hEdelta] at hD hd
  rw [← hEinput] at hI hi
  have hlawful := cursorPair_lawful hD hI hentries hvolume hableD hableI
  have hstart := CursorPair.firm_new hD hI hentries hvolume hd hi
  have hlength := length_le_of_sum htotal hsum
  obtain ⟨⟨p, hend⟩, hholds, hweight⟩ := hT hlawful htotal hstart (by omega)
  obtain ⟨hendD, hendI⟩ := CursorPair.firm_cursors hend
  intro r
  refine ⟨hendD, hendI, ?_⟩
  have hshort : output.length < limit := by omega
  generalize hm : T.monotonicity = m at hholds
  have hr : r = (diff X D I limit T).transform d i x := rfl
  have hmono : (diff X D I limit T).monotonicity = m := hm
  rw [hmono, hr]
  unfold diff
  dsimp only
  rw [hm]
  cases m with
  | ascending =>
    have hnew : Sorted .forward (T.transform (CursorPair.new D I limit d i)).1 :=
      sorted_of_consolidated hholds
    obtain ⟨hfirm, e, he, hsorted, -, hdiff⟩ := interleaveAll_spec hX hx
      (sorted_of_consolidated houtput) hshort [] hnew
    refine ⟨hfirm, ?_⟩
    dsimp only [interleaveAll]
    rw [he, nil_append]
    exact ⟨hsorted.consolidated, fun o => by rw [hdiff, hweight, hold]⟩
  | descending =>
    have hreset : SX.firm (.enter .backward (units output.reverse)) (X.resetKeys .backward x) := by
      rw [show units output.reverse = Direction.backward.list (units output) from
        (list_units output .backward).symm]
      exact hX.apply (.resetKeys .backward) hx trivial nofun
    have hreverse : Sorted .backward output.reverse :=
      sorted_of_consolidated_reverse (by rwa [reverse_reverse])
    have hnew : Sorted .backward (T.transform (CursorPair.new D I limit d i)).1 :=
      sorted_of_consolidated_reverse hholds
    obtain ⟨hfirm, e, he, hsorted, -, hdiff⟩ := interleaveAll_spec hX hreset hreverse
      (by rwa [length_reverse]) [] hnew
    refine ⟨hfirm, ?_⟩
    dsimp only [interleaveAll]
    rw [he, nil_append]
    refine ⟨hsorted.consolidated_reverse, fun o => ?_⟩
    rw [hdiff, hweight, weight_perm (reverse_perm output), hold]
  | unordered =>
    obtain ⟨hfirm, he⟩ := retract_all hX hx hshort
      (T.transform (CursorPair.new D I limit d i)).1
    refine ⟨hfirm, consolidate_consolidated _, fun o => ?_⟩
    dsimp only
    rw [he, weight_append, weight_neg, hweight, hold]
    rfl

end

end Feldera.Operator.GroupTransform
