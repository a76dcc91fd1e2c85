import Feldera.Operator.GroupTransformRun

/-!
The transformers `TopK` and `TopKRowNumber`. Both walk through the values of a group, in one
direction, and stop when they have put out enough. What they put out is a function of the list of
the values of the group; `DiffGroupTransformer` does the rest.

A custom order wraps the values in a type with that order, so a custom order is any linear order
on the values here.
-/

namespace Feldera.Operator.GroupTransform

open Trace OrderedSum Weighted List

section

variable {ρ α V : Type*} (C : Cursor ρ V Unit ℤ) (d : Direction)
  (body : α → V → ℤ → α × Bool)

/-- A loop over the values of a group. The body gets a value and its weight, and says whether the
loop goes on. -/
def scan : Nat → ρ × α → ρ × α
  | 0, s => s
  | rounds + 1, s =>
    match C.getKey s.1 with
    | none => s
    | some key =>
      let r := body s.2 key (C.weight s.1)
      if r.2 then scan rounds (C.stepKey d s.1, r.1) else (s.1, r.1)

def scanList : α → List (V × ℤ) → α
  | a, [] => a
  | a, p :: l =>
    let r := body a p.1 p.2
    if r.2 then scanList r.1 l else r.1

variable (l : List (V × ℤ)) {p : V × ℤ} {a b : α}

variable {body} in
theorem scanList_cons_of_true (h : body a p.1 p.2 = (b, true)) :
    scanList body a (p :: l) = scanList body b l := by
  rw [scanList, h]
  rfl

variable {body} in
theorem scanList_cons_of_false (h : body a p.1 p.2 = (b, false)) :
    scanList body a (p :: l) = b := by
  rw [scanList, h]
  rfl

variable {C d}

variable [LinearOrder V]

theorem scan_spec {l rest : List (V × ℤ)} {S : Stance ρ V Unit ℤ} (hC : C.Lawful (units l) S)
    {c : ρ} (hc : S.firm (.enter d (units rest)) c) {rounds : Nat} (hrounds : rest.length < rounds)
    (a : α) :
    (∃ p, S.firm p (scan C d body rounds (c, a)).1) ∧
      (scan C d body rounds (c, a)).2 = scanList body a rest := by
  induction rounds generalizing rest c a with
  | zero => omega
  | succ rounds ih =>
    have hget := hC.getKey (hC.loose_of_firm hc)
    cases rest with
    | nil =>
      have hstop : scan C d body (rounds + 1) (c, a) = (c, a) := by
        rw [scan, hget]
        rfl
      rw [hstop]
      exact ⟨⟨_, hc⟩, rfl⟩
    | cons p rest =>
      have hweight : C.weight c = p.2 :=
        hC.weight (hC.loose_of_firm hc) (cons_ne_nil _ _) ((), p.2) rfl
      have hstep : scan C d body (rounds + 1) (c, a) =
          if (body a p.1 p.2).2 then
            scan C d body rounds (C.stepKey d c, (body a p.1 p.2).1)
          else (c, (body a p.1 p.2).1) := by
        rw [scan, hget, hweight]
        rfl
      rw [hstep, scanList]
      split
      · have hnext : S.firm (.enter d (units rest)) (C.stepKey d c) :=
          hC.apply (.stepKey d) hc rfl nofun
        exact ih hnext (Nat.lt_of_succ_lt_succ hrounds) _
      · exact ⟨⟨_, hc⟩, rfl⟩

end

section

variable {ρ V : Type*}

def topKBody (k : Nat) (a : Nat × List (V × ℤ)) (key : V) (w : ℤ) : (Nat × List (V × ℤ)) × Bool :=
  if a.1 < k then ((a.1 + 1, a.2 ++ [(key, w)]), true) else (a, false)

variable (k : Nat)

theorem scanList_topKBody (a : Nat × List (V × ℤ)) (l : List (V × ℤ)) :
    (scanList (topKBody k) a l).2 = a.2 ++ l.take (k - a.1) := by
  induction l generalizing a with
  | nil => simp [scanList]
  | cons p l ih =>
    rw [scanList, topKBody]
    split
    · next hlt =>
      have hroom : k - a.1 = (k - (a.1 + 1)) + 1 := by omega
      rw [if_pos rfl, ih, hroom, take_succ_cons, append_assoc]
      rfl
    · next hge =>
      have hfull : k - a.1 = 0 := by omega
      rw [if_neg Bool.false_ne_true, hfull, take_zero, append_nil]

variable [LinearOrder V]

def topKAsc (k : Nat) (C : Cursor ρ V Unit ℤ) (limit : Nat) : NonIncremental ρ V where
  monotonicity := .ascending
  transform c :=
    let r := scan C .forward (topKBody k) limit (c, (0, []))
    (r.2.2, r.1)

def topKDesc (k : Nat) (C : Cursor ρ V Unit ℤ) (limit : Nat) : NonIncremental ρ V where
  monotonicity := .descending
  transform c :=
    let r := scan C .backward (topKBody k) limit (C.resetKeys .backward c, (0, []))
    (r.2.2, r.1)

variable (C : Cursor ρ V Unit ℤ) (limit : Nat)

theorem topKAsc_computes : (topKAsc k C limit).Computes C limit fun l o => weight (l.take k) o := by
  intro l S s hC hl hs hlimit
  obtain ⟨hfirm, hout⟩ := scan_spec (topKBody k) hC hs hlimit (0, [])
  have htake : ((topKAsc k C limit).transform s).1 = l.take k := by
    change (scan C .forward (topKBody k) limit (s, (0, []))).2.2 = l.take k
    rw [hout, scanList_topKBody]
    rfl
  refine ⟨hfirm, ?_, fun o => by rw [htake]⟩
  rw [htake]
  exact ⟨hl.sorted.sublist (take_sublist k l),
    fun p hp => hl.nonzero p (mem_of_mem_take hp)⟩

theorem topKDesc_computes :
    (topKDesc k C limit).Computes C limit fun l o => weight (l.reverse.take k) o := by
  intro l S s hC hl hs hlimit
  have hreset : S.firm (.enter .backward (units l.reverse)) (C.resetKeys .backward s) := by
    rw [show units l.reverse = Direction.backward.list (units l) from (list_units l .backward).symm]
    exact hC.apply (.resetKeys .backward) hs trivial nofun
  obtain ⟨hfirm, hout⟩ := scan_spec (topKBody k) hC hreset
    (by rwa [length_reverse]) (0, [])
  have htake : ((topKDesc k C limit).transform s).1 = l.reverse.take k := by
    change (scan C .backward (topKBody k) limit (C.resetKeys .backward s, (0, []))).2.2 = _
    rw [hout, scanList_topKBody]
    rfl
  refine ⟨hfirm, ?_, fun o => by rw [htake]⟩
  rw [htake]
  refine ⟨?_, fun p hp => ?_⟩
  · have hsub := (take_sublist k l.reverse).reverse
    rw [reverse_reverse] at hsub
    exact hl.sorted.sublist hsub
  · exact hl.nonzero p (mem_reverse.mp (mem_of_mem_take (mem_reverse.mp hp)))

end

section

variable {ρ V O : Type*} (k : Nat) (outputFunc : Nat → V → O)

/-- The inner loop of `TopKRowNumber::transform`: a value of weight `w` is put out `w` times,
until `k` rows have been. -/
def pushCopies (key : V) : Nat → Nat × List (O × ℤ) → Nat × List (O × ℤ)
  | 0, a => a
  | w + 1, a =>
    let count := a.1 + 1
    if k < count then (count, a.2)
    else pushCopies key w (count, a.2 ++ [(outputFunc count key, 1)])

def rowNumberBody (a : Nat × List (O × ℤ)) (key : V) (w : ℤ) : (Nat × List (O × ℤ)) × Bool :=
  if a.1 < k then (pushCopies k outputFunc key w.toNat a, true) else (a, false)

def topKRowNumber (C : Cursor ρ V Unit ℤ) (limit : Nat) : NonIncremental ρ O where
  monotonicity := .unordered
  transform c :=
    let r := scan C .forward (rowNumberBody k outputFunc) limit (c, (0, []))
    (r.2.2, r.1)

/-- The values of a group, each as often as its weight says; those of negative weight do not
occur. -/
def listed (l : List (V × ℤ)) : List V :=
  l.flatMap fun p => List.replicate p.2.toNat p.1

def numbered (count : Nat) (values : List V) : List (O × ℤ) :=
  values.mapIdx fun i v => (outputFunc (count + i + 1) v, 1)

theorem numbered_append (count : Nat) (us vs : List V) :
    numbered outputFunc count (us ++ vs) =
      numbered outputFunc count us ++ numbered outputFunc (count + us.length) vs := by
  rw [numbered, mapIdx_append]
  congr 2
  funext i v
  rw [show count + (i + us.length) + 1 = count + us.length + i + 1 by omega]

theorem pushCopies_eq (key : V) (w : Nat) (a : Nat × List (O × ℤ)) (ha : a.1 ≤ k) :
    pushCopies k outputFunc key w a = (min (a.1 + w) (k + 1),
      a.2 ++ numbered outputFunc a.1 ((List.replicate w key).take (k - a.1))) := by
  induction w generalizing a with
  | zero => simp [pushCopies, numbered, Nat.min_eq_left (Nat.le_succ_of_le ha)]
  | succ w ih =>
    rw [pushCopies]
    split
    · next hfull =>
      obtain rfl : a.1 = k := by omega
      simp [numbered]
    · next hroom =>
      have htake : k - a.1 = (k - (a.1 + 1)) + 1 := by omega
      have hcons : ∀ us : List V, numbered outputFunc a.1 (key :: us) =
          (outputFunc (a.1 + 1) key, 1) :: numbered outputFunc (a.1 + 1) us := fun us =>
        numbered_append outputFunc a.1 [key] us
      rw [ih _ (by omega), htake, replicate_succ, take_succ_cons, append_assoc,
        hcons]
      refine Prod.ext ?_ rfl
      exact congrArg (fun n => min n (k + 1)) (by omega)

theorem scanList_rowNumberBody (l : List (V × ℤ)) (a : Nat × List (O × ℤ)) :
    (scanList (rowNumberBody k outputFunc) a l).2 =
      a.2 ++ numbered outputFunc a.1 ((listed l).take (k - a.1)) := by
  induction l generalizing a with
  | nil => simp [scanList, listed, numbered]
  | cons p l ih =>
    rw [scanList, rowNumberBody]
    have hlisted : listed (p :: l) = List.replicate p.2.toNat p.1 ++ listed l := rfl
    split
    · next hlt =>
      rw [if_pos rfl, ih, pushCopies_eq k outputFunc p.1 _ a hlt.le, hlisted, take_append,
        numbered_append, append_assoc]
      congr 2
      rw [length_take, length_replicate]
      by_cases hfit : p.2.toNat ≤ k - a.1
      · rw [Nat.min_eq_left (show a.1 + p.2.toNat ≤ k + 1 by omega), Nat.min_eq_right hfit,
          Nat.sub_sub]
      · have hroom : k - min (a.1 + p.2.toNat) (k + 1) = 0 := by omega
        rw [hroom, show k - a.1 - p.2.toNat = 0 by omega, take_zero]
        rfl
    · next hge =>
      have hfull : k - a.1 = 0 := by omega
      rw [if_neg Bool.false_ne_true, hfull, take_zero]
      exact (append_nil _).symm

variable [LinearOrder V]

theorem topKRowNumber_computes [LinearOrder O] (C : Cursor ρ V Unit ℤ) (limit : Nat) :
    (topKRowNumber k outputFunc C limit).Computes C limit
      fun l o => weight (numbered outputFunc 0 ((listed l).take k)) o := by
  intro l S s hC _ hs hlimit
  obtain ⟨hfirm, hout⟩ := scan_spec (rowNumberBody k outputFunc) hC hs hlimit (0, [])
  have hrows : ((topKRowNumber k outputFunc C limit).transform s).1 =
      numbered outputFunc 0 ((listed l).take k) := by
    change (scan C .forward (rowNumberBody k outputFunc) limit (s, (0, []))).2.2 = _
    rw [hout, scanList_rowNumberBody]
    rfl
  exact ⟨hfirm, consolidate_consolidated _, fun o => by rw [hrows]⟩

end

section

universe u

variable {K V O : Type u} [LinearOrder K] [LinearOrder V] [LinearOrder O]

/-- A transformer that computes whole groups, with any cursors, as `DiffGroupTransformer` runs it. -/
def differing (T : ∀ {ρ : Type u}, Cursor ρ V Unit ℤ → Nat → NonIncremental ρ O) :
    Transforming V O :=
  fun D I X limit => diff X D I limit (T (cursorPair D I limit) limit)

/-- The sum of all outputs of a history is the output group that the transformer computes for the
sum of all inputs. -/
theorem sum_outputs_differing {T : ∀ {ρ : Type u}, Cursor ρ V Unit ℤ → Nat → NonIncremental ρ O}
    {F : List (V × ℤ) → O → ℤ}
    (hT : ∀ {ρ : Type u} (C : Cursor ρ V Unit ℤ) (limit : Nat), (T C limit).Computes C limit F)
    (hnil : ∀ o, F [] o = 0) (filter : KeyFilter K V ℤ) (outputFilter : KeyFilter K O ℤ)
    (history : List (Transaction K V O)) (key : K) (o : O) :
    ((outputs filter outputFilter (differing T) history).map fun c => c.weight (key, o, ())).sum =
      F (group history key) o :=
  sum_outputs (fun D I _ limit => diff_realizes (hT (cursorPair D I limit) limit)) hnil history
    key o

/-- Per key, the outputs of `topk_asc` and `topk_desc` add up to the first `k` values of the
group, counted from the smallest or from the largest one, with their weights. Those of
`topk_row_number` add up to the first `k` rows of the group, listed with multiplicity and numbered
from one. -/
theorem sum_outputs_topK (k : Nat) (filter : KeyFilter K V ℤ) (outputFilter : KeyFilter K O ℤ)
    (outputFunc : Nat → V → O) (history : List (Transaction K V V))
    (history' : List (Transaction K V O)) (key : K) :
    (∀ v, ((outputs filter filter (differing (topKAsc k)) history).map
      fun c => c.weight (key, v, ())).sum = weight ((group history key).take k) v) ∧
    (∀ v, ((outputs filter filter (differing (topKDesc k)) history).map
      fun c => c.weight (key, v, ())).sum = weight ((group history key).reverse.take k) v) ∧
    ∀ o, ((outputs filter outputFilter (differing (topKRowNumber k outputFunc)) history').map
      fun c => c.weight (key, o, ())).sum =
        weight (numbered outputFunc 0 ((listed (group history' key)).take k)) o := by
  refine ⟨fun v => ?_, fun v => ?_, fun o => ?_⟩
  · exact sum_outputs_differing (topKAsc_computes k) (fun _ => by simp) filter filter history key v
  · exact sum_outputs_differing (topKDesc_computes k) (fun _ => by simp) filter filter history key v
  · exact sum_outputs_differing (topKRowNumber_computes k outputFunc)
      (fun _ => by simp [listed, numbered]) filter outputFilter history' key o

end

end Feldera.Operator.GroupTransform
