import Feldera.Trace.CursorPairLawful

/-!
`CursorPair` as a lawful cursor over the sum. Its `seek_key_exact` compares the keys of the two
cursors again, and with them a key at which a cursor stayed that has not found its own: the
pair answers for the sum where that key is greater, which is what `able` asks.
-/

namespace Feldera.Trace

open OrderedSum CursorPair CursorList List

variable {σ σ₁ σ₂ K V R : Type*} [LinearOrder K] [LinearOrder V] [AddCommMonoid R]
  {C₁ : Cursor σ₁ K V R} {C₂ : Cursor σ₂ K V R}
  {entries : Bool → Entries K V R} {S₁ : Stance σ₁ K V R} {S₂ : Stance σ₂ K V R}
  {places : Fin 2 → Place K V R} {p : Place K V R} {c : CursorPair σ₁ σ₂ R}
  {l : CursorList 2 (σ₁ ⊕ σ₂) R} {limit : Nat} {total : Entries K V R}

namespace CursorPair

variable (C₁ C₂ c) in
/-- `seek_key_exact` of `k` does not leave a cursor that misses it on a key that is not greater,
if the other one has found it. -/
def Overtakes (k : K) : Prop :=
  ((C₁.seekKeyExact k c.cursor1).2 = true → (C₂.seekKeyExact k c.cursor2).2 = false →
      ∀ k' ∈ C₂.getKey (C₂.seekKeyExact k c.cursor2).1, k < k') ∧
    ((C₁.seekKeyExact k c.cursor1).2 = false → (C₂.seekKeyExact k c.cursor2).2 = true →
      ∀ k' ∈ C₁.getKey (C₁.seekKeyExact k c.cursor1).1, k < k')

variable (C₁ C₂ c) in
/-- `seek_key_exact` of `k` moves both cursors to where `seek_key` moves them. -/
def LeavesNoneBehind (k : K) : Prop :=
  (C₁.seekKeyExact k c.cursor1).1 = C₁.seekKey .forward k c.cursor1 ∧
    (C₂.seekKeyExact k c.cursor2).1 = C₂.seekKey .forward k c.cursor2

instance (c : CursorPair σ₁ σ₂ R) (k : K) : Decidable (Overtakes C₁ C₂ c k) :=
  inferInstanceAs (Decidable ((_ → _ → ∀ _ ∈ _, _) ∧ (_ → _ → ∀ _ ∈ _, _)))

instance [DecidableEq σ₁] [DecidableEq σ₂] (c : CursorPair σ₁ σ₂ R) (k : K) :
    Decidable (LeavesNoneBehind C₁ C₂ c k) :=
  inferInstanceAs (Decidable (_ ∧ _))

section

structure Keeps (C : Cursor σ K V R) (entries : Entries K V R) (S : Stance σ K V R)
    (rel : Place K V R → σ → Prop) : Prop where
  loose : ∀ {p s}, rel p s → S.loose p s
  onValues : ∀ {p s} (op : Op K V), rel p s → p.Permits op → op.OnValues →
    rel (p.apply entries op) (C.apply s op).1

variable {entries : Entries K V R} {C : Cursor σ K V R} {S : Stance σ K V R}

theorem keeps_firm (h : C.Lawful entries S) :
    Keeps C entries S S.firm where
  loose := h.loose_of_firm
  onValues op hp hop hvalues := h.apply op hp hop fun k hk => by
    rw [hk] at hvalues
    exact hvalues

theorem keeps_loose (h : C.Lawful entries S) : Keeps C entries S S.loose where
  loose := id
  onValues op hp hop hvalues := h.apply_loose op hp hop hvalues

end

def side : Fin 2 → Bool
  | 0 => false
  | 1 => true

variable (S₁ S₂) in
def stances : Fin 2 → Stance (σ₁ ⊕ σ₂) K V R
  | 0 => S₁.along .inl
  | 1 => S₂.along .inr

variable (C₁ C₂ entries S₁ S₂) in
/-- How the list of the two cursors stands to places of the sum. -/
abbrev listStance : Stance (CursorList 2 (σ₁ ⊕ σ₂) R) K V R :=
  stance (sides C₁ C₂) (fun i => entries (side i)) (stances S₁ S₂)

variable (S₁ S₂ p c) in
structure Idle : Prop where
  rest : p.rest = []
  vals : p.vals = []
  keyOrder : c.keyOrder ≠ .eq
  firm : ∀ i, (stances S₁ S₂ i).firm
    ⟨p.keyDir, [], if i ∈ c.keys then p.valDir else .forward, []⟩ (c.both i)

variable (C₁ C₂ S₁ S₂) in
/-- The pair does what a list does that stands at the place. -/
def Stands (rel : Place K V R → CursorList 2 (σ₁ ⊕ σ₂) R → Prop) (p : Place K V R)
    (c : CursorPair σ₁ σ₂ R) : Prop :=
  (c.keyDirection = p.keyDir ∧ c.valDirection = p.valDir) ∧
    ((∃ l, Same C₁ C₂ c l ∧ rel p l) ∨ Idle S₁ S₂ p c)

variable (C₁ C₂ entries S₁ S₂) in
def stance : Stance (CursorPair σ₁ σ₂ R) K V R where
  firm := Stands C₁ C₂ S₁ S₂ (listStance C₁ C₂ entries S₁ S₂).firm
  loose := Stands C₁ C₂ S₁ S₂ (listStance C₁ C₂ entries S₁ S₂).loose
  near k p c := c.keyDirection = .forward ∧ (listStance C₁ C₂ entries S₁ S₂).near k p c.asList
  able := Overtakes C₁ C₂
  sure := LeavesNoneBehind C₁ C₂

variable (h₁ : C₁.Lawful (entries false) S₁) (h₂ : C₂.Lawful (entries true) S₂)
  (hlimit : ((List.finRange 2).map fun i => volume (entries (side i))).sum < limit)

include h₁ h₂ in
theorem sides_lawful :
    ∀ i, (sides C₁ C₂ i).Lawful (entries (side i)) (stances S₁ S₂ i)
  | 0 => h₁.along fun _ => rfl
  | 1 => h₂.along fun _ => rfl

theorem keySums_sides {d : Direction} {rests : Bool → Entries K V R}
    (h : KeySums [false, true] d rests total) :
    KeySums (finRange 2) d (fun i => rests (side i)) total := by
  have hmem : ∀ i, side i ∈ [false, true] := by decide
  exact ⟨⟨fun i _ => h.sums.each _ (hmem i), h.sums.ordered, h.sums.nonzero, h.sums.mass_eq⟩,
    fun i _ => h.each _ (hmem i), h.ordered, h.nonzero⟩

theorem keySums_nil (d : Direction) :
    KeySums (finRange 2) d (fun _ => ([] : Entries K V R)) [] := by
  refine ⟨⟨fun _ _ => List.Pairwise.nil, List.Pairwise.nil, by simp, fun a => ?_⟩, by simp,
    by simp, by simp⟩
  simp [mass]

section

theorem Stands.live (h : (stance C₁ C₂ entries S₁ S₂).loose p c) (hne : p.rest ≠ []) :
    ∃ l, Same C₁ C₂ c l ∧ (listStance C₁ C₂ entries S₁ S₂).loose p l :=
  h.2.resolve_right fun hidle => hne hidle.rest

include h₁ h₂

section

variable (h : (listStance C₁ C₂ entries S₁ S₂).loose p l) {i : Fin 2}
include h

theorem key_of_mem (hi : i ∈ l.currentKey) : (sides C₁ C₂ i).getKey (l.cursors i) = p.key := by
  have hC := sides_lawful h₁ h₂
  obtain ⟨rel, places, hkeeps, h⟩ := loose_cases hC h
  exact h.getKey_of_mem hC hkeeps hi

theorem val_of_mem (hi : i ∈ l.currentVal) :
    (sides C₁ C₂ i).getVal (l.cursors i) = p.vals.head?.map Prod.fst := by
  have hC := sides_lawful h₁ h₂
  obtain ⟨rel, places, hkeeps, h⟩ := loose_cases hC h
  exact h.getVal_of_mem hC hkeeps hi

end

theorem Stands.getKey [DecidableEq R] (h : (stance C₁ C₂ entries S₁ S₂).loose p c) :
    (cursorPair C₁ C₂ limit).getKey c = p.key := by
  have hshown : ∀ i ∈ c.keys, (sides C₁ C₂ i).getKey (c.both i) = p.key := by
    intro i hi
    rcases h.2 with ⟨l, hsame, hl⟩ | hidle
    · rw [← hsame.cursors]
      exact key_of_mem h₁ h₂ hl (hsame.currentKey ▸ hi)
    · have hC := sides_lawful h₁ h₂ i
      rw [hC.getKey (hC.loose_of_firm (hidle.firm i)), Place.key, Place.key, hidle.rest]
  rcases getKey_cases C₁ C₂ c with ⟨hmem, heq⟩ | ⟨hmem, heq⟩
  · exact heq.trans (hshown 0 hmem)
  · exact heq.trans (hshown 1 hmem)

variable [DecidableEq R]
  (hlist : (cursorList (sides C₁ C₂) limit).Lawful total (listStance C₁ C₂ entries S₁ S₂))
  (h : (stance C₁ C₂ entries S₁ S₂).loose p c) (hne : p.rest ≠ [])
include hlist h hne

theorem Stands.getVal : (cursorPair C₁ C₂ limit).getVal c = p.vals.head?.map Prod.fst := by
  obtain ⟨l, hsame, hl⟩ := Stands.live h hne
  change (if c.valValid C₁ C₂ then c.getVal C₁ C₂ else none) = _
  have hcurrent := hsame.currentVal
  split
  · next hvalid =>
    rw [if_pos hvalid] at hcurrent
    have hshown : ∀ i ∈ c.vals, (sides C₁ C₂ i).getVal (c.both i) = _ := fun i hi =>
      hsame.cursors ▸ val_of_mem h₁ h₂ hl (hcurrent ▸ hi)
    rcases getVal_cases C₁ C₂ c with ⟨hmem, heq⟩ | ⟨hmem, heq⟩
    · exact heq.trans (hshown 0 hmem)
    · exact heq.trans (hshown 1 hmem)
  · next hvalid =>
    rw [if_neg hvalid] at hcurrent
    rw [← hlist.getVal hl hne]
    change none = l.currentVal.head?.bind _
    rw [hcurrent]
    rfl

theorem Stands.weights {q : V × R} (hq : q ∈ p.vals.head?) :
    c.weight = q.2 ∧ (c.mapTimes C₁ C₂).sum = q.2 := by
  obtain ⟨l, hsame, hl⟩ := Stands.live h hne
  have hvalid : c.valValid C₁ C₂ = true := by
    have hval := Stands.getVal h₁ h₂ hlist h hne
    change (if c.valValid C₁ C₂ then _ else none) = _ at hval
    split at hval
    · assumption
    · rw [Option.mem_def.mp hq] at hval
      exact absurd hval nofun
  refine ⟨hsame.weight.symm.trans (hlist.weight hl hne q hq), ?_⟩
  rw [← hsame.mapTimes_eq hvalid]
  exact hlist.mapTimes hl hne q hq

end

section

/-- The pair after its cursors have moved among their values, before it has compared them. -/
def moveOnValues (C₁ : Cursor σ₁ K V R) (C₂ : Cursor σ₂ K V R) (d : Direction) (op : Op K V)
    (c : CursorPair σ₁ σ₂ R) : CursorPair σ₁ σ₂ R :=
  { c with valDirection := d }.move (c.movedVals op) (fun s => (C₁.apply s op).1)
    fun s => (C₂.apply s op).1

theorem apply_onValues [DecidableEq R] (op : Op K V) (total : Entries K V R)
    (hdir : c.valDirection = p.valDir) (hop : p.Permits op) (hvalues : op.OnValues) :
    ((cursorPair C₁ C₂ limit).apply c op).1 =
      settleVals C₁ C₂ limit (p.apply total op).valDir
        (c.moveOnValues C₁ C₂ (p.apply total op).valDir op) := by
  obtain ⟨keyDir, rest, valDir, vals⟩ := p
  obtain rfl : c.valDirection = valDir := hdir
  cases op with
  | stepVal d =>
    obtain rfl : d = c.valDirection := hop
    exact congrArg (settleVals C₁ C₂ limit c.valDirection) (c.stepVals_eq _ _)
  | seekVal d val =>
    obtain rfl : d = c.valDirection := hop
    exact congrArg (settleVals C₁ C₂ limit c.valDirection) (c.moveKeyVals_eq _ _)
  | seekValWith d predicate =>
    obtain rfl : d = c.valDirection := hop.1
    exact congrArg (settleVals C₁ C₂ limit c.valDirection) (c.moveKeyVals_eq _ _)
  | resetVals d =>
    exact congrArg (settleVals C₁ C₂ limit d) (moveKeyVals_eq _ _ _)
  | _ => exact hvalues.elim

include h₁ h₂

theorem Idle.move (h : Idle S₁ S₂ p c) (op : Op K V) (hop : p.Permits op)
    (hvalues : op.OnValues) :
    Idle S₁ S₂ (p.apply total op) (c.moveOnValues C₁ C₂ (p.apply total op).valDir op) := by
  obtain ⟨keyDir, rest, valDir, vals⟩ := p
  obtain rfl : rest = [] := h.rest
  obtain rfl : vals = [] := h.vals
  have hmoved : c.movedVals op = c.keys := by
    rcases c.keys_cases with ⟨hkeys, hvals, -⟩ | ⟨hkeys, hvals, -⟩ | ⟨-, -, heq⟩
    · cases op <;> simp only [movedVals, hkeys, hvals]
    · cases op <;> simp only [movedVals, hkeys, hvals]
    · exact absurd heq h.keyOrder
  have hplace : ∀ l : Entries K V R, Place.apply l ⟨keyDir, [], valDir, []⟩ op =
      ⟨keyDir, [], (Place.apply total ⟨keyDir, [], valDir, []⟩ op).valDir, []⟩ := by
    intro l
    cases op with
    | stepVal d => rfl
    | seekVal d val => rfl
    | seekValWith d predicate => rfl
    | resetVals d => cases d <;> rfl
    | _ => exact hvalues.elim
  rw [hplace]
  refine ⟨rfl, rfl, h.keyOrder, fun i => ?_⟩
  rw [moveOnValues, both_move, hmoved]
  have hfirm := h.firm i
  change (stances S₁ S₂ i).firm ⟨keyDir, [], if i ∈ c.keys then _ else _, []⟩ _
  by_cases hi : i ∈ c.keys
  · simp only [if_pos hi] at hfirm ⊢
    rw [← hplace (entries (side i))]
    refine (sides_lawful h₁ h₂ i).apply op hfirm hop fun k hk => ?_
    rw [hk] at hvalues
    exact hvalues
  · simp only [if_neg hi] at hfirm ⊢
    exact hfirm

variable [DecidableEq R]

theorem Idle.skipVals (h : Idle S₁ S₂ p c) (hdir : c.valDirection = p.valDir) (limit : Nat) :
    Idle S₁ S₂ p (c.skipZeroWeightVals C₁ C₂ p.valDir limit) := by
  induction limit generalizing c with
  | zero => exact h
  | succ limit ih =>
    unfold skipZeroWeightVals
    split
    · dsimp only
      split
      · have hmove : Idle S₁ S₂ (p.apply [] (.stepVal p.valDir)) _ :=
          Idle.move (c := { c with weight := (c.mapTimes C₁ C₂).sum }) h₁ h₂
            ⟨h.rest, h.vals, h.keyOrder, h.firm⟩ (.stepVal p.valDir) rfl trivial
        rw [moveVals_eq]
        exact ih ⟨h.rest, h.vals, h.keyOrder, hmove.firm⟩ hdir
      · exact ⟨h.rest, h.vals, h.keyOrder, h.firm⟩
    · exact h

/-- An operation on values, for what is known of the list. -/
theorem Stands.onValues {rel : Place K V R → CursorList 2 (σ₁ ⊕ σ₂) R → Prop}
    (h : Stands C₁ C₂ S₁ S₂ rel p c) (op : Op K V) (hop : p.Permits op) (hvalues : op.OnValues)
    (hrel : ∀ {l : CursorList 2 (σ₁ ⊕ σ₂) R} {js}, rel p l → CursorList.MovesVals l js op →
      rel (p.apply total op) (CursorList.settleVals (sides C₁ C₂) limit (p.apply total op).valDir
        (l.move js fun i s => ((sides C₁ C₂ i).apply s op).1))) :
    Stands C₁ C₂ S₁ S₂ rel (p.apply total op) ((cursorPair C₁ C₂ limit).apply c op).1 := by
  obtain ⟨⟨hkey, hval⟩, h⟩ := h
  rw [apply_onValues op total hval hop hvalues]
  obtain ⟨hfieldKey, hfieldVal⟩ := settleVals_fields C₁ C₂ limit (p.apply total op).valDir
    (c.moveOnValues C₁ C₂ (p.apply total op).valDir op)
  have hkeyDir := (Place.apply_onValues total p hvalues).1
  refine ⟨⟨hfieldKey.trans (hkey.trans hkeyDir.symm), hfieldVal⟩, ?_⟩
  generalize hmoved : c.moveOnValues C₁ C₂ (p.apply total op).valDir op = c' at *
  rcases h with ⟨l, hsame, hl⟩ | hidle
  · have hkeys : SameKey c'
        (l.move (c.movedVals op) fun i s => ((sides C₁ C₂ i).apply s op).1) := by
      subst hmoved
      exact ⟨cursors_move C₁ C₂ hsame.cursors _ op, hsame.weight, hsame.currentKey⟩
    refine .inl ⟨_, hkeys.settleVals ?_ limit, hrel hl (hsame.movesVals op)⟩
    subst hmoved
    rfl
  · have hmove : Idle S₁ S₂ (p.apply total op) c' := hmoved ▸ hidle.move h₁ h₂ op hop hvalues
    have hdir : c'.valDirection = (p.apply total op).valDir := hmoved ▸ rfl
    refine .inr ?_
    unfold settleVals
    split
    · exact hmove.skipVals h₁ h₂ hdir limit
    · have hupdated : Idle S₁ S₂ (p.apply total op)
          (updateValOrder C₁ C₂ (p.apply total op).valDir c') :=
        ⟨hmove.rest, hmove.vals, hmove.keyOrder, hmove.firm⟩
      exact hupdated.skipVals h₁ h₂ hdir limit

end

section

/-- A pair that has looked for the first key of the sum. -/
theorem firm_of_settled {d : Direction} (hcases : (Same C₁ C₂ c l ∨ Ended c l) ∧
      c.keyDirection = d ∧ c.valDirection = .forward)
    (h : (listStance C₁ C₂ entries S₁ S₂).firm (.enter d total) l) :
    (stance C₁ C₂ entries S₁ S₂).firm (.enter d total) c := by
  obtain ⟨hcases, hkey, hval⟩ := hcases
  refine ⟨⟨hkey, hval⟩, ?_⟩
  rcases hcases with hsame | hended
  · exact .inl ⟨l, hsame, h⟩
  obtain ⟨places, h⟩ := h
  have hnot : ∀ i, i ∉ l.currentKey := fun i => by
    rw [hended.currentKey]
    exact not_mem_nil
  obtain rfl : total = [] := h.rest_eq_nil hended.currentKey
  refine .inr ⟨rfl, rfl, hended.keyOrder, fun i => ?_⟩
  have hfirm := h.rel i
  rw [h.joined.fresh i (mem_finRange i) (hnot i), h.exhausted hended.currentKey i,
    hended.cursors] at hfirm
  change (stances S₁ S₂ i).firm ⟨d, [], if i ∈ c.keys then .forward else .forward, []⟩ _
  rw [ite_self]
  exact hfirm

/-- Where the cursors are, and what is left after the next key. -/
theorem firm_places (h : (stance C₁ C₂ entries S₁ S₂).firm p c) :
    ∃ places : Fin 2 → Place K V R,
      (∀ i, (stances S₁ S₂ i).firm (places i) (c.both i) ∧
        (places i).Within (entries (side i)) ∧ (places i).keyDir = p.keyDir) ∧
      KeySums (finRange 2) p.keyDir (fun i => (places i).rest) p.rest ∧
      Fresh (finRange 2) p.keyDir (fun i => if i ∈ c.keys then
        .enter p.keyDir (places i).rest.tail else places i) p.rest.tail := by
  rcases h.2 with ⟨l, hsame, places, hl⟩ | hidle
  · have hne : l.currentKey ≠ [] := hsame.currentKey ▸ c.keys_ne_nil
    refine ⟨places, fun i => ⟨hsame.cursors ▸ hl.rel i, hl.within i,
      hl.joined.keyDir i (mem_finRange i)⟩, hl.joined.keys, ?_⟩
    rw [← hsame.currentKey]
    exact (hl.joined.stepKey (fun i hi => if_pos hi) fun i _ hi => if_neg hi).1 (hl.standing hne)
  · refine ⟨_, fun i => ⟨hidle.firm i, ⟨nil_sublist _, le_rfl⟩, rfl⟩, ?_, ?_⟩
    · rw [hidle.rest]
      exact keySums_nil _
    rw [hidle.rest]
    refine (keySums_nil p.keyDir).fresh fun i _ => ?_
    split
    · rfl
    · rfl

theorem firm_cursors (h : (stance C₁ C₂ entries S₁ S₂).firm p c) :
    (∃ q, S₁.firm q c.cursor1) ∧ ∃ q, S₂.firm q c.cursor2 := by
  obtain ⟨places, hplaces, -⟩ := firm_places h
  obtain ⟨s₁, heq₁, hfirm₁⟩ := (hplaces 0).1
  obtain ⟨s₂, heq₂, hfirm₂⟩ := (hplaces 1).1
  exact ⟨⟨_, Sum.inl.inj heq₁ ▸ hfirm₁⟩, ⟨_, Sum.inr.inj heq₂ ▸ hfirm₂⟩⟩

variable [DecidableEq R]
include h₁ h₂ hlimit

theorem firm_settleKeys {d : Direction} {js : List (Fin 2)} {op : Op K V}
    {c' : CursorPair σ₁ σ₂ R} (hkey : c'.keyDirection = d)
    (hboth : c'.both = fun i => if i ∈ js then ((sides C₁ C₂ i).apply (c.both i) op).1 else c.both i)
    (hexact : ∀ k, op ≠ .seekKeyExact k) (hop : ∀ i ∈ js, (places i).Permits op)
    (hplaces : ∀ i, (stances S₁ S₂ i).firm (places i) (c.both i) ∧
      (places i).Within (entries (side i)))
    (hfresh : Fresh (finRange 2) d (fun i => if i ∈ js then
      (places i).apply (entries (side i)) op else places i) total) :
    (stance C₁ C₂ entries S₁ S₂).firm (.enter d total) (c'.settleKeys C₁ C₂ limit d) := by
  have hC := sides_lawful h₁ h₂
  refine firm_of_settled (settleKeys_cases C₁ C₂ hkey rfl rfl limit)
    (settled_settleKeys (l := c'.asList) hC hlimit (fun i => ?_) (fun i => ?_) hfresh)
  · change (stances S₁ S₂ i).firm _ (c'.both i)
    rw [hboth]
    dsimp only
    split
    · next hi => exact (hC i).apply op (hplaces i).1 (hop i hi) hexact
    · exact (hplaces i).1
  · split
    · exact (hplaces i).2.apply op
    · exact (hplaces i).2

theorem firm_apply (hsum : KeySums (finRange 2) .forward (fun i => entries (side i)) total)
    (op : Op K V) (h : (stance C₁ C₂ entries S₁ S₂).firm p c) (hop : p.Permits op)
    (hexact : ∀ k, op ≠ .seekKeyExact k) :
    (stance C₁ C₂ entries S₁ S₂).firm (p.apply total op)
      ((cursorPair C₁ C₂ limit).apply c op).1 := by
  have hC := sides_lawful h₁ h₂
  have honValues : op.OnValues → (stance C₁ C₂ entries S₁ S₂).firm (p.apply total op)
      ((cursorPair C₁ C₂ limit).apply c op).1 := fun hvalues =>
    Stands.onValues h₁ h₂ h op hop hvalues fun hl hmoves =>
      firm_onValues hC hlimit total op hop hvalues hmoves hl
  obtain ⟨places, hplaces, hkeys, hstep⟩ := firm_places h
  have hat := fun i => And.intro (hplaces i).1 (hplaces i).2.1
  have hdir := fun i => (hplaces i).2.2
  have hall : ∀ i : Fin 2, i ∈ [0, 1] := fun i => mem_finRange i
  cases op with
  | stepKey d =>
    obtain rfl : d = p.keyDir := hop
    have hboth : (c.moveKeys (C₁.stepKey p.keyDir) (C₂.stepKey p.keyDir)).both = fun i =>
        if i ∈ c.keys then ((sides C₁ C₂ i).apply (c.both i) (.stepKey p.keyDir)).1
        else c.both i := by
      rw [moveKeys_eq]
      exact both_move c.keys (.stepKey p.keyDir)
    refine firm_settleKeys h₁ h₂ hlimit h.1.1 hboth hexact (fun i _ => (hdir i).symm) hat ?_
    simpa only [Place.apply, hdir] using hstep
  | seekKey d key =>
    obtain rfl : d = p.keyDir := hop
    refine firm_settleKeys h₁ h₂ hlimit h.1.1 (both_move [0, 1] (.seekKey p.keyDir key)) hexact
      (fun i _ => (hdir i).symm) hat ((hkeys.seek key).fresh fun i _ => ?_)
    rw [if_pos (hall i)]
    simp only [Place.apply, Place.seekKey, hdir i]
  | seekKeyWith d predicate =>
    obtain ⟨rfl, hup⟩ := hop
    refine firm_settleKeys h₁ h₂ hlimit h.1.1 (both_move [0, 1] (.seekKeyWith p.keyDir predicate))
      hexact (fun i _ => ⟨(hdir i).symm, hup⟩) hat ((hkeys.dropWhile hup).fresh fun i _ => ?_)
    rw [if_pos (hall i)]
    simp only [Place.apply, hdir i]
  | seekKeyExact key => exact absurd rfl (hexact key)
  | resetKeys d =>
    refine firm_settleKeys h₁ h₂ hlimit rfl (both_move [0, 1] (.resetKeys d)) hexact
      (fun _ _ => trivial) hat ((hsum.list d).fresh fun i _ => ?_)
    rw [if_pos (hall i)]
    rfl
  | _ => exact honValues trivial

end

section

theorem near_congr {l' : CursorList 2 (σ₁ ⊕ σ₂) R} (hcursors : l.cursors = l'.cursors) {k : K}
    (h : (listStance C₁ C₂ entries S₁ S₂).near k p l) :
    (listStance C₁ C₂ entries S₁ S₂).near k p l' := by
  obtain ⟨hforward, places, hplaces, hkeys⟩ := h
  rw [hcursors] at hplaces
  exact ⟨hforward, places, hplaces, hkeys⟩

include h₁ h₂

theorem near_of_firm {k : K} (h : (stance C₁ C₂ entries S₁ S₂).firm p c)
    (hforward : p.keyDir = .forward) : (stance C₁ C₂ entries S₁ S₂).near k p c := by
  obtain ⟨places, hplaces, hkeys, -⟩ := firm_places h
  rw [hforward] at hkeys
  refine ⟨h.1.1.trans hforward, hforward, places, fun i => ?_, hkeys.seek k⟩
  have hdir := (hplaces i).2.2.trans hforward
  exact ⟨hdir, (sides_lawful h₁ h₂ i).near_of_firm k (hplaces i).1 hdir, (hplaces i).2.1⟩

theorem near_of_loose (h : (stance C₁ C₂ entries S₁ S₂).loose p c)
    (hforward : p.keyDir = .forward) (k : K) (hk : k ∈ p.key) :
    (stance C₁ C₂ entries S₁ S₂).near k p c := by
  have hne : p.rest ≠ [] := by
    intro hnil
    rw [Place.key, hnil] at hk
    exact absurd hk (by simp)
  obtain ⟨l, hsame, hl⟩ := Stands.live h hne
  refine ⟨h.1.1.trans hforward, near_congr hsame.cursors ?_⟩
  exact CursorList.near_of_loose (sides_lawful h₁ h₂) hl hforward k hk

variable [DecidableEq R]
include hlimit

theorem near_seek {k k' : K} (h : (stance C₁ C₂ entries S₁ S₂).near k p c) (hk : k ≤ k') :
    (stance C₁ C₂ entries S₁ S₂).firm (p.seekKey k')
      ((cursorPair C₁ C₂ limit).seekKey .forward k' c) := by
  have hlist := CursorList.near_seek (sides_lawful h₁ h₂) hlimit h.2 hk
  rw [Place.seekKey_of_forward h.2.1] at hlist ⊢
  have hcases := settleKeys_cases C₁ C₂
    (c := c.moveBoth (C₁.seekKey .forward k') (C₂.seekKey .forward k')) h.1
    (cursors_move C₁ C₂ (l := c.asList) rfl (finRange 2) (.seekKey .forward k')) rfl limit
  exact firm_of_settled hcases hlist

theorem near_reset (hsum : KeySums (finRange 2) .forward (fun i => entries (side i)) total)
    {k : K} (d : Direction) (h : (stance C₁ C₂ entries S₁ S₂).near k p c) :
    (stance C₁ C₂ entries S₁ S₂).firm (.enter d (d.list total))
      ((cursorPair C₁ C₂ limit).resetKeys d c) := by
  have hcases := settleKeys_cases C₁ C₂
    (c := { c.moveBoth (C₁.resetKeys d) (C₂.resetKeys d) with keyDirection := d }) rfl
    (cursors_move C₁ C₂ (l := c.asList) rfl (finRange 2) (.resetKeys d)) rfl limit
  exact firm_of_settled hcases (CursorList.near_reset (sides_lawful h₁ h₂) hlimit hsum d h.2)

end

section

variable (hable₁ : ∀ s k, S₁.able s k) (hable₂ : ∀ s k, S₂.able s k) {k k' : K} (hk : k ≤ k')
  (h : (stance C₁ C₂ entries S₁ S₂).near k p c)

omit [LinearOrder K] [LinearOrder V] [AddCommMonoid R] in
theorem stances_able (hable₁ : ∀ s k, S₁.able s k) (hable₂ : ∀ s k, S₂.able s k) :
    ∀ i s k, (stances S₁ S₂ i).able s k
  | 0, _, k => fun s _ => hable₁ s k
  | 1, _, k => fun s _ => hable₂ s k

variable (C₁ C₂) in
/-- The pair after its cursors have sought a key, before it has compared them. -/
def moveExact (key : K) (c : CursorPair σ₁ σ₂ R) : CursorPair σ₁ σ₂ R :=
  { c with
    cursor1 := (C₁.seekKeyExact key c.cursor1).1
    cursor2 := (C₂.seekKeyExact key c.cursor2).1
    valDirection := .forward }

variable (C₁ C₂) in
def sought (key : K) (c : CursorPair σ₁ σ₂ R) : CursorPair σ₁ σ₂ R :=
  updateKeyOrder C₁ C₂ .forward (c.moveExact C₁ C₂ key)

omit [LinearOrder K] [LinearOrder V] in
theorem cursors_sought (key : K) (c : CursorPair σ₁ σ₂ R) :
    (fun i => ((sides C₁ C₂ i).seekKeyExact key (c.asList.cursors i)).1) =
      (c.moveExact C₁ C₂ key).both := by
  funext i
  match i with
  | 0 => rfl
  | 1 => rfl

include h₁ h₂ hable₁ hable₂ hk h

/-- A cursor that answers shows the key. -/
theorem key_of_answer (i : Fin 2)
    (hanswer : ((sides C₁ C₂ i).seekKeyExact k' (c.both i)).2 = true) :
    (sides C₁ C₂ i).getKey ((sides C₁ C₂ i).seekKeyExact k' (c.both i)).1 = some k' := by
  obtain ⟨-, -, places, hplaces, -⟩ := h
  have hC := sides_lawful h₁ h₂ i
  obtain ⟨heq, hfound, -⟩ :=
    hC.near_exact (hplaces i).2.1 hk (stances_able hable₁ hable₂ i _ k')
  exact (hC.getKey (hfound hanswer).1).trans (of_decide_eq_true (heq.symm.trans hanswer))

/-- If a cursor has found the key, those that have it are current. -/
theorem sought_keys (hovertakes : Overtakes C₁ C₂ c k')
    (hfound : ((C₁.seekKeyExact k' c.cursor1).2 || (C₂.seekKeyExact k' c.cursor2).2) = true) :
    (c.asList.sought (sides C₁ C₂) k').currentKey = (sought C₁ C₂ k' c).keys := by
  have hkey₁ := key_of_answer h₁ h₂ hable₁ hable₂ hk h 0
  have hkey₂ := key_of_answer h₁ h₂ hable₁ hable₂ hk h 1
  change (C₁.seekKeyExact k' c.cursor1).2 = true →
    C₁.getKey (C₁.seekKeyExact k' c.cursor1).1 = some k' at hkey₁
  change (C₂.seekKeyExact k' c.cursor2).2 = true →
    C₂.getKey (C₂.seekKeyExact k' c.cursor2).1 = some k' at hkey₂
  have hfilter : (c.asList.sought (sides C₁ C₂) k').currentKey =
      (if (C₁.seekKeyExact k' c.cursor1).2 then [0] else []) ++
        if (C₂.seekKeyExact k' c.cursor2).2 then [1] else [] := by
    change (finRange 2).filter (fun i => ((sides C₁ C₂ i).seekKeyExact k' (c.both i)).2) = _
    rw [show finRange 2 = [0, 1] from rfl, filter_cons, filter_cons, filter_nil]
    change (if (C₁.seekKeyExact k' c.cursor1).2 then
      0 :: (if (C₂.seekKeyExact k' c.cursor2).2 then [1] else []) else
        if (C₂.seekKeyExact k' c.cursor2).2 then [1] else []) = _
    split <;> rfl
  obtain ⟨valOrder, heq, -⟩ := updateKeyOrder_eq C₁ C₂ .forward (c.moveExact C₁ C₂ k')
  rw [sought, heq, keys, moveExact, h.1, hfilter]
  obtain ⟨hovertakes₁, hovertakes₂⟩ := hovertakes
  dsimp only
  generalize C₁.seekKeyExact k' c.cursor1 = result1 at *
  generalize C₂.seekKeyExact k' c.cursor2 = result2 at *
  cases hresult₁ : result1.2 with
  | true =>
    rw [hkey₁ hresult₁]
    cases hresult₂ : result2.2 with
    | true =>
      rw [hkey₂ hresult₂, Direction.order, compare_eq_iff_eq.mpr rfl]
      rfl
    | false =>
      have hlater := hovertakes₁ hresult₁ hresult₂
      cases hkey : C₂.getKey result2.1 with
      | none => rfl
      | some k'' =>
        rw [Direction.order, compare_lt_iff_lt.mpr (hlater k'' hkey)]
        rfl
  | false =>
    have hresult₂ : result2.2 = true := by simpa [hresult₁] using hfound
    have hlater := hovertakes₂ hresult₁ hresult₂
    rw [hkey₂ hresult₂, hresult₂]
    cases hkey : C₁.getKey result1.1 with
    | none => rfl
    | some k'' =>
      rw [Direction.order, compare_gt_iff_gt.mpr (hlater k'' hkey)]
      rfl

variable [DecidableEq R]

/-- `seek_key_exact` answers as the list does, and does the same if it finds the key. -/
theorem seekKeyExact_cases (hovertakes : Overtakes C₁ C₂ c k') :
    ∃ c' l' found, (cursorPair C₁ C₂ limit).seekKeyExact k' c = (c', found) ∧
      (cursorList (sides C₁ C₂) limit).seekKeyExact k' c.asList = (l', found) ∧
      l'.cursors = c'.both ∧ (found = true → Same C₁ C₂ c' l') ∧
      c'.keyDirection = .forward ∧ c'.valDirection = .forward := by
  obtain ⟨valOrder, heq, hvals⟩ := updateKeyOrder_eq C₁ C₂ .forward (c.moveExact C₁ C₂ k')
  have hcursors : (c.asList.sought (sides C₁ C₂) k').cursors = (sought C₁ C₂ k' c).both := by
    rw [sought, heq]
    exact cursors_sought k' c
  have hweight : c.weight = (sought C₁ C₂ k' c).weight := by
    rw [sought, heq]
    rfl
  have hdirs : (sought C₁ C₂ k' c).keyDirection = .forward ∧
      (sought C₁ C₂ k' c).valDirection = .forward := by
    rw [sought, heq]
    exact ⟨h.1, rfl⟩
  have horder : (sought C₁ C₂ k' c).keyOrder = .eq → (sought C₁ C₂ k' c).valOrder =
      Direction.forward.order (C₁.getVal (sought C₁ C₂ k' c).cursor1)
        (C₂.getVal (sought C₁ C₂ k' c).cursor2) := by
    rw [sought, heq]
    exact hvals
  have hpair : (cursorPair C₁ C₂ limit).seekKeyExact k' c =
      if (C₁.seekKeyExact k' c.cursor1).2 || (C₂.seekKeyExact k' c.cursor2).2 then
        (skipZeroWeightVals C₁ C₂ .forward limit (sought C₁ C₂ k' c),
          (skipZeroWeightVals C₁ C₂ .forward limit (sought C₁ C₂ k' c)).valValid C₁ C₂)
      else (sought C₁ C₂ k' c, false) := rfl
  have hlist : (cursorList (sides C₁ C₂) limit).seekKeyExact k' c.asList =
      if (c.asList.sought (sides C₁ C₂) k').currentKey = [] then
        (c.asList.sought (sides C₁ C₂) k', false)
      else
        (CursorList.skipZeroWeightVals (sides C₁ C₂) .forward limit
            (c.asList.sought (sides C₁ C₂) k'),
          !(CursorList.skipZeroWeightVals (sides C₁ C₂) .forward limit
            (c.asList.sought (sides C₁ C₂) k')).currentVal.isEmpty) := rfl
  rw [hpair, hlist]
  by_cases hfound : ((C₁.seekKeyExact k' c.cursor1).2 || (C₂.seekKeyExact k' c.cursor2).2) = true
  · have hkeys := sought_keys h₁ h₂ hable₁ hable₂ hk h hovertakes hfound
    have hne : (c.asList.sought (sides C₁ C₂) k').currentKey ≠ [] :=
      hkeys ▸ (sought C₁ C₂ k' c).keys_ne_nil
    have hsame : Same C₁ C₂ (sought C₁ C₂ k' c) (c.asList.sought (sides C₁ C₂) k') :=
      (SameKey.same hdirs.2 horder ⟨hcursors, hweight, hkeys⟩)
    have hskip := hsame.skipVals hdirs.2 limit
    obtain ⟨hkeyDir, hvalDir⟩ := skipVals_fields C₁ C₂ .forward limit (sought C₁ C₂ k' c)
    rw [if_pos hfound, if_neg hne]
    refine ⟨_, _, _, rfl, ?_, hskip.cursors, fun _ => hskip, hkeyDir.trans hdirs.1,
      hvalDir.trans hdirs.2⟩
    refine congrArg (Prod.mk _) (Bool.eq_iff_iff.mpr ?_)
    rw [← hskip.currentVal_ne_nil]
    simp
  · have hnone : (C₁.seekKeyExact k' c.cursor1).2 = false ∧
        (C₂.seekKeyExact k' c.cursor2).2 = false := by simpa using hfound
    have hnil : (c.asList.sought (sides C₁ C₂) k').currentKey = [] := by
      refine filter_eq_nil_iff.mpr fun i _ => ?_
      match i with
      | 0 => exact Bool.eq_false_iff.mp hnone.1
      | 1 => exact Bool.eq_false_iff.mp hnone.2
    rw [if_neg hfound, if_pos hnil]
    exact ⟨_, _, _, rfl, rfl, hcursors, nofun, hdirs⟩

include hlimit in
theorem near_exact (hovertakes : Overtakes C₁ C₂ c k') :
    ((cursorPair C₁ C₂ limit).seekKeyExact k' c).2 = decide ((p.seekKey k').key = some k') ∧
      (((cursorPair C₁ C₂ limit).seekKeyExact k' c).2 = true →
        (stance C₁ C₂ entries S₁ S₂).loose (p.seekKey k')
          ((cursorPair C₁ C₂ limit).seekKeyExact k' c).1 ∧
        ((stance C₁ C₂ entries S₁ S₂).sure c k' →
          (stance C₁ C₂ entries S₁ S₂).firm (p.seekKey k')
            ((cursorPair C₁ C₂ limit).seekKeyExact k' c).1)) ∧
      (stance C₁ C₂ entries S₁ S₂).near k' p
        ((cursorPair C₁ C₂ limit).seekKeyExact k' c).1 := by
  obtain ⟨c', l', found, hpair, hlist, hcursors, hsame, hkeyDir, hvalDir⟩ :=
    seekKeyExact_cases h₁ h₂ hable₁ hable₂ hk h hovertakes
  obtain ⟨hanswer, hfound, hnear⟩ := CursorList.near_exact (sides_lawful h₁ h₂) hlimit
    (stances_able hable₁ hable₂) h.2 hk hlist
  have hdirs : c'.keyDirection = (p.seekKey k').keyDir ∧
      c'.valDirection = (p.seekKey k').valDir := by
    rw [Place.seekKey_of_forward h.2.1]
    exact ⟨hkeyDir, hvalDir⟩
  rw [hpair]
  refine ⟨hanswer, fun htrue => ⟨⟨hdirs, .inl ⟨l', hsame htrue, (hfound htrue).1⟩⟩, fun hsure =>
    ⟨hdirs, .inl ⟨l', hsame htrue, (hfound htrue).2 fun i => ?_⟩⟩⟩, hkeyDir,
    near_congr hcursors hnear⟩
  match i with
  | 0 => exact congrArg Sum.inl hsure.1
  | 1 => exact congrArg Sum.inr hsure.2

end

end CursorPair

variable [DecidableEq R] {total : Entries K V R}

section

variable (h₁ : C₁.Lawful (entries false) S₁) (h₂ : C₂.Lawful (entries true) S₂)
  (hsum : KeySums [false, true] .forward entries total)
  (hlimit : volume (entries false) + volume (entries true) < limit)
include h₁ h₂ hsum hlimit

theorem cursorPair_lawful (hable₁ : ∀ s k, S₁.able s k) (hable₂ : ∀ s k, S₂.able s k) :
    (cursorPair C₁ C₂ limit).Lawful total (stance C₁ C₂ entries S₁ S₂) := by
  have hC := sides_lawful h₁ h₂
  have hsum := keySums_sides hsum
  have hlist := cursorList_lawful hC (stances_able hable₁ hable₂) hsum hlimit
  exact {
    getKey := fun h => Stands.getKey h₁ h₂ h
    getVal := fun h hne => Stands.getVal h₁ h₂ hlist h hne
    weight := fun h hne q hq => (Stands.weights h₁ h₂ hlist h hne hq).1
    mapTimes := fun h hne q hq => (Stands.weights h₁ h₂ hlist h hne hq).2
    loose_of_firm := fun h => ⟨h.1, h.2.imp_left fun ⟨l, hsame, hl⟩ => ⟨l, hsame, .inl hl⟩⟩
    apply := fun op h hop hexact => firm_apply h₁ h₂ hlimit hsum op h hop hexact
    apply_loose := fun op h hop hvalues => h.onValues h₁ h₂ op hop hvalues fun hl hmoves =>
      loose_onValues hC hlimit total op hop hvalues hmoves hl
    near_of_firm := fun k h hforward => near_of_firm h₁ h₂ h hforward
    near_of_loose := fun h hforward k hk => near_of_loose h₁ h₂ h hforward k hk
    near_self := fun h => ⟨h.1, near_self h.2⟩
    near_seek := fun h hk => near_seek h₁ h₂ hlimit h hk
    near_exact := fun h hk hovertakes =>
      near_exact h₁ h₂ hlimit hable₁ hable₂ hk h hovertakes
    near_reset := fun d h => near_reset h₁ h₂ hlimit hsum d h }

theorem CursorPair.firm_new {cursor1 : σ₁} {cursor2 : σ₂}
    (hfirm₁ : S₁.firm (.enter .forward (entries false)) cursor1)
    (hfirm₂ : S₂.firm (.enter .forward (entries true)) cursor2) :
    (stance C₁ C₂ entries S₁ S₂).firm (.enter .forward total)
      (CursorPair.new C₁ C₂ limit cursor1 cursor2) := by
  let start : CursorPair σ₁ σ₂ R := ⟨cursor1, cursor2, .eq, .forward,
    Direction.forward.order (C₁.getVal cursor1) (C₂.getVal cursor2), .forward, 0⟩
  have hfirm : ∀ i, (stances S₁ S₂ i).firm (.enter .forward (entries (side i))) (start.both i)
    | 0 => ⟨cursor1, rfl, hfirm₁⟩
    | 1 => ⟨cursor2, rfl, hfirm₂⟩
  have hcases := settleKeys_cases C₁ C₂ (c := start) (l := start.asList) rfl rfl rfl limit
  have hsettled := firm_of_settled hcases
    (CursorList.firm_new (sides_lawful h₁ h₂) (keySums_sides hsum) hlimit hfirm)
  -- the values are compared in any case
  unfold settleKeys updateKeyOrder at hsettled
  dsimp only at hsettled
  split at hsettled
  · exact hsettled
  · exact hsettled

end

section

/-- In every proper run, a pair of lawful cursors of two batches gives the answers of a cursor over
their sum, and shows the same key, value and weight, unless a key was missing. -/
theorem cursorPair_agrees_with_sum (batches : Bool → Batch K V Unit R)
    (h₁ : C₁.Lawful (batches false).entries S₁) (h₂ : C₂.Lawful (batches true).entries S₂)
    (hable₁ : ∀ s k, S₁.able s k) (hable₂ : ∀ s k, S₂.able s k) {cursor1 : σ₁} {cursor2 : σ₂}
    (hfirm₁ : S₁.firm (.enter .forward (batches false).entries) cursor1)
    (hfirm₂ : S₂.firm (.enter .forward (batches true).entries) cursor2) (limit : Nat)
    (hlimit : volume (batches false).entries + volume (batches true).entries < limit)
    (ops : List (Op K V))
    (hproper : (cursorPair C₁ C₂ limit).Proper (Overtakes C₁ C₂)
      (LeavesNoneBehind C₁ C₂) (CursorPair.new C₁ C₂ limit cursor1 cursor2) ops) :
    let pair := (cursorPair C₁ C₂ limit).run (LeavesNoneBehind C₁ C₂)
      (CursorPair.new C₁ C₂ limit cursor1 cursor2) ops
    let single := (layerCursor fun _ => true).run (fun _ _ => True)
      (LayerCursor.new (Batch.sum [false, true] batches).entries) ops
    pair.2.2 = single.2.2 ∧
      (pair.2.1.missing = false →
        (cursorPair C₁ C₂ limit).seen pair.1 = (layerCursor fun _ => true).seen single.1) := by
  have hsum := keySums_batches (Batch.weight_sum [false, true] batches)
  refine (cursorPair_lawful h₁ h₂ hsum hlimit hable₁ hable₂).agree
    (layerCursor_lawful fun _ _ => rfl) (LayerCursor.stance_total _) ?_ ?_ ops hproper
  · exact firm_new h₁ h₂ hsum hlimit hfirm₁ hfirm₂
  · exact LayerCursor.at_new _

/-- Keys 1, 3 and 5 in memory; keys 2, 5 and 6, with 5 deleted, on storage with a filter. -/
def CursorPair.splitBatches : Bool → Batch ℕ ℕ Unit ℤ
  | false => .ofTuples [((1, 0, ()), 1), ((3, 0, ()), 1), ((5, 0, ()), 1)]
  | true => .ofTuples [((2, 0, ()), 1), ((5, 0, ()), -1), ((6, 0, ()), 1)]

def CursorPair.splitFilter (k : ℕ) : Bool :=
  decide (k = 2 ∨ k = 5 ∨ k = 6)

def CursorPair.memory : Cursor (LayerCursor ℕ ℕ ℤ) ℕ ℕ ℤ :=
  layerCursor fun _ => true

def CursorPair.storage : Cursor (LayerCursor ℕ ℕ ℤ) ℕ ℕ ℤ :=
  layerCursor splitFilter

def CursorPair.split : CursorPair (LayerCursor ℕ ℕ ℤ) (LayerCursor ℕ ℕ ℤ) ℤ :=
  .new memory storage 13 (.new (splitBatches false).entries) (.new (splitBatches true).entries)

theorem cursorPair_agrees_with_sum_split :
    let ops := [.seekKeyExact 1, .stepKey .forward, .seekKeyExact 5, .seekKeyExact 6]
    let pair := (cursorPair memory storage 13).run
      (LeavesNoneBehind memory storage) split ops
    let single := (layerCursor fun _ => true).run (fun _ _ => True)
      (LayerCursor.new (Batch.sum [false, true] splitBatches).entries) ops
    pair.2.2 = single.2.2 ∧
      (pair.2.1.missing = false →
        (cursorPair memory storage 13).seen pair.1 =
          (layerCursor fun _ => true).seen single.1) := by
  have hfind := (Cursor.proper_nil (cursorPair memory storage 13)
    (Overtakes memory storage)
    (LeavesNoneBehind memory storage) split).concat
      (.seekKeyExact 1) ⟨rfl, fun _ k hk => nomatch hk⟩ fun key hkey => by
        obtain rfl : 1 = key := Op.seekKeyExact.inj hkey
        decide +kernel
  have hstep := hfind.concat (.stepKey .forward)
    ⟨rfl, by decide +kernel, not_not.mpr (by decide +kernel)⟩ nofun
  have hcancel := hstep.concat (.seekKeyExact 5) ⟨rfl, fun _ k hk => nomatch hk⟩ fun key hkey => by
    obtain rfl : 5 = key := Op.seekKeyExact.inj hkey
    decide +kernel
  have hproper := hcancel.concat (.seekKeyExact 6)
    ⟨rfl, fun _ k hk => Option.some.inj hk ▸ Nat.le_succ 5⟩ fun key hkey => by
      obtain rfl : 6 = key := Op.seekKeyExact.inj hkey
      decide +kernel
  have hmay : ∀ q ∈ (splitBatches true).entries,
      splitFilter q.1 = true := by decide +kernel
  exact cursorPair_agrees_with_sum splitBatches (layerCursor_lawful fun _ _ => rfl)
    (layerCursor_lawful hmay) (fun _ _ => trivial) (fun _ _ => trivial) (LayerCursor.at_new _)
    (LayerCursor.at_new _) 13 (by decide +kernel) _ hproper

/-- `seek_key_exact` of key 3 answers `true`, but the pair shows key 2, where the cursor that does
not hold 3 was left behind. Of key 5, which cancels, it answers `false`, and the pair shows the
key without a value where the sum shows the next one. -/
theorem cursorPair_left_behind :
    let C := cursorPair memory storage 13
    let pair := fun key => C.seekKeyExact key split
    let single := fun key => (layerCursor fun _ => true).seekKeyExact key
      (LayerCursor.new (Batch.sum [false, true] splitBatches).entries)
    ((pair 3).2 = true ∧ C.seen (pair 3).1 = some (2, some (0, 1)) ∧
      (single 3).2 = true ∧ (layerCursor fun _ => true).seen (single 3).1 =
        some (3, some (0, 1))) ∧
    ((pair 5).2 = false ∧ C.seen (pair 5).1 = some (5, none) ∧
      (single 5).2 = false ∧ (layerCursor fun _ => true).seen (single 5).1 =
        some (6, some (0, 1))) := by
  decide +kernel

end

end Feldera.Trace
