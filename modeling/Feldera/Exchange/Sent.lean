import Feldera.Exchange.Counters

/-!
`sent` counts the senders of a host that have arrived for the next round of its task. The last one
resets it and spawns the task; there is one such sender exactly if all have arrived.
-/

namespace Feldera.Exchange

open Rounds Layout Function

variable {T : Type*} {L : Layout} {x x' : State T} {s h : ℕ} {rest : List Instr}

/-- The sender has found that it is the last one of its host, and has not yet spawned the task. -/
def Spawning (x : State T) (w : ℕ) : Prop :=
  .spawn w ∈ x.rest (.sender w) ∧ .arrive w ∉ x.rest (.sender w)

/-- The sender has reset `sent`, and has not yet spawned the task. -/
def Cleared (x : State T) (w : ℕ) : Prop :=
  .spawn w ∈ x.rest (.sender w) ∧ .reset w ∉ x.rest (.sender w)

/-- The senders of a host that have arrived for the next round of the task. -/
def arrivals (L : Layout) (x : State T) (h : ℕ) : ℕ :=
  tally (L.localWorkers h) (fun s => mark L x (.arrive s)) (x.rounds (.task h) + 1)

structure SentCounter (L : Layout) (x : State T) (h : ℕ) : Prop where
  full : (∃ w ∈ L.localWorkers h, Spawning x w) ↔ arrivals L x h = L.size h
  unique : ∀ w ∈ L.localWorkers h, ∀ w' ∈ L.localWorkers h, Spawning x w → Spawning x w' → w = w'
  cleared : ∀ w ∈ L.localWorkers h, Cleared x w → x.sent h = 0
  counts : (∀ w ∈ L.localWorkers h, ¬ Cleared x w) → x.sent h = arrivals L x h

attribute [local simp] Layout.key List.cons_lt_cons_iff

theorem Shape.spawning_of_cleared (hx : Shape L x) {w : ℕ} (hcleared : Cleared x w) :
    Spawning x w := by
  refine ⟨hcleared.1, ?_⟩
  intro harrive
  have hmulti := (Layout.mem_program.mp ((hx.rest (.sender w)).subset harrive)).2
  apply hcleared.2
  refine mem_rest (hx.rest (.sender w)) Layout.pairwise_program harrive
    (Layout.mem_program.mpr ⟨rfl, hmulti⟩) ?_
  simp

theorem Shape.cleared_of_spawn (hx : Shape L x) (hrest : x.rest (.sender s) = .spawn s :: rest) :
    Cleared x s := by
  unfold Cleared
  rw [hrest]
  refine ⟨List.mem_cons_self, ?_⟩
  rw [List.mem_cons, not_or]
  refine ⟨nofun, hx.not_mem_rest hrest ?_⟩
  simp

namespace SentCounter

/-- While some sender has not arrived, nobody spawns the task. -/
theorem of_not_spawning (hnone : ∀ w ∈ L.localWorkers h, ¬ Spawning x w)
    (hlt : arrivals L x h ≠ L.size h) (hcleared : ∀ w ∈ L.localWorkers h, Cleared x w → x.sent h = 0)
    (hcounts : x.sent h = arrivals L x h) : SentCounter L x h := by
  refine ⟨iff_of_false ?_ hlt, ?_, hcleared, fun _ => hcounts⟩
  · rintro ⟨w, hw, hspawning⟩
    exact hnone w hw hspawning
  · intro w hw _ _ hspawning
    exact absurd hspawning (hnone w hw)

variable (hsent : SentCounter L x h)
include hsent

section

variable (hmark : ∀ s ∈ L.localWorkers h, mark L x' (.arrive s) = mark L x (.arrive s))
include hmark

section

variable (htask : x'.rounds (.task h) = x.rounds (.task h)) (hsame : x'.sent h = x.sent h)
include htask hsame

theorem of_eq (hspawning : ∀ w ∈ L.localWorkers h, Spawning x' w ↔ Spawning x w)
    (hcleared : ∀ w ∈ L.localWorkers h, Cleared x' w ↔ Cleared x w) : SentCounter L x' h := by
  have harrivals : arrivals L x' h = arrivals L x h := by
    unfold arrivals
    rw [htask]
    exact tally_congr hmark
  constructor
  · rw [harrivals, ← hsent.full]
    apply exists_congr
    intro w
    exact and_congr_right (hspawning w)
  · intro w hw w' hw' hspawn hspawn'
    exact hsent.unique w hw w' hw' ((hspawning w hw).mp hspawn) ((hspawning w' hw').mp hspawn')
  · intro w hw hclear
    rw [hsame]
    exact hsent.cleared w hw ((hcleared w hw).mp hclear)
  · intro hnone
    rw [hsame, harrivals]
    apply hsent.counts
    intro w hw hclear
    exact hnone w hw ((hcleared w hw).mpr hclear)

/-- A sender goes on with what it had left, or has found neither before nor after that it is the last
one. -/
theorem of_rest
    (hrest : ∀ w ∈ L.localWorkers h, x'.rest (.sender w) = x.rest (.sender w) ∨
      .spawn w ∉ x.rest (.sender w) ∧ ¬ Spawning x' w ∧ ¬ Cleared x' w) :
    SentCounter L x' h := by
  apply hsent.of_eq hmark htask hsame
  · intro w hw
    rcases hrest w hw with heq | ⟨hnot, hspawning, _⟩
    · unfold Spawning
      rw [heq]
    · exact iff_of_false hspawning fun hspawn => hnot hspawn.1
  · intro w hw
    rcases hrest w hw with heq | ⟨hnot, _, hcleared⟩
    · unfold Cleared
      rw [heq]
    · exact iff_of_false hcleared fun hspawn => hnot hspawn.1

end

end

/-- The senders of another host do not matter. -/
theorem of_other (hne : h ≠ L.hostOf s)
    (hmark : ∀ w, w ≠ s → mark L x' (.arrive w) = mark L x (.arrive w))
    (htask : x'.rounds (.task h) = x.rounds (.task h)) (hsame : x'.sent h = x.sent h)
    (hother : ∀ w, w ≠ s → x'.rest (.sender w) = x.rest (.sender w)) : SentCounter L x' h := by
  have hw : ∀ w ∈ L.localWorkers h, w ≠ s := by
    rintro w hw rfl
    exact hne (hostOf_eq hw).symm
  apply hsent.of_rest (fun w hmem => hmark w (hw w hmem)) htask hsame
  intro w hmem
  exact .inl (hother w (hw w hmem))

theorem begin (hmark : mark L x' = mark L x) (htask : x'.rounds (.task h) = x.rounds (.task h))
    (hsame : x'.sent h = x.sent h) (hmulti : L.nWorkers ≠ L.size h) (hrest : x.rest (.sender s) = [])
    (hrest' : x'.rest = Function.update x.rest (.sender s) (L.sendProgram s)) :
    SentCounter L x' h := by
  apply hsent.of_rest (fun w _ => by rw [hmark]) htask hsame
  intro w hw
  by_cases hne : w = s
  · subst hne
    rw [← hostOf_eq hw] at hmulti
    unfold Spawning Cleared
    rw [hrest, hrest', update_self]
    exact .inr ⟨List.not_mem_nil,
      fun hspawn => hspawn.2 (mem_sendProgram.mpr ⟨rfl, hmulti⟩),
      fun hclear => hclear.2 (mem_sendProgram.mpr ⟨rfl, hmulti⟩)⟩
  · rw [hrest', update_of_ne (by simp [hne])]
    exact .inl rfl

section

variable (hx : Shape L x) (hs : s ∈ L.localWorkers h)
  (hnext : mark L x (.arrive s) = x.rounds (.task h)) (hraised : Raised L x x' (.arrive s))
  (hadd : x'.sent h = x.sent h + 1)
include hs hnext

/-- A sender that has not arrived is not counted, so that nobody spawns the task. -/
theorem not_spawning : ∀ w ∈ L.localWorkers h, ¬ Spawning x w := by
  intro w hw hspawn
  have hfull := hsent.full.mp ⟨w, hw, hspawn⟩
  rw [← length_localWorkers, arrivals, tally_eq_length_iff] at hfull
  have harrived := hfull s hs
  omega

include hx hraised hadd

/-- `sent` grows with the sender that arrives. -/
theorem counts_arrive : x'.sent h = arrivals L x' h := by
  have hclear : ∀ w ∈ L.localWorkers h, ¬ Cleared x w := by
    intro w hw hcleared
    exact hsent.not_spawning hs hnext w hw (hx.spawning_of_cleared hcleared)
  rw [hadd, hsent.counts hclear, arrivals, arrivals, hraised.rounds]
  refine (tally_succ nodup_localWorkers hs ?_ ?_ ?_).symm
  · rw [hnext]
  · rw [hraised.self, hnext]
  · intro w _ hne
    rw [hraised.other _ (by simp [hne])]

theorem arrive (hlast : x.sent h + 1 ≠ L.size h)
    (hrest' : x'.rest = Function.update x.rest (.sender s) []) : SentCounter L x' h := by
  have hnone := hsent.not_spawning hs hnext
  have hcounts := hsent.counts_arrive hx hs hnext hraised hadd
  have hmem : ∀ w, .spawn w ∈ x'.rest (.sender w) → x'.rest (.sender w) = x.rest (.sender w) := by
    intro w hspawn
    by_cases hne : w = s
    · subst hne
      rw [hrest', update_self] at hspawn
      cases hspawn
    · rw [hrest', update_of_ne (by simp [hne])]
  have hnone' : ∀ w ∈ L.localWorkers h, ¬ Spawning x' w := by
    intro w hw hspawning
    have heq := hmem w hspawning.1
    unfold Spawning at hspawning
    rw [heq] at hspawning
    exact hnone w hw hspawning
  refine of_not_spawning hnone' (by omega) ?_ hcounts
  intro w hw hcleared
  have heq := hmem w hcleared.1
  unfold Cleared at hcleared
  rw [heq] at hcleared
  exact absurd (hx.spawning_of_cleared hcleared) (hnone w hw)

/-- The last sender arrives and goes on to spawn the task. -/
theorem arrive_last (hrest : x.rest (.sender s) = .arrive s :: rest)
    (hlast : x.sent h + 1 = L.size h)
    (hrest' : x'.rest = Function.update x.rest (.sender s) rest) : SentCounter L x' h := by
  have hnone := hsent.not_spawning hs hnext
  have hcounts := hsent.counts_arrive hx hs hnext hraised hadd
  have hother : ∀ w, w ≠ s → x'.rest (.sender w) = x.rest (.sender w) := by
    intro w hne
    rw [hrest', update_of_ne (by simp [hne])]
  have hmulti := hx.fits hrest
  have hspawn : .spawn s ∈ rest := by
    refine hx.mem_rest_of_next hrest (mem_program.mpr ⟨rfl, hmulti⟩) ?_
    simp
  have hreset : .reset s ∈ rest := by
    refine hx.mem_rest_of_next hrest (mem_program.mpr ⟨rfl, hmulti⟩) ?_
    simp
  have hspawning : Spawning x' s := by
    unfold Spawning
    rw [hrest', update_self]
    exact ⟨hspawn, hx.not_mem_rest hrest (lt_irrefl _)⟩
  have honly : ∀ w ∈ L.localWorkers h, Spawning x' w → w = s := by
    intro w hw hspawning'
    by_contra hne
    unfold Spawning at hspawning'
    rw [hother w hne] at hspawning'
    exact hnone w hw hspawning'
  constructor
  · refine iff_of_true ⟨s, hs, hspawning⟩ ?_
    omega
  · intro w hw w' hw' hspawn hspawn'
    rw [honly w hw hspawn, honly w' hw' hspawn']
  · intro w hw hcleared
    by_cases hne : w = s
    · subst hne
      unfold Cleared at hcleared
      rw [hrest', update_self] at hcleared
      exact absurd hreset hcleared.2
    · unfold Cleared at hcleared
      rw [hother w hne] at hcleared
      exact absurd (hx.spawning_of_cleared hcleared) (hnone w hw)
  · intro _
    exact hcounts

end

theorem reset (hx : Shape L x) (hrest : x.rest (.sender s) = .reset s :: rest)
    (hs : s ∈ L.localWorkers h) (hmark : mark L x' = mark L x)
    (htask : x'.rounds (.task h) = x.rounds (.task h)) (hzero : x'.sent h = 0)
    (hrest' : x'.rest = Function.update x.rest (.sender s) rest) : SentCounter L x' h := by
  have hspawning : ∀ w ∈ L.localWorkers h, Spawning x' w ↔ Spawning x w := by
    intro w _
    unfold Spawning
    rw [hrest']
    by_cases hne : w = s
    · subst hne
      simp [hrest]
    · rw [update_of_ne (by simp [hne])]
  have hmulti := hx.fits hrest
  have hmem : .spawn s ∈ rest := by
    refine hx.mem_rest_of_next hrest (mem_program.mpr ⟨rfl, hmulti⟩) ?_
    simp
  have hcleared : Cleared x' s := by
    unfold Cleared
    rw [hrest', update_self]
    exact ⟨hmem, hx.not_mem_rest hrest (lt_irrefl _)⟩
  have harrivals : arrivals L x' h = arrivals L x h := by
    unfold arrivals
    rw [hmark, htask]
  constructor
  · rw [harrivals, ← hsent.full]
    apply exists_congr
    intro w
    exact and_congr_right (hspawning w)
  · intro w hw w' hw' hspawn hspawn'
    exact hsent.unique w hw w' hw' ((hspawning w hw).mp hspawn) ((hspawning w' hw').mp hspawn')
  · intro w _ _
    exact hzero
  · intro hnone
    exact absurd hcleared (hnone s hs)

/-- All senders of the host have arrived when the task is spawned. -/
theorem arrived_of_spawn (hspawning : Spawning x s) (hs : s ∈ L.localWorkers h) {w : ℕ}
    (hw : w ∈ L.localWorkers h) : mark L x (.arrive w) = x.rounds (.task h) + 1 := by
  have hfull := hsent.full.mp ⟨s, hs, hspawning⟩
  rw [← length_localWorkers, arrivals, tally_eq_length_iff] at hfull
  exact hfull w hw

theorem spawn (hspawning : Spawning x s) (hcleared : Cleared x s) (hs : s ∈ L.localWorkers h)
    (hmark : mark L x' = mark L x) (htask : x'.rounds (.task h) = x.rounds (.task h) + 1)
    (hsame : x'.sent h = x.sent h) (hself : .spawn s ∉ x'.rest (.sender s))
    (hother : ∀ w, w ≠ s → x'.rest (.sender w) = x.rest (.sender w)) : SentCounter L x' h := by
  have hnone : ∀ w ∈ L.localWorkers h, ¬ Spawning x' w := by
    intro w hw hspawning'
    by_cases hne : w = s
    · subst hne
      exact hself hspawning'.1
    · unfold Spawning at hspawning'
      rw [hother w hne] at hspawning'
      exact hne (hsent.unique w hw s hs hspawning' hspawning)
  have harrivals : arrivals L x' h = 0 := by
    apply tally_eq_zero
    intro w hw
    rw [hmark, htask, hsent.arrived_of_spawn hspawning hs hw]
    omega
  have hzero : x'.sent h = 0 := by
    rw [hsame]
    exact hsent.cleared s hs hcleared
  have hsize : 0 < L.size h := by
    rw [← length_localWorkers]
    exact List.length_pos_of_mem hs
  exact of_not_spawning hnone (by omega) (fun _ _ _ => hzero) (hzero.trans harrivals.symm)

end SentCounter

end Feldera.Exchange
