import Feldera.Algebra.Rounds
import Feldera.Exchange.Programs

/-!
How far the threads of an exchange have come. `mark` counts the rounds in which a thread has executed
an instruction. A step of the machine raises one mark, or begins a round and leaves all marks as they
are. The order of the programs gives inequalities between the marks of one thread.
-/

namespace Feldera.Exchange

open Rounds Function List

variable {T : Type*} {L : Layout} {x x' : State T} {t : Thread} {i j : Instr} {rest : List Instr}

/-- The instructions that every round executes: a sender executes `reset` and `spawn` only if it is
the last one of its host. -/
def Instr.always : Instr → Bool
  | .reset _ | .spawn _ => false
  | _ => true

namespace Layout

/-- An instruction that its thread executes in every round. -/
def Counted (L : Layout) (i : Instr) : Prop := i ∈ L.program (L.owner i) ∧ i.always = true

instance : DecidablePred L.Counted := fun _ => inferInstanceAs (Decidable (_ ∧ _))

theorem counted_of_fits (hfits : L.Fits i) (hi : i.always = true) : L.Counted i :=
  ⟨mem_program.mpr ⟨rfl, hfits⟩, hi⟩

end Layout

/-- In how many rounds an instruction has been executed. -/
def mark (L : Layout) (x : State T) (i : Instr) : ℕ :=
  if L.Counted i then level (x.rounds (L.owner i)) (x.rest (L.owner i)) i else 0

structure Shape (L : Layout) (x : State T) : Prop where
  rest : ∀ t, x.rest t <:+ L.program t
  started : ∀ t, x.rest t ≠ [] → 0 < x.rounds t
  sender_lt : ∀ w, 0 < x.rounds (.sender w) → w < L.nWorkers
  receiver_lt : ∀ w, 0 < x.rounds (.receiver w) → w < L.nWorkers
  task_mem : ∀ h, 0 < x.rounds (.task h) → h ∈ L.hosts ∧ L.nWorkers ≠ L.size h

theorem mark_of_counted (hi : L.Counted i) :
    mark L x i = level (x.rounds (L.owner i)) (x.rest (L.owner i)) i := if_pos hi

theorem mark_le_rounds : mark L x i ≤ x.rounds (L.owner i) := by
  unfold mark
  split
  · exact level_le
  · exact Nat.zero_le _

theorem rounds_le_mark (hi : L.Counted i) : x.rounds (L.owner i) ≤ mark L x i + 1 := by
  rw [mark_of_counted hi]
  exact le_level

namespace Shape

variable (hx : Shape L x)
include hx

section

variable (hrest : x.rest t = i :: rest)
include hrest

theorem mem_program : i ∈ L.program t := by
  have hsuffix := hx.rest t
  rw [hrest] at hsuffix
  exact hsuffix.subset mem_cons_self

theorem owner_eq : L.owner i = t :=
  (Layout.mem_program.mp (hx.mem_program hrest)).1

theorem fits : L.Fits i :=
  (Layout.mem_program.mp (hx.mem_program hrest)).2

theorem pos : 0 < x.rounds t := by
  apply hx.started
  rw [hrest]
  exact cons_ne_nil _ _

theorem counted (hi : i.always = true) : L.Counted i := by
  refine ⟨?_, hi⟩
  rw [hx.owner_eq hrest]
  exact hx.mem_program hrest

/-- What does not come later than the next instruction is not left after it. -/
theorem not_mem_rest (hlt : ¬ L.key i < L.key j) : j ∉ rest := by
  have hsuffix := hx.rest t
  rw [hrest] at hsuffix
  exact Rounds.not_mem_rest hsuffix Layout.pairwise_program hlt

/-- What comes later in the program than the next instruction is left after it. -/
theorem mem_rest_of_next (hj : j ∈ L.program t) (hlt : L.key i < L.key j) : j ∈ rest := by
  have hmem : j ∈ x.rest t := by
    apply mem_rest (hx.rest t) Layout.pairwise_program _ hj hlt
    rw [hrest]
    exact mem_cons_self
  rw [hrest] at hmem
  rcases mem_cons.mp hmem with rfl | hmem
  · exact absurd hlt (lt_irrefl _)
  · exact hmem

end

theorem mark_le_mark (hj : L.Counted j) (hi : L.Counted i) (howner : L.owner i = L.owner j)
    (hlt : L.key i < L.key j) : mark L x j ≤ mark L x i := by
  rw [mark_of_counted hj, mark_of_counted hi, howner]
  exact level_le_level (hx.rest _) Layout.pairwise_program hj.1 hlt

variable (hrest : x.rest t = i :: rest)
include hrest

theorem mark_next (hi : i.always = true) : mark L x i + 1 = x.rounds t := by
  have hpos := hx.pos hrest
  rw [mark_of_counted (hx.counted hrest hi), hx.owner_eq hrest, hrest,
    level_of_mem mem_cons_self]
  omega

theorem mark_done (hj : L.Counted j) (howner : L.owner j = t) (hlt : L.key j < L.key i) :
    mark L x j = x.rounds t := by
  have hne : j ≠ i := by
    rintro rfl
    exact hlt.false
  have hnot : j ∉ x.rest t := by
    rw [hrest, mem_cons, not_or]
    exact ⟨hne, hx.not_mem_rest hrest hlt.asymm⟩
  rw [mark_of_counted hj, howner, level_of_not_mem hnot]

/-- A step that executes an instruction raises its mark. After `arrive` less may be left than before,
which no mark counts. -/
theorem mark_proceed {rest' : List Instr} (hi : i.always = true) (hrounds : x'.rounds = x.rounds)
    (hrest' : x'.rest = update x.rest t rest')
    (hsame : ∀ j, j.always = true → (j ∈ rest' ↔ j ∈ rest)) :
    mark L x' = update (mark L x) i (mark L x i + 1) := by
  have hcounted := hx.counted hrest hi
  have howner := hx.owner_eq hrest
  funext j
  by_cases hj : j = i
  · subst hj
    have hnot : j ∉ rest' := by
      rw [hsame j hi]
      exact hx.not_mem_rest hrest (lt_irrefl _)
    rw [update_self, hx.mark_next hrest hi, mark_of_counted hcounted, hrounds, hrest', howner,
      update_self, level_of_not_mem hnot]
  · rw [update_of_ne hj]
    unfold mark
    split
    · next hj' =>
      rw [hrounds, hrest']
      by_cases ht : L.owner j = t
      · rw [ht, update_self, hrest, ← level_advance_of_ne hj]
        unfold level
        rw [if_congr (hsame j hj'.2) rfl rfl]
      · rw [update_of_ne ht]
    · rfl

end Shape

theorem mark_of_idle (hrest : x.rest t = []) (howner : L.owner i = t) (hfits : L.Fits i)
    (hi : i.always = true) : mark L x i = x.rounds t := by
  rw [mark_of_counted (Layout.counted_of_fits hfits hi), howner, hrest, level_nil]

theorem mark_proceed_of_not_always (hrest : x.rest t = i :: rest) (hi : i.always = false)
    (hrounds : x'.rounds = x.rounds) (hrest' : x'.rest = update x.rest t rest) :
    mark L x' = mark L x := by
  funext j
  unfold mark
  split
  · next hj =>
    have hne : j ≠ i := by
      rintro rfl
      exact Bool.noConfusion (hi.symm.trans hj.2)
    rw [hrounds, hrest']
    by_cases ht : L.owner j = t
    · rw [ht, update_self, hrest, level_advance_of_ne hne]
    · rw [update_of_ne ht]
  · rfl

theorem mark_begin (hrest : x.rest t = [])
    (hrounds : x'.rounds = update x.rounds t (x.rounds t + 1))
    (hrest' : x'.rest = update x.rest t (L.program t)) : mark L x' = mark L x := by
  funext j
  unfold mark
  split
  · next hj =>
    rw [hrounds, hrest']
    by_cases ht : L.owner j = t
    · have hmem := hj.1
      rw [ht] at hmem ⊢
      rw [update_self, update_self, hrest, level_begin hmem]
    · rw [update_of_ne ht, update_of_ne ht]
  · rfl

namespace Layout

variable {s r : ℕ}

theorem nWorkers_ne_size (hr : r < L.nWorkers) (hremote : L.hostOf s ≠ L.hostOf r) :
    L.nWorkers ≠ L.size (L.hostOf s) := by
  intro heq
  have hall : (List.range L.nWorkers).countP (fun w => L.hostOf w == L.hostOf s) =
      (List.range L.nWorkers).length := by
    rw [countP_hostOf, length_range, heq]
  have hsame := countP_eq_length.mp hall r (mem_range.mpr hr)
  exact hremote (beq_iff_eq.mp hsame).symm

theorem exists_remote {h : ℕ} (hmulti : L.nWorkers ≠ L.size h) :
    ∃ r < L.nWorkers, h ≠ L.hostOf r := by
  by_contra hnone
  apply hmulti
  rw [← countP_hostOf, countP_eq_length.mpr, length_range]
  intro r hr
  by_contra hne
  exact hnone ⟨r, mem_range.mp hr, fun heq => hne (beq_iff_eq.mpr heq.symm)⟩

end Layout

@[mk_iff] structure LocalOrder (L : Layout) (x : State T) (s r : ℕ) : Prop where
  credit_le : mark L x (.credit s r) ≤ mark L x (.write s r)
  write_le : mark L x (.write s r) ≤ x.rounds (.sender s)
  sender_le : x.rounds (.sender s) ≤ mark L x (.credit s r) + 1
  acknowledge_le : mark L x (.acknowledge s r) ≤ mark L x (.pick s r)
  pick_le : mark L x (.pick s r) ≤ x.rounds (.receiver r)
  receiver_le : x.rounds (.receiver r) ≤ mark L x (.acknowledge s r) + 1

@[mk_iff] structure RemoteOrder (L : Layout) (x : State T) (s r : ℕ) : Prop where
  arrive_le : mark L x (.arrive s) ≤ mark L x (.write s r)
  write_le : mark L x (.write s r) ≤ x.rounds (.sender s)
  sender_le : x.rounds (.sender s) ≤ mark L x (.arrive s) + 1
  release_le : mark L x (.release s) ≤ mark L x (.await s r)
  await_le : mark L x (.await s r) ≤ mark L x (.creditAll (L.hostOf s) r)
  creditAll_le : mark L x (.creditAll (L.hostOf s) r) ≤ mark L x (.deliver s r)
  deliver_le : mark L x (.deliver s r) ≤ mark L x (.collect s r)
  collect_le : mark L x (.collect s r) ≤ x.rounds (.task (L.hostOf s))
  task_le : x.rounds (.task (L.hostOf s)) ≤ mark L x (.release s) + 1
  notify_le : mark L x (.notify s r) ≤ mark L x (.pick s r)
  pick_le : mark L x (.pick s r) ≤ x.rounds (.receiver r)
  receiver_le : x.rounds (.receiver r) ≤ mark L x (.notify s r) + 1

namespace Shape

open Layout

variable (hx : Shape L x) {s r : ℕ} (hs : s < L.nWorkers) (hr : r < L.nWorkers)
include hx hs hr

theorem localOrder (hlocal : L.hostOf s = L.hostOf r) : LocalOrder L x s r := by
  have hcredit : L.Counted (.credit s r) := counted_of_fits ⟨hr, hlocal⟩ rfl
  have hacknowledge : L.Counted (.acknowledge s r) := counted_of_fits ⟨hs, hlocal⟩ rfl
  refine ⟨hx.mark_le_mark hcredit (counted_of_fits hr rfl) rfl ?_, mark_le_rounds,
    rounds_le_mark hcredit, hx.mark_le_mark hacknowledge (counted_of_fits hs rfl) rfl ?_,
    mark_le_rounds, rounds_le_mark hacknowledge⟩
  all_goals simp [key, cons_lt_cons_iff]

theorem remoteOrder (hremote : L.hostOf s ≠ L.hostOf r) : RemoteOrder L x s r := by
  have harrive : L.Counted (.arrive s) := counted_of_fits (nWorkers_ne_size hr hremote) rfl
  have hcollect : L.Counted (.collect s r) := counted_of_fits ⟨hs, hr, hremote⟩ rfl
  have hdeliver : L.Counted (.deliver s r) := counted_of_fits ⟨hs, hr, hremote⟩ rfl
  have hcreditAll : L.Counted (.creditAll (L.hostOf s) r) := counted_of_fits ⟨hr, hremote⟩ rfl
  have hawait : L.Counted (.await s r) := counted_of_fits ⟨hs, hr, hremote⟩ rfl
  have hrelease : L.Counted (.release s) := counted_of_fits hs rfl
  have hnotify : L.Counted (.notify s r) := counted_of_fits ⟨hs, hremote⟩ rfl
  refine ⟨hx.mark_le_mark harrive (counted_of_fits hr rfl) rfl ?_, mark_le_rounds,
    rounds_le_mark harrive, hx.mark_le_mark hrelease hawait rfl ?_,
    hx.mark_le_mark hawait hcreditAll rfl ?_, hx.mark_le_mark hcreditAll hdeliver rfl ?_,
    hx.mark_le_mark hdeliver hcollect rfl ?_, mark_le_rounds, rounds_le_mark hrelease,
    hx.mark_le_mark hnotify (counted_of_fits hs rfl) rfl ?_, mark_le_rounds,
    rounds_le_mark hnotify⟩
  all_goals simp [key, cons_lt_cons_iff]

end Shape

end Feldera.Exchange
