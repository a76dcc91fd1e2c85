import Feldera.Exchange.Deadlock

/-!
The work that an exchange has done is the number of steps that its threads have made. A step of a
productive thread adds to it and any other step changes nothing but the callbacks. As long as some
receiver has not completed a given number of rounds, the work is bounded.
-/

namespace Feldera.Exchange

open Rounds State List Function

variable {T : Type*} {L : Layout} {data : ℕ → ℕ → ℕ → T} {x x' : State T} {t u : Thread} {i : Instr}
  {rest : List Instr} {s r h n : ℕ}

namespace Layout

def threads (L : Layout) : List Thread :=
  (List.range L.nWorkers).map .sender ++ (List.range L.nWorkers).map .receiver ++ L.hosts.map .task

end Layout

def pace (L : Layout) (x : State T) (t : Thread) : ℕ :=
  x.rounds t * ((L.program t).length + 1) - (x.rest t).length

def work (L : Layout) (x : State T) : ℕ := (L.threads.map (pace L x)).sum

namespace Shape

variable (hx : Shape L x)
include hx

theorem length_rest_le : (x.rest t).length ≤ x.rounds t * ((L.program t).length + 1) := by
  by_cases hne : x.rest t = []
  · rw [hne]
    exact Nat.zero_le _
  · have hpos := hx.started t hne
    have hle := (hx.rest t).length_le
    calc (x.rest t).length ≤ 1 * ((L.program t).length + 1) := by omega
      _ ≤ x.rounds t * ((L.program t).length + 1) := Nat.mul_le_mul_right _ hpos

theorem pace_lt_of_rest (hrounds : x'.rounds t = x.rounds t)
    (hlt : (x'.rest t).length < (x.rest t).length) : pace L x t < pace L x' t := by
  have hle := hx.length_rest_le (t := t)
  unfold pace
  rw [hrounds]
  omega

omit hx in
theorem pace_lt_of_begin (hrest : x.rest t = []) (hrounds : x'.rounds t = x.rounds t + 1)
    (hrest' : x'.rest t = L.program t) : pace L x t < pace L x' t := by
  unfold pace
  rw [hrest, hrounds, hrest', Nat.succ_mul]
  omega

/-- A thread that is not at the beginning is one of the layout. -/
theorem mem_threads (hrest : x.rest t = i :: rest) : t ∈ L.threads := by
  have hpos := hx.pos hrest
  simp only [Layout.threads, mem_append, mem_map, mem_range]
  cases t with
  | sender w => exact .inl (.inl ⟨w, hx.sender_lt w hpos, rfl⟩)
  | receiver w => exact .inl (.inr ⟨w, hx.receiver_lt w hpos, rfl⟩)
  | task h => exact .inr ⟨h, (hx.task_mem h hpos).1, rfl⟩

end Shape

theorem pace_congr (hrounds : x'.rounds t = x.rounds t) (hrest : x'.rest t = x.rest t) :
    pace L x' t = pace L x t := by
  unfold pace
  rw [hrounds, hrest]

structure Grows (L : Layout) (x x' : State T) (t : Thread) : Prop where
  mem : t ∈ L.threads
  le : ∀ u, pace L x u ≤ pace L x' u
  lt : pace L x t < pace L x' t

theorem Grows.work_lt (hgrows : Grows L x x' t) : work L x < work L x' :=
  sum_lt_sum _ _ (fun u _ => hgrows.le u) ⟨t, hgrows.mem, hgrows.lt⟩

theorem grows_of_thread (hmem : t ∈ L.threads) (hlt : pace L x t < pace L x' t)
    (hrounds : ∀ u, u ≠ t → x'.rounds u = x.rounds u)
    (hrest : ∀ u, u ≠ t → x'.rest u = x.rest u) : Grows L x x' t := by
  refine ⟨hmem, ?_, hlt⟩
  intro u
  by_cases hu : u = t
  · subst hu
    exact hlt.le
  · exact (pace_congr (hrounds u hu) (hrest u hu)).ge

namespace Inv

variable (hx : Inv L data x)
include hx

/-- The thread goes on with less than it had left. -/
theorem grows_proceed {rest' : List Instr} (hrest : x.rest t = i :: rest)
    (hlength : rest'.length ≤ rest.length) (hrounds : x'.rounds = x.rounds)
    (hrest' : x'.rest = update x.rest t rest') : Grows L x x' t := by
  have hself : x'.rest t = rest' := by
    rw [hrest', update_self]
  refine grows_of_thread (hx.shape.mem_threads hrest) (hx.shape.pace_lt_of_rest ?_ ?_) ?_ ?_
  · rw [hrounds]
  · rw [hself, hrest, length_cons]
    omega
  · intro u _
    rw [hrounds]
  · intro u hu
    rw [hrest', update_of_ne hu]

theorem grows_spawn (hrest : x.rest t = .spawn s :: rest)
    (hidle : x.rest (.task (L.hostOf s)) = []) :
    Grows L x ((x.proceed t rest).beginRound L (.task (L.hostOf s))) t := by
  obtain rfl : .sender s = t := hx.shape.owner_eq hrest
  have hne : Thread.sender s ≠ .task (L.hostOf s) := nofun
  have hlt : pace L x (.sender s) <
      pace L ((x.proceed (.sender s) rest).beginRound L (.task (L.hostOf s))) (.sender s) := by
    apply hx.shape.pace_lt_of_rest
    · exact beginRound_rounds_of_ne hne
    · rw [beginRound_rest_of_ne hne, proceed_rest_self, hrest, length_cons]
      exact Nat.lt_succ_self _
  refine ⟨hx.shape.mem_threads hrest, ?_, hlt⟩
  intro u
  by_cases hu : u = .sender s
  · subst hu
    exact hlt.le
  by_cases htask : u = .task (L.hostOf s)
  · subst htask
    apply le_of_lt
    apply Shape.pace_lt_of_begin hidle
    · exact beginRound_rounds_self
    · exact update_self ..
  · apply (pace_congr _ _).ge
    · exact beginRound_rounds_of_ne htask
    · rw [beginRound_rest_of_ne htask, proceed_rest_of_ne hu]

theorem exec_grows (hrest : x.rest t = i :: rest) (hexec : x.exec L data t rest i = .ok x')
    (hawait : ∀ s r, i = .await s r → x.notified L (L.hostOf r) s r = true) : Grows L x x' t := by
  cases i with
  | spawn s =>
    simp only [State.exec] at hexec
    split at hexec
    · next hidle =>
      cases hexec
      exact hx.grows_spawn hrest hidle
    · cases hexec
  | arrive s =>
    cases hexec
    refine hx.grows_proceed hrest ?_ rfl rfl
    split
    · exact Nat.zero_le _
    · exact le_rfl
  | await s r =>
    simp only [State.exec, if_pos (hawait s r rfl)] at hexec
    cases hexec
    exact hx.grows_proceed hrest le_rfl rfl rfl
  | collect s r | deliver s r | pick s r =>
    simp only [State.exec] at hexec
    split at hexec <;> cases hexec
    exact hx.grows_proceed hrest le_rfl rfl rfl
  | _ =>
    cases hexec
    exact hx.grows_proceed hrest le_rfl rfl rfl

omit hx in
theorem grows_begin (hmem : t ∈ L.threads) (hrest : x.rest t = [])
    (hrounds : x'.rounds = (x.beginRound L t).rounds) (hrest' : x'.rest = (x.beginRound L t).rest) :
    Grows L x x' t := by
  refine grows_of_thread hmem (Shape.pace_lt_of_begin hrest ?_ ?_) ?_ ?_
  · rw [hrounds, beginRound_rounds_self]
  · rw [hrest']
    exact update_self ..
  · intro u hu
    rw [hrounds, beginRound_rounds_of_ne hu]
  · intro u hu
    rw [hrest', beginRound_rest_of_ne hu]

theorem step_grows (hstep : Exchange.next L data x (.step t) = .ok x') :
    (Productive L x t ∧ Grows L x x' t) ∨ (¬ Productive L x t ∧ x' = x) := by
  simp only [Exchange.next] at hstep
  cases hrest : x.rest t with
  | nil =>
    simp only [hrest, Except.ok.injEq] at hstep
    subst hstep
    cases t with
    | sender w =>
      rw [productive_sender_iff hrest, attempt]
      split
      · next hbegin =>
        refine .inl ⟨hbegin, grows_begin ?_ hrest rfl rfl⟩
        simp [Layout.threads, hbegin.1]
      · next hfails => exact .inr ⟨hfails, rfl⟩
    | receiver w =>
      rw [productive_receiver_iff hrest, attempt]
      split
      · next hbegin =>
        refine .inl ⟨hbegin, grows_begin ?_ hrest rfl rfl⟩
        simp [Layout.threads, hbegin.1]
      · next hfails => exact .inr ⟨hfails, rfl⟩
    | task h => exact .inr ⟨not_productive_task hrest, rfl⟩
  | cons i rest =>
    simp only [hrest] at hstep
    rw [productive_cons_iff hrest]
    by_cases hgo : ∀ s r, i = .await s r → x.notified L (L.hostOf r) s r = true
    · exact .inl ⟨hgo, hx.exec_grows hrest hstep hgo⟩
    refine .inr ⟨hgo, ?_⟩
    push Not at hgo
    obtain ⟨s, r, rfl, hnot⟩ := hgo
    simp only [State.exec, if_neg hnot, Except.ok.injEq] at hstep
    exact hstep.symm

end Inv

def completed (x : State T) (r : ℕ) : ℕ :=
  if x.rest (.receiver r) = [] then x.rounds (.receiver r) else x.rounds (.receiver r) - 1

namespace Inv

variable (hx : Inv L data x)
include hx

/-- No thread is far ahead of a receiver. -/
theorem rounds_le (hr : r < L.nWorkers) (hn : x.rounds (.receiver r) ≤ n) (ht : t ∈ L.threads) :
    x.rounds t ≤ n + 1 := by
  have hsender : ∀ s < L.nWorkers, x.rounds (.sender s) ≤ n + 1 := by
    intro s hs
    by_cases hlocal : L.hostOf s = L.hostOf r
    · have hpair := (hx.localPair s hs r hr hlocal).bounds (hx.shape.localOrder hs hr hlocal)
      omega
    · have hpair := hx.remoteBounds hs hr hlocal
      omega
  simp only [Layout.threads, mem_append, mem_map, mem_range] at ht
  rcases ht with (⟨s, hs, rfl⟩ | ⟨r', hr', rfl⟩) | ⟨h, hh, rfl⟩
  · exact hsender s hs
  · exact (hx.receiver_le_sender hr').trans (hsender r' hr')
  by_cases hpos : 0 < x.rounds (.task h)
  · have hmulti := (hx.shape.task_mem h hpos).2
    obtain ⟨s, hmem⟩ := Layout.exists_localWorker hh
    obtain ⟨hs, rfl⟩ := Layout.mem_localWorkers.mp hmem
    obtain ⟨r', hr', hremote⟩ := Layout.exists_remote hmulti
    have hpair := hx.remoteBounds hs hr' hremote
    have h₄ := hsender s hs
    omega
  · omega

theorem work_le (hr : r < L.nWorkers) (hn : x.rounds (.receiver r) ≤ n) :
    work L x ≤ (L.threads.map fun t => (n + 1) * ((L.program t).length + 1)).sum := by
  apply sum_le_sum
  intro t ht
  have hrounds := Nat.mul_le_mul_right ((L.program t).length + 1) (hx.rounds_le hr hn ht)
  unfold pace
  omega

end Inv

end Feldera.Exchange
