import Feldera.Exchange.FairRun

/-!
Fair runs of an exchange exist for every layout: all workers, tasks and callbacks take turns.
-/

namespace Feldera.Exchange

variable {T : Type*} (L : Layout) (data : ℕ → ℕ → ℕ → T)

def rota : List (State T → Action) :=
  (List.range L.nWorkers).map (fun w x => .step (due x w)) ++
    L.hosts.map (fun h _ => .step (.task h)) ++
    (List.range L.nWorkers).map (fun w _ => .callback (.sender w)) ++
    (List.range L.nWorkers).map fun w _ => .callback (.receiver w)

def turn (n : ℕ) (x : State T) : Action :=
  match (rota L)[n % (rota (T := T) L).length]? with
  | some choice => choice x
  | none => .step (.task 0)

def roundRobin : ℕ → State T
  | 0 => State.new L
  | n + 1 =>
    match next L data (roundRobin n) (turn L n (roundRobin n)) with
    | .ok x => x
    | .error _ => roundRobin n

variable {L data}

theorem roundRobin_step (n : ℕ) :
    Inv L data (roundRobin L data n) ∧ (∀ p ∈ (roundRobin L data n).owed, L.IsParty p) ∧
      next L data (roundRobin L data n) (turn L n (roundRobin L data n)) =
        .ok (roundRobin L data (n + 1)) := by
  have hstep : ∀ n, Inv L data (roundRobin L data n) →
      next L data (roundRobin L data n) (turn L n (roundRobin L data n)) =
        .ok (roundRobin L data (n + 1)) := by
    intro n hx
    obtain ⟨x', hnext, _⟩ := hx.next (turn L n (roundRobin L data n))
    rw [hnext, roundRobin]
    simp only [hnext]
  induction n with
  | zero => exact ⟨inv_new, nofun, hstep 0 inv_new⟩
  | succ n ih =>
    obtain ⟨hx, howed, hnext⟩ := ih
    have hx' : Inv L data (roundRobin L data (n + 1)) := by
      obtain ⟨x', heq, hx'⟩ := hx.next (turn L n (roundRobin L data n))
      rw [hnext] at heq
      rwa [Except.ok.inj heq]
    refine ⟨hx', ?_, hstep (n + 1) hx'⟩
    intro p hp
    cases hturn : turn L n (roundRobin L data n) with
    | step t =>
      rw [hturn] at hnext
      rcases hx.step_announced hnext with ⟨heq, _⟩ | ⟨q, hq, heq, _⟩
      · rw [heq] at hp
        exact howed p hp
      · rw [heq] at hp
        rcases List.mem_cons.mp hp with rfl | hp
        · exact hq
        · exact howed p hp
    | callback q =>
      rw [hturn] at hnext
      rcases next_callback hnext with heq | heq
      · rw [heq] at hp
        exact howed p (List.mem_of_mem_erase hp)
      · rw [heq] at hp
        exact howed p hp

/-- Everyone's turn comes again. -/
theorem exists_turn {choice : State T → Action} (hmem : choice ∈ rota L) (n : ℕ) :
    ∃ m ≥ n, ∀ x, turn L m x = choice x := by
  obtain ⟨j, hj, heq⟩ := List.mem_iff_getElem.mp hmem
  have hpos : 0 < (rota (T := T) L).length := Nat.zero_lt_of_lt hj
  refine ⟨n * (rota (T := T) L).length + j, ?_, ?_⟩
  · have hle := Nat.le_mul_of_pos_right n hpos
    omega
  intro x
  have hmod : (n * (rota (T := T) L).length + j) % (rota (T := T) L).length = j := by
    rw [Nat.add_comm, Nat.add_mul_mod_self_right, Nat.mod_eq_of_lt hj]
  unfold turn
  rw [hmod, List.getElem?_eq_getElem hj, heq]

def fairRoundRobin : FairRun L data where
  state := roundRobin L data
  action n := turn L n (roundRobin L data n)
  start := rfl
  step n := (roundRobin_step n).2.2
  workers := by
    intro w hw n
    have hmem : (fun x : State T => Action.step (due x w)) ∈ rota L := by
      simp only [rota, List.mem_append, List.mem_map, List.mem_range]
      exact .inl (.inl (.inl ⟨w, hw, rfl⟩))
    obtain ⟨m, hm, hturn⟩ := exists_turn hmem n
    exact ⟨m, hm, hturn _⟩
  tasks := by
    intro h hh n
    have hmem : (fun _ : State T => Action.step (.task h)) ∈ rota L := by
      simp only [rota, List.mem_append, List.mem_map]
      exact .inl (.inl (.inr ⟨h, hh, rfl⟩))
    obtain ⟨m, hm, hturn⟩ := exists_turn hmem n
    exact ⟨m, hm, hturn _⟩
  callbacks := by
    intro n p hp
    have hparty := (roundRobin_step n).2.1 p hp
    have hmem : (fun _ : State T => Action.callback p) ∈ rota L := by
      simp only [rota, List.mem_append, List.mem_map, List.mem_range]
      cases p with
      | sender w => exact .inl (.inr ⟨w, hparty, rfl⟩)
      | receiver w => exact .inr ⟨w, hparty, rfl⟩
    obtain ⟨m, hm, hturn⟩ := exists_turn hmem n
    exact ⟨m, hm, hturn _⟩

end Feldera.Exchange
