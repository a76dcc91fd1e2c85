import Feldera.Exchange.Protocol

/-!
The programs of the threads of an exchange: what instructions they consist of, whose they are, and in
what order they stand, which is the order of their keys.
-/

namespace Feldera.Exchange

open List

namespace Layout

variable (L : Layout)

def owner : Instr → Thread
  | .write s _ | .credit s _ | .arrive s | .reset s | .spawn s => .sender s
  | .collect s _ | .deliver s _ | .await s _ | .release s => .task (L.hostOf s)
  | .creditAll h _ => .task h
  | .pick _ r | .acknowledge _ r | .notify _ r => .receiver r

def key : Instr → List ℕ
  | .write _ r => [0, r, 0]
  | .credit _ r => [0, r, 1]
  | .arrive _ => [1]
  | .reset _ => [2]
  | .spawn _ => [3]
  | .collect s r => [0, L.hostOf r, s, r]
  | .deliver s r => [1, L.hostOf r, 0, s, r]
  | .creditAll _ r => [1, L.hostOf r, 1, r]
  | .await s r => [1, L.hostOf r, 2, s, r]
  | .release s => [2, s]
  | .pick s _ => [s, 0]
  | .acknowledge s _ | .notify s _ => [s, 1]

/-- The instructions that there are for the workers and hosts of a layout. -/
def Fits : Instr → Prop
  | .write _ r => r < L.nWorkers
  | .credit s r => r < L.nWorkers ∧ L.hostOf s = L.hostOf r
  | .arrive s | .reset s | .spawn s => L.nWorkers ≠ L.size (L.hostOf s)
  | .collect s r | .deliver s r | .await s r =>
    s < L.nWorkers ∧ r < L.nWorkers ∧ L.hostOf s ≠ L.hostOf r
  | .creditAll h r => r < L.nWorkers ∧ h ≠ L.hostOf r
  | .release s | .pick s _ => s < L.nWorkers
  | .acknowledge s r => s < L.nWorkers ∧ L.hostOf s = L.hostOf r
  | .notify s r => s < L.nWorkers ∧ L.hostOf s ≠ L.hostOf r

variable {L} {s r h g : ℕ} {t : Thread} {i : Instr}

attribute [local simp] key cons_lt_cons_iff

theorem pairwise_sendProgram : (L.sendProgram s).Pairwise fun i j => L.key i < L.key j := by
  rw [sendProgram, pairwise_append, pairwise_flatMap]
  refine ⟨⟨?_, ?_⟩, ?_, ?_⟩
  · intro r _
    split <;> simp
  · refine pairwise_lt_range.imp ?_
    intro r r' hlt
    split <;> split <;> simp [hlt]
  · split <;> simp
  intro i hi j hj
  obtain ⟨r, -, hi⟩ := mem_flatMap.mp hi
  have hfirst : ∃ l, L.key i = 0 :: l := by
    split at hi
    · rcases mem_pair.mp hi with rfl | rfl <;> exact ⟨_, rfl⟩
    · rw [mem_singleton.mp hi]
      exact ⟨_, rfl⟩
  have hsecond : ∃ d l, L.key j = (d + 1) :: l := by
    split at hj
    · cases hj
    · simp only [mem_cons, not_mem_nil, or_false] at hj
      rcases hj with rfl | rfl | rfl <;> exact ⟨_, _, rfl⟩
  obtain ⟨l, hi⟩ := hfirst
  obtain ⟨d, l', hj⟩ := hsecond
  rw [hi, hj, cons_lt_cons_iff]
  exact .inl (Nat.succ_pos d)

theorem pairwise_receiveProgram : (L.receiveProgram r).Pairwise fun i j => L.key i < L.key j := by
  rw [receiveProgram, pairwise_flatMap]
  constructor
  · intro s _
    split <;> simp
  · refine pairwise_lt_range.imp ?_
    intro s s' hlt
    split <;> split <;> simp [hlt]

theorem pairwise_lt_localWorkers : (L.localWorkers h).Pairwise (· < ·) :=
  pairwise_lt_range'

variable {f : ℕ → ℕ → Instr}

/-- A sender by sender, receiver by receiver list of instructions. -/
theorem pairwise_table {k : ℕ → List ℕ} (hkey : ∀ s r, L.key (f s r) = k (L.hostOf r) ++ [s, r])
    :
    ((L.localWorkers h).flatMap fun s => (L.localWorkers g).map (f s)).Pairwise
      fun i j => L.key i < L.key j := by
  have happend : ∀ (l a b : List ℕ), a < b → l ++ a < l ++ b := by
    intro l a b hlt
    induction l with
    | nil => exact hlt
    | cons c l ih => exact cons_lt_cons_iff.mpr (.inr ⟨rfl, ih⟩)
  rw [pairwise_flatMap]
  constructor
  · intro s _
    rw [pairwise_map]
    refine (pairwise_lt_localWorkers.imp_of_mem ?_)
    intro r r' hr hr' hlt
    rw [hkey, hkey, hostOf_eq hr, hostOf_eq hr']
    apply happend
    simp [hlt]
  · refine pairwise_lt_localWorkers.imp ?_
    intro s s' hlt i hi j hj
    obtain ⟨r, hr, rfl⟩ := mem_map.mp hi
    obtain ⟨r', hr', rfl⟩ := mem_map.mp hj
    rw [hkey, hkey, hostOf_eq hr, hostOf_eq hr']
    apply happend
    simp [hlt]

theorem mem_table :
    i ∈ ((L.localWorkers h).flatMap fun s => (L.localWorkers g).map (f s)) ↔
      ∃ s ∈ L.localWorkers h, ∃ r ∈ L.localWorkers g, f s r = i := by
  simp only [mem_flatMap, mem_map]

theorem mem_received : i ∈ L.received h g ↔
    (∃ s ∈ L.localWorkers h, ∃ r ∈ L.localWorkers g, .deliver s r = i) ∨
      (∃ r ∈ L.localWorkers g, .creditAll h r = i) ∨
      ∃ s ∈ L.localWorkers h, ∃ r ∈ L.localWorkers g, .await s r = i := by
  rw [received, mem_append, mem_append, mem_table, mem_table, mem_map, or_assoc]

theorem key_of_mem_received (hi : i ∈ L.received h g) : ∃ l, L.key i = 1 :: g :: l := by
  rcases mem_received.mp hi with ⟨s, _, r, hr, rfl⟩ | ⟨r, hr, rfl⟩ | ⟨s, _, r, hr, rfl⟩ <;>
    exact ⟨_, by rw [key, hostOf_eq hr]⟩

theorem pairwise_received : (L.received h g).Pairwise fun i j => L.key i < L.key j := by
  have hcredit : ((L.localWorkers g).map (Instr.creditAll h)).Pairwise
      fun i j => L.key i < L.key j := by
    rw [pairwise_map]
    refine pairwise_lt_localWorkers.imp_of_mem ?_
    intro r r' hr hr' hlt
    rw [key, key, hostOf_eq hr, hostOf_eq hr']
    simp [hlt]
  rw [received, pairwise_append, pairwise_append]
  refine ⟨⟨pairwise_table (k := fun g => [1, g, 0]) fun s r => rfl, hcredit, ?_⟩,
    pairwise_table (k := fun g => [1, g, 2]) fun s r => rfl, ?_⟩
  · intro i hi j hj
    obtain ⟨s, _, r, hr, rfl⟩ := mem_table.mp hi
    obtain ⟨r', hr', rfl⟩ := mem_map.mp hj
    rw [key, key, hostOf_eq hr, hostOf_eq hr']
    simp
  · intro i hi j hj
    obtain ⟨s', _, r', hr', rfl⟩ := mem_table.mp hj
    rcases mem_append.mp hi with hi | hi
    · obtain ⟨s, _, r, hr, rfl⟩ := mem_table.mp hi
      rw [key, key, hostOf_eq hr, hostOf_eq hr']
      simp
    · obtain ⟨r, hr, rfl⟩ := mem_map.mp hi
      rw [key, key, hostOf_eq hr, hostOf_eq hr']
      simp

theorem mem_collects : (i ∈ (L.otherHosts h).flatMap fun g =>
      (L.localWorkers h).flatMap fun s => (L.localWorkers g).map (.collect s)) ↔
    ∃ g ∈ L.otherHosts h, ∃ s ∈ L.localWorkers h, ∃ r ∈ L.localWorkers g, .collect s r = i := by
  simp only [mem_flatMap, mem_map]

theorem pairwise_taskProgram : (L.taskProgram h).Pairwise fun i j => L.key i < L.key j := by
  rw [taskProgram, pairwise_append, pairwise_append, pairwise_flatMap,
    pairwise_flatMap, pairwise_map]
  refine ⟨⟨⟨?_, ?_⟩, ⟨?_, ?_⟩, ?_⟩, ?_, ?_⟩
  · intro g _
    exact pairwise_table (k := fun g => [0, g]) fun s r => rfl
  · refine pairwise_otherHosts.imp ?_
    intro g g' hlt i hi j hj
    obtain ⟨s, _, r, hr, rfl⟩ := mem_table.mp hi
    obtain ⟨s', _, r', hr', rfl⟩ := mem_table.mp hj
    rw [key, key, hostOf_eq hr, hostOf_eq hr']
    simp [hlt]
  · intro g _
    exact pairwise_received
  · refine pairwise_otherHosts.imp ?_
    intro g g' hlt i hi j hj
    obtain ⟨l, hi⟩ := key_of_mem_received hi
    obtain ⟨l', hj⟩ := key_of_mem_received hj
    rw [hi, hj]
    simp [hlt]
  · intro i hi j hj
    obtain ⟨g, _, s, _, r, _, rfl⟩ := mem_collects.mp hi
    obtain ⟨g, _, hj⟩ := mem_flatMap.mp hj
    obtain ⟨l, hj⟩ := key_of_mem_received hj
    rw [hj]
    simp
  · refine pairwise_lt_localWorkers.imp ?_
    intro s s' hlt
    simp [hlt]
  · intro i hi j hj
    obtain ⟨s', _, rfl⟩ := mem_map.mp hj
    rcases mem_append.mp hi with hi | hi
    · obtain ⟨g, _, s, _, r, _, rfl⟩ := mem_collects.mp hi
      simp
    · obtain ⟨g, _, hi⟩ := mem_flatMap.mp hi
      obtain ⟨l, hi⟩ := key_of_mem_received hi
      rw [hi]
      simp

theorem pairwise_program : (L.program t).Pairwise fun i j => L.key i < L.key j := by
  cases t with
  | sender w => exact pairwise_sendProgram
  | receiver w => exact pairwise_receiveProgram
  | task h => exact pairwise_taskProgram

theorem mem_sendProgram : i ∈ L.sendProgram s ↔ L.owner i = .sender s ∧ L.Fits i := by
  rw [sendProgram, mem_append, mem_flatMap, length_localWorkers]
  simp only [mem_range, mem_localWorkers]
  cases i <;> simp [owner, Fits] <;> grind

theorem mem_receiveProgram : i ∈ L.receiveProgram r ↔ L.owner i = .receiver r ∧ L.Fits i := by
  rw [receiveProgram, mem_flatMap]
  simp only [mem_range, mem_localWorkers, mem_pair]
  cases i <;> simp [owner, Fits] <;> grind

theorem mem_taskProgram : i ∈ L.taskProgram h ↔ L.owner i = .task h ∧ L.Fits i := by
  simp only [taskProgram, mem_append, mem_flatMap, mem_received, mem_map,
    mem_otherHosts, mem_localWorkers]
  cases i <;> simp [owner, Fits] <;> grind [hostOf_mem_hosts]

/-- A program consists of all instructions that its thread executes. -/
theorem mem_program : i ∈ L.program t ↔ L.owner i = t ∧ L.Fits i := by
  cases t with
  | sender w => exact mem_sendProgram
  | receiver w => exact mem_receiveProgram
  | task h => exact mem_taskProgram

end Layout

end Feldera.Exchange
