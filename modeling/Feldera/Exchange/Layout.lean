import Mathlib.Data.List.GetD
import Mathlib.Tactic

/-!
`Layout`. The workers of a circuit run on one or more hosts. They are numbered through: every host
has a range of them, in the order of the hosts, which is the same on all hosts. With one host the
layout is `Solo`.
-/

namespace Feldera.Exchange

open List

/-- The number of workers of every host. Both constructors of the source assert that there is at least
one on each. -/
structure Layout where
  sizes : List ℕ
  sizes_pos : ∀ n ∈ sizes, 0 < n

/-- The host that a worker is on, counted from the first host of a list. -/
def hostIn : List ℕ → ℕ → ℕ
  | [], _ => 0
  | n :: sizes, w => if w < n then 0 else hostIn sizes (w - n) + 1

theorem hostIn_iff {sizes : List ℕ} {w h : ℕ} :
    (sizes.take h).sum ≤ w ∧ w < (sizes.take h).sum + sizes.getD h 0 ↔
      w < sizes.sum ∧ hostIn sizes w = h := by
  induction sizes generalizing w h with
  | nil => simp
  | cons n sizes ih =>
    cases h with
    | zero =>
      unfold hostIn
      by_cases hw : w < n
      · simp [hw]
        omega
      · simp [hw]
    | succ h =>
      unfold hostIn
      by_cases hw : w < n
      · simp [hw]
        omega
      · have htail := @ih (w - n) h
        simp only [take_succ_cons, sum_cons, getD_cons_succ, if_neg hw,
          Nat.add_right_cancel_iff]
        omega

namespace Layout

variable (L : Layout)

/-- `n_workers`, the `npeers` of an exchange. -/
def nWorkers : ℕ := L.sizes.sum

def hosts : List ℕ := List.range L.sizes.length

variable (host : ℕ)

def start : ℕ := (L.sizes.take host).sum

def size : ℕ := L.sizes.getD host 0

def localWorkers : List ℕ := List.range' (L.start host) (L.size host)

def otherHosts : List ℕ := L.hosts.filter fun other => other != host

def hostOf (worker : ℕ) : ℕ := hostIn L.sizes worker

variable {L} {h g w : ℕ}

theorem mem_localWorkers : w ∈ L.localWorkers h ↔ w < L.nWorkers ∧ L.hostOf w = h := by
  rw [localWorkers, mem_range'_1]
  exact hostIn_iff

theorem hostOf_eq (hw : w ∈ L.localWorkers h) : L.hostOf w = h :=
  (mem_localWorkers.mp hw).2

theorem mem_localWorkers_hostOf (hw : w < L.nWorkers) : w ∈ L.localWorkers (L.hostOf w) :=
  mem_localWorkers.mpr ⟨hw, rfl⟩

theorem nodup_localWorkers : (L.localWorkers h).Nodup := nodup_range'

@[simp] theorem length_localWorkers : (L.localWorkers h).length = L.size h := length_range'

theorem mem_hosts : h ∈ L.hosts ↔ h < L.sizes.length := mem_range

theorem size_pos (hh : h ∈ L.hosts) : 0 < L.size h := by
  have hlt := mem_hosts.mp hh
  rw [size, getD_eq_getElem _ _ hlt]
  exact L.sizes_pos _ (getElem_mem hlt)

theorem hostOf_mem_hosts (hw : w < L.nWorkers) : L.hostOf w ∈ L.hosts := by
  rw [mem_hosts]
  by_contra hnot
  have hlocal := (mem_range'_1.mp (mem_localWorkers_hostOf hw)).2
  have hstart := (mem_range'_1.mp (mem_localWorkers_hostOf hw)).1
  rw [size, getD_eq_default _ _ (by omega)] at hlocal
  omega

theorem exists_localWorker (hh : h ∈ L.hosts) : ∃ w, w ∈ L.localWorkers h := by
  have hpos : 0 < (L.localWorkers h).length := by
    rw [length_localWorkers]
    exact size_pos hh
  exact exists_mem_of_length_pos hpos

theorem mem_otherHosts : g ∈ L.otherHosts h ↔ g ∈ L.hosts ∧ g ≠ h := by
  simp [otherHosts]

theorem pairwise_otherHosts : (L.otherHosts h).Pairwise (· < ·) :=
  pairwise_lt_range.filter _

theorem countP_hostOf : (List.range L.nWorkers).countP (fun w => L.hostOf w == h) = L.size h := by
  rw [countP_eq_length_filter, ← length_localWorkers]
  refine List.Perm.length_eq ?_
  rw [perm_ext_iff_of_nodup (nodup_range.filter _) nodup_localWorkers]
  intro w
  rw [mem_localWorkers, mem_filter, mem_range, beq_iff_eq]

theorem countP_hostOf_ne :
    (List.range L.nWorkers).countP (fun w => L.hostOf w != h) = L.nWorkers - L.size h := by
  have htotal := length_eq_countP_add_countP (l := List.range L.nWorkers)
    fun w => L.hostOf w == h
  rw [countP_hostOf, length_range] at htotal
  have hnot : (List.range L.nWorkers).countP (fun w => L.hostOf w != h) =
      (List.range L.nWorkers).countP (fun w => decide ¬ (L.hostOf w == h) = true) :=
    countP_congr fun w _ => by simp
  omega

theorem size_le_nWorkers : L.size h ≤ L.nWorkers := by
  have hcount := countP_le_length (p := fun w => L.hostOf w == h) (l := List.range L.nWorkers)
  rwa [countP_hostOf, length_range] at hcount

end Layout

end Feldera.Exchange
