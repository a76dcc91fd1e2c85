import Mathlib.Tactic

/-!
The window functions of SQL: `TUMBLE` gives the start of the window that contains a timestamp, `HOP`
the starts of all windows that do. Times count milliseconds and are assumed to stay within 64 bits.
-/

namespace Feldera.Sql

structure Timestamp where
  milliseconds : ℤ
  deriving DecidableEq

structure ShortInterval where
  milliseconds : ℤ

structure Time where
  nanoseconds : ℕ

/-- `t` rounded by the remainder of the code's division, which has the sign of `t`. -/
def round (t interval : ℤ) : ℤ := t - t.tmod interval

variable (ts : Timestamp)

def tumble (i : ShortInterval) : Timestamp :=
  ⟨round ts.milliseconds i.milliseconds⟩

def tumbleTime (i : ShortInterval) (t : Time) : Timestamp :=
  let offset : ℤ := (t.nanoseconds / 1000000 : ℕ)
  ⟨round (ts.milliseconds - offset) i.milliseconds + offset⟩

def tumbleOffset (i t : ShortInterval) : Timestamp :=
  ⟨round (ts.milliseconds - t.milliseconds) i.milliseconds + t.milliseconds⟩

def hopStart (period size start : ShortInterval) : ℤ :=
  ts.milliseconds - (ts.milliseconds - start.milliseconds).tmod period.milliseconds +
    period.milliseconds - size.milliseconds

/-- The loop of `HOP` from `add` on, which does not end for a period that is not positive. -/
def hopLoop (period size : ShortInterval) (round : ℤ) : ℕ → ℤ → Option (List Timestamp)
  | 0, _ => none
  | fuel + 1, add =>
    if add < size.milliseconds then
      (hopLoop period size round fuel (add + period.milliseconds)).map (⟨round + add⟩ :: ·)
    else some []

def hop (period size start : ShortInterval) (fuel : ℕ) : Option (List Timestamp) :=
  hopLoop period size (hopStart ts period size start) fuel 0

/-- The window of the given size that starts at `s` contains `ts`, and windows start at the offset
and at every multiple of the period from there. -/
def Contains (ts period size offset s : ℤ) : Prop := period ∣ s - offset ∧ s ≤ ts ∧ ts < s + size

variable {ts period size offset s : ℤ}

/-- The remainder rounds down. -/
theorem tmod_bounds (hperiod : 0 < period) (h : offset ≤ ts ∨ period ∣ ts - offset) :
    0 ≤ (ts - offset).tmod period ∧ (ts - offset).tmod period < period ∧
      period ∣ ts - (ts - offset).tmod period - offset := by
  refine ⟨?_, Int.tmod_lt_of_pos _ hperiod, ?_⟩
  · obtain h | h := h
    · exact Int.tmod_nonneg _ (by omega)
    · exact (Int.tmod_eq_zero_of_dvd h).ge
  · rw [sub_right_comm]
    exact Int.dvd_self_sub_tmod

theorem Contains.unique (h : Contains ts period period offset s) {s' : ℤ}
    (h' : Contains ts period period offset s') : s = s' := by
  have hdvd : period ∣ s - s' := by simpa using Int.dvd_sub h.1 h'.1
  have hlt : |s - s'| < period := by
    have := h.2
    have := h'.2
    rw [abs_lt]
    omega
  exact sub_eq_zero.mp (Int.eq_zero_of_abs_lt_dvd hdvd hlt)

theorem contains_round (hperiod : 0 < period) (h : offset ≤ ts ∨ period ∣ ts - offset) :
    Contains ts period period offset (round (ts - offset) period + offset) := by
  obtain ⟨hnonneg, hlt, hdvd⟩ := tmod_bounds hperiod h
  rw [show round (ts - offset) period + offset = ts - (ts - offset).tmod period by
    rw [round]; ring]
  exact ⟨hdvd, by omega, by omega⟩

/-- The loop ends, and has listed the starts from `round + add` on. -/
theorem hopLoop_eq {period size : ShortInterval} (hperiod : 0 < period.milliseconds)
    (round : ℤ) (fuel : ℕ) (add : ℤ) (hfuel : (size.milliseconds - add).toNat < fuel) :
    ∃ l, hopLoop period size round fuel add = some l ∧ ∀ s : Timestamp, s ∈ l ↔
      ∃ k : ℕ, s.milliseconds = round + add + k * period.milliseconds ∧
        add + k * period.milliseconds < size.milliseconds := by
  induction fuel generalizing add with
  | zero => omega
  | succ fuel ih =>
    rw [hopLoop]
    by_cases hadd : add < size.milliseconds
    · obtain ⟨l, hl, hmem⟩ := ih (add + period.milliseconds) (by omega)
      refine ⟨⟨round + add⟩ :: l, by rw [if_pos hadd, hl]; rfl, fun s => ?_⟩
      rw [List.mem_cons, hmem]
      constructor
      · rintro (rfl | ⟨k, hk, hlt⟩)
        · exact ⟨0, by simp, by simpa using hadd⟩
        · exact ⟨k + 1, by rw [hk]; push_cast; ring, by push_cast; linarith⟩
      rintro ⟨k, hk, hlt⟩
      obtain _ | k := k
      · exact .inl (congrArg Timestamp.mk (by simpa using hk))
      · refine .inr ⟨k, by rw [hk]; push_cast; ring, ?_⟩
        push_cast at hlt
        linarith
    · refine ⟨[], if_neg hadd, fun s => ?_⟩
      have hk (k : ℕ) : 0 ≤ k * period.milliseconds := by positivity
      simp only [List.not_mem_nil, false_iff, not_exists, not_and]
      intro k _
      have := hk k
      omega

/-- With a size that is a multiple of the period, the listed starts are those of the windows that
contain the timestamp. -/
theorem contains_iff_exists (hperiod : 0 < period) (h : offset ≤ ts ∨ period ∣ ts - offset)
    (hsize : period ∣ size) :
    Contains ts period size offset s ↔ ∃ k : ℕ,
      s = ts - (ts - offset).tmod period + period - size + 0 + k * period ∧
        0 + k * period < size := by
  obtain ⟨hnonneg, hlt, hdvd⟩ := tmod_bounds hperiod h
  generalize (ts - offset).tmod period = r at *
  obtain ⟨n, rfl⟩ := hsize
  obtain ⟨c, hc⟩ := hdvd
  constructor
  · rintro ⟨⟨d, hd⟩, hle, hlt'⟩
    have hpos : 0 < d - c + n := by
      refine (mul_pos_iff_of_pos_left hperiod).mp ?_
      linarith [mul_add period (d - c) n, mul_sub period d c]
    refine ⟨(d - c + n - 1).toNat, ?_, ?_⟩ <;> rw [Int.toNat_of_nonneg (by omega)] <;> linarith
  · rintro ⟨k, rfl, hk⟩
    have hkn : (k : ℤ) + 1 ≤ n := by
      refine Int.add_one_le_of_lt (lt_of_mul_lt_mul_left ?_ hperiod.le)
      linarith
    have := mul_le_mul_of_nonneg_left hkn hperiod.le
    have : 0 ≤ (k : ℤ) * period := by positivity
    exact ⟨⟨c + 1 - n + k, by linarith⟩, by linarith, by linarith⟩

end Feldera.Sql
