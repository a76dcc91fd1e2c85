import Feldera.Trace.Cursor

/-!
Looking up keys. An operator walks through the keys of one batch and looks each of them up in
another one with `seek_key_exact`; the keys do not decrease. Whatever `seek_key_exact` leaves
behind, a lawful cursor is then `Ready` for the next key, and at a key that it finds it shows the
values of that key.
-/

namespace Feldera.Trace

open OrderedSum List

variable {σ K V R : Type*} [LinearOrder K]

/-- What is left of entries from the last sought key on. -/
def since (last : Option K) (l : Entries K V R) : Entries K V R :=
  match last with
  | none => l
  | some k => l.dropWhile fun q => decide (q.1 < k)

theorem since_dropWhile {last : Option K} {key : K} (h : ∀ k ∈ last, k ≤ key)
    (l : Entries K V R) :
    (since last l).dropWhile (fun q => decide (q.1 < key)) = since (some key) l := by
  cases last with
  | none => rfl
  | some k => exact dropWhile_lt_dropWhile_lt (h k rfl) l

variable {l : Entries K V R} {q : K × List (V × R)}

theorem head_since_of_mem (hl : Ordered Direction.forward.lt l) (hq : q ∈ l) :
    (since (some q.1) l).head? = some q := by
  induction l with
  | nil => exact absurd hq not_mem_nil
  | cons p l ih =>
    obtain ⟨hp, hl⟩ := pairwise_cons.mp hl
    rcases mem_cons.mp hq with rfl | hq
    · simp [since]
    · have hlt : p.1 < q.1 := hp q hq
      rw [since, dropWhile_cons_of_pos (by simpa using hlt)]
      exact ih hl hq

theorem mem_of_head_since {k : K} (hq : (since (some k) l).head? = some q) : q ∈ l :=
  (dropWhile_sublist _).subset (mem_of_head? hq)

theorem head_since_cases (hl : Ordered Direction.forward.lt l) (k : K) :
    (∃ vals, (k, vals) ∈ l ∧ (since (some k) l).head? = some (k, vals)) ∨
      k ∉ l.map Prod.fst ∧ (since (some k) l).head?.map Prod.fst ≠ some k := by
  by_cases hk : k ∈ l.map Prod.fst
  · obtain ⟨q, hq, rfl⟩ := mem_map.mp hk
    exact .inl ⟨q.2, hq, head_since_of_mem hl hq⟩
  · refine .inr ⟨hk, fun hhead => ?_⟩
    obtain ⟨q, hq, rfl⟩ := Option.map_eq_some_iff.mp hhead
    exact hk (mem_map_of_mem (mem_of_head_since hq))

section

variable [LinearOrder V] [AddCommMonoid R] {C : Cursor σ K V R} {S : Stance σ K V R}
  {entries : Entries K V R} {last : Option K} {s : σ} {p : Place K V R}

/-- Every key from the last one on may be sought. -/
def Ready (S : Stance σ K V R) (entries : Entries K V R) (last : Option K) (s : σ) : Prop :=
  ∀ key, (∀ k ∈ last, k ≤ key) → ∃ k ≤ key, ∃ p : Place K V R, p.keyDir = .forward ∧
    S.near k p s ∧ (p.rest.dropWhile fun q => decide (q.1 < key)) = since (some key) entries

variable (hC : C.Lawful entries S)
include hC

theorem ready_of_firm (hdir : p.keyDir = .forward) (hrest : p.rest = entries) (hp : S.firm p s)
    : Ready S entries none s := by
  intro key _
  exact ⟨key, le_rfl, p, hdir, hC.near_of_firm key hp hdir, by rw [hrest]; rfl⟩

theorem ready_of_loose {k : K} (hdir : p.keyDir = .forward)
    (hrest : p.rest = since (some k) entries) (hkey : p.key = some k) (hp : S.loose p s) :
    Ready S entries (some k) s := by
  intro key hk
  refine ⟨k, hk k rfl, p, hdir, hC.near_of_loose hp hdir k hkey, ?_⟩
  rw [hrest]
  exact since_dropWhile hk entries

/-- A lookup: whether the key is there, and where the cursor is then. -/
theorem Cursor.Lawful.lookup (hentries : Ordered Direction.forward.lt entries)
    (hs : Ready S entries last s) {key : K} (hkey : ∀ k ∈ last, k ≤ key) (hable : S.able s key)
    :
    Ready S entries (some key) (C.seekKeyExact key s).1 ∧
      ((∃ vals, (key, vals) ∈ entries ∧ (since (some key) entries).head? = some (key, vals) ∧
          (C.seekKeyExact key s).2 = true ∧
          S.loose (.enter .forward (since (some key) entries)) (C.seekKeyExact key s).1) ∨
        key ∉ entries.map Prod.fst ∧ (C.seekKeyExact key s).2 = false) := by
  obtain ⟨k, hk, p, hdir, hnear, hrest⟩ := hs key hkey
  have hseek : p.seekKey key = .enter .forward (since (some key) entries) := by
    rw [Place.seekKey_of_forward hdir, hrest]
  obtain ⟨hanswer, hfound, hnear'⟩ := hC.near_exact hnear hk hable
  rw [hseek] at hanswer hfound
  constructor
  · intro key' hkey'
    refine ⟨key, hkey' key rfl, p, hdir, hnear', ?_⟩
    rw [← dropWhile_lt_dropWhile_lt (hkey' key rfl), hrest]
    exact since_dropWhile hkey' entries
  · rcases head_since_cases hentries key with ⟨vals, hmem, hhead⟩ | ⟨hmem, hhead⟩
    · have htrue : (C.seekKeyExact key s).2 = true := by
        rw [hanswer, Place.key, Place.enter, hhead]
        exact decide_eq_true rfl
      exact .inl ⟨vals, hmem, hhead, htrue, (hfound htrue).1⟩
    · exact .inr ⟨hmem, hanswer.trans (decide_eq_false hhead)⟩

/-- A lookup of a value: its weight, and where the cursor is then. -/
theorem Cursor.Lawful.lookupVal (hp : S.loose p s) (hdir : p.valDir = .forward)
    (hne : p.rest ≠ []) (hvals : Weighted.Consolidated p.vals) (v : V) :
    S.loose { p with vals := p.vals.dropWhile fun q => decide (q.1 < v) }
        (C.seekVal .forward v s) ∧
      (if C.getVal (C.seekVal .forward v s) = some v then C.weight (C.seekVal .forward v s)
        else 0) = Weighted.weight p.vals v := by
  have hseek : S.loose { p with vals := p.vals.dropWhile fun q => decide (q.1 < v) }
      (C.seekVal .forward v s) := by
    obtain ⟨keyDir, rest, valDir, vals⟩ := p
    obtain rfl : valDir = .forward := hdir
    exact hC.apply_loose (.seekVal .forward v) hp rfl trivial
  refine ⟨hseek, ?_⟩
  have hget := hC.getVal hseek hne
  rcases hvals.seek v with ⟨w, rest, hdrop, hw⟩ | ⟨hhead, hzero⟩
  · have hweight := hC.weight hseek hne (v, w) (by simp [hdrop])
    rw [if_pos (by rw [hget, hdrop]; rfl), hweight, hw]
  · rw [if_neg (by rw [hget]; exact hhead), hzero]

end

end Feldera.Trace
