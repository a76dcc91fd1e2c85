import Feldera.Operator.TopK

/-!
The transformer `TopKRank`, for sparse and for dense ranks. It walks through the values of a group
in order and keeps the rank of the last value that it has put out.

The sparse rank of the first value of a rank class is taken after the value's own weight has been
counted, so it is too large unless that weight is one. The dense rank is right.
-/

namespace Feldera.Operator.GroupTransform

open Trace OrderedSum Weighted List

variable {ρ V O : Type*}

structure Ranking (V O : Type*) where
  count : ℤ
  rank : ℤ
  prev : Option V
  out : List (O × ℤ)

section

variable (dense : Bool) (k : Nat) (rankEq : V → V → Bool) (outputFunc : ℤ → V → O)

def Ranking.emit (a : Ranking V O) (rank : ℤ) (key : V) (w : ℤ) : Ranking V O where
  count := a.count + w
  rank := rank
  prev := some key
  out := a.out ++ [(outputFunc rank key, w)]

/-- The rank of the first value of a new rank class: the next one, or the number of rows so far,
those of the value included. -/
def nextRank (rank count w : ℤ) : ℤ :=
  if dense then rank + 1 else count + w

/-- The body of the loop. The loop ends at the first rank above `k`. -/
def rankBody (a : Ranking V O) (key : V) (w : ℤ) : Ranking V O × Bool :=
  if 0 < w then
    match a.prev with
    | none => (a.emit outputFunc a.rank key w, true)
    | some prev =>
      if rankEq key prev then (a.emit outputFunc a.rank key w, true)
      else
        let rank := nextRank dense a.rank a.count w
        if (k : ℤ) < rank then (⟨a.count + w, rank, a.prev, a.out⟩, false)
        else (a.emit outputFunc rank key w, true)
  else (a, true)

variable {dense k rankEq} {a : Ranking V O} {key prev : V} {w : ℤ}

section

variable (hw : 0 < w) (hprev : a.prev = some prev)
include hw hprev

theorem rankBody_same (hsame : rankEq key prev = true) :
    rankBody dense k rankEq outputFunc a key w = (a.emit outputFunc a.rank key w, true) := by
  simp [rankBody, hw, hprev, hsame]

theorem rankBody_fresh (hfresh : rankEq key prev = false)
    (hk : ¬(k : ℤ) < nextRank dense a.rank a.count w) :
    rankBody dense k rankEq outputFunc a key w =
      (a.emit outputFunc (nextRank dense a.rank a.count w) key w, true) := by
  simp [rankBody, hw, hprev, hfresh, hk]

theorem rankBody_stop (hfresh : rankEq key prev = false)
    (hk : (k : ℤ) < nextRank dense a.rank a.count w) :
    rankBody dense k rankEq outputFunc a key w =
      (⟨a.count + w, nextRank dense a.rank a.count w, a.prev, a.out⟩, false) := by
  simp [rankBody, hw, hprev, hfresh, hk]

end

variable (dense k rankEq)

/-- `TopKRank`, `TopKRank::sparse` and `TopKRank::dense`. -/
def topKRank [LinearOrder V] (C : Cursor ρ V Unit ℤ) (limit : Nat) : NonIncremental ρ O where
  monotonicity := .unordered
  transform c :=
    let r := scan C .forward (rankBody dense k rankEq outputFunc) limit (c, ⟨0, 1, none, []⟩)
    (r.2.out, r.1)

def rankRows (l : List (V × ℤ)) : List (O × ℤ) :=
  (scanList (rankBody dense k rankEq outputFunc) ⟨0, 1, none, []⟩ l).out

theorem topKRank_computes [LinearOrder V] [LinearOrder O] (C : Cursor ρ V Unit ℤ) (limit : Nat) :
    (topKRank dense k rankEq outputFunc C limit).Computes C limit
      fun l o => weight (rankRows dense k rankEq outputFunc l) o := by
  intro l S s hC _ hs hlimit
  obtain ⟨hfirm, hout⟩ := scan_spec (rankBody dense k rankEq outputFunc) hC hs hlimit
    ⟨0, 1, none, []⟩
  refine ⟨hfirm, consolidate_consolidated _, fun o => ?_⟩
  exact congrArg (fun a : Ranking V O => weight a.out o) hout

end

section

variable [LinearOrder V] (rankEq : V → V → Bool)

/-- An equality in rank: the values that are equal in rank to one value follow each other. -/
structure GroupsConsecutive : Prop where
  refl : ∀ a, rankEq a a = true
  symm : ∀ {a b}, rankEq a b = true → rankEq b a = true
  trans : ∀ {a b c}, rankEq a b = true → rankEq b c = true → rankEq a c = true
  between : ∀ {a b c}, a ≤ b → b ≤ c → rankEq a c = true → rankEq a b = true

variable (l : List (V × ℤ))

def rankedBefore (v : V) : List (V × ℤ) :=
  l.filter fun u => decide (u.1 < v) && !rankEq u.1 v

def sqlRank (v : V) : ℤ :=
  1 + ((rankedBefore rankEq l v).map Prod.snd).sum

/-- A value leads its rank class, if no smaller value of the group is in the class. -/
def leads (u : V × ℤ) : Bool :=
  l.all fun u' => !(decide (u'.1 < u.1) && rankEq u'.1 u.1)

/-- The dense rank: one plus the number of rank classes before. -/
def denseRank (v : V) : ℤ :=
  1 + (rankedBefore rankEq l v).countP (leads rankEq l)

/-- The values of a group whose rank is at most `k`, with that rank and their weight. -/
def rankedTo (k : Nat) (outputFunc : ℤ → V → O) (R : V → ℤ) (l : List (V × ℤ)) : List (O × ℤ) :=
  (l.filter fun p => decide (R p.1 ≤ k)).map fun p => (outputFunc (R p.1) p.1, p.2)

variable {rankEq} {l pre rest : List (V × ℤ)} {p q : V × ℤ}

section

variable (h : GroupsConsecutive rankEq)
include h

variable {a b : V}

theorem GroupsConsecutive.before_iff_of_rankEq (hlt : a < b) (hrank : rankEq b a = true) (u : V)
    : (u < b ∧ rankEq u b = false) ↔ (u < a ∧ rankEq u a = false) := by
  constructor
  · rintro ⟨hub, hne⟩
    have hna : rankEq u a = false := by
      by_contra heq
      rw [h.trans (by simpa using heq) (h.symm hrank)] at hne
      cases hne
    refine ⟨lt_of_not_ge fun hau => ?_, hna⟩
    rw [h.symm (h.between hau hub.le (h.symm hrank))] at hna
    cases hna
  · rintro ⟨hua, hne⟩
    refine ⟨hua.trans hlt, ?_⟩
    by_contra heq
    rw [h.trans (by simpa using heq) hrank] at hne
    cases hne

theorem GroupsConsecutive.rankEq_false_of_le {u a b : V} (hua : u ≤ a) (hab : a ≤ b)
    (hrank : rankEq b a = false) : rankEq u b = false := by
  by_contra heq
  have hub : rankEq u b = true := by simpa using heq
  have hba : rankEq b a = true := h.trans (h.symm hub) (h.between hua hab hub)
  rw [hrank] at hba
  cases hba

theorem rankedBefore_of_rankEq (hlt : a < b) (hrank : rankEq b a = true) :
    rankedBefore rankEq l b = rankedBefore rankEq l a := by
  refine filter_congr fun u _ => ?_
  have hiff := h.before_iff_of_rankEq hlt hrank u.1
  rw [Bool.eq_iff_iff]
  simpa using hiff

/-- The values before a new rank class are all values so far. -/
theorem rankedBefore_of_new (hl : (pre ++ p :: q :: rest).Pairwise fun a b => a.1 < b.1)
    (hrank : rankEq q.1 p.1 = false) :
    rankedBefore rankEq (pre ++ p :: q :: rest) q.1 = pre ++ [p] := by
  rw [show pre ++ p :: q :: rest = (pre ++ [p]) ++ q :: rest by simp] at hl ⊢
  obtain ⟨hpre, hrest, hcross⟩ := pairwise_append.mp hl
  obtain ⟨-, -, hlast⟩ := pairwise_append.mp hpre
  have hpq : p.1 < q.1 := hcross p (by simp) q mem_cons_self
  rw [rankedBefore, filter_append, filter_eq_self.mpr, filter_eq_nil_iff.mpr,
    append_nil]
  · intro u hu
    have hnot : ¬u.1 < q.1 := by
      rcases mem_cons.mp hu with rfl | hu
      · exact lt_irrefl _
      · exact ((pairwise_cons.mp hrest).1 u hu).asymm
    simp [hnot]
  · intro u hu
    have hle : u.1 ≤ p.1 := by
      rcases mem_append.mp hu with hu | hu
      · exact (hlast u hu p mem_cons_self).le
      · rw [mem_singleton.mp hu]
    simp [hcross u hu q mem_cons_self, h.rankEq_false_of_le hle hpq.le hrank]

end

theorem rankedBefore_head (hl : (p :: rest).Pairwise fun a b => a.1 < b.1) :
    rankedBefore rankEq (p :: rest) p.1 = [] := by
  refine filter_eq_nil_iff.mpr fun u hu => ?_
  have hnot : ¬u.1 < p.1 := by
    rcases mem_cons.mp hu with rfl | hu
    · exact lt_irrefl _
    · exact ((pairwise_cons.mp hl).1 u hu).asymm
  simp [hnot]

variable (h : GroupsConsecutive rankEq)
include h

theorem rankedBefore_sublist {a b : V} (hlt : a < b) :
    (rankedBefore rankEq l a).Sublist (rankedBefore rankEq l b) := by
  refine monotone_filter_right l fun u hu => ?_
  obtain ⟨hua, hne⟩ : u.1 < a ∧ rankEq u.1 a = false := by simpa using hu
  have hub : rankEq u.1 b = false := by
    by_contra heq
    rw [h.between hua.le hlt.le (by simpa using heq)] at hne
    cases hne
  simp [hua.trans hlt, hub]

theorem countP_leads_class (hl : l.Pairwise fun a b => a.1 < b.1) {m : List (V × ℤ)}
    (hm : m <+: l) (hp : p ∈ m) :
    (m.filter fun u => rankEq u.1 p.1).countP (leads rankEq l) = 1 := by
  have hsorted : (m.filter fun u => rankEq u.1 p.1).Pairwise fun a b => a.1 < b.1 :=
    (hl.sublist hm.sublist).filter _
  have hmem : p ∈ m.filter fun u => rankEq u.1 p.1 :=
    mem_filter.mpr ⟨hp, h.refl p.1⟩
  have hclass : ∀ u ∈ m.filter fun u => rankEq u.1 p.1, u ∈ m ∧ rankEq u.1 p.1 = true :=
    fun u hu => mem_filter.mp hu
  cases hcls : m.filter fun u => rankEq u.1 p.1 with
  | nil =>
    rw [hcls] at hmem
    cases hmem
  | cons first others =>
    rw [hcls] at hsorted hclass
    obtain ⟨hfirst, -⟩ := pairwise_cons.mp hsorted
    obtain ⟨hfm, hfp⟩ := hclass first mem_cons_self
    have hlead : leads rankEq l first = true := by
      refine all_eq_true.mpr fun u hu => ?_
      by_contra hbad
      obtain ⟨hlt, heq⟩ : u.1 < first.1 ∧ rankEq u.1 first.1 = true := by simpa using hbad
      -- a smaller value of the class stands in `m` as well, before its first one
      obtain ⟨n, hn⟩ := hm
      have hum : u ∈ m := by
        rw [← hn] at hu hl
        rcases mem_append.mp hu with hu | hu
        · exact hu
        · exact absurd ((pairwise_append.mp hl).2.2 first hfm u hu) hlt.asymm
      have hin : u ∈ first :: others := by
        rw [← hcls]
        exact mem_filter.mpr ⟨hum, h.trans heq hfp⟩
      rcases mem_cons.mp hin with rfl | hin
      · exact lt_irrefl _ hlt
      · exact (hfirst u hin).asymm hlt
    have hothers : others.countP (leads rankEq l) = 0 := by
      refine countP_eq_zero.mpr fun u hu hlead => ?_
      obtain ⟨-, hup⟩ := hclass u (mem_cons_of_mem _ hu)
      have hall := all_eq_true.mp hlead first (hm.subset hfm)
      rw [h.trans hfp (h.symm hup)] at hall
      simp [hfirst u hu] at hall
    rw [countP_cons_of_pos hlead, hothers]

theorem denseRank_of_new (hl : (pre ++ p :: q :: rest).Pairwise fun a b => a.1 < b.1)
    (hrank : rankEq q.1 p.1 = false) :
    denseRank rankEq (pre ++ p :: q :: rest) q.1 =
      denseRank rankEq (pre ++ p :: q :: rest) p.1 + 1 := by
  have hprefix : pre ++ [p] <+: pre ++ p :: q :: rest := ⟨q :: rest, by simp⟩
  have hmem : p ∈ pre ++ [p] := by simp
  have hbefore : rankedBefore rankEq (pre ++ p :: q :: rest) p.1 =
      (pre ++ [p]).filter fun u => !rankEq u.1 p.1 := by
    obtain ⟨-, hrest, hcross⟩ := pairwise_append.mp hl
    have hpre : ∀ u ∈ pre, u.1 < p.1 := fun u hu => hcross u hu p mem_cons_self
    have hafter : ∀ u ∈ p :: q :: rest, ¬u.1 < p.1 := by
      intro u hu
      rcases mem_cons.mp hu with rfl | hu
      · exact lt_irrefl _
      · exact ((pairwise_cons.mp hrest).1 u hu).asymm
    rw [rankedBefore, filter_append, filter_append]
    congr 1
    · exact filter_congr fun u hu => by simp [hpre u hu]
    · rw [filter_eq_nil_iff.mpr fun u hu => by simp [hafter u hu],
        filter_eq_nil_iff.mpr fun u hu => ?_]
      rw [mem_singleton.mp hu, h.refl]
      simp
  have hsplit := countP_eq_countP_filter_add (pre ++ [p])
    (leads rankEq (pre ++ p :: q :: rest)) fun u => rankEq u.1 p.1
  rw [countP_leads_class h hl hprefix hmem] at hsplit
  rw [denseRank, denseRank, rankedBefore_of_new h hl hrank, hbefore, hsplit]
  push_cast
  have hneg : (pre ++ [p]).filter (fun u => !rankEq u.1 p.1) =
      (pre ++ [p]).filter fun u => decide ¬rankEq u.1 p.1 = true :=
    filter_congr fun u _ => by simp
  rw [hneg]
  ring

end

section

variable {dense : Bool} {k : Nat} {rankEq : V → V → Bool} {outputFunc : ℤ → V → O} {R : V → ℤ}
  {l pre rest : List (V × ℤ)} {p : V × ℤ}

variable (dense k rankEq R l) in
/-- What the loop relies on to find the ranks `R`: they do not decrease, values of one class have
one rank, and the rank at a new class is the one that the loop computes, or both are above `k`. -/
structure Follows : Prop where
  positive : ∀ p ∈ l, 0 < p.2
  ordered : l.Pairwise fun p q => R p.1 ≤ R q.1
  first : ∀ p ∈ l.head?, R p.1 = 1
  same : ∀ {pre p q rest}, l = pre ++ p :: q :: rest → rankEq q.1 p.1 = true → R q.1 = R p.1
  fresh : ∀ {pre p q rest}, l = pre ++ p :: q :: rest → rankEq q.1 p.1 = false →
    nextRank dense (R p.1) ((pre ++ [p]).map Prod.snd).sum q.2 = R q.1 ∨
      (k : ℤ) < R q.1 ∧ (k : ℤ) < nextRank dense (R p.1) ((pre ++ [p]).map Prod.snd).sum q.2

variable (h : Follows dense k rankEq R l)
include h

/-- Once a rank is above `k`, all that follow are. -/
theorem Follows.rankedTo_eq_nil (hsplit : l = pre ++ p :: rest) (hk : (k : ℤ) < R p.1) :
    rankedTo k outputFunc R (p :: rest) = [] := by
  have hordered := h.ordered
  rw [hsplit] at hordered
  have hafter := (pairwise_cons.mp (pairwise_append.mp hordered).2.1).1
  rw [rankedTo, filter_eq_nil_iff.mpr, map_nil]
  intro u hu
  have hlt : (k : ℤ) < R u.1 := by
    rcases mem_cons.mp hu with rfl | hu
    · exact hk
    · exact lt_of_lt_of_le hk (hafter u hu)
  simpa using hlt

/-- The loop from the value `p` on, which has been put out. -/
theorem Follows.scan (hsplit : l = pre ++ p :: rest) (hk : R p.1 ≤ k) {a : Ranking V O}
    (hcount : a.count = ((pre ++ [p]).map Prod.snd).sum) (hrank : a.rank = R p.1)
    (hprev : a.prev = some p.1) :
    (scanList (rankBody dense k rankEq outputFunc) a rest).out =
      a.out ++ rankedTo k outputFunc R rest := by
  induction rest generalizing pre p a with
  | nil => exact (append_nil _).symm
  | cons q rest ih =>
    have hpos : 0 < q.2 := h.positive q (by rw [hsplit]; simp)
    have hnext : l = (pre ++ [p]) ++ q :: rest := by simpa using hsplit
    -- the value is put out with its rank, and the loop goes on from there
    have hemit : R q.1 ≤ k →
        (scanList (rankBody dense k rankEq outputFunc) (a.emit outputFunc (R q.1) q.1 q.2) rest).out
          = a.out ++ rankedTo k outputFunc R (q :: rest) := by
      intro hq
      have hsum : (a.emit outputFunc (R q.1) q.1 q.2).count =
          ((pre ++ [p] ++ [q]).map Prod.snd).sum := by
        rw [map_append, sum_append, ← hcount]
        simp [Ranking.emit]
      rw [ih hnext hq hsum rfl rfl]
      simp [rankedTo, Ranking.emit, hq]
    cases hsame : rankEq q.1 p.1 with
    | true =>
      have hbody : rankBody dense k rankEq outputFunc a q.1 q.2 =
          (a.emit outputFunc a.rank q.1 q.2, true) := rankBody_same outputFunc hpos hprev hsame
      rw [scanList_cons_of_true rest hbody, hrank, ← h.same hsplit hsame]
      exact hemit (by rw [h.same hsplit hsame]; exact hk)
    | false =>
      have hfresh := h.fresh hsplit hsame
      rw [← hcount, ← hrank] at hfresh
      have hstop : (k : ℤ) < R q.1 → (k : ℤ) < nextRank dense a.rank a.count q.2 →
          (scanList (rankBody dense k rankEq outputFunc) a (q :: rest)).out =
            a.out ++ rankedTo k outputFunc R (q :: rest) := by
        intro hR hnew
        rw [scanList_cons_of_false rest (rankBody_stop outputFunc hpos hprev hsame hnew),
          h.rankedTo_eq_nil hnext hR]
        exact (append_nil _).symm
      rcases hfresh with heq | ⟨hR, hnew⟩
      · by_cases hq : R q.1 ≤ k
        · have hbody := rankBody_fresh outputFunc hpos hprev hsame (by rw [heq]; exact not_lt.mpr hq)
          rw [scanList_cons_of_true rest hbody, heq]
          exact hemit hq
        · exact hstop (not_le.mp hq) (by rw [heq]; exact not_le.mp hq)
      · exact hstop hR hnew

/-- The loop puts out the values whose rank is at most `k`. -/
theorem Follows.rankRows_eq (hk : 1 ≤ k) :
    rankRows dense k rankEq outputFunc l = rankedTo k outputFunc R l := by
  cases l with
  | nil => rfl
  | cons p rest =>
    have hpos : 0 < p.2 := h.positive p mem_cons_self
    have hfirst : R p.1 = 1 := h.first p rfl
    have hle : R p.1 ≤ k := by
      rw [hfirst]
      exact_mod_cast hk
    have hbody : rankBody dense k rankEq outputFunc ⟨0, 1, none, []⟩ p.1 p.2 =
        (Ranking.emit outputFunc ⟨0, 1, none, []⟩ 1 p.1 p.2, true) := by
      rw [rankBody, if_pos hpos]
    rw [rankRows, scanList_cons_of_true rest hbody,
      h.scan (nil_append _).symm hle (by simp [Ranking.emit]) hfirst.symm rfl]
    rw [rankedTo, rankedTo, filter_cons_of_pos (by simpa using hle), map_cons, hfirst]
    rfl

end

section

variable [LinearOrder V] {k : Nat} {rankEq : V → V → Bool} {l : List (V × ℤ)}

variable (k rankEq l) in
/-- The condition under which the sparse ranks are right: the first value of a rank class, other
than the first class, has weight one, unless its rank is above `k`. -/
def SingleLeads : Prop :=
  ∀ {pre p q rest}, l = pre ++ p :: q :: rest → rankEq q.1 p.1 = false →
    q.2 = 1 ∨ (k : ℤ) < sqlRank rankEq l q.1

omit [LinearOrder V] in
theorem sum_le_of_sublist (hpos : ∀ p ∈ l, 0 < p.2) {m n : List (V × ℤ)}
    (hsub : m.Sublist n) (hn : n.Sublist l) : (m.map Prod.snd).sum ≤ (n.map Prod.snd).sum := by
  refine (hsub.map Prod.snd).sum_le_sum fun w hw => ?_
  obtain ⟨p, hp, rfl⟩ := mem_map.mp hw
  exact (hpos p (hn.subset hp)).le

section

variable (h : GroupsConsecutive rankEq) (hl : Consolidated l) (hpos : ∀ p ∈ l, 0 < p.2)
include h hl hpos

theorem follows_dense : Follows true k rankEq (denseRank rankEq l) l where
  positive := hpos
  ordered := hl.sorted.imp fun hlt => by
    have hle := (rankedBefore_sublist (l := l) h hlt).countP_le (p := leads rankEq l)
    unfold denseRank
    omega
  first p hp := by
    cases l with
    | nil => cases hp
    | cons q rest =>
      obtain rfl : q = p := Option.some.inj hp
      rw [denseRank, rankedBefore_head hl.sorted]
      rfl
  same {pre p q rest} hsplit hsame := by
    have hsorted := hl.sorted
    rw [hsplit] at hsorted
    have hlt := (pairwise_cons.mp (pairwise_append.mp hsorted).2.1).1 q mem_cons_self
    rw [denseRank, denseRank, rankedBefore_of_rankEq h hlt hsame]
  fresh {pre p q rest} hsplit hfresh := by
    have hsorted := hl.sorted
    rw [hsplit] at hsorted ⊢
    exact .inl (denseRank_of_new h hsorted hfresh).symm

theorem follows_sparse (hsingle : SingleLeads k rankEq l) :
    Follows false k rankEq (sqlRank rankEq l) l where
  positive := hpos
  ordered := hl.sorted.imp fun hlt => by
    have hle := sum_le_of_sublist hpos (rankedBefore_sublist (l := l) h hlt)
      filter_sublist
    unfold sqlRank
    omega
  first p hp := by
    cases l with
    | nil => cases hp
    | cons q rest =>
      obtain rfl : q = p := Option.some.inj hp
      rw [sqlRank, rankedBefore_head hl.sorted]
      rfl
  same {pre p q rest} hsplit hsame := by
    have hsorted := hl.sorted
    rw [hsplit] at hsorted
    have hlt := (pairwise_cons.mp (pairwise_append.mp hsorted).2.1).1 q mem_cons_self
    rw [sqlRank, sqlRank, rankedBefore_of_rankEq h hlt hsame]
  fresh {pre p q rest} hsplit hfresh := by
    have hsorted := hl.sorted
    have hlead := hsingle hsplit hfresh
    have hw : 0 < q.2 := hpos q (by rw [hsplit]; simp)
    rw [hsplit] at hsorted hlead
    have hrank : sqlRank rankEq (pre ++ p :: q :: rest) q.1 =
        1 + ((pre ++ [p]).map Prod.snd).sum := by
      rw [sqlRank, rankedBefore_of_new h hsorted hfresh]
    have hnext : nextRank false (sqlRank rankEq l p.1) ((pre ++ [p]).map Prod.snd).sum q.2 =
        ((pre ++ [p]).map Prod.snd).sum + q.2 := rfl
    rw [hnext, hsplit, hrank]
    rw [hrank] at hlead
    omega

end

end

section

universe u

variable {K V O : Type u} [LinearOrder K] [LinearOrder V] [LinearOrder O]

/-- Per key, the outputs of `topk_dense_rank_custom_order` add up to the values whose dense rank is
at most `k`, with that rank, and, if the first value of every later rank class up to rank `k` has
weight one, those of `topk_rank_custom_order` add up to the values whose SQL rank is. -/
theorem sum_outputs_topKRank {k : Nat} (hk : 1 ≤ k) {rankEq : V → V → Bool}
    (hrankEq : GroupsConsecutive rankEq) (outputFunc : ℤ → V → O) (filter : KeyFilter K V ℤ)
    (outputFilter : KeyFilter K O ℤ) (history : List (Transaction K V O)) (key : K)
    (hpos : ∀ p ∈ group history key, 0 < p.2) (o : O) :
    (SingleLeads k rankEq (group history key) →
      ((outputs filter outputFilter (differing (topKRank false k rankEq outputFunc)) history).map
        fun c => c.weight (key, o, ())).sum =
          weight (rankedTo k outputFunc (sqlRank rankEq (group history key))
            (group history key)) o) ∧
    ((outputs filter outputFilter (differing (topKRank true k rankEq outputFunc)) history).map
      fun c => c.weight (key, o, ())).sum =
        weight (rankedTo k outputFunc (denseRank rankEq (group history key))
          (group history key)) o := by
  have hrows : ∀ dense, ((outputs filter outputFilter
      (differing (topKRank dense k rankEq outputFunc)) history).map
        fun c => c.weight (key, o, ())).sum =
          weight (rankRows dense k rankEq outputFunc (group history key)) o := fun dense =>
    sum_outputs_differing (topKRank_computes dense k rankEq outputFunc) (fun _ => rfl) filter
      outputFilter history key o
  have hl := group_consolidated history key
  refine ⟨fun hsingle => ?_, ?_⟩
  · rw [hrows, (follows_sparse hrankEq hl hpos hsingle).rankRows_eq hk]
  · rw [hrows, (follows_dense hrankEq hl hpos).rankRows_eq hk]

end

section

theorem groupsConsecutive_beq : GroupsConsecutive fun a b : ℕ => a == b where
  refl a := beq_self_eq_true a
  symm h := by simpa using (beq_iff_eq.mp h).symm
  trans h h' := by simpa using (beq_iff_eq.mp h).trans (beq_iff_eq.mp h')
  between hab hbc h := by
    obtain rfl := beq_iff_eq.mp h
    simpa using le_antisymm hab hbc

/-- A group with a row 1 and `w` rows 2, in one transaction. -/
def rowsOneTwo (w : ℤ) : Transaction ℕ ℕ ℤ where
  inputs := [Batch.ofTuples [((0, 1, ()), 1), ((0, 2, ()), w)]]
  accumulated := .none
  merging := .none
  outputMerging := .none
  outputAccumulated := .none
  chunkSize := 10

/-- A value with its rank, as one number. -/
def rankAndValue (rank : ℤ) (v : ℕ) : ℤ :=
  100 * rank + v

/-- Two rows 2 have SQL rank 2, but they are put out with rank 3. -/
theorem topKRank_counts_own_weight :
    (∀ p ∈ group [rowsOneTwo 2] 0, 0 < p.2) ∧
      rankedTo 3 rankAndValue (sqlRank (fun a b => a == b) (group [rowsOneTwo 2] 0))
        (group [rowsOneTwo 2] 0) = [(101, 1), (202, 2)] ∧
      (outputs .none .none (differing (topKRank false 3 (fun a b => a == b) rankAndValue))
        [rowsOneTwo 2]).map (fun c => (c.weight (0, 202, ()), c.weight (0, 302, ()))) =
          [(0, 2)] := by
  decide +kernel

/-- With one row 2 the rank is right. -/
theorem sum_outputs_topKRank_rowsOneTwo :
    ((outputs .none .none (differing (topKRank false 3 (fun a b => a == b) rankAndValue))
      [rowsOneTwo 1]).map fun c => c.weight (0, 202, ())).sum = 1 := by
  have hgroup : group [rowsOneTwo 1] 0 = [(1, 1), (2, 1)] := by
    decide +kernel
  have hpos : ∀ p ∈ group [rowsOneTwo 1] 0, 0 < p.2 := by
    rw [hgroup]
    decide
  have hsingle : SingleLeads 3 (fun a b : ℕ => a == b) (group [rowsOneTwo 1] 0) := by
    intro pre p q rest hsplit _
    have hq : q ∈ [((1 : ℕ), (1 : ℤ)), (2, 1)] := by
      rw [← hgroup, hsplit]
      simp
    refine .inl ?_
    rcases mem_cons.mp hq with rfl | hq
    · rfl
    · rw [mem_singleton.mp hq]
  have hsum := (sum_outputs_topKRank (by decide) groupsConsecutive_beq rankAndValue .none .none
    [rowsOneTwo 1] 0 hpos 202).1 hsingle
  rw [hsum, hgroup]
  decide +kernel

end

end Feldera.Operator.GroupTransform
