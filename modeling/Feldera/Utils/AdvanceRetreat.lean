import Mathlib.Tactic

/-!
`advance` and `retreat` count the elements at the start or at the end of a slice that satisfy a
predicate. They test the first few one by one, and search the others in steps that double as long
as they hit and are then halved. The erased versions get bytes and the size of an element.
-/

namespace Feldera.Utils

open List

variable {α β : Type*} {len : ℕ}

def defaultSmallLimit : ℕ := 8

section

variable (p : Fin len → Bool)

/-- `i < slice.len() && function(&slice[i])`: nothing is read outside of the slice. -/
def holds (i : ℕ) : Bool :=
  if h : i < len then p ⟨i, h⟩ else false

/-- The loop with shrinking steps, of which the first is `2 ^ k >> 1`. -/
def shrink : ℕ → ℕ → ℕ
  | 0, index => index
  | k + 1, index => shrink k (if holds p (index + 2 ^ k) then index + 2 ^ k else index)

/-- The loop with growing steps, which is at the step `2 ^ k`, and the one after it. As a slice has
less than `2 ^ 63` elements, the sums do not overflow. -/
def grow (k index : ℕ) : ℕ :=
  if holds p (index + 2 ^ k) then grow (k + 1) (index + 2 ^ k) else shrink p k index
termination_by len - index
decreasing_by
  rename_i h
  have hlt : index + 2 ^ k < len := by
    by_contra hge
    simp [holds, hge] at h
  have := Nat.two_pow_pos k
  omega

/-- The body of all four functions. They differ in where the elements are counted from, and in how
many of them the linear search covers. -/
def count (smallLimit limit : ℕ) : ℕ :=
  if holds p smallLimit then
    let index := smallLimit + 1
    if holds p index then grow p 0 index + 1 else index
  else (((ofFn p).take limit).findIdx? (!·)).getD limit

end

def advanceRaw (smallLimit : ℕ) (slice : List α) (function : α → Bool) : ℕ :=
  count (function ∘ slice.get) smallLimit (min slice.length smallLimit)

def retreatRaw (smallLimit : ℕ) (slice : List α) (function : α → Bool) : ℕ :=
  if slice.isEmpty then 0
  else
    let lastIndex := slice.length - 1
    count (function ∘ slice.get ∘ Fin.rev) smallLimit (min lastIndex smallLimit + 1)

/-- A pointer to the element `idx`: what can be read from there on. -/
def getUnchecked (slice : List β) (size : ℕ) (idx : Fin (slice.length / size)) : List β :=
  slice.drop (idx * size)

def advanceErased (slice : List β) (size : ℕ) (function : List β → Bool) : ℕ :=
  if size = 0 then 0
  else count (function ∘ getUnchecked slice size) defaultSmallLimit
    (min (slice.length / size) defaultSmallLimit)

def retreatErased (slice : List β) (size : ℕ) (function : List β → Bool) : ℕ :=
  if size = 0 then 0
  else if slice.isEmpty then 0
  else
    let lastIndex := slice.length / size - 1
    count (function ∘ getUnchecked slice size ∘ Fin.rev) defaultSmallLimit
      (min lastIndex defaultSmallLimit + 1)

section

variable {p : Fin len → Bool} {b k index smallLimit limit : ℕ}

section

variable (hb : ∀ i, holds p i ↔ i < b)

include hb

theorem shrink_eq (hlt : index < b) (hle : b ≤ index + 2 ^ k) : shrink p k index + 1 = b := by
  induction k generalizing index with
  | zero =>
    rw [shrink]
    omega
  | succ k ih =>
    rw [pow_succ] at hle
    rw [shrink]
    split
    · next hhit => exact ih ((hb _).mp hhit) (by omega)
    · next hmiss =>
      rw [hb, not_lt] at hmiss
      exact ih hlt hmiss

theorem grow_eq (hlt : index < b) : grow p k index + 1 = b := by
  fun_induction grow p k index with
  | case1 k index hhit ih => exact ih ((hb _).mp hhit)
  | case2 k index hmiss =>
    rw [hb, not_lt] at hmiss
    exact shrink_eq hb hlt hmiss

end

/-- Every test says on which side of the boundary an element is. -/
theorem holds_iff (hp : ∀ i j, i < j → p j → p i) (i : ℕ) :
    holds p i ↔ i < (ofFn p).findIdx (!·) := by
  constructor
  · intro hi
    obtain ⟨hlt, hi⟩ : ∃ h : i < len, p ⟨i, h⟩ := by simpa [holds] using hi
    by_contra hle
    have hb : (ofFn p).findIdx (!·) < len := by omega
    have hyes : p ⟨_, hb⟩ = true := by
      rcases (not_lt.mp hle).eq_or_lt with heq | hless
      · simpa [heq] using hi
      · exact hp ⟨_, hb⟩ ⟨i, hlt⟩ hless hi
    have hb' : (ofFn p).findIdx (!·) < (ofFn p).length := by simpa using hb
    have hnot := findIdx_getElem (w := hb')
    simp [hyes] at hnot
  · intro hi
    have hlt : i < len := by simpa using hi.trans_le findIdx_le_length
    simpa [holds, hlt] using not_of_lt_findIdx hi

theorem count_eq {x : Fin len → α} {f : α → Bool} (hx : ∀ i j, i < j → f (x j) → f (x i))
    (hle : limit ≤ len) (hlimit : min len smallLimit ≤ limit) :
    count (f ∘ x) smallLimit limit = ((ofFn x).takeWhile f).length := by
  have hb := holds_iff (p := f ∘ x) hx
  have hlen : (ofFn (f ∘ x)).findIdx (!·) ≤ (ofFn (f ∘ x)).length := findIdx_le_length
  rw [length_ofFn] at hlen
  have htake : ((ofFn x).takeWhile f).length = (ofFn (f ∘ x)).findIdx (!·) := by
    rw [← map_ofFn, findIdx_map] at hlen ⊢
    rw [takeWhile_eq_take_findIdx_not, length_take, length_ofFn]
    exact min_eq_left hlen
  rw [htake, count]
  split
  · next hhit =>
    dsimp only
    split
    · next hnext => exact grow_eq hb ((hb _).mp hnext)
    · next hmiss =>
      rw [hb] at hhit hmiss
      omega
  · next hmiss =>
    rw [hb] at hmiss
    have hlength : ((ofFn (f ∘ x)).take limit).length = limit := by simpa using hle
    have hfind : ((ofFn (f ∘ x)).take limit).findIdx (!·) = _ := findIdx_eq_getD_findIdx?
    rw [hlength, findIdx_take] at hfind
    omega

variable {x : Fin len → α} {f : α → Bool}

theorem advance_eq (hx : (ofFn x).Pairwise fun a b => f b → f a) :
    count (f ∘ x) smallLimit (min len smallLimit) = ((ofFn x).takeWhile f).length :=
  count_eq (fun _ _ hij => pairwise_ofFn.mp hx hij) (min_le_left _ _) le_rfl

theorem retreat_eq (hlen : 0 < len) (hx : (ofFn x).Pairwise fun a b => f a → f b) :
    count (f ∘ x ∘ Fin.rev) smallLimit (min (len - 1) smallLimit + 1) =
      ((ofFn x).reverse.takeWhile f).length := by
  have hreverse : (ofFn x).reverse = ofFn (x ∘ Fin.rev) := by
    refine ext_getElem (by simp) fun i _ _ => ?_
    simp [Fin.rev, Nat.sub_sub, Nat.add_comm]
  rw [hreverse]
  refine count_eq (fun i j hij => ?_) (by omega) (by omega)
  exact pairwise_ofFn.mp hx (Fin.rev_lt_rev.mpr hij)

end

/-- The four searches return how many elements satisfy the predicate at the start or at the end, if
it is true there and false elsewhere. The erased ones are given whole elements. -/
theorem searches_count (function : α → Bool) (smallLimit : ℕ) (slice : List α)
    (erased : List β → Bool) {size : ℕ} (bytes : List β) (hsize : 0 < size)
    (hbytes : size ∣ bytes.length) :
    let elements := ofFn (getUnchecked bytes size)
    ((slice.Pairwise fun a b => function b → function a) →
      advanceRaw smallLimit slice function = (slice.takeWhile function).length) ∧
    ((slice.Pairwise fun a b => function a → function b) →
      retreatRaw smallLimit slice function = (slice.reverse.takeWhile function).length) ∧
    ((elements.Pairwise fun a b => erased b → erased a) →
      advanceErased bytes size erased = (elements.takeWhile erased).length) ∧
    ((elements.Pairwise fun a b => erased a → erased b) →
      retreatErased bytes size erased = (elements.reverse.takeWhile erased).length) := by
  refine ⟨fun h => ?_, fun h => ?_, fun h => ?_, fun h => ?_⟩
  · rw [← ofFn_get slice] at h
    rw [advanceRaw, advance_eq h, ofFn_get]
  · rw [retreatRaw]
    split
    · next hempty => simp [isEmpty_iff.mp hempty]
    · next hne =>
      rw [← ofFn_get slice] at h
      rw [retreat_eq (length_pos_iff.mpr (mt isEmpty_iff.mpr hne)) h, ofFn_get]
  · rw [advanceErased, if_neg hsize.ne', advance_eq h]
  · rw [retreatErased, if_neg hsize.ne']
    split
    · next hempty => simp [isEmpty_iff.mp hempty]
    · next hne =>
      have hpos := length_pos_iff.mpr (mt isEmpty_iff.mpr hne)
      exact retreat_eq (Nat.div_pos (Nat.le_of_dvd hpos hbytes) hsize) h

theorem searches_count_small :
    advanceRaw 1 [1, 2, 3, 4, 9, 9] (· < 5) = 4 ∧
      retreatErased [9, 0, 1, 0, 2, 0] 2 (fun x => x.headD 0 < 5) = 2 := by
  obtain ⟨hadvance, -, -, hretreat⟩ := searches_count (· < 5) 1 [1, 2, 3, 4, 9, 9]
    (fun x => x.headD 0 < 5) [9, 0, 1, 0, 2, 0] Nat.two_pos (by decide)
  exact ⟨hadvance (by decide), hretreat (by decide)⟩

end Feldera.Utils
