import Feldera.Algebra.AssocList
import Feldera.Algebra.Machine

/-!
The buffer cache: blocks of files under their keys, and a second map from the serial number of
the last use of a block to its key. The log of a run says what happened to which key; what the
cache holds, and in which order it would let go of it, is read off the log.
-/

namespace Feldera.BufferCache

open AssocList List Function

abbrev CacheKey := ℕ ×ₗ ℕ

namespace CacheKey

def new (fileId offset : ℕ) : CacheKey := toLex (fileId, offset)

def fileId (key : CacheKey) : ℕ := (ofLex key).1

def offset (key : CacheKey) : ℕ := (ofLex key).2

/-- From the first key of the file up to the first one of the next file. -/
def inFileRange (fileId : ℕ) (key : CacheKey) : Bool :=
  new fileId 0 ≤ key && key < new (fileId + 1) 0

theorem inFileRange_iff {id : ℕ} {key : CacheKey} :
    inFileRange id key = true ↔ key = new id key.offset := by
  rw [inFileRange, Bool.and_eq_true, decide_eq_true_eq, decide_eq_true_eq, Prod.Lex.le_iff,
    Prod.Lex.lt_iff]
  simp only [new, ofLex_toLex]
  constructor
  · intro h
    obtain rfl : (ofLex key).1 = id := by omega
    rfl
  · intro h
    rw [h]
    simp

end CacheKey

structure CacheValue (E : Type) where
  aux : E
  serial : ℕ

structure CacheInner (E : Type) where
  cache : List (CacheKey × CacheValue E)
  lru : List (ℕ × CacheKey)
  nextSerial : ℕ
  curCost : ℕ
  maxCost : ℕ

inductive Fault
  | unwrapNone
  | subtractOverflow
  deriving DecidableEq

def unwrapRemove {α β : Type} [LinearOrder α] (l : List (α × β)) (a : α) :
    Except Fault (β × List (α × β)) :=
  match getKey l a with
  | some b => .ok (b, removeKey l a)
  | none => .error .unwrapNone

def subCost (curCost cost : ℕ) : Except Fault ℕ :=
  if cost ≤ curCost then .ok (curCost - cost) else .error .subtractOverflow

variable {E : Type} (cost : E → ℕ)

namespace CacheInner

def new (maxCost : ℕ) : CacheInner E := ⟨[], [], 0, 0, maxCost⟩

variable (s : CacheInner E)

/-- The offsets and serial numbers of the blocks of a file. -/
def offsets (fileId : ℕ) : List (ℕ × ℕ) :=
  (s.cache.filter fun p => p.1.inFileRange fileId).map fun p => (p.1.offset, p.2.serial)

def deleteOffsets (fileId : ℕ) : List (ℕ × ℕ) → CacheInner E → Except Fault (CacheInner E)
  | [], s => .ok s
  | (offset, serial) :: rest, s => do
    let (_, lru) ← unwrapRemove s.lru serial
    let (value, cache) ← unwrapRemove s.cache (.new fileId offset)
    let curCost ← subCost s.curCost (cost value.aux)
    deleteOffsets fileId rest { s with cache, lru, curCost }

def deleteFile (fileId : ℕ) : Except Fault (CacheInner E) :=
  deleteOffsets cost fileId (s.offsets fileId) s

def get (key : CacheKey) : CacheInner E × Option E :=
  match getKey s.cache key with
  | some value =>
    ({ s with
        cache := insertKey s.cache key ⟨value.aux, s.nextSerial⟩
        lru := insertKey (removeKey s.lru value.serial) s.nextSerial key
        nextSerial := s.nextSerial + 1 }, some value.aux)
  | none => (s, none)

/-- The loop of `evict_to`, which takes the entries of `lru` from the first one on, with the keys
it removes. -/
def evictLoop (maxSize : ℕ) :
    List (ℕ × CacheKey) → CacheInner E → Except Fault (CacheInner E × List CacheKey)
  | [], s => if maxSize < s.curCost then .error .unwrapNone else .ok (s, [])
  | (_, key) :: lru, s =>
    if maxSize < s.curCost then do
      let (value, cache) ← unwrapRemove s.cache key
      let curCost ← subCost s.curCost (cost value.aux)
      let (s, keys) ← evictLoop maxSize lru { s with cache, lru, curCost }
      return (s, key :: keys)
    else .ok (s, [])

def evictTo (maxSize : ℕ) : Except Fault (CacheInner E × List CacheKey) :=
  evictLoop cost maxSize s.lru s

/-- What becomes of the value that an inserted one takes the place of. -/
def replaced (key : CacheKey) : Except Fault (CacheInner E) :=
  match getKey s.cache key with
  | some old => do
    let curCost ← subCost s.curCost (cost old.aux)
    return { s with lru := removeKey s.lru old.serial, curCost }
  | none => .ok s

def insert (key : CacheKey) (aux : E) : Except Fault (CacheInner E × List CacheKey) := do
  let (s, keys) ← s.evictTo cost (s.maxCost - cost aux)
  let s ← s.replaced cost key
  return ({ s with
    cache := insertKey s.cache key ⟨aux, s.nextSerial⟩
    lru := insertKey s.lru s.nextSerial key
    curCost := s.curCost + cost aux
    nextSerial := s.nextSerial + 1 }, keys)

end CacheInner

inductive Op (E : Type)
  | get (key : CacheKey)
  | insert (key : CacheKey) (aux : E)
  | evict (fileId : ℕ)

/-- What happened to a key: a hit, a new value, the end of its value for lack of room, and the end
of its value with its file. -/
inductive Event (E : Type)
  | used (key : CacheKey)
  | inserted (key : CacheKey) (aux : E)
  | evicted (key : CacheKey)
  | deleted (key : CacheKey)

variable (log : List (Event E))

def contents : CacheKey → Option E :=
  log.foldl (fun held e =>
    match e with
    | .used _ => held
    | .inserted key aux => Function.update held key (some aux)
    | .evicted key | .deleted key => Function.update held key none) fun _ => none

def recency : List CacheKey :=
  log.foldl (fun keys e =>
    match e with
    | .used key | .inserted key _ => keys.filter (· ≠ key) ++ [key]
    | .evicted key | .deleted key => keys.filter (· ≠ key)) []

def lastCost : ℕ :=
  log.foldl (fun last e =>
    match e with
    | .inserted _ aux => cost aux
    | _ => last) 0

/-- Lack of room always ends the value that was used least recently. -/
def EvictsInOrder : Prop :=
  ∀ before key after, log = before ++ .evicted key :: after → (recency before).head? = some key

structure Traced (E : Type) where
  inner : CacheInner E
  log : List (Event E)

def Traced.step (t : Traced E) : Op E → Except Fault (Traced E)
  | .get key =>
    match t.inner.get key with
    | (s, some _) => .ok ⟨s, t.log ++ [.used key]⟩
    | (s, none) => .ok ⟨s, t.log⟩
  | .insert key aux => do
    let (s, keys) ← t.inner.insert cost key aux
    return ⟨s, t.log ++ keys.map .evicted ++ [.inserted key aux]⟩
  | .evict fileId => do
    let s ← t.inner.deleteFile cost fileId
    return ⟨s, t.log ++ (t.inner.offsets fileId).map fun p => .deleted (.new fileId p.1)⟩

theorem unwrapRemove_eq {α β : Type} [LinearOrder α] {l : List (α × β)} {a : α} {b : β}
    (h : Sorted l) (hmem : (a, b) ∈ l) : unwrapRemove l a = .ok (b, removeKey l a) := by
  rw [unwrapRemove, h.getKey_eq_some.mpr hmem]

namespace CacheInner

variable {cost} {s : CacheInner E} {key : CacheKey} {v : CacheValue E} {aux : E}

variable (cost) in
/-- The two maps are inverse to each other, and the recorded cost is that of what is cached. -/
structure Good (s : CacheInner E) : Prop where
  cache : Sorted s.cache
  lru : Sorted s.lru
  fresh : ∀ p ∈ s.lru, p.1 < s.nextSerial
  inverse : ∀ serial key, (serial, key) ∈ s.lru ↔ ∃ aux, (key, ⟨aux, serial⟩) ∈ s.cache
  cost : s.curCost = (s.cache.map fun p => cost p.2.aux).sum

variable (cost) in
def vacate (s : CacheInner E) (key : CacheKey) : CacheInner E :=
  match getKey s.cache key with
  | some v =>
    { s with
      cache := removeKey s.cache key
      lru := removeKey s.lru v.serial
      curCost := s.curCost - cost v.aux }
  | none => s

variable (cost) in
/-- The cache with a value under the key, which is used now. -/
def renew (s : CacheInner E) (key : CacheKey) (aux : E) : CacheInner E :=
  { s with
    cache := insertKey s.cache key ⟨aux, s.nextSerial⟩
    lru := insertKey s.lru s.nextSerial key
    curCost := s.curCost + cost aux
    nextSerial := s.nextSerial + 1 }

namespace Good

variable (h : s.Good cost)
include h

theorem cost_le (hmem : (key, v) ∈ s.cache) : cost v.aux ≤ s.curCost := by
  rw [h.cost, h.cache.sum_removeKey hmem]
  exact Nat.le_add_right _ _

theorem serial_iff (hmem : (key, v) ∈ s.cache) : ∀ p ∈ s.lru, p.1 ≠ v.serial ↔ p.2 ≠ key := by
  rintro ⟨serial, key'⟩ hp
  refine not_congr ⟨?_, ?_⟩
  · rintro rfl
    exact h.lru.eq_of_mem hp ((h.inverse _ _).mpr ⟨v.aux, hmem⟩)
  · rintro rfl
    obtain ⟨aux, haux⟩ := (h.inverse _ _).mp hp
    rw [h.cache.eq_of_mem hmem haux]

theorem vacate (key : CacheKey) :
    (s.vacate cost key).Good cost ∧ (s.vacate cost key).cache = removeKey s.cache key ∧
      (s.vacate cost key).lru.map Prod.snd = (s.lru.map Prod.snd).filter (· ≠ key) := by
  unfold CacheInner.vacate
  cases hv : getKey s.cache key with
  | none =>
    have hnone : ∀ p ∈ s.cache, p.1 ≠ key := by
      rintro p hp rfl
      rw [h.cache.getKey_eq_some.mpr hp] at hv
      cases hv
    refine ⟨h, (filter_eq_self.mpr ?_).symm, (filter_eq_self.mpr ?_).symm⟩
    · simpa using hnone
    · intro key' hkey'
      obtain ⟨⟨serial, _⟩, hp, rfl⟩ := mem_map.mp hkey'
      obtain ⟨aux, haux⟩ := (h.inverse _ _).mp hp
      simpa using hnone _ haux
  | some v =>
    have hmem := h.cache.getKey_eq_some.mp hv
    have hiff := h.serial_iff hmem
    refine ⟨⟨h.cache.filter _, h.lru.filter _,
      fun p hp => h.fresh p (mem_removeKey.mp hp).1, fun serial key' => ?_, ?_⟩, rfl, ?_⟩
    · simp only [mem_removeKey]
      constructor
      · rintro ⟨hp, hne⟩
        obtain ⟨aux, haux⟩ := (h.inverse _ _).mp hp
        exact ⟨aux, haux, (hiff _ hp).mp hne⟩
      · rintro ⟨aux, haux, hne⟩
        have hp := (h.inverse _ _).mpr ⟨aux, haux⟩
        exact ⟨hp, (hiff _ hp).mpr hne⟩
    · have hsum := h.cache.sum_removeKey hmem fun p => cost p.2.aux
      dsimp only at hsum ⊢
      rw [h.cost]
      omega
    · rw [filter_map]
      refine congrArg _ (filter_congr fun p hp => ?_)
      exact decide_eq_decide.mpr (hiff p hp)

theorem renew (hnone : ∀ p ∈ s.cache, p.1 ≠ key) (aux : E) :
    (s.renew cost key aux).Good cost ∧
      (s.renew cost key aux).lru.map Prod.snd = s.lru.map Prod.snd ++ [key] := by
  have hserial : ∀ p ∈ s.lru, p.1 ≠ s.nextSerial := fun p hp => (h.fresh p hp).ne
  have hremove : removeKey s.cache key = s.cache := filter_eq_self.mpr (by simpa using hnone)
  have hlru : insertKey s.lru s.nextSerial key = s.lru ++ [(s.nextSerial, key)] := by
    rw [insertKey, filter_eq_self.mpr, filter_eq_nil_iff.mpr]
    · intro p hp
      simpa using (h.fresh p hp).le
    · intro p hp
      simpa using h.fresh p hp
  refine ⟨⟨sorted_insertKey h.cache, sorted_insertKey h.lru, fun p hp => ?_,
    fun serial key' => ?_, ?_⟩, ?_⟩
  · rcases mem_insertKey.mp hp with rfl | ⟨hp, -⟩
    · exact Nat.lt_succ_self _
    · exact Nat.lt_succ_of_lt (h.fresh p hp)
  · simp only [CacheInner.renew, mem_insertKey, Prod.mk.injEq, CacheValue.mk.injEq]
    constructor
    · rintro (⟨rfl, rfl⟩ | ⟨hp, -⟩)
      · exact ⟨aux, .inl ⟨rfl, rfl, rfl⟩⟩
      · obtain ⟨aux', haux⟩ := (h.inverse _ _).mp hp
        exact ⟨aux', .inr ⟨haux, hnone _ haux⟩⟩
    · rintro ⟨aux', ⟨rfl, -, rfl⟩ | ⟨haux, -⟩⟩
      · exact .inl ⟨rfl, rfl⟩
      · have hp := (h.inverse _ _).mpr ⟨aux', haux⟩
        exact .inr ⟨hp, hserial _ hp⟩
  · simp only [CacheInner.renew, sum_insertKey, hremove, h.cost]
    omega
  · simp [CacheInner.renew, hlru]

theorem vacate_eq
    (hmem : (key, v) ∈ s.cache) :
    s.vacate cost key = { s with
      cache := removeKey s.cache key
      lru := removeKey s.lru v.serial
      curCost := s.curCost - cost v.aux } := by
  rw [CacheInner.vacate, h.cache.getKey_eq_some.mpr hmem]

theorem offsets_mem (fileId : ℕ) :
    (∀ p ∈ s.offsets fileId, ∃ aux, (.new fileId p.1, ⟨aux, p.2⟩) ∈ s.cache) ∧
      ((s.offsets fileId).map Prod.fst).Nodup := by
  constructor
  · intro p hp
    obtain ⟨q, hq, rfl⟩ := mem_map.mp hp
    obtain ⟨hq, hrange⟩ := mem_filter.mp hq
    refine ⟨q.2.aux, ?_⟩
    rw [← CacheKey.inFileRange_iff.mp hrange]
    exact hq
  · rw [offsets, map_map]
    refine pairwise_map.mpr ((h.cache.filter _).imp_of_mem fun {p q} hp hq hlt heq => ?_)
    have hpfile := CacheKey.inFileRange_iff.mp (mem_filter.mp hp).2
    have hqfile := CacheKey.inFileRange_iff.mp (mem_filter.mp hq).2
    have heq' : p.1.offset = q.1.offset := heq
    rw [hpfile, hqfile, heq'] at hlt
    exact lt_irrefl _ hlt

theorem get_eq (hmem : (key, v) ∈ s.cache) :
    s.get key = ((s.vacate cost key).renew cost key v.aux, some v.aux) := by
  rw [CacheInner.get, h.cache.getKey_eq_some.mpr hmem, h.vacate_eq hmem]
  simp only [CacheInner.renew, insertKey_removeKey, Nat.sub_add_cancel (h.cost_le hmem)]

end Good

variable (cost) in
theorem vacate_le (s : CacheInner E) (key : CacheKey) :
    (s.vacate cost key).curCost ≤ s.curCost ∧ (s.vacate cost key).maxCost = s.maxCost := by
  unfold vacate
  split
  · exact ⟨Nat.sub_le _ _, rfl⟩
  · exact ⟨le_rfl, rfl⟩

end CacheInner

section

variable {cost} {s : CacheInner E} {log : List (Event E)} {key : CacheKey} {aux : E}

theorem EvictsInOrder.concat {e : Event E} (h : EvictsInOrder log)
    (he : ∀ key, e = .evicted key → (recency log).head? = some key) :
    EvictsInOrder (log ++ [e]) := by
  intro before key after hsplit
  rcases eq_nil_or_concat after with rfl | ⟨after, e', rfl⟩
  · obtain ⟨rfl, hlast⟩ := append_inj' hsplit rfl
    exact he key (singleton_inj.mp hlast)
  · rw [concat_eq_append, ← cons_append, ← append_assoc] at hsplit
    exact h before key after (append_inj' hsplit rfl).1

namespace CacheInner

variable (cost) in
/-- The cache holds what its log says, in the order in which the log says it was used. -/
structure Follows (s : CacheInner E) (log : List (Event E)) : Prop
    extends s.Good cost where
  order : s.lru.map Prod.snd = recency log
  holds : ∀ key aux, contents log key = some aux ↔ ∃ serial, (key, ⟨aux, serial⟩) ∈ s.cache
  ordered : EvictsInOrder log

namespace Follows

variable (h : s.Follows cost log)
include h

variable {e : Event E}

theorem vacate (he : e = .deleted key ∨ e = .evicted key ∧ (recency log).head? = some key) :
    (s.vacate cost key).Follows cost (log ++ [e]) := by
  obtain ⟨hgood, hcache, hlru⟩ := h.toGood.vacate key
  have hrecency : recency (log ++ [e]) =
      (recency log).filter (· ≠ key) := by
    rcases he with rfl | ⟨rfl, -⟩ <;> simp [recency]
  have hcontents : contents (log ++ [e]) =
      update (contents log) key none := by
    rcases he with rfl | ⟨rfl, -⟩ <;> simp [contents]
  refine ⟨hgood, by rw [hlru, hrecency, h.order], fun key' aux => ?_, h.ordered.concat ?_⟩
  · rw [hcontents, hcache, update_apply]
    simp only [mem_removeKey]
    split
    · next heq => simp [heq]
    · next hne => simp [h.holds, hne]
  · rintro key' rfl
    rcases he with he | ⟨he, hhead⟩
    · cases he
    · exact Event.evicted.inj he ▸ hhead

theorem renew (he : e = .inserted key aux ∨ e = .used key ∧ contents log key = some aux) :
    ((s.vacate cost key).renew cost key aux).Follows cost (log ++ [e]) := by
  obtain ⟨hgood, hcache, hlru⟩ := h.toGood.vacate key
  have hvacant : ∀ p ∈ (s.vacate cost key).cache, p.1 ≠ key :=
    fun p hp => (mem_removeKey.mp (hcache ▸ hp)).2
  obtain ⟨hgood', hlru'⟩ := hgood.renew hvacant aux
  have hrecency : recency (log ++ [e]) =
      (recency log).filter (· ≠ key) ++ [key] := by
    rcases he with rfl | ⟨rfl, -⟩ <;> simp [recency]
  have hcontents : contents (log ++ [e]) =
      update (contents log) key (some aux) := by
    rcases he with rfl | ⟨rfl, hheld⟩
    · simp [contents]
    · rw [← hheld, update_eq_self]
      simp [contents]
  refine ⟨hgood', by rw [hlru', hlru, hrecency, h.order], fun key' aux' => ?_,
    h.ordered.concat ?_⟩
  · rw [hcontents, update_apply, CacheInner.renew, hcache, insertKey_removeKey]
    simp only [mem_insertKey, Prod.mk.injEq, CacheValue.mk.injEq]
    split
    · next heq => simp [heq, eq_comm]
    · next hne => simp [h.holds, hne]
  · rintro key' rfl
    rcases he with he | ⟨he, -⟩ <;> cases he

theorem evictLoop (maxSize : ℕ) :
    ∃ s' keys, evictLoop cost maxSize s.lru s = .ok (s', keys) ∧
      s'.Follows cost (log ++ keys.map .evicted) ∧ s'.curCost ≤ maxSize ∧
      s'.maxCost = s.maxCost := by
  induction hl : s.lru generalizing s log with
  | nil =>
    have hcache : s.cache = [] := by
      refine eq_nil_iff_forall_not_mem.mpr fun p hp => ?_
      have hp' := (h.inverse _ _).mpr ⟨p.2.aux, hp⟩
      simp [hl] at hp'
    have hcost : s.curCost = 0 := by rw [h.cost, hcache]; rfl
    refine ⟨s, [], ?_, by simpa using h, by omega, rfl⟩
    rw [evictLoop, if_neg (by omega)]
  | cons p lru ih =>
    obtain ⟨serial, key⟩ := p
    rw [evictLoop]
    by_cases hcost : maxSize < s.curCost
    · obtain ⟨aux, haux⟩ := (h.inverse serial key).mp (by simp [hl])
      have hrest : removeKey s.lru serial = lru := by
        have hsorted := h.lru
        rw [hl] at hsorted ⊢
        rw [removeKey, filter_cons_of_neg (by simp), filter_eq_self]
        intro p hp
        simpa using ((pairwise_cons.mp hsorted).1 p hp).ne'
      have hvacate := h.vacate_eq haux
      rw [hrest] at hvacate
      have hhead : (recency log).head? = some key := by
        rw [← h.order, hl]
        rfl
      obtain ⟨s', keys, hloop, hfollows, hle, hmax⟩ :=
        ih (h.vacate (.inr ⟨rfl, hhead⟩)) (by rw [hvacate])
      refine ⟨s', key :: keys, ?_, by simpa using hfollows, hle, ?_⟩
      · rw [if_pos hcost, unwrapRemove_eq h.cache haux]
        simp only [bind, Except.bind, subCost, if_pos (h.cost_le haux), ← hvacate, hloop]
        rfl
      · rw [hmax, hvacate]
    · exact ⟨s, [], if_neg hcost, by simpa using h, not_lt.mp hcost, rfl⟩

theorem deleteOffsets (fileId : ℕ)
    {offsets : List (ℕ × ℕ)} (hnodup : (offsets.map Prod.fst).Nodup)
    (hmem : ∀ p ∈ offsets, ∃ aux, (.new fileId p.1, ⟨aux, p.2⟩) ∈ s.cache) :
    ∃ s', deleteOffsets cost fileId offsets s = .ok s' ∧
      s'.Follows cost (log ++ offsets.map fun p => .deleted (.new fileId p.1)) ∧
      s'.curCost ≤ s.curCost ∧ s'.maxCost = s.maxCost := by
  induction offsets generalizing s log with
  | nil => exact ⟨s, rfl, by simpa using h, le_rfl, rfl⟩
  | cons p offsets ih =>
    obtain ⟨offset, serial⟩ := p
    obtain ⟨hnotin, hnodup⟩ := nodup_cons.mp hnodup
    obtain ⟨aux, haux⟩ := hmem _ mem_cons_self
    have hlru := (h.inverse _ _).mpr ⟨aux, haux⟩
    have hle := s.vacate_le cost (.new fileId offset)
    have hnext : (s.vacate cost (.new fileId offset)).Follows cost
        (log ++ [.deleted (.new fileId offset)]) := h.vacate (.inl rfl)
    obtain ⟨s', hrest, hfollows, hcost, hmax⟩ := ih hnext hnodup fun p hp => by
      obtain ⟨aux', haux'⟩ := hmem p (mem_cons_of_mem _ hp)
      refine ⟨aux', ?_⟩
      rw [(h.toGood.vacate _).2.1, mem_removeKey]
      refine ⟨haux', fun heq => hnotin ?_⟩
      have heq' : p.1 = offset := congrArg (fun key : CacheKey => key.offset) heq
      exact mem_map.mpr ⟨p, hp, heq'⟩
    refine ⟨s', ?_, by simpa using hfollows, hcost.trans hle.1, hmax.trans hle.2⟩
    rw [deleteOffsets, unwrapRemove_eq h.lru hlru]
    simp only [bind, Except.bind, unwrapRemove_eq h.cache haux, subCost, if_pos (h.cost_le haux)]
    rw [← hrest, h.vacate_eq haux]

theorem insert (key : CacheKey) (aux : E) :
    ∃ s' keys, s.insert cost key aux = .ok (s', keys) ∧
      s'.Follows cost (log ++ keys.map .evicted ++ [.inserted key aux]) ∧
      s'.curCost ≤ max s.maxCost (cost aux) ∧ s'.maxCost = s.maxCost := by
  obtain ⟨s₁, keys, hevict, h₁, hle, hmax⟩ := h.evictLoop (s.maxCost - cost aux)
  obtain ⟨hcost, hmax'⟩ := s₁.vacate_le cost key
  refine ⟨_, keys, ?_, h₁.renew (.inl rfl), ?_, hmax'.trans hmax⟩
  · rw [CacheInner.insert, evictTo, hevict]
    simp only [bind, Except.bind, replaced]
    cases hv : getKey s₁.cache key with
    | none =>
      have hvacate : s₁.vacate cost key = s₁ := by rw [CacheInner.vacate, hv]
      rw [hvacate]
      rfl
    | some old =>
      have hmem := h₁.cache.getKey_eq_some.mp hv
      rw [h₁.vacate_eq hmem, CacheInner.renew, insertKey_removeKey]
      simp only [subCost, if_pos (h₁.cost_le hmem)]
      rfl
  · change (s₁.vacate cost key).curCost + cost aux ≤ _
    omega

end Follows

end CacheInner

open CacheInner

variable (cost) in
structure Traced.Sound (maxCost : ℕ) (t : Traced E) : Prop where
  follows : t.inner.Follows cost t.log
  limit : t.inner.maxCost = maxCost
  bound : t.inner.curCost ≤ max maxCost (lastCost cost t.log)

theorem lastCost_append {events : List (Event E)} (h : ∀ e ∈ events, ∀ k a, e ≠ .inserted k a) :
    lastCost cost (log ++ events) = lastCost cost log := by
  induction events generalizing log with
  | nil => simp
  | cons e events ih =>
    rw [append_cons, ih fun e he => h e (mem_cons_of_mem _ he)]
    have he := h e mem_cons_self
    cases e <;> simp_all [lastCost]

theorem Traced.Sound.step {maxCost : ℕ} {t : Traced E} (h : t.Sound cost maxCost) (op : Op E) :
    ∃ t', t.step cost op = .ok t' ∧ t'.Sound cost maxCost := by
  obtain ⟨hfollows, hmax, hbound⟩ := h
  cases op with
  | get key =>
    cases hv : getKey t.inner.cache key with
    | none =>
      refine ⟨t, ?_, hfollows, hmax, hbound⟩
      simp [Traced.step, CacheInner.get, hv]
    | some v =>
      have hmem := hfollows.cache.getKey_eq_some.mp hv
      have hheld := (hfollows.holds key v.aux).mpr ⟨v.serial, hmem⟩
      have hle := t.inner.vacate_le cost key
      refine ⟨_, by rw [Traced.step, hfollows.get_eq hmem], hfollows.renew (.inr ⟨rfl, hheld⟩),
        hle.2.trans hmax, ?_⟩
      rw [lastCost_append (by simp)]
      change (t.inner.vacate cost key).curCost + cost v.aux ≤ _
      rw [hfollows.vacate_eq hmem]
      exact (Nat.sub_add_cancel (hfollows.cost_le hmem)).trans_le hbound
  | insert key aux =>
    obtain ⟨s, keys, hinsert, hs, hle, hmax'⟩ := hfollows.insert key aux
    refine ⟨_, by rw [Traced.step, hinsert]; rfl, hs, hmax'.trans hmax, ?_⟩
    simpa [lastCost, hmax] using hle
  | evict fileId =>
    obtain ⟨hmem, hnodup⟩ := hfollows.offsets_mem fileId
    obtain ⟨s, hdelete, hs, hle, hmax'⟩ := hfollows.deleteOffsets fileId hnodup hmem
    refine ⟨_, by rw [Traced.step, deleteFile, hdelete]; rfl, hs, hmax'.trans hmax, ?_⟩
    rw [lastCost_append fun e he => ?_]
    · exact hle.trans hbound
    · obtain ⟨p, -, rfl⟩ := mem_map.mp he
      nofun

/-- Whatever is looked up, inserted and evicted, no `unwrap` fails. In every state reached the two
maps are inverse to each other, the recorded cost is that of what is cached and at most the limit
or the cost of the last value inserted, every lookup finds the last value inserted unless it was
evicted, and what was evicted for lack of room had been used least recently. -/
theorem run_cache (maxCost : ℕ) (ops : List (Op E)) :
    ∃ t, Machine.run (Traced.step cost) ⟨.new maxCost, []⟩ ops = .ok t ∧
      (∀ serial key, getKey t.inner.lru serial = some key ↔
        ∃ v, getKey t.inner.cache key = some v ∧ v.serial = serial) ∧
      t.inner.curCost = (t.inner.cache.map fun p => cost p.2.aux).sum ∧
      t.inner.curCost ≤ max maxCost (lastCost cost t.log) ∧
      (∀ key, (t.inner.get key).2 = contents t.log key) ∧
      EvictsInOrder t.log := by
  have hnew : (⟨.new maxCost, []⟩ : Traced E).Sound cost maxCost :=
    ⟨⟨⟨.nil, .nil, nofun, by simp [CacheInner.new], rfl⟩, rfl, by simp [contents, CacheInner.new],
      by simp [EvictsInOrder]⟩, rfl, Nat.zero_le _⟩
  obtain ⟨t, hrun, ⟨hfollows, -, hbound⟩⟩ := Machine.run_total
    (fun {t op} ht _ => Traced.Sound.step ht op) hnew (Machine.guarded_true _ ops)
  refine ⟨t, hrun, fun serial key => ?_, hfollows.cost, hbound, fun key => ?_, hfollows.ordered⟩
  · rw [hfollows.lru.getKey_eq_some, hfollows.inverse]
    simp only [hfollows.cache.getKey_eq_some]
    constructor
    · rintro ⟨aux, haux⟩
      exact ⟨_, haux, rfl⟩
    · rintro ⟨v, hv, rfl⟩
      exact ⟨v.aux, hv⟩
  · cases hv : getKey t.inner.cache key with
    | none =>
      have hnone : contents t.log key = none := by
        refine Option.eq_none_iff_forall_ne_some.mpr fun aux haux => ?_
        obtain ⟨serial, hmem⟩ := (hfollows.holds key aux).mp haux
        rw [hfollows.cache.getKey_eq_some.mpr hmem] at hv
        cases hv
      rw [hnone, CacheInner.get, hv]
    | some v =>
      have hmem := hfollows.cache.getKey_eq_some.mp hv
      rw [hfollows.get_eq hmem, (hfollows.holds key v.aux).mpr ⟨v.serial, hmem⟩]

end

end Feldera.BufferCache
