import Feldera.Trace.Cursor

/-!
The cursor of a batch of two levels: a position among the keys, and one among the values
of the current key. A position runs from one before the first item to one past the last;
when the key moves to a valid position, the value goes to the first one. Batches on
storage have a filter that may exclude a key without looking for it, in which case
`seek_key_exact` does not move.
-/

namespace Feldera.Trace

open OrderedSum List

variable {α K V R : Type*}

structure LevelCursor (α : Type*) where
  items : List α
  pos : ℤ
deriving DecidableEq

/-- Number of items at the front that satisfy `f`; the source searches for it, relying on `f`
staying false once it is false. -/
def advance (l : List α) (f : α → Bool) : Nat :=
  (l.takeWhile f).length

/-- The same from the end. -/
def retreat (l : List α) (f : α → Bool) : Nat :=
  (l.reverse.takeWhile f).length

namespace LevelCursor

def valid (c : LevelCursor α) : Bool :=
  decide (0 ≤ c.pos) && decide (c.pos < c.items.length)

def item (c : LevelCursor α) : Option α :=
  if c.valid then c.items[c.pos.toNat]? else none

variable (d : Direction)

variable (c : LevelCursor α)

def step : LevelCursor α :=
  match d with
  | .forward => { c with pos := if c.pos + 1 < c.items.length then c.pos + 1 else c.items.length }
  | .backward => { c with pos := if 0 ≤ c.pos - 1 then c.pos - 1 else -1 }

/-- `seek`, `seek_with` and their reverse counterparts: moves past the items that `skip` holds
for. -/
def seek (skip : α → Bool) (c : LevelCursor α) : LevelCursor α :=
  if c.valid then
    match d with
    | .forward => { c with pos := c.pos + advance (c.items.drop c.pos.toNat) skip }
    | .backward => { c with pos := c.pos - retreat (c.items.take (c.pos.toNat + 1)) skip }
  else c

def reset : LevelCursor α :=
  match d with
  | .forward => { c with pos := 0 }
  | .backward => { c with pos := c.items.length - 1 }

def ahead : List α :=
  match d with
  | .forward => c.items.drop c.pos.toNat
  | .backward => (c.items.take (c.pos + 1).toNat).reverse

def InBounds : Prop :=
  match d with
  | .forward => 0 ≤ c.pos ∧ c.pos ≤ c.items.length
  | .backward => -1 ≤ c.pos ∧ c.pos < c.items.length

theorem items_step : (c.step d).items = c.items := by
  cases d <;> rfl

theorem items_seek (skip : α → Bool) (c : LevelCursor α) : (c.seek d skip).items = c.items := by
  unfold seek
  split
  · cases d <;> rfl
  · rfl

theorem items_reset : (c.reset d).items = c.items := by
  cases d <;> rfl

variable (l : List α) (f : α → Bool)

theorem drop_advance : l.drop (advance l f) = l.dropWhile f := by
  unfold advance
  induction l with
  | nil => rfl
  | cons a l ih =>
    cases hf : f a with
    | true => simp [hf, ih]
    | false => simp [hf]

theorem advance_le : advance l f ≤ l.length :=
  (takeWhile_sublist f).length_le

theorem take_retreat : (l.take (l.length - retreat l f)).reverse = l.reverse.dropWhile f := by
  rw [← drop_advance, ← drop_reverse]
  rfl

theorem retreat_le : retreat l f ≤ l.length := by
  have h := advance_le l.reverse f
  rwa [length_reverse] at h

variable {c : LevelCursor α} {d : Direction}

section

variable (h : c.InBounds d)
include h

/-- Positions as natural numbers: how many items are behind a forward position, and how many
are left before a backward one. -/
theorem InBounds.exists_nat :
    ∃ n ≤ c.items.length, match d with
      | .forward => c.pos = n ∧ c.ahead d = c.items.drop n
      | .backward => c.pos = (n : ℤ) - 1 ∧ c.ahead d = (c.items.take n).reverse := by
  cases d with
  | forward =>
    obtain ⟨hzero, hlen⟩ := h
    exact ⟨c.pos.toNat, by omega, by omega, rfl⟩
  | backward =>
    obtain ⟨hzero, hlen⟩ := h
    exact ⟨(c.pos + 1).toNat, by omega, by omega, rfl⟩

theorem item_eq : c.item = (c.ahead d).head? := by
  obtain ⟨n, hn, hd⟩ := h.exists_nat
  unfold item valid
  cases d with
  | forward =>
    obtain ⟨hpos, hahead⟩ := hd
    rw [hahead, hpos, List.head?_drop]
    simp
  | backward =>
    obtain ⟨hpos, hahead⟩ := hd
    rw [hahead, hpos, List.head?_reverse]
    cases n with
    | zero => simp
    | succ m =>
      have hm : m < c.items.length := hn
      simp [List.getLast?_take, hm]

theorem step_spec : (c.step d).InBounds d ∧ (c.step d).ahead d = (c.ahead d).tail := by
  obtain ⟨n, hn, hd⟩ := h.exists_nat
  cases d with
  | forward =>
    obtain ⟨hpos, hahead⟩ := hd
    rw [hahead, tail_drop]
    simp only [step, InBounds, ahead, hpos]
    split
    · exact ⟨by omega, rfl⟩
    · next hge =>
      have hnil : c.items.drop (n + 1) = [] := drop_eq_nil_of_le (by omega)
      exact ⟨by omega, by simp [hnil]⟩
  | backward =>
    obtain ⟨hpos, hahead⟩ := hd
    rw [hahead]
    simp only [step, InBounds, ahead, hpos]
    cases n with
    | zero =>
      simp
      omega
    | succ m =>
      have htail : (c.items.take (m + 1)).reverse.tail = (c.items.take m).reverse := by
        rw [tail_reverse, dropLast_eq_take, take_take, length_take,
          Nat.min_eq_left hn, Nat.add_sub_cancel, Nat.min_eq_left (Nat.le_succ m)]
      rw [htail]
      split
      · refine ⟨by push_cast; omega, ?_⟩
        congr 2
        push_cast
        omega
      · next hneg =>
        have hm : m = 0 := by
          push_cast at hneg
          omega
        subst hm
        exact ⟨by omega, by simp⟩

theorem seek_of_invalid (hvalid : c.valid = false) : c.ahead d = [] := by
  have hitem := item_eq h
  rw [item, hvalid] at hitem
  exact List.head?_eq_none_iff.mp hitem.symm

theorem seek_spec (skip : α → Bool) :
    (c.seek d skip).InBounds d ∧ (c.seek d skip).ahead d = (c.ahead d).dropWhile skip := by
  unfold seek
  cases hvalid : c.valid with
  | false =>
    have hnil := seek_of_invalid h hvalid
    simp only [Bool.false_eq_true, if_false, hnil, dropWhile_nil, and_true]
    exact h
  | true =>
    obtain ⟨n, hn, hd⟩ := h.exists_nat
    simp only [if_true]
    cases d with
    | forward =>
      obtain ⟨hpos, hahead⟩ := hd
      rw [hahead, ← drop_advance, drop_drop]
      have hle := advance_le (c.items.drop n) skip
      rw [length_drop] at hle
      simp only [InBounds, ahead, hpos, Int.toNat_natCast]
      exact ⟨by omega, rfl⟩
    | backward =>
      obtain ⟨hpos, hahead⟩ := hd
      have hne : 0 < n := by
        simp only [valid, hpos, Bool.and_eq_true, decide_eq_true_eq] at hvalid
        omega
      have htake : c.pos.toNat + 1 = n := by omega
      have hle := retreat_le (c.items.take n) skip
      have hlen : (c.items.take n).length = n := by simp [hn]
      rw [hlen] at hle
      rw [hahead, ← take_retreat, hlen, take_take, htake]
      simp only [InBounds, ahead, hpos]
      refine ⟨by omega, ?_⟩
      congr 2
      omega

end

theorem reset_spec (d : Direction) (c : LevelCursor α) :
    (c.reset d).InBounds d ∧ (c.reset d).ahead d = d.list c.items := by
  cases d with
  | forward => simp [reset, InBounds, ahead, Direction.list]
  | backward =>
    simp only [reset, InBounds, ahead, Direction.list]
    exact ⟨by omega, by simp⟩

end LevelCursor

structure LayerCursor (K V R : Type*) where
  keys : LevelCursor (K × List (V × R))
  child : LevelCursor (V × R)
deriving DecidableEq

namespace LayerCursor

def new (entries : Entries K V R) : LayerCursor K V R :=
  ⟨⟨entries, 0⟩, ⟨(entries.head?.map Prod.snd).getD [], 0⟩⟩

/-- The keys have moved: at a valid position the child goes to the first value. -/
def moveKeys (c : LayerCursor K V R) (keys : LevelCursor (K × List (V × R))) :
    LayerCursor K V R :=
  match keys.item with
  | some p => ⟨keys, ⟨p.2, 0⟩⟩
  | none => ⟨keys, c.child⟩

end LayerCursor

section

variable {entries : Entries K V R} {p : Place K V R} {c : LayerCursor K V R}

structure LayerCursor.At (entries : Entries K V R) (p : Place K V R) (c : LayerCursor K V R) :
    Prop where
  items : c.keys.items = entries
  keys : c.keys.InBounds p.keyDir
  rest : c.keys.ahead p.keyDir = p.rest
  child : p.rest ≠ [] → c.child.items = (p.rest.head?.map Prod.snd).getD [] ∧
    c.child.InBounds p.valDir ∧ c.child.ahead p.valDir = p.vals

theorem LayerCursor.items_moveKeys (c : LayerCursor K V R)
    (keys : LevelCursor (K × List (V × R))) : (c.moveKeys keys).keys = keys := by
  unfold moveKeys
  split <;> rfl

theorem LayerCursor.at_moveKeys (c : LayerCursor K V R) {d : Direction}
    {keys : LevelCursor (K × List (V × R))} (hitems : keys.items = entries)
    (hkeys : keys.InBounds d) : At entries (.enter d (keys.ahead d)) (c.moveKeys keys) := by
  refine ⟨?_, ?_, ?_, fun hne => ?_⟩
  · rw [items_moveKeys, hitems]
  · rw [items_moveKeys]
    exact hkeys
  · rw [items_moveKeys]
    rfl
  obtain ⟨q, rest, hrest⟩ := exists_cons_of_ne_nil hne
  change keys.ahead d = q :: rest at hrest
  have hitem : keys.item = some q := by
    rw [LevelCursor.item_eq hkeys, hrest]
    rfl
  simp only [moveKeys, hitem, Place.enter, hrest]
  exact ⟨rfl, ⟨le_rfl, Int.natCast_nonneg _⟩, rfl⟩

theorem LayerCursor.at_new (entries : Entries K V R) :
    At entries (.enter .forward entries) (LayerCursor.new entries) :=
  ⟨rfl, ⟨le_rfl, Int.natCast_nonneg _⟩, rfl, fun _ => ⟨rfl, ⟨le_rfl, Int.natCast_nonneg _⟩, rfl⟩⟩

variable [LinearOrder K] {k : K}

structure LayerCursor.Near (entries : Entries K V R) (k : K) (p : Place K V R)
    (c : LayerCursor K V R) : Prop where
  items : c.keys.items = entries
  keys : c.keys.InBounds .forward
  forward : p.keyDir = .forward
  rest : (c.keys.ahead .forward).dropWhile (fun q => decide (q.1 < k)) =
    p.rest.dropWhile fun q => decide (q.1 < k)

theorem LayerCursor.Near.seek {k' : K} (h : Near entries k p c) (hk : k ≤ k') :
    At entries (p.seekKey k')
      (c.moveKeys (c.keys.seek .forward fun q => decide (q.1 < k'))) := by
  obtain ⟨hbounds, hahead⟩ := LevelCursor.seek_spec h.keys fun q => decide (q.1 < k')
  have hat := c.at_moveKeys ((LevelCursor.items_seek _ _ _).trans h.items) hbounds
  rw [hahead, ← dropWhile_lt_dropWhile_lt hk, h.rest, dropWhile_lt_dropWhile_lt hk] at hat
  rwa [Place.seekKey_of_forward h.forward]

theorem LayerCursor.Near.mono {k' : K} (h : Near entries k p c) (hk : k ≤ k') :
    Near entries k' p c := by
  refine { h with rest := ?_ }
  rw [← dropWhile_lt_dropWhile_lt hk, h.rest, dropWhile_lt_dropWhile_lt hk]

theorem LayerCursor.At.near_of_seek (h : At entries (p.seekKey k) c)
    (hforward : p.keyDir = .forward) : Near entries k p c := by
  rw [Place.seekKey_of_forward hforward] at h
  refine ⟨h.items, h.keys, hforward, ?_⟩
  rw [show c.keys.ahead .forward = _ from h.rest]
  exact dropWhile_lt_dropWhile_lt le_rfl _

def LayerCursor.stance (entries : Entries K V R) : Stance (LayerCursor K V R) K V R where
  firm := At entries
  loose := At entries
  near := Near entries
  able _ _ := True
  sure _ _ := True

theorem LayerCursor.stance_total (entries : Entries K V R) : (stance entries).Total :=
  ⟨fun _ _ => trivial, fun _ _ => trivial⟩

theorem LayerCursor.At.near (h : At entries p c) (hforward : p.keyDir = .forward) (k : K) :
    Near entries k p c := by
  refine ⟨h.items, hforward ▸ h.keys, hforward, ?_⟩
  rw [show c.keys.ahead .forward = p.rest from hforward ▸ h.rest]

variable [LinearOrder V]

/-- The cursor of a batch as a cursor; `mayContain` is the filter of a batch on storage. -/
def layerCursor [Zero R] (mayContain : K → Bool) : Cursor (LayerCursor K V R) K V R where
  getKey c := c.keys.item.map Prod.fst
  getVal c := c.child.item.map Prod.fst
  weight c := (c.child.item.map Prod.snd).getD 0
  mapTimes c := (c.child.item.map Prod.snd).toList
  stepKey d c := c.moveKeys (c.keys.step d)
  seekKey d key c := c.moveKeys (c.keys.seek d fun p => decide (d.lt p.1 key))
  seekKeyWith d predicate c := c.moveKeys (c.keys.seek d fun p => !predicate p.1)
  seekKeyExact key c :=
    if mayContain key then
      let c := c.moveKeys (c.keys.seek .forward fun p => decide (p.1 < key))
      (c, decide (c.keys.item.map Prod.fst = some key))
    else (c, false)
  resetKeys d c := c.moveKeys (c.keys.reset d)
  stepVal d c := { c with child := c.child.step d }
  seekVal d val c := { c with child := c.child.seek d fun p => decide (d.lt p.1 val) }
  seekValWith d predicate c := { c with child := c.child.seek d fun p => !predicate p.1 }
  resetVals d c := { c with child := c.child.reset d }

variable {mayContain : K → Bool}

theorem LayerCursor.At.apply [Zero R] (h : At entries p c) (op : Op K V) (hop : p.Permits op)
    (hexact : ∀ k, op ≠ .seekKeyExact k) :
    At entries (p.apply entries op) ((layerCursor mayContain).apply c op).1 := by
  -- the child moves, the keys stay
  have hchild : ∀ {child : LevelCursor (V × R)} {valDir : Direction} {vals : List (V × R)},
      (p.rest ≠ [] → child.items = c.child.items ∧ child.InBounds valDir ∧
        child.ahead valDir = vals) →
      At entries ⟨p.keyDir, p.rest, valDir, vals⟩ { c with child := child } := by
    intro child valDir vals hvals
    refine ⟨h.items, h.keys, h.rest, fun hne => ?_⟩
    obtain ⟨hitems, hbounds, hahead⟩ := hvals hne
    exact ⟨hitems.trans (h.child hne).1, hbounds, hahead⟩
  cases op with
  | stepKey d =>
    obtain rfl : d = p.keyDir := hop
    obtain ⟨hbounds, hahead⟩ := LevelCursor.step_spec h.keys
    have hat := c.at_moveKeys ((LevelCursor.items_step _ _).trans h.items) hbounds
    rwa [hahead, h.rest] at hat
  | seekKey d key =>
    obtain rfl : d = p.keyDir := hop
    obtain ⟨hbounds, hahead⟩ :=
      LevelCursor.seek_spec h.keys fun q => decide (p.keyDir.lt q.1 key)
    have hat := c.at_moveKeys ((LevelCursor.items_seek _ _ _).trans h.items) hbounds
    rwa [hahead, h.rest] at hat
  | seekKeyWith d predicate =>
    obtain ⟨rfl, -⟩ := hop
    obtain ⟨hbounds, hahead⟩ := LevelCursor.seek_spec h.keys fun q => !predicate q.1
    have hat := c.at_moveKeys ((LevelCursor.items_seek _ _ _).trans h.items) hbounds
    rwa [hahead, h.rest] at hat
  | seekKeyExact key => exact absurd rfl (hexact key)
  | resetKeys d =>
    obtain ⟨hbounds, hahead⟩ := LevelCursor.reset_spec d c.keys
    have hat := c.at_moveKeys ((LevelCursor.items_reset _ _).trans h.items) hbounds
    rwa [hahead, h.items] at hat
  | stepVal d =>
    obtain rfl : d = p.valDir := hop
    refine hchild fun hne => ?_
    obtain ⟨-, hbounds, hahead⟩ := h.child hne
    rw [← hahead]
    exact ⟨LevelCursor.items_step _ _, LevelCursor.step_spec hbounds⟩
  | seekVal d val =>
    obtain rfl : d = p.valDir := hop
    refine hchild fun hne => ?_
    obtain ⟨-, hbounds, hahead⟩ := h.child hne
    rw [← hahead]
    exact ⟨LevelCursor.items_seek _ _ _, LevelCursor.seek_spec hbounds _⟩
  | seekValWith d predicate =>
    obtain ⟨rfl, -⟩ := hop
    refine hchild fun hne => ?_
    obtain ⟨-, hbounds, hahead⟩ := h.child hne
    rw [← hahead]
    exact ⟨LevelCursor.items_seek _ _ _, LevelCursor.seek_spec hbounds _⟩
  | resetVals d =>
    refine hchild fun hne => ?_
    rw [← (h.child hne).1]
    exact ⟨LevelCursor.items_reset _ _, LevelCursor.reset_spec d c.child⟩

/-- The cursor of a batch keeps to its place. -/
theorem layerCursor_lawful [AddCommMonoid R] (hmay : ∀ q ∈ entries, mayContain q.1 = true) :
    (layerCursor mayContain).Lawful entries (LayerCursor.stance entries) where
  getKey {p c} h := by
    change c.keys.item.map Prod.fst = p.key
    rw [LevelCursor.item_eq h.keys, h.rest]
    rfl
  getVal {p c} h hne := by
    obtain ⟨-, hbounds, hahead⟩ := h.child hne
    change c.child.item.map Prod.fst = _
    rw [LevelCursor.item_eq hbounds, hahead]
  weight {p c} h hne q hq := by
    obtain ⟨-, hbounds, hahead⟩ := h.child hne
    change (c.child.item.map Prod.snd).getD 0 = _
    rw [LevelCursor.item_eq hbounds, hahead, Option.mem_def.mp hq]
    rfl
  mapTimes {p c} h hne q hq := by
    obtain ⟨-, hbounds, hahead⟩ := h.child hne
    change (c.child.item.map Prod.snd).toList.sum = _
    rw [LevelCursor.item_eq hbounds, hahead, Option.mem_def.mp hq]
    simp
  loose_of_firm h := h
  apply op h hop hexact := h.apply op hop hexact
  apply_loose op h hop hvalues := h.apply op hop fun k hk => by
    rw [hk] at hvalues
    exact hvalues
  near_of_firm k h hforward := h.near hforward k
  near_of_loose h hforward k _ := h.near hforward k
  near_self {p c k} h := by
    refine ⟨h.items, h.keys, h.forward, ?_⟩
    rw [Place.seekKey_of_forward h.forward, h.rest]
    exact (dropWhile_lt_dropWhile_lt le_rfl _).symm
  near_seek h hk := h.seek hk
  near_exact {p c k k'} h hk _ := by
    have hseek := h.seek hk
    cases hcontains : mayContain k' with
    | true =>
      have hexact : (layerCursor mayContain).seekKeyExact k' c =
          (c.moveKeys (c.keys.seek .forward fun q => decide (q.1 < k')),
            decide ((c.moveKeys (c.keys.seek .forward fun q =>
              decide (q.1 < k'))).keys.item.map Prod.fst = some k')) := by
        simp [layerCursor, hcontains]
      rw [hexact]
      refine ⟨?_, fun _ => ⟨hseek, fun _ => hseek⟩, hseek.near_of_seek h.forward⟩
      simp only [LevelCursor.item_eq hseek.keys, hseek.rest]
      rfl
    | false =>
      have hexact : (layerCursor mayContain).seekKeyExact k' c = (c, false) := by
        simp [layerCursor, hcontains]
      rw [hexact]
      refine ⟨?_, nofun, h.mono hk⟩
      -- a key that the filter excludes is not among the entries
      refine (decide_eq_false fun hkey => ?_).symm
      rw [Place.seekKey_of_forward h.forward, Place.key, Place.enter] at hkey
      obtain ⟨q, hq, hqk⟩ := Option.map_eq_some_iff.mp hkey
      have hmem : q ∈ entries := by
        rw [← dropWhile_lt_dropWhile_lt hk, ← h.rest, dropWhile_lt_dropWhile_lt hk] at hq
        have hahead := (dropWhile_sublist _).mem (mem_of_mem_head? hq)
        exact h.items ▸ mem_of_mem_drop hahead
      rw [← hqk, hmay q hmem] at hcontains
      exact absurd hcontains (by simp)
  near_reset {p c k} d h := by
    obtain ⟨hbounds, hahead⟩ := LevelCursor.reset_spec d c.keys
    have hat := c.at_moveKeys ((LevelCursor.items_reset _ _).trans h.items) hbounds
    rwa [hahead, h.items] at hat

end

end Feldera.Trace
