import Feldera.Algebra.OrderedSum
import Feldera.Trace.Batch

/-!
Cursors over untimed batches. A cursor stands on a key and on a value below it, and each
of the two moves in one direction until it is rewound or fast forwarded; whenever the key
moves, the value goes back to the first one, forward.

What a cursor is for is its place: the keys and the values that are left in its
directions. `Lawful` says that a cursor over given entries keeps to its place. The
liberties it has come with `seek_key_exact`: if that answers `false`, the position is not
determined; if it answers `true`, the values of the key are there, but the keys that follow
may not be, where a part of the cursor was left behind. Seeking further, rewinding or fast
forwarding leads back to the place that it should.
-/

namespace Feldera.Trace

open OrderedSum List

inductive Direction
  | forward
  | backward
deriving DecidableEq

namespace Direction

variable {α β : Type*}

/-- `a` is left before `b` is reached. -/
def lt [LT α] (d : Direction) (a b : α) : Prop :=
  match d with
  | forward => a < b
  | backward => b < a

instance [LinearOrder α] (d : Direction) : DecidableRel (d.lt : α → α → Prop) :=
  match d with
  | forward => fun a b => inferInstanceAs (Decidable (a < b))
  | backward => fun a b => inferInstanceAs (Decidable (b < a))

instance [LinearOrder α] (d : Direction) : IsStrictTotalOrder α (d.lt : α → α → Prop) :=
  match d with
  | forward => inferInstanceAs (IsStrictTotalOrder α (· < ·))
  | backward => inferInstanceAs (IsStrictTotalOrder α (· > ·))

def list (d : Direction) (l : List β) : List β :=
  match d with
  | forward => l
  | backward => l.reverse

end Direction

variable {σ σ' K V R : Type*}

abbrev Entries (K V R : Type*) := List (K × List (V × R))

/-- The operations of a cursor of an untimed batch. `getKey` and `getVal` are empty where
`key_valid` and `val_valid` are false; `mapTimes` gives the weights that the callback
receives. -/
structure Cursor (σ K V R : Type*) where
  getKey : σ → Option K
  getVal : σ → Option V
  weight : σ → R
  mapTimes : σ → List R
  stepKey : Direction → σ → σ
  seekKey : Direction → K → σ → σ
  seekKeyWith : Direction → (K → Bool) → σ → σ
  seekKeyExact : K → σ → σ × Bool
  /-- `rewind_keys` and `fast_forward_keys`. -/
  resetKeys : Direction → σ → σ
  stepVal : Direction → σ → σ
  seekVal : Direction → V → σ → σ
  seekValWith : Direction → (V → Bool) → σ → σ
  /-- `rewind_vals` and `fast_forward_vals`. -/
  resetVals : Direction → σ → σ

inductive Op (K V : Type*)
  | stepKey (d : Direction)
  | seekKey (d : Direction) (key : K)
  | seekKeyWith (d : Direction) (predicate : K → Bool)
  | seekKeyExact (key : K)
  | resetKeys (d : Direction)
  | stepVal (d : Direction)
  | seekVal (d : Direction) (val : V)
  | seekValWith (d : Direction) (predicate : V → Bool)
  | resetVals (d : Direction)

namespace Cursor

variable (C : Cursor σ K V R)

/-- The cursor after an operation, and whether `seek_key_exact` has found its key. -/
def apply (s : σ) : Op K V → σ × Bool
  | .stepKey d => (C.stepKey d s, true)
  | .seekKey d key => (C.seekKey d key s, true)
  | .seekKeyWith d predicate => (C.seekKeyWith d predicate s, true)
  | .seekKeyExact key => C.seekKeyExact key s
  | .resetKeys d => (C.resetKeys d s, true)
  | .stepVal d => (C.stepVal d s, true)
  | .seekVal d val => (C.seekVal d val s, true)
  | .seekValWith d predicate => (C.seekValWith d predicate s, true)
  | .resetVals d => (C.resetVals d s, true)

/-- What can be seen of a cursor: the key, if it is valid, with the value and its weight, if that
is valid. -/
def seen (s : σ) : Option (K × Option (V × R)) :=
  (C.getKey s).map fun k => (k, (C.getVal s).map fun v => (v, C.weight s))

end Cursor

/-- What is left of a batch in the directions of a cursor. -/
structure Place (K V R : Type*) where
  keyDir : Direction
  rest : Entries K V R
  valDir : Direction
  vals : List (V × R)

namespace Place

/-- The cursor moves to the first of `rest`. -/
def enter (d : Direction) (rest : Entries K V R) : Place K V R :=
  ⟨d, rest, .forward, (rest.head?.map Prod.snd).getD []⟩

def key (p : Place K V R) : Option K :=
  p.rest.head?.map Prod.fst

def seen (p : Place K V R) : Option (K × Option (V × R)) :=
  p.key.map fun k => (k, p.vals.head?)

variable [LinearOrder K] [LinearOrder V]

def seekKey (key : K) (p : Place K V R) : Place K V R :=
  enter p.keyDir (p.rest.dropWhile fun q => decide (p.keyDir.lt q.1 key))

/-- Where an operation leads over `entries`. -/
def apply (entries : Entries K V R) (p : Place K V R) : Op K V → Place K V R
  | .stepKey _ => enter p.keyDir p.rest.tail
  | .seekKey _ key | .seekKeyExact key => p.seekKey key
  | .seekKeyWith _ predicate => enter p.keyDir (p.rest.dropWhile fun q => !predicate q.1)
  | .resetKeys d => enter d (d.list entries)
  | .stepVal _ => { p with vals := p.vals.tail }
  | .seekVal _ val => { p with vals := p.vals.dropWhile fun q => decide (p.valDir.lt q.1 val) }
  | .seekValWith _ predicate => { p with vals := p.vals.dropWhile fun q => !predicate q.1 }
  | .resetVals d => { p with valDir := d, vals := d.list ((p.rest.head?.map Prod.snd).getD []) }

/-- The operation goes in the direction of the place. -/
def Permits (p : Place K V R) : Op K V → Prop
  | .stepKey d | .seekKey d _ => d = p.keyDir
  | .seekKeyWith d predicate => d = p.keyDir ∧ Upward (d.lt : K → K → Prop) predicate
  | .seekKeyExact _ => p.keyDir = .forward
  | .resetKeys _ | .resetVals _ => True
  | .stepVal d | .seekVal d _ => d = p.valDir
  | .seekValWith d predicate => d = p.valDir ∧ Upward (d.lt : V → V → Prop) predicate

end Place

theorem dropWhile_dropWhile {α : Type*} {P Q : α → Bool} (h : ∀ a, P a = true → Q a = true)
    (l : List α) : (l.dropWhile P).dropWhile Q = l.dropWhile Q := by
  induction l with
  | nil => rfl
  | cons a l ih =>
    cases hP : P a with
    | true =>
      rw [dropWhile_cons_of_pos hP, ih, dropWhile_cons_of_pos (h a hP)]
    | false => rw [dropWhile_cons_of_neg (by simp [hP])]

theorem dropWhile_lt_dropWhile_lt [LinearOrder K] {k k' : K} (h : k ≤ k') (l : Entries K V R) :
    (l.dropWhile fun q => decide (q.1 < k)).dropWhile (fun q => decide (q.1 < k')) =
      l.dropWhile fun q => decide (q.1 < k') :=
  dropWhile_dropWhile (fun _ hq => decide_eq_true ((of_decide_eq_true hq).trans_le h)) l

theorem Place.seekKey_of_forward [LinearOrder K] {p : Place K V R} (h : p.keyDir = .forward)
    (k : K) : p.seekKey k = .enter .forward (p.rest.dropWhile fun q => decide (q.1 < k)) := by
  unfold seekKey
  rw [h]
  rfl

/-- The operation moves among the values of the current key. -/
def Op.OnValues : Op K V → Prop
  | .stepVal _ | .seekVal _ _ | .seekValWith _ _ | .resetVals _ => True
  | _ => False

theorem Place.apply_onValues [LinearOrder K] [LinearOrder V] (l : Entries K V R) (p : Place K V R)
    {op : Op K V} (h : op.OnValues) :
    (p.apply l op).keyDir = p.keyDir ∧ (p.apply l op).rest = p.rest := by
  cases op with
  | stepVal d => exact ⟨rfl, rfl⟩
  | seekVal d val => exact ⟨rfl, rfl⟩
  | seekValWith d predicate => exact ⟨rfl, rfl⟩
  | resetVals d => exact ⟨rfl, rfl⟩
  | _ => exact h.elim

/-- How the states of a cursor may stand to places. -/
structure Stance (σ K V R : Type*) where
  /-- The cursor is at the place. -/
  firm : Place K V R → σ → Prop
  /-- It shows the place, and its values; the keys that follow may not be those of the place. -/
  loose : Place K V R → σ → Prop
  /-- It will be where it should once it is moved to the key or further. -/
  near : K → Place K V R → σ → Prop
  /-- `seek_key_exact` of the key finds it if it is there. -/
  able : σ → K → Prop
  /-- `seek_key_exact` of the key leaves nothing behind. -/
  sure : σ → K → Prop

section

variable [LinearOrder K] [LinearOrder V] [AddCommMonoid R]

/-- A cursor over `entries`, whose states stand to places as `S` says. -/
structure Cursor.Lawful (C : Cursor σ K V R) (entries : Entries K V R) (S : Stance σ K V R) :
    Prop where
  getKey : ∀ {p s}, S.loose p s → C.getKey s = p.key
  getVal : ∀ {p s}, S.loose p s → p.rest ≠ [] → C.getVal s = p.vals.head?.map Prod.fst
  weight : ∀ {p s}, S.loose p s → p.rest ≠ [] → ∀ q ∈ p.vals.head?, C.weight s = q.2
  mapTimes : ∀ {p s}, S.loose p s → p.rest ≠ [] → ∀ q ∈ p.vals.head?,
    (C.mapTimes s).sum = q.2
  loose_of_firm : ∀ {p s}, S.firm p s → S.loose p s
  apply : ∀ {p s} (op : Op K V), S.firm p s → p.Permits op → (∀ k, op ≠ .seekKeyExact k) →
    S.firm (p.apply entries op) (C.apply s op).1
  apply_loose : ∀ {p s} (op : Op K V), S.loose p s → p.Permits op → op.OnValues →
    S.loose (p.apply entries op) (C.apply s op).1
  near_of_firm : ∀ {p s} k, S.firm p s → p.keyDir = .forward → S.near k p s
  near_of_loose : ∀ {p s}, S.loose p s → p.keyDir = .forward → ∀ k ∈ p.key, S.near k p s
  near_self : ∀ {p s k}, S.near k p s → S.near k (p.seekKey k) s
  near_seek : ∀ {p s k k'}, S.near k p s → k ≤ k' →
    S.firm (p.seekKey k') (C.seekKey .forward k' s)
  near_exact : ∀ {p s k k'}, S.near k p s → k ≤ k' → S.able s k' →
    (C.seekKeyExact k' s).2 = decide ((p.seekKey k').key = some k') ∧
      ((C.seekKeyExact k' s).2 = true → S.loose (p.seekKey k') (C.seekKeyExact k' s).1 ∧
        (S.sure s k' → S.firm (p.seekKey k') (C.seekKeyExact k' s).1)) ∧
      S.near k' p (C.seekKeyExact k' s).1
  near_reset : ∀ {p s k} d, S.near k p s → S.firm (.enter d (d.list entries)) (C.resetKeys d s)

theorem Cursor.Lawful.seen {C : Cursor σ K V R} {entries : Entries K V R}
    {S : Stance σ K V R} (h : C.Lawful entries S) {p : Place K V R} {s : σ}
    (hp : S.loose p s) : C.seen s = p.seen := by
  unfold Cursor.seen Place.seen
  rw [h.getKey hp]
  cases hrest : p.rest with
  | nil => simp [Place.key, hrest]
  | cons q rest =>
    have hne : p.rest ≠ [] := by simp [hrest]
    rw [h.getVal hp hne]
    cases hvals : p.vals with
    | nil => simp [Place.key, hrest]
    | cons u vals =>
      have hweight := h.weight hp hne u (by simp [hvals])
      simp [Place.key, hrest, hweight]

end

section

/-- What can be relied on in a run: the directions of the cursor, the key of the last
`seek_key_exact`, if the keys have not moved since, whether that was missing, and whether
something may have been left behind. -/
structure Mode (K : Type*) where
  keyDir : Direction
  valDir : Direction
  sought : Option K
  missing : Bool
  behind : Prop

def Mode.new : Mode K := ⟨.forward, .forward, none, false, False⟩

/-- The mode after an operation that answered `found`. -/
def Mode.after (m : Mode K) (found : Bool) (sure : K → Prop) : Op K V → Mode K
  | .stepKey _ | .seekKey _ _ | .seekKeyWith _ _ => ⟨m.keyDir, .forward, none, false, False⟩
  | .seekKeyExact key => ⟨m.keyDir, .forward, some key, !found, ¬sure key⟩
  | .resetKeys d => ⟨d, .forward, none, false, False⟩
  | .stepVal _ | .seekVal _ _ | .seekValWith _ _ => m
  | .resetVals d => { m with valDir := d }

/-- A key that may be sought: after a key was missing, or something was left behind, only that
key or a greater one. -/
def Mode.Reaches [LE K] (m : Mode K) (key : K) : Prop :=
  m.missing = true ∨ m.behind → ∀ k ∈ m.sought, k ≤ key

/-- Operations go in the current direction, with predicates that stay true once they are true.
Values are not visited after a key was missing; the next key is not visited then, nor after
something was left behind. -/
def Mode.Permits [LinearOrder K] [LinearOrder V] (m : Mode K) : Op K V → Prop
  | .stepKey d => d = m.keyDir ∧ m.missing = false ∧ ¬m.behind
  | .seekKey d key => d = m.keyDir ∧ m.Reaches key
  | .seekKeyWith d predicate =>
    d = m.keyDir ∧ Upward (d.lt : K → K → Prop) predicate ∧ m.missing = false ∧ ¬m.behind
  | .seekKeyExact key => m.keyDir = .forward ∧ m.Reaches key
  | .resetKeys _ => True
  | .stepVal d | .seekVal d _ => d = m.valDir ∧ m.missing = false
  | .seekValWith d predicate =>
    d = m.valDir ∧ Upward (d.lt : V → V → Prop) predicate ∧ m.missing = false
  | .resetVals _ => m.missing = false

/-- A run of operations: the cursor, its mode and the answers. -/
def Cursor.run (C : Cursor σ K V R) (sure : σ → K → Prop) (s : σ) (ops : List (Op K V)) :
    σ × Mode K × List Bool :=
  ops.foldl (fun x op =>
    let r := C.apply x.1 op
    (r.1, x.2.1.after r.2 (sure x.1) op, x.2.2 ++ [r.2])) (s, Mode.new, [])

/-- Every operation of a run is permitted where it is applied, and `seek_key_exact` is called
where the cursor is able to answer. -/
def Cursor.Proper [LinearOrder K] [LinearOrder V] (C : Cursor σ K V R)
    (able sure : σ → K → Prop) (s : σ) (ops : List (Op K V)) : Prop :=
  ∀ before op after, ops = before ++ op :: after →
    (C.run sure s before).2.1.Permits op ∧
      ∀ key, op = .seekKeyExact key → able (C.run sure s before).1 key

variable (C : Cursor σ K V R)

theorem Cursor.proper_nil [LinearOrder K] [LinearOrder V] (able sure : σ → K → Prop) (s : σ) :
    C.Proper able sure s [] :=
  fun before _ _ hsplit => absurd hsplit (by simp)

theorem Cursor.Proper.concat [LinearOrder K] [LinearOrder V] {C : Cursor σ K V R}
    {able sure : σ → K → Prop} {s : σ} {ops : List (Op K V)} (h : C.Proper able sure s ops)
    (op : Op K V) (hop : (C.run sure s ops).2.1.Permits op)
    (hable : ∀ key, op = .seekKeyExact key → able (C.run sure s ops).1 key) :
    C.Proper able sure s (ops ++ [op]) := by
  intro before op' after hsplit
  rcases eq_nil_or_concat after with rfl | ⟨after, last, rfl⟩
  · obtain ⟨rfl, heq⟩ := append_inj' hsplit rfl
    obtain rfl : op = op' := by simpa using heq
    exact ⟨hop, hable⟩
  · rw [concat_eq_append, ← cons_append, ← append_assoc] at hsplit
    exact h before op' after (append_inj' hsplit rfl).1

variable [LinearOrder K] [LinearOrder V] [AddCommMonoid R]

/-- The states of a run: at a place, unless a key was missing, and then near one. -/
structure Tracks (S : Stance σ K V R) (p : Place K V R) (m : Mode K) (s : σ) : Prop where
  keyDir : p.keyDir = m.keyDir
  missing : m.missing = true → m.keyDir = .forward ∧ ∃ k ∈ m.sought, S.near k p s
  found : m.missing = false → p.valDir = m.valDir ∧ S.loose p s
  firm : m.missing = false → ¬m.behind → S.firm p s
  behind : m.missing = false → m.behind → m.keyDir = .forward ∧ p.key = m.sought ∧
    m.sought ≠ none

def Place.finds (p : Place K V R) : Op K V → Bool
  | .seekKeyExact key => decide ((p.seekKey key).key = some key)
  | _ => true

/-- The place after an operation; a missing key does not change it. -/
def Place.next (entries : Entries K V R) (p : Place K V R) (op : Op K V) : Place K V R :=
  if p.finds op then p.apply entries op else p

variable {entries : Entries K V R} {C : Cursor σ K V R} {S : Stance σ K V R}
  {p : Place K V R} {m : Mode K} {s : σ}

section

variable (h : C.Lawful entries S)
include h

/-- A state of a run is near the keys that may be sought. -/
theorem Cursor.Lawful.near (htracks : Tracks S p m s) (hforward : m.keyDir = .forward) {key : K}
    (hkey : m.Reaches key) : ∃ k ≤ key, S.near k p s := by
  have hdir : p.keyDir = .forward := htracks.keyDir.trans hforward
  cases hmissing : m.missing with
  | true =>
    obtain ⟨-, k, hk, hnear⟩ := htracks.missing hmissing
    exact ⟨k, hkey (.inl hmissing) k hk, hnear⟩
  | false =>
    by_cases hbehind : m.behind
    · obtain ⟨-, hpk, hsought⟩ := htracks.behind hmissing hbehind
      obtain ⟨k, hk⟩ := Option.ne_none_iff_exists'.mp hsought
      refine ⟨k, hkey (.inr hbehind) k hk, ?_⟩
      exact h.near_of_loose (htracks.found hmissing).2 hdir k (hpk.trans hk)
    · exact ⟨key, le_rfl, h.near_of_firm key (htracks.firm hmissing hbehind) hdir⟩

theorem tracks_of_firm {keyDir valDir : Direction} (hfirm : S.firm p s)
    (hkey : p.keyDir = keyDir) (hval : p.valDir = valDir) :
    Tracks S p ⟨keyDir, valDir, none, false, False⟩ s where
  keyDir := hkey
  missing := nofun
  found _ := ⟨hval, h.loose_of_firm hfirm⟩
  firm _ _ := hfirm
  behind _ := nofun

theorem Tracks.onValues (htracks : Tracks S p m s) (op : Op K V) (hmissing : m.missing = false)
    (hop : p.Permits op) (hvalues : op.OnValues) {valDir : Direction}
    (hval : (p.apply entries op).valDir = valDir)
    (hkeys : (p.apply entries op).keyDir = p.keyDir ∧ (p.apply entries op).key = p.key) :
    Tracks S (p.apply entries op) { m with valDir := valDir } (C.apply s op).1 where
  keyDir := hkeys.1.trans htracks.keyDir
  missing hm := by
    rw [hmissing] at hm
    exact absurd hm (by simp)
  found _ := ⟨hval, h.apply_loose op (htracks.found hmissing).2 hop hvalues⟩
  firm _ hbehind := by
    refine h.apply op (htracks.firm hmissing hbehind) hop fun k hk => ?_
    rw [hk] at hvalues
    exact hvalues
  behind _ hbehind := by
    rw [hkeys.2]
    exact htracks.behind hmissing hbehind

/-- One operation: the place determines the answer and is tracked. -/
theorem Cursor.Lawful.step (htracks : Tracks S p m s) {op : Op K V} (hop : m.Permits op)
    (hable : ∀ k, op = .seekKeyExact k → S.able s k) :
    (C.apply s op).2 = p.finds op ∧
      Tracks S (p.next entries op) (m.after (p.finds op) (S.sure s) op) (C.apply s op).1 := by
  have hdir := htracks.keyDir
  cases op with
  | stepKey d =>
    obtain ⟨hd, hmissing, hbehind⟩ := hop
    have hfirm := h.apply (.stepKey d) (htracks.firm hmissing hbehind) (hd.trans hdir.symm) nofun
    exact ⟨rfl, tracks_of_firm h hfirm hdir rfl⟩
  | seekKey d key =>
    obtain ⟨hd, hreach⟩ := hop
    have hfirm : S.firm (p.seekKey key) (C.seekKey d key s) := by
      by_cases hfirm : m.missing = false ∧ ¬m.behind
      · exact h.apply (.seekKey d key) (htracks.firm hfirm.1 hfirm.2) (hd.trans hdir.symm) nofun
      have hforward : m.keyDir = .forward := by
        cases hmissing : m.missing with
        | true => exact (htracks.missing hmissing).1
        | false =>
          have hbehind : m.behind := by
            by_contra hno
            exact hfirm ⟨hmissing, hno⟩
          exact (htracks.behind hmissing hbehind).1
      obtain ⟨k, hk, hnear⟩ := h.near htracks hforward hreach
      rw [hd, hforward]
      exact h.near_seek hnear hk
    exact ⟨rfl, tracks_of_firm h hfirm hdir rfl⟩
  | seekKeyWith d predicate =>
    obtain ⟨hd, hup, hmissing, hbehind⟩ := hop
    have hfirm := h.apply (.seekKeyWith d predicate) (htracks.firm hmissing hbehind)
      ⟨hd.trans hdir.symm, hup⟩ nofun
    exact ⟨rfl, tracks_of_firm h hfirm hdir rfl⟩
  | seekKeyExact key =>
    obtain ⟨hforward, hreach⟩ := hop
    obtain ⟨k, hk, hnear⟩ := h.near htracks hforward hreach
    obtain ⟨hanswer, hfound, hnear'⟩ := h.near_exact hnear hk (hable key rfl)
    refine ⟨hanswer, ?_⟩
    change (C.seekKeyExact key s).2 = p.finds (.seekKeyExact key) at hanswer
    unfold Place.next
    cases hfinds : p.finds (.seekKeyExact key : Op K V) with
    | true =>
      obtain ⟨hloose, hfirm⟩ := hfound (hanswer.trans hfinds)
      refine ⟨hdir, nofun, fun _ => ⟨rfl, hloose⟩, fun _ hsure => hfirm (not_not.mp hsure),
        fun _ _ => ⟨hforward, ?_, by simp [Mode.after]⟩⟩
      exact of_decide_eq_true hfinds
    | false =>
      exact ⟨hdir, fun _ => ⟨hforward, key, rfl, hnear'⟩, nofun, nofun, nofun⟩
  | resetKeys d =>
    have hfirm : S.firm (.enter d (d.list entries)) (C.resetKeys d s) := by
      by_cases hfirm : m.missing = false ∧ ¬m.behind
      · exact h.apply (.resetKeys d) (htracks.firm hfirm.1 hfirm.2) trivial nofun
      cases hmissing : m.missing with
      | true =>
        obtain ⟨-, k, -, hnear⟩ := htracks.missing hmissing
        exact h.near_reset d hnear
      | false =>
        have hbehind : m.behind := by
          by_contra hno
          exact hfirm ⟨hmissing, hno⟩
        obtain ⟨hforward, hpk, hsought⟩ := htracks.behind hmissing hbehind
        obtain ⟨k, hk⟩ := Option.ne_none_iff_exists'.mp hsought
        exact h.near_reset d (h.near_of_loose (htracks.found hmissing).2
          (hdir.trans hforward) k (hpk.trans hk))
    exact ⟨rfl, tracks_of_firm h hfirm rfl rfl⟩
  | stepVal d =>
    obtain ⟨hd, hmissing⟩ := hop
    have hval := (htracks.found hmissing).1
    exact ⟨rfl, htracks.onValues h (.stepVal d) hmissing (hd.trans hval.symm) trivial hval
      ⟨rfl, rfl⟩⟩
  | seekVal d val =>
    obtain ⟨hd, hmissing⟩ := hop
    have hval := (htracks.found hmissing).1
    exact ⟨rfl, htracks.onValues h (.seekVal d val) hmissing (hd.trans hval.symm) trivial hval
      ⟨rfl, rfl⟩⟩
  | seekValWith d predicate =>
    obtain ⟨hd, hup, hmissing⟩ := hop
    have hval := (htracks.found hmissing).1
    exact ⟨rfl, htracks.onValues h (.seekValWith d predicate) hmissing
      ⟨hd.trans hval.symm, hup⟩ trivial hval ⟨rfl, rfl⟩⟩
  | resetVals d =>
    exact ⟨rfl, htracks.onValues h (.resetVals d) hop trivial trivial rfl ⟨rfl, rfl⟩⟩

end

omit [LinearOrder K] [LinearOrder V] [AddCommMonoid R] in
theorem Cursor.run_concat (sure : σ → K → Prop) (s : σ) (ops : List (Op K V)) (op : Op K V) :
    C.run sure s (ops ++ [op]) =
      ((C.apply (C.run sure s ops).1 op).1,
        (C.run sure s ops).2.1.after (C.apply (C.run sure s ops).1 op).2
          (sure (C.run sure s ops).1) op,
        (C.run sure s ops).2.2 ++ [(C.apply (C.run sure s ops).1 op).2]) := by
  simp [run]

/-- A cursor that leaves nothing behind. -/
structure Stance.Total (S : Stance σ K V R) : Prop where
  able : ∀ s k, S.able s k
  sure : ∀ s k, S.sure s k

omit [LinearOrder K] [LinearOrder V] [AddCommMonoid R] in
theorem Mode.after_of_sure (m : Mode K) (found : Bool) {sure sure' : K → Prop}
    (hsure : ∀ k, sure' k) (op : Op K V) :
    { m with behind := False }.after found sure' op =
      { m.after found sure op with behind := False } := by
  cases op with
  | seekKeyExact key => simp [after, hsure key]
  | _ => rfl

theorem Mode.permits_of_not_behind {m : Mode K} {op : Op K V} (h : m.Permits op) :
    { m with behind := False }.Permits op := by
  have hreach : ∀ {key}, m.Reaches key → { m with behind := False }.Reaches key :=
    fun hkey hor => hkey (hor.imp id False.elim)
  cases op with
  | stepKey d => exact ⟨h.1, h.2.1, id⟩
  | seekKey d key => exact ⟨h.1, hreach h.2⟩
  | seekKeyWith d predicate => exact ⟨h.1, h.2.1, h.2.2.1, id⟩
  | seekKeyExact key => exact ⟨h.1, hreach h.2⟩
  | _ => exact h

/-- A lawful cursor and one over the same entries that leaves nothing behind give the same answers
in every proper run, and after it the same is to be seen, unless a key was missing. -/
theorem Cursor.Lawful.agree {C' : Cursor σ' K V R} {S' : Stance σ' K V R}
    (h : C.Lawful entries S) (h' : C'.Lawful entries S') (htotal : S'.Total) {s' : σ'}
    (hs : S.firm (.enter .forward entries) s) (hs' : S'.firm (.enter .forward entries) s')
    (ops : List (Op K V)) (hproper : C.Proper S.able S.sure s ops) :
    (C.run S.sure s ops).2.2 = (C'.run S'.sure s' ops).2.2 ∧
      ((C.run S.sure s ops).2.1.missing = false →
        C.seen (C.run S.sure s ops).1 = C'.seen (C'.run S'.sure s' ops).1) := by
  have htracks : (C.run S.sure s ops).2.2 = (C'.run S'.sure s' ops).2.2 ∧
      (C'.run S'.sure s' ops).2.1 = { (C.run S.sure s ops).2.1 with behind := False } ∧
      ∃ p, Tracks S p (C.run S.sure s ops).2.1 (C.run S.sure s ops).1 ∧
        Tracks S' p (C'.run S'.sure s' ops).2.1 (C'.run S'.sure s' ops).1 := by
    induction ops using reverseRecOn with
    | nil =>
      exact ⟨rfl, rfl, _, tracks_of_firm h hs rfl rfl, tracks_of_firm h' hs' rfl rfl⟩
    | append_singleton ops op ih =>
      obtain ⟨hanswers, hmode, p, hp, hp'⟩ := ih fun before op' after hsplit =>
        hproper before op' (after ++ [op]) (by simp [hsplit])
      obtain ⟨hop, hable⟩ := hproper ops op [] rfl
      have hop' : (C'.run S'.sure s' ops).2.1.Permits op := by
        rw [hmode]
        exact Mode.permits_of_not_behind hop
      obtain ⟨hanswer, hnext⟩ := h.step hp hop hable
      obtain ⟨hanswer', hnext'⟩ := h'.step hp' hop' fun k _ => htotal.able _ k
      rw [run_concat, run_concat, hanswer, hanswer', ← hanswers]
      refine ⟨rfl, ?_, _, hnext, hnext'⟩
      rw [hmode]
      exact Mode.after_of_sure _ _ (htotal.sure _) op
  obtain ⟨hanswers, hmode, p, hp, hp'⟩ := htracks
  refine ⟨hanswers, fun hmissing => ?_⟩
  have hmissing' : (C'.run S'.sure s' ops).2.1.missing = false := by
    rw [hmode]
    exact hmissing
  exact (h.seen (hp.found hmissing).2).trans (h'.seen (hp'.found hmissing').2).symm

end

end Feldera.Trace
