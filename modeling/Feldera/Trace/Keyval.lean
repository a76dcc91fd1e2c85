import Feldera.Trace.Cursor

/-!
Moving a cursor over pairs of a key and a value: `seek_keyval`, `step_keyval` and their reverse
forms, with which a cursor walks through the rows of a batch in the order of the pairs. Whenever
such a cursor enters a key backward, it goes to the last value of the key.
-/

namespace Feldera.Trace

open OrderedSum List

variable {σ K V R : Type*}

namespace Cursor

variable (C : Cursor σ K V R) (d : Direction)

def keyval (s : σ) : Option (K × V) :=
  match C.getKey s, C.getVal s with
  | some key, some val => some (key, val)
  | _, _ => none

/-- Backward, `fast_forward_vals` follows the move to a key. -/
def enterVals (s : σ) : σ :=
  match d with
  | .forward => s
  | .backward => if (C.getKey s).isSome then C.resetVals .backward s else s

/-- The loop at the end of every operation: keys without a value left are passed over. -/
def skipKeys : Nat → σ → σ
  | 0, s => s
  | rounds + 1, s =>
    if (C.getKey s).isSome && (C.getVal s).isNone then
      skipKeys rounds (C.enterVals d (C.stepKey d s))
    else s

/-- `step_keyval` and `step_keyval_reverse`. -/
def stepKeyval (rounds : Nat) (s : σ) : σ :=
  C.skipKeys d rounds (C.stepVal d s)

/-- `seek_keyval` and `seek_keyval_reverse`. -/
def seekKeyval [DecidableEq K] (rounds : Nat) (key : K) (val : V) (s : σ) : σ :=
  let s := if C.getKey s ≠ some key then C.enterVals d (C.seekKey d key s) else s
  let s := if C.getKey s = some key then C.seekVal d val s else s
  C.skipKeys d rounds s

/-- The next rows, at most `count` of them, and the cursor after them. -/
def collect (rounds : Nat) : Nat → σ → List ((K ×ₗ V) × R) × σ
  | 0, s => ([], s)
  | count + 1, s =>
    match C.keyval s with
    | none => ([], s)
    | some kv =>
      let r := collect rounds count (C.stepKeyval d rounds s)
      ((toLex kv, C.weight s) :: r.1, r.2)

end Cursor

def block (d : Direction) (e : K × List (V × R)) : List ((K ×ₗ V) × R) :=
  (d.list e.2).map fun q => (toLex (e.1, q.1), q.2)

def rowsOf (d : Direction) (l : Entries K V R) : List ((K ×ₗ V) × R) :=
  l.flatMap (block d)

theorem rowsOf_cons (d : Direction) (e : K × List (V × R)) (l : Entries K V R) :
    rowsOf d (e :: l) = block d e ++ rowsOf d l := by
  rw [rowsOf, flatMap_cons, rowsOf]

theorem dropWhile_of_forall_not {α : Type*} {P : α → Bool} {l : List α}
    (h : ∀ a ∈ l, P a = false) : l.dropWhile P = l := by
  cases l with
  | nil => rfl
  | cons a l => rw [dropWhile_cons_of_neg (by simp [h a mem_cons_self])]

theorem rowsOf_reverse (l : Entries K V R) :
    rowsOf .backward l.reverse = (rowsOf .forward l).reverse := by
  induction l with
  | nil => rfl
  | cons e l ih =>
    have hblock : block .backward e = (block .forward e).reverse := by
      simp [block, Direction.list]
    rw [rowsOf_cons, reverse_cons, reverse_append, ← ih, rowsOf, flatMap_append,
      ← hblock, rowsOf]
    simp

namespace Place

def rows (p : Place K V R) : List ((K ×ₗ V) × R) :=
  match p.rest with
  | [] => []
  | e :: rest => p.vals.map (fun q => (toLex (e.1, q.1), q.2)) ++ rowsOf p.keyDir rest

/-- The first of `rest` with all its values, in one direction for keys and values. -/
def facing (d : Direction) (rest : Entries K V R) : Place K V R :=
  ⟨d, rest, if rest = [] then .forward else d, d.list ((rest.head?.map Prod.snd).getD [])⟩

structure Faces (d : Direction) (p : Place K V R) : Prop where
  keyDir : p.keyDir = d
  valDir : p.rest ≠ [] → p.valDir = d

theorem faces_facing (d : Direction) (rest : Entries K V R) : (facing d rest).Faces d :=
  ⟨rfl, fun h => if_neg h⟩

theorem eq_facing {d : Direction} {p : Place K V R} (h : p.Faces d)
    (hvals : p.vals = d.list ((p.rest.head?.map Prod.snd).getD [])) (hne : p.rest ≠ []) :
    p = facing d p.rest := by
  have hdir := h.valDir hne
  have hkey := h.keyDir
  obtain ⟨keyDir, rest, valDir, vals⟩ := p
  simp only at hvals hdir hkey hne
  rw [facing, if_neg hne, ← hvals, hdir, hkey]

theorem rows_facing (d : Direction) (rest : Entries K V R) :
    (facing d rest).rows = rowsOf d rest := by
  cases rest with
  | nil => rfl
  | cons e rest => rw [rowsOf_cons]; rfl

theorem enter_forward (rest : Entries K V R) : enter .forward rest = facing .forward rest := by
  unfold enter facing
  split <;> rfl

end Place

section

variable {C : Cursor σ K V R}
  {S : Stance σ K V R} {entries : Entries K V R} {d : Direction} {p : Place K V R} {s : σ}

variable {bound rounds : Nat} {row : (K ×ₗ V) × R} {rows : List ((K ×ₗ V) × R)}
  {l : Entries K V R}

/-- The cursor stands on the first of `rows`, or there is none and it has no key. -/
def OnRow (S : Stance σ K V R) (d : Direction) (bound : Nat) (rows : List ((K ×ₗ V) × R))
    (s : σ) : Prop :=
  ∃ p, S.firm p s ∧ p.Faces d ∧ (p.rest ≠ [] → p.vals ≠ []) ∧ p.rest.length ≤ bound ∧
    p.rows = rows

theorem OnRow.exists_of_cons (hs : OnRow S d bound (row :: rows) s) :
    ∃ p e rest q vals, S.firm p s ∧ p.Faces d ∧ p.rest.length ≤ bound ∧ p.rest = e :: rest ∧
      p.vals = q :: vals ∧ row = (toLex (e.1, q.1), q.2) ∧
      rows = vals.map (fun q => (toLex (e.1, q.1), q.2)) ++ rowsOf d rest := by
  obtain ⟨p, hfirm, hfaces, hvals, hbound, hrows⟩ := hs
  unfold Place.rows at hrows
  split at hrows
  · cases hrows
  · next e rest hrest =>
    obtain ⟨q, vals, hcons⟩ := exists_cons_of_ne_nil (hvals (by simp [hrest]))
    rw [hcons, map_cons, cons_append, hfaces.keyDir] at hrows
    obtain ⟨hrow, htail⟩ := List.cons.inj hrows
    exact ⟨p, e, rest, q, vals, hfirm, hfaces, hbound, hrest, hcons, hrow.symm, htail.symm⟩

theorem fst_mem_of_mem_rowsOf (h : row ∈ rowsOf d l) : ∃ e ∈ l, ∃ v, row.1 = toLex (e.1, v) := by
  obtain ⟨e, he, hrow⟩ := mem_flatMap.mp h
  obtain ⟨q, -, rfl⟩ := mem_map.mp hrow
  exact ⟨e, he, q.1, rfl⟩

variable [LinearOrder K] [LinearOrder V] [AddCommMonoid R]

section

variable (hC : C.Lawful entries S)
include hC

/-- A key is entered at the end from which its values are visited. -/
theorem Cursor.Lawful.enterVals {rest : Entries K V R} (hs : S.firm (.enter d rest) s) :
    S.firm (.facing d rest) (C.enterVals d s) := by
  unfold Cursor.enterVals
  cases d with
  | forward =>
    rw [Place.enter_forward] at hs
    exact hs
  | backward =>
    have hkey := hC.getKey (hC.loose_of_firm hs)
    cases rest with
    | nil =>
      have hnone : (C.getKey s).isSome = false := by
        rw [hkey]
        rfl
      simp only [hnone, Bool.false_eq_true, if_false]
      exact hs
    | cons e rest =>
      have hsome : (C.getKey s).isSome = true := by
        rw [hkey]
        rfl
      simp only [hsome, if_true]
      exact hC.apply (.resetVals .backward) hs trivial nofun

theorem Cursor.Lawful.skipKeys (hs : S.firm p s) (hfaces : p.Faces d)
    (hbound : p.rest.length ≤ bound) (hrounds : p.rest.length < rounds) :
    OnRow S d bound p.rows (C.skipKeys d rounds s) := by
  induction rounds generalizing p s with
  | zero => omega
  | succ rounds ih =>
    have hloose := hC.loose_of_firm hs
    have hkey := hC.getKey hloose
    unfold skipKeys
    cases hrest : p.rest with
    | nil =>
      rw [if_neg (by simp [hkey, Place.key, hrest])]
      exact ⟨p, hs, hfaces, fun hne => absurd hrest hne, hbound, rfl⟩
    | cons e rest =>
      have hne : p.rest ≠ [] := by simp [hrest]
      have hval := hC.getVal hloose hne
      cases hvals : p.vals with
      | nil =>
        rw [if_pos (by simp [hkey, hval, Place.key, hrest, hvals])]
        have hstep : S.firm (.enter d rest) (C.stepKey d s) := by
          have h := hC.apply (.stepKey d) hs hfaces.keyDir.symm (by simp)
          simp only [Place.apply, hfaces.keyDir, hrest, tail_cons] at h
          exact h
        rw [hrest] at hbound hrounds
        have hnext := ih (hC.enterVals hstep) (Place.faces_facing d rest)
          (Nat.le_of_succ_le hbound) (Nat.lt_of_succ_lt_succ hrounds)
        rw [Place.rows_facing] at hnext
        have hrows : p.rows = rowsOf d rest := by
          simp [Place.rows, hrest, hvals, hfaces.keyDir]
        rw [hrows]
        exact hnext
      | cons q vals =>
        rw [if_neg (by simp [hval, hvals])]
        exact ⟨p, hs, hfaces, fun _ => by simp [hvals], hbound, rfl⟩

theorem Cursor.Lawful.keyval_nil (hs : OnRow S d bound [] s) : C.keyval s = none := by
  obtain ⟨p, hfirm, -, hvals, -, hrows⟩ := hs
  have hrest : p.rest = [] := by
    unfold Place.rows at hrows
    split at hrows
    · assumption
    · next e rest hrest =>
      have hnil := (append_eq_nil_iff.mp hrows).1
      exact absurd (map_eq_nil_iff.mp hnil) (hvals (by simp [hrest]))
  have hkey := hC.getKey (hC.loose_of_firm hfirm)
  rw [Place.key, hrest] at hkey
  unfold keyval
  rw [hkey]
  rfl

theorem Cursor.Lawful.keyval_cons (hs : OnRow S d bound (row :: rows) s) :
    C.keyval s = some (ofLex row.1) ∧ C.weight s = row.2 := by
  obtain ⟨p, e, rest, q, vals, hfirm, -, -, hrest, hvals, rfl, -⟩ := hs.exists_of_cons
  have hloose := hC.loose_of_firm hfirm
  have hne : p.rest ≠ [] := by simp [hrest]
  have hkey : C.getKey s = some e.1 := by
    rw [hC.getKey hloose, Place.key, hrest]
    rfl
  have hval : C.getVal s = some q.1 := by
    rw [hC.getVal hloose hne, hvals]
    rfl
  refine ⟨?_, hC.weight hloose hne q (by simp [hvals])⟩
  unfold keyval
  rw [hkey, hval]
  rfl

theorem Cursor.Lawful.stepKeyval (hrounds : bound < rounds)
    (hs : OnRow S d bound (row :: rows) s) : OnRow S d bound rows (C.stepKeyval d rounds s) := by
  obtain ⟨p, e, rest, q, vals, hfirm, hfaces, hbound, hrest, hvals, -, rfl⟩ :=
    hs.exists_of_cons
  have hstep := hC.apply (.stepVal d) hfirm (hfaces.valDir (by simp [hrest])).symm nofun
  have hnext : OnRow S d bound _ (C.skipKeys d rounds (C.stepVal d s)) := hC.skipKeys hstep
    ⟨hfaces.keyDir, hfaces.valDir⟩ hbound (Nat.lt_of_le_of_lt hbound hrounds)
  have hrows : (p.apply entries (.stepVal d)).rows =
      vals.map (fun q => (toLex (e.1, q.1), q.2)) ++ rowsOf d rest := by
    simp only [Place.apply, Place.rows, hrest, hvals, tail_cons, hfaces.keyDir]
  rw [hrows] at hnext
  exact hnext

theorem Cursor.Lawful.collect (hrounds : bound < rounds) (count : Nat)
    (hs : OnRow S d bound rows s) :
    (C.collect d rounds count s).1 = rows.take count ∧
      OnRow S d bound (rows.drop count) (C.collect d rounds count s).2 := by
  induction count generalizing rows s with
  | zero => exact ⟨rfl, hs⟩
  | succ count ih =>
    unfold collect
    cases rows with
    | nil =>
      rw [hC.keyval_nil hs]
      exact ⟨rfl, hs⟩
    | cons row rows =>
      obtain ⟨hkeyval, hweight⟩ := hC.keyval_cons hs
      obtain ⟨hrows, hend⟩ := ih (hC.stepKeyval hrounds hs)
      rw [hkeyval]
      refine ⟨?_, hend⟩
      simp only [hrows, hweight, take_succ_cons]
      rfl

end

/-! ### Seeking -/

theorem Direction.lt_toLex (d : Direction) (k k' : K) (v v' : V) :
    d.lt (toLex (k, v)) (toLex (k', v')) ↔ d.lt k k' ∨ k = k' ∧ d.lt v v' := by
  cases d with
  | forward => exact Prod.Lex.toLex_lt_toLex
  | backward =>
    refine (Prod.Lex.toLex_lt_toLex (x := (k', v')) (y := (k, v))).trans ?_
    constructor <;> rintro (h | ⟨h, h'⟩) <;> [exact .inl h; exact .inr ⟨h.symm, h'⟩;
      exact .inl h; exact .inr ⟨h.symm, h'⟩]

omit [AddCommMonoid R] in
theorem dropWhile_rowsOf_of_lt {key : K} (val : V) (h : ∀ e ∈ l, d.lt key e.1) :
    (rowsOf d l).dropWhile (fun row => decide (d.lt row.1 (toLex (key, val)))) = rowsOf d l := by
  apply dropWhile_of_forall_not
  intro row hrow
  obtain ⟨e, he, v, heq⟩ := fst_mem_of_mem_rowsOf hrow
  rw [decide_eq_false_iff_not, heq, Direction.lt_toLex]
  rintro (hlt | ⟨rfl, -⟩)
  · exact irrefl_of d.lt key (trans_of d.lt (h e he) hlt)
  · exact irrefl_of d.lt e.1 (h e he)

omit [AddCommMonoid R] in
/-- Seeking a row: first the key, then the value if the key is there. -/
theorem dropWhile_rowsOf (hl : Ordered d.lt l) (key : K) (val : V) :
    (rowsOf d l).dropWhile (fun row => decide (d.lt row.1 (toLex (key, val)))) =
      match l.dropWhile fun e => decide (d.lt e.1 key) with
      | [] => []
      | e :: rest =>
        (if e.1 = key then
          (block d e).dropWhile fun row => decide (d.lt row.1 (toLex (key, val)))
        else block d e) ++ rowsOf d rest := by
  induction l with
  | nil => rfl
  | cons e l ih =>
    obtain ⟨hafter, hl⟩ := pairwise_cons.mp hl
    rw [rowsOf_cons]
    rcases trichotomous_of d.lt e.1 key with hlt | heq | hgt
    · -- the whole key is passed over
      have hall : ∀ row ∈ block d e, decide (d.lt row.1 (toLex (key, val))) = true := by
        intro row hrow
        obtain ⟨q, -, rfl⟩ := mem_map.mp hrow
        exact decide_eq_true ((Direction.lt_toLex d _ _ _ _).mpr (.inl hlt))
      rw [dropWhile_append_of_pos hall, ih hl,
        dropWhile_cons_of_pos (by simpa using hlt)]
    · subst heq
      have hstay : ¬d.lt e.1 e.1 := irrefl_of d.lt e.1
      rw [dropWhile_cons_of_neg (by simpa using hstay)]
      simp only [if_true]
      rw [dropWhile_append, dropWhile_rowsOf_of_lt val hafter]
      split
      · next hempty => rw [isEmpty_iff.mp hempty, nil_append]
      · rfl
    · have hstay : ¬d.lt e.1 key := fun h => irrefl_of d.lt key (trans_of d.lt hgt h)
      have hne : e.1 ≠ key := fun h => irrefl_of d.lt key (h ▸ hgt)
      rw [dropWhile_cons_of_neg (by simpa using hstay)]
      simp only [hne, if_false]
      rw [← rowsOf_cons]
      apply dropWhile_rowsOf_of_lt
      intro e' he'
      rcases mem_cons.mp he' with rfl | he'
      · exact hgt
      · exact trans_of d.lt hgt (hafter e' he')

/-- Seeking from the first value of a key on. -/
theorem Cursor.Lawful.seekKeyval (hC : C.Lawful entries S) (hs : S.firm p s) (hfaces : p.Faces d)
    (hvals : p.vals = d.list ((p.rest.head?.map Prod.snd).getD [])) (hrest : Ordered d.lt p.rest)
    (hbound : p.rest.length ≤ bound) (hrounds : bound < rounds) (key : K) (val : V) :
    OnRow S d bound
      ((rowsOf d p.rest).dropWhile fun row => decide (d.lt row.1 (toLex (key, val))))
      (C.seekKeyval d rounds key val s) := by
  -- the key
  have hkey : S.firm (.facing d (p.rest.dropWhile fun e => decide (d.lt e.1 key)))
      (if C.getKey s ≠ some key then C.enterVals d (C.seekKey d key s) else s) := by
    split
    · have hseek := hC.apply (.seekKey d key) hs hfaces.keyDir.symm (by simp)
      simp only [Place.apply, Place.seekKey, hfaces.keyDir] at hseek
      exact hC.enterVals hseek
    · next hget =>
      have hhead : p.key = some key := by
        rw [← hC.getKey (hC.loose_of_firm hs)]
        exact not_not.mp hget
      cases hcons : p.rest with
      | nil => simp [Place.key, hcons] at hhead
      | cons e rest =>
        have hne : p.rest ≠ [] := by simp [hcons]
        obtain rfl : e.1 = key := by simpa [Place.key, hcons] using hhead
        rw [dropWhile_cons_of_neg (by simpa using irrefl_of d.lt e.1), ← hcons,
          ← Place.eq_facing hfaces hvals hne]
        exact hs
  unfold Cursor.seekKeyval
  generalize (if C.getKey s ≠ some key then C.enterVals d (C.seekKey d key s) else s) = t at hkey
  have hlength : (p.rest.dropWhile fun e => decide (d.lt e.1 key)).length ≤ bound :=
    (dropWhile_sublist _).length_le.trans hbound
  have hget := hC.getKey (hC.loose_of_firm hkey)
  rw [dropWhile_rowsOf hrest key val]
  generalize (p.rest.dropWhile fun e => decide (d.lt e.1 key)) = l at hkey hlength hget
  cases l with
  | nil =>
    have hnone : C.getKey t = none := hget
    simp only [hnone, reduceCtorEq, if_false]
    exact hC.skipKeys hkey (Place.faces_facing d []) hlength (Nat.lt_of_le_of_lt hlength hrounds)
  | cons e l =>
    have hsome : C.getKey t = some e.1 := hget
    simp only [hsome, Option.some.injEq]
    split
    · next heq =>
      -- the value
      have hvalue := hC.apply (.seekVal d val) hkey
        ((Place.faces_facing d (e :: l)).valDir (cons_ne_nil _ _)).symm (by simp)
      have hnext : OnRow S d bound _ (C.skipKeys d rounds (C.seekVal d val t)) := hC.skipKeys hvalue
        ⟨rfl, (Place.faces_facing d (e :: l)).valDir⟩ hlength
        (Nat.lt_of_le_of_lt hlength hrounds)
      refine (congrArg (fun rows => OnRow S d bound rows _) ?_).mp hnext
      subst heq
      change List.map _ (List.dropWhile _ (d.list e.2)) ++ _ = _
      congr 1
      rw [block, dropWhile_map]
      congr 1
      apply congrArg (fun P => List.dropWhile P (d.list e.2))
      funext q
      have hdir : (Place.facing d (e :: l)).valDir = d :=
        (Place.faces_facing d (e :: l)).valDir (cons_ne_nil _ _)
      simp only [Function.comp, hdir, Direction.lt_toLex, irrefl_of d.lt e.1, false_or, true_and]
    · have hnext : OnRow S d bound _ (C.skipKeys d rounds t) := hC.skipKeys hkey
        (Place.faces_facing d (e :: l)) hlength (Nat.lt_of_le_of_lt hlength hrounds)
      rw [Place.rows_facing, rowsOf_cons] at hnext
      exact hnext

end

end Feldera.Trace
