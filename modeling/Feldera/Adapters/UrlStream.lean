import Feldera.Algebra.Machine

/-!
`UrlStream` reads a resource over HTTP. It asks for the bytes from its offset on; the server may start
earlier, and divides what it sends into pieces as it likes.
-/

namespace Feldera.Adapters

open List

abbrev Bytes := List UInt8

inductive ContentRange
  | bytes (range : Option (ℕ × ℕ))
  | other
  | malformed

structure Response where
  pieces : List Bytes
  fails : Bool

structure Answer where
  status : ℕ
  ranges : List ContentRange
  response : Response

abbrev Answer.IsSuccess (a : Answer) : Prop :=
  200 ≤ a.status ∧ a.status < 300

inductive ReadError
  | request
  | notSuccess (status : ℕ)
  | rangeWithoutPartial (status : ℕ)
  | noRange | malformedRange | unsatisfiable | notBytes
  | severalRanges (n : ℕ)
  | skippedPast (start ofs : ℕ)
  | payload

def getResponseStartingOffset (a : Answer) : Except ReadError ℕ :=
  if a.status ≠ 206 then
    if a.ranges.isEmpty then .ok 0 else .error (.rangeWithoutPartial a.status)
  else
    match a.ranges with
    | [] => .error .noRange
    | [.bytes (some (start, _))] => .ok start
    | [.bytes none] => .error .unsatisfiable
    | [.other] => .error .notBytes
    | [.malformed] => .error .malformedRange
    | ranges => .error (.severalRanges ranges.length)

/-- What HTTP allows a server that has the resource `R` and is asked for the bytes from `ofs` on. -/
abbrev Answer.Allowed (R : Bytes) (ofs : ℕ) (a : Answer) : Prop :=
  (a.status = 416 → R.length ≤ ofs) ∧
    (a.IsSuccess → ∀ start ∈ (getResponseStartingOffset a).toOption,
      a.response.pieces.flatten <+: R.drop start)

structure UrlStream where
  response : Option Response
  nextReadOfs : ℕ
  buffer : Bytes
  ofs : ℕ

namespace UrlStream

def new : UrlStream :=
  ⟨none, 0, [], 0⟩

/-- What a read returns and leaves; nothing in the unreachable branch. -/
abbrev Read := Option (Except ReadError (Option Bytes) × UrlStream)

/-- Returns at most `limit` bytes of the buffer. -/
def splitBuffer (limit : ℕ) (s : UrlStream) : Read :=
  let n := min limit s.buffer.length
  some (.ok (some (s.buffer.take n)), { s with ofs := s.ofs + n, buffer := s.buffer.drop n })

/-- The part of a piece that starts at `dataOfs` from the offset of the stream on. -/
def extract (s : UrlStream) (data : Bytes) (dataOfs : ℕ) : Option Bytes :=
  match compare dataOfs s.ofs with
  | .eq => some data
  | .lt =>
    let skip := s.ofs - dataOfs
    some (if skip < data.length then data.drop skip else [])
  | .gt => none

/-- The loop of `read` over the pieces of the response. -/
def receive (limit : ℕ) (fails : Bool) : List Bytes → UrlStream → Read
  | [], s =>
    some (if fails then .error .payload else .ok none, { s with response := some ⟨[], fails⟩ })
  | data :: pieces, s =>
    let s' := { s with response := some ⟨pieces, fails⟩, nextReadOfs := s.nextReadOfs + data.length }
    match s.extract data s.nextReadOfs with
    | none => none
    | some [] => receive limit fails pieces { s' with buffer := [] }
    | some buffer => splitBuffer limit { s' with buffer := buffer }

/-- `answer` is what a request gets, if one is made; nothing if it fails. -/
def read (limit : ℕ) (answer : Option Answer) (s : UrlStream) : Read :=
  if s.buffer ≠ [] then splitBuffer limit s
  else
    match s.response, answer with
    | some r, _ => receive limit r.fails r.pieces s
    | none, none => some (.error .request, s)
    | none, some a =>
      if a.status = 416 then some (.ok none, s)
      else if ¬a.IsSuccess then some (.error (.notSuccess a.status), s)
      else
        match getResponseStartingOffset a with
        | .error e => some (.error e, s)
        | .ok start =>
          let s' := { s with nextReadOfs := start }
          if s.ofs < start then some (.error (.skippedPast start s.ofs), s')
          else receive limit a.response.fails a.response.pieces s'

def disconnect (s : UrlStream) : UrlStream :=
  { s with response := none, buffer := [] }

def seek (ofs : ℕ) (s : UrlStream) : UrlStream :=
  if ofs ≠ s.ofs then disconnect { s with ofs } else s

variable {R : Bytes} {s : UrlStream}

structure Good (R : Bytes) (s : UrlStream) : Prop where
  buffer : s.buffer <+: R.drop s.ofs
  response : ∀ r ∈ s.response,
    r.pieces.flatten <+: R.drop s.nextReadOfs ∧ s.nextReadOfs ≤ s.ofs + s.buffer.length

/-- What a read at the offset `ofs` leads to. -/
def Reads (R : Bytes) (ofs : ℕ) : Read → Prop
  | some (.ok (some data), s') => Good R s' ∧ data <+: R.drop ofs ∧ s'.ofs = ofs + data.length
  | some (.ok none, s') =>
    Good R s' ∧ s'.ofs = ofs ∧ (R.length ≤ ofs ∨ s'.nextReadOfs < R.length)
  | some (.error _, s') => Good R s' ∧ s'.ofs = ofs
  | none => False

theorem Good.splitBuffer (h : Good R s) (limit : ℕ) : Reads R s.ofs (s.splitBuffer limit) := by
  refine ⟨⟨?_, fun r hr => ⟨(h.response r hr).1, ?_⟩⟩, ( take_prefix _ _).trans h.buffer, ?_⟩
  · have hdrop := h.buffer.drop (min limit s.buffer.length)
    rwa [drop_drop] at hdrop
  · have hle := (h.response r hr).2
    simp only [length_drop]
    omega
  · simp

theorem extract_eq {dataOfs : ℕ} (h : dataOfs ≤ s.ofs) (data : Bytes) :
    s.extract data dataOfs = some (data.drop (s.ofs - dataOfs)) := by
  unfold extract
  rcases h.eq_or_lt with heq | hlt
  · simp [heq]
  · rw [compare_lt_iff_lt.mpr hlt]
    by_cases hskip : s.ofs - dataOfs < data.length
    · simp [hskip]
    · simp [hskip, drop_eq_nil_of_le (not_lt.mp hskip)]

/-- A response that starts at the wanted bytes or before leads to them. -/
theorem reads_receive (limit : ℕ) (fails : Bool) {pieces : List Bytes}
    (hpieces : pieces.flatten <+: R.drop s.nextReadOfs) (hofs : s.nextReadOfs ≤ s.ofs)
    (hnil : s.buffer = []) : Reads R s.ofs (receive limit fails pieces s) := by
  induction pieces generalizing s with
  | nil =>
    have hgood : Good R { s with response := some ⟨[], fails⟩ } := by
      refine ⟨by simp [hnil], ?_⟩
      rintro r ⟨⟩
      exact ⟨ nil_prefix, hofs.trans (Nat.le_add_right _ _)⟩
    cases fails with
    | true => exact ⟨hgood, rfl⟩
    | false =>
      refine ⟨hgood, rfl, ?_⟩
      rcases le_or_gt R.length s.nextReadOfs with hle | hlt
      · exact .inl (hle.trans hofs)
      · exact .inr hlt
  | cons data pieces ih =>
    have hdata : data.drop (s.ofs - s.nextReadOfs) <+: R.drop s.ofs := by
      have hdrop := ((prefix_append _ _).trans hpieces).drop (s.ofs - s.nextReadOfs)
      rwa [drop_drop, Nat.add_sub_cancel' hofs] at hdrop
    have hrest : pieces.flatten <+: R.drop (s.nextReadOfs + data.length) := by
      have hdrop := hpieces.drop data.length
      rwa [flatten_cons, drop_left, drop_drop] at hdrop
    have hlen := length_drop (i := s.ofs - s.nextReadOfs) (l := data)
    simp only [receive, extract_eq hofs]
    cases hbuffer : data.drop (s.ofs - s.nextReadOfs) with
    | nil =>
      rw [hbuffer, length_nil] at hlen
      exact ih hrest (show s.nextReadOfs + data.length ≤ s.ofs by omega) rfl
    | cons b buffer =>
      rw [hbuffer] at hdata hlen
      refine Good.splitBuffer ⟨hdata, ?_⟩ limit
      rintro r ⟨⟩
      exact ⟨hrest, show s.nextReadOfs + data.length ≤ s.ofs + (b :: buffer).length by omega⟩

theorem Good.read (h : Good R s) (limit : ℕ) {answer : Option Answer}
    (hanswer : ∀ a ∈ answer, a.Allowed R s.ofs) : Reads R s.ofs (s.read limit answer) := by
  unfold UrlStream.read
  by_cases hnil : s.buffer = []
  swap
  · rw [if_pos hnil]
    exact h.splitBuffer limit
  rw [if_neg (not_not.mpr hnil)]
  cases hresponse : s.response with
  | some r =>
    obtain ⟨hpieces, hofs⟩ := h.response r hresponse
    rw [hnil] at hofs
    exact reads_receive limit r.fails hpieces hofs hnil
  | none =>
    cases answer with
    | none => exact ⟨h, rfl⟩
    | some a =>
      obtain ⟨hend, hpieces⟩ := hanswer a rfl
      dsimp only
      by_cases h416 : a.status = 416
      · rw [if_pos h416]
        exact ⟨h, rfl, .inl (hend h416)⟩
      rw [if_neg h416]
      by_cases hsuccess : a.IsSuccess
      swap
      · rw [if_pos hsuccess]
        exact ⟨h, rfl⟩
      rw [if_neg (not_not.mpr hsuccess)]
      cases hstart : getResponseStartingOffset a with
      | error e => exact ⟨h, rfl⟩
      | ok start =>
        rw [hstart] at hpieces
        dsimp only
        by_cases hlt : s.ofs < start
        · rw [if_pos hlt]
          exact ⟨⟨h.buffer, nofun⟩, rfl⟩
        · rw [if_neg hlt]
          exact reads_receive (s := ⟨none, start, s.buffer, s.ofs⟩) limit a.response.fails
            (hpieces hsuccess start rfl) (not_lt.mp hlt) hnil

theorem good_disconnect (R : Bytes) (s : UrlStream) : Good R s.disconnect :=
  ⟨ nil_prefix, nofun⟩

theorem Good.seek (h : Good R s) (ofs : ℕ) : Good R (s.seek ofs) ∧ (s.seek ofs).ofs = ofs := by
  unfold UrlStream.seek
  by_cases hne : ofs ≠ s.ofs
  · rw [if_pos hne]
    exact ⟨good_disconnect R _, rfl⟩
  · rw [if_neg hne]
    exact ⟨h, (not_not.mp hne).symm⟩

end UrlStream

/-- A stream with the position sought last, what it has returned since, and whether the last call
was a read that returned nothing. -/
structure Session where
  stream : UrlStream
  start : ℕ
  data : Bytes
  atEnd : Bool

namespace Session

inductive Action
  | read (limit : ℕ) (answer : Option Answer)
  | seek (ofs : ℕ)
  | disconnect

def new : Session :=
  ⟨.new, 0, [], false⟩

def afterRead (s : Session) : UrlStream.Read → Except Unit Session
  | none => .error ()
  | some (.error _, stream) => .ok { s with stream, atEnd := false }
  | some (.ok none, stream) => .ok { s with stream, atEnd := true }
  | some (.ok (some data), stream) => .ok ⟨stream, s.start, s.data ++ data, false⟩

def next (s : Session) : Action → Except Unit Session
  | .read limit answer => s.afterRead (s.stream.read limit answer)
  | .seek ofs => .ok ⟨s.stream.seek ofs, ofs, [], false⟩
  | .disconnect => .ok { s with stream := s.stream.disconnect, atEnd := false }

def Action.answer : Action → Option Answer
  | .read _ answer => answer
  | _ => none

abbrev Serves (R : Bytes) (s : Session) (a : Action) : Prop :=
  ∀ answer ∈ a.answer, answer.Allowed R s.stream.ofs

structure Sound (R : Bytes) (s : Session) : Prop where
  good : s.stream.Good R
  data : s.data <+: R.drop s.start
  ofs : s.stream.ofs = s.start + s.data.length
  ended : s.atEnd = true → R.length ≤ s.stream.ofs ∨ s.stream.nextReadOfs < R.length

variable {R : Bytes} {s : Session}

theorem Sound.afterRead (h : Sound R s) :
    ∀ {r}, UrlStream.Reads R s.stream.ofs r → ∃ s', s.afterRead r = .ok s' ∧ Sound R s'
  | some (.error _, _), ⟨hgood, hofs⟩ =>
    ⟨_, rfl, { h with good := hgood, ofs := hofs.trans h.ofs, ended := nofun }⟩
  | some (.ok none, _), ⟨hgood, hofs, hended⟩ =>
    ⟨_, rfl, { h with good := hgood, ofs := hofs.trans h.ofs, ended := fun _ => hofs ▸ hended }⟩
  | some (.ok (some data), _), ⟨hgood, hdata, hofs⟩ => by
    refine ⟨_, rfl, hgood, ?_, ?_, nofun⟩
    · rw [h.ofs, ← drop_drop] at hdata
      rw [prefix_append_drop h.data]
      exact (prefix_append_right_inj _).mpr hdata
    · rw [hofs, h.ofs, length_append, Nat.add_assoc]

theorem Sound.next {a : Action} (h : Sound R s) (hserves : Serves R s a) :
    ∃ s', s.next a = .ok s' ∧ Sound R s' := by
  cases a with
  | read limit answer => exact h.afterRead (h.good.read limit hserves)
  | seek ofs =>
    obtain ⟨hgood, hofs⟩ := h.good.seek ofs
    exact ⟨_, rfl, hgood, nil_prefix, hofs, nofun⟩
  | disconnect => exact ⟨_, rfl, { h with good := UrlStream.good_disconnect R _, ended := nofun }⟩

/-- The server starts at 0 although 3 is asked for. -/
def resumed : List Action :=
  let full : Option Answer := some ⟨200, [], [[1], [2, 3], [4]], false⟩
  [.read 2 full, .read 2 none, .disconnect, .read 8 full, .seek 1,
    .read 8 (some ⟨206, [.bytes (some (1, 3))], [[2, 3, 4]], false⟩)]

end Session

end Feldera.Adapters
