import CSC209.A4.LineFraming
import Mathlib.Data.List.DropRight

/-!
# The buffered server

`Lab10/bufserver.c` reads into a small buffer and prints every line that is
complete. A line is cleared up to its LF and what follows it is moved to the
front; the LF itself stays where it is unless something is moved over it. The
search looks one byte past the data, and may find it there. The buffer is kept
with the byte behind it.
-/

namespace BufServer

open CStrings HaltingRuns InputBuffer LineFraming

def BUFSIZE : Nat := 30

structure Conn where
  buf : List Byte
  after : Nat
  inbuf : Nat
  room : Int
  printed : List CString
  deriving DecidableEq, Repr

/-- `room` bytes are none, so `read` returns 0; a negative length is passed to `memmove`. -/
inductive Stop where
  | dropped
  | badLength
  | endless
  deriving DecidableEq, Repr

def findNetworkNewline (buf : List Byte) (n : Nat) : Option Nat :=
  if n > BUFSIZE then none
  else ((List.range n).find? fun i => buf[i]? = some CR ∧ buf[i + 1]? = some LF).map fun i =>
    i + 1 + 1

/-- A new connection; `behind` is the byte behind the buffer. -/
def start (behind : Byte) : Conn where
  buf := List.replicate BUFSIZE NUL ++ [behind]
  after := 0
  inbuf := 0
  room := BUFSIZE
  printed := []

namespace Conn

variable (c : Conn)

def received (bytes : List Byte) : Conn :=
  { c with buf := overwrite c.buf c.after bytes, inbuf := c.inbuf + bytes.length }

/-- The body of the inner loop, for a line that ends at `where_`. -/
def printLine (where_ : Nat) : Except Stop Conn :=
  let buf := c.buf.set (where_ - 2) NUL
  let line := cstr buf
  if c.inbuf < where_ then .error .badLength
  else
    let inbuf := c.inbuf - where_
    let cleared := overwrite buf 0 (List.replicate (where_ - 1) NUL)
    .ok { c with
      buf := overwrite cleared 0 ((cleared.drop where_).take inbuf)
      inbuf
      printed := c.printed ++ [line] }

/-- The inner loop, for so many turns at most. -/
def printLines : Nat → Conn → Except Stop Conn
  | 0, _ => .error .endless
  | fuel + 1, c =>
    match findNetworkNewline c.buf c.inbuf with
    | none => .ok c
    | some where_ => do
      let c ← c.printLine where_
      printLines fuel c

def pointed : Conn :=
  { c with after := c.inbuf, room := (BUFSIZE : Int) - c.inbuf }

/-- One turn of the outer loop: a read that returns these bytes. -/
def step (bytes : List Byte) : Except Stop Conn :=
  if c.room ≤ 0 then .error .dropped
  else do
    let c := c.received bytes
    let c ← printLines (c.inbuf + 1) c
    .ok c.pointed

/-- What `read` can return before the end of the stream. -/
def Sized (bytes : List Byte) : Prop := 0 < bytes.length ∧ (bytes.length : Int) ≤ c.room

/-- The turn ends, with every line in the data it had, and there is room for another read. -/
def InBounds (bytes : List Byte) : Prop :=
  (c.received bytes).inbuf ≤ BUFSIZE ∧ ∃ d, c.step bytes = .ok d ∧ d.inbuf ≤ BUFSIZE ∧ 0 < d.room

def data (bytes : List Byte) : List Byte := c.buf.take c.inbuf ++ bytes

/-- What follows the last LF, and what ends with it. -/
def unfinished (data : List Byte) : List Byte := data.rtakeWhile (· ≠ LF)

def finished (data : List Byte) : List Byte := data.rdropWhile (· ≠ LF)

/-- The read ends behind the CR of a line. The last line of the data has left an LF right behind,
since it was as long; or the data has no line, and an LF was there before. -/
def StaleCut (bytes : List Byte) : Prop :=
  (unfinished (c.data bytes)).getLast? = some CR ∧
    if finished (c.data bytes) = [] then c.buf[(c.data bytes).length]? = some LF
    else (unfinished (finished (c.data bytes)).dropLast).length = (unfinished (c.data bytes)).length

instance (bytes : List Byte) : Decidable (c.StaleCut bytes) := inferInstanceAs (Decidable (_ ∧ _))

instance (bytes : List Byte) : Decidable (c.Sized bytes) := inferInstanceAs (Decidable (_ ∧ _))

end Conn

/-- A line that may be sent: it fits the buffer with its CRLF. -/
structure Sendable (line : CString) : Prop where
  nul : NUL ∉ line
  cr : CR ∉ line
  lf : LF ∉ line
  short : line.length + 2 ≤ BUFSIZE

instance (line : CString) : Decidable (Sendable line) :=
  decidable_of_iff (NUL ∉ line ∧ CR ∉ line ∧ LF ∉ line ∧ line.length + 2 ≤ BUFSIZE)
    ⟨fun ⟨nul, cr, lf, short⟩ => ⟨nul, cr, lf, short⟩, fun h => ⟨h.nul, h.cr, h.lf, h.short⟩⟩

/-- The reads are all handled, and what is printed are the lines. -/
def Served (behind : Byte) (lines : List CString) (chunks : List (List Byte)) : Prop :=
  (∃ c, run Conn.step (start behind) chunks = .ok c ∧ c.printed = lines) ∧
    Along Conn.step Conn.InBounds (start behind) chunks

section Search

variable {buf old tail line rest : List Byte} {n w : Nat}

theorem findNetworkNewline_eq_some (small : n ≤ BUFSIZE) : findNetworkNewline buf n = some w ↔
    ∃ i < n, w = i + 2 ∧ LineAt buf i ∧ ∀ j < i, ¬ LineAt buf j := by
  rw [findNetworkNewline, if_neg (by omega), search_eq_some]

theorem findNetworkNewline_line (clean : CR ∉ line) (long : line.length < n) (small : n ≤ BUFSIZE) :
    findNetworkNewline (line ++ CR :: LF :: rest) n = some (line.length + 2) :=
  (findNetworkNewline_eq_some small).mpr ⟨line.length, long, rfl, lineAt_first clean⟩

/-- Data without an LF can only have a line at its very end, with an LF behind it. -/
theorem lineAt_tail (silent : LF ∉ tail) {i : Nat} (inside : i < tail.length)
    (here : LineAt (tail ++ old) i) : i + 1 = tail.length := by
  by_contra other
  have lf := here.2
  rw [List.getElem?_append_left (by omega)] at lf
  exact silent (List.mem_of_getElem? lf)

theorem findNetworkNewline_tail (silent : LF ∉ tail) (small : tail.length ≤ BUFSIZE) :
    findNetworkNewline (tail ++ old) tail.length =
      if tail.getLast? = some CR ∧ old[0]? = some LF then some (tail.length + 1) else none := by
  by_cases stale : tail.getLast? = some CR ∧ old[0]? = some LF
  · have some_byte : 0 < tail.length := by
      cases tail with
      | nil => simp at stale
      | cons b tail => simp
    rw [if_pos stale]
    refine (findNetworkNewline_eq_some small).mpr
      ⟨tail.length - 1, by omega, by omega, (lineAt_end some_byte).mpr stale, ?_⟩
    intro j hj here
    have := lineAt_tail silent (by omega) here
    omega
  · rw [if_neg stale, findNetworkNewline, if_neg (by omega), search_eq_none]
    intro i inside here
    obtain rfl : i = tail.length - 1 := by
      have := lineAt_tail silent inside here
      omega
    exact stale ((lineAt_end (by omega)).mp here)

end Search

section Cuts

variable {done : List CString} {l : CString} {tail : List Byte}

theorem stream_concat : stream (done ++ [l]) = stream done ++ (l ++ [CR] ++ [LF]) := by
  simp [stream]

/-- What follows complete lines. -/
theorem unfinished_stream (silent : LF ∉ tail) : Conn.unfinished (stream done ++ tail) = tail := by
  have all : ∀ b ∈ tail.reverse, decide (b ≠ LF) = true := by
    intro b hb
    simpa using fun same : b = LF => silent (same ▸ List.mem_reverse.mp hb)
  rw [Conn.unfinished, List.rtakeWhile, List.reverse_append, List.takeWhile_append_of_pos all]
  rcases List.eq_nil_or_concat done with rfl | ⟨done, l, rfl⟩
  · simp [stream]
  · rw [List.concat_eq_append, stream_concat]
    simp

theorem finished_stream (silent : LF ∉ tail) :
    Conn.finished (stream done ++ tail) = stream done := by
  have parts : Conn.finished (stream done ++ tail) ++ Conn.unfinished (stream done ++ tail) =
      stream done ++ tail := List.rdropWhile_append_rtakeWhile
  rw [unfinished_stream silent] at parts
  exact (List.append_left_inj tail).mp parts

end Cuts

section Lines

variable {c : Conn} {done : List CString} {line tail old : List Byte}

/-- The body of the loop takes the first line off the buffer. -/
theorem printLine_line (clean : NUL ∉ line) (buf : c.buf = line ++ CR :: LF :: (tail ++ old))
    (held : c.inbuf = line.length + 2 + tail.length) :
    c.printLine (line.length + 2) = .ok
      { c with
        buf :=
  tail ++ (List.replicate (line.length + 1) NUL ++ LF :: (tail ++ old)).drop tail.length
        inbuf := tail.length
        printed := c.printed ++ [line] } := by
  have ended : c.buf.set (line.length + 2 - 2) NUL = line ++ NUL :: LF :: (tail ++ old) := by
    rw [buf]
    simp [List.set_append_right]
  have left : c.inbuf - (line.length + 2) = tail.length := by omega
  simp only [Conn.printLine, if_neg (show ¬ c.inbuf < line.length + 2 by omega), ended, left,
    cstr_append_nul line _ clean]
  rw [show line.length + 2 - 1 = line.length + 1 by omega, overwrite_shift]

/-- The inner loop prints the complete lines; behind the rest of the data lies the LF of the last
one only if the rest is as long as that line with its CR. -/
theorem printLines_lines (fuel : Nat) (clean : ∀ l ∈ done, Sendable l) (silent : LF ∉ tail)
    (buf : c.buf = stream done ++ (tail ++ old)) (held : c.inbuf = (stream done ++ tail).length)
    (small : c.inbuf ≤ BUFSIZE) :
    ∃ d old', Conn.printLines (fuel + done.length) c = Conn.printLines fuel d ∧
      d.buf = tail ++ old' ∧
      d.inbuf = tail.length ∧ d.printed = c.printed ++ done ∧ d.buf.length = c.buf.length ∧
      (done = [] → old' = old) ∧
      ∀ l ∈ done.getLast?, (old'[0]? = some LF ↔ tail.length = l.length + 1) := by
  induction done generalizing c old with
  | nil =>
    exact ⟨c, old, rfl, by simpa [stream] using buf, by simpa [stream] using held, by simp, rfl,
      fun _ => rfl, by simp⟩
  | cons l done ih =>
    have here := clean l List.mem_cons_self
    have split : c.buf = l ++ CR :: LF :: ((stream done ++ tail) ++ old) := by simpa using buf
    have total : c.inbuf = l.length + 2 + (stream done ++ tail).length := by
      simp only [held, stream_cons, List.length_append, List.length_cons]
      omega
    have first := printLine_line here.nul split total
    have found : findNetworkNewline c.buf c.inbuf = some (l.length + 2) := by
      rw [split]
      exact findNetworkNewline_line here.cr (by omega) small
    generalize hold : (List.replicate (l.length + 1) NUL ++
      LF :: ((stream done ++ tail) ++ old)).drop (stream done ++ tail).length = old₁ at first
    generalize hc₁ : ({ c with
      buf := (stream done ++ tail) ++ old₁
      inbuf := (stream done ++ tail).length
      printed := c.printed ++ [l] } : Conn) = c₁ at first
    have behind : c₁.buf = stream done ++ (tail ++ old₁) := by simp [← hc₁]
    obtain ⟨d, old', run, dbuf, dheld, printed, size, same, lies⟩ := ih
      (fun k hk => clean k (List.mem_cons_of_mem l hk)) behind (by simp [← hc₁])
      (by simp only [← hc₁]; omega)
    refine ⟨d, old', ?_, dbuf, dheld, by simp [printed, ← hc₁], ?_, by simp, ?_⟩
    · rw [List.length_cons, ← Nat.add_assoc, Conn.printLines, found]
      simp only [first]
      exact run
    · rw [size, ← hc₁, ← hold, split]
      simp
      omega
    · intro k hk
      cases done with
      | nil =>
        obtain rfl : l = k := by simpa using hk
        rw [same rfl, ← hold]
        have lf := lf_shifted l old silent (Nat.le_refl tail.length)
        rw [List.getElem?_append_right (Nat.le_refl _), Nat.sub_self] at lf
        simp only [stream, List.flatMap_nil, List.nil_append]
        rw [lf]
        constructor
        · rintro (h | ⟨h, _⟩) <;> omega
        · exact Or.inl
      | cons m done => exact lies k (by simpa using hk)

/-- The last turn of the inner loop. -/
theorem printLines_end (fuel : Nat) (silent : LF ∉ tail) (buf : c.buf = tail ++ old)
    (held : c.inbuf = tail.length) (small : c.inbuf ≤ BUFSIZE) :
    Conn.printLines (fuel + 1) c =
      if tail.getLast? = some CR ∧ old[0]? = some LF then .error .badLength else .ok c := by
  rw [Conn.printLines, buf, held, findNetworkNewline_tail silent (by omega)]
  by_cases stale : tail.getLast? = some CR ∧ old[0]? = some LF
  · have past : c.inbuf < tail.length + 1 := by omega
    simp [stale, Conn.printLine, past, bind, Except.bind]
  · simp [stale]

end Lines

/-- The buffer holds `p` bytes of the first of the lines that are still to be printed. -/
structure Sync (c : Conn) (lines : List CString) (p : Nat) : Prop where
  size : c.buf.length = BUFSIZE + 1
  held : c.inbuf = p
  after : c.after = p
  room : c.room = (BUFSIZE : Int) - p
  pending : c.buf.take p = (stream lines).take p
  within : ∀ l ∈ lines.head?, p < l.length + 2
  started : lines = [] → p = 0

section Steps

variable {c : Conn} {lines : List CString} {p : Nat} {chunk later : List Byte}

theorem sync_start (behind : Byte) (lines : List CString) : Sync (start behind) lines 0 where
  size := by simp [start, BUFSIZE]
  held := rfl
  after := rfl
  room := rfl
  pending := by simp
  within := by simp
  started := fun _ => rfl

theorem Sync.low (sync : Sync c lines p) (clean : ∀ l ∈ lines, Sendable l) : p < BUFSIZE := by
  cases lines with
  | nil => simp [sync.started rfl, BUFSIZE]
  | cons l rest =>
    have short := (clean l List.mem_cons_self).short
    have within := sync.within l rfl
    omega

theorem Sync.data (sync : Sync c lines p) (sent : chunk ++ later = (stream lines).drop p) :
    c.data chunk = (stream lines).take (p + chunk.length) := by
  rw [Conn.data, sync.held, sync.pending, List.take_add, ← sent, List.take_left]

theorem stream_finish (lines : List CString) (n : Nat) :
    (stream lines).take n =
        stream (finish lines n).1 ++ (stream (finish lines n).2.1).take (finish lines n).2.2 ∧
      (stream lines).drop n = (stream (finish lines n).2.1).drop (finish lines n).2.2 := by
  obtain ⟨split, total, _⟩ := finish_spec lines n
  generalize finish lines n = r at *
  have whole : stream lines = stream r.1 ++ stream r.2.1 := by simp [← split, stream]
  rw [whole, total, List.take_length_add_append, List.drop_length_add_append]
  exact ⟨rfl, rfl⟩

/-- What the reads have taken of the lines that are left is there to be taken. -/
theorem finish_enough (some_byte : 0 < chunk.length)
    (sent : chunk ++ later = (stream lines).drop p) :
    (finish lines (p + chunk.length)).2.2 ≤
    (stream (finish lines (p + chunk.length)).2.1).length := by
  obtain ⟨split, total, _⟩ := finish_spec lines (p + chunk.length)
  generalize finish lines (p + chunk.length) = r at *
  have count := congrArg List.length sent
  have whole : (stream lines).length = (stream r.1).length + (stream r.2.1).length := by
    simp [← split, stream]
  simp only [List.length_append, List.length_drop] at count
  omega

theorem length_le_stream (lines : List CString) : lines.length ≤ (stream lines).length := by
  induction lines with
  | nil => simp
  | cons l rest ih =>
    simp only [stream_cons, List.length_append, List.length_cons]
    omega

theorem Sync.received_buf (sync : Sync c lines p) (chunk : List Byte) :
    (c.received chunk).buf = c.data chunk ++ c.buf.drop (p + chunk.length) := by
  rw [Conn.received, Conn.data, overwrite, sync.after, sync.held]

/-- When the read is cut in front of an LF left behind, in terms of the lines it finishes. -/
theorem staleCut_iff {done : List CString} {tail old : List Byte} (clean : ∀ l ∈ done, Sendable l)
    (silent : LF ∉ tail) (data : c.data chunk = stream done ++ tail)
    (none : done = [] → old[0]? = c.buf[tail.length]?)
    (lies : ∀ l ∈ done.getLast?, (old[0]? = some LF ↔ tail.length = l.length + 1)) :
    c.StaleCut chunk ↔ tail.getLast? = some CR ∧ old[0]? = some LF := by
  rw [Conn.StaleCut, data, unfinished_stream silent, finished_stream silent]
  refine and_congr_right fun _ => ?_
  rcases List.eq_nil_or_concat done with rfl | ⟨done, l, rfl⟩
  · simp [stream, none rfl]
  · rw [List.concat_eq_append] at *
    have hl := clean l (by simp)
    have cr : LF ∉ l ++ [CR] := by
      simp only [List.mem_append, List.mem_singleton, not_or]
      exact ⟨hl.lf, by decide⟩
    rw [stream_concat, ← List.append_assoc, if_neg (by simp), List.dropLast_concat,
      unfinished_stream cr, lies l (by simp)]
    simp only [List.length_append, List.length_singleton]
    exact eq_comm

/-- A turn of the outer loop prints the lines that the read finishes, unless it ends in front of
an LF left behind. -/
theorem Sync.step (sync : Sync c lines p) (clean : ∀ l ∈ lines, Sendable l) (sized : c.Sized chunk)
    (sent : chunk ++ later = (stream lines).drop p) :
    if c.StaleCut chunk then c.step chunk = .error .badLength
    else ∃ d, c.step chunk = .ok d ∧ d.printed = c.printed ++ (finish lines (p + chunk.length)).1 ∧
      Sync d (finish lines (p + chunk.length)).2.1 (finish lines (p + chunk.length)).2.2 := by
  have low := sync.low clean
  have room : p + chunk.length ≤ BUFSIZE := by
    have fits := sized.2
    rw [sync.room] at fits
    omega
  have data := (sync.data sent).trans (stream_finish lines (p + chunk.length)).1
  have buf := sync.received_buf chunk
  have enough := finish_enough sized.1 sent
  obtain ⟨split, total, within⟩ := finish_spec lines (p + chunk.length)
  generalize (finish lines (p + chunk.length)).1 = done at *
  generalize (finish lines (p + chunk.length)).2.1 = left at *
  generalize (finish lines (p + chunk.length)).2.2 = q at *
  have doneClean : ∀ l ∈ done, Sendable l := fun l hl => clean l (by simp [← split, hl])
  have leftClean : ∀ l ∈ left, Sendable l := fun l hl => clean l (by simp [← split, hl])
  have silent : LF ∉ (stream left).take q := unfinished_lf (fun l hl => (leftClean l hl).lf) within
  have size : ((stream left).take q).length = q := by rw [List.length_take, Nat.min_eq_left enough]
  have parts : (c.received chunk).buf =
      stream done ++ ((stream left).take q ++ c.buf.drop (p + chunk.length)) := by
    rw [buf, data, List.append_assoc]
  generalize htail : (stream left).take q = tail at *
  have held : (c.received chunk).inbuf = (stream done ++ tail).length := by
    change c.inbuf + chunk.length = _
    rw [sync.held, List.length_append]
    omega
  have count := length_le_stream done
  obtain ⟨d, old, run, dbuf, dheld, printed, dsize, same, lies⟩ := printLines_lines
    ((c.received chunk).inbuf - done.length + 1) doneClean silent parts held
    (by rw [held, List.length_append]; omega)
  have turns :
      (c.received chunk).inbuf - done.length + 1 + done.length = (c.received chunk).inbuf + 1 := by
    rw [held, List.length_append]
    omega
  have last := printLines_end ((c.received chunk).inbuf - done.length) silent dbuf dheld (by omega)
  rw [turns, last] at run
  have stale := staleCut_iff doneClean silent data (by
    rintro rfl
    have : p + chunk.length = tail.length := by simpa [stream, size] using total
    rw [same rfl, this]
    simp) lies
  have turn : c.step chunk = Conn.printLines ((c.received chunk).inbuf + 1) (c.received chunk) >>=
      fun c => .ok c.pointed := by
    rw [Conn.step, if_neg (by rw [sync.room]; omega)]
  rw [turn, run]
  by_cases cut : c.StaleCut chunk
  · rw [if_pos cut, if_pos (stale.mp cut)]
    rfl
  · rw [if_neg cut, if_neg (fun h => cut (stale.mpr h))]
    refine ⟨d.pointed, rfl, printed, ?_⟩
    refine ⟨?_, by rw [Conn.pointed, dheld, size], by rw [Conn.pointed, dheld, size],
      by rw [Conn.pointed, dheld, size], ?_, within, ?_⟩
    · have whole := sync.size
      simp only [Conn.pointed, dsize, Conn.received, overwrite, sync.after, List.length_append,
        List.length_take, List.length_drop]
      omega
    · rw [Conn.pointed, dbuf, htail, ← size]
      simp
    · rintro rfl
      simpa [stream] using enough

end Steps

section Runs

variable {c : Conn} {lines : List CString} {p : Nat} {chunks : List (List Byte)}

theorem Sync.inBounds {chunk later : List Byte} (sync : Sync c lines p)
    (clean : ∀ l ∈ lines, Sendable l) (sized : c.Sized chunk)
    (sent : chunk ++ later = (stream lines).drop p) : c.InBounds chunk ↔ ¬ c.StaleCut chunk := by
  have turn := sync.step clean sized sent
  by_cases cut : c.StaleCut chunk
  · rw [if_pos cut] at turn
    simp [Conn.InBounds, turn, cut]
  · rw [if_neg cut] at turn
    obtain ⟨d, run, _, next⟩ := turn
    have split := (finish_spec lines (p + chunk.length)).1
    have low := next.low fun l hl => clean l (by rw [← split]; simp [hl])
    have fits := sized.2
    have := sync.low clean
    rw [sync.room] at fits
    refine ⟨fun _ => cut, fun _ => ⟨?_, d, run, ?_, ?_⟩⟩
    · rw [Conn.received, sync.held]
      show p + chunk.length ≤ BUFSIZE
      omega
    · rw [next.held]
      omega
    · rw [next.room]
      omega

/-- The rest of a stream is served exactly when no further read is cut in front of an LF. -/
theorem Sync.serves_iff (sync : Sync c lines p) (clean : ∀ l ∈ lines, Sendable l)
    (sent : chunks.flatten = (stream lines).drop p) (sized : Along Conn.step Conn.Sized c chunks) :
    ((∃ d, run Conn.step c chunks = .ok d ∧ d.printed = c.printed ++ lines) ∧
        Along Conn.step Conn.InBounds c chunks) ↔
      Along Conn.step (fun c chunk => ¬ c.StaleCut chunk) c chunks := by
  induction chunks generalizing c lines p with
  | nil =>
    have nothing : lines = [] := by
      cases lines with
      | nil => rfl
      | cons l rest =>
        have within := sync.within l rfl
        have count := congrArg List.length sent
        simp only [List.flatten_nil, List.length_nil, List.length_drop, stream_cons,
          List.length_append, List.length_cons] at count
        omega
    simp [Along, run, nothing]
  | cons chunk later ih =>
    have here : chunk ++ later.flatten = (stream lines).drop p := sent
    have turn := sync.step clean sized.1 here
    have bounds := sync.inBounds clean sized.1 here
    by_cases cut : c.StaleCut chunk
    · constructor
      · rintro ⟨_, inside, _⟩
        exact absurd cut (bounds.mp inside)
      · rintro ⟨fresh, _⟩
        exact absurd cut fresh
    · rw [if_neg cut] at turn
      obtain ⟨d, step, printed, next⟩ := turn
      have split := (finish_spec lines (p + chunk.length)).1
      have rest : later.flatten = (stream (finish lines (p + chunk.length)).2.1).drop
          (finish lines (p + chunk.length)).2.2 := by
        calc later.flatten = (chunk ++ later.flatten).drop chunk.length := by simp
          _ = (stream lines).drop (p + chunk.length) := by
            rw [← List.drop_drop, ← sent, List.flatten_cons]
          _ = _ := (stream_finish lines (p + chunk.length)).2
      have clean' : ∀ l ∈ (finish lines (p + chunk.length)).2.1, Sendable l :=
        fun l hl => clean l (by rw [← split]; simp [hl])
      have onward := ih next clean' rest (sized.2 d step)
      have runs : run Conn.step c (chunk :: later) = run Conn.step d later := by rw [run, step]
      rw [along_cons_iff step, along_cons_iff step, runs, bounds, ← onward, printed,
        List.append_assoc, split]
      exact and_left_comm

end Runs

/-- Exactly when no read is cut so, the server prints the lines and never leaves its bounds. -/
theorem served_iff (behind : Byte) (lines : List CString) (chunks : List (List Byte))
    (clean : ∀ l ∈ lines, Sendable l) (sent : chunks.flatten = stream lines)
    (sized : Along Conn.step Conn.Sized (start behind) chunks) :
    Served behind lines chunks ↔
      Along Conn.step (fun c chunk => ¬ c.StaleCut chunk) (start behind) chunks :=
  (sync_start behind lines).serves_iff clean sent sized

theorem served_iff_split :
    Served NUL [text "ab", text "c"] [text "ab\r", text "\nc\r\n"] ↔
      Along Conn.step (fun c chunk => ¬ c.StaleCut chunk) (start NUL) [text "ab\r",
        text "\nc\r\n"] :=
  served_iff NUL _ _ (by decide) (by decide) (by decide)

/-- The LF of the first line completes the second one before its own LF has come. -/
theorem second_line_breaks : ¬ ∀ (behind : Byte) (lines : List CString) (chunks : List (List Byte)),
    (∀ l ∈ lines, Sendable l) → chunks.flatten = stream lines →
    Along Conn.step Conn.Sized (start behind) chunks → Served behind lines chunks := by
  intro always
  obtain ⟨⟨c, ends, _⟩, _⟩ :=
    always NUL [text "ab", text "ab"] [text "ab\r\n", text "ab\r", text "\n"]
    (by decide) (by decide) (by decide)
  have breaks : reason (run Conn.step (start NUL) [text "ab\r\n", text "ab\r", text "\n"]) =
      some .badLength := by decide
  rw [ends] at breaks
  cases breaks

end BufServer
