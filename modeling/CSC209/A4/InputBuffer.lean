import CSC209.CStrings
import CSC209.HaltingRuns

/-!
# The input buffer of a client

The part of `handle_client` in `A4/hcq_server.c` that reads, searches and
shifts the buffer. The array is kept whole, with the bytes that earlier lines
leave behind `inbuf`, since the search looks one byte past `inbuf`. A negative
length passed to `memmove` ends the run. The block that a command is copied to
is asked for one byte too short, so that `malloc` decides whether it is enough.
-/

namespace InputBuffer

open CStrings HaltingRuns

def INPUT_BUFFER_SIZE : Nat := 30

/-- `buf` has `INPUT_BUFFER_SIZE + 2` bytes; `after` is an offset into it. -/
structure Input where
  buf : List Byte
  after : Nat
  inbuf : Nat
  room : Int
  deriving DecidableEq, Repr

/-- `memcpy` of some bytes to the offset `k`. -/
def overwrite (buf : List Byte) (k : Nat) (bytes : List Byte) : List Byte :=
  buf.take k ++ bytes ++ buf.drop (k + bytes.length)

/-- Only the first `INPUT_BUFFER_SIZE` bytes are cleared; `a` and `b` are found there. -/
def Input.start (a b : Byte) : Input where
  buf := List.replicate INPUT_BUFFER_SIZE NUL ++ [a, b]
  after := 0
  inbuf := 0
  room := INPUT_BUFFER_SIZE + 2

def findNetworkNewline (buf : List Byte) (n : Nat) : Option Nat :=
  if n > INPUT_BUFFER_SIZE - 2 then none
  else ((List.range n).find? fun i => buf[i]? = some CR ∧ buf[i + 1]? = some LF).map fun i =>
    i + 1 + 1

namespace Input

variable (i : Input)

def received (bytes : List Byte) : Input :=
  { i with buf := overwrite i.buf i.after bytes, inbuf := i.inbuf + bytes.length }

def newline : Option Nat :=
  findNetworkNewline i.buf i.inbuf

def command (newline : Nat) : CString :=
  cstr (i.buf.set (newline - 2) NUL)

/-- Clear the line and move what follows it to the front. -/
def shifted (newline : Nat) : Input :=
  let inbuf := i.inbuf - newline
  let cleared := overwrite i.buf 0 (List.replicate (newline - 1) NUL)
  { i with buf := overwrite cleared 0 ((cleared.drop newline).take inbuf), inbuf := inbuf }

def pointed : Input :=
  { i with after := i.inbuf, room := (INPUT_BUFFER_SIZE : Int) - i.inbuf }

/-- Reasons for which a call leaves no buffer behind. -/
inductive Stop where
  | removed
  | badLength
  | overrun
  deriving DecidableEq, Repr

/-- One call of `handle_client`: the buffer afterwards and the command executed, if any. -/
def handle (bytes : List Byte) : Except Stop (Input × Option CString) :=
  if i.inbuf < INPUT_BUFFER_SIZE then
    let i := i.received bytes
    match i.newline with
    | none => .ok (i.pointed, none)
    | some w =>
      if i.inbuf < w then .error .badLength
      else .ok ((i.shifted w).pointed, some (i.command w))
  else .error .removed

def step (bytes : List Byte) : Except Stop Input :=
  (i.handle bytes).map Prod.fst

/-- The same with the block that `malloc` gives for a command: `strcpy` writes its NUL too. -/
def handleIn (block : Nat) (bytes : List Byte) : Except Stop (Input × Option CString) :=
  match i.handle bytes with
  | .ok (j, some command) =>
    if command.length < block then .ok (j, some command) else .error .overrun
  | result => result

/-- What `read` can return, when it is called. -/
def Sized (bytes : List Byte) : Prop :=
  i.inbuf < INPUT_BUFFER_SIZE → (bytes.length : Int) ≤ i.room

/-- The bounds after a call, and those on the line it found. -/
def Bounded (bytes : List Byte) : Prop :=
  (∀ j, i.step bytes = .ok j →
    j.inbuf ≤ INPUT_BUFFER_SIZE ∧ j.after = j.inbuf ∧
      j.room = (INPUT_BUFFER_SIZE : Int) - j.inbuf) ∧
  (i.inbuf < INPUT_BUFFER_SIZE →
    ∀ w, (i.received bytes).newline = some w → 2 ≤ w ∧ w ≤ (i.received bytes).inbuf)

/-- The bytes that the client has sent and the buffer holds after a read. -/
def data (bytes : List Byte) : List Byte :=
  i.buf.take i.inbuf ++ bytes

/-- The data has no line of its own, and ends in a CR in front of an LF left behind. -/
def Stale (bytes : List Byte) : Prop :=
  (i.data bytes).length ≤ INPUT_BUFFER_SIZE - 2 ∧ ¬ [CR, LF] <:+: i.data bytes ∧
    (i.data bytes).getLast? = some CR ∧ i.buf[(i.data bytes).length]? = some LF

def Fits (bytes : List Byte) : Prop :=
  i.inbuf < INPUT_BUFFER_SIZE →
    (i.data bytes).length ≤ INPUT_BUFFER_SIZE ∧ ¬ i.Stale bytes

/-- What the calls keep: the room differs before the first one. -/
structure Kept : Prop where
  size : i.buf.length = INPUT_BUFFER_SIZE + 2
  after : i.after = i.inbuf
  room : i.inbuf = 0 ∧ i.room = INPUT_BUFFER_SIZE + 2 ∨
    i.inbuf ≤ INPUT_BUFFER_SIZE ∧ i.room = (INPUT_BUFFER_SIZE : Int) - i.inbuf

end Input

section Search

variable {buf : List Byte} {n w : Nat}

def LineAt (buf : List Byte) (i : Nat) : Prop :=
  buf[i]? = some CR ∧ buf[i + 1]? = some LF

/-- The search stops at the first line among so many places. -/
theorem search_eq_some :
    ((List.range n).find? fun i => buf[i]? = some CR ∧ buf[i + 1]? = some LF).map
    (fun i => i + 1 + 1) = some w ↔
      ∃ i < n, w = i + 2 ∧ LineAt buf i ∧ ∀ j < i, ¬ LineAt buf j := by
  simp only [Option.map_eq_some_iff, List.find?_range_eq_some, List.mem_range, LineAt,
    decide_eq_true_eq, Bool.not_eq_true', decide_eq_false_iff_not]
  constructor
  · rintro ⟨i, ⟨hi, hlt, hfirst⟩, rfl⟩
    exact ⟨i, hlt, rfl, hi, hfirst⟩
  · rintro ⟨i, hlt, rfl, hi, hfirst⟩
    exact ⟨i, ⟨hi, hlt, hfirst⟩, rfl⟩

theorem search_eq_none :
    ((List.range n).find? fun i => buf[i]? = some CR ∧ buf[i + 1]? = some LF).map
    (fun i => i + 1 + 1) = none ↔
      ∀ i < n, ¬ LineAt buf i := by
  simp only [Option.map_eq_none_iff, List.find?_eq_none, List.mem_range, LineAt, decide_eq_true_eq]

theorem findNetworkNewline_eq_some : findNetworkNewline buf n = some w ↔
    n ≤ INPUT_BUFFER_SIZE - 2 ∧ ∃ i < n, w = i + 2 ∧ LineAt buf i ∧ ∀ j < i, ¬ LineAt buf j := by
  by_cases hn : n > INPUT_BUFFER_SIZE - 2
  · simp only [findNetworkNewline, if_pos hn, reduceCtorEq, false_iff]
    omega
  · rw [findNetworkNewline, if_neg hn, search_eq_some]
    exact ⟨fun found => ⟨by omega, found⟩, And.right⟩

theorem findNetworkNewline_eq_none : findNetworkNewline buf n = none ↔
    n ≤ INPUT_BUFFER_SIZE - 2 → ∀ i < n, ¬ LineAt buf i := by
  by_cases hn : n > INPUT_BUFFER_SIZE - 2
  · simp only [findNetworkNewline, if_pos hn, true_iff]
    omega
  · rw [findNetworkNewline, if_neg hn, search_eq_none]
    exact ⟨fun none _ => none, fun none => none (by omega)⟩

/-- A line at the start of a buffer is its first one. -/
theorem lineAt_first {line rest : List Byte} (clean : CR ∉ line) :
    LineAt (line ++ CR :: LF :: rest) line.length ∧
      ∀ j < line.length, ¬ LineAt (line ++ CR :: LF :: rest) j := by
  refine ⟨⟨by simp, ?_⟩, ?_⟩
  · rw [List.getElem?_append_right (by omega)]
    simp
  · rintro j hj ⟨hcr, _⟩
    rw [List.getElem?_append_left hj] at hcr
    exact clean (List.mem_of_getElem? hcr)

/-- A line at the start of the buffer is the one found. -/
theorem findNetworkNewline_line {line rest : List Byte} (clean : CR ∉ line) (long : line.length < n)
    (small : n ≤ INPUT_BUFFER_SIZE - 2) :
    findNetworkNewline (line ++ CR :: LF :: rest) n = some (line.length + 2) :=
  findNetworkNewline_eq_some.mpr ⟨small, line.length, long, rfl, lineAt_first clean⟩

/-- Lines that start in front of the last byte of `d` lie in `d`. -/
theorem lineAt_data {d rest : List Byte} :
    (∃ i, i + 1 < d.length ∧ LineAt (d ++ rest) i) ↔ [CR, LF] <:+: d := by
  rw [List.infix_iff_getElem?]
  constructor
  · rintro ⟨i, hi, hcr, hlf⟩
    rw [List.getElem?_append_left (by omega)] at hcr hlf
    refine ⟨i, by simp; omega, fun j hj => ?_⟩
    simp only [List.length_cons, List.length_nil] at hj
    obtain rfl | rfl : j = 0 ∨ j = 1 := by omega
    · simpa using hcr
    · simpa [Nat.add_comm] using hlf
  · rintro ⟨i, hi, hat⟩
    simp only [List.length_cons, List.length_nil] at hi
    have hcr := hat 0 (by simp)
    have hlf := hat 1 (by simp)
    refine ⟨i, by omega, ?_, ?_⟩
    · rw [List.getElem?_append_left (by omega)]
      simpa using hcr
    · rw [List.getElem?_append_left (by omega)]
      simpa [Nat.add_comm] using hlf

theorem lineAt_end {d rest : List Byte} (h : 0 < d.length) :
    LineAt (d ++ rest) (d.length - 1) ↔ d.getLast? = some CR ∧ rest[0]? = some LF := by
  rw [LineAt, List.getElem?_append_left (by omega), List.getLast?_eq_getElem?,
    List.getElem?_append_right (by omega)]
  simp [show d.length - 1 + 1 - d.length = 0 by omega]

end Search

namespace Input

section Bounds

variable {i : Input} {bytes : List Byte} {w : Nat}

theorem received_buf (kept : i.Kept) (bytes : List Byte) :
    (i.received bytes).buf = i.data bytes ++ i.buf.drop (i.data bytes).length := by
  have size := kept.size
  have room := kept.room
  have held : (i.buf.take i.inbuf).length = i.inbuf := by
    rw [List.length_take]
    rcases room with ⟨h, _⟩ | ⟨h, _⟩ <;> omega
  simp only [received, overwrite, data, kept.after, List.length_append, held]

theorem data_length (kept : i.Kept) (bytes : List Byte) :
    (i.data bytes).length = i.inbuf + bytes.length := by
  have size := kept.size
  have room := kept.room
  rw [data, List.length_append, List.length_take]
  rcases room with ⟨h, _⟩ | ⟨h, _⟩ <;> omega

/-- A line is found among the received bytes or one past them. -/
theorem newline_range (found : (i.received bytes).newline = some w) :
    2 ≤ w ∧ w ≤ i.inbuf + bytes.length + 1 := by
  obtain ⟨_, k, hk, rfl, _, _⟩ := findNetworkNewline_eq_some.mp found
  simp only [received] at hk
  omega

/-- The line found lies past the received bytes exactly when its LF was left behind. -/
theorem newline_stale (kept : i.Kept) :
    (i.received bytes).newline = some (i.inbuf + bytes.length + 1) ↔ i.Stale bytes := by
  have length := data_length kept bytes
  have old : (i.buf.drop (i.data bytes).length)[0]? = i.buf[(i.data bytes).length]? := by simp
  unfold newline
  rw [findNetworkNewline_eq_some, received_buf kept]
  simp only [received, Stale, ← length]
  generalize i.data bytes = d at *
  constructor
  · rintro ⟨small, k, hk, hw, here, first⟩
    obtain rfl : k = d.length - 1 := by omega
    have ends := (lineAt_end (by omega)).mp here
    refine ⟨small, ?_, ends.1, old ▸ ends.2⟩
    intro inside
    obtain ⟨j, hj, hline⟩ := lineAt_data.mpr inside
    exact first j (by omega) hline
  · rintro ⟨small, inside, hcr, hlf⟩
    have pos : 0 < d.length := by
      cases d with
      | nil => simp at hcr
      | cons b rest => simp
    refine ⟨small, d.length - 1, by omega, by omega, (lineAt_end pos).mpr ⟨hcr, old ▸ hlf⟩, ?_⟩
    intro j hj hline
    exact inside (lineAt_data.mp ⟨j, by omega, hline⟩)

theorem newline_inside (kept : i.Kept) (found : (i.received bytes).newline = some w)
    (inside : w ≤ i.inbuf + bytes.length) : [CR, LF] <:+: i.data bytes := by
  have length := data_length kept bytes
  obtain ⟨_, k, _, rfl, here, _⟩ := findNetworkNewline_eq_some.mp found
  rw [received_buf kept] at here
  exact lineAt_data.mp ⟨k, by omega, here⟩

/-- A call on a buffer that is not full: no line, a line past the data, or a line in it. -/
theorem handle_cases (bytes : List Byte) (notFull : i.inbuf < INPUT_BUFFER_SIZE) :
    ((i.received bytes).newline = none ∧
      i.handle bytes = .ok ((i.received bytes).pointed, none)) ∨
    (∃ w, (i.received bytes).newline = some w ∧ i.inbuf + bytes.length < w ∧
      i.handle bytes = .error .badLength) ∨
    (∃ w, (i.received bytes).newline = some w ∧ w ≤ i.inbuf + bytes.length ∧
      i.handle bytes =
        .ok (((i.received bytes).shifted w).pointed, some ((i.received bytes).command w))) := by
  unfold handle
  rw [if_pos notFull]
  cases found : (i.received bytes).newline with
  | none => exact Or.inl ⟨rfl, by simp [found]⟩
  | some w =>
    by_cases past : (i.received bytes).inbuf < w
    · exact Or.inr (Or.inl ⟨w, rfl, past, by simp [found, past]⟩)
    · exact Or.inr (Or.inr ⟨w, rfl, Nat.le_of_not_lt past, by simp [found, past]⟩)

instance (i : Input) (bytes : List Byte) : Decidable (i.Sized bytes) :=
  inferInstanceAs (Decidable (_ → _))

theorem kept_start (a b : Byte) : (start a b).Kept :=
  ⟨by simp [start, INPUT_BUFFER_SIZE], rfl, Or.inl ⟨rfl, rfl⟩⟩

theorem overwrite_length {buf bytes : List Byte} {k : Nat} (h : k + bytes.length ≤ buf.length) :
    (overwrite buf k bytes).length = buf.length := by
  simp only [overwrite, List.length_append, List.length_take, List.length_drop]
  omega

theorem received_size (kept : i.Kept) (sized : i.inbuf + bytes.length ≤ INPUT_BUFFER_SIZE + 2) :
    (i.received bytes).buf.length = INPUT_BUFFER_SIZE + 2 := by
  rw [received, overwrite_length, kept.size]
  rw [kept.after, kept.size]
  exact sized

theorem shifted_size (h : w ≤ i.buf.length) : (i.shifted w).buf.length = i.buf.length := by
  have cleared : (overwrite i.buf 0 (List.replicate (w - 1) NUL)).length = i.buf.length :=
    overwrite_length (by simp; omega)
  rw [shifted, overwrite_length, cleared]
  simp only [List.length_take, List.length_drop, cleared]
  omega

theorem sized_fits (kept : i.Kept) (sized : i.Sized bytes) (notFull : i.inbuf < INPUT_BUFFER_SIZE) :
    i.inbuf + bytes.length ≤ INPUT_BUFFER_SIZE + 2 := by
  have hs := sized notFull
  rcases kept.room with ⟨h, hr⟩ | ⟨h, hr⟩ <;> rw [hr] at hs <;> omega

theorem kept_step {j : Input} (kept : i.Kept) (sized : i.Sized bytes) (bounded : i.Bounded bytes)
    (run : i.step bytes = .ok j) : j.Kept := by
  obtain ⟨hle, hafter, hroom⟩ := bounded.1 j run
  refine ⟨?_, hafter, Or.inr ⟨hle, hroom⟩⟩
  by_cases notFull : i.inbuf < INPUT_BUFFER_SIZE
  · have size := received_size kept (sized_fits kept sized notFull)
    rcases handle_cases bytes notFull with ⟨_, heq⟩ | ⟨w, _, _, heq⟩ | ⟨w, _, hw, heq⟩
    · simp only [step, heq, Except.map, Except.ok.injEq] at run
      exact run ▸ size
    · simp [step, heq, Except.map] at run
    · simp only [step, heq, Except.map, Except.ok.injEq] at run
      have short : w ≤ (i.received bytes).buf.length := by
        have := sized_fits kept sized notFull
        omega
      rw [← run]
      exact (shifted_size short).trans size
  · simp [step, handle, notFull, Except.map] at run

theorem bounded_iff_fits (kept : i.Kept) :
    i.Bounded bytes ↔ i.Fits bytes := by
  have length := data_length kept bytes
  by_cases notFull : i.inbuf < INPUT_BUFFER_SIZE
  · constructor
    · intro bounded _
      constructor
      · by_contra big
        have none_found : (i.received bytes).newline = none := by
          refine findNetworkNewline_eq_none.mpr fun small => ?_
          simp only [received] at small
          omega
        have heq : i.step bytes = .ok (i.received bytes).pointed := by
          simp [step, handle, notFull, none_found, Except.map]
        have hle := (bounded.1 _ heq).1
        simp only [received, pointed] at hle
        omega
      · intro stale
        have hw := (bounded.2 notFull _ ((newline_stale kept).mpr stale)).2
        simp only [received] at hw
        omega
    · intro fits
      obtain ⟨hle, fresh⟩ := fits notFull
      have inside :
          ∀ w, (i.received bytes).newline = some w → 2 ≤ w ∧ w ≤ i.inbuf + bytes.length := by
        intro w found
        obtain ⟨h2, hw⟩ := newline_range found
        by_cases past : w = i.inbuf + bytes.length + 1
        · exact absurd ((newline_stale kept).mp (past ▸ found)) fresh
        · exact ⟨h2, by omega⟩
      refine ⟨?_, fun _ => inside⟩
      intro j run
      rcases handle_cases bytes notFull with ⟨_, heq⟩ | ⟨w, _, _, heq⟩ | ⟨w, _, _, heq⟩
      · simp only [step, heq, Except.map, Except.ok.injEq] at run
        rw [← run]
        exact ⟨by simpa only [pointed, received, ← length] using hle, rfl, rfl⟩
      · simp [step, heq, Except.map] at run
      · simp only [step, heq, Except.map, Except.ok.injEq] at run
        rw [← run]
        refine ⟨?_, rfl, rfl⟩
        simp only [pointed, shifted, received]
        omega
  · constructor
    · exact fun _ h => absurd h notFull
    · exact fun _ => ⟨fun j run => by simp [step, handle, notFull, Except.map] at run,
        fun h => absurd h notFull⟩

end Bounds

/-- Over any reads, the bounds hold after every call and on every line found exactly when
each read fits the buffer and completes no line with an LF left behind. -/
theorem bounds_iff_fits (a b : Byte) (reads : List (List Byte))
    (sized : Along step Sized (start a b) reads) :
    Along step Bounded (start a b) reads ↔ Along step Fits (start a b) reads :=
  along_congr (kept_start a b) sized
    (fun _ _ _ kept fit bounded run => kept_step kept fit bounded run)
    fun _ _ kept _ => bounded_iff_fits kept

theorem bounds_iff_fits_split :
    Along step Bounded (start 0 0) [text "Ann\r", text "\nT\r\n"] ↔
      Along step Fits (start 0 0) [text "Ann\r", text "\nT\r\n"] :=
  bounds_iff_fits 0 0 _ (by decide)

/-- The LF of the first line completes the second one before its own LF has come. -/
theorem bounds_fail_on_stale : ¬ ∀ (a b : Byte) (reads : List (List Byte)),
    Along step Sized (start a b) reads → Along step Bounded (start a b) reads := by
  intro always
  have bounded := always 0 0 [text "ab\r\n", text "cd\r"] (by decide)
  have past := ((bounded.2 _ rfl).1.2 (by decide) 4 (by decide)).2
  exact absurd past (by decide)

end Input

end InputBuffer
