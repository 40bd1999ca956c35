import CSC209.CStrings
import Mathlib.Tactic.Ring

/-!
# Byte streams

An input stream is the list of the bytes that are left. `fgets` with a buffer
of `size` bytes takes at most `size - 1` of them and stops behind a newline;
at the end of the stream it takes nothing and returns NULL. `fread` of one
record takes all of its bytes or reports that there is none. Integers of four
bytes are stored with the lowest byte first, in two's complement.
-/

namespace StreamIO

open CStrings

variable {input rest line : List Byte} {n size fuel : Nat}

/-- At most `n` bytes, up to and including the first newline, and what is left. -/
def takeLine : Nat → List Byte → List Byte × List Byte
  | 0, input => ([], input)
  | _ + 1, [] => ([], [])
  | n + 1, b :: rest =>
    if b = LF then ([LF], rest)
    else
      let (line, left) := takeLine n rest
      (b :: line, left)

def fgets (size : Nat) (input : List Byte) : Option (List Byte × List Byte) :=
  if input = [] then none else some (takeLine (size - 1) input)

/-- The lines that a loop over `fgets` gets, for as many turns as the fuel allows. -/
def linesFrom (size : Nat) : Nat → List Byte → List (List Byte)
  | 0, _ => []
  | fuel + 1, input =>
    match fgets size input with
    | none => []
    | some (line, left) => line :: linesFrom size fuel left

/-- Every turn takes a byte, so the number of bytes is fuel enough. -/
def lines (size : Nat) (input : List Byte) : List (List Byte) := linesFrom size input.length input

/-- The lines of a text, each with its newline; the last one may have none. -/
def textLines : List Byte → List (List Byte)
  | [] => []
  | b :: rest =>
    if b = LF then [LF] :: textLines rest
    else
      match textLines rest with
      | [] => [[b]]
      | line :: later => (b :: line) :: later

def fread (size : Nat) (input : List Byte) : Option (List Byte × List Byte) :=
  if input.length < size then none else some (input.take size, input.drop size)

/-- The string of a line whose last character has been overwritten; there is none to overwrite
in an empty string. -/
def chop (line : List Byte) : Option CString :=
  if cstr line = [] then none else some (cstr line).dropLast

section Lines

theorem takeLine_append (n : Nat) (input : List Byte) :
    (takeLine n input).1 ++ (takeLine n input).2 = input := by
  induction input generalizing n with
  | nil => cases n <;> rfl
  | cons b rest ih =>
    cases n with
    | zero => rfl
    | succ n =>
      by_cases end_ : b = LF
      · simp [takeLine, end_]
      · simp [takeLine, end_, ih n]

theorem takeLine_nonempty (some_byte : input ≠ []) : (takeLine (n + 1) input).1 ≠ [] := by
  cases input with
  | nil => exact absurd rfl some_byte
  | cons b rest => by_cases end_ : b = LF <;> simp [takeLine, end_]

theorem takeLine_shorter (some_byte : input ≠ []) :
    (takeLine (n + 1) input).2.length < input.length := by
  have whole := congrArg List.length (takeLine_append (n + 1) input)
  have taken := List.length_pos_of_ne_nil (takeLine_nonempty (n := n) some_byte)
  rw [List.length_append] at whole
  omega

theorem takeLine_fits (n : Nat) (input : List Byte) : (takeLine n input).1.length ≤ n := by
  induction input generalizing n with
  | nil => cases n <;> simp [takeLine]
  | cons b rest ih =>
    cases n with
    | zero => simp [takeLine]
    | succ n =>
      by_cases end_ : b = LF
      · simp [takeLine, end_]
      · simp [takeLine, end_, ih n]

/-- A line and its NUL fit the buffer. -/
theorem fgets_fits (some_byte : 0 < size) (h : fgets size input = some (line, rest)) :
    line.length < size := by
  rw [fgets] at h
  split at h
  · cases h
  · have taken := Option.some.inj h
    rw [show line = (takeLine (size - 1) input).1 from congrArg Prod.fst taken.symm]
    have fits := takeLine_fits (size - 1) input
    omega

theorem fgets_shorter (big : 1 < size) (h : fgets size input = some (line, rest)) :
    line ≠ [] ∧ rest.length < input.length := by
  obtain ⟨n, rfl⟩ : ∃ n, size = n + 1 + 1 := ⟨size - 2, by omega⟩
  rw [fgets] at h
  split at h
  · cases h
  · rename_i some_byte
    have taken := Option.some.inj h
    rw [show line = (takeLine (n + 1) input).1 from congrArg Prod.fst taken.symm,
      show rest = (takeLine (n + 1) input).2 from congrArg Prod.snd taken.symm]
    exact ⟨takeLine_nonempty some_byte, takeLine_shorter some_byte⟩

/-- Any two amounts of fuel that suffice give the same lines. -/
theorem linesFrom_fuel (big : 1 < size) {more : Nat} (enough : input.length ≤ fuel)
    (enough' : input.length ≤ more) : linesFrom size fuel input = linesFrom size more input := by
  induction fuel generalizing input more with
  | zero =>
    obtain rfl : input = [] := by simpa using enough
    cases more <;> simp [linesFrom, fgets]
  | succ fuel ih =>
    cases more with
    | zero =>
      obtain rfl : input = [] := by simpa using enough'
      simp [linesFrom, fgets]
    | succ more =>
      simp only [linesFrom]
      cases taken : fgets size input with
      | none => rfl
      | some pair =>
        obtain ⟨_, shorter⟩ := fgets_shorter big taken
        have later : linesFrom size fuel pair.2 = linesFrom size more pair.2 :=
          ih (by omega) (by omega)
        simp [later]

theorem lines_some (big : 1 < size) (h : fgets size input = some (line, rest)) :
    lines size input = line :: lines size rest := by
  obtain ⟨_, shorter⟩ := fgets_shorter big h
  obtain ⟨n, hn⟩ : ∃ n, input.length = n + 1 := ⟨input.length - 1, by omega⟩
  rw [lines, hn, linesFrom, h, lines]
  exact congrArg (line :: ·) (linesFrom_fuel big (by omega) (Nat.le_refl _))

/-- No byte is lost or read twice. -/
theorem lines_flatten (big : 1 < size) (input : List Byte) :
    (lines size input).flatten = input := by
  generalize long : input.length = n
  induction n using Nat.strong_induction_on generalizing input with
  | _ n ih =>
    by_cases some_byte : input = []
    · subst some_byte
      rfl
    · have taken : fgets size input = some (takeLine (size - 1) input) := by simp [fgets, some_byte]
      obtain ⟨_, shorter⟩ := fgets_shorter big taken
      rw [lines_some big taken, List.flatten_cons, ih _ (long ▸ shorter) _ rfl, takeLine_append]

/-- Only the last byte of a line can be a newline. -/
theorem takeLine_body (n : Nat) (input : List Byte) : LF ∉ (takeLine n input).1.dropLast := by
  induction n generalizing input with
  | zero => simp [takeLine]
  | succ n ih =>
    cases input with
    | nil => simp [takeLine]
    | cons b rest =>
      by_cases end_ : b = LF
      · simp [takeLine, end_]
      · have later := ih rest
        simp only [takeLine, if_neg end_]
        cases hline : (takeLine n rest).1 with
        | nil => simp
        | cons c more =>
          rw [hline] at later
          simpa [List.dropLast_cons_cons, Ne.symm end_] using later

theorem forall_linesFrom {P : List Byte → Prop}
    (each : ∀ input line rest, fgets size input = some (line, rest) → P line) :
    ∀ line ∈ linesFrom size fuel input, P line := by
  induction fuel generalizing input with
  | zero => simp [linesFrom]
  | succ fuel ih =>
    simp only [linesFrom]
    cases taken : fgets size input with
    | none => simp
    | some pair => exact List.forall_mem_cons.mpr ⟨each input pair.1 pair.2 taken, ih⟩

theorem lines_nonempty (big : 1 < size) : ∀ line ∈ lines size input, line ≠ [] :=
  forall_linesFrom fun _ _ _ taken => (fgets_shorter big taken).1

theorem lines_body : ∀ line ∈ lines size input, LF ∉ line.dropLast := by
  apply forall_linesFrom
  intro input line rest taken
  rw [fgets] at taken
  split at taken
  · cases taken
  · rw [show line =
        (takeLine (size - 1) input).1 from congrArg Prod.fst (Option.some.inj taken).symm]
    exact takeLine_body _ _

theorem mem_of_mem_lines {b : Byte} (big : 1 < size) (h : line ∈ lines size input) (hb : b ∈ line) :
    b ∈ input := by
  rw [← lines_flatten big input]
  exact List.mem_flatten.mpr ⟨line, h, hb⟩

/-- Bytes without a newline, before one or before the end of the input: they are taken with the
newline, or cut if they do not fit. -/
theorem takeLine_word (noNewline : LF ∉ line)
    (ends : rest = [] ∨ ∃ more, rest = LF :: more) (n : Nat) :
    takeLine n (line ++ rest) =
      if line.length < n then (line ++ rest.take 1, rest.tail) else
        (line.take n, line.drop n ++ rest) := by
  induction line generalizing n with
  | nil =>
    cases n with
    | zero => rfl
    | succ n => rcases ends with rfl | ⟨more, rfl⟩ <;> simp [takeLine]
  | cons b later ih =>
    obtain ⟨first, clean⟩ : LF ≠ b ∧ LF ∉ later := by simpa using noNewline
    cases n with
    | zero => rfl
    | succ n =>
      have taken := ih clean n
      by_cases fits : later.length < n
      · simp [takeLine, Ne.symm first, taken, fits]
      · simp [takeLine, Ne.symm first, taken, fits]

/-- A line that fits the buffer is taken whole. -/
theorem takeLine_line (noNewline : LF ∉ line) (fits : line.length < n) (rest : List Byte) :
    takeLine n (line ++ LF :: rest) = (line ++ [LF], rest) := by
  rw [takeLine_word noNewline (.inr ⟨rest, rfl⟩), if_pos fits]
  rfl

/-- A last line that fits is taken to the end of the input. -/
theorem takeLine_last (noNewline : LF ∉ line) (fits : line.length ≤ n) :
    takeLine n line = (line, []) := by
  have taken := takeLine_word noNewline (.inl rfl) n
  rw [List.append_nil] at taken
  by_cases more : line.length < n
  · simpa [more] using taken
  · simpa [more, List.take_of_length_le fits, List.drop_eq_nil_of_le fits] using taken

/-- Lines that fit the buffer are read back one by one, the last one also without a newline. -/
theorem lines_of_text {ls : List (List Byte)} {last : List Byte} (noNewline : ∀ l ∈ ls, LF ∉ l)
    (fits : ∀ l ∈ ls, l.length + 1 < size) (noNewline' : LF ∉ last) (fits' : last.length < size) :
    lines size (ls.flatMap (· ++ [LF]) ++ last) = ls.map (· ++ [LF]) ++ if last = [] then [] else
      [last] := by
  induction ls with
  | nil =>
    by_cases none : last = []
    · simp [none, lines, linesFrom]
    · have taken : fgets size last = some (last, []) := by
        rw [fgets, if_neg none, takeLine_last noNewline' (by omega)]
      have big : 1 < size := by
        have := List.length_pos_of_ne_nil none
        omega
      rw [List.flatMap_nil, List.nil_append, lines_some big taken, if_neg none]
      rfl
  | cons l rest ih =>
    have here := fits l List.mem_cons_self
    have taken : fgets size ((l :: rest).flatMap (· ++ [LF]) ++ last) =
        some (l ++ [LF], rest.flatMap (· ++ [LF]) ++ last) := by
      have whole := takeLine_line (noNewline l List.mem_cons_self) (n := size - 1) (by omega)
        (rest.flatMap (· ++ [LF]) ++ last)
      simp [fgets, whole]
    rw [lines_some (by omega) taken, ih (fun u hu => noNewline u (List.mem_cons_of_mem l hu))
      fun u hu => fits u (List.mem_cons_of_mem l hu)]
    rfl

/-- Lines that fit the buffer, each with its newline, are read back one by one. -/
theorem lines_of_newlines {ls : List (List Byte)} (noNewline : ∀ l ∈ ls, LF ∉ l)
    (fits : ∀ l ∈ ls, l.length + 1 < size) :
    lines size (ls.flatMap (· ++ [LF])) = ls.map (· ++ [LF]) := by
  cases ls with
  | nil => rfl
  | cons l rest =>
    have here := fits l List.mem_cons_self
    simpa using
      lines_of_text noNewline fits (show LF ∉ [] by simp) (show [].length < size by simp; omega)

theorem textLines_eq_nil : textLines input = [] ↔ input = [] := by
  cases input with
  | nil => simp [textLines]
  | cons b rest =>
    simp only [textLines, reduceCtorEq, iff_false]
    split
    · simp
    · split <;> simp

theorem textLines_flatten (input : List Byte) : (textLines input).flatten = input := by
  induction input with
  | nil => rfl
  | cons b rest ih =>
    by_cases end_ : b = LF
    · simp [textLines, end_, ih]
    · cases later : textLines rest with
      | nil => simpa [textLines, end_, later, eq_comm] using ih
      | cons line more => simpa [textLines, end_, later] using ih

theorem takeLine_textLines {later : List (List Byte)} (text : textLines input = line :: later)
    (fits : line.length ≤ n) :
    ∃ rest, takeLine n input = (line, rest) ∧ textLines rest = later := by
  induction input generalizing n line later with
  | nil => cases text
  | cons b input ih =>
    by_cases end_ : b = LF
    · obtain ⟨rfl, rfl⟩ : [LF] = line ∧ textLines input = later := by
        simpa [textLines, end_] using text
      obtain ⟨n, rfl⟩ : ∃ k, n = k + 1 := ⟨n - 1, by simp at fits; omega⟩
      exact ⟨input, by simp [takeLine, end_], rfl⟩
    · cases tail : textLines input with
      | nil =>
        obtain ⟨rfl, rfl⟩ : [b] = line ∧ [] = later := by simpa [textLines, end_, tail] using text
        obtain rfl := textLines_eq_nil.mp tail
        obtain ⟨n, rfl⟩ : ∃ k, n = k + 1 := ⟨n - 1, by simp at fits; omega⟩
        exact ⟨[], by cases n <;> simp [takeLine, end_], rfl⟩
      | cons first more =>
        obtain ⟨rfl, rfl⟩ : b :: first = line ∧ more = later := by
          simpa [textLines, end_, tail] using text
        obtain ⟨n, rfl⟩ : ∃ k, n = k + 1 := ⟨n - 1, by simp at fits; omega⟩
        obtain ⟨rest, taken, left⟩ := ih tail (by simpa using fits)
        exact ⟨rest, by simp [takeLine, end_, taken], left⟩

/-- A line of the text that is shorter than the buffer is what `fgets` gets. -/
theorem fgets_textLines {later : List (List Byte)} (text : textLines input = line :: later)
    (short : line.length < size) :
    ∃ rest, fgets size input = some (line, rest) ∧ textLines rest = later := by
  have some_byte : input ≠ [] := by
    rintro rfl
    cases text
  obtain ⟨rest, taken, left⟩ := takeLine_textLines text (n := size - 1) (by omega)
  exact ⟨rest, by simp [fgets, some_byte, taken], left⟩

/-- A line that does not fit is cut, and what is left of it is the next line. -/
theorem takeLine_long {later : List (List Byte)} (text : textLines input = line :: later)
    (long : n < line.length) :
    ∃ rest, takeLine n input = (line.take n, rest) ∧ textLines rest = line.drop n :: later := by
  induction input generalizing n line later with
  | nil => cases text
  | cons b input ih =>
    cases n with
    | zero => exact ⟨b :: input, rfl, text⟩
    | succ n =>
      by_cases end_ : b = LF
      · obtain ⟨rfl, rfl⟩ : [LF] = line ∧ textLines input = later := by
          simpa [textLines, end_] using text
        simp at long
      · cases tail : textLines input with
        | nil =>
          obtain ⟨rfl, rfl⟩ : [b] = line ∧ [] = later := by simpa [textLines, end_, tail] using text
          simp at long
        | cons first more =>
          obtain ⟨rfl, rfl⟩ : b :: first = line ∧ more = later := by
            simpa [textLines, end_, tail] using text
          obtain ⟨rest, taken, left⟩ := ih tail (by simpa using long)
          exact ⟨rest, by simp [takeLine, end_, taken], by simpa using left⟩

/-- Lines that all fit are got one by one. -/
theorem lines_textLines (big : 1 < size) (fits : ∀ line ∈ textLines input, line.length < size) :
    lines size input = textLines input := by
  generalize all : textLines input = ls at fits
  induction ls generalizing input with
  | nil =>
    obtain rfl := textLines_eq_nil.mp all
    rfl
  | cons line later ih =>
    obtain ⟨rest, taken, left⟩ := fgets_textLines all (fits line List.mem_cons_self)
    rw [lines_some big taken, ih left fun l hl => fits l (List.mem_cons_of_mem line hl)]

/-- A loop over `fgets` takes at least as many turns as there are lines, and more if one of them
does not fit. -/
theorem length_textLines_le (big : 1 < size) (input : List Byte) :
    (textLines input).length ≤ (lines size input).length ∧
      ((textLines input).length = (lines size input).length →
        ∀ line ∈ textLines input, line.length < size) := by
  generalize bytes : input.length = k
  induction k using Nat.strong_induction_on generalizing input with
  | _ k ih =>
    cases all : textLines input with
    | nil =>
      obtain rfl := textLines_eq_nil.mp all
      simp
    | cons line later =>
      have some_byte : input ≠ [] := by
        rintro rfl
        cases all
      by_cases fits : line.length < size
      · obtain ⟨rest, taken, left⟩ := fgets_textLines all fits
        obtain ⟨least, exact_⟩ := ih rest.length (bytes ▸ (fgets_shorter big taken).2) rest rfl
        rw [left] at least exact_
        rw [lines_some big taken]
        simp only [List.length_cons, Nat.add_right_cancel_iff, List.forall_mem_cons]
        exact ⟨by omega, fun same => ⟨fits, exact_ same⟩⟩
      · obtain ⟨rest, cut, left⟩ := takeLine_long all (show size - 1 < line.length by omega)
        have taken : fgets size input = some (line.take (size - 1), rest) := by
          simp [fgets, some_byte, cut]
        obtain ⟨least, _⟩ := ih rest.length (bytes ▸ (fgets_shorter big taken).2) rest rfl
        rw [left] at least
        rw [lines_some big taken]
        simp only [List.length_cons] at least ⊢
        exact ⟨by omega, by omega⟩

theorem mem_of_mem_textLines {b : Byte} (h : line ∈ textLines input) (hb : b ∈ line) :
    b ∈ input := by
  rw [← textLines_flatten input]
  exact List.mem_flatten.mpr ⟨line, h, hb⟩

theorem chop_of_clean (clean : NUL ∉ line) (some_byte : line ≠ []) :
    chop line = some line.dropLast := by
  simp [chop, cstr_eq_self clean, some_byte]

theorem chop_newline (clean : NUL ∉ line) : chop (line ++ [LF]) = some line := by
  have whole : NUL ∉ line ++ [LF] := by
    simpa [clean] using show NUL ≠ LF by decide
  simp [chop_of_clean whole]

end Lines

section Records

theorem fread_append (record rest : List Byte) :
    fread record.length (record ++ rest) = some (record, rest) := by
  simp [fread]

/-- The lowest byte first. -/
def leBytes : Nat → Nat → List Byte
  | 0, _ => []
  | k + 1, v => UInt8.ofNat v :: leBytes k (v / 256)

def leNat : List Byte → Nat
  | [] => 0
  | b :: rest => b.toNat + 256 * leNat rest

def intBytes (v : Int) : List Byte := leBytes 4 (v % 2 ^ 32).toNat

def intOf (bytes : List Byte) : Int :=
  if leNat bytes < 2 ^ 31 then leNat bytes else leNat bytes - 2 ^ 32

/-- The integers in consecutive groups of four bytes. -/
def intsOf : List Byte → List Int
  | b0 :: b1 :: b2 :: b3 :: rest => intOf [b0, b1, b2, b3] :: intsOf rest
  | _ => []

/-- The values that an `int` holds. -/
def IsInt (v : Int) : Prop := -2 ^ 31 ≤ v ∧ v < 2 ^ 31

instance (v : Int) : Decidable (IsInt v) := inferInstanceAs (Decidable (_ ∧ _))

@[simp] theorem length_leBytes (k v : Nat) : (leBytes k v).length = k := by
  induction k generalizing v with
  | zero => rfl
  | succ k ih => simp [leBytes, ih]

theorem leNat_leBytes (k v : Nat) : leNat (leBytes k v) = v % 256 ^ k := by
  induction k generalizing v with
  | zero => simp [leBytes, leNat, Nat.mod_one]
  | succ k ih =>
    have low : (UInt8.ofNat v).toNat = v % 256 := by simp
    rw [leBytes, leNat, ih, low, pow_succ', Nat.mod_mul]

@[simp] theorem length_intBytes (v : Int) : (intBytes v).length = 4 := length_leBytes 4 _

theorem length_flatMap_intBytes (vs : List Int) : (vs.flatMap intBytes).length = 4 * vs.length := by
  induction vs with
  | nil => rfl
  | cons v rest ih => simp [ih, Nat.mul_add, Nat.add_comm]

theorem intOf_intBytes {v : Int} (fits : IsInt v) : intOf (intBytes v) = v := by
  obtain ⟨low, high⟩ := fits
  have read : leNat (intBytes v) = (v % 2 ^ 32).toNat := by
    rw [intBytes, leNat_leBytes]
    omega
  rw [intOf, read]
  split <;> omega

theorem intsOf_flatMap {vs : List Int} (fits : ∀ v ∈ vs, IsInt v) :
    intsOf (vs.flatMap intBytes) = vs := by
  induction vs with
  | nil => rfl
  | cons v rest ih =>
    have here := intOf_intBytes (fits v List.mem_cons_self)
    have later := ih fun u hu => fits u (List.mem_cons_of_mem v hu)
    simp only [List.flatMap_cons, intBytes, leBytes, List.cons_append, List.nil_append, intsOf]
      at here later ⊢
    rw [here, later]

end Records

end StreamIO
