import CSC209.A2.HelpDesk
import CSC209.A3.Punc
import CSC209.StreamIO

/-!
# Reading the course configuration

`config_course_list` scans every line into the same two buffers. A line
without a description leaves the second buffer as it was, with the description
of an earlier line or with what it held when it was allocated; a description
may be longer than the buffer; and the number of courses is the one of the
first line, whether there are so many lines or not. `%d` stores the low bytes
of a `long` in an `int`, and `Malloc` takes the size of the array as an `int`;
a negative one is too large for `malloc`, which otherwise succeeds and decides
how large the block is.
-/

namespace CourseConfig

open CStrings StreamIO Punc
open HelpDesk (Course newCourse)

def INPUT_BUFFER_SIZE : Nat := 256
def COURSE_CODE_SIZE : Nat := 7

/-- The strings in `course_code` and `course_desc`. -/
structure Scanned where
  courseCode : CString
  courseDesc : CString
  deriving DecidableEq, Repr

/-- `Malloc` exits, or something is written behind the end of a buffer or of the array. -/
inductive Halt where
  | exit
  | overflow
  deriving DecidableEq, Repr

section Scanning

def digit (b : Byte) : Nat := b.toNat - 48

/-- The low 32 bits of a number, as an `int`. -/
def wrapped (v : Int) : Int := (v + 2 ^ 31) % 2 ^ 32 - 2 ^ 31

/-- A number that is read as a `long` and kept as an `int`. -/
def intOfLong (v : Int) : Int := wrapped (max (-2 ^ 63) (min (2 ^ 63 - 1) v))

/-- The conversion `%d`. -/
def scanInt (s : CString) : Option Int :=
  let s := s.dropWhile isspace
  let negative := s.head? = some 45
  let digits := ((if negative ∨ s.head? = some 43 then s.tail else s).takeWhile isdigit)
  let value : Int := (digits.foldl (fun v b => 10 * v + digit b) 0 : Nat)
  if digits = [] then none else some (if negative then -value else value)

/-- The conversion `%s`, with what is left of the string. -/
def scanWord (s : CString) : Option (CString × CString) :=
  let s := s.dropWhile isspace
  if s = [] then none else some (s.takeWhile (! isspace ·), s.dropWhile (! isspace ·))

/-- The conversion `%[^\n]` behind white space. -/
def scanRest (s : CString) : Option CString :=
  let s := s.dropWhile isspace
  if s = [] then none else some (s.takeWhile (· ≠ LF))

/-- `sscanf(input_line, "%s %[^\n]s", course_code, course_desc);` -/
def scanCourse (line : CString) (x : Scanned) : Except Halt Scanned :=
  match scanWord line with
  | none => .ok x
  | some (code, rest) =>
    if COURSE_CODE_SIZE ≤ code.length then .error .overflow
    else
      match scanRest rest with
      | none => .ok { x with courseCode := code }
      | some desc =>
        if INPUT_BUFFER_SIZE - COURSE_CODE_SIZE ≤ desc.length then .error .overflow
        else .ok ⟨code, desc⟩

end Scanning

/-- `sizeof(Course)`: a code of seven bytes, three pointers, two counters and two times. -/
def COURSE_SIZE : Nat := 56

/-- The loop over the courses, with `room` bytes of the array left; an entry that is not set is
`none`. -/
def readCourses : Nat → Nat → List Byte → Scanned → Except Halt (List (Option Course))
  | 0, _, _, _ => .ok []
  | left + 1, room, file, x =>
    match fgets INPUT_BUFFER_SIZE file with
    | none => do
      let later ← readCourses left (room - COURSE_SIZE) file x
      .ok (none :: later)
    | some (line, rest) => do
      let x ← scanCourse (cstr line) x
      if room < COURSE_SIZE then .error .overflow
      else do
        let later ← readCourses left (room - COURSE_SIZE) rest x
        .ok (some (newCourse x.courseCode x.courseDesc) :: later)

/-- The size of the array, as `Malloc` is asked for it. -/
def arraySize (courseNum : Int) : Int := wrapped (courseNum * COURSE_SIZE)

/-- The count and the array; `junk` is what the buffers hold before the first scan, and `block` the
bytes that `malloc` gives for a request. -/
def configCourseList (block : Nat → Nat) (junk : Scanned) (file : List Byte) :
    Except Halt (Int × List (Option Course)) :=
  match fgets INPUT_BUFFER_SIZE file with
  | none => .ok (0, [])
  | some (line, rest) => do
    let courseNum := intOfLong ((scanInt (cstr line)).getD 0)
    if arraySize courseNum < 0 then .error .exit
    else do
      let courses ← readCourses courseNum.toNat (block (arraySize courseNum).toNat) rest junk
      .ok (courseNum, courses)

section Lines

/-- The first word of a line. -/
def codeOf (line : List Byte) : CString := (line.dropWhile isspace).takeWhile (! isspace ·)

/-- What stands behind the first word and the white space after it. -/
def descOf (line : List Byte) : CString :=
  (((line.dropWhile isspace).dropWhile (! isspace ·)).dropWhile isspace).takeWhile (· ≠ LF)

/-- A configuration: a number and lines with codes. -/
structure Config (file : List Byte) (n : Nat) (courses : List (List Byte)) : Prop where
  number : ∃ digits, digits ≠ [] ∧ (∀ b ∈ digits, isdigit b) ∧
    digits.foldl (fun v b => 10 * v + digit b) 0 = n ∧
    (textLines file = (digits ++ [LF]) :: courses ∨ textLines file = digits :: courses)
  short : ∀ line ∈ textLines file, line.length < INPUT_BUFFER_SIZE
  text : NUL ∉ file
  codes : ∀ line ∈ courses, 1 ≤ (codeOf line).length ∧ (codeOf line).length ≤ 6

/-- Every entry below the count was set from its own line. -/
def EntriesFromLines (block : Nat → Nat) (junk : Scanned) (file : List Byte)
    (courses : List (List Byte)) : Prop :=
  ∃ count array, configCourseList block junk file = .ok (count, array) ∧
    ∀ i : Nat, (i : Int) < count → ∃ line, courses[i]? = some line ∧
      array[i]? = some (some (newCourse (codeOf line) (descOf line)))

/-- There are enough lines, every description fits its buffer, and a line without one comes before
all that have one, with nothing in the buffer at first. -/
def Readable (junk : Scanned) (n : Nat) (courses : List (List Byte)) : Prop :=
  n ≤ courses.length ∧
    (∀ line ∈ courses.take n, (descOf line).length < INPUT_BUFFER_SIZE - COURSE_CODE_SIZE) ∧
    (∀ line ∈ courses.take n, descOf line = [] → junk.courseDesc = []) ∧
    (courses.take n).Pairwise fun before line => descOf line = [] → descOf before = []

/-- The size of the array is an `int` that `malloc` can be asked for, and the block holds so many
courses. -/
def Allocated (block : Nat → Nat) (count : Int) : Prop :=
  0 ≤ arraySize count ∧ count.toNat * COURSE_SIZE ≤ block (arraySize count).toNat

end Lines

variable {block : Nat → Nat} {line : List Byte} {x junk : Scanned} {courses : List (List Byte)}
  {n : Nat} {file : List Byte}

section Scans

theorem scanWord_code (code : 1 ≤ (codeOf line).length) :
    scanWord line = some (codeOf line, (line.dropWhile isspace).dropWhile (! isspace ·)) := by
  have some_byte : line.dropWhile isspace ≠ [] := by
    intro none
    simp [codeOf, none] at code
  simp [scanWord, some_byte, codeOf]

/-- White space ends with a byte that no newline is. -/
theorem scanRest_desc : scanRest ((line.dropWhile isspace).dropWhile (! isspace ·)) =
    if descOf line = [] then none else some (descOf line) := by
  generalize hrest : ((line.dropWhile isspace).dropWhile (! isspace ·)).dropWhile isspace = rest
  have same : descOf line = rest.takeWhile (· ≠ LF) := by rw [descOf, hrest]
  rw [scanRest, hrest, same]
  cases rest with
  | nil => simp
  | cons b rest =>
    have head := List.head?_dropWhile_not isspace ((line.dropWhile isspace).dropWhile (! isspace ·))
    rw [hrest] at head
    have other : b ≠ LF := by
      rintro rfl
      have space : isspace LF = false := by simpa using head
      exact absurd space (by decide)
    simp [other]

theorem scanCourse_line (code : 1 ≤ (codeOf line).length ∧ (codeOf line).length ≤ 6) :
    scanCourse line x =
      if (descOf line).length < INPUT_BUFFER_SIZE - COURSE_CODE_SIZE then
        .ok ⟨codeOf line, if descOf line = [] then x.courseDesc else descOf line⟩
      else .error .overflow := by
  have fits : ¬ COURSE_CODE_SIZE ≤ (codeOf line).length := by simp only [COURSE_CODE_SIZE]; omega
  simp only [scanCourse, scanWord_code code.1, if_neg fits, scanRest_desc]
  by_cases blank : descOf line = []
  · simp [blank, INPUT_BUFFER_SIZE, COURSE_CODE_SIZE]
  · by_cases long : INPUT_BUFFER_SIZE - COURSE_CODE_SIZE ≤ (descOf line).length
    · simp [blank, long, Nat.not_lt.mpr long]
    · simp [blank, long, Nat.lt_of_not_le long]

theorem isdigit_plain {b : Byte} (h : isdigit b) : isspace b = false ∧ b ≠ 45 ∧ b ≠ 43 := by
  have range : 48 ≤ b ∧ b ≤ 57 := by simpa [isdigit] using h
  refine ⟨?_, ?_, ?_⟩ <;> grind [isspace]

/-- A number is read up to the first byte that is no digit. -/
theorem scanInt_digits {digits rest : CString} (some_digit : digits ≠ [])
    (all : ∀ b ∈ digits, isdigit b) (ends : rest.takeWhile isdigit = []) :
    scanInt (digits ++ rest) =
      some ((digits.foldl (fun v b => 10 * v + digit b) 0 : Nat) : Int) := by
  obtain ⟨first, more, rfl⟩ := List.exists_cons_of_ne_nil some_digit
  obtain ⟨visible, no_minus, no_plus⟩ := isdigit_plain (all first (by simp))
  have taken : (first :: more ++ rest).takeWhile isdigit = first :: more := by
    rw [List.takeWhile_append_of_pos all, ends, List.append_nil]
  have from_first : (first :: more ++ rest).dropWhile isspace = first :: more ++ rest := by
    simp [visible]
  have head : (first :: more ++ rest).head? = some first := rfl
  simp only [scanInt, from_first, head, Option.some.injEq, no_minus, no_plus, or_self, if_false,
    taken, if_neg some_digit]

end Scans

section Entries

theorem readable_cons : Readable x (n + 1) (line :: courses) ↔
    (descOf line).length < INPUT_BUFFER_SIZE - COURSE_CODE_SIZE ∧
      (descOf line = [] → x.courseDesc = []) ∧
      Readable ⟨codeOf line, descOf line⟩ n courses := by
  simp only [Readable, List.take_succ_cons, List.mem_cons, forall_eq_or_imp, List.pairwise_cons,
    List.length_cons, Nat.add_le_add_iff_right]
  constructor
  · rintro ⟨enough, ⟨fits, fit⟩, ⟨nothing, _⟩, early, apart⟩
    exact ⟨fits, nothing, enough, fit, early, apart⟩
  · rintro ⟨fits, nothing, enough, fit, early, apart⟩
    exact ⟨enough, ⟨fits, fit⟩, ⟨nothing, fun line' mem none => nothing (early line' mem none)⟩,
      early, apart⟩

/-- The first `n` entries, each from its own line. -/
def Entries (n : Nat) (courses : List (List Byte)) (array : List (Option Course)) : Prop :=
  ∀ i < n, ∃ line, courses[i]? = some line ∧
    array[i]? = some (some (newCourse (codeOf line) (descOf line)))

theorem entries_cons {entry : Option Course} {array : List (Option Course)} :
    Entries (n + 1) (line :: courses) (entry :: array) ↔
      entry = some (newCourse (codeOf line) (descOf line)) ∧ Entries n courses array := by
  constructor
  · intro entries
    obtain ⟨first, h, set⟩ := entries 0 (by omega)
    obtain rfl : line = first := by simpa using h
    exact ⟨by simpa using set, fun i low => by simpa using entries (i + 1) (by omega)⟩
  · rintro ⟨rfl, later⟩ i low
    cases i with
    | zero => exact ⟨line, rfl, rfl⟩
    | succ i => simpa using later i (by omega)

theorem newCourse_desc {code desc desc' : CString} :
    newCourse code desc = newCourse code desc' ↔ desc = desc' := by
  simp [newCourse]

/-- One turn of the loop either sets its entry from the next line or spoils it. -/
theorem readCourses_iff (n room : Nat) (x : Scanned) {rest : List Byte}
    (texts : textLines rest = courses) (short : ∀ line ∈ courses, line.length < INPUT_BUFFER_SIZE)
    (text : ∀ line ∈ courses, NUL ∉ line)
    (codes : ∀ line ∈ courses, 1 ≤ (codeOf line).length ∧ (codeOf line).length ≤ 6) :
    (∃ array, readCourses n room rest x = .ok array ∧ Entries n courses array) ↔
      n * COURSE_SIZE ≤ room ∧ Readable x n courses := by
  induction n generalizing rest x courses room with
  | zero => simp [readCourses, Entries, Readable]
  | succ n ih =>
    cases courses with
    | nil =>
      have none : ¬ Readable x (n + 1) [] := fun readable => absurd readable.1 (by simp)
      refine iff_of_false ?_ fun readable => none readable.2
      rintro ⟨array, _, entries⟩
      obtain ⟨line, h, _⟩ := entries 0 (by omega)
      cases h
    | cons line courses =>
      obtain ⟨left, taken, later⟩ := fgets_textLines texts (short line (by simp))
      have step := ih (room - COURSE_SIZE) ⟨codeOf line, descOf line⟩ later
        (fun l mem => short l (by simp [mem])) (fun l mem => text l (by simp [mem]))
        (fun l mem => codes l (by simp [mem]))
      have scanned := scanCourse_line (x := x) (codes line (by simp))
      rw [readable_cons, readCourses, taken]
      simp only [cstr_eq_self (text line (by simp)), scanned]
      by_cases fits : (descOf line).length < INPUT_BUFFER_SIZE - COURSE_CODE_SIZE
      · simp only [fits, if_true, true_and]
        -- the entry is right if the buffer holds the description of this line
        generalize hdesc : (if descOf line = [] then x.courseDesc else descOf line) = desc
        have own : desc = descOf line ↔ (descOf line = [] → x.courseDesc = []) := by
          rw [← hdesc]
          by_cases blank : descOf line = [] <;> simp [blank]
        rw [← own]
        by_cases full : room < COURSE_SIZE
        · refine iff_of_false ?_ fun holds => ?_
          · rintro ⟨array, read, _⟩
            simp [bind, Except.bind, full] at read
          · have enough := holds.1
            rw [Nat.succ_mul] at enough
            omega
        have place : (n + 1) * COURSE_SIZE ≤ room ↔ n * COURSE_SIZE ≤ room - COURSE_SIZE := by
          rw [Nat.succ_mul]
          omega
        rw [place, and_left_comm, ← step]
        constructor
        · rintro ⟨array, read, entries⟩
          obtain ⟨array', read', rfl⟩ : ∃ array',
              readCourses n (room - COURSE_SIZE) left ⟨codeOf line, desc⟩ = .ok array' ∧
                some (newCourse (codeOf line) desc) :: array' = array := by
            cases h : readCourses n (room - COURSE_SIZE) left ⟨codeOf line, desc⟩ with
            | error e => simp [bind, Except.bind, full, h] at read
            | ok array' => exact ⟨array', rfl, by simpa [bind, Except.bind, full, h] using read⟩
          obtain ⟨first, more⟩ := entries_cons.mp entries
          have same : desc = descOf line := newCourse_desc.mp (Option.some.inj first)
          exact ⟨same, array', same ▸ read', more⟩
        · rintro ⟨rfl, array, read, entries⟩
          exact ⟨some (newCourse (codeOf line) (descOf line)) :: array,
            by simp [bind, Except.bind, full, read], entries_cons.mpr ⟨rfl, entries⟩⟩
      · simp [fits, bind, Except.bind]

/-- The count is the number of the first line, as an `int`. -/
theorem configCourseList_count (block : Nat → Nat) (junk : Scanned)
    (config : Config file n courses) :
    ∃ rest, textLines rest = courses ∧ configCourseList block junk file =
      if arraySize (intOfLong n) < 0 then .error .exit
      else (readCourses (intOfLong n).toNat (block (arraySize (intOfLong n)).toNat) rest junk).map
        fun array => (intOfLong n, array) := by
  obtain ⟨digits, some_digit, all, value, lines⟩ := config.number
  obtain ⟨first, ends, text⟩ : ∃ first, first.takeWhile isdigit = [] ∧
      textLines file = (digits ++ first) :: courses := by
    rcases lines with text | text
    · exact ⟨[LF], by decide, text⟩
    · exact ⟨[], rfl, by simpa using text⟩
  have mem : digits ++ first ∈ textLines file := by simp [text]
  obtain ⟨rest, taken, later⟩ := fgets_textLines text (config.short _ mem)
  have clean : NUL ∉ digits ++ first := fun nul => config.text (mem_of_mem_textLines mem nul)
  have number : scanInt (cstr (digits ++ first)) = some (n : Int) := by
    rw [cstr_eq_self clean, scanInt_digits some_digit all ends, value]
  refine ⟨rest, later, ?_⟩
  simp only [configCourseList, taken, number, Option.getD_some]
  split
  · rfl
  · cases readCourses (intOfLong n).toNat (block (arraySize (intOfLong n)).toNat) rest junk <;> rfl

/-- The entries come from their own lines exactly for such configurations. -/
theorem entriesFromLines_iff (block : Nat → Nat) (junk : Scanned) (config : Config file n courses) :
    EntriesFromLines block junk file courses ↔
      Allocated block (intOfLong n) ∧ Readable junk (intOfLong n).toNat courses := by
  obtain ⟨rest, later, read⟩ := configCourseList_count block junk config
  have mem : ∀ line ∈ courses, line ∈ textLines file := by
    obtain ⟨_, _, _, _, text | text⟩ := config.number <;> simp +contextual [text]
  have entries :=
    readCourses_iff (intOfLong n).toNat (block (arraySize (intOfLong n)).toNat) junk later
    (fun line h => config.short line (mem line h))
    (fun line h nul => config.text (mem_of_mem_textLines (mem line h) nul)) config.codes
  rw [Allocated, and_assoc, ← entries, EntriesFromLines, read]
  by_cases negative : arraySize (intOfLong n) < 0
  · rw [if_pos negative]
    refine iff_of_false ?_ fun holds => absurd holds.1 (Int.not_le.mpr negative)
    rintro ⟨count, array, done, _⟩
    cases done
  rw [if_neg negative]
  constructor
  · rintro ⟨count, array, done, own⟩
    cases h : readCourses (intOfLong n).toNat (block (arraySize (intOfLong n)).toNat) rest junk with
    | error e => simp [h, Except.map] at done
    | ok array' =>
      obtain ⟨rfl, rfl⟩ : intOfLong n = count ∧ array' = array := by
        simpa [h, Except.map] using done
      exact ⟨Int.not_lt.mp negative, array', rfl, fun i low => own i (by omega)⟩
  · rintro ⟨_, array, done, own⟩
    exact ⟨intOfLong n, array, by simp [done, Except.map], fun i low => own i (by omega)⟩

/-- A number whose courses take fewer bytes than an `int` can count needs no more. -/
theorem allocated_of_small (given : ∀ k, k ≤ block k) (small : n * COURSE_SIZE < 2 ^ 31) :
    intOfLong n = n ∧ Allocated block (intOfLong n) := by
  have range : (n : Int) * COURSE_SIZE < 2 ^ 31 := by exact_mod_cast small
  have number : intOfLong n = n := by
    simp only [COURSE_SIZE] at range
    rw [intOfLong, wrapped]
    omega
  have size : arraySize n = ((n * COURSE_SIZE : Nat) : Int) := by
    rw [arraySize, wrapped]
    simp only [COURSE_SIZE] at range ⊢
    omega
  rw [number, Allocated, size, Int.toNat_natCast, Int.toNat_natCast]
  exact ⟨rfl, Int.natCast_nonneg _, given (n * COURSE_SIZE)⟩

theorem entriesFromLines_iff_two :
    Config (text "2\nCSC108 Intro\nCSC148\n") 2 [text "CSC108 Intro\n", text "CSC148\n"] ∧
      (EntriesFromLines id ⟨[], []⟩ (text "2\nCSC108 Intro\nCSC148\n")
          [text "CSC108 Intro\n", text "CSC148\n"] ↔
        Allocated id (intOfLong 2) ∧
          Readable ⟨[], []⟩ (intOfLong 2).toNat [text "CSC108 Intro\n", text "CSC148\n"]) := by
  have config : Config (text "2\nCSC108 Intro\nCSC148\n") 2
      [text "CSC108 Intro\n", text "CSC148\n"] :=
    ⟨⟨text "2", by decide, List.all_eq_true.mp (by decide), by decide, by decide⟩, by decide,
      by decide, by decide⟩
  exact ⟨config, entriesFromLines_iff id ⟨[], []⟩ config⟩

/-- The first line promises two courses, and the second entry stays as `malloc` left it. -/
theorem second_entry_unset : Config (text "2\nCSC108 Intro\n") 2 [text "CSC108 Intro\n"] ∧
    configCourseList id ⟨[], []⟩ (text "2\nCSC108 Intro\n") =
      .ok (2, [some (newCourse (text "CSC108") (text "Intro")), none]) ∧
    ¬ EntriesFromLines id ⟨[], []⟩ (text "2\nCSC108 Intro\n") [text "CSC108 Intro\n"] := by
  have read : configCourseList id ⟨[], []⟩ (text "2\nCSC108 Intro\n") =
      .ok (2, [some (newCourse (text "CSC108") (text "Intro")), none]) := by decide +kernel
  have config : Config (text "2\nCSC108 Intro\n") 2 [text "CSC108 Intro\n"] :=
    ⟨⟨text "2", by decide, List.all_eq_true.mp (by decide), by decide, by decide⟩, by decide,
      by decide, by decide⟩
  refine ⟨config, read, ?_⟩
  rintro ⟨count, array, done, own⟩
  rw [read] at done
  obtain ⟨rfl, rfl⟩ : (2 : Int) = count ∧ _ = array := by simpa using done
  obtain ⟨line, h, _⟩ := own 1 (by decide)
  simp at h

end Entries

end CourseConfig
