import CSC209.A2.CourseConfig
import CSC209.LongestRun

/-!
# The user with the most processes

`most_processes` reads lines with a user id, a process id and a parent's id,
and counts the lines of a user that come in a row; with an argument it counts
only the lines with that parent. The two loops differ in what they scan and in
which lines they count. `current_uid` is not set before the first comparison.
Counts are unbounded.
-/

namespace MostProcesses

open CStrings StreamIO Punc CourseConfig LongestRun

def MAX_LINE_SIZE : Nat := 1024
def MAX_UID_SIZE : Nat := 31

/-- The variables of a loop; `read_lines` has no `line_ppid`. -/
structure Scan where
  greatestPidNum : Nat
  greatestUid : CString
  currentPidNum : Nat
  currentUid : CString
  linePpid : Int
  lineUid : CString
  deriving DecidableEq, Repr

section Program

/-- What is left of the string behind the conversion `%d`. -/
def afterInt (s : CString) : CString :=
  let s := s.dropWhile isspace
  (if s.head? = some 45 ∨ s.head? = some 43 then s.tail else s).dropWhile isdigit

/-- `sscanf(input_line, "%s", line_uid);` -/
def scanUid (line : CString) (x : Scan) : Except Halt Scan :=
  match scanWord line with
  | none => .ok x
  | some (uid, _) =>
      if MAX_UID_SIZE ≤ uid.length then .error .overflow else .ok { x with lineUid := uid }

/-- `sscanf(input_line, "%s %*d %d", line_uid, &line_ppid);` -/
def scanUidPpid (line : CString) (x : Scan) : Except Halt Scan :=
  match scanWord line with
  | none => .ok x
  | some (uid, rest) =>
    if MAX_UID_SIZE ≤ uid.length then .error .overflow
    else if scanInt rest = none then .ok { x with lineUid := uid }
    else
      match scanInt (afterInt rest) with
      | none => .ok { x with lineUid := uid }
      | some v => .ok { x with lineUid := uid, linePpid := intOfLong v }

def countLine (x : Scan) : Scan :=
  if x.lineUid = x.currentUid then
    let x := { x with currentPidNum := x.currentPidNum + 1 }
    if x.greatestPidNum < x.currentPidNum then
      { x with greatestPidNum := x.currentPidNum, greatestUid := x.currentUid }
    else x
  else { x with currentUid := x.lineUid, currentPidNum := 1 }

/-- A turn of either loop. -/
def readLine (scan : CString → Scan → Except Halt Scan) (counts : Scan → Bool) (x : Scan)
    (line : List Byte) :
    Except Halt Scan := do
  let x ← scan (cstr line) x
  return if counts x then countLine x else x

/-- Either loop, and what it prints: `notFound` stands in `greatest_uid` until a user is found. -/
def readAll (scan : CString → Scan → Except Halt Scan) (counts : Scan → Bool)
    (notFound currentUid lineUid : CString)
    (stdin : List Byte) : Except Halt (Option (CString × Nat)) := do
  let x ← (lines MAX_LINE_SIZE stdin).foldlM (readLine scan counts) ⟨1, notFound, 1, currentUid,
    -1, lineUid⟩
  return if x.greatestUid = notFound then none else some (x.greatestUid, x.greatestPidNum)

def readLines (currentUid lineUid : CString) (stdin : List Byte) :
    Except Halt (Option (CString × Nat)) :=
  readAll scanUid (fun _ => true) (text "NO UID") currentUid lineUid stdin

def readLinesPpid (userPpid : Int) (currentUid lineUid : CString) (stdin : List Byte) :
    Except Halt (Option (CString × Nat)) :=
  readAll scanUidPpid (fun x => x.linePpid =
      userPpid) (text "PPID NOT FOUND") currentUid lineUid stdin

/-- `strtol` of the argument, which gives 0 where there is no number. -/
def ppidOf (arg : CString) : Int := intOfLong ((scanInt arg).getD 0)

/-- The program without or with an argument; `currentUid` and `lineUid` are what the two buffers
hold at first. -/
def mostProcesses (currentUid lineUid : CString) (arg : Option CString) (stdin : List Byte) :
    Except Halt (Option (CString × Nat)) :=
  match arg with
  | none => readLines currentUid lineUid stdin
  | some arg => readLinesPpid (ppidOf arg) currentUid lineUid stdin

end Program

section Lines

structure Process where
  uid : CString
  pid : CString
  ppid : CString
  deriving DecidableEq, Repr

/-- The number with these digits. -/
def number (digits : List Byte) : Int := (digits.foldl (fun v b => 10 * v + digit b) 0 : Nat)

/-- A line for the process: the three words with white space between them, and anything behind. -/
structure IsLine (line : List Byte) (p : Process) : Prop where
  layout :
  ∃ lead gap gap' rest, line = lead ++ (p.uid ++ (gap ++ p.pid ++ (gap' ++ p.ppid ++ rest))) ∧
    (∀ b ∈ lead, isspace b) ∧ (gap ≠ [] ∧ ∀ b ∈ gap, isspace b) ∧
    (gap' ≠ [] ∧ ∀ b ∈ gap', isspace b) ∧
    ∀ b, rest.head? = some b → ¬ isdigit b
  uid : p.uid ≠ [] ∧ p.uid.length < MAX_UID_SIZE ∧ ∀ b ∈ p.uid, ¬ isspace b
  pid : p.pid ≠ [] ∧ ∀ b ∈ p.pid, isdigit b
  ppid : p.ppid ≠ [] ∧ (∀ b ∈ p.ppid, isdigit b) ∧ number p.ppid < 2 ^ 31
  short : line.length < MAX_LINE_SIZE

structure Input (stdin : List Byte) (ps : List Process) : Prop where
  text : NUL ∉ stdin
  lines : List.Forall₂ IsLine (textLines stdin) ps

/-- The users of the lines that match the argument, or of all. -/
def matching (arg : Option CString) (ps : List Process) : List CString :=
  match arg with
  | none => ps.map Process.uid
  | some arg => (ps.filter fun p => number p.ppid = ppidOf arg).map Process.uid

end Lines

variable {line : List Byte} {p : Process} {x : Scan}

section Scans

/-- A word ends where its last byte is followed by another kind of byte, or nothing. -/
theorem span_word {P : Byte → Bool} {word rest : List Byte} (all : ∀ b ∈ word, P b)
    (stop : ∀ b, rest.head? = some b → ¬ P b) :
    (word ++ rest).takeWhile P = word ∧ (word ++ rest).dropWhile P = rest := by
  rw [List.takeWhile_append_of_pos all, List.dropWhile_append_of_pos all]
  cases rest with
  | nil => exact ⟨List.append_nil word, rfl⟩
  | cons b rest =>
    have other := stop b rfl
    rw [List.takeWhile_cons_of_neg other, List.dropWhile_cons_of_neg other, List.append_nil]
    exact ⟨rfl, rfl⟩

theorem scanInt_number {gap digits rest : List Byte} (spaces : ∀ b ∈ gap, isspace b)
    (some_digit : digits ≠ [])
    (all : ∀ b ∈ digits, isdigit b) (stop : ∀ b, rest.head? = some b → ¬ isdigit b) :
    scanInt (gap ++ digits ++ rest) = some (number digits) ∧
    afterInt (gap ++ digits ++ rest) = rest := by
  obtain ⟨first, more, rfl⟩ := List.exists_cons_of_ne_nil some_digit
  obtain ⟨visible, no_minus, no_plus⟩ := isdigit_plain (all first List.mem_cons_self)
  have skipped : (gap ++ (first :: more ++ rest)).dropWhile isspace = first :: more ++ rest := by
    rw [List.dropWhile_append_of_pos spaces]
    simp [visible]
  constructor
  · have ends : rest.takeWhile isdigit = [] := by
      simpa using (@span_word isdigit [] rest (by simp) stop).1
    have read := scanInt_digits some_digit all ends
    rw [List.append_assoc, scanInt, skipped]
    rwa [scanInt, show (first :: more ++ rest).dropWhile isspace = first :: more ++
        rest by simp [visible]] at read
  · have head : (first :: more ++ rest).head? = some first := rfl
    rw [List.append_assoc, afterInt, skipped]
    simp only [head, Option.some.injEq, no_minus, no_plus, or_self, if_false]
    exact (span_word all stop).2

/-- The scan of the first word leaves the two numbers. -/
theorem IsLine.scanWord_eq (h : IsLine line p) :
    ∃ gap gap' rest, scanWord line = some (p.uid, gap ++ p.pid ++ (gap' ++ p.ppid ++ rest)) ∧
      (∀ b ∈ gap, isspace b) ∧
      (gap' ≠ [] ∧ ∀ b ∈ gap', isspace b) ∧ ∀ b, rest.head? = some b → ¬ isdigit b := by
  obtain ⟨lead, gap, gap', rest, rfl, spaces, gaps, gaps', stop⟩ := h.layout
  refine ⟨gap, gap', rest, ?_, gaps.2, gaps', stop⟩
  obtain ⟨first, more, uid⟩ := List.exists_cons_of_ne_nil h.uid.1
  obtain ⟨space, gap, rfl⟩ := List.exists_cons_of_ne_nil gaps.1
  have visible : ¬ isspace first := h.uid.2.2 first (uid ▸ List.mem_cons_self)
  have word : ∀ b ∈ p.uid, ! isspace b := fun b hb => by simpa using h.uid.2.2 b hb
  have ends : ∀ b, (space :: gap ++ p.pid ++ (gap' ++ p.ppid ++ rest)).head? = some b →
    ¬ (! isspace b) := by
    intro b hb
    obtain rfl : space = b := by simpa using hb
    simpa using gaps.2 space List.mem_cons_self
  have start :
      (lead ++ (p.uid ++ (space :: gap ++ p.pid ++ (gap' ++ p.ppid ++ rest)))).dropWhile isspace =
      p.uid ++ (space :: gap ++ p.pid ++ (gap' ++ p.ppid ++ rest)) := by
    rw [List.dropWhile_append_of_pos spaces, uid, List.cons_append,
      List.dropWhile_cons_of_neg visible]
  obtain ⟨taken, left⟩ := span_word (P := fun b => ! isspace b) word ends
  rw [scanWord, start, if_neg (by simp [uid]), taken, left]

theorem scanUid_line (h : IsLine line p) (x : Scan) :
    scanUid line x = .ok { x with lineUid := p.uid } := by
  obtain ⟨gap, gap', rest, word, _⟩ := h.scanWord_eq
  rw [scanUid, word]
  exact if_neg (not_le.mpr h.uid.2.1)

theorem number_nonneg (digits : List Byte) : 0 ≤ number digits := Int.natCast_nonneg _

theorem intOfLong_eq {v : Int} (low : 0 ≤ v) (high : v < 2 ^ 31) : intOfLong v = v := by
  rw [intOfLong, wrapped]
  omega

theorem scanUidPpid_line (h : IsLine line p) (x : Scan) :
    scanUidPpid line x = .ok { x with lineUid := p.uid, linePpid := number p.ppid } := by
  obtain ⟨gap, gap', rest, word, gaps, gaps', stop⟩ := h.scanWord_eq
  obtain ⟨space, more, rfl⟩ := List.exists_cons_of_ne_nil gaps'.1
  have ends : ∀ b, (space :: more ++ p.ppid ++ rest).head? = some b → ¬ isdigit b := by
    intro b hb digit
    obtain rfl : space = b := by simpa using hb
    have := (isdigit_plain digit).1
    simp [gaps'.2 space List.mem_cons_self] at this
  obtain ⟨pid, left⟩ := scanInt_number gaps h.pid.1 h.pid.2 ends
  obtain ⟨ppid, _⟩ := scanInt_number gaps'.2 h.ppid.1 h.ppid.2.1 stop
  rw [scanUidPpid, word]
  simp only [if_neg (not_le.mpr h.uid.2.1), pid, left, ppid, reduceCtorEq, if_false,
    intOfLong_eq (number_nonneg p.ppid) h.ppid.2.2]

end Scans

section Loops

def Scan.tally (x : Scan) : Tally CString :=
  ⟨x.greatestPidNum, x.greatestUid, x.currentPidNum, x.currentUid⟩

theorem tally_countLine (x : Scan) : (countLine x).tally = x.tally.add x.lineUid := by
  by_cases same : x.lineUid = x.currentUid
  · by_cases more : x.greatestPidNum < x.currentPidNum + 1 <;>
      simp [countLine, Tally.add, Scan.tally, same, more]
  · simp [countLine, Tally.add, Scan.tally, same]

/-- Either loop counts the users of the lines that it is to count. -/
theorem foldlM_readLine {scan : CString → Scan → Except Halt Scan} {counts : Scan → Bool}
    {wanted : Process → Bool}
    (reads : ∀ line p x, IsLine line p → ∃ y, scan line x = .ok y ∧ y.tally = x.tally ∧
      y.lineUid = p.uid ∧
      counts y = wanted p)
    {ls : List (List Byte)} {ps : List Process} (clean : ∀ l ∈ ls, NUL ∉ l)
    (isLines : List.Forall₂ IsLine ls ps) (x : Scan) :
    ∃ y, ls.foldlM (readLine scan counts) x = .ok y ∧
      y.tally = ((ps.filter wanted).map Process.uid).foldl Tally.add x.tally := by
  induction isLines generalizing x with
  | nil => exact ⟨x, rfl, rfl⟩
  | @cons line p ls ps isLine _ ih =>
    obtain ⟨y, scanned, tally, uid, count⟩ := reads line p x isLine
    have string : cstr line = line := cstr_eq_self (clean line List.mem_cons_self)
    have turn : readLine scan counts x line = .ok (if counts y then countLine y else y) := by
      simp only [readLine, string, scanned, bind, Except.bind, pure, Except.pure]
    obtain ⟨z, run, result⟩ :=
      ih (fun l hl => clean l (List.mem_cons_of_mem line hl)) (if counts y then countLine y else y)
    refine ⟨z, by rw [List.foldlM_cons, turn]; exact run, ?_⟩
    rw [result]
    by_cases want : wanted p = true
    · simp [want, count, tally_countLine, tally, uid]
    · simp [want, count, tally]

/-- What either loop prints comes from the tally of the users that it counts. -/
theorem readAll_eq {scan : CString → Scan → Except Halt Scan} {counts : Scan → Bool}
    {wanted : Process → Bool}
    (reads : ∀ line p x, IsLine line p → ∃ y, scan line x = .ok y ∧ y.tally = x.tally ∧
      y.lineUid = p.uid ∧
      counts y = wanted p)
    {stdin : List Byte} {ps : List Process} (input : Input stdin ps)
    (notFound currentUid lineUid : CString) :
    readAll scan counts notFound currentUid lineUid stdin =
      .ok ((((ps.filter wanted).map Process.uid).foldl Tally.add ⟨1, notFound, 1,
            currentUid⟩).result notFound) := by
  have short : ∀ line ∈ textLines stdin, line.length < MAX_LINE_SIZE :=
    ((List.forall₂_and_left _ _).mp (input.lines.imp fun line p isLine => ⟨isLine.short, isLine⟩)).1
  have clean : ∀ line ∈ textLines stdin, NUL ∉ line :=
    fun line hl hb => input.text (mem_of_mem_textLines hl hb)
  obtain ⟨y, run, tally⟩ :=
    foldlM_readLine reads clean input.lines ⟨1, notFound, 1, currentUid, -1, lineUid⟩
  change y.tally = ((ps.filter wanted).map Process.uid).foldl Tally.add ⟨1, notFound, 1,
    currentUid⟩ at tally
  rw [readAll, lines_textLines (by decide) short, run, ← tally]
  rfl

end Loops

section Results

variable {stdin : List Byte} {ps : List Process} {currentUid lineUid : CString}

/-- The string in `greatest_uid` until a user is found. -/
def notFound : Option CString → CString
  | none => text "NO UID"
  | some _ => text "PPID NOT FOUND"

theorem mostProcesses_eq (input : Input stdin ps) (arg : Option CString) :
    mostProcesses currentUid lineUid arg stdin =
      .ok (((matching arg ps).foldl Tally.add ⟨1, notFound arg, 1, currentUid⟩).result
          (notFound arg)) := by
  cases arg with
  | none =>
    have all : readAll scanUid (fun _ => true) (text "NO UID") currentUid lineUid stdin = .ok
        ((((ps.filter fun _ => true).map Process.uid).foldl Tally.add ⟨1, text "NO UID", 1,
              currentUid⟩).result
          (text "NO UID")) :=
      readAll_eq (fun line p x h => ⟨_, scanUid_line h x, rfl, rfl, rfl⟩) input _ _ _
    rwa [List.filter_true] at all
  | some arg =>
    show readAll scanUidPpid (fun x => x.linePpid = ppidOf arg) _ _ _ _ = .ok ((((ps.filter fun p =>
      number p.ppid = ppidOf arg).map Process.uid).foldl Tally.add ⟨1, _, 1, currentUid⟩).result _)
    exact readAll_eq (fun line p x h => ⟨_, scanUidPpid_line h x, rfl, rfl, rfl⟩) input _ _ _

theorem notFound_not_mem (input : Input stdin ps) (arg : Option CString) :
    notFound arg ∉ matching arg ps := by
  have space : (32 : Byte) ∈ notFound arg := by
    cases arg with
    | none => decide
    | some _ => exact (by decide : (32 : Byte) ∈ text "PPID NOT FOUND")
  have uids : ∀ p ∈ ps, ∀ b ∈ p.uid, ¬ isspace b := by
    have flipped := ((List.forall₂_and_left _ _).mp
        (input.lines.flip.imp fun p line isLine => ⟨isLine.uid.2.2, isLine⟩)).1
    exact flipped
  have among : ∀ u ∈ matching arg ps, ∃ p ∈ ps, p.uid = u := by
    intro u hu
    cases arg with
    | none => exact List.mem_map.mp hu
    | some arg =>
      obtain ⟨p, hp, rfl⟩ := List.mem_map.mp hu
      exact ⟨p, List.mem_of_mem_filter hp, rfl⟩
  intro mem
  obtain ⟨p, hp, same⟩ := among _ mem
  exact uids p hp 32 (same ▸ space) (by decide)

theorem isLine_one (pid : CString) (digits : pid ≠ [] ∧ ∀ b ∈ pid, isdigit b)
    (short : pid.length < 100) :
    IsLine (text "ann " ++ pid ++ text " 1 ?\n") ⟨text "ann", pid, text "1"⟩ := by
  have uid : text "ann" ≠ [] ∧ (text "ann").length < MAX_UID_SIZE ∧
    ∀ b ∈ text "ann", ¬ isspace b := by decide +kernel
  have ppid : text "1" ≠ [] ∧ (∀ b ∈ text "1", isdigit b) ∧ number (text "1") < 2 ^ 31 := by
    decide +kernel
  refine ⟨⟨[], text " ", text " ", text " ?\n", by simp [text], by simp, by decide +kernel,
      by decide +kernel, ?_⟩, uid, digits, ppid, ?_⟩
  · intro b hb
    obtain rfl : 32 = b := by simpa [text] using hb
    decide
  · simp only [List.length_append]
    have : (text "ann ").length = 4 := rfl
    have : (text " 1 ?\n").length = 5 := rfl
    rw [MAX_LINE_SIZE]
    omega

end Results

end MostProcesses
