import CSC209.A4.HelpServer
import CSC209.Blocks

/-!
# How the status replies are built

`print_currently_serving` and `print_full_queue` on blocks of memory: a first
pass adds up the lengths of the lines, a second pass appends the lines with
`strcat` to a new block of that size. `asprintf` prints a name up to its NUL.
-/

namespace StatusReplies

open CStrings StreamIO Blocks HelpQueue

def FULL_QUEUE_LENGTH : Int := 14

def noTaMsg : CString := text "No TAs are currently working.\r\n"

/-- The two formats of `asprintf`, for a TA who serves a student and for one who does not. -/
def taString (t : Ta) : CString :=
  match t.currentStudent with
  | some s => text "TA: " ++ cstr t.name ++ text " is serving " ++ cstr s.name ++ text ".\r\n"
  | none => text "TA: " ++ cstr t.name ++ text " has no student\r\n"

def studentString (s : Student) : CString :=
  text "Student " ++ cstr s.name ++ text ":" ++ cstr s.course.code ++ text "\r\n"

section Printing

/-- The first pass. A line that is too long for an `int` ends the program as well. -/
def sizeOfBuffer {α : Type} (line : α → CString) (size : Int) (entries : List α) :
    Except Fault Int :=
  entries.foldlM (fun size e => int (size + (line e).length)) size

/-- The second pass. -/
def appendLines {α : Type} (line : α → CString) (block : List Byte) (entries : List α) :
    Except Fault (List Byte) :=
  entries.foldlM (fun block e => strcat block (line e)) block

variable (fill : Nat → Byte)

def printCurrentlyServing (taList : List Ta) : Except Fault (List Byte) :=
  if taList = [] then strcat (malloc fill noTaMsg.length) noTaMsg
  else do
    let size ← sizeOfBuffer taString 0 taList
    appendLines taString (malloc fill size.toNat) taList

def printFullQueue (stuList : List Student) : Except Fault (List Byte) := do
  let size ← sizeOfBuffer studentString FULL_QUEUE_LENGTH stuList
  let allStudents ← strcat (malloc fill size.toNat) (text "Full Queue\r\n")
  appendLines studentString allStudents stuList

end Printing

/-- A reply to the command `stats`, of a student or of a TA. -/
inductive Reply where
  | currentlyServing (taList : List Ta)
  | fullQueue (stuList : List Student)

def Reply.print (fill : Nat → Byte) : Reply → Except Fault (List Byte)
  | currentlyServing taList => printCurrentlyServing fill taList
  | fullQueue stuList => printFullQueue fill stuList

/-- The header, if there is one, and a line for each entry. -/
def Reply.lines : Reply → List CString
  | currentlyServing [] => [noTaMsg]
  | currentlyServing (t :: rest) => (t :: rest).map taString
  | fullQueue stuList => text "Full Queue\r\n" :: stuList.map studentString

/-- All bytes, with the NUL, are written inside the block, and the string is that of the lines. -/
def Built (fill : Nat → Byte) (r : Reply) : Prop :=
  ∃ block, r.print fill = .ok block ∧ Stores block.length r.lines.flatten block

section Passes

variable {α : Type} {line : α → CString} {fill : Nat → Byte}

theorem sizeOfBuffer_eq (entries : List α) (size : Int) (start : IsInt size) (sign : 0 ≤ size) :
    sizeOfBuffer line size entries =
      if IsInt (size + (entries.map line).flatten.length) then
        .ok (size + (entries.map line).flatten.length)
      else .error .overflow := by
  induction entries generalizing size with
  | nil => simp [sizeOfBuffer, start, pure, Except.pure]
  | cons e rest ih =>
    rw [sizeOfBuffer, List.foldlM_cons, List.map_cons, List.flatten_cons, List.length_append,
      Nat.cast_add, ← Int.add_assoc]
    by_cases fits : IsInt (size + (line e).length)
    · rw [int_eq fits]
      exact ih _ fits (by omega)
    · have large : ¬ IsInt (size + (line e).length + ((rest.map line).flatten.length : Int)) := by
        rw [IsInt] at fits ⊢
        omega
      rw [int, if_neg fits, if_neg large]
      rfl

theorem appendLines_eq (block : List Byte) (entries : List α) :
    appendLines line block entries = (entries.map line).foldlM strcat block := by
  rw [appendLines, List.foldlM_map]

theorem cstr_malloc_eq_nil (n : Nat) : cstr (malloc fill (n + 1)) = [] ↔ fill 0 = NUL := by
  simp [malloc, List.range_succ_eq_map, cstr]

theorem malloc_stores_nil (first : fill 0 = NUL) (n : Nat) :
    Stores (n + 1) [] (malloc fill (n + 1)) := by
  refine ⟨length_malloc fill (n + 1), by simp, (List.range n).map fun k => fill (k + 1), ?_⟩
  simp [malloc, List.range_succ_eq_map, first, Function.comp_def]

theorem clean_taString (t : Ta) : NUL ∉ taString t := by
  have first : NUL ∉ text "TA: " := by decide
  have serving : NUL ∉ text " is serving " := by decide
  have stop : NUL ∉ text ".\r\n" := by decide
  have idle : NUL ∉ text " has no student\r\n" := by decide
  cases h : t.currentStudent <;> simp [taString, h, clean_cstr, first, serving, stop, idle]

theorem clean_studentString (s : Student) : NUL ∉ studentString s := by
  have first : NUL ∉ text "Student " := by decide
  have colon : NUL ∉ text ":" := by decide
  have stop : NUL ∉ text "\r\n" := by decide
  simp [studentString, clean_cstr, first, colon, stop]

end Passes

section Rooms

variable {block : Nat → List Byte} {start : Int} {header lines : List CString}

/-- Both passes over lines that have been read, where `block` is what there is for a request. -/
def build (block : Nat → List Byte) (start : Int) (header lines : List CString) :
    Except Fault (List Byte) := do
  let size ← sizeOfBuffer id start lines
  (header ++ lines).foldlM strcat (block size.toNat)

/-- The size is an `int`, and the block for it holds a string that leaves room for the lines and a
NUL. -/
def HasRoom (block : Nat → List Byte) (start : Int) (header lines : List CString) : Prop :=
  IsInt (start + lines.flatten.length) ∧
    NUL ∈ block (start + lines.flatten.length).toNat ∧
    (cstr (block (start + lines.flatten.length).toNat)).length + (header ++ lines).flatten.length <
      (block (start + lines.flatten.length).toNat).length

instance (block : Nat → List Byte) (start : Int) (header lines : List CString) :
    Decidable (HasRoom block start header lines) :=
  inferInstanceAs (Decidable (_ ∧ _ ∧ _))

theorem build_ok_iff (small : IsInt start) (sign : 0 ≤ start)
    (clean : ∀ l ∈ header ++ lines, NUL ∉ l) (some_line : header ++ lines ≠ []) :
    (∃ b, build block start header lines = .ok b) ↔ HasRoom block start header lines := by
  have size : sizeOfBuffer id start lines =
      if IsInt (start + lines.flatten.length) then .ok (start + lines.flatten.length)
        else .error .overflow := by
    rw [sizeOfBuffer_eq lines start small sign, List.map_id]
  by_cases fits : IsInt (start + lines.flatten.length)
  · rw [if_pos fits] at size
    simp only [build, size, bind, Except.bind]
    constructor
    · rintro ⟨b, run⟩
      exact ⟨fits, foldlM_strcat_room clean some_line run⟩
    · rintro ⟨_, nul, room⟩
      obtain ⟨b, run, _⟩ := foldlM_strcat_stores (stores_cstr nul) clean room
      exact ⟨b, run⟩
  · rw [if_neg fits] at size
    apply iff_of_false
    · rintro ⟨b, run⟩
      simp only [build, size, bind, Except.bind] at run
      cases run
    · exact fun room => fits room.1

end Rooms

section Results

variable {fill : Nat → Byte} {r : Reply}

/-- The size of the block: that of the lines, and for the queue two bytes more. -/
def Reply.size (r : Reply) : Int :=
  match r with
  | currentlyServing _ => r.lines.flatten.length
  | fullQueue _ => r.lines.flatten.length + 2

theorem Reply.lines_ne_nil (r : Reply) : r.lines ≠ [] := by
  cases r with
  | currentlyServing taList => cases taList <;> simp [lines]
  | fullQueue stuList => simp [lines]

theorem Reply.clean_lines (r : Reply) : ∀ l ∈ r.lines, NUL ∉ l := by
  cases r with
  | currentlyServing taList =>
    cases taList with
    | nil => decide
    | cons t rest =>
      intro l hl
      obtain ⟨u, _, rfl⟩ := List.mem_map.mp hl
      exact clean_taString u
  | fullQueue stuList =>
    intro l hl
    rcases List.mem_cons.mp hl with rfl | hl
    · decide
    · obtain ⟨u, _, rfl⟩ := List.mem_map.mp hl
      exact clean_studentString u

/-- Both functions append the lines to a new block, unless its size is too large for an `int`. -/
theorem Reply.print_eq (r : Reply) :
    r.print fill =
      if IsInt r.size then r.lines.foldlM strcat (malloc fill r.size.toNat) else
        .error .overflow := by
  cases r with
  | currentlyServing taList =>
    cases taList with
    | nil =>
      rw [if_pos (by decide)]
      exact (bind_pure _).symm
    | cons t rest =>
      show (sizeOfBuffer taString 0 (t :: rest) >>= _) = _
      rw [sizeOfBuffer_eq _ _ (by decide) le_rfl, Int.zero_add]
      by_cases fits : IsInt ((t :: rest).map taString).flatten.length
      · rw [if_pos fits, if_pos (show IsInt (Reply.currentlyServing (t :: rest)).size from fits)]
        exact appendLines_eq _ _
      · rw [if_neg fits, if_neg (show ¬ IsInt (Reply.currentlyServing (t :: rest)).size from fits)]
        rfl
  | fullQueue stuList =>
    have size : (Reply.fullQueue stuList).size =
        FULL_QUEUE_LENGTH + ((stuList.map studentString).flatten.length : Int) := by
      have header : (text "Full Queue\r\n").length = 12 := by decide
      simp only [Reply.size, lines, List.flatten_cons, List.length_append, header,
        FULL_QUEUE_LENGTH]
      omega
    show (sizeOfBuffer studentString FULL_QUEUE_LENGTH stuList >>= _) = _
    rw [sizeOfBuffer_eq _ _ (by decide) (by decide), ← size]
    by_cases fits : IsInt (Reply.fullQueue stuList).size
    · rw [if_pos fits, if_pos fits, lines, List.foldlM_cons]
      exact bind_congr fun b => appendLines_eq b stuList
    · rw [if_neg fits, if_neg fits]
      rfl

theorem Reply.isInt_of_print {b : List Byte} (r : Reply) (run : r.print fill = .ok b) :
    IsInt r.size := by
  by_contra large
  rw [r.print_eq, if_neg large] at run
  cases run

/-- What a reply that was built holds: the string of the new block, and the lines behind it. -/
theorem Reply.string_of_print {b : List Byte} (r : Reply) (run : r.print fill = .ok b) :
    Stores b.length (cstr (malloc fill r.size.toNat) ++ r.lines.flatten) b ∧
    r.lines.flatten.length < r.size := by
  have fits := r.isInt_of_print run
  rw [r.print_eq, if_pos fits] at run
  obtain ⟨nul, room⟩ := foldlM_strcat_room r.clean_lines r.lines_ne_nil run
  obtain ⟨b', run', stores⟩ := foldlM_strcat_stores (stores_cstr nul) r.clean_lines room
  obtain rfl := Except.ok.inj (run.symm.trans run')
  rw [length_malloc] at room
  exact ⟨stores.1.symm ▸ stores, by omega⟩

/-- The lines and the NUL are in the block exactly when it is the queue's, its size is an `int`,
and its first byte was a NUL before. -/
theorem built_iff (fill : Nat → Byte) (r : Reply) :
    Built fill r ↔ (∃ stuList, r = .fullQueue stuList) ∧ IsInt r.size ∧ fill 0 = NUL := by
  constructor
  · rintro ⟨b, run, stores⟩
    have fits := r.isInt_of_print run
    obtain ⟨stores', room⟩ := r.string_of_print run
    have nothing : cstr (malloc fill r.size.toNat) = [] := by
      simpa [stores'.cstr_eq] using stores.cstr_eq
    cases r with
    | currentlyServing taList => exact absurd room (lt_irrefl _)
    | fullQueue stuList =>
      refine ⟨⟨stuList, rfl⟩, fits, ?_⟩
      exact (cstr_malloc_eq_nil ((Reply.fullQueue stuList).lines.flatten.length + 1)).mp nothing
  · rintro ⟨⟨stuList, rfl⟩, fits, first⟩
    let lines := (Reply.fullQueue stuList).lines
    have empty : Stores (lines.flatten.length + 2) [] (malloc fill (lines.flatten.length + 2)) :=
      malloc_stores_nil first _
    obtain ⟨b, run, stores⟩ := foldlM_strcat_stores empty (Reply.clean_lines _)
      (show ([] : CString).length + lines.flatten.length < lines.flatten.length + 2 by simp)
    refine ⟨b, ?_, stores.1.symm ▸ stores⟩
    rw [Reply.print_eq, if_pos fits]
    exact run

/-- The reply to a student when there is no TA: its block has no room for the NUL. -/
theorem no_room_for_nul : ¬ ∀ (fill : Nat → Byte) (r : Reply), Built fill r := by
  intro always
  obtain ⟨b, run, _⟩ := always (fun _ => NUL) (.currentlyServing [])
  have stuck : (Reply.currentlyServing []).print (fun _ => NUL) = .error (.outside 31) := by decide
  rw [stuck] at run
  cases run

/-- The server's replies, for names and codes without NULs. -/
theorem printFullQueue_lines {stuList : List Student} (block : List Byte)
    (clean : ∀ s ∈ stuList, NUL ∉ s.name ∧ NUL ∉ s.course.code) :
    HelpServer.printFullQueue block stuList = cstr block ++
      (Reply.fullQueue stuList).lines.flatten := by
  have same : stuList.map studentString = stuList.map fun s =>
      text "Student " ++ s.name ++ text ":" ++ s.course.code ++ text "\r\n" := by
    refine List.map_congr_left fun s hs => ?_
    rw [studentString, cstr_eq_self (clean s hs).1, cstr_eq_self (clean s hs).2]
  rw [HelpServer.printFullQueue, Reply.lines, same, List.flatten_cons, List.flatMap_def,
    List.append_assoc]

theorem printCurrentlyServing_lines {taList : List Ta} (block : List Byte)
    (clean : ∀ t ∈ taList, NUL ∉ t.name ∧ ∀ s, t.currentStudent = some s → NUL ∉ s.name) :
    HelpServer.printCurrentlyServing block taList =
      cstr block ++ (Reply.currentlyServing taList).lines.flatten := by
  cases taList with
  | nil => simp [HelpServer.printCurrentlyServing, Reply.lines, noTaMsg]
  | cons t rest =>
    rw [HelpServer.printCurrentlyServing, if_neg (List.cons_ne_nil t rest), Reply.lines,
      List.flatMap_def]
    refine congrArg (cstr block ++ List.flatten ·) (List.map_congr_left fun u hu => ?_)
    obtain ⟨name, student⟩ := clean u hu
    cases h : u.currentStudent with
    | none => simp [taString, h, cstr_eq_self name]
    | some s => simp [taString, h, cstr_eq_self name, cstr_eq_self (student s h)]

end Results

end StatusReplies
