import CSC209.Blocks
import Mathlib.Data.List.TakeDrop

/-!
# The paths of the workers

The loop of `query` over the entries of the start directory: it joins the
start directory and a name in `path`, and for a subdirectory puts that path,
with `./` before it, in a new block of `paths`. The limits of `strncat` are
unsigned 64-bit numbers. What `stat` says of a path is a parameter: nothing
when it fails, or whether it is a directory.
-/

namespace WorkerPaths

open CStrings Blocks

def PATHLENGTH : Nat := 128

def MAXWORKERS : Nat := 10

/-- The value as a `size_t`. -/
def sizeT (v : Int) : Nat := (v % 2 ^ 64).toNat

/-- How the program goes on behind the loop. -/
inductive Outcome where
  | statFailed
  | tooMany
  | noSubdirectories
  | workers (dirs : List CString)
  deriving DecidableEq, Repr

/-- A cell of `paths` is the block that it points to. -/
structure Walk where
  path : List Byte
  paths : List (List Byte)
  numChildren : Nat

section Loop

def passedOver (name : CString) : Bool :=
  name = text "." || name = text ".." || name = text ".svn" || name = text ".git"

def joinPath (path : List Byte) (startdir name : CString) : Except Fault (List Byte) := do
  let path ← strncpy path startdir PATHLENGTH
  let path ← strncat path (text "/") (sizeT (PATHLENGTH - (← strlen path)))
  let path ← strncat path name (sizeT (PATHLENGTH - (← strlen path)))
  poke path (PATHLENGTH - 1 : Nat) NUL

/-- What is put in the new block of a subdirectory. -/
def childPath (block path : List Byte) : Except Fault (List Byte) := do
  let block ← strcpy block (text "./")
  strncat block (cstr path) (sizeT (PATHLENGTH - (← strlen path) - 2))

variable (stat : CString → Option Bool) (fill : Nat → Nat → Byte) (startdir : CString)

/-- The number of children is compared with the limit after the new block has been entered. -/
def addPath (w : Walk) : Except Fault Walk := do
  let block := malloc (fill w.numChildren) PATHLENGTH
  let paths ← poke w.paths w.numChildren block
  let block ← childPath block w.path
  return { w with paths := paths.set w.numChildren block, numChildren := w.numChildren + 1 }

def readEntries : List CString → Walk → Except Fault Outcome
  | [], w =>
    if w.numChildren = 0 then .ok .noSubdirectories
    else .ok (.workers ((w.paths.take w.numChildren).map cstr))
  | name :: rest, w =>
    if passedOver name then readEntries rest w
    else do
      let path ← joinPath w.path startdir name
      match stat (cstr path) with
      | none => .ok .statFailed
      | some false => readEntries rest { w with path }
      | some true => do
        let w ← addPath fill { w with path }
        if MAXWORKERS < w.numChildren then .ok .tooMany else readEntries rest w

/-- The loop over a listing, with nothing set in `path` and `paths`. -/
def startWorkers (path : Nat → Byte) (paths : Nat → List Byte) (listing : List CString) :
    Except Fault Outcome :=
  readEntries stat fill startdir listing ⟨malloc path PATHLENGTH, malloc paths MAXWORKERS, 0⟩

end Loop

section Specification

variable (stat : CString → Option Bool) (startdir : CString)

def joined (name : CString) : CString := startdir ++ text "/" ++ name

/-- The entries that the loop comes to, the first one for which `stat` fails being the last. -/
def reached : List CString → List CString
  | [] => []
  | name :: rest =>
    if passedOver name then reached rest
    else if stat (joined startdir name) = none then [name]
    else name :: reached rest

def subdirectories (names : List CString) : List CString :=
  names.filter fun name => stat (joined startdir name) = some true

/-- `stat` fails for an entry. -/
def Fails (listing : List CString) : Prop :=
  ∃ name ∈ reached stat startdir listing, stat (joined startdir name) = none

instance (listing : List CString) : Decidable (Fails stat startdir listing) :=
  inferInstanceAs (Decidable (∃ name ∈ reached stat startdir listing,
      stat (joined startdir name) = none))

/-- What the outcome must be for the listing: a failed `stat` ends the program, and so do more
subdirectories than workers; otherwise each subdirectory whose path is not too long has a worker. -/
def Outcome.Right (listing : List CString) : Outcome → Prop
  | statFailed => Fails stat startdir listing
  | tooMany => MAXWORKERS < (subdirectories stat startdir (reached stat startdir listing)).length
  | noSubdirectories => subdirectories stat startdir (reached stat startdir listing) = []
  | workers dirs =>
    let subs := subdirectories stat startdir (reached stat startdir listing)
    ¬ Fails stat startdir listing ∧ subs.length ≤ MAXWORKERS ∧ dirs.length = subs.length ∧
      ∀ (i : Nat) (name : CString), subs[i]? = some name →
        2 + (joined startdir name).length < PATHLENGTH →
        dirs[i]? = some (text "./" ++ joined startdir name)

end Specification

section Strings

variable {block : List Byte} {startdir name s t : CString} {n : Nat}

theorem sizeT_eq {v : Int} (low : 0 ≤ v) (high : v < 2 ^ 64) : sizeT v = v.toNat := by
  rw [sizeT, Int.emod_eq_of_lt low high]

theorem sizeT_room (short : s.length ≤ PATHLENGTH) :
    sizeT ((PATHLENGTH : Int) - (s.length : Int)) = PATHLENGTH - s.length := by
  have size : PATHLENGTH = 128 := rfl
  rw [sizeT_eq (by omega) (by omega)]
  omega

theorem length_joined : (joined startdir name).length = startdir.length + 1 + name.length := by
  simp only [joined, List.length_append]
  rfl

theorem strncat_ok (h : Stores PATHLENGTH s block) (clean : NUL ∉ t)
    (room : s.length + t.length < PATHLENGTH) :
    ∃ b, strncat block t (sizeT ((PATHLENGTH : Int) - (s.length : Int))) = .ok b ∧
      Stores PATHLENGTH (s ++ t) b := by
  rw [sizeT_room (h.short).le, strncat_eq, List.take_of_length_le (by omega)]
  exact strcat_stores h clean room

theorem strncat_full (h : Stores PATHLENGTH s block) (full : PATHLENGTH ≤ s.length + t.length) :
    strncat block t (sizeT ((PATHLENGTH : Int) - (s.length : Int))) =
      .error (.outside PATHLENGTH) := by
  have short := h.short
  rw [sizeT_room short.le, strncat_eq]
  apply strcat_full h
  rw [List.length_take]
  omega

/-- A path with room for its NUL is joined as it is. -/
theorem joinPath_ok (size : block.length = PATHLENGTH) (cleanDir : NUL ∉ startdir)
    (clean : NUL ∉ name) (fits : (joined startdir name).length < PATHLENGTH) :
    ∃ p, joinPath block startdir name = .ok p ∧ Stores PATHLENGTH (joined startdir name) p := by
  have slash : (text "/").length = 1 := rfl
  have whole : (joined startdir name).length ≤ PATHLENGTH - 1 := Nat.le_sub_one_of_lt fits
  rw [length_joined] at fits
  obtain ⟨b, copied, first⟩ :=
    strncpy_stores cleanDir (show startdir.length < block.length by omega)
  rw [size] at copied first
  obtain ⟨c, appended, second⟩ := strncat_ok first (show NUL ∉ text "/" by decide) (by omega)
  obtain ⟨d, ended, third⟩ := strncat_ok second clean (by rw [List.length_append]; omega)
  obtain ⟨p, set, stores⟩ := third.set_nul whole (by decide)
  refine ⟨p, ?_, stores⟩
  simp only [joinPath, copied, first.strlen_eq, appended, second.strlen_eq, ended, bind,
    Except.bind]
  exact set

/-- A longer one is written past the end of `path`. -/
theorem joinPath_full (size : block.length = PATHLENGTH) (cleanDir : NUL ∉ startdir)
    (long : PATHLENGTH ≤ (joined startdir name).length) :
    ∃ f, joinPath block startdir name = .error f := by
  have slash : (text "/").length = 1 := rfl
  rw [length_joined] at long
  by_cases fits : startdir.length < block.length
  · obtain ⟨b, copied, first⟩ := strncpy_stores cleanDir fits
    rw [size] at copied first
    by_cases room : startdir.length + (text "/").length < PATHLENGTH
    · obtain ⟨c, appended, second⟩ := strncat_ok first (show NUL ∉ text "/" by decide) room
      have full := strncat_full (t := name) second (by rw [List.length_append]; omega)
      refine ⟨.outside PATHLENGTH, ?_⟩
      simp only [joinPath, copied, first.strlen_eq, appended, second.strlen_eq, full, bind,
        Except.bind]
    · have full := strncat_full (t := text "/") first (by omega)
      refine ⟨.outside PATHLENGTH, ?_⟩
      simp only [joinPath, copied, first.strlen_eq, full, bind, Except.bind]
  · obtain ⟨b, copied, none⟩ := strncpy_unterminated cleanDir (not_lt.mp fits)
    rw [size] at copied
    refine ⟨.outside b.length, ?_⟩
    simp only [joinPath, copied, strlen_unterminated none, bind, Except.bind]

/-- The limit leaves room for the path only up to half of the block. -/
theorem childPath_ok {path : List Byte} (size : block.length = PATHLENGTH)
    (stores : Stores PATHLENGTH s path) (short : s.length < PATHLENGTH - 1) :
    ∃ b, childPath block path = .ok b ∧
      Stores PATHLENGTH (text "./" ++ s.take (PATHLENGTH - 2 - s.length)) b := by
  have dot : (text "./").length = 2 := rfl
  have big : PATHLENGTH = 128 := rfl
  have limit : sizeT ((PATHLENGTH : Int) - (s.length : Int) - 2) = PATHLENGTH - 2 - s.length := by
    rw [sizeT_eq (by omega) (by omega)]
    omega
  obtain ⟨b, copied, first⟩ := strcpy_stores (show NUL ∉ text "./" by decide)
    (show (text "./").length < block.length by rw [size]; decide)
  rw [size] at first
  have clean : NUL ∉ s.take (PATHLENGTH - 2 - s.length) :=
    fun h => stores.2.1 (List.mem_of_mem_take h)
  obtain ⟨c, appended, second⟩ := strcat_stores first clean (by rw [List.length_take]; omega)
  refine ⟨c, ?_, second⟩
  simp only [childPath, copied, stores.strlen_eq, stores.cstr_eq, limit, strncat_eq, bind,
    Except.bind]
  exact appended

/-- For the longest path the limit is negative, and with that as large as a `size_t` can be. -/
theorem childPath_full {path : List Byte} (size : block.length = PATHLENGTH)
    (stores : Stores PATHLENGTH s path)
    (long : PATHLENGTH - 1 ≤ s.length) : ∃ f, childPath block path = .error f := by
  have last : s.length = PATHLENGTH - 1 := Nat.le_antisymm (Nat.le_sub_one_of_lt stores.short) long
  have limit :
      sizeT ((PATHLENGTH : Int) - ((PATHLENGTH - 1 : Nat) : Int) - 2) = 2 ^ 64 - 1 := by decide
  obtain ⟨b, copied, first⟩ := strcpy_stores (show NUL ∉ text "./" by decide)
    (show (text "./").length < block.length by rw [size]; decide)
  rw [size] at first
  have whole : s.take (2 ^ 64 - 1) = s := List.take_of_length_le (by rw [last]; decide)
  refine ⟨.outside PATHLENGTH, ?_⟩
  simp only [childPath, copied, stores.strlen_eq, stores.cstr_eq, last, limit, strncat_eq, whole,
    bind, Except.bind]
  exact strcat_full first (by rw [last]; decide)

end Strings

section Walking

variable {stat : CString → Option Bool} {fill : Nat → Nat → Byte}
  {startdir name s : CString} {w : Walk} {dirs listing rest : List CString}

/-- The paths of `dirs` have been entered so far. -/
structure Walked (w : Walk) (dirs : List CString) : Prop where
  path : w.path.length = PATHLENGTH
  paths : w.paths.length = MAXWORKERS
  children : w.numChildren = dirs.length
  few : dirs.length ≤ MAXWORKERS
  holds : (w.paths.take w.numChildren).map cstr = dirs

/-- The string that a worker is given. -/
def started (startdir name : CString) : CString :=
  text "./" ++ (joined startdir name).take (PATHLENGTH - 2 - (joined startdir name).length)

theorem addPath_ok (walked : Walked w dirs)
    (stores : Stores PATHLENGTH (joined startdir name) w.path)
    (short : (joined startdir name).length < PATHLENGTH - 1) (room : dirs.length < MAXWORKERS) :
    ∃ w', addPath fill w = .ok w' ∧ Walked w' (dirs ++ [started startdir name]) := by
  have inside : w.numChildren < w.paths.length := by rw [walked.children, walked.paths]; exact room
  obtain ⟨b, child, holds⟩ :=
    childPath_ok (length_malloc (fill w.numChildren) PATHLENGTH) stores short
  refine ⟨{ w with paths := w.paths.set w.numChildren b, numChildren := w.numChildren + 1 }, ?_,
    walked.path, ?_, ?_, ?_, ?_⟩
  · simp only [addPath, poke_ofNat inside, child, bind, Except.bind, pure, Except.pure,
      List.set_set]
  · simpa using walked.paths
  · simp [walked.children]
  · rw [List.length_append]
    exact room
  · rw [List.take_succ_eq_append_getElem (by simpa using inside), List.take_set_of_le le_rfl]
    simp [walked.holds, holds.cstr_eq, started]

theorem addPath_fails (walked : Walked w dirs)
    (stores : Stores PATHLENGTH (joined startdir name) w.path)
    (bad : ¬ ((joined startdir name).length < PATHLENGTH - 1 ∧ dirs.length < MAXWORKERS)) :
    ∃ f, addPath fill w = .error f := by
  by_cases inside : w.numChildren < w.paths.length
  · have room : dirs.length < MAXWORKERS := by rwa [← walked.children, ← walked.paths]
    have long : PATHLENGTH - 1 ≤ (joined startdir name).length :=
      not_lt.mp fun short => bad ⟨short, room⟩
    obtain ⟨f, full⟩ := childPath_full (length_malloc (fill w.numChildren) PATHLENGTH) stores long
    exact ⟨f, by simp only [addPath, poke_ofNat inside, full, bind, Except.bind]⟩
  · have outside : poke w.paths w.numChildren (malloc (fill w.numChildren) PATHLENGTH) =
      .error (.outside w.numChildren) :=
      poke_outside (fun h => inside (by omega)) _
    exact ⟨.outside w.numChildren, by simp only [addPath, outside, bind, Except.bind]⟩

/-- The paths of the entries are joined in `path`, and those of the subdirectories fit in their
blocks and in `paths`. -/
def Fitting (stat : CString → Option Bool) (startdir : CString) (children : Nat)
    (names : List CString) : Prop :=
  (∀ name ∈ names, (joined startdir name).length < PATHLENGTH) ∧
    (∀ name ∈ subdirectories stat startdir names, (joined startdir name).length < PATHLENGTH - 1) ∧
      children + (subdirectories stat startdir names).length ≤ MAXWORKERS

instance (stat : CString → Option Bool) (startdir : CString) (children : Nat)
    (names : List CString) :
    Decidable (Fitting stat startdir children names) :=
  inferInstanceAs (Decidable (_ ∧ _ ∧ _))

/-- How the program goes on when everything fits. -/
def ending (stat : CString → Option Bool) (startdir : CString)
    (dirs listing : List CString) : Outcome :=
  let dirs :=
    dirs ++ (subdirectories stat startdir (reached stat startdir listing)).map (started startdir)
  if Fails stat startdir listing then .statFailed else if dirs = [] then .noSubdirectories
    else .workers dirs

theorem subdirectories_cons (name : CString) (rest : List CString) :
    subdirectories stat startdir (name :: rest) =
      if stat (joined startdir name) = some true then name :: subdirectories stat startdir rest
      else subdirectories stat startdir rest := by
  by_cases dir : stat (joined startdir name) = some true <;> simp [subdirectories, dir]

/-- What the loop comes to behind an entry for which `stat` succeeds. -/
theorem reached_cons {b : Bool} (rest : List CString) (considered : passedOver name = false)
    (found : stat (joined startdir name) = some b) :
    reached stat startdir (name :: rest) = name :: reached stat startdir rest ∧
      (Fails stat startdir (name :: rest) ↔ Fails stat startdir rest) := by
  have here : reached stat startdir (name :: rest) = name :: reached stat startdir rest := by
    simp [reached, considered, found]
  refine ⟨here, ?_⟩
  simp [Fails, here, found]

theorem fitting_cons (children : Nat) (name : CString) (rest : List CString) :
    Fitting stat startdir children (name :: rest) ↔
      (joined startdir name).length < PATHLENGTH ∧
        if stat (joined startdir name) = some true then
          ((joined startdir name).length < PATHLENGTH - 1 ∧ children < MAXWORKERS) ∧
            Fitting stat startdir (children + 1) rest
        else Fitting stat startdir children rest := by
  by_cases dir : stat (joined startdir name) = some true
  · simp only [Fitting, subdirectories_cons, if_pos dir, List.forall_mem_cons, List.length_cons]
    constructor
    · rintro ⟨⟨h, names⟩, ⟨short, subs⟩, few⟩
      exact ⟨h, ⟨short, by omega⟩, names, subs, by omega⟩
    · rintro ⟨h, ⟨short, _⟩, names, subs, few⟩
      exact ⟨⟨h, names⟩, ⟨short, subs⟩, by omega⟩
  · simp only [Fitting, subdirectories_cons, if_neg dir, List.forall_mem_cons]
    exact and_assoc

/-- A turn for an entry whose path is joined. -/
theorem readEntries_cons {p : List Byte} (considered : passedOver name = false)
    (join : joinPath w.path startdir name = .ok p)
    (stores : Stores PATHLENGTH (joined startdir name) p) :
    readEntries stat fill startdir (name :: rest) w =
      match stat (joined startdir name) with
      | none => .ok .statFailed
      | some false => readEntries stat fill startdir rest { w with path := p }
      | some true => addPath fill { w with path := p } >>= fun w =>
        if MAXWORKERS < w.numChildren then .ok .tooMany
          else readEntries stat fill startdir rest w := by
  simp only [readEntries, considered, join, bind, Except.bind, Bool.false_eq_true, if_false,
    stores.cstr_eq]

/-- The first entry for which `stat` fails ends the loop. -/
theorem fitting_last (rest : List CString) (walked : Walked w dirs)
    (considered : passedOver name = false) (fits : (joined startdir name).length < PATHLENGTH)
    (failed : stat (joined startdir name) = none) :
    Fitting stat startdir dirs.length (reached stat startdir (name :: rest)) ∧
      ending stat startdir dirs (name :: rest) = .statFailed := by
  have last : reached stat startdir (name :: rest) = [name] := by simp [reached, considered, failed]
  have nothing : subdirectories stat startdir [name] = [] := by simp [subdirectories, failed]
  rw [last, Fitting, nothing]
  exact ⟨⟨by simpa using fits, by simp, walked.few⟩, if_pos ⟨name, by simp [last], failed⟩⟩

/-- A subdirectory is entered, or the program goes outside a block. -/
theorem addPath_turn (fill : Nat → Nat → Byte) (next : Walk → Except Fault Outcome)
    (walked : Walked w dirs) (stores : Stores PATHLENGTH (joined startdir name) w.path) :
    if (joined startdir name).length < PATHLENGTH - 1 ∧ dirs.length < MAXWORKERS then
      ∃ w', Walked w' (dirs ++ [started startdir name]) ∧
        (addPath fill w >>= fun w => if MAXWORKERS < w.numChildren then .ok .tooMany else next w) =
          next w'
    else ∃ f, (addPath fill w >>= fun w => if MAXWORKERS <
      w.numChildren then .ok .tooMany else next w) = .error f := by
  by_cases add : (joined startdir name).length < PATHLENGTH - 1 ∧ dirs.length < MAXWORKERS
  · rw [if_pos add]
    obtain ⟨w', added, walked'⟩ :
        ∃ w', addPath fill w = .ok w' ∧ Walked w' (dirs ++ [started startdir name]) :=
      addPath_ok walked stores add.1 add.2
    have room : ¬ MAXWORKERS < w'.numChildren := by
      rw [walked'.children]
      exact not_lt.mpr walked'.few
    exact ⟨w', walked', by rw [added]; exact if_neg room⟩
  · rw [if_neg add]
    obtain ⟨f, outside⟩ : ∃ f, addPath fill w = .error f := addPath_fails walked stores add
    exact ⟨f, by rw [outside]; rfl⟩

/-- Behind the entries that fit the loop is done; at the first other one it goes outside a block. -/
theorem readEntries_eq (walked : Walked w dirs) (cleanDir : NUL ∉ startdir)
    (clean : ∀ name ∈ listing, NUL ∉ name) :
    if Fitting stat startdir dirs.length (reached stat startdir listing) then
      readEntries stat fill startdir listing w = .ok (ending stat startdir dirs listing)
    else ∃ f, readEntries stat fill startdir listing w = .error f := by
  induction listing generalizing w dirs with
  | nil =>
    have none : dirs = [] ↔ w.numChildren = 0 := by rw [walked.children, List.length_eq_zero_iff]
    rw [if_pos ⟨by simp [reached], by simp [reached, subdirectories],
        by simpa [reached, subdirectories] using walked.few⟩]
    by_cases empty : w.numChildren = 0
    · simp [readEntries, ending, Fails, reached, subdirectories, none, empty]
    · simp [readEntries, ending, Fails, reached, subdirectories, none, empty, walked.holds]
  | cons name rest ih =>
    have later :=
      fun {w} {dirs} (h : Walked w dirs) => ih h fun n hn => clean n (List.mem_cons_of_mem name hn)
    cases passed : passedOver name with
    | true => simpa [reached, passed, readEntries, ending, Fails] using later walked
    | false =>
      by_cases fits : (joined startdir name).length < PATHLENGTH
      · obtain ⟨p, join, stores⟩ :=
          joinPath_ok walked.path cleanDir (clean name List.mem_cons_self) fits
        have walked' : Walked { w with path := p } dirs := { walked with path := stores.1 }
        rw [readEntries_cons passed join stores]
        cases found : stat (joined startdir name) with
        | none =>
          obtain ⟨fit, last⟩ := fitting_last rest walked passed fits found
          rw [if_pos fit, last]
        | some dir =>
          obtain ⟨here, fails⟩ := reached_cons rest passed found
          simp only [here, fitting_cons, fits, true_and, ending, subdirectories_cons, fails, found]
          cases dir with
          | false => simpa [ending] using later walked'
          | true =>
            have turn := addPath_turn fill (readEntries stat fill startdir rest) walked' stores
            by_cases add : (joined startdir name).length < PATHLENGTH - 1 ∧ dirs.length < MAXWORKERS
            · rw [if_pos add] at turn
              obtain ⟨w', walked'', same⟩ := turn
              simpa [same, add, ending] using later walked''
            · rw [if_neg add] at turn
              simpa [add] using turn
      · obtain ⟨f, full⟩ : ∃ f, joinPath w.path startdir name = .error f :=
          joinPath_full walked.path cleanDir (not_lt.mp fits)
        have large :
            ¬ Fitting stat startdir dirs.length (reached stat startdir (name :: rest)) := by
          intro fit
          refine fits (fit.1 name ?_)
          cases found : stat (joined startdir name) <;> simp [reached, passed, found]
        rw [if_neg large]
        exact ⟨f,
          by simp only [readEntries, passed, full, bind, Except.bind, Bool.false_eq_true, if_false]⟩

end Walking

section Results

variable {stat : CString → Option Bool} {startdir name : CString} {listing : List CString}

/-- The loop goes outside no block and its outcome is right. -/
def Meets (stat : CString → Option Bool) (fill : Nat → Nat → Byte) (startdir : CString)
    (path : Nat → Byte) (paths : Nat → List Byte) (listing : List CString) : Prop :=
  ∃ o, startWorkers stat fill startdir path paths listing = .ok o ∧ o.Right stat startdir listing

/-- Everything fits, and no subdirectory has a path that its limit cuts off, apart from those so
long that nothing is asked of them. -/
def CanStart (stat : CString → Option Bool) (startdir : CString) (listing : List CString) : Prop :=
  Fitting stat startdir 0 (reached stat startdir listing) ∧
    (¬ Fails stat startdir listing →
        ∀ name ∈ subdirectories stat startdir (reached stat startdir listing),
      (joined startdir name).length < PATHLENGTH / 2 ∨
        (joined startdir name).length = PATHLENGTH - 2)

theorem started_eq_iff (startdir name : CString) :
    started startdir name = text "./" ++ joined startdir name ↔
    (joined startdir name).length < PATHLENGTH / 2 := by
  have big : PATHLENGTH = 128 := rfl
  rw [started, List.append_cancel_left_eq, List.take_eq_self_iff]
  omega

theorem ending_right_iff (fit : Fitting stat startdir 0 (reached stat startdir listing)) :
    (ending stat startdir [] listing).Right stat startdir listing ↔
      (¬ Fails stat startdir listing →
        ∀ name ∈ subdirectories stat startdir (reached stat startdir listing),
        (joined startdir name).length < PATHLENGTH / 2 ∨
        (joined startdir name).length = PATHLENGTH - 2) := by
  have big : PATHLENGTH = 128 := rfl
  obtain ⟨_, short, few⟩ := fit
  by_cases fails : Fails stat startdir listing
  · simp [ending, fails, Outcome.Right]
  · cases subs : subdirectories stat startdir (reached stat startdir listing) with
    | nil => simp [ending, fails, subs, Outcome.Right]
    | cons first rest =>
      have go :
          ending stat startdir [] listing = .workers ((first :: rest).map (started startdir)) := by
        simp [ending, fails, subs]
      rw [subs] at short few
      simp only [go, Outcome.Right, fails, not_false_eq_true, true_and, subs, List.length_map,
        forall_const]
      constructor
      · rintro ⟨_, exactly⟩ name mem
        by_cases asked : 2 + (joined startdir name).length < PATHLENGTH
        · obtain ⟨i, here⟩ := List.mem_iff_getElem?.mp mem
          have told := exactly i name here asked
          rw [List.getElem?_map, here, Option.map_some, Option.some.injEq, started_eq_iff] at told
          exact .inl told
        · have := short name mem
          exact .inr (by omega)
      · intro fits
        refine ⟨by omega, fun i name here asked => ?_⟩
        have half := (fits name (List.mem_of_getElem? here)).resolve_right (by omega)
        rw [List.getElem?_map, here, Option.map_some, (started_eq_iff startdir name).mpr half]

/-- The workers are started as they should be exactly when all paths fit. -/
theorem meets_iff (stat : CString → Option Bool) (fill : Nat → Nat → Byte) (startdir : CString)
    (path : Nat → Byte)
    (paths : Nat → List Byte) (listing : List CString) (cleanDir : NUL ∉ startdir)
    (clean : ∀ name ∈ listing, NUL ∉ name) :
    Meets stat fill startdir path paths listing ↔ CanStart stat startdir listing := by
  have start : Walked ⟨malloc path PATHLENGTH, malloc paths MAXWORKERS, 0⟩ [] :=
    ⟨length_malloc path PATHLENGTH, length_malloc paths MAXWORKERS, rfl, Nat.zero_le _, rfl⟩
  have run : if Fitting stat startdir 0 (reached stat startdir listing) then
      startWorkers stat fill startdir path paths listing = .ok (ending stat startdir [] listing)
      else ∃ f, startWorkers stat fill startdir path paths listing = .error f :=
    readEntries_eq start cleanDir clean
  by_cases fit : Fitting stat startdir 0 (reached stat startdir listing)
  · rw [if_pos fit] at run
    rw [CanStart, and_iff_right fit, ← ending_right_iff fit]
    constructor
    · rintro ⟨o, run', right⟩
      obtain rfl := Except.ok.inj (run.symm.trans run')
      exact right
    · exact fun right => ⟨_, run, right⟩
  · rw [if_neg fit] at run
    obtain ⟨f, outside⟩ := run
    refine iff_of_false ?_ fun can => fit can.1
    rintro ⟨o, run', _⟩
    rw [outside] at run'
    cases run'

theorem meets_iff_two :
    let stat : CString → Option Bool := fun p => some (decide (p ≠ text "./notes"))
    let listing := [text ".", text "..", text "one", text "notes", text "two"]
    Meets stat (fun _ _ => 7) (text ".") (fun _ => 7) (fun _ => []) listing ↔
      CanStart stat (text ".") listing :=
  meets_iff _ _ _ _ _ _ (by decide) (by decide)

/-- A subdirectory of the current one with a name of 62 letters: its worker gets a path with 60. -/
theorem path_cut_off :
    ¬ ∀ (stat : CString → Option Bool) (fill : Nat → Nat → Byte) (startdir : CString)
      (path : Nat → Byte) (paths : Nat → List Byte) (listing : List CString), NUL ∉ startdir →
      (∀ name ∈ listing, NUL ∉ name) →
        Meets stat fill startdir path paths listing := by
  intro always
  let name : CString := List.replicate 62 97
  obtain ⟨o, run, right⟩ :=
    always (fun _ => some true) (fun _ _ => 7) (text ".") (fun _ => 7) (fun _ => []) [name]
    (by decide) (by decide)
  have cut : startWorkers (fun _ => some true) (fun _ _ => 7) (text ".") (fun _ => 7)
    (fun _ => []) [name] =
      .ok (.workers [text "././" ++ List.replicate 60 97]) := by decide +kernel
  obtain rfl := Except.ok.inj (run.symm.trans cut)
  have told := right.2.2.2 0 name rfl (by decide)
  exact absurd told (by decide)

end Results

end WorkerPaths
