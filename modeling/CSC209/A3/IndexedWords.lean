import CSC209.A3.FreqList
import CSC209.A3.Punc
import CSC209.HaltingRuns
import CSC209.Splitting
import CSC209.StreamIO

/-!
# The words of a file

`index_file` reads the file in lines of at most `MAXLINE - 1` bytes, drops the
last byte of each, splits the rest at blanks and adds what is left of a token
without punctuation. The last byte is a newline only when the line is not the
end of a file without a final newline and not a part of a longer line; any
other last byte belongs to a word that loses it.
-/

namespace IndexedWords

open CStrings StreamIO FreqList Punc HaltingRuns Splitting

/-- The delimiters of `strsep(&marker, " \t")`. -/
def isBlank (b : Byte) : Bool := b = 32 || b = 9

/-- What is added for a token, if anything. -/
def tokenWord (token : CString) : Option CString :=
  if token = [] then none
  else
    let token := removePunc token
    if token.length ≤ 3 || token.head?.any isdigit then none
    else if token = [] then none
    else some token

/-- One turn of the loop over `fgets`. -/
def lineWords (line : List Byte) : List CString :=
  match chop line with
  | none => []
  | some [] => []
  | some line => (line.splitOnP isBlank).filterMap tokenWord

/-- The words for which `add_word` is called, in order. -/
def words (content : List Byte) : List CString := (lines MAXLINE content).flatMap lineWords

def indexFile (content fname : List Byte) (x : Index) : Except FreqList.Halt Index :=
  run addWord x ((words content).map fun w => ⟨w, fname⟩)

/-- A word that the index takes. -/
def Wanted (w : CString) : Prop := 4 ≤ w.length ∧ w.head?.any isdigit = false

instance (w : CString) : Decidable (Wanted w) := inferInstanceAs (Decidable (_ ∧ _))

def isSeparator (b : Byte) : Bool := isBlank b || b = LF

/-- The maximal pieces between blanks and newlines. -/
def pieces (content : List Byte) : List CString :=
  (content.splitOnP isSeparator).filter (· ≠ [])

/-- The file's pieces are counted, each under its image. -/
def CountsPieces (content : List Byte) : Prop :=
  ∀ w, (words content).count w =
    if Wanted w then (pieces content).countP fun piece => removePunc piece = w else 0

section Cuts

abbrev Marked := List (Byte × Bool)

/-- The last byte of a line is marked when it is dropped without being a newline. -/
def markLine (line : List Byte) : Marked :=
  line.dropLast.map (fun b => (b, false)) ++ line.getLast?.toList.map fun b => (b, decide (b ≠ LF))

def marked (content : List Byte) : Marked := (lines MAXLINE content).flatMap markLine

def bytes (piece : Marked) : CString := piece.map Prod.fst

/-- The pieces of the content that hold a marked byte. -/
def cutPieces (content : List Byte) : List Marked :=
  ((marked content).splitOnP fun m => isSeparator m.1).filter fun piece => piece.any Prod.snd

/-- What is left of a piece when its marked bytes are taken for separators. -/
def fragments (piece : Marked) : List CString := (piece.splitOnP Prod.snd).map bytes

/-- Altogether, the pieces that lose a byte give the words that they would give whole. -/
def CutsHarmless (content : List Byte) : Prop :=
  (((cutPieces content).flatMap fragments).filterMap tokenWord).Perm
    (((cutPieces content).map bytes).filterMap tokenWord)

end Cuts

variable {content : List Byte} {line : List Byte} {ls : List (List Byte)} {w token : CString}

section Lines

theorem tokenWord_nil : tokenWord [] = none := rfl

theorem tokenWord_eq (token : CString) :
    tokenWord token = if Wanted (removePunc token) then some (removePunc token) else none := by
  by_cases empty : token = []
  · subst empty
    decide
  · by_cases wanted : Wanted (removePunc token)
    · obtain ⟨long, first⟩ := wanted
      have some_byte : removePunc token ≠ [] := by
        rintro none
        simp [none] at long
      have enough : ¬ (removePunc token).length ≤ 3 := by omega
      simp [tokenWord, empty, enough, first, some_byte, Wanted, long]
    · have refused :
          (removePunc token).length ≤ 3 ∨ (removePunc token).head?.any isdigit = true := by
        by_contra taken
        simp only [not_or, Bool.not_eq_true] at taken
        exact wanted ⟨by omega, taken.2⟩
      rw [if_neg wanted]
      rcases refused with short | digit <;> simp [tokenWord, *]

theorem bytes_marked (content : List Byte) : bytes (marked content) = content := by
  have line_bytes : ∀ line, bytes (markLine line) = line := by
    intro line
    cases line using List.reverseRecOn with
    | nil => rfl
    | append_singleton body b => simp [bytes, markLine, Function.comp_def]
  have all : ∀ ls : List (List Byte), bytes (ls.flatMap markLine) = ls.flatten := by
    intro ls
    induction ls with
    | nil => rfl
    | cons line rest ih =>
      rw [List.flatMap_cons, List.flatten_cons, bytes, List.map_append, ← ih]
      exact congrArg (· ++ _) (line_bytes line)
  rw [marked, all, lines_flatten (by decide)]

/-- A line without NULs gives the words of the tokens in front of its last byte. -/
theorem lineWords_eq (clean : NUL ∉ line) (some_byte : line ≠ []) (body : LF ∉ line.dropLast) :
    lineWords line = (line.dropLast.splitOnP isSeparator).filterMap tokenWord := by
  have same : line.dropLast.splitOnP isBlank = line.dropLast.splitOnP isSeparator := by
    apply splitOnP_congr
    intro b hb
    have inside : ¬ b = LF := fun newline => body (newline ▸ hb)
    simp [isSeparator, inside]
  rw [lineWords, chop_of_clean clean some_byte, ← same]
  cases line.dropLast with
  | nil => simp [tokenWord_nil]
  | cons b rest => rfl

/-- The bytes at which the program splits: separators, and last bytes of lines. -/
def splits (m : Byte × Bool) : Bool := isSeparator m.1 || m.2

theorem markLine_split (some_byte : line ≠ []) (rest : Marked) :
    (markLine line ++ rest).splitOnP splits =
      (line.dropLast.splitOnP isSeparator).map
      (List.map fun b => (b, false)) ++ rest.splitOnP splits := by
  cases line using List.reverseRecOn with
  | nil => exact absurd rfl some_byte
  | append_singleton body b =>
    have last : splits (b, decide (b ≠ LF)) = true := by
      by_cases newline : b = LF <;> simp [splits, isSeparator, newline]
    have front : (body.map fun b => (b, false)).splitOnP splits =
        (body.splitOnP isSeparator).map (List.map fun b => (b, false)) := by
      rw [splitOnP_map]
      congr 1
      exact splitOnP_congr fun b _ => by simp [splits]
    simp only [markLine, List.dropLast_concat, List.getLast?_concat, Option.toList_some,
      List.map_cons, List.map_nil, List.append_assoc, List.cons_append, List.nil_append]
    rw [List.splitOnP_append_cons _ _ last, front]

theorem words_marked (clean : NUL ∉ content) :
    words content = ((marked content).splitOnP splits).filterMap fun part =>
      tokenWord (bytes part) := by
  have all : ∀ ls : List (List Byte), (∀ line ∈ ls, NUL ∉ line ∧ line ≠ [] ∧ LF ∉ line.dropLast) →
      ls.flatMap lineWords =
        ((ls.flatMap markLine).splitOnP splits).filterMap fun part => tokenWord (bytes part) := by
    intro ls good
    induction ls with
    | nil => simp [bytes, tokenWord_nil]
    | cons line rest ih =>
      obtain ⟨clean, some_byte, body⟩ := good line List.mem_cons_self
      rw [List.flatMap_cons, List.flatMap_cons, markLine_split some_byte, List.filterMap_append,
        lineWords_eq clean some_byte body, ih fun l hl => good l (List.mem_cons_of_mem line hl)]
      simp [bytes, Function.comp_def, List.filterMap_map]
  refine all _ fun line hline => ⟨fun met => clean ?_, lines_nonempty (by decide) line hline,
    lines_body line hline⟩
  exact mem_of_mem_lines (by decide) hline met

end Lines

section Counts

theorem count_tokenWords (parts : List CString) (w : CString) :
    (parts.filterMap tokenWord).count w =
      if Wanted w then parts.countP fun part => removePunc part = w else 0 := by
  induction parts with
  | nil => simp
  | cons part rest ih =>
    rw [List.filterMap_cons, tokenWord_eq]
    by_cases here : removePunc part = w
    · subst here
      by_cases wanted : Wanted (removePunc part) <;> simp [wanted, ih]
    · by_cases taken : Wanted (removePunc part) <;> simp [taken, ih, here]

/-- Pieces that are not cut stay whole, so only the cut ones make a difference. -/
theorem count_parts (parts : List Marked) (w : CString) :
    ((parts.flatMap fragments).filterMap tokenWord).count w +
        (((parts.filter fun piece => piece.any Prod.snd).map bytes).filterMap tokenWord).count w =
      ((parts.map bytes).filterMap tokenWord).count w +
        (((parts.filter fun piece => piece.any Prod.snd).flatMap fragments).filterMap
            tokenWord).count w := by
  induction parts with
  | nil => rfl
  | cons piece rest ih =>
    cases hit : piece.any Prod.snd with
    | true =>
      simp only [List.flatMap_cons, List.filter_cons, hit, if_true, List.map_cons,
        List.filterMap_append, List.count_append, List.filterMap_cons]
      cases tokenWord (bytes piece) with
      | none => simp only; omega
      | some t => simp only [List.count_cons]; omega
    | false =>
      have whole : fragments piece = [bytes piece] := by
        have unmarked : ∀ m ∈ piece, m.2 = false := by simpa using hit
        rw [fragments, List.splitOnP_eq_singleton unmarked, List.map_singleton]
      simp only [List.flatMap_cons, List.filter_cons, hit, whole, List.map_cons, List.cons_append,
        List.nil_append, List.filterMap_cons]
      cases tokenWord (bytes piece) with
      | none => simpa using ih
      | some t => simp only [List.count_cons, Bool.false_eq_true, if_false]; omega

theorem words_fragments (clean : NUL ∉ content) :
    words content =
      (((marked content).splitOnP fun m => isSeparator m.1).flatMap fragments).filterMap
        tokenWord := by
  have twice : (marked content).splitOnP splits =
      ((marked content).splitOnP fun m => isSeparator m.1).flatMap fun part =>
        part.splitOnP Prod.snd :=
    splitOnP_or _ _ _
  rw [words_marked clean, twice]
  simp only [fragments, List.filterMap_flatMap, List.filterMap_map, Function.comp_def]

theorem whole_pieces (content : List Byte) :
    ((marked content).splitOnP fun m => isSeparator m.1).map bytes =
      content.splitOnP isSeparator := by
  have split := splitOnP_map Prod.fst isSeparator (marked content)
  have whole : (marked content).map Prod.fst = content := bytes_marked content
  rw [whole] at split
  exact split.symm

/-- The empty parts between adjacent separators give no word. -/
theorem count_pieces (content : List Byte) (w : CString) :
    ((content.splitOnP isSeparator).filterMap tokenWord).count w =
      if Wanted w then (pieces content).countP fun piece => removePunc piece = w else 0 := by
  rw [count_tokenWords]
  split
  · rename_i wanted
    rw [pieces, List.countP_filter]
    apply List.countP_congr
    intro part _
    have some_byte : removePunc part = w → part ≠ [] := by
      rintro rfl rfl
      exact absurd wanted (by decide)
    simpa using some_byte
  · rfl

/-- The words that are added and those that the pieces give, up to the pieces that are cut. -/
theorem count_words (clean : NUL ∉ content) (w : CString) :
    (words content).count w + (((cutPieces content).map bytes).filterMap tokenWord).count w =
      (if Wanted w then (pieces content).countP fun piece => removePunc piece = w else 0) +
        (((cutPieces content).flatMap fragments).filterMap tokenWord).count w := by
  have parts := count_parts ((marked content).splitOnP fun m => isSeparator m.1) w
  rwa [← words_fragments clean, whole_pieces, count_pieces] at parts

/-- Every word is counted as often as it stands in the file exactly when the cuts are harmless. -/
theorem counts_pieces_iff (content : List Byte) (clean : NUL ∉ content) :
    CountsPieces content ↔ CutsHarmless content := by
  rw [CountsPieces, CutsHarmless, List.perm_iff_count]
  refine forall_congr' fun w => ?_
  have counted := count_words clean w
  omega

/-- A file whose two lines end in newlines. -/
theorem counts_pieces_iff_two_lines :
    CountsPieces (text "Words, in a list:\n  word LISTS\n") ↔
      CutsHarmless (text "Words, in a list:\n  word LISTS\n") :=
  counts_pieces_iff _ (by decide)

/-- The last line of the file has no newline and loses a letter. -/
theorem last_letter_lost : ¬ ∀ content, NUL ∉ content → CountsPieces content := by
  intro counts
  have lost := counts (text "lists") (by decide) (text "list")
  revert lost
  decide

/-- A file of short lines, each with its newline, is counted piece by piece. -/
theorem short_lines_counted {ls : List (List Byte)} (clean : ∀ l ∈ ls, NUL ∉ l ∧ LF ∉ l)
    (fits : ∀ l ∈ ls, l.length + 1 < MAXLINE) : CountsPieces (ls.flatMap (· ++ [LF])) := by
  have read : lines MAXLINE (ls.flatMap (· ++ [LF])) = ls.map (· ++ [LF]) :=
    lines_of_newlines (fun l hl => (clean l hl).2) fits
  have unmarked : ∀ m ∈ marked (ls.flatMap (· ++ [LF])), m.2 = false := by
    intro m hm
    rw [marked, read] at hm
    obtain ⟨line, hline, hm⟩ := List.mem_flatMap.mp hm
    obtain ⟨l, _, rfl⟩ := List.mem_map.mp hline
    rcases List.mem_append.mp hm with hm | hm
    · obtain ⟨b, _, rfl⟩ := List.mem_map.mp hm
      rfl
    · obtain rfl : m = (LF, false) := by simpa using hm
      rfl
  have uncut : cutPieces (ls.flatMap (· ++ [LF])) = [] := by
    refine List.filter_eq_nil_iff.mpr fun piece hpiece => ?_
    simpa using fun b hb => unmarked (b, true) (mem_of_mem_splitOnP hpiece hb)
  have noNul : NUL ∉ ls.flatMap (· ++ [LF]) := by
    intro met
    obtain ⟨l, hl, met⟩ := List.mem_flatMap.mp met
    rcases List.mem_append.mp met with met | met
    · exact (clean l hl).1 met
    · exact absurd (List.mem_singleton.mp met) (by decide)
  intro w
  simpa [uncut] using count_words noNul w

end Counts

end IndexedWords
