import Mathlib.Data.List.Basic
import Mathlib.Data.List.TakeWhile

/-!
# Bytes and C strings

A C string is the list of its bytes before the terminating NUL, so `strcmp`
is equality of lists. A block of memory is a list of bytes; `cstr` is what
`strcpy` or a `"%s"` conversion reads from it. Literals of the sources are
ASCII and are written with `text`.
-/

namespace CStrings

abbrev Byte := UInt8

abbrev CString := List Byte

def NUL : Byte := 0
def LF : Byte := 10
def CR : Byte := 13

/-- The bytes of an ASCII literal. -/
def text (s : String) : CString :=
  s.toList.map fun c => UInt8.ofNat c.toNat

/-- The string stored at the start of a block of memory. -/
def cstr (block : List Byte) : CString :=
  block.takeWhile (· ≠ NUL)

/-- What lies behind a NUL is not read. -/
theorem cstr_append (front rest : List Byte) : cstr (front ++ NUL :: rest) = cstr front := by
  induction front with
  | nil => simp [cstr]
  | cons b front ih =>
    simp only [cstr, List.cons_append, List.takeWhile_cons] at ih ⊢
    split
    · rw [ih]
    · rfl

/-- A string without a NUL is read to its end. -/
theorem cstr_eq_self {line : List Byte} (clean : NUL ∉ line) : cstr line = line := by
  rw [cstr, List.takeWhile_eq_self_iff]
  intro b hb
  simpa using fun same : b = NUL => clean (same ▸ hb)

theorem cstr_append_nul (line rest : List Byte) (clean : NUL ∉ line) :
    cstr (line ++ NUL :: rest) = line :=
  (cstr_append line rest).trans (cstr_eq_self clean)

example : text "next" = [110, 101, 120, 116] := by decide

end CStrings
