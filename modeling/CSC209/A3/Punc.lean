import CSC209.CStrings
import Mathlib.Data.List.DropRight

/-!
# Word normalisation

`punc.c` and the character classes of the C locale that the indexer uses.
Bytes from 128 on belong to no class and have no lower-case image.
-/

namespace Punc

open CStrings

def ispunct (b : Byte) : Bool :=
  (33 ≤ b && b ≤ 47) || (58 ≤ b && b ≤ 64) || (91 ≤ b && b ≤ 96) || (123 ≤ b && b ≤ 126)

def isspace (b : Byte) : Bool := (9 ≤ b && b ≤ 13) || b = 32

def isdigit (b : Byte) : Bool := 48 ≤ b && b ≤ 57

def tolower (b : Byte) : Byte := if 65 ≤ b && b ≤ 90 then b + 32 else b

/-- Punctuation is dropped in front, the rest is copied in lower case, and then punctuation and
white space are dropped from the end of the copy. -/
def removePunc (word : CString) : CString :=
  ((word.dropWhile ispunct).map tolower).rdropWhile fun b => ispunct b || isspace b

example : removePunc (text "\"Don't!?\"") = text "don't" := by decide

end Punc
