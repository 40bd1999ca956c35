import CSC209.CStrings

/-!
# The order of C strings

`strcmp` compares the bytes as unsigned characters; a string comes before each
of its proper extensions, since the terminating NUL is smaller than any other
byte. Only the sign of the result is kept. The second half says how a string
that has been cut to a fixed length is ordered.
-/

namespace CStrings

def strcmp (s t : CString) : Ordering := List.compareLex compare s t

instance : Std.LawfulEqCmp strcmp :=
  inferInstanceAs (Std.LawfulEqCmp (List.compareLex (compare (α := Byte))))

instance : Std.TransCmp strcmp :=
  inferInstanceAs (Std.TransCmp (List.compareLex (compare (α := Byte))))

variable {s t : CString} {k : Nat}

@[simp] theorem strcmp_self (s : CString) : strcmp s s = .eq := Std.ReflCmp.compare_self

theorem strcmp_lt_of_isLE_of_ne (h : (strcmp s t).isLE) (ne : s ≠ t) : strcmp s t = .lt := by
  cases order : strcmp s t with
  | lt => rfl
  | eq => exact absurd (Std.LawfulEqCmp.eq_of_compare order) ne
  | gt => simp [order] at h

/-- A cut string comes before the whole. -/
theorem strcmp_take_isLE (t : CString) (k : Nat) : (strcmp (t.take k) t).isLE := by
  induction t generalizing k with
  | nil => simp [strcmp, List.compareLex]
  | cons b rest ih =>
    cases k with
    | zero => simp [strcmp, List.compareLex_nil_cons]
    | succ k =>
      have later := ih k
      simpa [strcmp, List.compareLex_cons_cons] using later

/-- Cutting a string does not carry it below a smaller one that is no longer than the cut. -/
theorem strcmp_take_of_lt (h : strcmp s t = .lt) (short : s.length ≤ k) :
    (strcmp s (t.take k)).isLE := by
  induction s generalizing t k with
  | nil => cases t.take k <;> simp [strcmp, List.compareLex_nil_cons, List.compareLex_nil_nil]
  | cons a rest ih =>
    obtain ⟨k, rfl⟩ : ∃ j, k = j + 1 := ⟨k - 1, by simp at short; omega⟩
    cases t with
    | nil => simp [strcmp, List.compareLex_cons_nil] at h
    | cons b later =>
      simp only [strcmp, List.take_succ_cons, List.compareLex_cons_cons,
        Ordering.then_eq_lt, Ordering.isLE_then_iff_and] at h ⊢
      rcases h with first | ⟨same, hrest⟩
      · simp [first]
      · exact ⟨by simp [same], .inr (ih hrest (by simpa using short))⟩

end CStrings
