import CSC209.A3.WordList
import CSC209.HaltingRuns
import Mathlib.Algebra.Order.Ring.Int
import Mathlib.Algebra.BigOperators.Group.List.Basic

/-!
# What the indexer knows after a sequence of words

`add_word` compares the whole word with the stored ones and stores it cut to
`MAXWORD - 1` bytes. The order survives because a stored word that is smaller
than the whole word is at most its cut, and the cut is at most the whole word.
Uniqueness does not survive: a longer word is never found again, and gets a
node each time.
-/

namespace WordIndex

open CStrings FreqList WordList HaltingRuns

variable {s : Store} {e : Entry} {entries : List Entry} {strs : List CString} {w t : CString}
  {k i : Nat} {c : Call} {calls before later : List Call} {x : Index} {files : List CString}

def cut (w : CString) : CString := w.take (MAXWORD - 1)

section Words

/-- `add_word` on the strings of the entries. -/
def place (w : CString) : List CString → List CString
  | [] => [cut w]
  | s :: rest =>
    match strcmp s w with
    | .eq => s :: rest
    | .gt => cut w :: s :: rest
    | .lt => s :: place w rest

/-- A block filled by `strncpy` whose last byte is cleared holds the cut word and a NUL. -/
theorem block_eq (w : CString) {n m : Nat} (padded : n < m) :
    ∃ rest, ((w ++ List.replicate m NUL).take (n + 1)).set n NUL = w.take n ++ NUL :: rest := by
  induction n generalizing w with
  | zero =>
    obtain ⟨m, rfl⟩ : ∃ j, m = j + 1 := ⟨m - 1, by omega⟩
    cases w <;> exact ⟨[], by simp [List.replicate_succ]⟩
  | succ n ih =>
    obtain ⟨rest, hrest⟩ := ih w.tail (by omega)
    cases w with
    | nil =>
      obtain ⟨m, rfl⟩ : ∃ j, m = j + 1 := ⟨m - 1, by omega⟩
      exact ⟨_, by simp [List.replicate_succ]; rfl⟩
    | cons b later => exact ⟨rest, by simpa using hrest⟩

theorem createEntry_str (clean : NUL ∉ w) (k : Nat) : (createEntry w 1 k).str = cut w := by
  obtain ⟨rest, block⟩ := block_eq w (n := MAXWORD - 1) (m := MAXWORD) (by decide)
  have cutClean : NUL ∉ cut w := fun h => clean (List.mem_of_mem_take h)
  exact (congrArg cstr block).trans (cstr_append_nul _ _ cutClean)

theorem add_strs (clean : NUL ∉ w) (k : Nat) (entries : List Entry) :
    (add w k entries).map Entry.str = place w (entries.map Entry.str) := by
  induction entries with
  | nil => simp [add, place, createEntry_str clean]
  | cons e rest ih =>
    simp only [add, place, List.map_cons]
    cases strcmp e.str w with
    | lt => simp [ih]
    | eq => simp [Entry.bump, Entry.str]
    | gt => simp [createEntry_str clean]

theorem mem_place (h : t ∈ place w strs) : t = cut w ∨ t ∈ strs := by
  induction strs with
  | nil => exact .inl (by simpa [place] using h)
  | cons u rest ih =>
    simp only [place] at h
    cases order : strcmp u w with
    | lt =>
      rw [order] at h
      rcases List.mem_cons.mp h with rfl | h
      · exact .inr List.mem_cons_self
      · exact (ih h).imp_right (List.mem_cons_of_mem u)
    | eq =>
      rw [order] at h
      exact .inr h
    | gt =>
      rw [order] at h
      exact List.mem_cons.mp h

theorem mem_place_of_mem (h : t ∈ strs) : t ∈ place w strs := by
  induction strs with
  | nil => cases h
  | cons u rest ih =>
    simp only [place]
    cases strcmp u w with
    | lt =>
      rcases List.mem_cons.mp h with rfl | h
      · exact List.mem_cons_self
      · exact List.mem_cons_of_mem u (ih h)
    | eq => exact h
    | gt => exact List.mem_cons_of_mem _ h

theorem cut_eq_of_short (short : w.length < MAXWORD) : cut w = w :=
  List.take_of_length_le (Nat.le_pred_of_lt short)

theorem cut_mem_place (short : ∀ u ∈ strs, u.length < MAXWORD) : cut w ∈ place w strs := by
  induction strs with
  | nil => simp [place]
  | cons u rest ih =>
    simp only [place]
    cases order : strcmp u w with
    | lt => exact List.mem_cons_of_mem u (ih fun v hv => short v (List.mem_cons_of_mem u hv))
    | eq =>
      have same : u = w := Std.LawfulEqCmp.eq_of_compare order
      rw [← same, cut_eq_of_short (short u List.mem_cons_self)]
      exact List.mem_cons_self
    | gt => exact List.mem_cons_self

/-- A new node goes where the order has its cut word, equal words aside. -/
theorem place_ordered (ordered : strs.Pairwise fun a b => (strcmp a b).isLE)
    (short : ∀ u ∈ strs, u.length < MAXWORD) :
    (place w strs).Pairwise fun a b => (strcmp a b).isLE := by
  induction strs with
  | nil => simp [place]
  | cons u rest ih =>
    obtain ⟨first, tail⟩ := List.pairwise_cons.mp ordered
    have shortRest : ∀ v ∈ rest, v.length < MAXWORD :=
      fun v hv => short v (List.mem_cons_of_mem u hv)
    simp only [place]
    cases order : strcmp u w with
    | lt =>
      refine List.pairwise_cons.mpr ⟨?_, ih tail shortRest⟩
      intro v hv
      rcases mem_place hv with rfl | hv
      · exact strcmp_take_of_lt order (Nat.le_pred_of_lt (short u List.mem_cons_self))
      · exact first v hv
    | eq => exact ordered
    | gt =>
      refine List.pairwise_cons.mpr ⟨?_, ordered⟩
      have before : (strcmp (cut w) u).isLE :=
        Std.TransCmp.isLE_trans (strcmp_take_isLE w _)
          (by rw [Std.OrientedCmp.gt_iff_lt.mp order]; rfl)
      intro v hv
      rcases List.mem_cons.mp hv with rfl | hv
      · exact before
      · exact Std.TransCmp.isLE_trans before (first v hv)

/-- The order stays strict when the word is stored whole or its cut is not there yet. -/
theorem place_strict (strict : strs.Pairwise fun a b => strcmp a b = .lt)
    (short : ∀ u ∈ strs, u.length < MAXWORD) (fresh : w.length < MAXWORD ∨ cut w ∉ strs) :
    (place w strs).Pairwise fun a b => strcmp a b = .lt := by
  induction strs with
  | nil => simp [place]
  | cons u rest ih =>
    obtain ⟨first, tail⟩ := List.pairwise_cons.mp strict
    have shortRest : ∀ v ∈ rest, v.length < MAXWORD :=
      fun v hv => short v (List.mem_cons_of_mem u hv)
    simp only [place]
    cases order : strcmp u w with
    | lt =>
      refine List.pairwise_cons.mpr ⟨?_, ih tail shortRest (fresh.imp_right fun new met =>
        new (List.mem_cons_of_mem u met))⟩
      intro v hv
      rcases mem_place hv with rfl | hv
      · apply strcmp_lt_of_isLE_of_ne
        · exact strcmp_take_of_lt order (Nat.le_pred_of_lt (short u List.mem_cons_self))
        · rintro rfl
          rcases fresh with whole | new
          · rw [cut_eq_of_short whole, strcmp_self] at order
            cases order
          · exact new List.mem_cons_self
      · exact first v hv
    | eq => exact strict
    | gt =>
      refine List.pairwise_cons.mpr ⟨?_, strict⟩
      have before : strcmp (cut w) u = .lt :=
        Std.TransCmp.lt_of_isLE_of_lt (strcmp_take_isLE w _) (Std.OrientedCmp.gt_iff_lt.mp order)
      intro v hv
      rcases List.mem_cons.mp hv with rfl | hv
      · exact before
      · exact Std.TransCmp.lt_trans before (first v hv)

/-- A word that is stored whole is found. -/
theorem place_known (strict : strs.Pairwise fun a b => strcmp a b = .lt) (known : w ∈ strs) :
    place w strs = strs := by
  induction strs with
  | nil => cases known
  | cons u rest ih =>
    obtain ⟨first, tail⟩ := List.pairwise_cons.mp strict
    rcases List.mem_cons.mp known with rfl | known
    · simp [place]
    · simp [place, first w known, ih tail known]

/-- A word that equals no stored one gets a node. -/
theorem place_perm (new : w ∉ strs) : (place w strs).Perm (cut w :: strs) := by
  induction strs with
  | nil => exact List.Perm.refl _
  | cons u rest ih =>
    obtain ⟨differ, newRest⟩ : w ≠ u ∧ w ∉ rest := by simpa using new
    simp only [place]
    cases order : strcmp u w with
    | lt => exact ((ih newRest).cons u).trans (List.Perm.swap _ _ _)
    | eq => exact absurd (Std.LawfulEqCmp.eq_of_compare order).symm differ
    | gt => exact List.Perm.refl _

/-- A node for a cut word that is stored already breaks the strict order. -/
theorem place_repeats (new : w ∉ strs) (twice : cut w ∈ strs) :
    ¬ (place w strs).Pairwise fun a b => strcmp a b = .lt := by
  intro strict
  have nodup : (place w strs).Nodup := strict.imp fun order same => by simp [same] at order
  exact (List.nodup_cons.mp ((place_perm new).nodup_iff.mp nodup)).1 twice

end Words

section Totals

/-- `freq[i]`. -/
def freqAt (e : Entry) (i : Nat) : Int := (e.freq[i]?).getD 0

/-- The frequency of a word in a file, summed over all nodes that hold the word. -/
def total (entries : List Entry) (t : CString) (i : Nat) : Int :=
  ((entries.filter fun e => e.str = t).map fun e => freqAt e i).sum

/-- An entry as `create_node` makes it: a terminated word and a full array. -/
structure Shaped (e : Entry) : Prop where
  short : e.str.length < MAXWORD
  slots : e.freq.length = MAXFILES

theorem total_cons (e : Entry) (entries : List Entry) (t : CString) (i : Nat) :
    total (e :: entries) t i = (if e.str = t then freqAt e i else 0) + total entries t i := by
  by_cases same : e.str = t <;> simp [total, same]

theorem freqAt_bump (inside : k < e.freq.length) (i : Nat) :
    freqAt (e.bump k) i = freqAt e i + if i = k then 1 else 0 := by
  by_cases same : i = k
  · subst same
    simp [freqAt, Entry.bump, inside]
  · simp [freqAt, Entry.bump, same, Ne.symm same]

theorem freqAt_createEntry (slot : k < MAXFILES) (i : Nat) :
    freqAt (createEntry w 1 k) i = if i = k then 1 else 0 := by
  by_cases same : i = k
  · subst same
    simp [freqAt, createEntry, slot]
  · cases zero : (List.replicate MAXFILES (0 : Int))[i]? with
    | none => simp [freqAt, createEntry, List.getElem?_set_ne (Ne.symm same), same, zero]
    | some v =>
      have hv := List.eq_of_mem_replicate (List.mem_of_getElem? zero)
      simp [freqAt, createEntry, List.getElem?_set_ne (Ne.symm same), same, zero, hv]

theorem shaped_createEntry (clean : NUL ∉ w) (k : Nat) : Shaped (createEntry w 1 k) := by
  refine ⟨?_, by simp [createEntry]⟩
  rw [createEntry_str clean, cut, List.length_take]
  exact Nat.lt_of_le_of_lt (Nat.min_le_left _ _) (by decide)

theorem Shaped.bump (shaped : Shaped e) (k : Nat) : Shaped (e.bump k) :=
  ⟨shaped.short, by simpa [Entry.bump] using shaped.slots⟩

theorem shaped_add (clean : NUL ∉ w) (k : Nat) (shaped : ∀ e ∈ entries, Shaped e) :
    ∀ e ∈ add w k entries, Shaped e := by
  induction entries with
  | nil => simpa [add] using shaped_createEntry clean k
  | cons d rest ih =>
    have here := shaped d List.mem_cons_self
    have later : ∀ e ∈ rest, Shaped e := fun e he => shaped e (List.mem_cons_of_mem d he)
    simp only [add]
    cases strcmp d.str w with
    | lt => exact List.forall_mem_cons.mpr ⟨here, ih later⟩
    | eq => exact List.forall_mem_cons.mpr ⟨here.bump k, later⟩
    | gt => exact List.forall_mem_cons.mpr ⟨shaped_createEntry clean k, shaped⟩

/-- Whichever exit is taken, one occurrence is counted, for the cut word and the given file. -/
theorem total_add (clean : NUL ∉ w) (slot : k < MAXFILES) (shaped : ∀ e ∈ entries, Shaped e)
    (t : CString) (i : Nat) :
    total (add w k entries) t i = total entries t i + if i = k ∧ cut w = t then 1 else 0 := by
  induction entries with
  | nil =>
    simp only [add, total_cons, createEntry_str clean, freqAt_createEntry slot]
    by_cases same : cut w = t <;> simp [total, same]
  | cons d rest ih =>
    have later : ∀ e ∈ rest, Shaped e := fun e he => shaped e (List.mem_cons_of_mem d he)
    have here := shaped d List.mem_cons_self
    simp only [add]
    cases order : strcmp d.str w with
    | lt => simp only [total_cons, ih later, Int.add_assoc]
    | eq =>
      have found : d.str = cut w := by
        rw [← Std.LawfulEqCmp.eq_of_compare order, cut_eq_of_short here.short]
      have str : (d.bump k).str = d.str := rfl
      simp only [total_cons, str, found, freqAt_bump (here.slots ▸ slot)]
      by_cases same : cut w = t <;> simp [same]; omega
    | gt =>
      simp only [total_cons, createEntry_str clean, freqAt_createEntry slot]
      by_cases same : cut w = t <;> simp [same]; omega

end Totals

section Runs

/-- Every file name that was used has a slot, and no other name has one. -/
theorem mem_names {f : CString} :
    f ∈ (stored calls).names ↔ ∃ c ∈ calls, c.fname = f := by
  induction calls using List.reverseRecOn with
  | nil => simp [stored]
  | append_singleton calls c ih =>
    simp only [stored_snoc, Store.addWord, noteName, List.mem_append, List.mem_singleton]
    split <;> rename_i known
    · rw [ih]
      constructor
      · rintro ⟨d, hd, hf⟩
        exact ⟨d, .inl hd, hf⟩
      · rintro ⟨d, hd | rfl, hf⟩
        · exact ⟨d, hd, hf⟩
        · exact ih.mp (hf ▸ known)
    · simp only [List.mem_append, List.mem_singleton, ih]
      constructor
      · rintro (⟨d, hd, hf⟩ | rfl)
        · exact ⟨d, .inl hd, hf⟩
        · exact ⟨c, .inr rfl, rfl⟩
      · rintro ⟨d, hd | rfl, hf⟩
        · exact .inl ⟨d, hd, hf⟩
        · exact .inr hf.symm

theorem names_grow (before later : List Call) :
    (stored before).names <+: (stored (before ++ later)).names := by
  induction later using List.reverseRecOn with
  | nil => simp
  | append_singleton later c ih =>
    refine ih.trans ?_
    rw [← List.append_assoc, stored_snoc, Store.addWord, noteName]
    split
    · exact List.prefix_rfl
    · exact List.prefix_append _ _

/-- A slot, once given, is the slot of that name for good. -/
theorem idxOf_snoc (calls : List Call) (c : Call) {f : CString}
    (h : f ∈ (stored calls).names ∨ f = c.fname) :
    (stored (calls ++ [c])).names.idxOf f = (stored calls).names.idxOf f := by
  rw [stored_snoc, Store.addWord, noteName]
  split <;> rename_i known
  · rfl
  · rcases h with known' | rfl
    · exact List.idxOf_append_of_mem known'
    · rw [List.idxOf_append_of_notMem known, List.idxOf_eq_length known]
      simp

/-- Calls for at most `MAXFILES` files never exit. -/
theorem run_stored (few : files.length ≤ MAXFILES) (rep : Represents x (stored before))
    (named : ∀ c ∈ before ++ later, c.fname ∈ files) :
    ∃ y, run addWord x later = .ok y ∧ Represents y (stored (before ++ later)) := by
  induction later generalizing before x with
  | nil => exact ⟨x, rfl, by simpa using rep⟩
  | cons c later ih =>
    have free : c.fname ∈ (stored before).names ∨ (stored before).names.length < MAXFILES := by
      by_cases known : c.fname ∈ (stored before).names
      · exact .inl known
      · have nodup : (c.fname :: (stored before).names).Nodup :=
          List.nodup_cons.mpr ⟨known, rep.distinct⟩
        have inside : c.fname :: (stored before).names ⊆ files := by
          refine List.cons_subset.mpr ⟨named c (by simp), fun f hf => ?_⟩
          obtain ⟨d, hd, rfl⟩ := mem_names.mp hf
          exact named d (List.mem_append_left _ hd)
        have bound := (List.subperm_of_subset nodup inside).length_le
        exact .inr (Nat.lt_of_lt_of_le bound few)
    have spec := addWord_refines rep c
    rw [if_pos free] at spec
    obtain ⟨m, hm, repm⟩ := spec
    rw [← stored_snoc] at repm
    obtain ⟨y, hy, repy⟩ := ih repm (by simpa using named)
    exact ⟨y, by simp [run, hm, hy], by simpa using repy⟩

theorem run_opened (few : files.length ≤ MAXFILES) (named : ∀ c ∈ calls, c.fname ∈ files) :
    ∃ x, run addWord opened calls = .ok x ∧ Represents x (stored calls) :=
  run_stored few represents_opened (by simpa using named)

theorem entries_shaped (clean : ∀ c ∈ calls, NUL ∉ c.word) :
    ∀ e ∈ (stored calls).entries, Shaped e := by
  induction calls using List.reverseRecOn with
  | nil => simp [stored]
  | append_singleton calls c ih =>
    obtain ⟨cleanBefore, cleanLast⟩ := List.forall_mem_append.mp clean
    rw [stored_snoc]
    exact shaped_add (cleanLast c List.mem_cons_self) _ (ih cleanBefore)

/-- The strings of the entries after the calls. -/
def strsOf (calls : List Call) : List CString := (stored calls).entries.map Entry.str

theorem strsOf_snoc (clean : NUL ∉ c.word) (calls : List Call) :
    strsOf (calls ++ [c]) = place c.word (strsOf calls) := by
  rw [strsOf, stored_snoc]
  exact add_strs clean _ _

theorem strsOf_short (clean : ∀ c ∈ calls, NUL ∉ c.word) :
    ∀ u ∈ strsOf calls, u.length < MAXWORD := by
  intro u hu
  obtain ⟨e, he, rfl⟩ := List.mem_map.mp hu
  exact (entries_shaped clean e he).short

theorem strsOf_ordered (clean : ∀ c ∈ calls, NUL ∉ c.word) :
    (strsOf calls).Pairwise fun a b => (strcmp a b).isLE := by
  induction calls using List.reverseRecOn with
  | nil => exact List.Pairwise.nil
  | append_singleton calls c ih =>
    obtain ⟨cleanBefore, cleanLast⟩ := List.forall_mem_append.mp clean
    rw [strsOf_snoc (cleanLast c List.mem_cons_self)]
    exact place_ordered (ih cleanBefore) (strsOf_short cleanBefore)

theorem mem_strsOf (clean : ∀ c ∈ calls, NUL ∉ c.word) :
    t ∈ strsOf calls ↔ ∃ c ∈ calls, cut c.word = t := by
  induction calls using List.reverseRecOn with
  | nil => simp [strsOf, stored]
  | append_singleton calls c ih =>
    obtain ⟨cleanBefore, cleanLast⟩ := List.forall_mem_append.mp clean
    rw [strsOf_snoc (cleanLast c List.mem_cons_self)]
    constructor
    · intro h
      rcases mem_place h with rfl | h
      · exact ⟨c, by simp, rfl⟩
      · obtain ⟨d, hd, hcut⟩ := (ih cleanBefore).mp h
        exact ⟨d, List.mem_append_left _ hd, hcut⟩
    · rintro ⟨d, hd, rfl⟩
      rcases List.mem_append.mp hd with hd | hd
      · exact mem_place_of_mem ((ih cleanBefore).mpr ⟨d, hd, rfl⟩)
      · rw [List.mem_singleton.mp hd]
        exact cut_mem_place (strsOf_short cleanBefore)

theorem total_stored (clean : ∀ c ∈ calls, NUL ∉ c.word)
    (room : (stored calls).names.length ≤ MAXFILES) (t : CString) (i : Nat) :
    total (stored calls).entries t i =
      (calls.countP fun c => (stored calls).names.idxOf c.fname = i ∧ cut c.word = t : Nat) := by
  induction calls using List.reverseRecOn with
  | nil => simp [stored, total]
  | append_singleton calls c ih =>
    obtain ⟨cleanBefore, cleanLast⟩ := List.forall_mem_append.mp clean
    have roomBefore : (stored calls).names.length ≤ MAXFILES :=
      (names_grow calls [c]).length_le.trans room
    have slot : (stored calls).names.idxOf c.fname < MAXFILES := by
      rw [← idxOf_snoc calls c (.inr rfl)]
      exact Nat.lt_of_lt_of_le (List.idxOf_lt_length_iff.mpr (mem_names.mpr ⟨c, by simp, rfl⟩)) room
    have older :
        calls.countP (fun d => (stored (calls ++ [c])).names.idxOf d.fname = i ∧ cut d.word = t) =
        calls.countP fun d => (stored calls).names.idxOf d.fname = i ∧ cut d.word = t := by
      apply List.countP_congr
      intro d hd
      rw [idxOf_snoc calls c (.inl (mem_names.mpr ⟨d, hd, rfl⟩))]
    rw [List.countP_append, older, List.countP_singleton, idxOf_snoc calls c (.inr rfl),
      stored_snoc]
    have counted := total_add (cleanLast c List.mem_cons_self) slot (entries_shaped cleanBefore) t i
    rw [ih cleanBefore roomBefore] at counted
    simp only [Store.addWord, counted, eq_comm (a := i)]
    split <;> rename_i here <;> simp [here]

end Runs

section Results

/-- What the index knows about the calls so far. -/
structure Accounts (calls : List Call) (x : Index) : Prop where
  listed : ∃ entries, x.contents = .ok entries ∧ x.numWords = entries.length ∧
    entries.Pairwise (fun a b => (strcmp a.str b.str).isLE) ∧
    (∀ t, (∃ e ∈ entries, e.str = t) ↔ ∃ c ∈ calls, cut c.word = t) ∧
    ∀ t f i, x.fileAt i = some f →
      total entries t i = (calls.countP fun c => c.fname = f ∧ cut c.word = t : Nat)
  indexed : ∀ c ∈ calls, ∃ i < MAXFILES, x.fileAt i = some c.fname
  distinct : ∀ i j f, x.fileAt i = some f → x.fileAt j = some f → i = j

theorem accounts_of_represents (clean : ∀ c ∈ calls, NUL ∉ c.word)
    (rep : Represents x (stored calls)) :
    Accounts calls x := by
  refine ⟨⟨_, contents_eq rep, numWords_eq rep, ?_, ?_, ?_⟩, ?_, ?_⟩
  · exact List.pairwise_map.mp (strsOf_ordered clean)
  · intro t
    rw [← mem_strsOf clean, strsOf, List.mem_map]
  · intro t f i hf
    rw [fileAt_eq rep] at hf
    rw [total_stored clean rep.room]
    congr 1
    apply List.countP_congr
    intro c hc
    obtain ⟨inside, hi⟩ := List.getElem?_eq_some_iff.mp hf
    have known : c.fname ∈ (stored calls).names := mem_names.mpr ⟨c, hc, rfl⟩
    have same : (stored calls).names.idxOf c.fname = i ↔ c.fname = f := by
      constructor
      · rintro rfl
        rw [← hi, List.getElem_idxOf]
      · rintro rfl
        rw [← hi]
        exact rep.distinct.idxOf_getElem i inside
    simp [same]
  · intro c hc
    have known : c.fname ∈ (stored calls).names := mem_names.mpr ⟨c, hc, rfl⟩
    have inside := List.idxOf_lt_length_iff.mpr known
    refine ⟨_, Nat.lt_of_lt_of_le inside rep.room, ?_⟩
    rw [fileAt_eq rep, List.getElem?_eq_getElem inside, List.getElem_idxOf]
  · intro i j f hi hj
    rw [fileAt_eq rep] at hi hj
    obtain ⟨inside, _⟩ := List.getElem?_eq_some_iff.mp hi
    exact (List.getElem?_inj inside rep.distinct).mp (hi.trans hj.symm)

/-- After every call the list is in order, the counter is its length, names keep their slots and
each occurrence is counted once, under the cut word and the slot of its file. -/
theorem occurrences_kept (before later : List Call) (files : List CString)
    (few : files.length ≤ MAXFILES) (named : ∀ c ∈ before ++ later, c.fname ∈ files)
    (clean : ∀ c ∈ before ++ later, NUL ∉ c.word) :
    ∃ x y, run addWord opened before = .ok x ∧ run addWord x later = .ok y ∧
      Accounts before x ∧ Accounts (before ++ later) y ∧
      ∀ i f, x.fileAt i = some f → y.fileAt i = some f := by
  have cleanBefore := (List.forall_mem_append.mp clean).1
  obtain ⟨x, hx, repx⟩ := run_opened few (List.forall_mem_append.mp named).1
  obtain ⟨y, hy, repy⟩ := run_stored few repx named
  refine ⟨x, y, hx, hy, accounts_of_represents cleanBefore repx,
    accounts_of_represents clean repy, ?_⟩
  intro i f hf
  rw [fileAt_eq repx] at hf
  rw [fileAt_eq repy]
  obtain ⟨inside, _⟩ := List.getElem?_eq_some_iff.mp hf
  obtain ⟨more, longer⟩ := names_grow before later
  rw [← longer, List.getElem?_append_left inside, hf]

/-- Two words of which the second is longer than a node can hold. -/
theorem occurrences_kept_long :
    let before : List Call := [⟨text "list", text "./a"⟩]
    let later : List Call := [⟨List.replicate 40 97, text "./b"⟩, ⟨text "list", text "./b"⟩]
    ∃ x y, run addWord opened before = .ok x ∧ run addWord x later = .ok y ∧
      Accounts before x ∧ Accounts (before ++ later) y ∧
      ∀ i f, x.fileAt i = some f → y.fileAt i = some f :=
  occurrences_kept [⟨text "list", text "./a"⟩]
    [⟨List.replicate 40 97, text "./b"⟩, ⟨text "list", text "./b"⟩] [text "./a", text "./b"]
    (by decide) (by decide) (by decide)

/-- After each call the list is strictly increasing, and a call with a word that was added before
leaves the number of nodes and the counter as they were. -/
def OneNodeEach (calls : List Call) : Prop :=
  ∀ before c later, calls = before ++ c :: later →
    ∃ x y old new, run addWord opened before = .ok x ∧ addWord x c = .ok y ∧
      x.contents = .ok old ∧ y.contents = .ok new ∧
      new.Pairwise (fun a b => strcmp a.str b.str = .lt) ∧
      (c.word ∈ before.map Call.word → new.length = old.length ∧ y.numWords = x.numWords)

/-- A word that does not fit a node comes when no word with the same first bytes has come. -/
def LongWordsFresh (calls : List Call) : Prop :=
  ∀ before c later, calls = before ++ c :: later →
    c.word.length < MAXWORD ∨ ∀ b ∈ before, cut b.word ≠ cut c.word

theorem LongWordsFresh.of_append (fresh : LongWordsFresh (calls ++ later)) :
    LongWordsFresh calls := by
  rintro before c rest rfl
  exact fresh before c (rest ++ later) (by simp)

theorem LongWordsFresh.strict (fresh : LongWordsFresh calls) (clean : ∀ c ∈ calls, NUL ∉ c.word) :
    (strsOf calls).Pairwise fun a b => strcmp a b = .lt := by
  induction calls using List.reverseRecOn with
  | nil => exact List.Pairwise.nil
  | append_singleton calls c ih =>
    obtain ⟨cleanBefore, cleanLast⟩ := List.forall_mem_append.mp clean
    rw [strsOf_snoc (cleanLast c List.mem_cons_self)]
    refine place_strict (ih fresh.of_append cleanBefore) (strsOf_short cleanBefore) ?_
    refine (fresh calls c [] rfl).imp_right fun new met => ?_
    obtain ⟨d, hd, same⟩ := (mem_strsOf cleanBefore).mp met
    exact new d hd same

/-- A word that comes again is found, and the strings stay as they are. -/
theorem LongWordsFresh.again (fresh : LongWordsFresh (calls ++ [c]))
    (clean : ∀ d ∈ calls ++ [c], NUL ∉ d.word) (again : c.word ∈ calls.map Call.word) :
    strsOf (calls ++ [c]) = strsOf calls := by
  obtain ⟨cleanBefore, cleanLast⟩ := List.forall_mem_append.mp clean
  obtain ⟨b, hb, same⟩ := List.mem_map.mp again
  have whole : c.word.length < MAXWORD := by
    rcases fresh calls c [] rfl with short | new
    · exact short
    · exact absurd (congrArg cut same) (new b hb)
  have known : c.word ∈ strsOf calls :=
    (mem_strsOf cleanBefore).mpr ⟨b, hb, by rw [same, cut_eq_of_short whole]⟩
  rw [strsOf_snoc (cleanLast c List.mem_cons_self),
    place_known (fresh.of_append.strict cleanBefore) known]

/-- The states around one call of a sequence. -/
theorem run_split (few : files.length ≤ MAXFILES)
    (named : ∀ d ∈ before ++ c :: later, d.fname ∈ files) :
    ∃ x y, run addWord opened before = .ok x ∧ addWord x c = .ok y ∧
      Represents x (stored before) ∧ Represents y (stored (before ++ [c])) := by
  have namedUpTo : ∀ d ∈ before ++ [c], d.fname ∈ files := by
    intro d hd
    exact named d
      ((List.prefix_append_right_inj before).mpr (List.prefix_append [c] later) |>.subset hd)
  obtain ⟨x, hx, repx⟩ := run_opened few (List.forall_mem_append.mp named).1
  obtain ⟨y, hy, repy⟩ := run_stored few repx namedUpTo
  obtain ⟨m, hm, hrest⟩ := run_ok_cons hy
  obtain rfl : m = y := by simpa [run] using hrest
  exact ⟨x, m, hx, hm, repx, repy⟩

/-- One node for each word is exactly what every long word that comes twice breaks. -/
theorem one_node_iff (calls : List Call) (files : List CString) (few : files.length ≤ MAXFILES)
    (named : ∀ c ∈ calls, c.fname ∈ files) (clean : ∀ c ∈ calls, NUL ∉ c.word) :
    OneNodeEach calls ↔ LongWordsFresh calls := by
  constructor
  · rintro one before c later rfl
    have cleanBefore := (List.forall_mem_append.mp clean).1
    obtain ⟨x, y, hx, hy, _, repy⟩ := run_split few named
    obtain ⟨x', y', old, new, hx', hy', _, hnew, strict, _⟩ := one before c later rfl
    obtain rfl : x = x' := Except.ok.inj (hx.symm.trans hx')
    obtain rfl : y = y' := Except.ok.inj (hy.symm.trans hy')
    obtain rfl : (stored (before ++ [c])).entries = new :=
      Except.ok.inj ((contents_eq repy).symm.trans hnew)
    by_contra repeated
    obtain ⟨long, b, hb, same⟩ :
        ¬ c.word.length < MAXWORD ∧ ∃ b ∈ before, cut b.word = cut c.word := by
      simpa using repeated
    have absent : c.word ∉ strsOf before := fun met => long (strsOf_short cleanBefore c.word met)
    have twice : cut c.word ∈ strsOf before := (mem_strsOf cleanBefore).mpr ⟨b, hb, same⟩
    apply place_repeats absent twice
    rw [← strsOf_snoc (clean c (by simp))]
    exact List.pairwise_map.mpr strict
  · rintro fresh before c later rfl
    obtain ⟨x, y, hx, hy, repx, repy⟩ := run_split few named
    rw [List.append_cons] at fresh clean
    have cleanUpTo := (List.forall_mem_append.mp clean).1
    refine ⟨x, y, _, _, hx, hy, contents_eq repx, contents_eq repy,
      List.pairwise_map.mp (fresh.of_append.strict cleanUpTo), fun again => ?_⟩
    have length : (stored (before ++ [c])).entries.length = (stored before).entries.length := by
      simpa [strsOf] using congrArg List.length (fresh.of_append.again cleanUpTo again)
    exact ⟨length, by rw [numWords_eq repx, numWords_eq repy, length]⟩

/-- A word of forty bytes and a short one, each of them once in each file. -/
theorem one_node_iff_short :
    OneNodeEach [⟨text "list", text "./a"⟩, ⟨List.replicate 40 97, text "./a"⟩,
      ⟨text "list", text "./b"⟩] ↔
      LongWordsFresh
        [⟨text "list", text "./a"⟩, ⟨List.replicate 40 97, text "./a"⟩,
          ⟨text "list", text "./b"⟩] :=
  one_node_iff _ [text "./a", text "./b"] (by decide) (by decide) (by decide)

/-- The same word of forty bytes, twice: two nodes. -/
theorem one_node_not_kept :
    ¬ ∀ (calls : List Call) (files : List CString), files.length ≤ MAXFILES →
      (∀ c ∈ calls, c.fname ∈ files) → (∀ c ∈ calls, NUL ∉ c.word) → OneNodeEach calls := by
  intro each
  let long : Call := ⟨List.replicate 40 97, text "./a"⟩
  obtain ⟨x, y, old, new, hx, hy, _, _, _, again⟩ :=
    each [long, long] [text "./a"] (by decide) (by decide) (by decide) [long] long [] rfl
  have first : ∃ m, run addWord opened [long] = .ok m ∧ m.numWords = 1 := exists_of_run (by decide)
  have second : ∃ m, run addWord opened ([long] ++ [long]) = .ok m ∧ m.numWords = 2 :=
    exists_of_run (by decide)
  obtain ⟨m, hm, one⟩ := first
  obtain rfl : m = x := Except.ok.inj (hm.symm.trans hx)
  obtain ⟨n, hn, two⟩ := second
  obtain ⟨m', hm', hstep⟩ := run_snoc hn
  obtain rfl : m = m' := Except.ok.inj (hm.symm.trans hm')
  obtain rfl : n = y := Except.ok.inj (hstep.symm.trans hy)
  have same := (again (by decide)).2
  omega

end Results

end WordIndex
