import Mathlib.Data.List.Count
import Mathlib.Data.List.Infix

/-!
# The longest run of a list

A scan that counts how often the current element has come in a row, and
changes the best element only when a further occurrence of the current one
exceeds the best count. When equal elements stand together the counts of the
runs are those of the elements. The best count starts at 1, so an element that
comes once is never the best.
-/

namespace LongestRun

universe u
variable {α : Type u} [DecidableEq α]

structure Tally (α : Type u) where
  bestNum : Nat
  best : α
  num : Nat
  current : α
  deriving DecidableEq, Repr

def Tally.add (t : Tally α) (a : α) : Tally α :=
  if a = t.current then
    if t.bestNum < t.num + 1 then { t with bestNum := t.num + 1, best := a, num := t.num + 1 }
    else { t with num := t.num + 1 }
  else { t with num := 1, current := a }

omit [DecidableEq α] in
/-- No other element stands between two equal ones. -/
def Contiguous (l : List α) : Prop := ∀ a b, [a, b, a].Sublist l → b = a

variable {l : List α} {t : Tally α} {a b none : α}

section Runs

omit [DecidableEq α] in
theorem Contiguous.sublist {l' : List α} (h : Contiguous l) (part : l'.Sublist l) : Contiguous l' :=
  fun a b between => h a b (between.trans part)

omit [DecidableEq α] in
/-- An element that comes again is the last one. -/
theorem Contiguous.last (h : Contiguous (l ++ [a])) (last : l.getLast? = some b)
    (again : a ∈ l) : a = b := by
  obtain ⟨l, rfl⟩ := List.getLast?_eq_some_iff.mp last
  rcases List.mem_append.mp again with again | again
  · have between := (List.singleton_sublist.mpr again).append (List.Sublist.refl ([b] ++ [a]))
    exact (h a b (by simpa using between)).symm
  · exact List.mem_singleton.mp again

omit [DecidableEq α] in
/-- A list that ends with its first element has no other. -/
theorem Contiguous.constant (h : Contiguous (l ++ [a])) (first : l.head? = some a)
    (mem : b ∈ l) : b = a := by
  cases l with
  | nil => cases first
  | cons c rest =>
    obtain rfl : c = a := by simpa using first
    rcases List.mem_cons.mp mem with same | mem
    · exact same
    · exact h c b (((List.singleton_sublist.mpr mem).append (List.Sublist.refl [c])).cons_cons c)

/-- What is known behind the elements of `l`, the last of which is `a`. -/
structure Tallied (none : α) (l : List α) (a : α) (t : Tally α) : Prop where
  current : t.current = a
  num : t.num = l.count a
  bound : ∀ b ∈ l, l.count b ≤ t.bestNum
  best : t.bestNum = 1 ∧ t.best = none ∨ 2 ≤ t.bestNum ∧ t.best ∈ l ∧ t.bestNum = l.count t.best
  first : ∀ b, l.head? = some b → 2 ≤ l.count b → l.count b = t.bestNum → t.best = b

/-- A new run of one element, after none that has become the best. -/
theorem tallied_start (one : t.bestNum = 1) (num : t.num = 1) :
    Tallied t.best [t.current] t.current t := by
  refine ⟨rfl, by simp [num], by simp [one], .inl ⟨one, rfl⟩, fun b first two => ?_⟩
  obtain rfl : t.current = b := by simpa using first
  simp at two

theorem count_snoc (l : List α) (a b : α) :
    (l ++ [a]).count b = l.count b + if a = b then 1 else 0 := by
  by_cases same : a = b <;> simp [List.count_append, same]

/-- The current element once more. -/
theorem Tallied.add_same (h : Tallied none l a t) (mem : a ∈ l)
    (constant : l.head? = some a → ∀ b ∈ l, b = a) :
    Tallied none (l ++ [a]) a (t.add a) := by
  have some_element : l ≠ [] := List.ne_nil_of_mem mem
  have positive : 1 ≤ t.num := h.num ▸ List.count_pos_iff.mpr mem
  have here : (l ++ [a]).count a = t.num + 1 := by rw [count_snoc, if_pos rfl, h.num]
  have others : ∀ b, b ≠ a → (l ++ [a]).count b = l.count b := fun b other => by
    rw [count_snoc, if_neg (Ne.symm other), Nat.add_zero]
  have inside : ∀ b ∈ l ++ [a], b ≠ a → b ∈ l := fun b hb other => by simpa [other] using hb
  rw [Tally.add, if_pos h.current.symm]
  by_cases more : t.bestNum < t.num + 1
  · rw [if_pos more]
    refine ⟨h.current, here.symm, fun b hb => ?_,
      .inr ⟨Nat.succ_le_succ positive, by simp, here.symm⟩, ?_⟩
    · by_cases same : b = a
      · rw [same]
        exact here.le
      · rw [others b same]
        exact (h.bound b (inside b hb same)).trans more.le
    · intro b first _ reaches
      by_contra other
      have mem : b ∈ l := List.mem_of_head? (List.head?_append_of_ne_nil l some_element ▸ first)
      have := h.bound b mem
      rw [others b (Ne.symm other)] at reaches
      exact absurd reaches (Nat.ne_of_lt (this.trans_lt more))
  · rw [if_neg more]
    obtain ⟨two, mem_best, best⟩ := h.best.resolve_left fun one => by omega
    have best_other : t.best ≠ a := by
      intro same
      rw [same, ← h.num] at best
      omega
    refine ⟨h.current, here.symm, fun b hb => ?_,
      .inr ⟨two, List.mem_append_left _ mem_best, ?_⟩, ?_⟩
    · by_cases same : b = a
      · rw [same, here]
        exact not_lt.mp more
      · rw [others b same]
        exact h.bound b (inside b hb same)
    · rw [others _ best_other]
      exact best
    · intro b first two reaches
      rw [List.head?_append_of_ne_nil l some_element] at first
      by_cases same : b = a
      · exact absurd (constant (same ▸ first) t.best mem_best) best_other
      · rw [others b same] at two reaches
        exact h.first b first two reaches

/-- An element that has not come before. -/
theorem Tallied.add_new (h : Tallied none l b t) (mem : b ∈ l) (new : a ∉ l) :
    Tallied none (l ++ [a]) a (t.add a) := by
  have some_element : l ≠ [] := List.ne_nil_of_mem mem
  have old : ∀ c ∈ l, (l ++ [a]).count c = l.count c := fun c hc => by
    have other : a ≠ c := fun same => new (same ▸ hc)
    rw [count_snoc, if_neg other, Nat.add_zero]
  have here : (l ++ [a]).count a = 1 := by
    rw [count_snoc, if_pos rfl, List.count_eq_zero_of_not_mem new]
  have one : 1 ≤ t.bestNum := by
    rcases h.best with ⟨best, _⟩ | ⟨best, _⟩ <;> omega
  have other : a ≠ t.current := fun same => new (same ▸ h.current ▸ mem)
  rw [Tally.add, if_neg other]
  refine ⟨rfl, here.symm, fun c hc => ?_, ?_, ?_⟩
  · rcases List.mem_append.mp hc with hc | hc
    · rw [old c hc]
      exact h.bound c hc
    · rw [List.mem_singleton.mp hc, here]
      exact one
  · rcases h.best with ⟨best, is_none⟩ | ⟨two, mem_best, best⟩
    · exact .inl ⟨best, is_none⟩
    · exact .inr ⟨two, List.mem_append_left _ mem_best, (old _ mem_best).symm ▸ best⟩
  · intro c first two reaches
    rw [List.head?_append_of_ne_nil l some_element] at first
    rw [old c (List.mem_of_head? first)] at two reaches
    exact h.first c first two reaches

/-- The scan goes on. -/
theorem Tallied.foldl {later : List α} (h : Tallied none l b t) (last : l.getLast? = some b)
    (contiguous : Contiguous (l ++ later)) :
    ∃ a, Tallied none (l ++ later) a (later.foldl Tally.add t) := by
  induction later generalizing l b t with
  | nil => exact ⟨b, by simpa using h⟩
  | cons a later ih =>
    have mem : b ∈ l := List.mem_of_getLast? last
    have so_far : Contiguous (l ++ [a]) := contiguous.sublist (by simp)
    rw [List.append_cons l a later] at contiguous ⊢
    refine ih (b := a) ?_ (by simp) contiguous
    by_cases same : a = b
    · subst same
      exact h.add_same mem fun first c hc => so_far.constant first hc
    · exact h.add_new mem fun again => same (so_far.last last again)

omit [DecidableEq α] in
theorem Contiguous.cons (h : Contiguous l) (first : l.head? = some a) : Contiguous (a :: l) := by
  intro c b between
  cases l with
  | nil => cases first
  | cons d rest =>
    obtain rfl : d = a := by simpa using first
    cases between with
    | cons _ part => exact h c b part
    | cons_cons _ part =>
      cases part with
      | cons _ part => exact h c b (part.cons_cons c)
      | cons_cons _ part => rfl

/-- What the scan counts: an element that is current from the beginning counts once more when the
list begins with it. -/
def counted (current : α) (l : List α) : List α :=
  if l.head? = some current then current :: l else l

theorem tallied_counted (one : t.bestNum = 1) (num : t.num = 1) (contiguous : Contiguous l)
    (some_element : l ≠ []) :
    ∃ a, Tallied t.best (counted t.current l) a (l.foldl Tally.add t) := by
  by_cases stale : l.head? = some t.current
  · rw [counted, if_pos stale]
    exact (tallied_start one num).foldl rfl (contiguous.cons stale)
  · rw [counted, if_neg stale]
    cases l with
    | nil => exact absurd rfl some_element
    | cons a rest =>
      have other : a ≠ t.current := fun same => stale (congrArg some same)
      have first : t.add a = { t with num := 1, current := a } := by rw [Tally.add, if_neg other]
      rw [List.foldl_cons, first]
      exact (tallied_start (t := { t with num := 1, current := a }) one rfl).foldl rfl contiguous

end Runs

section Results

/-- The best element with its count; none when the best is still `none`. -/
def Tally.result (none : α) (t : Tally α) : Option (α × Nat) :=
  if t.best = none then .none else some (t.best, t.bestNum)

/-- An element with the number of times it comes, no other coming more often; nothing for the empty
list alone. -/
def Most (l : List α) (result : Option (α × Nat)) : Prop :=
  (result = .none ↔ l = []) ∧ ∀ a n, result = some (a, n) → a ∈ l ∧ n = l.count a ∧
    ∀ b, l.count b ≤ n

/-- An element comes twice, and if the list begins with the element that is current from the
beginning, some other comes more often by two. -/
def Decided (current : α) (l : List α) : Prop :=
  (∃ a, 2 ≤ l.count a) ∧ (l.head? ≠ some current ∨ ∃ b, l.count current + 1 < l.count b)

theorem mem_of_mem_counted (h : a ∈ counted b l) : a ∈ l := by
  by_cases stale : l.head? = some b
  · rw [counted, if_pos stale] at h
    rcases List.mem_cons.mp h with rfl | h
    · exact List.mem_of_head? stale
    · exact h
  · rwa [counted, if_neg stale] at h

theorem count_le_counted (current c : α) (l : List α) :
    l.count c ≤ (counted current l).count c := by
  by_cases stale : l.head? = some current
  · rw [counted, if_pos stale]
    exact List.count_le_count_cons
  · rw [counted, if_neg stale]

theorem Tallied.count_le (h : Tallied none l a t) (c : α) : l.count c ≤ t.bestNum := by
  by_cases hc : c ∈ l
  · exact h.bound c hc
  · rw [List.count_eq_zero_of_not_mem hc]
    exact Nat.zero_le _

/-- When no element has become the best, none comes twice. -/
theorem Tallied.not_decided {current : α} (h : Tallied none (counted current l) a t)
    (one : t.bestNum = 1) :
    ¬ Decided current l := by
  rintro ⟨⟨b, twice⟩, _⟩
  have := h.count_le b
  have := count_le_counted current b l
  omega

/-- A best element is the answer when its count is that in the list. -/
theorem Tallied.most_iff_count {current : α} (h : Tallied none (counted current l) a t)
    (unused : none ∉ l)
    (mem : t.best ∈ l) : Most l (t.result none) ↔ t.bestNum = l.count t.best := by
  have used : t.best ≠ none := fun same => unused (same ▸ mem)
  have named : t.result none = some (t.best, t.bestNum) := if_neg used
  constructor
  · exact fun most => (most.2 _ _ named).2.1
  · intro exactly
    refine ⟨by simp [named, List.ne_nil_of_mem mem], ?_⟩
    rintro b n same
    obtain ⟨rfl, rfl⟩ : t.best = b ∧ t.bestNum = n := by simpa [named] using same
    exact ⟨mem, exactly, fun c => (count_le_counted current c l).trans (h.count_le c)⟩

/-- An element that has counted once more is not the best exactly if another has two more. -/
theorem Tallied.exact_iff (h : Tallied none (a :: l) b t) (again : a ∈ l)
    (best : t.bestNum = (a :: l).count t.best) :
    t.bestNum = l.count t.best ↔ ∃ c, l.count a + 1 < l.count c := by
  have twice : 2 ≤ (a :: l).count a := by
    rw [List.count_cons_self]
    exact Nat.succ_le_succ (List.count_pos_iff.mpr again)
  have bound := h.count_le a
  rw [List.count_cons_self] at bound
  constructor
  · intro exactly
    have other : a ≠ t.best := by
      intro same
      rw [← same, List.count_cons_self] at best
      rw [← same] at exactly
      omega
    have less : (a :: l).count a ≠ t.bestNum :=
      fun reaches => other (h.first a rfl twice reaches).symm
    rw [List.count_cons_self] at less
    exact ⟨t.best, by omega⟩
  · rintro ⟨c, more⟩
    have other : a ≠ t.best := by
      intro same
      have := (List.count_le_count_cons (a := c) (b := a) (l := l)).trans (h.count_le c)
      rw [best, ← same, List.count_cons_self] at this
      omega
    rw [best, List.count_cons_of_ne other]

theorem Tallied.most_iff {current : α} (h : Tallied none (counted current l) a t)
    (unused : none ∉ l) (some_element : l ≠ []) : Most l (t.result none) ↔ Decided current l := by
  rcases h.best with ⟨one, is_none⟩ | ⟨two, mem, best⟩
  · have nothing : t.result none = .none := if_pos is_none
    exact iff_of_false (fun most => some_element (most.1.mp nothing)) (h.not_decided one)
  · rw [h.most_iff_count unused (mem_of_mem_counted mem), Decided]
    by_cases stale : l.head? = some current
    · rw [counted, if_pos stale] at h best
      rw [h.exact_iff (List.mem_of_head? stale) best]
      constructor
      · rintro ⟨c, more⟩
        exact ⟨⟨c, by have := List.count_pos_iff.mpr (List.mem_of_head? stale); omega⟩,
          .inr ⟨c, more⟩⟩
      · exact fun decided => decided.2.resolve_left (not_not.mpr stale)
    · rw [counted, if_neg stale] at best
      exact iff_of_true best ⟨⟨t.best, best ▸ two⟩, .inl stale⟩

/-- The scan gives the element that comes most often exactly when the list is empty or decided. -/
theorem most_foldl_iff (one : t.bestNum = 1) (num : t.num = 1) (contiguous : Contiguous l)
    (unused : t.best ∉ l) :
    Most l ((l.foldl Tally.add t).result t.best) ↔ l = [] ∨ Decided t.current l := by
  by_cases some_element : l = []
  · subst some_element
    simp [Most, Tally.result]
  · obtain ⟨a, tallied⟩ := tallied_counted one num contiguous some_element
    rw [tallied.most_iff unused some_element, or_iff_right some_element]

end Results

end LongestRun
