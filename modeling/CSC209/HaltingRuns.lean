import Mathlib.Tactic.Basic

/-!
# Runs of a step function that can halt

A step function takes a state and one input to a next state, or halts the
whole run with a reason. `Reachable` collects the states met by legal inputs.
`Along` states a property of every step that a given sequence of inputs takes,
from the state before the step and its input; a run that halts takes no
further step. `guarded` puts a check in front of a step. No input alphabet,
state or reason is fixed here.
-/

namespace HaltingRuns

universe u v w
variable {σ : Type u} {ι : Type v} {ε : Type w}

/-- States reached from `start` by steps whose inputs are legal where they occur. -/
inductive Reachable (step : σ → ι → Except ε σ) (legal : σ → ι → Prop) (start : σ) : σ → Prop where
  | start : Reachable step legal start start
  | next {s t : σ} (i : ι) : Reachable step legal start s → legal s i → step s i = .ok t →
      Reachable step legal start t

/-- The property holds of each step taken on the inputs, as far as the run goes on. -/
def Along (step : σ → ι → Except ε σ) (P : σ → ι → Prop) : σ → List ι → Prop
  | _, [] => True
  | s, i :: rest => P s i ∧ ∀ t, step s i = .ok t → Along step P t rest

instance Along.decidable {step : σ → ι → Except ε σ} {P : σ → ι → Prop} [∀ s i, Decidable (P s i)] :
    (s : σ) → (inputs : List ι) → Decidable (Along step P s inputs)
  | _, [] => isTrue trivial
  | s, i :: rest =>
    match h : step s i with
    | .error _ => decidable_of_iff (P s i) ⟨fun hp => ⟨hp, fun t ht => by simp [h] at ht⟩, And.left⟩
    | .ok t =>
      have : Decidable (Along step P t rest) := Along.decidable t rest
      decidable_of_iff (P s i ∧ Along step P t rest)
        ⟨fun hp => ⟨hp.1, fun u hu => by
          have same : t = u := by simpa [h] using hu
          exact same ▸ hp.2⟩, fun hp => ⟨hp.1, hp.2 t h⟩⟩

/-- The whole run, or the reason for which it halts. -/
def run (step : σ → ι → Except ε σ) : σ → List ι → Except ε σ
  | s, [] => .ok s
  | s, i :: rest =>
    match step s i with
    | .error e => .error e
    | .ok t => run step t rest

/-- A check in front of a function, which halts the run where it fails. -/
def guarded {τ : Type u} (bad : σ → ι → Prop) [∀ s i, Decidable (bad s i)] (e : ε)
    (f : σ → ι → Except ε τ) (s : σ) (i : ι) : Except ε τ :=
  if bad s i then .error e else f s i

variable {step : σ → ι → Except ε σ} {legal : σ → ι → Prop}

/-- The stages of a computation that succeeds. -/
theorem bind_ok_iff {α β : Type v} {x : Except ε α} {f : α → Except ε β} {b : β} :
    x >>= f = .ok b ↔ ∃ a, x = .ok a ∧ f a = .ok b := by
  cases x with
  | error e => simp [bind, Except.bind]
  | ok a => simp [bind, Except.bind]

theorem bind_error_iff {α β : Type v} {x : Except ε α} {f : α → Except ε β} {e : ε} :
    x >>= f = .error e ↔ x = .error e ∨ ∃ a, x = .ok a ∧ f a = .error e := by
  cases x with
  | error e => simp [bind, Except.bind]
  | ok a => simp [bind, Except.bind]

theorem along_cons_iff {P : σ → ι → Prop} {s t : σ} {i : ι} {rest : List ι} (h : step s i = .ok t) :
    Along step P s (i :: rest) ↔ P s i ∧ Along step P t rest := by
  simp [Along, h]

/-- An invariant of the start that legal steps keep holds of every reachable state. -/
theorem Reachable.invariant {start s : σ} {Inv : σ → Prop} (h : Reachable step legal start s)
    (base : Inv start)
    (keeps : ∀ s i t, Inv s → legal s i → step s i = .ok t → Inv t) : Inv s := by
  induction h with
  | start => exact base
  | next i _ hl hs ih => exact keeps _ i _ ih hl hs

theorem Reachable.trans {a b c : σ} (hab : Reachable step legal a b)
    (hbc : Reachable step legal b c) : Reachable step legal a c := by
  induction hbc with
  | start => exact hab
  | next i _ hl hs ih => exact .next i ih hl hs

/-- What an invariant implies for every step holds along every run. -/
theorem along_of_invariant {P : σ → ι → Prop} {I : σ → Prop} {s : σ} (base : I s)
    (keeps : ∀ s i t, I s → step s i = .ok t → I t) (holds : ∀ s i, I s → P s i) (inputs : List ι) :
    Along step P s inputs := by
  induction inputs generalizing s with
  | nil => trivial
  | cons i rest ih => exact ⟨holds s i base, fun t ht => ih (keeps s i t base ht)⟩

/-- A property of the inputs alone holds along every run on them. -/
theorem along_of_forall {P : ι → Prop} {s : σ} {inputs : List ι} (all : ∀ i ∈ inputs, P i) :
    Along step (fun _ i => P i) s inputs := by
  induction inputs generalizing s with
  | nil => trivial
  | cons i rest ih =>
    exact ⟨all i List.mem_cons_self, fun _ _ => ih fun j hj => all j (List.mem_cons_of_mem i hj)⟩

/-- Two properties that agree on each legal step under an invariant hold along the same runs. -/
theorem along_congr {P Q Inv : σ → ι → Prop} {I : σ → Prop} {s : σ} {inputs : List ι}
    (base : I s) (allowed : Along step Inv s inputs)
    (keeps : ∀ s i t, I s → Inv s i → P s i → step s i = .ok t → I t)
    (agree : ∀ s i, I s → Inv s i → (P s i ↔ Q s i)) :
    Along step P s inputs ↔ Along step Q s inputs := by
  induction inputs generalizing s with
  | nil => exact Iff.rfl
  | cons i rest ih =>
    have here := agree s i base allowed.1
    constructor
    · rintro ⟨hp, hrest⟩
      exact ⟨here.mp hp, fun t ht =>
        (ih (keeps s i t base allowed.1 hp ht) (allowed.2 t ht)).mp (hrest t ht)⟩
    · rintro ⟨hq, hrest⟩
      have hp := here.mpr hq
      exact ⟨hp, fun t ht =>
        (ih (keeps s i t base allowed.1 hp ht) (allowed.2 t ht)).mpr (hrest t ht)⟩

/-- The same where every input is legal. -/
theorem along_iff {P Q : σ → ι → Prop} {I : σ → Prop} {s : σ} (base : I s)
    (keeps : ∀ s i t, I s → P s i → step s i = .ok t → I t)
    (agree : ∀ s i, I s → (P s i ↔ Q s i)) (inputs : List ι) :
    Along step P s inputs ↔ Along step Q s inputs :=
  along_congr base
    (along_of_invariant (P := fun _ _ => True) (I := fun _ => True) trivial
        (fun _ _ _ _ _ => trivial) (fun _ _ _ => trivial) inputs)
    (fun s i t hi _ hp hs => keeps s i t hi hp hs) fun s i hi _ => agree s i hi

theorem run_ok_cons {s t : σ} {i : ι} {rest : List ι} (h : run step s (i :: rest) = .ok t) :
    ∃ m, step s i = .ok m ∧ run step m rest = .ok t := by
  rw [run] at h
  cases hs : step s i with
  | error e => simp [hs] at h
  | ok m => exact ⟨m, rfl, by simpa [hs] using h⟩

section Guards

variable {τ : Type u} {bad : σ → ι → Prop} [∀ s i, Decidable (bad s i)] {e : ε}
  {f : σ → ι → Except ε τ} {s : σ} {i : ι}

theorem guarded_of_good (good : ¬ bad s i) : guarded bad e f s i = f s i := if_neg good

theorem guarded_of_bad (stops : bad s i) : guarded bad e f s i = .error e := if_pos stops

theorem guarded_ok_iff {t : τ} : guarded bad e f s i = .ok t ↔ ¬ bad s i ∧ f s i = .ok t := by
  by_cases stops : bad s i
  · simp [guarded_of_bad stops, stops]
  · simp [guarded_of_good stops, stops]

/-- A run that passes all the checks is a run without them. -/
theorem run_of_guarded {inputs : List ι} {t : σ}
    (h : run (guarded bad e step) s inputs = .ok t) : run step s inputs = .ok t := by
  induction inputs generalizing s with
  | nil => exact h
  | cons i rest ih =>
    obtain ⟨m, hm, hrest⟩ := run_ok_cons h
    rw [run, (guarded_ok_iff.mp hm).2]
    exact ih hrest

end Guards

/-- What holds along a run holds along what is left of it after a part that does not halt. -/
theorem Along.after_run {P : σ → ι → Prop} {s m : σ} {first rest : List ι}
    (h : Along step P s (first ++ rest)) (hrun : run step s first = .ok m) :
    Along step P m rest := by
  induction first generalizing s with
  | nil =>
    have same : s = m := by simpa [run] using hrun
    exact same ▸ h
  | cons i later ih =>
    obtain ⟨n, hn, hlater⟩ := run_ok_cons hrun
    exact ih (h.2 n hn) hlater

/-- A measure that each step lowers bounds the length of every run. -/
theorem length_le_of_run {measure : σ → Nat}
    (lowers : ∀ s i t, step s i = .ok t → measure t < measure s) {s t : σ}
    {inputs : List ι} (h : run step s inputs = .ok t) : inputs.length + measure t ≤ measure s := by
  induction inputs generalizing s with
  | nil =>
    have same : s = t := by simpa [run] using h
    simp [same]
  | cons i rest ih =>
    obtain ⟨m, hm, hrest⟩ := run_ok_cons h
    have first := lowers s i m hm
    have later := ih hrest
    simp only [List.length_cons]
    omega

theorem run_append (step : σ → ι → Except ε σ) (s : σ) (first rest : List ι) :
    run step s (first ++ rest) = run step s first >>= fun t => run step t rest := by
  induction first generalizing s with
  | nil => rfl
  | cons i later ih =>
    rw [List.cons_append, run, run]
    cases step s i with
    | error e => rfl
    | ok t => exact ih t

theorem run_snoc {s t : σ} {first : List ι} {i : ι} (h : run step s (first ++ [i]) = .ok t) :
    ∃ m, run step s first = .ok m ∧ step m i = .ok t := by
  induction first generalizing s with
  | nil =>
    obtain ⟨m, hm, hrest⟩ := run_ok_cons h
    have same : m = t := by simpa [run] using hrest
    exact ⟨s, rfl, same ▸ hm⟩
  | cons j later ih =>
    obtain ⟨n, hn, hlater⟩ := run_ok_cons h
    obtain ⟨m, hm, hi⟩ := ih hlater
    exact ⟨m, by simp [run, hn, hm], hi⟩

/-- A property of every step that a run takes holds of its last one. -/
theorem Along.last {P : σ → ι → Prop} {s t : σ} (first : List ι) {i : ι}
    (h : Along step P s (first ++ [i])) (hrun : run step s (first ++ [i]) = .ok t) :
    ∃ m, step m i = .ok t ∧ P m i := by
  obtain ⟨m, hm, hi⟩ := run_snoc hrun
  exact ⟨m, hi, (h.after_run hm).1⟩

/-- The reason for which a step halts, if it does. -/
def reason : Except ε σ → Option ε
  | .error e => some e
  | .ok _ => none

theorem reason_eq_some {x : Except ε σ} {e : ε} : reason x = some e ↔ x = .error e := by
  cases x <;> simp [reason]

/-- A run computed to its end, with what can be decided of the state there. -/
theorem exists_of_run {P : σ → Prop} [DecidablePred P] {s : σ} {inputs : List ι}
    (h : (match run step s inputs with | .ok m => decide (P m) | .error _ => false) = true) :
    ∃ m, run step s inputs = .ok m ∧ P m := by
  cases hrun : run step s inputs with
  | error e => simp [hrun] at h
  | ok m => exact ⟨m, rfl, by simpa [hrun] using h⟩

theorem reachable_of_run {s t : σ} {inputs : List ι} (allowed : Along step legal s inputs)
    (h : run step s inputs = .ok t) : Reachable step legal s t := by
  induction inputs generalizing s with
  | nil =>
    have same : s = t := by simpa [run] using h
    exact same ▸ .start
  | cons i rest ih =>
    obtain ⟨m, hm, hrest⟩ := run_ok_cons h
    exact Reachable.trans (.next i .start allowed.1 hm) (ih (allowed.2 m hm) hrest)

end HaltingRuns
