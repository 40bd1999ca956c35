import CSC209.A2.CommandLine
import CSC209.A2.QueueAgreement
import CSC209.CommandLoop

/-!
# Whole sessions at the help centre

`main` of `A2/helpcentre.c` from the bytes of its input to the desk that is
left. Commands that are typed one a line come out of `fgets` and `strtok` as
they were typed, so that a session is a run of the calls that they stand for,
up to `quit`. The prompts and the echo of the batch mode are left out.
-/

namespace Sessions

open CStrings StreamIO HaltingRuns HelpDesk CommandLine QueueAgreement CommandLoop

def INPUT_BUFFER_SIZE : Nat := 256
def INPUT_ARG_MAX_NUM : Nat := 3
def DELIM : CString := text " \n"

def isDelim (b : Byte) : Bool := b ∈ DELIM

/-- A return value of -1 ends the loop. -/
def helpcentre (clock : Nat → Int) : Interpreter Desk NodeMemory.Fault Reply where
  process := processArgs clock
  quits := fun r => r.status = -1

def main (clock : Nat → Int) (stdin : List Byte) :
    Desk → Except NodeMemory.Fault (List (Shown Reply) × Desk) :=
  (helpcentre clock).main isDelim INPUT_ARG_MAX_NUM INPUT_BUFFER_SIZE stdin

section Commands

/-- The call that a command stands for; the others only print, or are refused. -/
def callOf : List CString → Option Call
  | [cmd, name] =>
    if cmd = text "give_up" then some (.giveUpWaiting name)
    else if cmd = text "add_ta" then some (.addTa name)
    else if cmd = text "remove_ta" then some (.removeTa name)
    else if cmd = text "next" then some (.takeNextOverall name)
    else none
  | [cmd, name, code] =>
    if cmd = text "add_student" then some (.addStudent name code)
    else if cmd = text "next" then some (.takeNextCourse name code)
    else none
  | _ => none

/-- The calls of the commands in front of the first `quit`. -/
def callsOf (commands : List (List CString)) : List Call :=
  (commands.takeWhile (· ≠ [text "quit"])).filterMap callOf

/-- A command line as the loop passes it on. -/
def bounded (argv : List CString) : Option (List CString) :=
  if argv.length ≤ INPUT_ARG_MAX_NUM then some argv else none

variable {clock : Nat → Int} {d d' : Desk} {argv : List CString} {r : Reply}

/-- A printing command leaves the desk alone. -/
theorem printed {α : Type} {x : Except NodeMemory.Fault α} {output : α → Output}
    (h : (x >>= fun a => .ok (shown (output a), d)) = .ok (r, d')) : d = d' ∧ r.status = 0 := by
  obtain ⟨a, _, h⟩ := bind_ok_iff.mp h
  obtain ⟨rfl, rfl⟩ := Prod.mk.inj (Except.ok.inj h)
  exact ⟨rfl, rfl⟩

theorem called {c : Call} {f : Nat × Desk → Reply}
    (h : ((call clock d c).map fun p => (f p, p.2)) = .ok (r, d'))
    (goes_on : ∀ p, (f p).status = 0) :
    run (step clock) d [c] = .ok d' ∧ r.status = 0 := by
  cases made : call clock d c with
  | error e => simp [made, Except.map] at h
  | ok p =>
    obtain ⟨rfl, rfl⟩ : f p = r ∧ p.2 = d' := by simpa [made, Except.map] using h
    exact ⟨by simp [run, step, made, bind, Except.bind], goes_on p⟩

/-- A command makes its call, and only `quit` ends the session. -/
theorem processArgs_calls (h : processArgs clock argv d = .ok (r, d')) :
    run (step clock) d (callOf argv).toList = .ok d' ∧ (r.status = -1 ↔ argv = [text "quit"]) := by
  have goes_on :
      argv ≠ [text "quit"] → run (step clock) d (callOf argv).toList = .ok d' ∧ r.status = 0 →
      run (step clock) d (callOf argv).toList = .ok d' ∧
        (r.status = -1 ↔ argv = [text "quit"]) := by
    rintro other ⟨ran, zero⟩
    exact ⟨ran, by simp [zero, other]⟩
  have refused :
      ∀ {x : Reply}, x.status = 0 → (Except.ok (x, d) : Except NodeMemory.Fault _) = .ok (r, d') →
      run (step clock) d [] = .ok d' ∧ r.status = 0 := by
    rintro x zero h
    obtain ⟨rfl, rfl⟩ := Prod.mk.inj (Except.ok.inj h)
    exact ⟨rfl, zero⟩
  match argv with
  | [] => exact goes_on (by simp) (refused rfl h)
  | [cmd] =>
    by_cases quit : cmd = text "quit"
    · subst quit
      rw [processArgs, if_pos rfl] at h
      obtain ⟨rfl, rfl⟩ := Prod.mk.inj (Except.ok.inj h)
      exact ⟨rfl, by simp⟩
    · have prints : d = d' ∧ r.status = 0 → run (step clock) d [] = .ok d' ∧ r.status = 0 := by
        rintro ⟨rfl, zero⟩
        exact ⟨rfl, zero⟩
      refine goes_on (by simpa using quit) ?_
      rw [processArgs, if_neg quit] at h
      by_cases help : cmd = text "help"
      · exact refused rfl (by rwa [if_pos help] at h)
      by_cases sleep : cmd = text "sleep"
      · exact refused rfl (by rwa [if_neg help, if_pos sleep] at h)
      by_cases full : cmd = text "print_full_queue"
      · rw [if_neg help, if_neg sleep, if_pos full] at h
        exact prints (printed h)
      by_cases serving : cmd = text "print_currently_serving"
      · rw [if_neg help, if_neg sleep, if_neg full, if_pos serving] at h
        exact prints (printed h)
      by_cases all : cmd = text "print_all_queues"
      · rw [if_neg help, if_neg sleep, if_neg full, if_neg serving, if_pos all] at h
        exact prints (printed h)
      · rw [if_neg help, if_neg sleep, if_neg full, if_neg serving, if_neg all] at h
        exact refused rfl h
  | [cmd, name] =>
    refine goes_on (by simp) ?_
    rw [callOf]
    by_cases stats : cmd = text "stats_by_course"
    · subst stats
      rw [processArgs_stats] at h
      cases numbers : statsByCourse name d with
      | error e => simp [numbers, Except.map] at h
      | ok n => exact refused (x := ⟨0, some 0, none,
            .stats n⟩) rfl (by simpa [numbers, Except.map] using h)
    by_cases giveUp : cmd = text "give_up"
    · subst giveUp
      rw [processArgs_giveUp] at h
      exact called h fun _ => rfl
    by_cases addTa : cmd = text "add_ta"
    · subst addTa
      obtain ⟨rfl, rfl⟩ : reply none none = r ∧ HelpDesk.addTa name d = d' := by
        simpa [processArgs, giveUp, stats] using h
      exact ⟨rfl, rfl⟩
    by_cases removeTa : cmd = text "remove_ta"
    · subst removeTa
      rw [processArgs_removeTa] at h
      exact called h fun _ => rfl
    by_cases next : cmd = text "next"
    · subst next
      rw [processArgs_next] at h
      exact called h fun _ => rfl
    · rw [processArgs, if_neg stats, if_neg giveUp, if_neg addTa, if_neg removeTa, if_neg next] at h
      rw [if_neg giveUp, if_neg addTa, if_neg removeTa, if_neg next]
      exact refused rfl h
  | [cmd, name, code] =>
    refine goes_on (by simp) ?_
    rw [callOf]
    by_cases add : cmd = text "add_student"
    · subst add
      rw [processArgs_addStudent] at h
      exact called h fun _ => rfl
    by_cases next : cmd = text "next"
    · subst next
      rw [processArgs_nextCourse] at h
      exact called h fun _ => rfl
    · rw [processArgs, if_neg add, if_neg next] at h
      rw [if_neg add, if_neg next]
      exact refused rfl h
  | _ :: _ :: _ :: _ :: _ => exact goes_on (by simp) (refused rfl h)

end Commands

section Results

variable {clock : Nat → Int} {config : List (CString × CString)}

/-- The state behind a session is the one behind the calls in front of `quit`. -/
theorem obey_calls (clock : Nat → Int) (commands : List (List CString)) {d d' : Desk}
    {output : List (Shown Reply)}
    (h : (helpcentre clock).obey (commands.map bounded) d = .ok (output, d')) :
    run (step clock) d (callsOf commands) = .ok d' := by
  induction commands generalizing d output with
  | nil =>
    obtain ⟨_, rfl⟩ := Prod.mk.inj (Except.ok.inj h)
    rfl
  | cons argv later ih =>
    rw [List.map_cons] at h
    rcases Interpreter.obey_cons h with ⟨passed, more, rest⟩ | ⟨words, r, m, same, _, made, quit⟩
    · have silent : callOf argv = none ∧ argv ≠ [text "quit"] := by
        rcases passed with tooMany | empty
        · have long : ¬ argv.length ≤ INPUT_ARG_MAX_NUM :=
            fun short => by simp [bounded, short] at tooMany
          match argv with
          | [] | [_] | [_, _] | [_, _, _] => exact absurd (show _ ≤ 3 by simp) long
          | _ :: _ :: _ :: _ :: _ => exact ⟨rfl, by simp⟩
        · rw [bounded] at empty
          split at empty
          · obtain rfl := Option.some.inj empty
            exact ⟨rfl, by simp⟩
          · cases empty
      rw [callsOf, List.takeWhile_cons_of_pos (by simpa using silent.2),
        List.filterMap_cons_none silent.1]
      exact ih rest
    · obtain rfl : argv = words := by
        rw [bounded] at same
        split at same
        · exact Option.some.inj same
        · cases same
      obtain ⟨ran, ends⟩ := processArgs_calls made
      rcases quit with ⟨quits, rfl⟩ | ⟨goes_on, more, rest⟩
      · obtain rfl := ends.mp (by simpa [helpcentre] using quits)
        simpa [callsOf, callOf] using ran
      · have other : argv ≠ [text "quit"] := fun quit => by
          have := ends.mpr quit
          simp [helpcentre, this] at goes_on
        rw [callsOf, List.takeWhile_cons_of_pos (by simpa using other)]
        have later := ih rest
        cases call : callOf argv with
        | none =>
          rw [call] at ran
          obtain rfl : d = m := by simpa [run] using ran
          rwa [List.filterMap_cons_none call]
        | some c =>
          rw [call, Option.toList_some] at ran
          rw [List.filterMap_cons_some call, ← List.singleton_append, run_append, ran]
          exact later

/-- The words on the lines of the input. -/
def commandsOf (stdin : List Byte) : List (List CString) :=
  (lines INPUT_BUFFER_SIZE stdin).map fun line => words isDelim (cstr line)

/-- `cmd_argv` never gets a fourth word, whatever is typed. -/
theorem main_eq (clock : Nat → Int) (stdin : List Byte) (d : Desk) :
    main clock stdin d = (helpcentre clock).obey ((commandsOf stdin).map bounded) d := by
  rw [main, Interpreter.main_eq]
  rfl

def SPACE : Byte := 32

theorem commandsOf_typed {commands : List (List CString)}
    (plain : ∀ argv ∈ commands, ∀ word ∈ argv, Plain isDelim word)
    (fits : ∀ argv ∈ commands, (typed SPACE argv).length < INPUT_BUFFER_SIZE) :
    commandsOf (commands.flatMap (typed SPACE)) = commands :=
  lines_typed (by decide) (by decide) (by decide) (by decide) plain fits

/-- Whatever is typed, a session obeys the words of its lines up to `quit`, and when it ends the
desk is the one that their calls leave, with queues that agree. Commands that are typed one a line
come out as they are. -/
theorem sessions (clock : Nat → Int) (config : List (CString × CString)) :
    (∀ stdin, main clock stdin (opened config) =
        (helpcentre clock).obey ((commandsOf stdin).map bounded) (opened config) ∧
      ∀ output d, main clock stdin (opened config) = .ok (output, d) →
        run (step clock) (opened config) (callsOf (commandsOf stdin)) = .ok d ∧ Agree d) ∧
    ∀ commands, (∀ argv ∈ commands, ∀ word ∈ argv, Plain isDelim word) →
      (∀ argv ∈ commands, (typed SPACE argv).length < INPUT_BUFFER_SIZE) →
      commandsOf (commands.flatMap (typed SPACE)) = commands := by
  refine ⟨fun stdin => ?_, fun commands plain fits => commandsOf_typed plain fits⟩
  have read := main_eq clock stdin (opened config)
  refine ⟨read, fun output d ended => ?_⟩
  rw [read] at ended
  have ran := obey_calls clock (commandsOf stdin) ended
  obtain ⟨q, rep, _⟩ := known_of_run _ (known_opened config) ran
  exact ⟨ran, agree_of_represents rep⟩

/-- A student is taken before the session is quit. -/
def afternoon : List (List CString) :=
  [[text "add_ta", text "tim"], [text "add_student", text "ann", text "CSC209"], [],
    [text "next", text "tim", text "CSC209", text "now"], [text "next", text "tim"], [text "quit"],
      [text "give_up", text "ann"]]

theorem sessions_afternoon :
    let config := [(text "CSC209", text "systems")]
    let calls := [Call.addTa (text "tim"), .addStudent (text "ann") (text "CSC209"),
      .takeNextOverall (text "tim")]
    commandsOf (afternoon.flatMap (typed SPACE)) = afternoon ∧
      ∃ output d,
        main (fun _ => 0) (afternoon.flatMap (typed SPACE)) (opened config) = .ok (output, d) ∧
        run (step fun _ => 0) (opened config) calls = .ok d ∧ Agree d := by
  intro config calls
  obtain ⟨each, reads⟩ := sessions (fun _ => 0) config
  have same : commandsOf (afternoon.flatMap (typed SPACE)) = afternoon :=
    reads afternoon (by decide +kernel) (by decide +kernel)
  obtain ⟨read, ended⟩ := each (afternoon.flatMap (typed SPACE))
  have done : (((helpcentre fun _ => 0).obey (afternoon.map bounded) (opened
        config)).toOption).isSome = true := by
    decide +kernel
  cases out : main (fun _ => 0) (afternoon.flatMap (typed SPACE)) (opened config) with
  | error e =>
    rw [← same, ← read, out] at done
    cases done
  | ok p =>
    obtain ⟨output, d⟩ := p
    have left := ended output d out
    rw [same] at left
    exact ⟨same, output, d, rfl, left⟩

end Results

end Sessions
