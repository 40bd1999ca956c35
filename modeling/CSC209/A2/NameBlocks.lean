import CSC209.A2.CommandLine

/-!
# The block of a student's name

`new_student` of `A2/hcq.c` asks `malloc` for as many bytes as the name has,
and `strcpy` writes a NUL behind them. How large the block is then is up to
`malloc`, which may answer differently in each state; where it gives no more
than it was asked for, the write passes the end of the block and halts the run.
In everything else these are the calls and the commands of the help centre.
-/

namespace NameBlocks

open CStrings NodeMemory HaltingRuns HelpDesk

/-- What a common `malloc` gives for a request: 24, 40, 56 bytes and so on. -/
def usableSize (n : Nat) : Nat := max 24 ((n + 23) / 16 * 16 - 8)

section Calls

variable (clock : Nat → Int) (block : Desk → Nat → Nat)

/-- The name of a new student fills its block; an unknown course is refused before. -/
def Overruns (d : Desk) : Call → Prop
  | .addStudent name code =>
    (findCourse d.courses code).isSome ∧ block d name.length ≤ name.length
  | _ => False

instance (d : Desk) : (a : Call) → Decidable (Overruns block d a)
  | .addStudent .. => inferInstanceAs (Decidable (_ ∧ _))
  | .giveUpWaiting _ | .addTa _ | .removeTa _ | .takeNextOverall _ | .takeNextCourse .. =>
    inferInstanceAs (Decidable False)

def call : Desk → Call → Except Fault (Nat × Desk) :=
  guarded (Overruns block) .overrun (HelpDesk.call clock)

def step : Desk → Call → Except Fault Desk :=
  guarded (Overruns block) .overrun (HelpDesk.step clock)

/-- The command line adds a student whose name fills its block. -/
def Fills (d : Desk) : List CString → Prop
  | [cmd, name, code] => cmd = text "add_student" ∧ Overruns block d (.addStudent name code)
  | _ => False

instance (d : Desk) : (argv : List CString) → Decidable (Fills block d argv)
  | [_, _, _] => inferInstanceAs (Decidable (_ ∧ _))
  | [] | [_] | [_, _] | _ :: _ :: _ :: _ :: _ => inferInstanceAs (Decidable False)

def processArgs (argv : List CString) (d : Desk) : Except Fault (CommandLine.Reply × Desk) :=
  guarded (Fills block) .overrun (fun d argv => CommandLine.processArgs clock argv d) d argv

variable {clock block} {d : Desk} {argv : List CString}

theorem processArgs_of_fills (fills : Fills block d argv) :
    processArgs clock block argv d = .error .overrun :=
  guarded_of_bad fills

theorem processArgs_of_fits (fits : ¬ Fills block d argv) :
    processArgs clock block argv d = CommandLine.processArgs clock argv d :=
  guarded_of_good fits

end Calls

end NameBlocks
