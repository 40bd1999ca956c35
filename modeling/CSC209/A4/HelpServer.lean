import CSC209.A4.HelpQueue
import CSC209.A4.InputBuffer
import Mathlib.Data.List.Sort

/-!
# The help-centre server of A4

`step` is one turn of the select loop in `A4/hcq_server.c`: either a call of
`select`, or the work on the next readable descriptor. What the kernel answers
is the input of a step. A freed client node stays visible where the code leaves
it linked, and a name that was never assigned is `none`, so that a run ends as
soon as the program reads or frees either.

A client node keeps three fields that no operation reads: the course line it
was enrolled with and the numbers of the queue nodes made by its own calls.
Running out of memory and writing past a block of memory are not modelled.
-/

namespace HelpServer

open CStrings HelpQueue InputBuffer

/-- The states that the server uses; nothing ever sets `T_HELPING_STATE`. -/
inductive ClientState where
  | waitingName
  | waitingType
  | waitingSCourse
  | waitingSCommand
  | waitingTCommand
  | disconnect
  deriving DecidableEq, Repr

inductive ClientType where
  | notSet
  | student
  | ta
  deriving DecidableEq, Repr

structure Client where
  id : Nat
  state : ClientState
  socket : Int
  input : Input
  name : Option CString
  type : ClientType
  freed : Bool
  chosen : Option CString
  entry : Option Nat
  taEntry : Option Nat
  deriving DecidableEq, Repr

/-- `readFdSet` holds the readable descriptors that the loop has still to visit, and
`openFds` the kernel's own record of the connections. -/
structure Server where
  clientList : List Client
  activeFdSet : List Int
  readFdSet : List Int
  queue : Queue
  listenFd : Int
  nextClient : Nat
  openFds : List (Int × Nat)
  sent : List (Nat × CString)

/-- The kernel's answers during one step, and what `malloc` returns uninitialised. -/
structure Event where
  ready : Option (List Int)
  accepted : Int
  bytes : Option (List Byte)
  writes : Int → Bool
  closes : Bool
  block : List Byte

/-- How the server can end: by its own `exit`, or by undefined behaviour. -/
inductive Halt where
  | exit
  | unsetName
  | freedClient
  | nullClient
  | badLength
  | fdRange
  deriving DecidableEq, Repr

def FD_SETSIZE : Int := 1024

def courses : List Course :=
  [⟨text "CSC108"⟩, ⟨text "CSC148"⟩, ⟨text "CSC209"⟩]

def WELCOME_MSG : CString := text "Welcome to the Help Centre, what is your name?\r\n"
def TYPE_MSG : CString := text "Are you a TA or a Student (enter T or S)?\r\n"
def VALID_COURSES_MSG : CString :=
  text "Valid courses: CSC108, CSC148, CSC209\r\nWhich course are you asking about?\r\n"
def SYNTAX_ERR_MSG : CString := text "Incorrect syntax\r\n"
def TA_COMMANDS_MSG : CString :=
  text "Valid commands for TA:\r\n\tstats\r\n\tnext\r\n\t(or use Ctrl-C to leave)\r\n"
def TA_INVALID_ROLE_MSG : CString := text "Invalid role (enter T or S)\r\n"
def STU_QUEUE_MSG : CString :=
  text "You have been entered into the queue. While you wait, you can " ++
    text "use the command stats to see which TAs are currently serving students.\r\n"
def STU_INVALID_COURSE_MSG : CString := text "This is not a valid course. Good-bye.\r\n"
def STU_ACCEPT_MSG : CString :=
  text "Your turn to see the TA.\r\n" ++
    text "We are disconnecting you from the server now. Press Ctrl-C to close nc\r\n"

section Replies

variable (block : List Byte)

/-- The reply is appended to whatever string the fresh block holds. -/
def printCurrentlyServing (taList : List Ta) : CString :=
  cstr block ++
    if taList = [] then text "No TAs are currently working.\r\n"
    else taList.flatMap fun t => match t.currentStudent with
      | some s => text "TA: " ++ t.name ++ text " is serving " ++ s.name ++ text ".\r\n"
      | none => text "TA: " ++ t.name ++ text " has no student\r\n"

def printFullQueue (stuList : List Student) : CString :=
  cstr block ++ text "Full Queue\r\n" ++
    stuList.flatMap fun s => text "Student " ++ s.name ++ text ":" ++ s.course.code ++ text "\r\n"

end Replies

/-- The walk of `find_client` over the list; NULL is `none`. -/
def findClient (fd : Int) : List Client → Except Halt (Option Client)
  | [] => .ok none
  | c :: rest =>
    if c.freed then .error .freedClient
    else if c.socket = fd then .ok (some c)
    else findClient fd rest

/-- The client whose name is the student's, by `strcmp` from the head of the list. -/
def findClientStudent (student : Student) : List Client → Except Halt (Option Client)
  | [] => .ok none
  | c :: rest =>
    if c.freed then .error .freedClient
    else match c.name with
      | none => .error .unsetName
      | some name => if name = student.name then .ok (some c) else findClientStudent student rest

/-- Reading or freeing `client->name`. -/
def Client.useName (c : Client) : Except Halt CString :=
  match c.name with
  | none => .error .unsetName
  | some name => .ok name

namespace Server

variable (s : Server) (e : Event)

/-- Assignments to the fields of one node. -/
def modify (id : Nat) (f : Client → Client) : Server :=
  { s with clientList := s.clientList.map fun c => if c.id = id then f c else c }

def write (client : Client) (msg : CString) : Except Halt Server :=
  if 0 ≤ client.socket ∧ e.writes client.socket then
    .ok { s with sent := s.sent ++ [(client.id, msg)] }
  else .error .exit

/-- The new node, linked behind the last one. -/
def addClient (fd : Int) : Except Halt Server :=
  let client : Client :=
    { id := s.nextClient, state := .waitingName, socket := fd,
      input := Input.start (e.block.getD 0 NUL) (e.block.getD 1 NUL), name := none, type := .notSet,
      freed := false, chosen := none, entry := none, taEntry := none }
  if s.clientList.any Client.freed then .error .freedClient
  else { s with
    clientList := s.clientList ++ [client]
    nextClient := s.nextClient + 1
    openFds := s.openFds ++ [(fd, s.nextClient)] }.write e client WELCOME_MSG

/-- `FD_SET` on `active_fd_set`, which is kept in ascending order. -/
def fdSet (fd : Int) : Except Halt Server :=
  if 0 ≤ fd ∧ fd < FD_SETSIZE then
    .ok { s with activeFdSet :=
      if fd ∈ s.activeFdSet then s.activeFdSet else s.activeFdSet.orderedInsert (· ≤ ·) fd }
  else .error .fdRange

/-- Behind the head the loop only moves its own pointer, which unlinks nothing. -/
def unlink (client : Client) : List Client → List Client
  | [] => []
  | head :: rest => if client.socket = head.socket then rest else head :: rest

/-- The queue without the entry that the name of a departing client selects. -/
def cleanUp (client : Client) : Except Halt Queue :=
  match client.type with
  | .notSet => .ok s.queue
  | .student => do
    let name ← client.useName
    .ok (s.queue.giveUpWaiting name).2
  | .ta => do
    let name ← client.useName
    .ok (s.queue.removeTa name).2

def removeClient (fd : Int) : Except Halt Server := do
  match ← findClient fd s.clientList with
  | none => .ok s
  | some client =>
    let queue ← s.cleanUp client
    let clientList := unlink client s.clientList
    let _ ← client.useName
    if e.closes then
      .ok { s with
        clientList :=
          clientList.map fun c => if c.id = client.id then { c with freed := true } else c
        queue := queue
        openFds := s.openFds.filter fun o => o.1 ≠ fd
        activeFdSet := s.activeFdSet.filter fun a => a ≠ fd }
    else .error .exit

/-- The part of `next` that tells the head of the queue to come. -/
def callStudent : Except Halt Server :=
  match s.queue.stuList with
  | [] => .ok s
  | student :: _ => do
    match ← findClientStudent student s.clientList with
    | none => .error .nullClient
    | some toServe =>
      let s ← s.write e toServe STU_ACCEPT_MSG
      .ok (s.modify toServe.id fun c => { c with state := .disconnect })

/-- The `switch` of `handle_client` on a complete command. -/
def execute (client : Client) (command : CString) : Except Halt Server :=
  match client.state with
  | .waitingName => do
    let s ← s.write e client TYPE_MSG
    .ok (s.modify client.id fun c => { c with name := some command, state := .waitingType })
  | .waitingType =>
    if command = text "S" then do
      let s ← s.write e client VALID_COURSES_MSG
      .ok (s.modify client.id fun c => { c with type := .student, state := .waitingSCourse })
    else if command = text "T" then do
      let name ← client.useName
      let s ← s.write e client TA_COMMANDS_MSG
      .ok ({ s with queue := s.queue.addTa name }.modify client.id fun c =>
        { c with type := .ta, state := .waitingTCommand, taEntry := some s.queue.nextTa })
    else s.write e client TA_INVALID_ROLE_MSG
  | .waitingSCourse =>
    if ∃ c ∈ courses, command = c.code then do
      let name ← client.useName
      let r := s.queue.addStudent courses name command
      let made := if r.1 = 0 then some s.queue.nextStudent else none
      let s ← s.write e client STU_QUEUE_MSG
      .ok ({ s with queue := r.2 }.modify client.id fun c =>
        { c with state := .waitingSCommand, chosen := some command, entry := made })
    else do
      let s ← s.write e client STU_INVALID_COURSE_MSG
      .ok (s.modify client.id fun c => { c with state := .disconnect })
  | .waitingSCommand =>
    if command = text "stats" then
      s.write e client (printCurrentlyServing e.block s.queue.taList)
    else s.write e client SYNTAX_ERR_MSG
  | .waitingTCommand =>
    if command = text "stats" then s.write e client (printFullQueue e.block s.queue.stuList)
    else if command = text "next" then do
      let s ← s.callStudent e
      let name ← client.useName
      .ok { s with queue := (s.queue.nextOverall name).2 }
    else s.write e client SYNTAX_ERR_MSG
  | .disconnect => .ok s

def setInput (client : Client) (input : Input) : Server :=
  s.modify client.id fun c => { c with input := input }

/-- A read of nothing at end of file is not told apart from other reads. -/
def handleClient (client : Client) : Except Halt Server :=
  if client.input.inbuf < INPUT_BUFFER_SIZE then
    match e.bytes with
    | none => .error .exit
    | some bytes =>
      let input := client.input.received (bytes.take client.input.room.toNat)
      match input.newline with
      | none => .ok (s.setInput client input.pointed)
      | some w => do
        let s ← s.execute e client (input.command w)
        if input.inbuf < w then .error .badLength
        else .ok (s.setInput client (input.shifted w).pointed)
  else s.removeClient e client.socket

/-- The body of the loop over the descriptors. The test after `accept` looks at the
listening descriptor, so a failed `accept` goes on with the descriptor -1. -/
def serve (fd : Int) : Except Halt Server := do
  if fd = s.listenFd then
    let s ← s.addClient e e.accepted
    s.fdSet e.accepted
  else match ← findClient fd s.clientList with
    | none => .error .nullClient
    | some client =>
      if client.state = .disconnect then s.removeClient e fd
      else s.handleClient e client

/-- A call of `select` when no readable descriptor is left, else the next descriptor. -/
def step : Except Halt Server :=
  match s.readFdSet with
  | [] =>
    match e.ready with
    | none => .error .exit
    | some ready => .ok { s with readFdSet := s.activeFdSet.filter fun fd => fd ∈ ready }
  | fd :: rest => { s with readFdSet := rest }.serve e fd

end Server

/-- The server when its loop begins. -/
def start (listenFd : Int) : Server where
  clientList := []
  activeFdSet := [listenFd]
  readFdSet := []
  queue := Queue.empty
  listenFd := listenFd
  nextClient := 0
  openFds := []
  sent := []

/-- The kernel never hands out a descriptor that is still open. -/
def Legal (s : Server) (e : Event) : Prop :=
  e.accepted < 0 ∨ e.accepted ≠ s.listenFd ∧ ∀ o ∈ s.openFds, o.1 ≠ e.accepted

instance (s : Server) (e : Event) : Decidable (Legal s e) :=
  inferInstanceAs (Decidable (_ ∨ _ ∧ _))

section Scripts

/-- A kernel on which every call succeeds and nothing happens. -/
def quiet : Event where
  ready := some []
  accepted := -1
  bytes := some []
  writes := fun _ => true
  closes := true
  block := []

/-- The descriptor becomes readable and is visited; the server listens on 3. -/
def visits (fd : Int) (e : Event) : List Event :=
  [{ quiet with ready := some [fd] }, e]

def connects (fd : Int) : List Event :=
  visits 3 { quiet with accepted := fd }

def sends (fd : Int) (line : CString) : List Event :=
  visits fd { quiet with bytes := some (line ++ [CR, LF]) }

/-- The visit to a client that has sent `next`. -/
def asksNext : Event :=
  { quiet with bytes := some (text "next" ++ [CR, LF]) }

end Scripts

end HelpServer
