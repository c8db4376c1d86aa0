import OpenPs3Ftp.Turns
import OpenPs3Ftp.Legacy.Base
import OpenPs3Ftp.Worker.Transfer

/-! The legacy server on the core (`ftpserver.c`, `ftpcommand.c`): old handlers laid over
the core's command table, the connect and disconnect hooks, and the whole as a system in
which the reactor, the data executors and the core's workers take their calls in turn. -/
namespace OpenPs3Ftp.Legacy
open Lib Text Fs Session Dispatch Events Worker

inductive Handle where
  | builtin (command : Command)
  | legacy (name : Bytes)
  deriving DecidableEq

/- `opftp_commands_init`, then `legacy_command_overlay`. -/
@[irreducible] def legacyCommandOverlay (allowStop : Bool) : Table Handle :=
  (Table.empty.registerAll ((builtin allowStop).map fun e => (e.1,.builtin e.2))).registerAll
    (baseCommandImport.map fun e => (e.1,.legacy (ascii e.1)))

variable (u : Setup) (c : Client) (name : Bytes) (param : Option Bytes)

def commandCall : Option Base := (baseCommandImport.find? fun e => ascii e.1 = name).map (·.2)

def legacyDispatchAdapter : Routine Unit := do
  if ← ask .userdata then
    match commandCall name with
    | none => sendReply 502 (ascii "Command not implemented.")
    | some base => do
      base.run u c name (param.getD [])
      put (.lastcmd name)
  else return

def Handle.run : Handle → Routine Client
  | .builtin command => onCore (command.run u.server c param)
  | .legacy name => do
    legacyDispatchAdapter u c name param
    return c

def dispatchCall : Routine (Option Client) :=
  match (legacyCommandOverlay u.server.allowStop).lookup name with
  | none => return none
  | some handle => do
    ask (.core (.enter name c))
    return some (← handle.run u c param)

def processLine (line : Bytes) : Routine Client :=
  let name := (commandName line).map toupper
  if name = [] then return c
  else if ¬ c.loggedIn ∧ ¬ preloginCommand name then do
    sendReply 530 (ascii "Not logged in.")
    return c
  else do
    match ← dispatchCall u c name (some (lineParam line)) with
    | some c => return c
    | none => do
      sendReply 502 (ascii "Command not implemented.")
      return c

def allocated : Routine Bool := do
  let cvar ← ask .malloc
  let control ← ask .malloc
  let data ← ask .malloc
  let command ← ask .malloc
  let mutex ← ask .malloc
  return cvar && control && data && command && mutex

def shimOnConnect : Routine (Client × Option Facade) := do
  if ← ask .malloc then
    if ← allocated then
      if ← ask .slot then do
        let f ← baseConnect
        sendReply 220 (ascii "OpenPS3FTP ready.")
        return ({ c with loggedIn := true },some f)
      else return (c,none)
    else return (c,none)
  else return (c,none)

def awaitIdle : Nat → Routine Unit
  | 0 => return
  | left + 1 => do
    if (← load).jobActive then do
      ask (.usleep 2000)
      awaitIdle left
    else return

def shimOnDisconnect : Routine Unit := do
  if ← ask .userdata then do
    locked do
      put (.cancel true)
      match (← load).socketData with
      | none => return
      | some fd => ask (.shutdown fd)
    awaitIdle 1000
    match (← load).socketPasv with
    | none => return
    | some fd => do
      closeFd fd
      put (.socketPasv none)
  else return

def turnRun : Turn → Routine Client
  | .line text => processLine u c text
  | .urgent => do return (← dispatchCall u c (ascii "ABOR") none).getD c
  | .drop => do
    let c ← onCore (clientDisconnect c)
    shimOnDisconnect
    return c
  | .buffer rbuf => onCore (Turn.run u.server c (.buffer rbuf))
  | .leave => onCore (Turn.run u.server c .leave)
  | .shake => onCore (Turn.run u.server c .shake)
  | .complete posted => onCore (Turn.run u.server c (.complete posted))

inductive Thread where
  | reactor
  | executor (index : Nat)
  deriving DecidableEq

/- Executors and jobs stay in their lists when they are done, so an index names one. -/
structure State where
  core : Client
  facade : Option Facade
  mutex : Option Thread
  task : Option (Routine Client)
  executors : List (Routine Unit)
  jobs : List (Worker.Routine Posted)

inductive Act where
  | turn (turn : Turn)
  | finish
  | call (thread : Thread) (e : Exchange Ask.Answer)
  | work (index : Nat) (e : Exchange Work.Answer)

def Possible (st : State) : (call : Ask) → call.Answer → Prop
  | .userdata,answer => answer = st.facade.isSome
  | .load,f => st.facade = some f
  | .lock,_ => st.mutex = none
  | _,_ => True

def Plain : (call : Ask) → call.Answer → Prop
  | .store _,_ | .lock,_ | .unlock,_ | .dispatch _,_ => False
  | .core (.dispatch _),answer => answer = false
  | _,_ => True

/- What a call changes. The bounds of the loops it starts are whatever they need. -/
inductive Changes (u : Setup) (who : Thread) (st : State) : Exchange Ask.Answer → State → Prop where
  | store (field : Store) :
      Changes u who st ⟨.store field,()⟩ { st with facade := st.facade.map (·.set field) }
  | lock : Changes u who st ⟨.lock,()⟩ { st with mutex := some who }
  | unlock : Changes u who st ⟨.unlock,()⟩ { st with mutex := none }
  | dispatch (event : PollEvent) (rounds : Nat) :
      Changes u who st ⟨.dispatch event,()⟩ { st with executors := st.executors ++ [dataExecutor rounds u event] }
  | job (job : Job) (rounds : Nat) :
      Changes u who st ⟨.core (.dispatch job),true⟩ { st with jobs := st.jobs ++ [transferRun rounds u.server job] }
  | other {call : Ask} {answer : call.Answer} (plain : Plain call answer) : Changes u who st ⟨call,answer⟩ st

inductive Step (u : Setup) : State → Act → State → Prop where
  | turn {st} (turn : Turn) (free : st.task = none) (ready : turn.Ready st.core) :
      Step u st (.turn turn) { st with task := some (turnRun u st.core turn) }
  | finish {st c} (ended : st.task = some (.done (some c))) :
      Step u st .finish { st with core := c, task := none }
  | reactor {st st' call next answer} (busy : st.task = some (.ask call next)) (possible : Possible st call answer)
      (changes : Changes u .reactor { st with task := some (next answer) } ⟨call,answer⟩ st') :
      Step u st (.call .reactor ⟨call,answer⟩) st'
  | executor {st st' index call next answer} (running : st.executors[index]? = some (.ask call next))
      (possible : Possible st call answer)
      (changes : Changes u (.executor index) { st with executors := st.executors.set index (next answer) }
        ⟨call,answer⟩ st') :
      Step u st (.call (.executor index) ⟨call,answer⟩) st'
  | work {st index call next answer} (running : st.jobs[index]? = some (.ask call next)) :
      Step u st (.work index ⟨call,answer⟩) { st with jobs := st.jobs.set index (next answer) }

def shim : System State Act where
  start st := ∃ peer greeting c trace core facade, (acceptClient u.server peer).Runs greeting c ∧
    (shimOnConnect c).Runs trace (some (core,facade)) ∧ st = ⟨core,facade,none,none,[],[]⟩
  step := Step u

def changed (who : Thread) (st : State) : (call : Ask) → call.Answer → State
  | .store field,_ => { st with facade := st.facade.map (·.set field) }
  | .lock,_ => { st with mutex := some who }
  | .unlock,_ => { st with mutex := none }
  | .dispatch event,_ => { st with executors := st.executors ++ [dataExecutor 1 u event] }
  | .core (.dispatch job),true => { st with jobs := st.jobs ++ [transferRun 1 u.server job] }
  | _,_ => st

theorem changedChanges (u who st call answer) : Changes u who st ⟨call,answer⟩ (changed u who st call answer) := by
  cases call with
  | store field => exact .store field
  | lock => exact .lock
  | unlock => exact .unlock
  | dispatch event => exact .dispatch event 1
  | core call =>
    cases call with
    | dispatch job =>
      cases answer with
      | true => exact .job job 1
      | false => exact .other rfl
    | _ => exact .other trivial
  | _ => exact .other trivial

def blank : Facade where
  cwd := []
  user := []
  rnfr := []
  auth := false
  fd := none
  rest := 0
  portAddr := none
  lastcmd := []
  socketData := none
  socketPasv := none
  cbData := none
  jobActive := false
  cancel := false
  dataGo := false

def answerOf (st : State) (oracle : (call : Ask) → call.Answer) : (call : Ask) → call.Answer
  | .userdata => st.facade.isSome
  | .load => st.facade.getD blank
  | call => oracle call

/- Whether the call can be answered so: there is a record to load, and the lock is free. -/
def answerable (st : State) : Ask → Bool
  | .load => st.facade.isSome
  | .lock => st.mutex.isNone
  | _ => true

theorem answerOfPossible {st oracle call} (free : answerable st call = true) :
    Possible st call (answerOf st oracle call) := by
  cases call with
  | userdata => exact rfl
  | load =>
    obtain ⟨f,here⟩ := Option.isSome_iff_exists.mp free
    simp [Possible,answerOf,here]
  | lock => exact Option.isNone_iff_eq_none.mp free
  | _ => exact trivial

def State.next (oracle : (call : Ask) → call.Answer) (st : State) : State :=
  match st.task with
  | some (.ask call next) =>
    if answerable st call then
      changed u .reactor { st with task := some (next (answerOf st oracle call)) } call (answerOf st oracle call)
    else st
  | some (.done (some c)) => { st with core := c, task := none }
  | _ => st

def State.nexts (u : Setup) (oracle : (call : Ask) → call.Answer) : Nat → State → State
  | 0,st => st
  | n + 1,st => (st.next u oracle).nexts u oracle n

theorem nextReach {u ok st} (oracle) (free : ∀ st e, ok st (.call .reactor e)) (ends : ∀ st, ok st .finish)
    (reached : (shim u).Reach ok st) : (shim u).Reach ok (st.next u oracle) := by
  unfold State.next
  split
  · rename_i call next busy
    split
    · rename_i can
      exact .step reached (free _ _) (.reactor busy (answerOfPossible can) (changedChanges u .reactor _ call _))
    · exact reached
  · rename_i c ended
    exact .step reached (ends _) (.finish ended)
  · exact reached

theorem nextsReach {u ok} (oracle) (free : ∀ st e, ok st (.call .reactor e)) (ends : ∀ st, ok st .finish) (n) {st}
    (reached : (shim u).Reach ok st) : (shim u).Reach ok (st.nexts u oracle n) := by
  induction n generalizing st with
  | zero => exact reached
  | succ n ih => exact ih (nextReach oracle free ends reached)

end OpenPs3Ftp.Legacy
