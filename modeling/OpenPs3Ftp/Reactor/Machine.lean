import OpenPs3Ftp.Lib.Behaviour
import OpenPs3Ftp.Worker.Transfer

/-! The running server: the reactor thread with its clients, the bounded queue of
jobs, the workers and the completion list (`server.c`, `datachan.c`). The reactor
makes its calls one at a time, and workers move between any two of them. Jobs and
clients have identities that are never used again. -/
namespace OpenPs3Ftp.Reactor
open Lib Text Session Commands Events Worker

abbrev ClientId := Nat

structure Flight where
  owner : ClientId
  job : Job
  deriving DecidableEq

structure Delivery where
  owner : ClientId
  posted : Posted
  deriving DecidableEq

def Delivery.flight (d : Delivery) : Flight := ⟨d.owner,d.posted.job⟩

inductive Ready where
  | client (id : ClientId) (revents : Revents)
  | listener (peers : List SockAddr)

def Ready.id? : Ready → Option ClientId
  | .client id _ => some id
  | .listener _ => none

inductive Phase where
  | waiting
  | draining (left : List Delivery)
  | serving (left : List Ready)

/- `task` is the code the reactor is in, for the client it runs it for. -/
structure State where
  clients : ClientId → Option Client
  nextClient : ClientId
  nextJob : JobId
  queue : List Flight
  running : List Flight
  completions : List Delivery
  phase : Phase
  task : Option (ClientId × Handler Client)

inductive Act where
  | wake
  | complete (delivery : Delivery)
  | collect (ready : List Ready)
  | event (id : ClientId) (root : Buffer 1024) (revents : Revents) (received : List Received)
  | accept (id : ClientId) (peer : SockAddr)
  | accepted
  | served
  | call (id : ClientId) (exchange : Exchange Answer)
  | finish (id : ClientId) (client : Client)
  | take (flight : Flight)
  | post (delivery : Delivery)

/- `queue_cap`. -/
def capacity (workers : Nat) : Nat := 2 * workers

/- Answers that depend on the rest of the server: a new job is a new one or none, and
dispatching succeeds when the queue has room. -/
def Answers (workers : Nat) (st : State) : (call : Call) → Answer call → Prop
  | .newJob _,answer => answer = none ∨ answer = some st.nextJob
  | .dispatch _,answer => answer = decide (st.queue.length < capacity workers)
  | _,_ => True

def answered (st : State) (id : ClientId) : (call : Call) → Answer call → State
  | .newJob _,answer => if answer = none then st else { st with nextJob := st.nextJob + 1 }
  | .dispatch job,answer => if answer then { st with queue := st.queue ++ [⟨id,job⟩] } else st
  | _,_ => st

section
variable (st : State) (id : ClientId) (call : Call) (answer : Answer call)

@[simp] theorem answeredClients : (answered st id call answer).clients = st.clients := by
  unfold answered
  split <;> first | rfl | split <;> rfl

@[simp] theorem answeredNextClient : (answered st id call answer).nextClient = st.nextClient := by
  unfold answered
  split <;> first | rfl | split <;> rfl

@[simp] theorem answeredPhase : (answered st id call answer).phase = st.phase := by
  unfold answered
  split <;> first | rfl | split <;> rfl

@[simp] theorem answeredRunning : (answered st id call answer).running = st.running := by
  unfold answered
  split <;> first | rfl | split <;> rfl

@[simp] theorem answeredCompletions : (answered st id call answer).completions = st.completions := by
  unfold answered
  split <;> first | rfl | split <;> rfl

end

def seated (st : State) (id : ClientId) (c : Client) : ClientId → Option Client :=
  fun other => if other = id then some c else st.clients other

def Collected (st : State) (ready : List Ready) : Prop :=
  (ready.filterMap Ready.id?).Nodup ∧
    ∀ id ∈ ready.filterMap Ready.id?, ∃ c, st.clients id = some c ∧ c.connected = true

inductive Step (workers : Nat) (s : Server) : State → Act → State → Prop where
  | wake {st} (idle : st.task = none) (at_ : st.phase = .waiting) :
      Step workers s st .wake { st with phase := .draining st.completions, completions := [] }
  | complete {st d left c} (idle : st.task = none) (at_ : st.phase = .draining (d :: left))
      (owner : st.clients d.owner = some c) :
      Step workers s st (.complete d)
        { st with phase := .draining left, task := some (d.owner,datachanComplete d.posted c) }
  | collect {st ready} (idle : st.task = none) (at_ : st.phase = .draining []) (collected : Collected st ready) :
      Step workers s st (.collect ready) { st with phase := .serving ready }
  | event {st id revents left c} (root received) (idle : st.task = none)
      (at_ : st.phase = .serving (.client id revents :: left)) (owner : st.clients id = some c) :
      Step workers s st (.event id root revents received)
        { st with phase := .serving left, task := some (id,handleClientEvents { s with root } revents received c) }
  | accept {st peer peers left} (idle : st.task = none)
      (at_ : st.phase = .serving (.listener (peer :: peers) :: left)) :
      Step workers s st (.accept st.nextClient peer)
        { st with phase := .serving (.listener peers :: left), nextClient := st.nextClient + 1,
                  task := some (st.nextClient,acceptClient s peer) }
  | accepted {st left} (idle : st.task = none) (at_ : st.phase = .serving (.listener [] :: left)) :
      Step workers s st .accepted { st with phase := .serving left }
  | served {st} (idle : st.task = none) (at_ : st.phase = .serving []) :
      Step workers s st .served { st with phase := .waiting }
  | call {st id call next} (answer) (busy : st.task = some (id,.ask call next)) (possible : Answers workers st call answer) :
      Step workers s st (.call id ⟨call,answer⟩) { answered st id call answer with task := some (id,next answer) }
  | finish {st id c} (busy : st.task = some (id,.done c)) :
      Step workers s st (.finish id c) { st with clients := seated st id c, task := none }
  | take {st f rest} (waiting : st.queue = f :: rest) (free : st.running.length < workers) :
      Step workers s st (.take f) { st with queue := rest, running := f :: st.running }
  /- A worker ends as some run of its transfer does, whatever it met on the way. -/
  | post {st f before after rounds trace posted} (busy : st.running = before ++ f :: after)
      (run : (transferRun rounds s f.job).Runs trace (some posted)) :
      Step workers s st (.post ⟨f.owner,posted⟩)
        { st with running := before ++ after, completions := ⟨f.owner,posted⟩ :: st.completions }

def Start (st : State) : Prop :=
  (∀ id, st.clients id = none) ∧ st.queue = [] ∧ st.running = [] ∧ st.completions = [] ∧ st.phase = .waiting ∧
    st.task = none

def reactor (workers : Nat) (s : Server) : System State Act where
  start := Start
  step := Step workers s

def drained (st : State) : List Delivery :=
  match st.phase with
  | .draining left => left
  | _ => []

def flights (st : State) : List Flight :=
  st.queue ++ st.running ++ (st.completions.map Delivery.flight ++ (drained st).map Delivery.flight)

def own (st : State) (id : ClientId) : List Flight := (flights st).filter (·.owner = id)

end OpenPs3Ftp.Reactor
