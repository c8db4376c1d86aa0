import Mathlib.Logic.Function.Basic
import OpenPs3Ftp.Reactor.Machine

/-! `opftp_reactor_loop` as a whole, around the reactor's work on clients and jobs: the
stop flag, the lines that other threads hand over to be written, the references to
client objects, and the end of the loop with everything after it (`server.c`,
`client.c`). Any number of threads send lines at any time. -/
namespace OpenPs3Ftp.Service
open Lib Text Session Commands Events Worker Reactor

/- `struct opftp_pending_reply`. -/
structure Pending where
  owner : ClientId
  generation : Nat
  text : Bytes
  deriving DecidableEq

inductive Poll where | ready | failed
  deriving DecidableEq

inductive Point where
  | round (poll : Poll)
  | first
  | last
  deriving DecidableEq

/- Where the reactor thread is. `entering` is the beginning of `opftp_client_drain_replies`,
`completing` is `drain_completions`; while `serving`, a handled event is followed by a
look at the stop flag. -/
inductive Place where
  | top
  | entering (point : Point)
  | replying (point : Point) (left : List Pending)
  | completing (point : Point)
  | serving (look : Bool)
  | dropping
  | ended

/- `stamped` lines have a generation and no reference yet, `retained` ones are about to
be linked, `linked` is the queue. -/
structure State where
  core : Reactor.State
  place : Place
  stopping : Bool
  refs : ClientId → Int
  freed : ClientId → Nat
  stamped : List Pending
  retained : List Pending
  linked : List Pending

def retain (st : State) (id : ClientId) : State :=
  { st with refs := Function.update st.refs id (st.refs id + 1) }

/- `opftp_client_release`: whoever drops the last reference frees the client. -/
def release (st : State) (id : ClientId) : State :=
  { st with refs := Function.update st.refs id (st.refs id - 1)
            freed := if st.refs id = 1 then Function.update st.freed id (st.freed id + 1) else st.freed }

/- The end of `opftp_datachan_complete` drops the reference of the job, and the end of
`client_disconnect`, which alone changes the generation, that of the reactor. -/
def releases (st : State) (id : ClientId) (c : Client) : Bool :=
  match st.place with
  | .completing _ => true
  | _ => (st.core.clients id).any (·.generation ≠ c.generation)

def counted (st : State) : Act → State
  | .accept id _ => { st with refs := Function.update st.refs id 1 }
  | .call id ⟨.newJob _,answer⟩ => if answer = none then st else retain st id
  | .call id ⟨.freeJob _,_⟩ => release st id
  | .call _ ⟨.stop,_⟩ => { st with stopping := true }
  | .finish id c => if releases st id c then release st id else st
  | _ => st

def Fits (place : Place) : Act → Prop
  | .wake => ∃ point, place = .replying point [] ∧ point ≠ .last
  | .complete _ => ∃ point, place = .completing point
  | .collect _ => place = .completing (.round .ready)
  | .event .. | .accept .. | .accepted | .served => place = .serving false
  | _ => True

def moved (place : Place) : Act → Place
  | .wake =>
    match place with
    | .replying point _ => .completing point
    | place => place
  | .collect _ => .serving false
  | .event .. => .serving true
  | .served => .top
  | _ => place

def after (st : State) (act : Act) (core : Reactor.State) : State :=
  { counted st act with core, place := moved st.place act }

/- `opftp_client_send_raw` from the reactor: nothing goes to a closed socket. -/
def written (c : Client) (p : Pending) : Bool := c.generation = p.generation ∧ c.connected

/- A sender reads the generation as it is stored, which `client_disconnect` changes
before it closes the listener. -/
def Reads (core : Reactor.State) (id : ClientId) (generation : Nat) : Prop :=
  (∃ c, core.clients id = some c ∧ generation = c.generation) ∨
    ∃ c : Client, core.task = some (id,closeSome c.pasvFd >>= fun _ => pure (gone c)) ∧
      generation = (gone c).generation

def listed (core : Reactor.State) (id : ClientId) : Bool := (core.clients id).any (·.connected)

inductive Move where
  | core (act : Act)
  | poll (outcome : Poll)
  | leave
  | grab
  | reply (pending : Pending) (written : Bool)
  | look
  | broke
  | drained
  | drop (id : ClientId)
  | dropped
  | closed
  | refuse (id : ClientId)
  | stamp (pending : Pending)
  | retain (pending : Pending)
  | link (pending : Pending)
  | stop

inductive Step (workers : Nat) (s : Server) : State → Move → State → Prop where
  | core {st act core} (fits : Fits st.place act) (step : Reactor.Step workers s st.core act core) :
      Step workers s st (.core act) (after st act core)
  | poll {st} (outcome) (at_ : st.place = .top) (going : st.stopping = false) :
      Step workers s st (.poll outcome) { st with place := .entering (.round outcome) }
  | leave {st} (at_ : st.place = .top) (asked : st.stopping = true) :
      Step workers s st .leave { st with place := .entering .first }
  | grab {st point} (at_ : st.place = .entering point) :
      Step workers s st .grab { st with place := .replying point st.linked, linked := [] }
  | reply {st point p left c} (at_ : st.place = .replying point (p :: left)) (owner : st.core.clients p.owner = some c) :
      Step workers s st (.reply p (written c p)) (release { st with place := .replying point left } p.owner)
  /- After an event the loop over the ready clients ends where a stop has been asked for. -/
  | look {st} (at_ : st.place = .serving true) (idle : st.core.task = none) :
      Step workers s st .look
        (if st.stopping then { st with place := .top, core := { st.core with phase := .waiting } }
        else { st with place := .serving false })
  | broke {st} (at_ : st.place = .completing (.round .failed)) (idle : st.core.task = none)
      (empty : st.core.phase = .draining []) :
      Step workers s st .broke { st with place := .entering .first, core := { st.core with phase := .waiting } }
  | drained {st} (at_ : st.place = .completing .first) (idle : st.core.task = none)
      (empty : st.core.phase = .draining []) :
      Step workers s st .drained { st with place := .dropping, core := { st.core with phase := .waiting } }
  /- The first of the list is the client that came last. -/
  | drop {st id c} (at_ : st.place = .dropping) (idle : st.core.task = none) (owner : st.core.clients id = some c)
      (here : c.connected = true) (first : ∀ other, id < other → listed st.core other = false) :
      Step workers s st (.drop id) { st with core := { st.core with task := some (id,clientDisconnect c) } }
  | dropped {st} (at_ : st.place = .dropping) (idle : st.core.task = none) (none : ∀ id, listed st.core id = false) :
      Step workers s st .dropped { st with place := .entering .last }
  | closed {st} (at_ : st.place = .replying .last []) :
      Step workers s st .closed { st with place := .ended }
  | refuse {st peer peers left} (at_ : st.place = .serving false) (idle : st.core.task = none)
      (ready : st.core.phase = .serving (.listener (peer :: peers) :: left)) :
      Step workers s st (.refuse st.core.nextClient)
        (release { st with refs := Function.update st.refs st.core.nextClient 1
                           core := { st.core with phase := .serving (.listener peers :: left)
                                                  nextClient := st.core.nextClient + 1 } } st.core.nextClient)
  | stamp {st} (p : Pending) (reads : Reads st.core p.owner p.generation) :
      Step workers s st (.stamp p) { st with stamped := p :: st.stamped }
  | retain {st p before after} (held : st.stamped = before ++ p :: after) :
      Step workers s st (.retain p) (retain { st with stamped := before ++ after, retained := p :: st.retained } p.owner)
  | link {st p before after} (held : st.retained = before ++ p :: after) :
      Step workers s st (.link p) { st with retained := before ++ after, linked := st.linked ++ [p] }
  | stop {st} : Step workers s st .stop { st with stopping := true }

def Start (st : State) : Prop :=
  Reactor.Start st.core ∧ st.core.nextClient = 0 ∧ st.place = .top ∧ st.stopping = false ∧ (∀ id, st.refs id = 0) ∧
    (∀ id, st.freed id = 0) ∧ st.stamped = [] ∧ st.retained = [] ∧ st.linked = []

def service (workers : Nat) (s : Server) : System State Move where
  start := Start
  step := Step workers s

def inHand (st : State) : List Pending :=
  match st.place with
  | .replying _ left => left
  | _ => []

def lines (st : State) : List Pending := inHand st ++ st.linked ++ st.retained
def naming (id : ClientId) (ps : List Pending) : List Pending := ps.filter (·.owner = id)

def Referenced (st : State) : Move → Prop
  | .stamp p | .retain p => 0 < st.refs p.owner
  | _ => True

end OpenPs3Ftp.Service
