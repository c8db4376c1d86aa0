import OpenPs3Ftp.Reactor.Machine
import OpenPs3Ftp.Descriptors.Shelf
import OpenPs3Ftp.Descriptors.Hands

/-! The running server with the descriptors of its data connections. The reactor and the
workers make their calls one at a time and in any order. The kernel gives out any number
that is not open; files, control connections and the wake pipe have numbers of their own,
which nothing here is given. -/
namespace OpenPs3Ftp.Descriptors
open Lib Text Fs Session Commands Events Worker Reactor

inductive Owner where
  | client (id : ClientId)
  | listener (job : JobId)
  | data (job : JobId)
  | reader (job : JobId)
  | writer (job : JobId)
  deriving DecidableEq

structure Hand where
  rounds : Nat
  trace : Work.Trace
  left : Routine Posted
  data : Option Fd

/- `table` is the kernel's, with the owners; `pipes` are the cancel pipes of the jobs there
are. The other fields say where the reactor's code is: `setting` as for a shelf, `spare`
is the job it has made and not yet handed over or freed, `refused` whether the pool
refused the last one, `closing` the completed job whose pipe is still to be closed. -/
structure State where
  core : Reactor.State
  table : Fd → Option Owner
  pipes : JobId → Option (Fd × Fd)
  hands : JobId → Option Hand
  setting : Bool
  spare : Option JobId
  refused : Bool
  closing : Option JobId

def closePipe (st : State) (job : JobId) : State :=
  match st.pipes job with
  | none => st
  | some (r,w) =>
    { st with table := Function.update (Function.update st.table r none) w none
              pipes := Function.update st.pipes job none }

def lend (st : State) (job : Job) : State :=
  match job.pasvFd with
  | none => st
  | some fd => { st with table := Function.update st.table fd (some (.listener job.id)) }

def called (st : State) (id : ClientId) : (call : Call) → Answer call → State
  | .enter name _,_ => { st with setting := setups.contains name }
  | .send ..,_ => { st with setting := false }
  | .socket _,answer =>
    match answer with
    | none => st
    | some fd => { st with table := Function.update st.table fd (some (.client id)) }
  | .closeFd fd,_ => { st with table := Function.update st.table fd none }
  | .dispatch job,answer =>
    { lend st job with spare := if answer then none else st.spare, refused := !answer }
  | .freeJob job,_ => { closePipe st job with spare := none }
  | _,_ => st

def acted (st : State) : Act → State
  | .call id e => called st id e.1 e.2
  | .complete d => { st with closing := some d.posted.job.id }
  | _ => st

inductive Move where
  | core (act : Act)
  | create (id : ClientId) (op : JobOp) (job : JobId) (pipe : Fd × Fd)
  | pipe (job : JobId)
  | take (flight : Flight) (rounds : Nat)
  | work (job : JobId) (exchange : Exchange Work.Answer)
  | post (delivery : Delivery)

def Simple : Act → Prop
  | .take _ | .post _ => False
  | .call _ ⟨.newJob _,answer⟩ => answer = none
  | _ => True

def Unused (table : Fd → Option Owner) : Act → Prop
  | .call _ ⟨.socket _,answer⟩ => ∀ fd, answer = some fd → table fd = none
  | _ => True

def Shuts : Act → Prop
  | .call _ ⟨.closeFd _,_⟩ => True
  | _ => False

def gain (table : Fd → Option Owner) (job : JobId) : Option Fd → Fd → Option Owner
  | none => table
  | some fd => Function.update table fd (some (.data job))

inductive Step (workers : Nat) (s : Server) : State → Move → State → Prop where
  | core {st act core} (simple : Simple act) (step : Reactor.Step workers s st.core act core)
      (unused : Unused st.table act) (waits : st.closing = none ∨ Shuts act) :
      Step workers s st (.core act) { acted st act with core }
  /- `job_new` with its cancel pipe. -/
  | create {st id op job core r w} (step : Reactor.Step workers s st.core (.call id ⟨.newJob op,some job⟩) core)
      (waits : st.closing = none) (unused : st.table r = none ∧ st.table w = none) (two : r ≠ w) :
      Step workers s st (.create id op job (r,w))
        { st with core, table := Function.update (Function.update st.table r (some (.reader job))) w (some (.writer job)),
                  pipes := Function.update st.pipes job (some (r,w)), spare := some job }
  /- `opftp_datachan_complete` closes the pipe after the sockets. -/
  | pipe {st job} (due : st.closing = some job)
      (after : ∀ id fd next, st.core.task ≠ some (id,.ask (.closeFd fd) next)) :
      Step workers s st (.pipe job) { closePipe st job with closing := none }
  | take {st f core} (rounds) (step : Reactor.Step workers s st.core (.take f) core) :
      Step workers s st (.take f rounds)
        { st with core, hands := Function.update st.hands f.job.id (some ⟨rounds,[],transferRun rounds s f.job,none⟩) }
  | work {st job h call next} (answer) (held : st.hands job = some h) (at_ : h.left = Program.ask call next)
      (unused : ∀ fd, gained call answer = some fd → st.table fd = none) :
      Step workers s st (.work job ⟨call,answer⟩)
        { st with table := gain st.table job (gained call answer)
                  hands := Function.update st.hands job
                    (some ⟨h.rounds,h.trace ++ [⟨call,answer⟩],next answer,opened h.data call answer⟩) }
  | post {st f before after h posted} (busy : st.core.running = before ++ f :: after)
      (held : st.hands f.job.id = some h) (done : h.left = Program.done (some posted)) :
      Step workers s st (.post ⟨f.owner,posted⟩)
        { st with core := { st.core with running := before ++ after
                                         completions := ⟨f.owner,posted⟩ :: st.core.completions }
                  hands := Function.update st.hands f.job.id none }

def Start (st : State) : Prop :=
  Reactor.Start st.core ∧ (∀ fd, st.table fd = none) ∧ (∀ job, st.pipes job = none) ∧ (∀ job, st.hands job = none) ∧
    st.setting = false ∧ st.spare = none ∧ st.closing = none

def descriptors (workers : Nat) (s : Server) : System State Move where
  start := Start
  step := Step workers s

def debtor (st : State) : Option JobId := st.closing.or st.spare
def landed (core : Reactor.State) : List Delivery := core.completions ++ drained core

end OpenPs3Ftp.Descriptors
