import OpenPs3Ftp.Lib.Schedule
import OpenPs3Ftp.Reactor.Progress

/-! Runs of the reactor and its workers that can be computed. The reactor goes on by itself
unless it is told what poll reports, or a worker moves while it waits. -/
namespace OpenPs3Ftp.Reactor
open Lib Text Session Commands Events Worker Program System

inductive Hint where
  | wake
  | collect (ready : List Ready)
  | event (received : List Received)
  | take
  | post

def respond (workers : Nat) (oracle : (call : Call) → Answer call) (st : State) : (call : Call) → Answer call
  | .newJob _ => some st.nextJob
  | .dispatch _ => decide (st.queue.length < capacity workers)
  | call => oracle call

theorem respondAnswers (workers oracle st call) : Answers workers st call (respond workers oracle st call) := by
  cases call with
  | newJob op => exact .inr rfl
  | dispatch job => rfl
  | _ => trivial

def collectable (st : State) (ready : List Ready) : Bool :=
  let ids := ready.filterMap Ready.id?
  decide ids.Nodup && ids.all fun id => (st.clients id).any (·.connected)

theorem collectableCollected {st ready} (collectable_ : collectable st ready = true) : Collected st ready := by
  obtain ⟨apart,here⟩ := (Bool.and_eq_true _ _).mp collectable_
  refine ⟨of_decide_eq_true apart,fun id member => ?_⟩
  have seat := List.all_eq_true.mp here id member
  cases found : st.clients id with
  | none => simp [found] at seat
  | some c => exact ⟨c,rfl,by simpa [found] using seat⟩

variable (workers : Nat) (s : Server) (oracle : (call : Call) → Answer call) (labour : (call : Work) → call.Answer)

abbrev Choice (st : State) : Type := (reactor workers s).Next (fun _ => True) st

def due (st : State) : Option (Choice workers s st) :=
  match idle : st.task,phase : st.phase with
  | some (id,.ask call next),_ =>
    let answer := respond workers oracle st call
    some ⟨.call id ⟨call,answer⟩,{ answered st id call answer with task := some (id,next answer) },
      fun _ => .call _ idle (respondAnswers workers oracle st call)⟩
  | some (id,.done c),_ => some ⟨.finish id c,{ st with clients := seated st id c, task := none },fun _ => .finish idle⟩
  | none,.draining (d :: left) =>
    match owner : st.clients d.owner with
    | none => none
    | some c => some ⟨.complete d,{ st with phase := .draining left, task := some (d.owner,datachanComplete d.posted c) },
        fun _ => .complete idle phase owner⟩
  | none,.serving (.listener (peer :: peers) :: left) =>
    some ⟨.accept st.nextClient peer,{ st with
      phase := .serving (.listener peers :: left), nextClient := st.nextClient + 1,
      task := some (st.nextClient,acceptClient s peer) },fun _ => .accept idle phase⟩
  | none,.serving (.listener [] :: left) => some ⟨.accepted,{ st with phase := .serving left },fun _ => .accepted idle phase⟩
  | none,.serving [] => some ⟨.served,{ st with phase := .waiting },fun _ => .served idle phase⟩
  | none,_ => none

def pick (hint : Hint) (st : State) : Option (Choice workers s st) :=
  match hint,idle : st.task,phase : st.phase with
  | .wake,none,.waiting =>
    some ⟨.wake,{ st with phase := .draining st.completions, completions := [] },fun _ => .wake idle phase⟩
  | .collect ready,none,.draining [] =>
    if fine : collectable st ready then
      some ⟨.collect ready,{ st with phase := .serving ready },fun _ => .collect idle phase (collectableCollected fine)⟩
    else none
  | .event received,none,.serving (.client id revents :: left) =>
    match owner : st.clients id with
    | none => none
    | some c => some ⟨.event id s.root revents received,
        { st with phase := .serving left, task := some (id,handleClientEvents s revents received c) },
        fun _ => .event s.root received idle phase owner⟩
  | .take,_,_ =>
    match waiting : st.queue with
    | [] => none
    | f :: rest =>
      if free : st.running.length < workers then
        some ⟨.take f,{ st with queue := rest, running := f :: st.running },fun _ => .take waiting free⟩
      else none
  | .post,_,_ =>
    match busy : st.running with
    | [] => none
    | f :: rest =>
      match last : ((transferRun 0 s f.job).play labour).2 with
      | none => none
      | some posted => some ⟨.post ⟨f.owner,posted⟩,
          { st with running := rest, completions := ⟨f.owner,posted⟩ :: st.completions },
          fun _ => @Step.post _ _ _ _ [] _ _ _ _ busy (last ▸ playRuns labour (transferRun 0 s f.job))⟩
  | _,_,_ => none

def chooser : Chooser (reactor workers s) Hint where
  Sane _ := True
  sane _ _ := trivial
  due := due workers s oracle
  pick := pick workers s labour

/- The reactor waits, and there is nothing for it. -/
def Resting (st : State) : Prop := st.task = none ∧ st.phase = .waiting ∧ st.completions = []

def rests (st : State) : Bool := st.task.isNone && st.phase matches .waiting && st.completions.isEmpty

theorem restsResting {st} (so : rests st = true) : Resting st := by
  unfold rests at so
  obtain ⟨⟨idle,at_⟩,clear⟩ : (st.task.isNone = true ∧ _) ∧ st.completions.isEmpty = true := by simpa using so
  refine ⟨Option.isNone_iff_eq_none.mp idle,?_,List.isEmpty_iff.mp clear⟩
  cases phase : st.phase <;> simp [phase] at at_ ⊢

end OpenPs3Ftp.Reactor
