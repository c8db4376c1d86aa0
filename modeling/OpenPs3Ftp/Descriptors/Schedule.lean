import OpenPs3Ftp.Descriptors.Machine
import OpenPs3Ftp.Reactor.Schedule

/-! Runs with descriptors that can be computed: the reactor's own schedule, with one pipe to
give out, and a worker's calls one at a time. No job is completed in them. -/
namespace OpenPs3Ftp.Descriptors
open Lib Fs Session Events Worker Reactor System

inductive Cue where
  | react (hint : Hint)
  | work (job : JobId)

def free (st : State) (fd : Fd) : Bool := (st.table fd).isNone

instance : DecidablePred Simple := fun act => by
  unfold Simple
  split <;> infer_instance

instance (table : Fd → Option Owner) : DecidablePred (Unused table) := fun act => by
  unfold Unused
  split
  · rename_i answer
    exact inferInstanceAs (Decidable (∀ fd ∈ answer, table fd = none))
  · infer_instance

theorem freeUnused {st : State} {fd} (free_ : free st fd = true) : st.table fd = none :=
  Option.isNone_iff_eq_none.mp free_

variable (workers : Nat) (s : Server) (pipe : Fd × Fd) (oracle : (call : Call) → Answer call)
  (labour : (call : Work) → call.Answer)

abbrev Choice (st : State) : Type := (descriptors workers s).Next (fun _ => True) st

variable {workers s}

def follow {st : State} (rests : st.closing = none) : Reactor.Choice workers s st.core → Option (Choice workers s st)
  | ⟨.complete _,_,_⟩ | ⟨.post _,_,_⟩ => none
  | ⟨.take f,core,step⟩ => some ⟨.take f 0,{ st with
      core, hands := Function.update st.hands f.job.id (some ⟨0,[],transferRun 0 s f.job,none⟩) },fun _ => .take 0 (step trivial)⟩
  | ⟨.call id ⟨.newJob op,some job⟩,core,step⟩ =>
    if apart : free st pipe.1 ∧ free st pipe.2 ∧ pipe.1 ≠ pipe.2 then
      some ⟨.create id op job pipe,{ st with
        core, table := Function.update (Function.update st.table pipe.1 (some (.reader job))) pipe.2 (some (.writer job))
        pipes := Function.update st.pipes job (some pipe), spare := some job },
        fun _ => .create (step trivial) rests ⟨freeUnused apart.1,freeUnused apart.2.1⟩ apart.2.2⟩
    else none
  | ⟨act,core,step⟩ =>
    if plain : Simple act ∧ Unused st.table act then
      some ⟨.core act,{ acted st act with core },fun _ => .core plain.1 (step trivial) plain.2 (.inl rests)⟩
    else none

def labours {st : State} (job : JobId) {h : Hand} (held : st.hands job = some h) : Option (Choice workers s st) :=
  match at_ : h.left with
  | .done _ => none
  | .ask call next =>
    if unused : (gained call (labour call)).all (free st) then
      some ⟨.work job ⟨call,labour call⟩,{ st with
        table := gain st.table job (gained call (labour call))
        hands := Function.update st.hands job
          (some ⟨h.rounds,h.trace ++ [⟨call,labour call⟩],next (labour call),opened h.data call (labour call)⟩) },
        fun _ => .work _ held at_ fun fd new => freeUnused (by simpa [new] using unused)⟩
    else none

variable (workers s)

def chooser : Chooser (descriptors workers s) Cue where
  Sane _ := True
  sane _ _ := trivial
  due st :=
    match rests : st.closing with
    | none => (due workers s oracle st.core).bind (follow pipe rests)
    | some _ => none
  pick
    | .react hint,st =>
      match rests : st.closing with
      | none => (pick workers s labour hint st.core).bind (follow pipe rests)
      | some _ => none
    | .work job,st =>
      match held : st.hands job with
      | none => none
      | some _ => labours labour job held

end OpenPs3Ftp.Descriptors
