import OpenPs3Ftp.Commands.Discipline

/-! What a handler does with the job it creates, and who may stop the server. A job is
in the handler's hands from its creation until it is dispatched or given back, there
is never a second one, and none is left when the handler returns. -/
namespace OpenPs3Ftp.Commands
open Lib Text Resolve Fs Session Dispatch Program

def custody (held : Option JobId) : (call : Call) → Answer call → Option JobId
  | .newJob _,answer => answer
  | .dispatch _,answer => if answer then none else held
  | .freeJob _,_ => none
  | _,_ => held

def Careful (s : Server) (held : Option JobId) : Call → Prop
  | .newJob _ => held = none
  | .dispatch job => held = some job.id
  | .freeJob job => held = some job
  | .stop => s.allowStop = true
  | _ => True

abbrev Keeping {α : Type} (s : Server) (post : α → Prop) (held : Option JobId) (p : Handler α) : Prop :=
  Meets (fun _ _ => True) custody (Careful s) (fun left a => left = none ∧ post a) held p

abbrev Custody {α : Type} (s : Server) (p : Handler α) : Prop := Keeping s (fun _ => True) none p

def Plain : Call → Prop
  | .newJob _ | .dispatch _ | .freeJob _ | .stop => False
  | _ => True

section Rules
variable {α β : Type} {s : Server} {post : α → Prop} {held : Option JobId}

theorem keepingCall {call} (plain : Plain call) {k} (next : ∀ answer, Keeping s post held (k answer)) :
    Keeping s post held (invoke call >>= k) := by
  cases call
  case newJob | dispatch | freeJob | stop => exact plain.elim
  all_goals exact ⟨trivial,fun answer _ => next answer⟩

theorem keepingThen {p} {f : β → Handler α} (first : Custody s p) (next : ∀ b, Keeping s post none (f b)) :
    Keeping s post none (p >>= f) := by
  rw [Keeping,meetsBind]
  refine meetsMono ?_ first
  rintro left b ⟨rfl,-⟩
  exact next b

theorem custodyDone (a : α) : Custody s (.done a) := ⟨rfl,trivial⟩

theorem custodyCall {call : Call} (plain : Plain call) : Custody s (invoke call) :=
  keepingCall plain fun answer => custodyDone answer

theorem custodyReply (code msg) : Custody s (reply code msg) := custodyCall (by trivial)

theorem custodyAnswering (code : Nat) (msg : Bytes) (c : Client) : Custody s (answering code msg c) :=
  keepingThen (custodyReply _ _) fun _ => custodyDone c

theorem custodyFailing (failure c) : Custody s (failing failure c) := by
  cases failure with
  | known e => exact custodyAnswering _ _ c
  | stale => exact keepingCall (by trivial) fun e => custodyAnswering _ _ c

theorem keepingFree {job k} (mine : held = some job.id) (next : Keeping s post none (k ())) :
    Keeping s post held (jobFree job >>= k) := by
  have free : Keeping s post held (invoke (.freeJob job.id) >>= k) := ⟨mine,fun _ _ => next⟩
  unfold jobFree
  cases job.pasvFd with
  | none => exact free
  | some fd => exact ⟨trivial,fun _ _ => free⟩

theorem custodyTransfer (c : Client) (op : JobOp) (path : Bytes) (nlst mlsd : Bool) (reply150 : Option Bytes) :
    Custody s (startTransfer s c op path nlst mlsd reply150) := by
  refine transferMeets (r := none) rfl (custodyAnswering _ _ c) (custodyAnswering _ _ c) fun _ _ => ⟨rfl,custodyAnswering _ _ c,?_⟩
  rintro id _ _ rfl rfl
  exact ⟨rfl,keepingCall (by trivial) fun _ => custodyDone _,keepingFree rfl (custodyAnswering _ _ _)⟩

end Rules

section Every
variable {s : Server} (c : Client) (param : Option Bytes)

theorem custodyPass : Custody s (cmdPass s c param) := by
  refine passMeets (r := none) rfl (custodyAnswering _ _ c) trivial ?_
  rintro _ (rfl | ⟨ok,rfl⟩) <;> exact ⟨custodyAnswering _ _ _,custodyAnswering _ _ _⟩

theorem custodyCopy (path : Bytes) : Custody s (startCopy c path) := by
  refine copyMeets (r := none) rfl rfl (custodyAnswering _ _ c) ?_
  rintro id _ _ rfl rfl
  exact ⟨rfl,⟨rfl,trivial⟩,keepingFree rfl (custodyAnswering _ _ _)⟩

theorem ordinaryPlain {command call} (fine : Ordinary s c command param call) : Plain call := by
  cases call
  case newJob | dispatch | freeJob | stop => cases fine
  all_goals trivial

end Every

theorem custodyRun {s : Server} {name : Bytes} {command : Command}
    (found : (commandsInit s).lookup name = some command) (c : Client) (param : Option Bytes) :
    Custody s (command.run s c param) := by
  have registered : command = .stop → s.allowStop = true := by
    rintro rfl
    obtain ⟨entry,listed,-,same⟩ := lookupBuiltin found
    by_contra refused
    rw [Bool.not_eq_true] at refused
    rw [refused] at listed
    exact absurd (List.mem_map.mpr ⟨entry,listed,same.symm⟩ : Command.stop ∈ (builtin false).map (·.2)) (by decide)
  refine course { done := fun d _ => custodyDone d, failing := fun failure d _ => custodyFailing failure d,
                  ask := fun call k fine next => keepingCall (ordinaryPlain c param fine) next,
                  pass := fun _ => custodyPass c param, abor := fun _ => ?_, stop := fun which => ?_,
                  transfer := fun _ op path nlst mlsd reply150 _ _ _ => custodyTransfer c op path nlst mlsd reply150,
                  copy := fun _ _ _ path _ => custodyCopy _ path }
  · unfold cmdAbor
    split <;> exact keepingCall (by trivial) fun _ => custodyDone _
  · have allowed : s.allowStop = true := which.elim registered fun site => site.2
    exact keepingThen (custodyReply _ _) fun _ => ⟨allowed,fun _ _ => custodyDone c⟩

end OpenPs3Ftp.Commands
