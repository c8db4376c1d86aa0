import OpenPs3Ftp.Worker.Calls

/-! The descriptors of a job, as its worker uses them: the listener it was given and the
data socket it opens. A worker closes none of them. -/
namespace OpenPs3Ftp.Descriptors
open Lib Text Resolve Fs Session Commands Events Worker
open Bounded (Uses Keeps keepsPure keepsBind keepsAsk keepsMono usesKeeps)

def gained : (call : Work) → call.Answer → Option Fd
  | .accept _,answer =>
    match answer with
    | .ok (fd,_) => some fd
    | .error _ => none
  | .socket _,answer =>
    match answer with
    | .ok fd => some fd
    | .error _ => none
  | _,_ => none

/- `j->data_fd` after a call. -/
def opened (data : Option Fd) (call : Work) (answer : call.Answer) : Option Fd := (gained call answer).or data

/- What a worker uses: the listener until it has a data socket, and that one. TLS sessions
are on the data socket. -/
def Handles (job : Job) (data : Option Fd) : Work → Prop
  | .poll fd _ _ => job.pasvFd = some fd ∨ data = some fd
  | .accept listener => job.pasvFd = some listener ∧ data = none
  | .socket _ => data = none
  | .connect fd _ | .soError fd | .send fd _ | .recv fd _ | .tlsCreate fd _ => data = some fd
  | .tlsHandshake | .tlsWrite _ | .tlsRead _ | .tlsCloseNotify | .tlsFree => data ≠ none
  | _ => True

abbrev Handling {α : Type} (job : Job) (post : Option Fd → α → Prop) (data : Option Fd) (p : Routine α) : Prop :=
  Keeps (fun _ _ => True) opened (Handles job) post data p

def Steady (job : Job) (data : Option Fd) (call : Work) : Prop :=
  Handles job data call ∧ ∀ answer, opened data call answer = data

section Worker
variable {job : Job} {data : Option Fd} {α : Type}

theorem steadyHandling {p : Routine α} (uses : Uses (Steady job data) p) :
    Handling job (fun data' _ => data' = data) data p := by
  refine @usesKeeps _ _ _ _ _ opened (Handles job) (fun data' => data' = data) _ _ uses ?_ rfl
  rintro _ call rfl steady
  exact steady

theorem aloneSteady (call) (alone : Alone call) : Steady job data call := by
  cases call <;> first | exact ⟨trivial,fun _ => rfl⟩ | exact alone.elim

theorem pollSteady {fd} (known : job.pasvFd = some fd ∨ data = some fd) (event timeout) :
    Steady job data (.poll fd event timeout) := ⟨known,fun _ => rfl⟩

theorem overSteady (carries : job.op ≠ .copy) (rounds s fd) :
    Uses (Steady job (some fd)) (transferOver rounds s job fd) := by
  have session : (some fd : Option Fd) ≠ none := Option.some_ne_none fd
  refine usesOver aloneSteady (pollSteady (.inr rfl)) ?_ (fun _ => ⟨rfl,fun _ => rfl⟩) ⟨session,fun _ => rfl⟩
    ⟨session,fun _ => rfl⟩ ⟨session,fun _ => rfl⟩ carries rounds s
  intro tls call moves
  cases call with
  | send | recv => exact ⟨congrArg some moves.2.symm,fun _ => rfl⟩
  | tlsWrite | tlsRead => exact ⟨session,fun _ => rfl⟩
  | _ => exact moves.elim

def Left (data : Option Fd) : Connected → Prop
  | .failed fd _ => data = fd
  | .up fd => data = some fd

theorem acceptHandling (s : Server) {listener : Fd} (given : job.pasvFd = some listener) :
    Handling job Left none (acceptJob s job listener) := by
  refine keepsBind (keepsMono ?_ (steadyHandling (makesPeer (n := 0) (aloneSteady _ trivial) (pollSteady (.inl given)) _).1))
  rintro _ rc rfl
  split
  · exact keepsPure.mpr rfl
  refine keepsAsk ⟨given,rfl⟩ fun accepted _ => ?_
  split
  · exact keepsPure.mpr rfl
  · split <;> exact keepsPure.mpr rfl

theorem reachHandling : Handling job Left none (reachJob job) := by
  refine keepsAsk rfl fun made _ => ?_
  split
  · exact keepsPure.mpr rfl
  refine keepsAsk rfl fun started _ => ?_
  split
  · exact keepsPure.mpr rfl
  refine keepsBind (keepsMono ?_ (steadyHandling (makesPeer (n := 0) (aloneSteady _ trivial) (pollSteady (.inr rfl)) _).1))
  rintro _ rc rfl
  split
  · exact keepsPure.mpr rfl
  · refine keepsAsk rfl fun error _ => ?_
    split <;> exact keepsPure.mpr rfl

theorem connectHandling (s) : Handling job Left none (datachanConnectJob s job) := by
  unfold datachanConnectJob
  split
  · exact acceptHandling s ‹_›
  · split
    · exact reachHandling
    · exact keepsPure.mpr rfl

def Returned (job : Job) (data : Option Fd) (posted : Posted) : Prop := posted.job = job ∧ posted.dataFd = data

theorem runHandling (rounds : Nat) (s : Server) : Handling job (Returned job) none (transferRun rounds s job) := by
  unfold transferRun
  split
  · refine keepsBind (keepsMono ?_ (steadyHandling (usesCopy aloneSteady rounds job)))
    rintro _ rc rfl
    exact keepsPure.mpr ⟨rfl,rfl⟩
  rename_i carries
  refine keepsBind (keepsMono ?_ (connectHandling s))
  rintro data connected left
  cases connected with
  | failed fd e => exact keepsPure.mpr ⟨rfl,Eq.symm left⟩
  | up fd =>
    obtain rfl : data = some fd := left
    refine keepsBind (keepsMono ?_ (steadyHandling (overSteady carries rounds s fd)))
    rintro _ rc rfl
    exact keepsPure.mpr ⟨rfl,rfl⟩

end Worker
end OpenPs3Ftp.Descriptors
