import OpenPs3Ftp.Commands.Course

/-! What the built-in handlers may do, whatever is answered to their calls: which
paths they name, in which order they create, dispatch and announce a job, and
which fields of the session they leave alone. -/
namespace OpenPs3Ftp.Commands
open Lib Text Resolve Fs Session Dispatch Program

/- What a handler has done so far, as far as jobs, aborts and logins go; `released` is
what it has given back of a job that the pool did not take. -/
structure Progress where
  made : Option JobId
  flying : Option JobId
  copying : Bool
  announced : Bool
  aborts : Nat
  verdicts : List (Bytes × Bytes × Bool)
  refused : Option Job
  released : List Call
  deriving DecidableEq

def nothing : Progress := ⟨none,none,false,false,0,[],none,[]⟩

def progress (p : Progress) : (call : Call) → Answer call → Progress
  | .newJob _,answer => { p with made := answer }
  | .dispatch job,answer =>
    if answer then { p with flying := some job.id, copying := job.op = .copy } else { p with refused := some job }
  | .closeFd fd,_ => { p with released := if p.refused ≠ none ∧ p.released = [] then [.closeFd fd] else p.released }
  | .freeJob job,_ => { p with released := p.released ++ [.freeJob job] }
  | .send (.accepted _) _,_ => { p with announced := true }
  | .send .abort _,_ => { p with aborts := p.aborts + 1 }
  | .auth user pass,answer => { p with verdicts := p.verdicts ++ [(user,pass,answer)] }
  | _,_ => p

variable (s : Server) (c : Client) (path : Bytes)

def Resolved : Prop := ∃ param, resolveArg s c param = some path

def Named : Prop :=
  Resolved s c path ∨ (∃ full, Resolved s c full ∧ pathParent full maxPath = some path ∧ path ≠ []) ∨
    (c.haveRnfr = true ∧ path = c.rnfr.text)

def Carried (job : Job) : Prop :=
  if job.op = .copy then job.pasvFd = none
  else job.needTls = c.tlsProt ∧ job.pasvFd = c.pasvFd ∧ job.dataPeer = c.dataPeer ∧
    job.haveDataPeer = c.haveDataPeer ∧ job.ctlPeer = c.peer ∧ precheck s c = true

def undoing (job : Job) : List Call := job.pasvFd.toList.map .closeFd ++ [.freeJob job.id]

def Permitted (p : Progress) : Call → Prop
  | .fs call => ∀ path ∈ call.paths, Named s c path
  | .newJob _ => c.job = none ∧ p.made = none
  | .dispatch job => p.made = some job.id ∧ p.flying = none ∧ job.generation = c.generation ∧
      (Resolved s c job.path.text ∨ (job.op = .copy ∧ c.haveCpfr = true ∧ job.path = c.cpfr)) ∧
      (job.op = .copy → Resolved s c job.dst.text) ∧ Carried s c job ∧ p.refused = none
  | .freeJob job => p.made = some job ∧ p.flying = none ∧ p.refused ≠ none
  | .send (.accepted job) _ => p.flying = some job ∧ p.announced = false ∧ p.copying = false
  | .send (.finished _) _ => False
  | .send .abort _ => c.job = none ∧ p.aborts = 0
  | .cancel job => c.job = some job ∧ p.flying = none
  | .enter .. | .tlsHandshake => False
  | _ => True

def Moved (c c' : Client) : Prop :=
  ∃ path, Resolved s c path ∧ c'.cwd = Buffer.print 1023 (visible s.root.text path)

structure Outcome (s : Server) (command : Command) (c : Client) (p : Progress) (c' : Client) : Prop where
  same : c'.connected = c.connected ∧ c'.generation = c.generation ∧ c'.peer = c.peer
  login : p.verdicts = [] ∧ c'.user = c.user ∧ c'.loggedIn = c.loggedIn ∨ command = .user ∨ command = .pass
  place : c'.cwd = c.cwd ∨ (command = .cwd ∨ command = .cdup) ∧ Moved s c c'
  rnfr : c'.rnfr = c.rnfr ∧ (c'.haveRnfr = true → c.haveRnfr = true) ∨ Resolved s c c'.rnfr.text
  cpfr : c'.cpfr = c.cpfr ∧ (c'.haveCpfr = true → c.haveCpfr = true) ∨ Resolved s c c'.cpfr.text
  tls : c'.tlsHandshaking = c.tlsHandshaking ∧ c'.tls = c.tls ∧ c'.rbuf = c.rbuf ∨ command = .auth
  job : match p.flying with
    | none => c'.job = c.job
    | some id => c'.job = some id ∧ c.job = none ∧ (p.announced = true ↔ command ≠ .cpto)
  abort : if command = .abor then
      if c.job = none then p.aborts = 1 ∧ c'.aborPending = c.aborPending
      else p.aborts = 0 ∧ c'.aborPending = true
    else p.aborts = 0 ∧ c'.aborPending = c.aborPending
  leaving : c'.disconnectRequested = c.disconnectRequested ∨ command = .quit ∨ command = .auth
  refusal : ∀ job, p.refused = some job →
    p.released = undoing job ∧ c'.disconnectRequested = c.disconnectRequested

/- The fields that `Outcome` speaks of; the others are free. -/
def core :=
  (c.connected,c.generation,c.peer,c.user,c.loggedIn,c.cwd,c.rnfr,c.haveRnfr,c.cpfr,c.haveCpfr,c.tls,
    c.tlsHandshaking,c.rbuf,c.job,c.aborPending,c.disconnectRequested)

theorem Outcome.kept {s command c d p} (notAbort : command ≠ .abor) (same : core d = core c)
    (grounded : p.flying = none) (calm : p.aborts = 0) (silent : p.verdicts = [])
    (undone : p.refused = none ∨ ∃ job, p.refused = some job ∧ p.released = undoing job) :
    Outcome s command c p d := by
  simp only [core,Prod.mk.injEq] at same
  rcases undone with none | ⟨job,refused,released⟩
  · constructor <;> simp_all
  · constructor <;> simp_all

abbrev Disciplined {α : Type} (s : Server) (c : Client) (post : Progress → α → Prop) (p : Progress)
    (program : Handler α) : Prop :=
  Meets (fun _ _ => True) progress (Permitted s c) post p program

variable {path : Bytes} {op : JobOp} {nlst mlsd : Bool}

section Combinators
variable {s : Server} {c d : Client} {post : Progress → Client → Prop} {p : Progress}

theorem disciplinedLine (text k) :
    Disciplined s c post p (.ask (.send .command text) k) ↔ Disciplined s c post p (k ()) :=
  ⟨fun h => h.2 () trivial,fun h => ⟨trivial,fun _ _ => h⟩⟩

@[simp] theorem disciplinedReply (code msg k) :
    Disciplined s c post p (reply code msg >>= k) ↔ Disciplined s c post p (k ()) :=
  disciplinedLine _ k

@[simp] theorem disciplinedAnswering (code msg) : Disciplined s c post p (answering code msg d) ↔ post p d := by
  simp [answering]

@[simp] theorem disciplinedFailing (failure) : Disciplined s c post p (failing failure d) ↔ post p d := by
  cases failure <;> simp [Disciplined,failing,replyFsError,reply,replyAbout,Permitted,progress]

theorem progressClosed (fresh : p.refused = none) (fd) : progress p (.closeFd fd) () = p := by
  rw [progress,if_neg (by simp [fresh])]

theorem disciplinedFree {job k} (made : p.made = some job.id) (grounded : p.flying = none)
    (refused : p.refused = some job) (first : p.released = [])
    (next : Disciplined s c post { p with released := undoing job } (k ())) :
    Disciplined s c post p (jobFree job >>= k) := by
  unfold jobFree
  unfold undoing at next
  cases listener : job.pasvFd <;> simp only [listener] at next <;>
    simpa [closeSome,Disciplined,Permitted,progress,made,grounded,refused,first] using fun _ => next

end Combinators

section Handlers
variable (s : Server) (c : Client) (param : Option Bytes)

theorem disciplinedPass : Disciplined s c (Outcome s .pass c) nothing (cmdPass s c param) := by
  have login : ∀ (d : Client) verdicts, core { d with user := c.user, loggedIn := c.loggedIn } = core c →
      Outcome s .pass c { nothing with verdicts } d := by
    intro d verdicts same
    simp only [core,Prod.mk.injEq] at same
    constructor <;> simp_all [nothing]
  refine passMeets rfl ((disciplinedAnswering _ _).mpr (login c [] rfl)) trivial ?_
  rintro _ (rfl | ⟨ok,rfl⟩) <;>
    exact ⟨(disciplinedAnswering _ _).mpr (login _ _ rfl),(disciplinedAnswering _ _).mpr (login _ _ rfl)⟩

theorem disciplinedAbor : Disciplined s c (Outcome s .abor c) nothing (cmdAbor c) := by
  unfold cmdAbor
  split
  · rename_i job active
    refine ⟨⟨active,rfl⟩,fun _ _ => ?_⟩
    constructor <;> simp [nothing,progress,active]
  · rename_i idle
    refine ⟨⟨idle,rfl⟩,fun _ _ => ?_⟩
    constructor <;> simp [nothing,progress,idle]

end Handlers

section Every
variable {s : Server} {c : Client} {param : Option Bytes} {command : Command}

theorem meantResolved (meant : Meant s c command param path) : Resolved s c path := by
  cases command
  case stou => obtain ⟨name,resolved⟩ := meant; exact ⟨_,resolved⟩
  all_goals exact ⟨_,meant⟩

theorem ordinaryPermitted {call} (fine : Ordinary s c command param call) : Permitted s c nothing call := by
  cases call
  case fs call =>
    exact fun path member => (ordinaryPaths fine path member).imp meantResolved
      (Or.imp_left fun ⟨full,meant,rest⟩ => ⟨full,meantResolved meant,rest⟩)
  case send about text => cases about <;> trivial
  all_goals trivial

theorem ordinaryStill {call} (fine : Ordinary s c command param call) (answer) :
    progress nothing call answer = nothing := by
  cases call
  case send about text => cases about <;> first | rfl | cases fine
  all_goals first | rfl | cases fine

theorem returnsOutcome {d} (returns : Returns s c param command d) : Outcome s command c nothing d := by
  have short : ∀ {command path}, Meant s c command param path → Resolved s c (Buffer.print 1023 path).text := by
    intro command path meant
    obtain ⟨param,resolved⟩ := meantResolved meant
    rw [Buffer.printShort (Nat.le_of_lt_succ (resolveArgShort resolved))]
    exact ⟨param,resolved⟩
  have kept : ∀ {command}, command ≠ .abor → Outcome s command c nothing c := fun other =>
    Outcome.kept other rfl rfl rfl rfl (.inl rfl)
  cases returns
  case same other => exact kept other
  case wired setup => exact Outcome.kept (by rintro rfl; exact absurd setup (by decide)) rfl rfl rfl rfl (.inl rfl)
  case rest | prot => exact Outcome.kept nofun rfl rfl rfl rfl (.inl rfl)
  case moved path moving meant =>
    have other : command ≠ .abor := by rcases moving with rfl | rfl <;> decide
    exact { kept other with place := .inr ⟨moving,path,meantResolved meant,rfl⟩ }
  case rnfr path meant => exact { kept (show Command.rnfr ≠ .abor from nofun) with rnfr := .inr (short meant) }
  case cpfr path meant => exact { kept (show Command.cpfr ≠ .abor from nofun) with cpfr := .inr (short meant) }
  all_goals constructor <;> simp [nothing]

theorem disciplinedData (other : command ≠ .abor ∧ command ≠ .cpto) {reply150} (notCopy : op ≠ .copy)
    (resolved : Resolved s c path) :
    Disciplined s c (Outcome s command c) nothing (startTransfer s c op path nlst mlsd reply150) := by
  have short : (Buffer.print 1023 path).text = path := by
    obtain ⟨param,h⟩ := resolved
    exact Buffer.printShort (Nat.le_of_lt_succ (resolveArgShort h))
  have stay : ∀ code msg made, Disciplined s c (Outcome s command c) { nothing with made } (answering code msg c) :=
    fun _ _ _ => (disciplinedAnswering _ _).mpr (Outcome.kept other.1 rfl rfl rfl rfl (.inl rfl))
  refine transferMeets rfl (stay _ _ none) (stay _ _ none) fun free checked => ⟨⟨free,rfl⟩,stay _ _ none,?_⟩
  rintro id _ _ rfl rfl
  refine ⟨⟨rfl,rfl,rfl,.inl ?_,fun copy => absurd copy notCopy,?_,rfl⟩,⟨⟨rfl,rfl,decide_eq_false notCopy⟩,fun _ _ => ?_⟩,
    disciplinedFree rfl rfl rfl rfl ((disciplinedAnswering _ _).mpr
      (Outcome.kept other.1 rfl rfl rfl rfl (.inr ⟨transferJob c op path nlst mlsd id,rfl,rfl⟩)))⟩
  · rw [show (transferJob c op path nlst mlsd id).path.text = path from short]
    exact resolved
  · rw [Carried,if_neg (show (transferJob c op path nlst mlsd id).op ≠ .copy from notCopy)]
    exact ⟨rfl,rfl,rfl,rfl,rfl,checked⟩
  · constructor <;> simp_all [nothing,progress,transferJob,jobNew]

theorem disciplinedCopy (stored : c.haveCpfr = true) (free : c.job = none) (resolved : Resolved s c path) :
    Disciplined s c (Outcome s .cpto c) nothing (startCopy { c with haveCpfr := false } path) := by
  have spent : ∀ made, Outcome s .cpto c { nothing with made } { c with haveCpfr := false } := by
    intro made
    constructor <;> simp [nothing]
  refine copyMeets rfl ⟨free,rfl⟩ ((disciplinedAnswering _ _).mpr (spent none)) ?_
  rintro id _ _ rfl rfl
  have dst : (Buffer.print 1023 path).text = path := by
    obtain ⟨param,h⟩ := resolved
    exact Buffer.printShort (Nat.le_of_lt_succ (resolveArgShort h))
  refine ⟨⟨rfl,rfl,rfl,.inr ⟨rfl,stored,Buffer.printSelf c.cpfr⟩,fun _ => ?_,rfl,rfl⟩,?_,
    disciplinedFree rfl rfl rfl rfl ((disciplinedAnswering _ _).mpr ?_)⟩
  · rw [show (copyJob { c with haveCpfr := false } path id).dst.text = path from dst]
    exact resolved
  · constructor <;> simp [nothing,progress,free,copyJob,jobNew]
  · constructor <;> simp [nothing,progress]

end Every

theorem discipline (command s c param) : Disciplined s c (Outcome s command c) nothing (command.run s c param) := by
  refine course { done := fun _ => returnsOutcome, failing := fun _ _ returns => (disciplinedFailing _).mpr (returnsOutcome returns),
                  ask := fun call k fine next => ⟨ordinaryPermitted fine,fun answer _ => ?_⟩, pass := ?_, abor := ?_, stop := ?_,
                  transfer := ?_, copy := ?_ }
  · exact (ordinaryStill fine answer).symm ▸ next answer
  · rintro rfl; exact disciplinedPass s c param
  · rintro rfl; exact disciplinedAbor s c
  · intro which
    have other : command ≠ .abor := by rintro rfl; simp at which
    exact (disciplinedReply _ _ _).mpr ⟨trivial,fun _ _ => Outcome.kept other rfl rfl rfl rfl (.inl rfl)⟩
  · intro which op path nlst mlsd reply150 data meant _
    exact disciplinedData ⟨by rintro rfl; exact absurd which (by decide),by rintro rfl; exact absurd which (by decide)⟩ data
      (meantResolved meant)
  · rintro rfl stored free path meant; exact disciplinedCopy stored free (meantResolved meant)

end OpenPs3Ftp.Commands
