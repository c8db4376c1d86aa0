import OpenPs3Ftp.Turns
import OpenPs3Ftp.Commands.Memory

/-! What a turn does with what the session keeps between commands: a line with one of
the commands that concern it, or nothing at all. -/
namespace OpenPs3Ftp.Recollection
open Lib Text Resolve Fs Session Listing Commands Dispatch Program Events

def meddles : Call → Bool
  | .enter .. | .dispatch _ | .newJob _ | .freeJob _ | .socket _ | .closeFd _ | .fs (.rename _ _) => true
  | _ => false

abbrev Idle {α : Type} (post : α → Prop) (p : Handler α) : Prop :=
  p.Obeys (fun _ _ => True) (fun call => meddles call = false) post

abbrev Unmoved (c : Client) (p : Handler Client) : Prop :=
  Idle (fun d => (memory d,d.job) = (memory c,c.job)) p

theorem idleDeed {call} (idle : meddles call = false) : deed call = false := by
  cases call
  case dispatch => contradiction
  case fs fsCall =>
    cases fsCall
    case rename => contradiction
    all_goals rfl
  all_goals rfl

section Aside
variable {s : Server} {c : Client} {param : Option Bytes} {command : Command} (other : ∀ e ∈ memorable, command ≠ e.2)
include other

theorem asideSetup : command ∉ setupCommands := fun setup => by
  have all : ∀ d ∈ setupCommands, ∃ e ∈ memorable, d = e.2 := by decide
  obtain ⟨e,member,is⟩ := all command setup
  exact other e member is

theorem ordinaryIdle {call} (fine : Ordinary s c command param call) : meddles call = false := by
  cases call
  case fs call =>
    cases call
    case rename => exact absurd fine.1 (other ("RNTO",.rnto) (by decide))
    all_goals rfl
  case socket | closeFd => exact absurd fine (asideSetup other)
  case enter | dispatch | newJob | freeJob => cases fine
  all_goals rfl

theorem returnsUnmoved {d} (returns : Returns s c param command d) : (memory d,d.job) = (memory c,c.job) := by
  cases returns
  case wired setup => exact absurd setup (asideSetup other)
  case rest | rnfr | rnto | cpfr | cpto => exact absurd other (by decide)
  all_goals rfl

theorem bystander (s c param) : Unmoved c (command.run s c param) := by
  have line : ∀ code msg d, (memory d,d.job) = (memory c,c.job) → Unmoved c (answering code msg d) :=
    fun code msg d same => ⟨rfl,fun _ _ => same⟩
  refine course { done := fun _ => returnsUnmoved other, failing := fun failure d returns => ?_,
                  ask := fun call k fine next => ⟨ordinaryIdle other fine,fun answer _ => next answer⟩, pass := fun _ => ?_,
                  abor := fun _ => ?_, stop := fun _ => ⟨rfl,fun _ _ => ⟨rfl,fun _ _ => rfl⟩⟩, transfer := fun which => ?_,
                  copy := fun which => absurd which (other ("CPTO",.cpto) (by decide)) }
  · cases failure with
    | known e => exact line _ _ d (returnsUnmoved other returns)
    | stale => exact ⟨rfl,fun e _ => line _ _ d (returnsUnmoved other returns)⟩
  · exact passMeets (r := ()) rfl (line _ _ c rfl) rfl fun _ _ => ⟨line _ _ _ rfl,line _ _ _ rfl⟩
  · unfold cmdAbor
    split <;> exact ⟨rfl,fun _ _ => rfl⟩
  · have all : ∀ d ∈ transferCommands, ∃ e ∈ memorable, d = e.2 := by decide
    obtain ⟨e,member,is⟩ := all command which
    exact absurd is (other e member)

end Aside

def parameter : Turn → Option Bytes
  | .line text => some (lineParam text)
  | _ => none

def dataJob : Exchange Answer → Option Job
  | ⟨.dispatch job,_⟩ => if job.op = .copy then none else some job
  | _ => none

def handed (trace : Trace) : List Job := (deeds trace).filterMap dataJob

theorem handedMember {trace job sent} (member : (⟨.dispatch job,sent⟩ : Exchange Answer) ∈ trace)
    (data : job.op ≠ .copy) : job ∈ handed trace :=
  List.mem_filterMap.mpr ⟨_,List.mem_filter.mpr ⟨member,rfl⟩,if_neg data⟩

theorem handedNone {trace} (idle : deeds trace = []) : handed trace = [] := by
  rw [handed,idle]
  rfl

theorem handedOne {trace c job sent} (own : Carries c job) (only : deeds trace = [⟨.dispatch job,sent⟩]) :
    handed trace = [job] := by
  obtain ⟨-,op,path,nlst,mlsd,id,data,rfl⟩ := own
  rw [handed,only]
  exact congrArg Option.toList (if_neg data)

def transfers : List Command := [.list,.nlst,.mlsd,.retr,.stor,.appe,.stou]

def tookJob (property : Job → Bool) : Exchange Answer → Bool
  | ⟨.dispatch job,sent⟩ => sent && property job
  | _ => false

theorem tookSome {property} {trace : Trace} (found : trace.any (tookJob property) = true) :
    ∃ job, ⟨.dispatch job,true⟩ ∈ trace ∧ property job = true := by
  obtain ⟨⟨call,answer⟩,member,is⟩ := List.any_eq_true.mp found
  cases call
  case dispatch job =>
    cases answer with
    | false => contradiction
    | true => exact ⟨job,member,is⟩
  all_goals contradiction

inductive Does (s : Server) (c : Client) (param : Option Bytes) :
    Command → Trace → Client → Prop where
  | pasv {trace c'} (result : Listens c 227 trace c') : Does s c param .pasv trace c'
  | epsv {trace c'} (result : Listens c 229 trace c') : Does s c param .epsv trace c'
  | port {trace c'} (result : Targets c ((portTarget param).map fun dst => (dst,none)) trace c') :
      Does s c param .port trace c'
  | eprt {trace c'} (result : Targets c (eprtWrites s param) trace c') : Does s c param .eprt trace c'
  | transfer {command trace c'} (which : command ∈ transfers) (result : Starts c trace c') :
      Does s c param command trace c'
  | unrest {trace} (no : Turnedown trace) (bad : restOffset param = none) : Does s c param .rest trace c
  | rest {trace v} (good : restOffset param = some v) (idle : deeds trace = []) (code : codes trace = [decimal 350]) :
      Does s c param .rest trace { c with rest := v }
  | unrnfr {trace} (no : Turnedown trace) : Does s c param .rnfr trace c
  | rnfr {trace path} (good : resolveArg s c param = some path) (idle : deeds trace = [])
      (code : codes trace = [decimal 350]) :
      Does s c param .rnfr trace { c with rnfr := Buffer.print 1023 path, haveRnfr := true }
  | uncpfr {trace} (no : Turnedown trace) : Does s c param .cpfr trace c
  | cpfr {trace path} (good : resolveArg s c param = some path) (idle : deeds trace = [])
      (code : codes trace = [decimal 350]) :
      Does s c param .cpfr trace { c with cpfr := Buffer.print 1023 path, haveCpfr := true }
  | rnto {trace c'} (result : Renames c trace c') : Does s c param .rnto trace c'
  | cpto {trace c'} (result : Copies c trace c') : Does s c param .cpto trace c'

theorem commandDoes {s command c c' param trace} (run : (command.run s c param).Runs trace c')
    (concerned : ∃ e ∈ memorable, command = e.2) : Does s c param command trace c' := by
  cases command
  case pasv => exact .pasv (pasvRuns run)
  case epsv => exact .epsv (epsvRuns run)
  case port => exact .port (portRuns run)
  case eprt => exact .eprt (eprtRuns run)
  case list | nlst | mlsd => exact .transfer (by decide) (listingRuns run)
  case retr => exact .transfer (by decide) (retrRuns run)
  case stor | appe => exact .transfer (by decide) (storingRuns (by decide) run)
  case stou => exact .transfer (by decide) (stouRuns run)
  case rest =>
    rcases restRuns run with ⟨bad,no,rfl⟩ | ⟨v,good,idle,code,rfl⟩
    · exact .unrest no bad
    · exact .rest good idle code
  case rnfr =>
    rcases rnfrRuns run with ⟨no,rfl⟩ | ⟨path,good,idle,code,rfl⟩
    · exact .unrnfr no
    · exact .rnfr good idle code
  case cpfr =>
    rcases cpfrRuns run with ⟨no,rfl⟩ | ⟨path,good,idle,code,rfl⟩
    · exact .uncpfr no
    · exact .cpfr good idle code
  case rnto => exact .rnto (rntoRuns run)
  case cpto => exact .cpto (cptoRuns run)
  all_goals exact absurd concerned (by decide)

inductive Deeds (c : Client) (command : Command) : Trace → Prop where
  | none : Deeds c command []
  | data {job sent} (which : command ∈ transfers) (own : Carries c job) : Deeds c command [⟨.dispatch job,sent⟩]
  | rename {path answer} (which : command = .rnto) (pending : c.haveRnfr = true) :
      Deeds c command [⟨.fs (.rename c.rnfr.text path),answer⟩]
  | copy {path id sent} (which : command = .cpto) (pending : c.haveCpfr = true) :
      Deeds c command [⟨.dispatch (copyJob { c with haveCpfr := false } path id),sent⟩]

theorem Does.done {s c c' param command trace} (does : Does s c param command trace c') :
    Deeds c command (deeds trace) := by
  have idle : deeds trace = [] → Deeds c command (deeds trace) := by
    intro none_
    rw [none_]
    exact .none
  cases does with
  | pasv result | epsv result =>
    cases result with
    | refused no | lost no => exact idle no.idle
    | made still => exact idle still
  | port result | eprt result =>
    cases result with
    | refused _ no | spoilt _ no => exact idle no.idle
    | taken _ still => exact idle still
  | transfer which result =>
    cases result with
    | refused no => exact idle no.idle
    | unsent own sent | sent own sent =>
      rw [sent]
      exact .data which own
  | unrest no | unrnfr no | uncpfr no => exact idle no.idle
  | rest _ still | rnfr _ still | cpfr _ still => exact idle still
  | rnto result =>
    cases result with
    | unnamed => exact .none
    | refused _ no => exact idle no.idle
    | asked pending only =>
      rw [only]
      exact .rename rfl pending
  | cpto result =>
    cases result with
    | unnamed => exact .none
    | busy _ _ no | refused _ _ no => exact idle no.idle
    | unsent pending _ only | sent pending _ only =>
      rw [only]
      exact .copy rfl pending

theorem Does.handsNone {s c c' param command trace} (does : Does s c param command trace c')
    (other : command ∉ transfers) : handed trace = [] := by
  have done := does.done
  rw [handed]
  generalize deeds trace = all at done ⊢
  cases done with
  | data which => exact absurd which other
  | none | rename | copy => rfl

structure Shut (c : Client) (trace : Trace) (c' : Client) : Prop where
  out : c.loggedIn = false
  same : c' = c
  told : trace = [⟨.send .command (replyText 530 (ascii "Not logged in.")),()⟩]

theorem Shut.no {c c' trace} (shut : Shut c trace c') : Turnedown trace := by
  rw [shut.told]
  exact turnedownReply _ _ (by decide)

inductive Turned (s : Server) (c : Client) (p : Played) (c' : Client) : Prop where
  | entered {name command trace} (logged : c.loggedIn = true)
      (named : ∀ e ∈ memorable, command = e.2 ↔ Names p.turn (ascii e.1))
      (begun : p.trace = ⟨.enter name c,()⟩ :: trace)
      (does : Does { s with root := p.root } c (parameter p.turn) command trace c') : Turned s c p c'
  | aside (idle : deeds p.trace = []) (same : memory c' = memory c)
      (deaf : ∀ e ∈ memorable, Names p.turn (ascii e.1) → Shut c p.trace c') : Turned s c p c'
  | dropped (turn : p.turn = .drop) (idle : deeds p.trace = [])
      (same : memory c' = { memory c with pasvFd := none }) : Turned s c p c'

theorem lineTurned {s c c' text root trace} (lined : Lined { s with root } c text trace c') :
    Turned s c ⟨root,.line text,trace⟩ c' := by
  have known := lookupKept { s with root }
  cases lined with
  | empty blank =>
    refine .aside rfl rfl fun e member is => ?_
    have none_ : ∀ e ∈ memorable, ascii e.1 ≠ [] := by decide
    exact absurd (is.symm.trans blank) (none_ e member)
  | shut out late => exact .aside rfl rfl fun _ _ _ => ⟨out,rfl,rfl⟩
  | unknown missing =>
    refine .aside rfl rfl fun e member is => ?_
    have name : (commandName text).map toupper = ascii e.1 := is
    rw [name,known e member] at missing
    contradiction
  | @entered command trace _ found gate run =>
    have named := lookupMemorable found
    by_cases concerned : ∃ e ∈ memorable, command = e.2
    · have late : ∀ e ∈ memorable, preloginCommand (ascii e.1) = false := by decide
      obtain ⟨e,member,is⟩ := concerned
      have logged : c.loggedIn = true := by
        refine gate.resolve_right fun free => ?_
        rw [(named e member).mp is,late e member] at free
        contradiction
      exact .entered logged named rfl (commandDoes run ⟨e,member,is⟩)
    have other : ∀ e ∈ memorable, command ≠ e.2 := fun e member is => concerned ⟨e,member,is⟩
    obtain ⟨same,idle⟩ := obeysRuns (bystander other { s with root } c (some (lineParam text))) run fun _ _ => trivial
    refine .aside ?_ (Prod.mk.inj same).1 fun e member is => absurd ((named e member).mpr is) (other e member)
    refine (List.filter_cons_of_neg (by simp [deed])).trans (List.filter_eq_nil_iff.mpr fun e member => ?_)
    simp [idleDeed (idle e member)]

theorem turnTurned {s c c' p} (step : (connection s).step c p c') : Turned s c p c' := by
  obtain ⟨root,turn,trace⟩ := p
  obtain ⟨-,run⟩ := step
  have idleClosing : ∀ fd, deeds (closing fd) = [] := by
    intro fd
    cases fd <;> rfl
  cases turn with
  | line text => exact lineTurned (lineRuns run)
  | urgent =>
    obtain ⟨rest,rfl,abort⟩ := urgentRuns run
    cases abortRuns abort <;> exact .aside rfl rfl fun _ _ is => is.elim
  | buffer rbuf | leave =>
    obtain ⟨rfl,rfl⟩ := runsDone.mp run
    exact .aside rfl rfl fun _ _ is => is.elim
  | shake =>
    obtain ⟨result,rfl,rfl⟩ := runsOnce run
    cases result <;> exact .aside rfl rfl fun _ _ is => is.elim
  | drop =>
    obtain ⟨rfl,rfl⟩ := disconnectRuns run
    refine .dropped rfl ?_ rfl
    cases c.job <;> exact idleClosing _
  | complete posted =>
    have idle : ∀ rest, deeds (posted.closes ++ rest) = deeds rest := by
      intro rest
      unfold Posted.closes
      cases posted.dataFd <;> cases posted.job.pasvFd <;> rfl
    cases completeRuns run with
    | stale =>
      have still := idle []
      rw [List.append_nil] at still
      exact .aside still rfl fun _ _ is => is.elim
    | plain => exact .aside (idle [_]) rfl fun _ _ is => is.elim
    | aborted => exact .aside (idle [_,_]) rfl fun _ _ is => is.elim

end OpenPs3Ftp.Recollection
