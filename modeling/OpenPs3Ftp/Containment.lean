import OpenPs3Ftp.Containment.Jobs

/-! Containment over whole sessions. The texts a session stores stay canonical
whatever is sent and however the root changes between events, so every path that
passes a wrapper, from the reactor or from a worker, lies under that wrapper's root. -/
namespace OpenPs3Ftp.Containment
open Lib Text Resolve Fs Session Commands Dispatch Program Events Worker

def Reaches (call : FsCall) : Prop :=
  ∀ (posix : Bool) (root : Buffer 1024) (r : Rooted) (contained : Bytes → Bool) (stale : Errno) (passed : FsCall),
    Canonical root.text → fsRooted posix root.text = some r → forward r contained stale call = .ok passed →
    ∀ path ∈ passed.paths, Inside r.root.text path

theorem reachesCanonical {call} (canonical : ∀ path ∈ call.paths, Canonical path) : Reaches call := by
  intro posix root r contained stale passed canonicalRoot made ok path member
  obtain ⟨rfl,under⟩ := forwardUnder ok
  rw [fsRootedCanonical canonicalRoot made] at under ⊢
  exact insideUnder canonicalRoot (canonical path member) (under path member)

def Contained (s : Server) : Call → Prop
  | .fs call => Reaches call
  | .dispatch job => ∀ rounds trace posted, Program.Runs (transferRun rounds s job) trace posted →
      (∀ e ∈ trace, Listed e.1 e.2) → ∀ e ∈ trace, ∀ call, e.1 = .fs call → Reaches call
  | _ => True

structure Stored (c : Client) : Prop where
  cwd : Canonical c.cwd.text
  rnfr : c.haveRnfr = true → Canonical c.rnfr.text
  cpfr : c.haveCpfr = true → Canonical c.cpfr.text

section Session
variable {s : Server} {c c' : Client} (root : Canonical s.root.text) (stored : Stored c)
include root stored

theorem resolvedCanonical {path} (resolved : Resolved s c path) : Canonical path := by
  obtain ⟨param,resolved⟩ := resolved
  exact canonicalResolved root stored.cwd resolved

theorem namedCanonical {path} (named : Named s c path) : Canonical path := by
  rcases named with resolved | ⟨full,resolved,parent,some_⟩ | ⟨have_,rfl⟩
  · exact resolvedCanonical root stored resolved
  · exact canonicalParent (resolvedCanonical root stored resolved) parent some_
  · exact stored.rnfr have_

theorem permittedContained {server p call} (permitted : Permitted s c p call) : Contained server call := by
  cases call
  case fs call => exact reachesCanonical fun path member => namedCanonical root stored (permitted path member)
  case dispatch job =>
    obtain ⟨-,-,-,source,target,-⟩ := permitted
    have path : Canonical job.path.text := by
      rcases source with resolved | ⟨-,have_,same⟩
      · exact resolvedCanonical root stored resolved
      · rw [same]
        exact stored.cpfr have_
    intro rounds trace posted run listed e member call same
    have walks := @walksRun rounds server job path fun copy => resolvedCanonical root stored (target copy)
    obtain ⟨first,second,split⟩ := List.append_of_mem member
    have within := (meetsRuns walks run listed).2 first e second split
    rw [same] at within
    exact reachesCanonical within
  all_goals exact trivial

theorem outcomeStored {command p} (outcome : Outcome s command c p c') : Stored c' := by
  constructor
  · rcases outcome.place with same | ⟨-,path,⟨param,resolved⟩,moved⟩
    · rw [same]
      exact stored.cwd
    · rw [moved,Buffer.printShort (visibleShort s.root.text (resolveArgShort resolved))]
      exact canonicalVisible root stored.cwd resolved
  · intro have_
    rcases outcome.rnfr with ⟨same,before⟩ | resolved
    · rw [same]
      exact stored.rnfr (before have_)
    · exact resolvedCanonical root stored resolved
  intro have_
  rcases outcome.cpfr with ⟨same,before⟩ | resolved
  · rw [same]
    exact stored.cpfr (before have_)
  · exact resolvedCanonical root stored resolved

end Session

variable {s : Server} {c : Client}

theorem followsStored {d} (root : Canonical s.root.text) (stored : Stored d.client) (follows : Follows s d c) :
    Stored c := by
  obtain ⟨c',how,same⟩ := follows
  rw [same]
  rcases how with ⟨-,-,rfl⟩ | ⟨command,-,outcome⟩
  · exact ⟨stored.cwd,stored.rnfr,stored.cpfr⟩
  · have after := outcomeStored root stored outcome
    exact ⟨after.cwd,after.rnfr,after.cpfr⟩

theorem eventContained {server revents received} (root : Canonical s.root.text) (stored : Stored c) :
    (handleClientEvents s revents received c).Obeys (fun _ _ => True) (Contained server) Stored := by
  refine meetsWeaken (fun d _ => Stored d.client) stored ?_ ?_ ?_
    (@eventDutiful s True c revents received fun _ _ => .inr trivial)
  · intro d _ call stored owed
    cases call
    case enter | tlsHandshake | cancel => exact trivial
    case dispatch => exact @permittedContained s d.client root stored server d.work _ owed.2
    all_goals exact @permittedContained s d.client root stored server d.work _ owed
  · intro d _ call answer stored owed
    cases call
    case enter name c => exact followsStored root stored owed.1
    all_goals exact stored
  intro d _ c stored ended
  obtain ⟨c',follows,⟨-,rfl⟩ | ⟨-,rfl⟩⟩ := ended
  · exact followsStored root stored follows
  · have after := followsStored root stored follows
    exact ⟨after.cwd,after.rnfr,after.cpfr⟩

theorem completionContained {server p c' trace} (stored : Stored c) (run : (datachanComplete p c).Runs trace c') :
    Stored c' ∧ ∀ e ∈ trace, Contained server e.1 := by
  have closes : ∀ e ∈ p.closes, Contained server e.1 := by
    unfold Posted.closes closing
    cases p.dataFd <;> cases p.job.pasvFd <;> simp [Contained]
  cases completeRuns run with
  | stale => exact ⟨stored,closes⟩
  | plain =>
    exact ⟨⟨stored.cwd,stored.rnfr,stored.cpfr⟩,
      List.forall_mem_append.mpr ⟨closes,List.forall_mem_singleton.mpr trivial⟩⟩
  | aborted =>
    exact ⟨⟨stored.cwd,stored.rnfr,stored.cpfr⟩,List.forall_mem_append.mpr
      ⟨closes,List.forall_mem_cons.mpr ⟨trivial,List.forall_mem_singleton.mpr trivial⟩⟩⟩

theorem momentContained {m : Moment} {c'} (root : Canonical m.root.text) (stored : Stored m.client)
    (run : (m.happening.run (m.server s) m.client).Runs m.trace c') : Stored c' ∧ ∀ e ∈ m.trace, Contained s e.1 := by
  cases same : m.happening with
  | event revents received =>
    rw [same] at run
    exact obeysRuns (eventContained root stored) run fun _ _ => trivial
  | completion posted =>
    rw [same] at run
    exact completionContained stored run

theorem livesContained {last moments} (stored : Stored c) (lives : Lives s c moments last)
    (roots : ∀ m ∈ moments, Canonical m.root.text) : ∀ m ∈ moments, ∀ e ∈ m.trace, Contained s e.1 := by
  induction lives with
  | rest => simp
  | @next m c' moments last ready run later ih =>
    obtain ⟨after,now⟩ := momentContained (roots m (by simp)) stored run
    intro n member
    rcases List.mem_cons.mp member with rfl | member
    · exact now
    · exact ih after (fun n member => roots n (by simp [member])) n member

theorem acceptedStored {peer greeting} (accepted : (acceptClient s peer).Runs greeting c) : Stored c := by
  rw [acceptRuns accepted]
  exact ⟨⟨[],rfl,by simp⟩,by simp [clientNew],by simp [clientNew]⟩

theorem pathsContained (s : Server) (peer : SockAddr) (greeting : List (Exchange Answer)) (c last : Client)
    (moments : List Moment) (accepted : (acceptClient s peer).Runs greeting c) (lives : Lives s c moments last)
    (roots : ∀ m ∈ moments, Canonical m.root.text) : ∀ m ∈ moments, ∀ e ∈ m.trace, Contained s e.1 :=
  livesContained (acceptedStored accepted) lives roots

def absent : (call : FsCall) → call.Answer
  | .closedir _ => ()
  | .openFile .. | .close _ | .read .. | .write .. | .seek .. | .fstat _ | .stat _ | .opendir _ | .readdir _ | .mkdir ..
  | .rmdir _ | .unlink _ | .rename .. | .chmod .. | .utimes .. => .error .enoent

def refusals : (call : Call) → Answer call
  | .fs call => absent call
  | .entries _ => []
  | .errno => .enoent
  | .auth .. | .bind .. | .listen _ | .dispatch _ | .tlsCreate _ => false
  | .localAddr => .unspec
  | .socket _ | .newJob _ => none
  | .boundPort _ => 0
  | .stouSeq => 0
  | .tlsHandshake => .failed
  | .send .. | .enter .. | .closeFd _ | .freeJob _ | .cancel _ | .stop => ()

def srv : Server := house.setRoot (ascii "/srv")
def sizeAsked : Happening := .event ⟨false,true,false⟩ [.bytes (ascii "USER a\nPASS b\nSIZE x/../y\n"),.wouldBlock]
def sizeMoment : Moment := .played srv srv.root visitor sizeAsked refusals

theorem pathsContainedSize : (∃ e ∈ sizeMoment.trace, e.1 = .fs (.stat (ascii "/srv/y"))) ∧
    ∀ e ∈ sizeMoment.trace, Contained srv e.1 := by
  have accepted : (acceptClient srv .unspec).Runs ((acceptClient srv .unspec).play refusals).1 visitor :=
    playRuns refusals _
  have ready : sizeAsked.Ready visitor := rfl
  refine ⟨by decide +kernel,pathsContained srv .unspec _ _ _ [sizeMoment] accepted
    (playedLives srv srv.root refusals ready) ?_ _ (List.mem_singleton_self _)⟩
  intro m member
  rw [List.mem_singleton.mp member]
  exact ⟨[ascii "srv"],by decide,by decide⟩

end OpenPs3Ftp.Containment
