import OpenPs3Ftp.Reactor
import OpenPs3Ftp.Reactor.Entries

/-! Data connections go to the host of the control connection: what the reactor checks
before a transfer and what the worker checks after it accepted a connection, with the
addresses a job carries from one to the other. -/
namespace OpenPs3Ftp.Bounce
open Lib Text Fs Session Commands Events Worker Program System Reactor
open Bounded (Uses usesPure usesBind usesKeeps keepsPure keepsMono keepsBind keepsAsk)

inductive Host where
  | v4 (ip : Ip4)
  | v6 (ip : Ip6)
  deriving DecidableEq

def host : SockAddr → Option Host
  | .unspec => none
  | .inet ip _ => some (.v4 ip)
  | .inet6 ip _ => some (ip.mapped.elim (.v6 ip) .v4)

def SameHost (a b : SockAddr) : Prop := host a = host b ∧ host a ≠ none

theorem addrEqHost {a b} (equal : addrEq a b = true) : SameHost a b := by
  unfold addrEq at equal
  split at equal
  · exact ⟨by simpa [host] using equal,by simp [host]⟩
  · obtain rfl := of_decide_eq_true equal
    exact ⟨rfl,by simp [host]⟩
  · have mapped := of_decide_eq_true equal
    exact ⟨by simp [host,mapped],by simp [host]⟩
  · have mapped := of_decide_eq_true equal
    exact ⟨by simp [host,mapped],by simp [host]⟩
  · cases equal

theorem SameHost.symm {a b} (same : SameHost a b) : SameHost b a := ⟨same.1.symm,same.1 ▸ same.2⟩

def linked (peer : Option SockAddr) : (call : Work) → call.Answer → Option SockAddr
  | .accept _,.ok (_,other) => some other
  | .connect _ target,.ok () => some target
  | _,_ => peer

/- Nobody but the host `ctl` is connected to, and bytes move only between it and us. -/
def Homely (ctl : SockAddr) (peer : Option SockAddr) : Work → Prop
  | .connect _ target => SameHost ctl target
  | .send .. | .recv .. | .tlsHandshake | .tlsWrite _ | .tlsRead _ | .tlsCloseNotify =>
    ∃ other, peer = some other ∧ SameHost ctl other
  | _ => True

def Opens : Work → Prop
  | .accept _ | .connect .. => True
  | _ => False

section Worker
variable {s : Server} {j : Job} {ctl : SockAddr} {peer : Option SockAddr}

theorem homelyUses {α : Type} {p : Routine α} (uses : Uses (fun call => ¬ Opens call) p) {other : SockAddr}
    (here : peer = some other) (same : SameHost ctl other) :
    Bounded.Keeps (fun _ _ => True) linked (Homely ctl) (fun _ _ => True) peer p := by
  refine keepsMono (fun _ _ _ => trivial)
    (@usesKeeps _ _ _ _ _ linked (Homely ctl) (fun peer => peer = some other) _ _ uses ?_ here)
  rintro _ call rfl closed
  cases call with
  | connect | accept => exact absurd trivial closed
  | send | recv | tlsHandshake | tlsWrite | tlsRead | tlsCloseNotify => exact ⟨⟨other,rfl,same⟩,fun _ => rfl⟩
  | _ => exact ⟨trivial,fun _ => rfl⟩

theorem homelyOwn {α : Type} {p : Routine α} (uses : Uses Own p) (r : Option SockAddr) :
    Bounded.Keeps (fun _ _ => True) linked (Homely ctl) (fun r' _ => r' = r) r p := by
  refine @usesKeeps _ _ _ _ _ linked (Homely ctl) (fun peer => peer = r) _ _ uses ?_ rfl
  rintro _ call rfl own
  cases call with
  | cancelled | fs | malloc | nowMs | poll | progress | total => exact ⟨trivial,fun _ => rfl⟩
  | _ => exact own.elim

theorem unopenedOver (data : j.op ≠ .copy) (rounds s fd) :
    Uses (fun call => ¬ Opens call) (transferOver rounds s j fd) := by
  refine usesOver ?_ (fun _ _ => id) ?_ (fun _ => id) id id id data rounds s
  · intro call alone
    cases call <;> first | exact id | exact alone.elim
  · intro tls call moves
    cases call <;> first | exact id | exact moves.elim

def Reaches (ctl : SockAddr) (r : Option SockAddr) : Connected → Prop
  | .up _ => ∃ other, r = some other ∧ SameHost ctl other
  | .failed .. => True

theorem acceptHomely (closed : s.allowForeignPort = false) (ctlPeer : j.ctlPeer = ctl) (listener : Fd) :
    Bounded.Keeps (fun _ _ => True) linked (Homely ctl) (Reaches ctl) none (acceptJob s j listener) := by
  refine keepsBind (keepsMono ?_ (homelyOwn (makesPeer (n := 0) trivial (fun _ _ => trivial) _).1 none))
  rintro _ rc rfl
  split
  · exact keepsPure.mpr trivial
  refine keepsAsk trivial fun accepted _ => ?_
  split
  · exact keepsPure.mpr trivial
  rename_i fd other
  split
  · exact keepsPure.mpr trivial
  · rename_i known
    have equal : addrEq other j.ctlPeer = true := by simpa [closed] using known
    exact keepsPure.mpr ⟨other,rfl,ctlPeer ▸ (addrEqHost equal).symm⟩

theorem reachHomely (checked : SameHost ctl j.dataPeer) :
    Bounded.Keeps (fun _ _ => True) linked (Homely ctl) (Reaches ctl) none (reachJob j) := by
  refine keepsAsk trivial fun made _ => ?_
  split
  · exact keepsPure.mpr trivial
  refine keepsAsk checked fun started _ => ?_
  split
  · exact keepsPure.mpr trivial
  refine keepsBind (keepsMono ?_ (homelyOwn (makesPeer (n := 0) trivial (fun _ _ => trivial) _).1 _))
  rintro _ rc rfl
  split
  · exact keepsPure.mpr trivial
  refine keepsAsk trivial fun error _ => ?_
  split
  · exact keepsPure.mpr trivial
  · exact keepsPure.mpr ⟨_,rfl,checked⟩

theorem runHomely (closed : s.allowForeignPort = false)
    (carried : j.op = .copy ∨ j.ctlPeer = ctl ∧ (j.haveDataPeer = true → SameHost ctl j.dataPeer)) (rounds : Nat) :
    Bounded.Keeps (fun _ _ => True) linked (Homely ctl) (fun _ _ => True) none (transferRun rounds s j) := by
  unfold transferRun
  split
  · refine keepsBind (keepsMono ?_ (homelyOwn (usesCopy (fun _ => aloneOwn) rounds j) none))
    exact fun _ _ _ => keepsPure.mpr trivial
  rename_i data
  obtain ⟨ctlPeer,checked⟩ := carried.resolve_left data
  have connects : Bounded.Keeps (fun _ _ => True) linked (Homely ctl) (Reaches ctl) none (datachanConnectJob s j) := by
    unfold datachanConnectJob
    split
    · exact acceptHomely closed ctlPeer _
    split
    · rename_i given
      exact reachHomely (checked given)
    · exact keepsPure.mpr trivial
  refine keepsBind (keepsMono ?_ connects)
  intro r connected reaches
  split
  · exact keepsPure.mpr trivial
  · obtain ⟨other,here,same⟩ := reaches
    exact keepsBind (keepsMono (fun _ _ _ => keepsPure.mpr trivial)
      (homelyUses (unopenedOver data rounds s _) here same))

end Worker

theorem carriedHomely {s c job} (closed : s.allowForeignPort = false) (carried : Carried s c job) :
    job.op = .copy ∨ job.ctlPeer = c.peer ∧ (job.haveDataPeer = true → SameHost c.peer job.dataPeer) := by
  unfold Carried at carried
  split at carried
  · exact .inl ‹_›
  obtain ⟨-,-,target,given,ctl,checked⟩ := carried
  refine .inr ⟨ctl,fun have_ => ?_⟩
  rw [target]
  have matches_ : addrEq c.peer c.dataPeer = true := by
    simpa [precheck,peerMatches,closed,← given,have_] using checked
  exact addrEqHost matches_

theorem peersMatched (workers : Nat) (s : Server) (closed : s.allowForeignPort = false) (st : State) (log : List Act)
    (reached : (reactor workers s).logged.Reached (st,log)) (id : ClientId) (peer : SockAddr)
    (accepted : .accept id peer ∈ log) :
    (∀ f ∈ flights st, .call f.owner ⟨.dispatch f.job,true⟩ ∈ log) ∧
    ∀ job, .call id ⟨.dispatch job,true⟩ ∈ log → ∀ rounds trace result,
      (transferRun rounds s job).Runs trace result → ∀ first e second, trace = first ++ e :: second →
        Homely peer (noted linked none first) e.1 := by
  have traced := tracedReached reached
  refine ⟨fun f here => ?_,fun job dispatched rounds trace result run => ?_⟩
  · obtain ⟨m,sound⟩ := soundReached reached
    exact flightDispatched sound here
  obtain ⟨before,after,whole⟩ := List.append_of_mem dispatched
  obtain ⟨c,-,from_,carried⟩ := traced.carried before id job after whole
  have ctl : c.peer = peer := traced.once id _ _ from_ accepted
  rw [← ctl]
  exact (meetsRuns (runHomely closed (carriedHomely closed carried) rounds) run fun _ _ => trivial).2

def sending : (call : Work) → call.Answer
  | .poll .. => .ready false true false
  | .recv .. => .ok (ascii "x")
  | call => stalled call

theorem sendingRun {s job} (plain : stallable job = true) :
    ⟨.connect 7 job.dataPeer,.ok ()⟩ ∈ (Program.play sending (transferRun 1 s job)).1 ∧
      ⟨.recv 7 transferBuf,.ok (ascii "x")⟩ ∈ (Program.play sending (transferRun 1 s job)).1 := by
  rw [stallableShape plain]
  exact ⟨List.mem_of_getElem? (i := 1) rfl,List.mem_of_getElem? (i := 9) rfl⟩

/- An upload over a connection to the client's own address. -/
theorem peersMatchedUpload : house.allowForeignPort = false ∧ ∃ st log id peer job,
    (reactor 1 house).logged.Reached (st,log) ∧ .accept id peer ∈ log ∧ .call id ⟨.dispatch job,true⟩ ∈ log ∧
    ∃ trace result, (transferRun 1 house job).Runs trace result ∧ ⟨.connect 7 job.dataPeer,.ok ()⟩ ∈ trace ∧
      ⟨.recv 7 transferBuf,.ok (ascii "x")⟩ ∈ trace ∧
      ∀ first e second, trace = first ++ e :: second → Homely peer (noted linked none first) e.1 := by
  obtain ⟨acts,st,path,-,one,plain,-⟩ := stuckSome
  have reached : (reactor 1 house).logged.Reached (st,acts) := Path.reached (path.logged []) (.start ⟨bootedStart,rfl⟩)
  obtain ⟨m,sound⟩ := soundReached reached
  obtain ⟨f,only⟩ := List.length_eq_one_iff.mp one
  have dispatched := flightDispatched sound (f := f) (by simp [flights,only])
  obtain ⟨before,after,split⟩ := List.append_of_mem dispatched
  obtain ⟨c,-,from_,-⟩ := (tracedReached reached).carried before f.owner f.job after split
  obtain ⟨connects,moves⟩ := @sendingRun house f.job (plain f (by simp [only])).2
  have run := playRuns sending (transferRun 1 house f.job)
  exact ⟨rfl,st,acts,f.owner,c.peer,f.job,reached,from_,dispatched,_,_,run,connects,moves,
    (peersMatched 1 house rfl st acts reached f.owner c.peer from_).2 f.job dispatched 1 _ _ run⟩

end OpenPs3Ftp.Bounce
