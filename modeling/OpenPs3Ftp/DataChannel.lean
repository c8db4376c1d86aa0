import OpenPs3Ftp.Conversation
import OpenPs3Ftp.Recollection

/-! The data channel of a session: a passive listener or an active target, set up by one
command and taken over by one transfer. A ledger beside the session keeps the set-up
that was last confirmed to the client; it is read off the lines and their replies. -/
namespace OpenPs3Ftp.DataChannel
open Lib Text Fs Session Commands Dispatch Program Events Recollection Worker
open Bounded (Uses usesPure usesAsk usesBind)

inductive Mode where
  | passive (listener : Fd)
  | active (target : SockAddr)
  deriving DecidableEq

/- `spoilt`: an EPRT was refused after the set-up was confirmed. -/
structure Ledger where
  mode : Option Mode
  spoilt : Bool
  deriving DecidableEq

def chosen (s : Server) (p : Played) : Option Mode :=
  if Names p.turn (ascii "PASV") ∧ codes p.trace = [decimal 227] then (listeners p.trace).head?.map .passive
  else if Names p.turn (ascii "EPSV") ∧ codes p.trace = [decimal 229] then (listeners p.trace).head?.map .passive
  else if Names p.turn (ascii "PORT") ∧ codes p.trace = [decimal 200] then (portTarget (parameter p.turn)).map .active
  else if Names p.turn (ascii "EPRT") ∧ codes p.trace = [decimal 200] then
    (eprtWrites s (parameter p.turn)).map fun written => .active written.1
  else none

def Ledger.note (s : Server) (l : Ledger) (_ : Client) (p : Played) : Ledger :=
  match chosen s p with
  | some mode => ⟨some mode,false⟩
  | none => if handed p.trace = [] then ⟨l.mode,l.spoilt || decide (Names p.turn (ascii "EPRT"))⟩ else ⟨none,false⟩

def channels (s : Server) : System (Client × Ledger) Played := (connection s).watched ⟨none,false⟩ (Ledger.note s)

def jobMode (job : Job) : Option Mode :=
  match job.pasvFd with
  | some fd => some (.passive fd)
  | none => if job.haveDataPeer then some (.active job.dataPeer) else none

/- The mode the ledger has; the target too, unless an EPRT was refused since. -/
def Ledger.Chose (l : Ledger) (job : Job) : Prop :=
  match l.mode with
  | some (.passive fd) => jobMode job = some (.passive fd) ∧ job.haveDataPeer = false
  | some (.active target) => ∃ peer, jobMode job = some (.active peer) ∧ (l.spoilt = false → peer = target)
  | none => False

def Mode.Opens (mode : Mode) : Work → Prop
  | .accept listener => mode = .passive listener
  | .socket target | .connect _ target => mode = .active target
  | _ => True

variable {s : Server}

theorem connectOpens {j mode} (given : jobMode j = some mode) : Uses mode.Opens (datachanConnectJob s j) := by
  unfold jobMode at given
  refine (makesConnect (n := 0) trivial (fun _ _ _ => trivial) (fun fd held => ?_) (fun free named => ?_) (fun _ => trivial) s).1
  · rw [held] at given
    exact (Option.some.inj given).symm
  · rw [free,named] at given
    have target := (Option.some.inj given).symm
    exact ⟨target,fun _ => target⟩

theorem runOpens {j mode} (given : jobMode j = some mode) (data : j.op ≠ .copy) (rounds) :
    Uses mode.Opens (transferRun rounds s j) := by
  unfold transferRun
  rw [if_neg data]
  refine usesBind (connectOpens given) fun connected => ?_
  split
  · exact usesPure _
  refine usesBind (usesOver ?_ (fun _ _ => trivial) ?_ (fun _ => trivial) trivial trivial trivial data rounds s)
    fun _ => usesPure _
  · intro call alone
    cases call <;> first | exact trivial | exact alone.elim
  · intro tls call moves
    cases call <;> first | exact trivial | exact moves.elim

variable {p : Played}

theorem chosenDenied (no : Turnedown p.trace) : chosen s p = none := by
  obtain ⟨code,bad,only⟩ := no.code
  have other : ∀ code ∈ errorCodes, code ≠ decimal 227 ∧ code ≠ decimal 229 ∧ code ≠ decimal 200 := by decide
  obtain ⟨pasv,epsv,port⟩ := other code bad
  simp [chosen,only,pasv,epsv,port]

theorem chosenOther (pasv : ¬ Names p.turn (ascii "PASV"))
    (epsv : ¬ Names p.turn (ascii "EPSV")) (port : ¬ Names p.turn (ascii "PORT")) (eprt : ¬ Names p.turn (ascii "EPRT")) :
    chosen s p = none := by simp [chosen,pasv,epsv,port,eprt]

inductive Effect (s : Server) (c : Client) (p : Played) (c' : Client) : Prop where
  | passive {fd} (chose : chosen s p = some (.passive fd)) (listener : c'.pasvFd = some fd)
      (unset : c'.haveDataPeer = false) (idle : handed p.trace = []) : Effect s c p c'
  | active {target} (chose : chosen s p = some (.active target)) (closed : c'.pasvFd = none)
      (written : c'.dataPeer = target) (idle : handed p.trace = []) : Effect s c p c'
  | spoilt (chose : chosen s p = none) (name : Names p.turn (ascii "EPRT")) (listener : c'.pasvFd = c.pasvFd)
      (valid : c'.haveDataPeer = c.haveDataPeer) (idle : handed p.trace = []) : Effect s c p c'
  | less (chose : chosen s p = none) (listener : c'.pasvFd = none ∨ c'.pasvFd = c.pasvFd)
      (written : c'.dataPeer = c.dataPeer) (valid : c'.haveDataPeer = c.haveDataPeer) (idle : handed p.trace = []) :
      Effect s c p c'
  | handed {job} (chose : chosen s p = none) (own : Carries c job) (only : handed p.trace = [job])
      (listener : c'.pasvFd = none) (unset : c'.haveDataPeer = false) : Effect s c p c'

variable {c c' : Client}

theorem Effect.still (chose : chosen s p = none) (idle : deeds p.trace = [])
    (same : memory c' = memory c) : Effect s c p c' :=
  .less chose (.inr (congrArg Memory.pasvFd same)) (congrArg Memory.dataPeer same) (congrArg Memory.haveDataPeer same)
    (handedNone idle)

section Entered
variable {s : Server} {c c' : Client} {p : Played} {name : Bytes} {trace : Trace}

theorem enteredSeen (begun : p.trace = ⟨.enter name c,()⟩ :: trace) :
    (deeds p.trace = deeds trace ∧ codes p.trace = codes trace ∧ listeners p.trace = listeners trace) ∧
      (Turnedown trace → chosen s p = none) := by
  refine ⟨?_,fun no => chosenDenied ?_⟩
  · rw [begun]
    exact quietCons rfl trace
  · rw [begun]
    exact no.cons rfl

theorem listensEffect {good} (begun : p.trace = ⟨.enter name c,()⟩ :: trace)
    (chose : codes p.trace = [decimal good] → chosen s p = (listeners p.trace).head?.map .passive)
    (result : Listens c good trace c') : Effect s c p c' := by
  obtain ⟨seen,denied⟩ := @enteredSeen s c p name trace begun
  cases result with
  | refused no _ => exact .still (denied no) (seen.1.trans no.idle) rfl
  | lost no _ => exact .less (denied no) (.inl rfl) rfl rfl (handedNone (seen.1.trans no.idle))
  | made idle code announced =>
    refine .passive ?_ rfl rfl (handedNone (seen.1.trans idle))
    rw [chose (seen.2.1.trans code),seen.2.2,announced]
    rfl

theorem targetsEffect {written} (begun : p.trace = ⟨.enter name c,()⟩ :: trace)
    (chose : codes p.trace = [decimal 200] → chosen s p = written.map fun w => .active w.1)
    (spoils : ∀ dst refusal, written = some (dst,some refusal) → Names p.turn (ascii "EPRT"))
    (result : Targets c written trace c') : Effect s c p c' := by
  obtain ⟨seen,denied⟩ := @enteredSeen s c p name trace begun
  cases result with
  | refused _ no => exact .still (denied no) (seen.1.trans no.idle) rfl
  | spoilt bad no => exact .spoilt (denied no) (spoils _ _ bad) rfl rfl (handedNone (seen.1.trans no.idle))
  | taken good idle code =>
    refine .active ?_ rfl rfl (handedNone (seen.1.trans idle))
    rw [chose (seen.2.1.trans code),good]
    rfl

end Entered

theorem turnEffect (step : (connection s).step c p c') : Effect s c p c' := by
  cases turnTurned step with
  | aside idle same deaf =>
    by_cases named : ∃ e ∈ memorable, Names p.turn (ascii e.1)
    · obtain ⟨e,member,is⟩ := named
      exact .still (chosenDenied (deaf e member is).no) idle same
    have other : ∀ e ∈ memorable, ¬ Names p.turn (ascii e.1) := fun e member is => named ⟨e,member,is⟩
    refine .still (chosenOther ?_ ?_ ?_ ?_) idle same
    · exact other ("PASV",.pasv) (by decide)
    · exact other ("EPSV",.epsv) (by decide)
    · exact other ("PORT",.port) (by decide)
    · exact other ("EPRT",.eprt) (by decide)
  | dropped turn idle same =>
    have silent : ∀ name, ¬ Names p.turn name := by
      intro name
      rw [turn]
      exact id
    exact .less (chosenOther (silent _) (silent _) (silent _) (silent _)) (.inl (congrArg Memory.pasvFd same))
      (congrArg Memory.dataPeer same) (congrArg Memory.haveDataPeer same) (handedNone idle)
  | @entered name command trace logged named begun does =>
    have pasv := named ("PASV",.pasv) (by decide)
    have epsv := named ("EPSV",.epsv) (by decide)
    have port := named ("PORT",.port) (by decide)
    have eprt := named ("EPRT",.eprt) (by decide)
    have idle : command ≠ .pasv → command ≠ .epsv → command ≠ .port → command ≠ .eprt → chosen s p = none :=
      fun a b c d => chosenOther (fun is => a (pasv.mpr is)) (fun is => b (epsv.mpr is)) (fun is => c (port.mpr is))
        (fun is => d (eprt.mpr is))
    have seen : deeds p.trace = deeds trace := by
      rw [begun]
      rfl
    have none_ : command ∉ transfers → Recollection.handed p.trace = [] := fun other =>
      (congrArg (List.filterMap dataJob) seen).trans (does.handsNone other)
    cases does with
    | pasv result =>
      refine listensEffect begun (fun code => ?_) result
      rw [chosen,if_pos ⟨pasv.mp rfl,code⟩]
    | epsv result =>
      refine listensEffect begun (fun code => ?_) result
      rw [chosen,if_neg (fun is => absurd (pasv.mpr is.1) (by decide)),if_pos ⟨epsv.mp rfl,code⟩]
    | port result =>
      refine targetsEffect begun (fun code => ?_) ?_ result
      · rw [chosen,if_neg (fun is => absurd (pasv.mpr is.1) (by decide)),
          if_neg (fun is => absurd (epsv.mpr is.1) (by decide)),if_pos ⟨port.mp rfl,code⟩,Option.map_map]
        rfl
      · intro dst refusal written
        cases target : portTarget (parameter p.turn) <;> rw [target] at written <;> cases written
    | eprt result =>
      refine targetsEffect begun (fun code => ?_) (fun _ _ _ => eprt.mp rfl) result
      rw [chosen,if_neg (fun is => absurd (pasv.mpr is.1) (by decide)),
        if_neg (fun is => absurd (epsv.mpr is.1) (by decide)),if_neg (fun is => absurd (port.mpr is.1) (by decide)),
        if_pos ⟨eprt.mp rfl,code⟩]
      rfl
    | transfer which result =>
      have other : ∀ command ∈ transfers, command ≠ .pasv ∧ command ≠ .epsv ∧ command ≠ .port ∧ command ≠ .eprt := by
        decide
      obtain ⟨a,b,c,d⟩ := other command which
      have chose := idle a b c d
      cases result with
      | refused no => exact .still chose (seen.trans no.idle) rfl
      | unsent own sent _ | sent own sent => exact .handed chose own (handedOne own (seen.trans sent)) rfl rfl
    | unrest | rest | unrnfr | rnfr | uncpfr | cpfr =>
      exact .less (idle (by decide) (by decide) (by decide) (by decide)) (.inr rfl) rfl rfl (none_ (by decide))
    | rnto result | cpto result =>
      have chose := idle (by decide) (by decide) (by decide) (by decide)
      cases result <;> exact .less chose (.inr rfl) rfl rfl (none_ (by decide))

structure Sound (st : Client × Ledger) : Prop where
  passive : ∀ fd, st.1.pasvFd = some fd → st.1.haveDataPeer = false ∧ st.2.mode = some (.passive fd)
  active : st.1.haveDataPeer = true →
    ∃ target, st.2.mode = some (.active target) ∧ (st.2.spoilt = false → st.1.dataPeer = target)

theorem Sound.chose {st job} (sound : Sound st) (own : Carries st.1 job) : st.2.Chose job := by
  obtain ⟨set_,op,path,nlst,mlsd,id,-,rfl⟩ := own
  unfold Ledger.Chose
  cases listener : st.1.pasvFd with
  | some fd =>
    obtain ⟨unset,mode⟩ := sound.passive fd listener
    rw [mode]
    exact ⟨by simp [jobMode,transferJob,listener],unset⟩
  | none =>
    obtain ⟨target,mode,same⟩ := sound.active (set_.resolve_left fun some_ => some_ listener)
    have valid := set_.resolve_left fun some_ => some_ listener
    rw [mode]
    exact ⟨st.1.dataPeer,by simp [jobMode,transferJob,listener,valid],same⟩

theorem stepSound {st st'} (sound : Sound st) (step : (channels s).step st p st') : Sound st' := by
  obtain ⟨c,l⟩ := st
  obtain ⟨c',l'⟩ := st'
  obtain ⟨moved,noted⟩ := step
  obtain rfl : l' = l.note s c p := noted
  cases turnEffect moved with
  | @passive socket chose listener unset _ =>
    have now : l.note s c p = ⟨some (.passive socket),false⟩ := by rw [Ledger.note,chose]
    rw [now]
    refine ⟨fun fd is => ⟨unset,?_⟩,fun valid => ?_⟩
    · rw [Option.some.inj (listener.symm.trans is)]
    · rw [unset] at valid
      contradiction
  | @active target chose closed written _ =>
    have now : l.note s c p = ⟨some (.active target),false⟩ := by rw [Ledger.note,chose]
    rw [now]
    refine ⟨fun fd is => ?_,fun _ => ⟨target,rfl,fun _ => written⟩⟩
    rw [closed] at is
    contradiction
  | spoilt chose name listener valid idle =>
    have now : l.note s c p = ⟨l.mode,true⟩ := by simp [Ledger.note,chose,idle,name]
    rw [now]
    refine ⟨fun fd is => ?_,fun is => ?_⟩
    · obtain ⟨unset,mode⟩ := sound.passive fd (listener.symm.trans is)
      exact ⟨valid.trans unset,mode⟩
    · obtain ⟨target,mode,-⟩ := sound.active (valid.symm.trans is)
      exact ⟨target,mode,nofun⟩
  | less chose listener written valid idle =>
    have mode : (l.note s c p).mode = l.mode := by simp [Ledger.note,chose,idle]
    have spoilt : (l.note s c p).spoilt = false → l.spoilt = false := by
      intro clean
      simp only [Ledger.note,chose,idle,if_true,Bool.or_eq_false_iff] at clean
      exact clean.1
    refine ⟨fun fd is => ?_,fun is => ?_⟩
    · have kept : c'.pasvFd = c.pasvFd := by
        rcases listener with closed | kept
        · rw [show c'.pasvFd = some fd from is] at closed
          contradiction
        · exact kept
      obtain ⟨unset,known⟩ := sound.passive fd (kept.symm.trans is)
      exact ⟨valid.trans unset,mode.trans known⟩
    · obtain ⟨target,known,same⟩ := sound.active (valid.symm.trans is)
      exact ⟨target,mode.trans known,fun clean => written.trans (same (spoilt clean))⟩
  | handed _ _ _ listener unset =>
    refine ⟨fun fd is => ?_,fun valid => ?_⟩
    · rw [show c'.pasvFd = some fd from is] at listener
      contradiction
    · rw [show c'.haveDataPeer = true from valid] at unset
      contradiction

/- Never a listener and a target at once; each transfer goes over the one channel that was
confirmed since the transfer before it, and leaves none behind. -/
theorem channelChosen (s : Server) (st : Client × Ledger) (reached : (channels s).Reach (fun _ _ => True) st) :
    ¬ (st.1.pasvFd ≠ none ∧ st.1.haveDataPeer = true) ∧
    ∀ p st', (channels s).step st p st' → ∀ job sent, ⟨.dispatch job,sent⟩ ∈ p.trace → job.op ≠ .copy →
      st.2.Chose job ∧ st'.1.pasvFd = none ∧ st'.1.haveDataPeer = false ∧ st'.2.mode = none ∧
      ∀ mode rounds root trace posted, jobMode job = some mode →
        (transferRun rounds { s with root } job).Runs trace posted → ∀ e ∈ trace, mode.Opens e.1 := by
  have sound : Sound st := by
    refine System.invariant ?_ (fun _ _ _ sound _ step => stepSound sound step) reached
    rintro ⟨c,l⟩ ⟨⟨peer,greeting,run⟩,fresh⟩
    obtain rfl : c = _ := acceptRuns run
    exact ⟨fun fd is => (by cases is),nofun⟩
  constructor
  · rintro ⟨listening,valid⟩
    obtain ⟨fd,listener⟩ := Option.ne_none_iff_exists'.mp listening
    rw [(sound.passive fd listener).1] at valid
    contradiction
  intro p st' step job sent member data
  have here := handedMember member data
  cases turnEffect step.1 with
  | handed chose own only listener unset =>
    obtain rfl : job = _ := List.mem_singleton.mp (only ▸ here)
    refine ⟨sound.chose own,listener,unset,?_,fun mode rounds root trace posted given run => ?_⟩
    · rw [step.2,Ledger.note,chose]
      simp [only]
    · exact (obeysRuns (runOpens given data rounds) run fun _ _ => trivial).2
  | passive _ _ _ idle | active _ _ _ idle | spoilt _ _ _ _ idle | less _ _ _ _ idle =>
    rw [idle] at here
    cases here

@[irreducible] def listening : Client × Ledger :=
  converse house (Ledger.note house) (visitor,⟨none,false⟩) (words (.error .enoent) ["USER a","PASS b","PASV"])

theorem listeningAgreed : Agreed house (Ledger.note house) (fun _ _ => True) (visitor,⟨none,false⟩)
    (words (.error .enoent) ["USER a","PASS b","PASV"]) := by decide +kernel

theorem listeningReached : (channels house).Reach (fun _ _ => True) listening := by
  unfold listening
  exact converseReach (newcomerReach .unspec rfl) listeningAgreed

def storing : Utterance := ⟨"STOU",obliging (.error .enoent)⟩

theorem channelChosenUnique : listening.2 = ⟨some (.passive 7),false⟩ ∧
    ∃ job, ⟨.dispatch job,true⟩ ∈ (storing.played house listening.1).trace ∧ listening.2.Chose job ∧
      (conversed house (Ledger.note house) listening storing).1.pasvFd = none := by
  have step : (channels house).step listening (storing.played house listening.1)
      (conversed house (Ledger.note house) listening storing) := saidStep (by decide +kernel)
  obtain ⟨job,member,data⟩ := @tookSome (fun job => decide (job.op ≠ .copy)) (storing.played house listening.1).trace
    (by decide +kernel)
  obtain ⟨chose,closed,-⟩ := (channelChosen house listening listeningReached).2 _ _ step job true member
    (of_decide_eq_true data)
  exact ⟨by decide +kernel,job,member,chose,closed⟩

def setups : List Command := [.pasv,.epsv,.port,.eprt]
def channel (c : Client) : Option Fd × SockAddr × Bool := (c.pasvFd,c.dataPeer,c.haveDataPeer)

/- EPRT wrote another target before it was refused; PASV and EPSV closed a listener before
they asked in vain for a new one. -/
def Disturbs (s : Server) (c : Client) (param : Option Bytes) (trace : Trace) : Command → Prop
  | .eprt => ∃ dst refusal, eprtWrites s param = some (dst,some refusal) ∧ dst ≠ c.dataPeer
  | .pasv | .epsv => c.pasvFd ≠ none ∧ ∃ family answer, ⟨.socket family,answer⟩ ∈ trace
  | _ => False

/- PASV with an address to advertise, EPSV with a parameter that it accepts. -/
def Accepts (c : Client) (param : Option Bytes) (trace : Trace) : Command → Prop
  | .pasv => ∃ addr ip rest, trace = ⟨.localAddr,addr⟩ :: rest ∧ advertised addr = .address ip
  | .epsv => (given param).any (fun p => atoi p ≠ controlProtocol c.peer) = false
  | _ => False

theorem acceptedDisturbs {command param trace} (run : (command.run s c param).Runs trace c')
    (accepted : Accepts c param trace command) (listens : c.pasvFd ≠ none) : Disturbs s c param trace command := by
  cases command with
  | pasv =>
    obtain ⟨addr,ip,rest,rfl,found⟩ := accepted
    obtain ⟨_,_,same,run⟩ := runsAsk.mp run
    cases same
    rw [Program.bind,found] at run
    obtain ⟨_,closed,later,rfl,-,run⟩ := runsBind.mp run
    obtain ⟨fd,rest,rfl,-⟩ := runsAsk.mp run
    exact ⟨listens,_,fd,by simp⟩
  | epsv =>
    rw [Command.run,cmdEpsv,if_neg (Bool.eq_false_iff.mp accepted)] at run
    obtain ⟨_,closed,later,rfl,-,run⟩ := runsBind.mp run
    obtain ⟨fd,rest,rfl,-⟩ := runsAsk.mp run
    exact ⟨listens,_,fd,by simp⟩
  | _ => exact accepted.elim

def Rejected (trace : Trace) : Prop :=
  ∃ code ∈ [decimal 501,decimal 522,decimal 425], code ∈ codes trace

theorem rejectedOnly {trace code} (rejected : Rejected trace) (only : codes trace = [code]) :
    code ∈ [decimal 501,decimal 522,decimal 425] := by
  obtain ⟨bad,listed,member⟩ := rejected
  rw [only,List.mem_singleton] at member
  exact member ▸ listed

theorem unlistened (closed : c.pasvFd = none) : { c with pasvFd := none } = c := by
  obtain ⟨⟩ := c
  cases closed
  rfl

theorem retargeted {dst} (same : dst = c.dataPeer) : { c with dataPeer := dst } = c := by
  obtain ⟨⟩ := c
  cases same
  rfl

theorem listensRejected {good trace} (positive : decimal good ∉ [decimal 501,decimal 522,decimal 425])
    (rejected : Rejected trace) (result : Listens c good trace c') :
    (channel c' = channel c ↔ ¬ (c.pasvFd ≠ none ∧ ∃ family answer, ⟨.socket family,answer⟩ ∈ trace)) ∧
      (channel c' = channel c → c' = c) := by
  cases result with
  | refused no unasked =>
    refine ⟨⟨fun _ disturbs => ?_,fun _ => rfl⟩,fun _ => rfl⟩
    obtain ⟨-,family,answer,asked⟩ := disturbs
    exact unasked family answer asked
  | @lost no family answer asked =>
    have closed : channel { c with pasvFd := none } = channel c ↔ c.pasvFd = none := by
      simp only [channel,Prod.mk.injEq,and_true]
      exact eq_comm
    refine ⟨closed.trans ⟨fun none_ disturbs => disturbs.1 none_,fun calm => ?_⟩,fun same => unlistened (closed.mp same)⟩
    by_contra open_
    exact calm ⟨open_,family,answer,asked⟩
  | made _ code => exact absurd (rejectedOnly rejected code) positive

theorem rejectionKeeps (s : Server) (command : Command) (setup : command ∈ setups) (c c' : Client)
    (param : Option Bytes) (trace : List (Exchange Answer)) (run : (command.run s c param).Runs trace c')
    (rejected : Rejected trace) :
    (channel c' = channel c ↔ ¬ Disturbs s c param trace command) ∧ (channel c' = channel c → c' = c) := by
  have concerned : ∀ command ∈ setups, ∃ e ∈ memorable, command = e.2 := by decide
  cases commandDoes run (concerned command setup) with
  | pasv result | epsv result => exact listensRejected (by decide) rejected result
  | port result =>
    cases result with
    | refused => exact ⟨⟨fun _ => id,fun _ => rfl⟩,fun _ => rfl⟩
    | spoilt bad => cases target : portTarget param <;> rw [target] at bad <;> cases bad
    | taken _ _ code => exact absurd (rejectedOnly rejected code) (by decide)
  | eprt result =>
    cases result with
    | refused unwritten =>
      refine ⟨⟨fun _ disturbs => ?_,fun _ => rfl⟩,fun _ => rfl⟩
      obtain ⟨dst,refusal,written,-⟩ := disturbs
      rw [unwritten] at written
      contradiction
    | @spoilt dst refusal bad no =>
      have kept : channel { c with dataPeer := dst } = channel c ↔ dst = c.dataPeer := by
        simp [channel]
      refine ⟨kept.trans ⟨fun same disturbs => ?_,fun calm => ?_⟩,fun same => retargeted (kept.mp same)⟩
      · obtain ⟨other,_,written,differs⟩ := disturbs
        rw [bad] at written
        cases written
        exact differs same
      · by_contra differs
        exact calm ⟨dst,refusal,bad,differs⟩
    | taken _ _ code => exact absurd (rejectedOnly rejected code) (by decide)
  | transfer which =>
    have apart : ∀ command ∈ transfers, command ∉ setups := by decide
    exact absurd setup (apart command which)
  | unrest | rest | unrnfr | rnfr | uncpfr | cpfr | rnto | cpto => exact absurd setup (by decide)

def unwired : (call : Call) → Answer call
  | .socket _ => none
  | call => obliging (.error .enoent) call

def targeted : Client :=
  { visitor with loggedIn := true, dataPeer := .inet ⟨127,0,0,1⟩ 1025, haveDataPeer := true }

def waiting : Client := { visitor with loggedIn := true, pasvFd := some 7 }

theorem rejectionKeepsTarget :
    ((Command.port.run house targeted (some (ascii "127,0,0,1"))).play (obliging (.error .enoent))).2 = targeted :=
  (rejectionKeeps house .port (by decide) targeted _ (some (ascii "127,0,0,1")) _ (playRuns (obliging (.error .enoent)) _)
    ⟨decimal 501,by decide,by decide +kernel⟩).2 (by decide +kernel)

/- A refused EPRT leaves an empty target that counts as given; a refused PASV leaves no
listener where there was one. -/
theorem channelDisturbed :
    (∃ trace c', (Command.eprt.run house targeted (some (ascii "|1|nowhere|21|"))).Runs trace c' ∧ Rejected trace ∧
      channel targeted = (none,.inet ⟨127,0,0,1⟩ 1025,true) ∧ channel c' = (none,.inet ⟨0,0,0,0⟩ 0,true)) ∧
    ∃ trace c', (Command.pasv.run house waiting none).Runs trace c' ∧ Rejected trace ∧
      channel waiting = (some 7,.unspec,false) ∧ channel c' = (none,.unspec,false) := by
  constructor
  · exact ⟨_,_,playRuns (obliging (.error .enoent)) _,⟨decimal 501,by decide,by decide +kernel⟩,by decide +kernel,
      by decide +kernel⟩
  · exact ⟨_,_,playRuns unwired _,⟨decimal 425,by decide,by decide +kernel⟩,by decide +kernel,by decide +kernel⟩

end OpenPs3Ftp.DataChannel
