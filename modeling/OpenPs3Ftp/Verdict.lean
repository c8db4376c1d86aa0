import OpenPs3Ftp.Worker.Running

/-! The final reply of a job against what became of its data connection. The reply is made
of one error number and of whether the connection came up, so that the number says how a
connection failed and who is to blame for a transfer that did not end. -/
namespace OpenPs3Ftp.Verdict
open Lib Text Fs Session Commands Events Worker Program
open Setting (leavesPure leavesAsk leavesThen leavesVia leavesLoop leavesPost)

/- What became of a job: whether the connection came up, was closed after the transfer, was
aborted or lost, whether anything failed, and the error number that was last met. -/
structure Account where
  up : Bool
  closing : Bool
  aborted : Bool
  lost : Bool
  faulty : Bool
  told : Rc
  deriving DecidableEq

def Account.start : Account := ⟨false,false,false,false,false,some .enotconn⟩
def going (faulty : Bool) (told : Rc) : Account := ⟨true,false,false,false,faulty,told⟩

variable (s : Server) (j : Job) (a : Account)

def begun : Account :=
  if j.needTls ∧ ¬ s.tls then going true (some .enotsup) else going false none

def Account.reach : (call : Work) → call.Answer → Account
  | .cancelled,seen => { a with aborted := a.aborted || seen, told := some (if seen then .ecanceled else .eagain) }
  | .poll ..,.failed e => { a with told := some e }
  | .poll ..,.timeout => { a with told := some .etimedout }
  | .accept _,.error e => { a with told := some e }
  | .accept _,.ok (_,peer) =>
    if ¬ s.allowForeignPort ∧ ¬ addrEq peer j.ctlPeer then { a with told := some .eacces } else begun s j
  | .socket _,.error e => { a with told := some e }
  | .connect ..,.error e => { a with told := some e }
  | .soError _,some e => { a with told := some e }
  | .soError _,none => begun s j
  | _,_ => a

def fsFailure : (call : FsCall) → call.Answer → Option Errno
  | .write ..,.ok 0 => some .eio
  | .openFile ..,answer | .read ..,answer | .write ..,answer | .seek ..,answer | .stat _,answer | .opendir _,answer
  | .readdir _,answer => errorOf answer
  | _,_ => none

def refusal {α : Type} : Except Errno α → Option Errno
  | .error .eagain => none
  | .error e => some e
  | .ok _ => none

/- The connection is lost by an exchange: the peer hung up or reset it, its socket failed or
its TLS session did. -/
def severed : (call : Work) → call.Answer → Option Errno
  | .poll ..,.ready true _ false => some .epipe
  | .send ..,.ok 0 => some .epipe
  | .send ..,answer => refusal answer
  | .recv ..,answer => refusal answer
  | .tlsHandshake,.failed | .tlsWrite _,.moved 0 | .tlsWrite _,.failed | .tlsRead _,.failed => some .epipe
  | _,_ => none

def broken : (call : Work) → call.Answer → Option Errno
  | .fs call,answer => fsFailure call answer
  | .malloc,false => some .enomem
  | .poll ..,.failed .eagain => none
  | .poll ..,.failed e => some e
  | .tlsCreate ..,false => some .epipe
  | _,_ => none

def Account.fail (e : Errno) : Account := { a with faulty := true, told := some e }

def Account.note : (call : Work) → call.Answer → Account
  | .cancelled,true => { a with aborted := true }.fail .ecanceled
  | .progress _,_ => { a with told := none }
  | .tlsCloseNotify,_ => { a with closing := true }
  | _,_ => a

def Account.suffer (call : Work) (answer : call.Answer) : Account :=
  match severed call answer,broken call answer with
  | some e,_ => { a with lost := true }.fail e
  | none,some e => a.fail e
  | none,none => a.note call answer

def accounting : Setting Work Work.Answer Account where
  can a
    | .cancelled,seen => a.aborted = true → seen = true
    | _,_ => True
  next a call answer := if a.closing then a else if a.up then a.suffer call answer else a.reach s j call answer

instance decidableCan (s : Server) (j : Job) (a : Account) (call : Work) (answer : call.Answer) :
    Decidable ((accounting s j).can a call answer) := by
  cases call
  case cancelled => exact inferInstanceAs (Decidable (a.aborted = true → answer = true))
  all_goals exact isTrue trivial

structure Fits (tells : Nat → Prop) (a : Account) : Prop where
  unopened : tells 425 ↔ a.up = false ∧ a.aborted = false
  cut : tells 426 ↔ a.aborted = true ∨ a.lost = true
  completed : tells 226 ↔ a.up = true ∧ a.faulty = false
  failed : tells 550 ∨ tells 451 → a.up = true

def severing : List Rc := [some .ecanceled,some .epipe,some .econnreset,some .etimedout]

def Apt : Prop :=
  a.aborted = true ∨
    if a.up = false then a.told = some .etimedout ∨ a.told = some .eacces
    else if a.lost then a.told ∈ severing
    else a.faulty = true → a.told ≠ none ∧ a.told ∉ severing

structure Ended (e : Errno) (a : Account) : Prop where
  up : a.up = true
  opened : a.closing = false
  faulty : a.faulty = true
  told : a.told = some e
  aborted : a.aborted = true → e = .ecanceled

def Came (faulty : Bool) (told : Rc) (a : Account) (rc : Rc) : Prop :=
  (rc = none ∧ a = going faulty told) ∨ ∃ e, rc = some e ∧ Ended e a

variable {call : Work} {e : Errno} {rc : Rc}

section Transfer
variable {s : Server} {j : Job} {f : Bool} {t : Rc} {a : Account} {spent : Account → Prop}

theorem severedEnds {answer} (cut : severed call answer = some e) :
    Ended e ((accounting s j).next (going f t) call answer) := by
  show Ended e ((going f t).suffer call answer)
  rw [Account.suffer,cut]
  exact ⟨rfl,rfl,rfl,rfl,nofun⟩

theorem brokenEnds {answer} (whole : severed call answer = none) (bad : broken call answer = some e) :
    Ended e ((accounting s j).next (going f t) call answer) := by
  show Ended e ((going f t).suffer call answer)
  rw [Account.suffer,whole,bad]
  exact ⟨rfl,rfl,rfl,rfl,nofun⟩

theorem abortedEnds (ready : a.up = true) (opened : a.closing = false) :
    Ended .ecanceled ((accounting s j).next a .cancelled true) := by
  obtain ⟨up,closing,aborted,lost,faulty,told⟩ := a
  cases ready
  cases opened
  exact ⟨rfl,rfl,rfl,rfl,fun _ => rfl⟩

theorem refusalOther {α : Type} (other : e ≠ .eagain) : refusal (.error e : Except Errno α) = some e := by
  unfold refusal
  split <;> simp_all

theorem goingStill {answer} (here : a = going f t) (sends : Sends call) (well : fault call answer = false) :
    (accounting s j).next a call answer = going f t := by
  subst here
  cases call <;> cases sends
  case cancelled | malloc | tlsCreate | tlsHandshake => cases answer <;> first | rfl | cases well
  case poll =>
    cases answer with
    | failed e =>
      obtain rfl : e = .eagain := by simpa [fault] using well
      rfl
    | timeout => rfl
    | ready hangup asked cancel => cases hangup <;> cases cancel <;> first | rfl | cases well
  case send =>
    cases answer with
    | error e =>
      obtain rfl : e = .eagain := by simpa [fault] using well
      rfl
    | ok n => cases n <;> first | rfl | cases well
  case tlsWrite =>
    cases answer with
    | moved n => cases n <;> first | rfl | cases well
    | _ => first | rfl | cases well

theorem faultEnds {answer} (here : a = going f t) (sends : Sends call) (failed : fault call answer = true) :
    Ended (faultCode call answer) ((accounting s j).next a call answer) := by
  subst here
  cases call <;> cases sends
  case cancelled | malloc | tlsCreate | tlsHandshake =>
    cases answer <;> first | exact abortedEnds rfl rfl | exact severedEnds rfl | exact brokenEnds rfl rfl | cases failed
  case poll =>
    cases answer with
    | failed e =>
      refine brokenEnds rfl ?_
      cases e <;> first | rfl | cases failed
    | timeout => cases failed
    | ready hangup asked cancel => cases hangup <;> cases cancel <;> first | exact severedEnds rfl | cases failed
  case send =>
    cases answer with
    | error e => exact severedEnds (refusalOther (by simpa [fault] using failed))
    | ok n => cases n <;> first | exact severedEnds rfl | cases failed
  case tlsWrite =>
    cases answer with
    | moved n => cases n <;> first | exact severedEnds rfl | cases failed
    | _ => first | exact severedEnds rfl | cases failed

theorem waitCame (fd event timeout) : (accounting s j).Leaves spent
    (fun a rc => ((rc = none ∨ rc = some .eagain) ∧ a = going f t) ∨ ∃ e, e ≠ .eagain ∧ rc = some e ∧ Ended e a)
    (going f t) (waitFd fd event timeout) :=
  waitLeaves (fun _ _ _ here sends _ well _ => goingStill here sends well)
    (fun _ _ _ here sends _ failed => faultEnds here sends failed) fd event timeout rfl

theorem sendCame (rounds ch bytes) :
    (accounting s j).Leaves (fun _ => True) (Came f t) (going f t) (sendAll rounds ch bytes) :=
  @sendLeaves _ _ _ _ (fun a _ => a = going f t) (fun a e => Ended e a) (fun _ _ _ => trivial)
    (fun _ _ _ _ here _ sends _ well _ => goingStill here sends well)
    (fun _ _ _ _ here _ sends well _ _ => goingStill here sends well)
    (fun _ _ _ _ here _ sends _ failed => faultEnds here sends failed) rounds ch bytes rfl

def Quiet : Work → Prop
  | .fs (.close _) | .fs (.closedir _) | .fs (.fstat _) | .tlsFree | .total _ | .nowMs => True
  | _ => False

theorem quietStill (quiet : Quiet call) (answer) : (accounting s j).next a call answer = a := by
  have still : a.suffer call answer = a ∧ a.reach s j call answer = a := by
    cases call with
    | fs call =>
      cases call with
      | close _ | closedir _ | fstat _ => exact ⟨rfl,rfl⟩
      | _ => exact quiet.elim
    | tlsFree | total _ | nowMs => exact ⟨rfl,rfl⟩
    | _ => exact quiet.elim
  change ite _ a (ite _ _ _) = a
  rw [still.1,still.2,ite_self,ite_self]

theorem quietCame (call) (quiet : Quiet call) (answer) (came : Came f t a rc) :
    Came f t ((accounting s j).next a call answer) rc := by rwa [quietStill quiet]

theorem writeCame (rounds fd bytes) :
    (accounting s j).Leaves (fun _ => True) (Came f t) (going f t) (fsWriteAll rounds fd bytes) := by
  refine leavesLoop (fun a _ => a = going f t) (fun _ _ _ => trivial) ?_ rounds rfl
  rintro a rest rfl
  unfold writeRound
  split
  · exact leavesPure (.inl ⟨rfl,rfl⟩)
  refine leavesAsk fun wrote _ => ?_
  cases wrote with
  | error e => exact leavesPure (.inr ⟨e,rfl,brokenEnds rfl rfl⟩)
  | ok n =>
    cases n with
    | zero => exact leavesPure (.inr ⟨.eio,rfl,brokenEnds rfl rfl⟩)
    | succ n => exact leavesPure rfl

theorem recvCame (ch size) : (accounting s j).Leaves spent
    (fun a got => ((got = .error .eagain ∨ ∃ bytes, got = .ok bytes) ∧ a = going f t) ∨
      ∃ e, e ≠ .eagain ∧ got = .error e ∧ Ended e a) (going f t) (recvSome ch size) := by
  have again : ∀ event, (accounting s j).Leaves spent
      (fun a got => ((got = .error .eagain ∨ ∃ bytes, got = .ok bytes) ∧ a = going f t) ∨
        ∃ e, e ≠ .eagain ∧ got = .error e ∧ Ended e a) (going f t) (recvAgain ch.fd event) := by
    intro event
    refine leavesThen (waitCame ch.fd event 1000) fun a rc held => ?_
    rcases held with ⟨rfl | rfl,here⟩ | ⟨e,other,rfl,ended⟩
    · exact leavesPure (.inl ⟨.inl rfl,here⟩)
    · exact leavesPure (.inl ⟨.inl rfl,here⟩)
    · exact leavesPure (.inr ⟨e,other,rfl,ended⟩)
  refine leavesAsk fun seen _ => ?_
  cases seen with
  | true => exact leavesPure (.inr ⟨_,by decide,rfl,abortedEnds rfl rfl⟩)
  | false =>
    simp
    split
    · refine leavesAsk fun got _ => ?_
      cases got with
      | moved bytes => exact leavesPure (.inl ⟨.inr ⟨bytes,rfl⟩,rfl⟩)
      | wantRead | wantWrite => exact again _
      | failed => exact leavesPure (.inr ⟨_,by decide,rfl,severedEnds rfl⟩)
    refine leavesThen (waitCame ch.fd .pollin 1000) fun a rc held => ?_
    rcases held with ⟨rfl | rfl,rfl⟩ | ⟨e,other,rfl,ended⟩
    · refine Setting.leavesOne fun got _ => ?_
      cases got with
      | ok bytes => exact .inl ⟨.inr ⟨bytes,rfl⟩,rfl⟩
      | error e =>
        by_cases same : e = .eagain
        · subst same
          exact .inl ⟨.inl rfl,rfl⟩
        · exact .inr ⟨e,same,rfl,severedEnds (refusalOther same)⟩
    · exact leavesPure (.inl ⟨.inl rfl,rfl⟩)
    · exact leavesPure (.inr ⟨e,other,rfl,ended⟩)

theorem seekCame (fd offset) : (accounting s j).Leaves spent (Came f t) (going f t) (seekRest fd offset) := by
  unfold seekRest
  split
  · exact leavesPure (.inl ⟨rfl,rfl⟩)
  refine leavesAsk fun sought _ => ?_
  cases sought with
  | error e => exact leavesPure (.inr ⟨e,rfl,brokenEnds rfl rfl⟩)
  | ok n => exact leavesPure (.inl ⟨rfl,rfl⟩)

theorem bufferedCame {fd body} (inner : (accounting s j).Leaves spent (Came f t) (going f t) body) :
    (accounting s j).Leaves spent (Came f t) (going f t) (buffered fd body) := by
  refine leavesVia (Came f t) (leavesAsk fun made _ => ?_) fun a rc came => leavesAsk fun closed _ =>
    leavesPure (quietCame (.fs (.close fd)) trivial closed came)
  cases made with
  | true => exact inner
  | false => exact leavesPure (.inr ⟨_,rfl,brokenEnds rfl rfl⟩)

abbrev Runs (s : Server) (j : Job) (p : Routine Rc) : Prop :=
  (accounting s j).Leaves (fun _ => True) (Came false none) (going false none) p

theorem retrCame (rounds ch) : Runs s j (transferRetr rounds j ch) := by
  refine leavesAsk fun opened _ => ?_
  cases opened with
  | error e => exact leavesPure (.inr ⟨e,rfl,brokenEnds rfl rfl⟩)
  | ok fd =>
    refine leavesAsk fun found _ => ?_
    have total : (accounting s j).Leaves (fun _ => True) (fun a _ => a = going false none) (going false none)
        (reportTotal found) := by
      unfold reportTotal
      split
      · split
        · exact Setting.leavesOne fun _ _ => rfl
        · exact leavesPure rfl
      · exact leavesPure rfl
    refine leavesThen total ?_
    rintro a _ rfl
    refine leavesThen (seekCame fd j.rest) fun a rc came => ?_
    rcases came with ⟨rfl,rfl⟩ | ⟨e,rfl,ended⟩
    · refine bufferedCame (leavesLoop (fun a _ => a = going false none) (fun _ _ _ => trivial) ?_ rounds rfl)
      rintro a sent rfl
      refine leavesAsk fun seen _ => ?_
      cases seen with
      | true => exact leavesPure (.inr ⟨_,rfl,abortedEnds rfl rfl⟩)
      | false =>
        refine leavesAsk fun got _ => ?_
        match got with
        | .error e => exact leavesPure (.inr ⟨e,rfl,brokenEnds rfl rfl⟩)
        | .ok [] => exact leavesPure (.inl ⟨rfl,rfl⟩)
        | .ok (b :: bytes) =>
          refine leavesThen (sendCame rounds ch (b :: bytes)) fun a rc came => ?_
          rcases came with ⟨rfl,rfl⟩ | ⟨e,rfl,ended⟩
          · exact leavesAsk fun _ _ => leavesPure rfl
          · exact leavesPure (.inr ⟨e,rfl,ended⟩)
    · exact leavesAsk fun closed _ => leavesPure (quietCame (.fs (.close fd)) trivial closed (.inr ⟨e,rfl,ended⟩))

theorem storCame (rounds ch) : Runs s j (transferStor rounds j ch) := by
  refine leavesAsk fun opened _ => ?_
  cases opened with
  | error e => exact leavesPure (.inr ⟨e,rfl,brokenEnds rfl rfl⟩)
  | ok fd =>
    refine leavesThen (seekCame fd _) fun a rc came => ?_
    rcases came with ⟨rfl,rfl⟩ | ⟨e,rfl,ended⟩
    · refine bufferedCame (leavesLoop (fun a _ => a = going false none) (fun _ _ _ => trivial) ?_ rounds rfl)
      rintro a stored rfl
      refine leavesAsk fun seen _ => ?_
      cases seen with
      | true => exact leavesPure (.inr ⟨_,rfl,abortedEnds rfl rfl⟩)
      | false =>
        refine leavesThen (recvCame ch transferBuf) fun a got held => ?_
        rcases held with ⟨rfl | ⟨bytes,rfl⟩,rfl⟩ | ⟨e,other,rfl,ended⟩
        · exact leavesPure rfl
        · cases bytes with
          | nil => exact leavesPure (.inl ⟨rfl,rfl⟩)
          | cons b bytes =>
            refine leavesThen (writeCame rounds fd (b :: bytes)) fun a rc came => ?_
            rcases came with ⟨rfl,rfl⟩ | ⟨e,rfl,ended⟩
            · exact leavesAsk fun _ _ => leavesPure rfl
            · exact leavesPure (.inr ⟨e,rfl,ended⟩)
        · cases e <;> first | exact absurd rfl other | exact leavesPure (.inr ⟨_,rfl,ended⟩)
    · exact leavesAsk fun closed _ => leavesPure (quietCame (.fs (.close fd)) trivial closed (.inr ⟨e,rfl,ended⟩))

inductive Listed : Account → Batch → Prop where
  | well {lines sent} : Listed (going false none) ⟨lines,none,sent⟩
  | broken {lines sent} (e : Errno) : Listed (going true (some e)) ⟨lines,some e,sent⟩
  | aborted {a lines sent} (seen : a.aborted = true) (ended : Ended .ecanceled a) : Listed a ⟨lines,some .ecanceled,sent⟩
  | unsent {a sent e} (ended : Ended e a) : Listed a ⟨[],some e,sent⟩

structure Settled (a : Account) (rc : Rc) : Prop where
  up : a.up = true
  result : rc = a.told
  well : a.faulty = false → a.told = none ∧ a.lost = false ∧ a.aborted = false
  aborted : a.aborted = true → a.told = some .ecanceled

theorem goingSettled : Settled (going f none) none :=
  ⟨rfl,rfl,fun _ => ⟨rfl,rfl,rfl⟩,nofun⟩

theorem endedSettled (ended : Ended e a) : Settled a (some e) := by
  refine ⟨ended.up,ended.told.symm,fun well => ?_,fun seen => ?_⟩
  · rw [ended.faulty] at well
    contradiction
  · rw [ended.told,ended.aborted seen]

theorem cameSettled (came : Came f none a rc) : Settled a rc := by
  rcases came with ⟨rfl,rfl⟩ | ⟨e,rfl,ended⟩
  · exact goingSettled
  · exact endedSettled ended

theorem flushCame (rounds ch) {lines} (filled : lines ≠ []) (rc sent) :
    (accounting s j).Leaves (fun _ => True) (fun a b => (b.rc = none ∧ a = going f none) ∨
      ∃ e, b.rc = some e ∧ b.lines = [] ∧ Ended e a) (going f t) (listFlush rounds ch ⟨lines,rc,sent⟩) := by
  unfold listFlush
  rw [if_neg filled]
  refine leavesThen (sendCame rounds ch lines) fun a rc came => ?_
  rcases came with ⟨rfl,rfl⟩ | ⟨e,rfl,ended⟩
  · exact leavesAsk fun _ _ => leavesPure (.inl ⟨rfl,rfl⟩)
  · exact leavesPure (.inr ⟨e,rfl,rfl,ended⟩)

theorem listRoundCame (rounds ch dir lines sent) :
    (accounting s j).Leaves (fun _ => True)
      (fun a next => Sum.elim (fun b => b.rc = none ∧ a = going false none) (Listed a) next) (going false none)
      (listRound rounds s j ch dir ⟨lines,none,sent⟩) := by
  refine leavesAsk fun seen _ => ?_
  cases seen with
  | true => exact leavesPure (.aborted rfl (abortedEnds rfl rfl))
  | false =>
    refine leavesAsk fun entry _ => ?_
    match entry with
    | .error e => exact leavesPure (.broken e)
    | .ok none => exact leavesPure .well
    | .ok (some de) =>
      refine leavesVia (fun a b => (b.rc = none ∧ a = going false none) ∨ ∃ e, b.rc = some e ∧ b.lines = [] ∧ Ended e a)
        ?_ fun a b held => ?_
      · split
        · by_cases filled : lines = []
          · subst filled
            exact leavesPure (.inl ⟨rfl,rfl⟩)
          · exact flushCame rounds ch filled none sent
        · exact leavesPure (.inl ⟨rfl,rfl⟩)
      obtain ⟨lines,rc,sent⟩ := b
      rcases held with ⟨rfl,here⟩ | ⟨e,rfl,rfl,ended⟩
      · exact leavesPure ⟨rfl,here⟩
      · exact leavesPure (.unsent ended)

theorem lastFlush (rounds ch) {b} (listed : Listed a b) :
    (accounting s j).Leaves (fun _ => True) (fun a b => Settled a b.rc) a (listFlush rounds ch b) := by
  have ended : ∀ {f : Bool} {a : Account} {b : Batch}, (b.rc = none ∧ a = going f none) ∨
      (∃ e, b.rc = some e ∧ b.lines = [] ∧ Ended e a) → Settled a b.rc := by
    rintro f a b (⟨code,rfl⟩ | ⟨e,code,-,ended⟩)
    · rw [code]
      exact goingSettled
    · rw [code]
      exact endedSettled ended
  by_cases filled : b.lines = []
  · unfold listFlush
    rw [if_pos filled]
    refine leavesPure ?_
    cases listed with
    | well => exact goingSettled
    | broken e => exact endedSettled ⟨rfl,rfl,rfl,rfl,nofun⟩
    | aborted seen ended | unsent ended => exact endedSettled ended
  cases listed with
  | well => exact leavesPost (fun _ _ held => ended held) (flushCame rounds ch filled none _)
  | broken e => exact leavesPost (fun _ _ held => ended held) (flushCame rounds ch filled _ _)
  | @aborted a lines sent seen ended =>
    have sending : (accounting s j).Leaves (fun _ => True) (fun a rc => rc = some .ecanceled ∧ Ended .ecanceled a) a
        (sendAll rounds ch lines) := by
      refine leavesLoop (fun a rest => a.aborted = true ∧ Ended .ecanceled a ∧ rest ≠ []) (fun _ _ _ => trivial) ?_
        rounds ⟨seen,ended,filled⟩
      rintro a rest ⟨seen,ended,filled⟩
      unfold sendRound
      rw [if_neg filled]
      refine leavesAsk fun again can => ?_
      cases can seen
      exact leavesPure ⟨rfl,abortedEnds ended.up ended.opened⟩
    unfold listFlush
    rw [if_neg filled]
    refine leavesThen sending ?_
    rintro a rc ⟨rfl,ended⟩
    exact leavesPure (endedSettled ended)
  | unsent ended => exact absurd rfl filled

theorem quietSettled (call) (quiet : Quiet call) (answer) (settled : Settled a rc) :
    Settled ((accounting s j).next a call answer) rc := by rwa [quietStill quiet]

theorem listSettled (rounds ch) :
    (accounting s j).Leaves (fun _ => True) Settled (going false none) (transferList rounds s j ch) := by
  refine leavesAsk fun found _ => ?_
  cases found with
  | error e => exact leavesPure (endedSettled (brokenEnds rfl rfl))
  | ok st =>
    dsimp only
    split
    · exact leavesThen (lastFlush rounds ch .well) fun a b settled => leavesPure settled
    refine leavesAsk fun opened _ => ?_
    cases opened with
    | error e => exact leavesPure (endedSettled (brokenEnds rfl rfl))
    | ok dir =>
      refine leavesVia Listed (leavesLoop (fun a b => b.rc = none ∧ a = going false none) (fun _ _ _ => trivial) ?_
        rounds ⟨rfl,rfl⟩) fun a b listed => ?_
      · rintro a ⟨lines,rc,sent⟩ ⟨rfl,rfl⟩
        exact listRoundCame rounds ch dir lines sent
      · refine leavesThen (lastFlush rounds ch listed) fun a b settled => ?_
        exact leavesAsk fun closed _ => leavesPure (quietSettled (.fs (.closedir dir)) trivial closed settled)

theorem opSettled (rounds) (data : j.op ≠ .copy) (ch) :
    (accounting s j).Leaves (fun _ => True) Settled (going false none) (transferOp rounds s j ch) := by
  unfold transferOp
  split
  · exact listSettled rounds ch
  · exact leavesPost (fun _ _ => cameSettled) (retrCame rounds ch)
  · exact leavesPost (fun _ _ => cameSettled) (storCame rounds ch)
  · exact leavesPost (fun _ _ => cameSettled) (storCame rounds ch)
  · contradiction

theorem closingStill (closing : a.closing = true) (call answer) :
    (accounting s j).next a call answer = a := if_pos closing

theorem alertSettled (result) (settled : Settled a rc) :
    Settled ((accounting s j).next a .tlsCloseNotify result) rc ∧
      ((accounting s j).next a .tlsCloseNotify result).closing = true := by
  cases closing : a.closing with
  | true => exact ⟨by rwa [closingStill closing],by rwa [closingStill closing]⟩
  | false =>
    have same : (accounting s j).next a .tlsCloseNotify result = { a with closing := true } := by
      show (if a.closing then a else if a.up then a.suffer .tlsCloseNotify result else _) = _
      rw [if_neg (by simp [closing]),if_pos settled.up]
      rfl
    rw [same]
    exact ⟨⟨settled.up,settled.result,settled.well,settled.aborted⟩,rfl⟩

theorem shutdownSettled (fd) (settled : Settled a rc) :
    (accounting s j).Leaves (fun _ => True) (fun a _ => Settled a rc) a (tlsShutdown fd rc) := by
  refine @shutdownLeaves _ _ _ _ (Settled · rc) (fun a => Settled a rc ∧ a.closing = true) (Settled · rc) ?_ ?_ ?_ fd rc settled
  · exact fun a result held => alertSettled result (held.elim id And.left)
  · intro a fd event timeout polled shut
    rwa [closingStill shut.2]
  · exact fun a freed held => quietSettled .tlsFree trivial freed (held.elim id And.left)

theorem overSettled (rounds) (data : j.op ≠ .copy) (fd) :
    (accounting s j).Leaves (fun _ => True) Settled (begun s j) (transferOver rounds s j fd) := by
  by_cases sealed : j.needTls = true
  · by_cases having : s.tls = true
    · rw [begun,if_neg (fun lacking => lacking.2 having)]
      unfold transferOver
      rw [if_neg (fun bare => bare sealed)]
      refine leavesThen (@setupLeaves _ _ _ _ (· = going false none) (fun a e => Ended e a) (fun _ _ => trivial)
        (fun _ _ _ here sends _ well _ => goingStill here sends well)
        (fun _ _ _ here sends _ failed => faultEnds here sends failed) (· = going false none)
        (fun _ now here => (@quietStill .nowMs s j _ trivial now).trans here) rounds s fd rfl) fun a out held => ?_
      rcases held with ⟨rfl,-,rfl⟩ | ⟨e,code,-,ended⟩ | ⟨-,-,lacking,-⟩
      rotate_left 2
      · simp [having] at lacking
      · refine leavesThen (opSettled rounds data ⟨fd,true⟩) fun a rc settled => ?_
        exact leavesThen (shutdownSettled fd settled) fun a _ settled => leavesPure settled
      obtain ⟨session,rc⟩ := out
      subst code
      refine leavesVia Settled (leavesPure (endedSettled ended)) fun a rc settled => ?_
      cases session with
      | false => exact leavesPure settled
      | true => exact leavesThen (shutdownSettled fd settled) fun a _ settled => leavesPure settled
    rw [begun,if_pos ⟨sealed,having⟩]
    unfold transferOver dataTlsSetup
    rw [if_neg (fun bare => bare sealed),if_pos having]
    exact leavesPure (endedSettled ⟨rfl,rfl,rfl,rfl,nofun⟩)
  rw [begun,if_neg (fun both => sealed both.1)]
  unfold transferOver
  rw [if_pos sealed]
  exact opSettled rounds data ⟨fd,false⟩

end Transfer

section Connection
variable {s : Server} {j : Job} {t : Rc} {spent : Account → Prop}

def down (told : Rc) : Account := ⟨false,false,false,false,false,told⟩

structure Missed (e : Errno) (a : Account) : Prop where
  down : a.up = false
  whole : a.lost = false
  told : a.told = some e
  aborted : a.aborted = true → e = .ecanceled

theorem downMissed (e) : Missed e (down (some e)) := ⟨rfl,rfl,rfl,nofun⟩

theorem peerMissed (fd event) : (accounting s j).Leaves spent
    (fun a rc => (rc = none ∧ a = down t) ∨ ∃ e, rc = some e ∧ Missed e a) (down t) (waitPeer fd event) := by
  refine leavesAsk fun polled _ => ?_
  cases polled with
  | failed e => exact leavesPure (.inr ⟨e,rfl,downMissed e⟩)
  | timeout => exact leavesPure (.inr ⟨_,rfl,downMissed .etimedout⟩)
  | ready hangup asked cancel =>
    cases cancel with
    | false => exact leavesPure (.inl ⟨rfl,rfl⟩)
    | true =>
      refine leavesAsk fun seen _ => leavesPure (.inr ?_)
      cases seen with
      | false => exact ⟨_,rfl,downMissed .eagain⟩
      | true => exact ⟨.ecanceled,rfl,rfl,rfl,rfl,fun _ => rfl⟩

def Reached (s : Server) (j : Job) (a : Account) : Connected → Prop
  | .up _ => a = begun s j
  | .failed _ e => Missed e a

theorem connectReached : (accounting s j).Leaves spent (Reached s j) .start (datachanConnectJob s j) := by
  unfold datachanConnectJob
  split
  · rename_i listener _
    refine leavesThen (peerMissed listener .pollin) fun a rc held => ?_
    rcases held with ⟨rfl,rfl⟩ | ⟨e,rfl,missed⟩
    · refine leavesAsk fun accepted _ => ?_
      cases accepted with
      | error e => exact leavesPure (downMissed e)
      | ok both =>
        obtain ⟨fd,peer⟩ := both
        have next : (accounting s j).next (down (some .enotconn)) (.accept listener) (.ok (fd,peer)) =
            if ¬ s.allowForeignPort ∧ ¬ addrEq peer j.ctlPeer then down (some .eacces) else begun s j := rfl
        rw [next]
        dsimp only
        split
        · exact leavesPure (downMissed .eacces)
        · exact leavesPure rfl
    · exact leavesPure missed
  split
  · refine leavesAsk fun made _ => ?_
    cases made with
    | error e => exact leavesPure (downMissed e)
    | ok fd =>
      refine leavesAsk fun started _ => ?_
      cases started with
      | error e => exact leavesPure (downMissed e)
      | ok _ =>
        refine leavesThen (peerMissed fd .pollout) fun a rc held => ?_
        rcases held with ⟨rfl,rfl⟩ | ⟨e,rfl,missed⟩
        · refine leavesAsk fun error _ => ?_
          cases error with
          | some e => exact leavesPure (downMissed e)
          | none => exact leavesPure rfl
        · exact leavesPure missed
  · exact leavesPure (downMissed .enotconn)

end Connection

structure Agrees (j : Job) (a : Account) (p : Posted) : Prop where
  job : p.job = j
  up : p.connOk = a.up
  result : p.result = a.told
  reason : a.up = false → a.told ≠ none ∧ a.lost = false
  well : a.up = true → a.faulty = false → a.told = none ∧ a.lost = false ∧ a.aborted = false
  aborted : a.aborted = true → a.told = some .ecanceled

theorem runAgrees (rounds s) {j} (data : j.op ≠ .copy) :
    (accounting s j).Leaves (fun _ => True) (Agrees j) .start (transferRun rounds s j) := by
  unfold transferRun
  rw [if_neg data]
  refine leavesThen connectReached fun a connected reached => ?_
  cases connected with
  | failed dataFd e =>
    refine leavesPure ⟨rfl,reached.down.symm,reached.told.symm,fun _ => ⟨by simp [reached.told],reached.whole⟩,?_,?_⟩
    · intro up
      rw [reached.down] at up
      contradiction
    · intro seen
      rw [reached.told,reached.aborted seen]
  | up fd =>
    cases reached
    refine leavesThen (overSettled rounds data fd) fun a rc settled => leavesPure ?_
    refine ⟨rfl,settled.up.symm,settled.result,fun down => ?_,fun _ => settled.well,settled.aborted⟩
    rw [settled.up] at down
    contradiction

def Tells (calls : Trace) (code : Nat) : Prop :=
  ∃ text, (⟨.send (.finished j.id) (replyText code text),()⟩ : Exchange Answer) ∈ calls

def codes : List Nat := [425,426,226,250,550,451]

variable {p : Posted}

theorem tellsVerdict {c c' calls code} (run : (datachanComplete p c).Runs calls c')
    (here : p.job.generation = c.generation) (known : code ∈ codes) :
    Tells p.job calls code ↔ p.verdict.1 = code := by
  have each : ∀ v ∈ [226,250,425,426,451,550], ∀ code ∈ codes,
      (decimal v).length = 3 ∧ (decimal code).length = 3 ∧ (decimal code = decimal v → v = code) := by decide +kernel
  obtain ⟨three,three',apart⟩ := each _ (verdictKnown p) code known
  have spoken : ∀ text, replyText code text = replyText p.verdict.1 p.verdict.2 → p.verdict.1 = code := by
    intro text same
    have front := congrArg (List.take 3) same
    rw [replyTextCode text three',replyTextCode _ three] at front
    exact apart front
  have unspoken : ∀ about text, (⟨.send about text,()⟩ : Exchange Answer) ∉ p.closes := by
    intro about text member
    rcases List.mem_append.mp member with member | member
    all_goals
      obtain ⟨fd,-,same⟩ := List.mem_map.mp member
      cases same
  cases completeRuns run with
  | stale left => exact absurd here left
  | plain _ calm =>
    constructor
    · rintro ⟨text,member⟩
      rcases List.mem_append.mp member with member | member
      · exact absurd member (unspoken _ _)
      · refine spoken text ?_
        simpa [Posted.reply] using member
    · rintro rfl
      exact ⟨p.verdict.2,List.mem_append_right _ (List.mem_singleton_self _)⟩
  | aborted _ pending =>
    constructor
    · rintro ⟨text,member⟩
      rcases List.mem_append.mp member with member | member
      · exact absurd member (unspoken _ _)
      · refine spoken text ?_
        simpa [Posted.reply,abortReply] using member
    · rintro rfl
      exact ⟨p.verdict.2,List.mem_append_right _ List.mem_cons_self⟩

theorem verdictDown (down : p.connOk = false) (data : p.job.op ≠ .copy) :
    (p.verdict.1 = 425 ↔ p.result = some .etimedout ∨ p.result = some .eacces) ∧
      (p.verdict.1 = 426 ↔ p.result = some .ecanceled) ∧ p.verdict.1 ≠ 226 ∧ p.verdict.1 ≠ 550 := by
  unfold Posted.verdict
  rw [if_pos ⟨by simp [down],data⟩]
  split <;> simp_all

theorem verdictUp (up : p.connOk = true) (data : p.job.op ≠ .copy) :
    p.verdict.1 ≠ 425 ∧ (p.verdict.1 = 426 ↔ p.result ∈ severing) ∧ (p.verdict.1 = 226 ↔ p.result = none) := by
  unfold Posted.verdict severing
  rw [if_neg (fun both => both.1 up)]
  split <;> simp_all

theorem untold {tells : Nat → Prop} {code n} (told : ∀ n ∈ codes, tells n ↔ code = n) (known : n ∈ codes)
    (other : code ≠ n) : ¬ tells n := fun heard => other ((told n known).mp heard)

theorem fitsCut {tells a code} (told : ∀ n ∈ codes, tells n ↔ code = n) (same : code = 426)
    (away : a.up = false → a.aborted = true) (why : a.aborted = true ∨ a.lost = true)
    (bad : a.up = true → a.faulty = true) : Fits tells a := by
  subst same
  refine ⟨iff_of_false ?_ ?_,iff_of_true ((told 426 (by decide)).mpr rfl) why,iff_of_false ?_ ?_,?_⟩
  · exact untold told (by decide) (by decide)
  · rintro ⟨down,calm⟩
    rw [away down] at calm
    contradiction
  · exact untold told (by decide) (by decide)
  · rintro ⟨up,well⟩
    rw [bad up] at well
    contradiction
  · exact fun other => absurd other (not_or.mpr ⟨untold told (by decide) (by decide),untold told (by decide) (by decide)⟩)

section Fitting
variable {tells : Nat → Prop} {j : Job} {a : Account} {p : Posted} (agrees : Agrees j a p) (data : p.job.op ≠ .copy)
  (told : ∀ n ∈ codes, tells n ↔ p.verdict.1 = n)
include agrees data told

theorem fitsDown (down : a.up = false) : Fits tells a ↔ Apt a := by
  obtain ⟨unopened,cut,other,another⟩ := verdictDown (agrees.up.trans down) data
  rw [agrees.result] at unopened cut
  have up : ¬ a.up = true := by simp [down]
  cases seen : a.aborted with
  | true =>
    refine iff_of_true (fitsCut told (cut.mpr (agrees.aborted seen)) (fun _ => seen) (.inl seen) fun yes => absurd yes up) ?_
    exact .inl seen
  | false =>
    have apt : Apt a ↔ p.verdict.1 = 425 := by
      rw [unopened,Apt,seen,if_pos down]
      simp
    rw [apt]
    constructor
    · exact fun fits => (told 425 (by decide)).mp (fits.unopened.mpr ⟨down,seen⟩)
    intro same
    obtain ⟨-,whole⟩ := agrees.reason down
    rw [same] at told
    refine ⟨iff_of_true ((told 425 (by decide)).mpr rfl) ⟨down,seen⟩,iff_of_false ?_ ?_,iff_of_false ?_ (by simp [down]),?_⟩
    · exact untold told (by decide) (by decide)
    · simp [seen,whole]
    · exact untold told (by decide) (by decide)
    · exact fun other => absurd other (not_or.mpr ⟨untold told (by decide) (by decide),untold told (by decide) (by decide)⟩)

theorem fitsUp (up : a.up = true) : Fits tells a ↔ Apt a := by
  obtain ⟨opened,cut,completed⟩ := verdictUp (agrees.up.trans up) data
  rw [agrees.result] at cut completed
  have rest : Fits tells a ↔ (a.told ∈ severing ↔ a.aborted = true ∨ a.lost = true) ∧ (a.told = none ↔ a.faulty = false) := by
    rw [← cut,← completed]
    constructor
    · intro fits
      have well := fits.completed
      rw [told 226 (by decide),up] at well
      exact ⟨(told 426 (by decide)).symm.trans fits.cut,by simpa using well⟩
    rintro ⟨lost,well⟩
    refine ⟨iff_of_false ?_ (by simp [up]),(told 426 (by decide)).trans lost,?_,fun _ => up⟩
    · exact fun other => opened ((told 425 (by decide)).mp other)
    · rw [told 226 (by decide),well,up]
      simp
  rw [rest,Apt,if_neg (by simp [up])]
  cases faulty : a.faulty with
  | false =>
    obtain ⟨none_,whole,calm⟩ := agrees.well up faulty
    simp [none_,whole,calm,severing]
  | true =>
    cases seen : a.aborted with
    | true => simp [agrees.aborted seen,severing]
    | false =>
      cases a.lost with
      | true =>
        simp only [Bool.false_eq_true,false_or,or_true,iff_true,if_true,Bool.true_eq_false,iff_false]
        refine ⟨And.left,fun member => ⟨member,fun none_ => ?_⟩⟩
        rw [none_] at member
        exact absurd member (by decide)
      | false => simp [and_comm]

end Fitting

/- The reply is the right one exactly when the error number is. -/
theorem replyFits (rounds : Nat) (s : Server) (j : Job) (data : j.op ≠ .copy) (trace : List (Exchange Work.Answer))
    (p : Posted) (run : Program.Runs (transferRun rounds s j) trace (some p))
    (genuine : (accounting s j).Genuine .start trace) (c c' : Client) (here : j.generation = c.generation)
    (calls : List (Exchange Answer)) (ended : (datachanComplete p c).Runs calls c') :
    Fits (Tells j calls) ((accounting s j).after .start trace) ↔ Apt ((accounting s j).after .start trace) := by
  have held := Setting.yieldsRuns (runAgrees rounds s data) run genuine
  have agrees : Agrees j ((accounting s j).after .start trace) p := held
  have same := agrees.job
  subst same
  have told : ∀ n ∈ codes, Tells p.job calls n ↔ p.verdict.1 = n := fun n known => tellsVerdict ended here known
  cases up : ((accounting s p.job).after .start trace).up with
  | false => exact fitsDown agrees data told up
  | true => exact fitsUp agrees data told up

def econnrefused : Errno := .other 111

def refusing : (call : Work) → call.Answer
  | .soError _ => some econnrefused
  | call => smoothly call


def trace (oracle : (call : Work) → call.Answer) : Work.Trace :=
  ((transferRun 9 house smallJob).play oracle).1

theorem repliesVisitor (data : p.dataFd = some 4) (active : p.job.pasvFd = none)
    (here : p.job.generation = visitor.generation) : (datachanComplete p visitor).Runs [⟨.closeFd 4,()⟩,p.reply] visitor := by
  have closes : (closeJob p).Runs [⟨.closeFd 4,()⟩] () := by
    rw [closeJob,data,active]
    exact runsBind.mpr ⟨_,(),[],rfl,.ask () (.done ()),.done ()⟩
  refine runsBind.mpr ⟨_,(),_,rfl,closes,?_⟩
  rw [if_neg (fun away => away here)]
  exact invokeRuns (.send (.finished p.job.id) _) () (.done visitor)

def posted (rc : Rc) : Posted := ⟨smallJob,some 4,rc = none,rc⟩

theorem replyFitsSmooth : Fits (Tells smallJob [⟨.closeFd 4,()⟩,(posted none).reply])
      ((accounting house smallJob).after .start (trace smoothly)) ↔
    Apt ((accounting house smallJob).after .start (trace smoothly)) := by
  have run := Program.playRuns smoothly (transferRun 9 house smallJob)
  have ended : ((transferRun 9 house smallJob).play smoothly).2 = some (posted none) := by decide +kernel
  rw [ended] at run
  exact replyFits 9 house smallJob (by decide) _ _ run (by decide +kernel) visitor _ rfl _ (repliesVisitor rfl rfl rfl)

theorem refusedUnfit : ∃ p calls c', Program.Runs (transferRun 9 house smallJob) (trace refusing) (some p) ∧
    (accounting house smallJob).Genuine .start (trace refusing) ∧ smallJob.generation = visitor.generation ∧
    (datachanComplete p visitor).Runs calls c' ∧ Tells smallJob calls 451 ∧
    ((accounting house smallJob).after .start (trace refusing)).up = false ∧
    ¬ Fits (Tells smallJob calls) ((accounting house smallJob).after .start (trace refusing)) := by
  have run := Program.playRuns refusing (transferRun 9 house smallJob)
  have ended : ((transferRun 9 house smallJob).play refusing).2 = some (posted (some econnrefused)) := by decide +kernel
  rw [ended] at run
  have down : ((accounting house smallJob).after .start (trace refusing)).up = false := by decide +kernel
  have told : Tells smallJob [⟨.closeFd 4,()⟩,(posted (some econnrefused)).reply] 451 :=
    ⟨(posted (some econnrefused)).verdict.2,List.mem_cons_of_mem _ List.mem_cons_self⟩
  refine ⟨_,_,_,run,by decide +kernel,rfl,repliesVisitor rfl rfl rfl,told,down,fun fits => ?_⟩
  rw [fits.failed (.inr told)] at down
  contradiction

end OpenPs3Ftp.Verdict
