import OpenPs3Ftp.Lib.Setting
import OpenPs3Ftp.Worker.Transfer

/-! What a worker's exchanges amount to: the bytes they put on the data connection and
the answers that fail a transfer. Waiting for the peer and sending all of a buffer are
followed through any setting here. -/
namespace OpenPs3Ftp.Worker
open Lib Text Fs Session
open Setting (leavesPure leavesAsk leavesBind leavesThen leavesLoop leavesPost)

def moved : (call : Work) → call.Answer → Bytes
  | .send _ bytes,.ok n => bytes.take n
  | .tlsWrite bytes,.moved n => bytes.take n
  | _,_ => []

/- Errors and cancellation. A poll that was woken by the cancel pipe says nothing about
the socket, and a missing `fstat` only leaves the progress without its total. -/
def fault : (call : Work) → call.Answer → Bool
  | .cancelled,cancelled => cancelled
  | .malloc,made => !made
  | .fs (.openFile ..),.error _ => true
  | .fs (.read ..),.error _ => true
  | .fs (.seek ..),.error _ => true
  | .fs (.stat _),.error _ => true
  | .fs (.opendir _),.error _ => true
  | .fs (.readdir _),.error _ => true
  | .poll ..,.failed e => e ≠ .eagain
  | .poll ..,.ready hangup _ cancel => hangup && !cancel
  | .send ..,.error e => e ≠ .eagain
  | .send ..,.ok n => n = 0
  | .tlsCreate ..,made => !made
  | .tlsHandshake,result => result = .failed
  | .tlsWrite _,.moved n => n = 0
  | .tlsWrite _,.failed => true
  | _,_ => false

/- The error that a failing call makes a routine of the data connection return. -/
def faultCode : (call : Work) → call.Answer → Errno
  | .cancelled,_ => .ecanceled
  | .malloc,_ => .enomem
  | .poll ..,.failed e => e
  | .send ..,.error e => e
  | _,_ => .epipe

/- Before the data connection is up, until the closing alert, and after it. -/
inductive Phase where | connecting | transferring | closing
  deriving DecidableEq, Repr

def Phase.after : Phase → Work → Phase
  | .connecting,.nowMs | .connecting,.fs _ => .transferring
  | .transferring,.tlsCloseNotify => .closing
  | phase,_ => phase

/- The course of a job: only what happens while it transfers can fail it. `reported` is
`j->bytes`, and `j->final_bytes` in the end. -/
structure Course where
  phase : Phase
  faulty : Bool
  sent : Bytes
  reported : Nat
  deriving DecidableEq, Repr

def Course.begin : Course := ⟨.connecting,false,[],0⟩

def progressed (reported : Nat) : Work → Nat
  | .progress bytes => bytes
  | _ => reported

def Course.note (c : Course) (call : Work) (answer : call.Answer) : Course :=
  ⟨c.phase.after call,c.faulty || (c.phase.after call = .transferring && fault call answer),
   c.sent ++ moved call answer,progressed c.reported call⟩

def Sends : Work → Prop
  | .cancelled | .poll .. | .malloc | .tlsCreate .. | .tlsHandshake | .send .. | .tlsWrite _ => True
  | _ => False

section
variable {c : Course} {call : Work} {answer : call.Answer}

theorem faultStill (failed : fault call answer = true) : moved call answer = [] := by
  unfold fault at failed
  unfold moved
  split <;> simp_all

theorem begunAfter {phase : Phase} (call) (begun : phase ≠ .connecting) : phase.after call ≠ .connecting := by
  cases phase with
  | connecting => exact absurd rfl begun
  | transferring | closing => cases call <;> simp [Phase.after]

theorem sendsPhase (phase : Phase) (sends : Sends call) : phase.after call = phase := by
  cases call <;> cases sends <;> cases phase <;> rfl

theorem sendsReported (reported) (sends : Sends call) : progressed reported call = reported := by
  cases call <;> cases sends <;> rfl

theorem Course.sends (sends : Sends call) (well : fault call answer = false) :
    c.note call answer = { c with sent := c.sent ++ moved call answer } := by
  simp [Course.note,sendsPhase _ sends,sendsReported _ sends,well]

theorem Course.fails (sends : Sends call) (failed : fault call answer = true) (going : c.phase = .transferring) :
    c.note call answer = { c with faulty := true } := by
  simp [Course.note,sendsPhase _ sends,sendsReported _ sends,failed,going,faultStill failed]

end

section
variable {σ : Type} {w : Setting Work Work.Answer σ} {spent : σ → Prop} {st : σ}

section
variable {Inv : σ → Prop} {Bad : σ → Errno → Prop}
  (idle : ∀ st call answer, Inv st → Sends call → w.can st call answer → fault call answer = false →
    moved call answer = [] → Inv (w.next st call answer))
  (bad : ∀ st call answer, Inv st → Sends call → w.can st call answer → fault call answer = true →
    Bad (w.next st call answer) (faultCode call answer))
include idle bad

theorem interruptedLeaves (inv : Inv st) :
    w.Leaves spent (fun st rc => ((rc = none ∨ rc = some .eagain) ∧ Inv st) ∨ ∃ e, e ≠ .eagain ∧ rc = some e ∧ Bad st e)
      st interrupted := by
  refine leavesAsk fun cancelled possible => leavesPure ?_
  cases cancelled with
  | false => exact .inl ⟨.inr rfl,idle _ _ _ inv trivial possible rfl rfl⟩
  | true => exact .inr ⟨_,by decide,rfl,bad _ _ _ inv trivial possible rfl⟩

theorem waitLeaves (fd event timeout) (inv : Inv st) :
    w.Leaves spent (fun st rc => ((rc = none ∨ rc = some .eagain) ∧ Inv st) ∨ ∃ e, e ≠ .eagain ∧ rc = some e ∧ Bad st e)
      st (waitFd fd event timeout) := by
  refine leavesAsk fun polled possible => ?_
  cases polled with
  | failed e =>
    refine leavesPure ?_
    by_cases same : e = .eagain
    · exact .inl ⟨.inr (by rw [same]),idle _ _ _ inv trivial possible (by simp [fault,same]) rfl⟩
    · exact .inr ⟨e,same,rfl,bad _ _ _ inv trivial possible (by simp [fault,same])⟩
  | timeout => exact interruptedLeaves idle bad (idle _ _ _ inv trivial possible rfl rfl)
  | ready hangup asked cancel =>
    cases cancel with
    | true => exact interruptedLeaves idle bad (idle _ _ _ inv trivial possible (by simp [fault]) rfl)
    | false =>
      cases hangup with
      | true => exact leavesPure (.inr ⟨_,by decide,rfl,bad _ _ _ inv trivial possible rfl⟩)
      | false =>
        have kept := idle _ (.poll fd event timeout) _ inv trivial possible rfl rfl
        cases asked with
        | true => exact leavesPure (.inl ⟨.inl rfl,kept⟩)
        | false => exact leavesPure (.inl ⟨.inr rfl,kept⟩)

theorem awaitingLeaves {τ β : Type} (fd : Fd) (event : PollEvent) (again : τ) (failed : Errno → β) (inv : Inv st) :
    w.Leaves spent (fun st next => (next = .inl again ∧ Inv st) ∨ ∃ e, next = .inr (failed e) ∧ Bad st e) st
      (awaiting fd event again failed) := by
  refine leavesThen (waitLeaves idle bad fd event 1000 inv) fun st rc held => ?_
  rcases held with ⟨rfl | rfl,inv⟩ | ⟨e,other,rfl,bad⟩
  · exact leavesPure (.inl ⟨rfl,inv⟩)
  · exact leavesPure (.inl ⟨rfl,inv⟩)
  · cases e <;> first | exact absurd rfl other | exact leavesPure (.inr ⟨_,rfl,bad⟩)

end

variable {Inv : σ → Bytes → Prop} {Bad : σ → Errno → Prop} (low : ∀ st rest, Inv st rest → spent st)
  (idle : ∀ st rest call answer, Inv st rest → rest ≠ [] → Sends call → w.can st call answer →
    fault call answer = false → moved call answer = [] → Inv (w.next st call answer) rest)
  (sent : ∀ st rest call answer, Inv st rest → rest ≠ [] → Sends call → fault call answer = false → moved call answer ≠ [] →
    moved call answer <+: rest → Inv (w.next st call answer) (rest.drop (moved call answer).length))
  (bad : ∀ st rest call answer, Inv st rest → rest ≠ [] → Sends call → w.can st call answer → fault call answer = true →
    Bad (w.next st call answer) (faultCode call answer))
include idle sent bad

theorem sendRoundLeaves (ch : Channel) (rest : Bytes) (inv : Inv st rest) :
    w.Leaves spent (fun st next => Sum.elim (Inv st) (fun rc => (rc = none ∧ Inv st []) ∨ ∃ e, rc = some e ∧ Bad st e) next) st
      (sendRound ch rest) := by
  have forward : ∀ {st} call answer n, Sends call → Inv st rest → fault call answer = false → rest ≠ [] →
      moved call answer = rest.take (n + 1) → Inv (w.next st call answer) (rest.drop (n + 1)) := by
    intro st call answer n sends inv well some_ same
    have filled : moved call answer ≠ [] := by simp [same,some_]
    have step := sent st rest call answer inv some_ sends well filled (same ▸ List.take_prefix _ _)
    have cut : rest.drop (min (n + 1) rest.length) = rest.drop (n + 1) := by
      by_cases short : n + 1 ≤ rest.length
      · rw [Nat.min_eq_left short]
      · rw [Nat.min_eq_right (by omega),List.drop_of_length_le (by omega),List.drop_of_length_le (by omega)]
    rwa [same,List.length_take,cut] at step
  have waiting : ∀ {st} event, rest ≠ [] → Inv st rest → w.Leaves spent
      (fun st next => Sum.elim (Inv st) (fun rc => (rc = none ∧ Inv st []) ∨ ∃ e, rc = some e ∧ Bad st e) next) st
      (awaiting ch.fd event rest some) := by
    intro st event some_ inv
    refine leavesPost ?_
      (awaitingLeaves (fun st call answer inv => idle st rest call answer inv some_)
        (fun st call answer inv => bad st rest call answer inv some_) ch.fd event rest some inv)
    intro st next held
    rcases held with ⟨rfl,inv⟩ | ⟨e,rfl,bad⟩
    · exact inv
    · exact .inr ⟨e,rfl,bad⟩
  unfold sendRound
  split
  · rename_i empty
    exact leavesPure (.inl ⟨rfl,empty ▸ inv⟩)
  rename_i some_
  refine leavesAsk fun cancelled possible => ?_
  cases cancelled with
  | true => exact leavesPure (.inr ⟨_,rfl,bad _ _ _ _ inv some_ trivial possible rfl⟩)
  | false =>
    have inv := idle _ _ .cancelled _ inv some_ trivial possible rfl rfl
    simp only [Bool.false_eq_true,if_false]
    split
    · refine leavesAsk fun wrote possible => ?_
      cases wrote with
      | moved n =>
        cases n with
        | zero => exact leavesPure (.inr ⟨_,rfl,bad _ _ _ _ inv some_ trivial possible rfl⟩)
        | succ n => exact leavesPure (forward (.tlsWrite rest) (.moved (n + 1)) n trivial inv (by simp [fault]) some_ rfl)
      | wantRead | wantWrite => exact waiting _ some_ (idle _ _ _ _ inv some_ trivial possible rfl rfl)
      | failed => exact leavesPure (.inr ⟨_,rfl,bad _ _ _ _ inv some_ trivial possible rfl⟩)
    refine leavesThen (waitLeaves (fun st call answer inv => idle st rest call answer inv some_)
      (fun st call answer inv => bad st rest call answer inv some_) ch.fd .pollout 1000 inv) fun st rc held => ?_
    rcases held with ⟨rfl | rfl,inv⟩ | ⟨e,other,rfl,bad⟩
    · refine leavesAsk fun answer possible => ?_
      cases answer with
      | ok n =>
        cases n with
        | zero => exact leavesPure (.inr ⟨_,rfl,bad _ _ _ _ inv some_ trivial possible rfl⟩)
        | succ n => exact leavesPure (forward (.send ch.fd rest) (.ok (n + 1)) n trivial inv (by simp [fault]) some_ rfl)
      | error e =>
        by_cases same : e = .eagain
        · subst same
          exact leavesPure (idle _ _ _ _ inv some_ trivial possible rfl rfl)
        · have failed : fault (.send ch.fd rest) (.error e) = true := by simp [fault,same]
          have ended := bad _ _ (.send ch.fd rest) _ inv some_ trivial possible failed
          cases e <;> first | exact absurd rfl same | exact leavesPure (.inr ⟨_,rfl,ended⟩)
    · exact leavesPure inv
    · cases e <;> first | exact absurd rfl other | exact leavesPure (.inr ⟨_,rfl,bad⟩)

include low

theorem sendLeaves (rounds ch bytes) (inv : Inv st bytes) :
    w.Leaves spent (fun st rc => (rc = none ∧ Inv st []) ∨ ∃ e, rc = some e ∧ Bad st e) st (sendAll rounds ch bytes) :=
  leavesLoop Inv low (fun _ rest inv => sendRoundLeaves idle sent bad ch rest inv) rounds inv

end
end OpenPs3Ftp.Worker
