import OpenPs3Ftp.Lib.Bounded
import OpenPs3Ftp.Commands.Data

/-! The worker's side of a data connection: setting it up (`datachan.c`) and moving
bytes over it until they are moved or the job is cancelled (`transfer.c`). Sockets
are those of a POSIX build, where a cancel pipe is polled beside each of them. -/
namespace OpenPs3Ftp.Worker
open Lib Text Fs Session Commands

inductive PollEvent where | pollin | pollout
  deriving DecidableEq, Repr

/- What `poll` reports: the descriptor hung up, the event asked for, the cancel pipe. -/
inductive Polled where
  | failed (errno : Errno)
  | timeout
  | ready (hangup asked cancel : Bool)
  deriving DecidableEq, Repr

inductive TlsResult (α : Type) where
  | moved (amount : α)
  | wantRead
  | wantWrite
  | failed
  deriving DecidableEq, Repr

inductive Work where
  | cancelled
  | fs (call : FsCall)
  | malloc
  | nowMs
  | poll (fd : Fd) (event : PollEvent) (timeout : Nat)
  | accept (listener : Fd)
  | socket (target : SockAddr)
  | connect (fd : Fd) (target : SockAddr)
  | soError (fd : Fd)
  | send (fd : Fd) (bytes : Bytes)
  | recv (fd : Fd) (size : Nat)
  | tlsCreate (fd : Fd) (deadline : Int)
  | tlsHandshake
  | tlsWrite (bytes : Bytes)
  | tlsRead (size : Nat)
  | tlsCloseNotify
  | tlsFree
  | progress (bytes : Nat)
  | total (size : UInt64)
  deriving DecidableEq

/- A connection in progress counts as started; only other failures are reported. -/
abbrev Work.Answer : Work → Type
  | .cancelled => Bool
  | .fs call => call.Answer
  | .malloc => Bool
  | .nowMs => Int
  | .poll .. => Polled
  | .accept _ => Except Errno (Fd × SockAddr)
  | .socket _ => Except Errno Fd
  | .connect .. => Except Errno Unit
  | .soError _ => Option Errno
  | .send .. => Except Errno Nat
  | .recv .. => Except Errno Bytes
  | .tlsCreate .. => Bool
  | .tlsHandshake => Handshake
  | .tlsWrite _ => TlsResult Nat
  | .tlsRead _ => TlsResult Bytes
  | .tlsCloseNotify => Handshake
  | .tlsFree | .progress _ | .total _ => Unit

abbrev Routine := Bounded Work Work.Answer
abbrev Work.Trace := List (Exchange Work.Answer)

def perform (call : Work) : Routine call.Answer := Bounded.perform call

abbrev Rc := Option Errno

def interrupted : Routine Rc := do
  return some (if ← perform .cancelled then .ecanceled else .eagain)

def waitFd (fd : Fd) (event : PollEvent) (timeout : Nat) : Routine Rc := do
  match ← perform (.poll fd event timeout) with
  | .failed e => return some e
  | .timeout => interrupted
  | .ready hangup asked cancel =>
    if cancel then interrupted
    else if hangup then return some .epipe
    else if asked then return none
    else return some .eagain

structure Channel where
  fd : Fd
  tls : Bool
  deriving DecidableEq, Repr

def awaiting {σ β : Type} (fd : Fd) (event : PollEvent) (again : σ) (failed : Errno → β) : Routine (σ ⊕ β) := do
  match ← waitFd fd event 1000 with
  | none | some .eagain => return .inl again
  | some e => return .inr (failed e)

def sendRound (ch : Channel) (rest : Bytes) : Routine (Bytes ⊕ Rc) :=
  if rest = [] then return .inr none
  else do
    if ← perform .cancelled then return .inr (some .ecanceled)
    else if ch.tls then
      match ← perform (.tlsWrite rest) with
      | .moved (n + 1) => return .inl (rest.drop (n + 1))
      | .wantWrite => awaiting ch.fd .pollout rest some
      | .wantRead => awaiting ch.fd .pollin rest some
      | .moved 0 | .failed => return .inr (some .epipe)
    else
      match ← waitFd ch.fd .pollout 1000 with
      | some .eagain => return .inl rest
      | some e => return .inr (some e)
      | none =>
        match ← perform (.send ch.fd rest) with
        | .ok (n + 1) => return .inl (rest.drop (n + 1))
        | .ok 0 => return .inr (some .epipe)
        | .error .eagain => return .inl rest
        | .error e => return .inr (some e)

def sendAll (rounds : Nat) (ch : Channel) (bytes : Bytes) : Routine Rc := Bounded.loop (sendRound ch) rounds bytes

/- After a wait there is nothing received yet, only `EAGAIN`. -/
def recvAgain (fd : Fd) (event : PollEvent) : Routine (Except Errno Bytes) := do
  match ← waitFd fd event 1000 with
  | none => return .error .eagain
  | some e => return .error e

def recvSome (ch : Channel) (size : Nat) : Routine (Except Errno Bytes) := do
  if ← perform .cancelled then return .error .ecanceled
  else if ch.tls then
    match ← perform (.tlsRead size) with
    | .moved bytes => return .ok bytes
    | .wantRead => recvAgain ch.fd .pollin
    | .wantWrite => recvAgain ch.fd .pollout
    | .failed => return .error .epipe
  else
    match ← waitFd ch.fd .pollin 1000 with
    | some e => return .error e
    | none => perform (.recv ch.fd size)

def handshakeRound (fd : Fd) (_ : Unit) : Routine (Unit ⊕ Rc) := do
  if ← perform .cancelled then return .inr (some .ecanceled)
  else
    match ← perform .tlsHandshake with
    | .finished => return .inr none
    | .failed => return .inr (some .epipe)
    | .wantWrite => awaiting fd .pollout () some
    | .wantRead => awaiting fd .pollin () some

/- `data_tls_setup`: whether there is a session to free afterwards, and the code. -/
def dataTlsSetup (rounds : Nat) (s : Server) (fd : Fd) : Routine (Bool × Rc) :=
  if ¬ s.tls then return (false,some .enotsup)
  else do
    let now ← perform .nowMs
    if ← perform (.tlsCreate fd (now + 10000)) then
      return (true,← Bounded.loop (handshakeRound fd) rounds ())
    else return (false,some .epipe)

/- What `opftp_datachan_connect_job` leaves: the code, `j->conn_ok` when it is 0, and
`j->data_fd`, which a failure may have set already. -/
inductive Connected where
  | failed (dataFd : Option Fd) (errno : Errno)
  | up (fd : Fd)
  deriving DecidableEq

def waitPeer (fd : Fd) (event : PollEvent) : Routine Rc := do
  match ← perform (.poll fd event 2000) with
  | .failed e => return some e
  | .timeout => return some .etimedout
  | .ready _ _ cancel => if cancel then interrupted else return none

def acceptJob (s : Server) (j : Job) (listener : Fd) : Routine Connected := do
  match ← waitPeer listener .pollin with
  | some e => return .failed none e
  | none =>
    match ← perform (.accept listener) with
    | .error e => return .failed none e
    | .ok (fd,peer) =>
      if ¬ s.allowForeignPort ∧ ¬ addrEq peer j.ctlPeer then return .failed (some fd) .eacces
      else return .up fd

def reachJob (j : Job) : Routine Connected := do
  match ← perform (.socket j.dataPeer) with
  | .error e => return .failed none e
  | .ok fd =>
    match ← perform (.connect fd j.dataPeer) with
    | .error e => return .failed (some fd) e
    | .ok () =>
      match ← waitPeer fd .pollout with
      | some e => return .failed (some fd) e
      | none =>
        match ← perform (.soError fd) with
        | some e => return .failed (some fd) e
        | none => return .up fd

def datachanConnectJob (s : Server) (j : Job) : Routine Connected :=
  match j.pasvFd with
  | some listener => acceptJob s j listener
  | none => if j.haveDataPeer then reachJob j else return .failed none .enotconn

end OpenPs3Ftp.Worker
