import OpenPs3Ftp.Lib.Program
import OpenPs3Ftp.Fs

/-! Session records, the calls a handler makes and the helpers every handler uses.
A handler is a program over these calls that is given the client record and
returns it changed; the answers to its calls come from the rest of the system.
Labels on a reply say what it answers and are read by no handler. Descriptor
options, logging and reference counts are not modelled. -/
namespace OpenPs3Ftp.Session
open Lib Text Resolve Fs

structure Ip4 where
  a : UInt8
  b : UInt8
  c : UInt8
  d : UInt8
  deriving DecidableEq, Repr

structure Ip6 where
  bytes : Bytes
  size : bytes.length = 16
  deriving DecidableEq

instance : Repr Ip6 := ⟨fun ip p => reprPrec ip.bytes p⟩

inductive SockAddr where
  | unspec
  | inet (ip : Ip4) (port : UInt16)
  | inet6 (ip : Ip6) (port : UInt16)
  deriving DecidableEq, Repr

inductive Family where | inet | inet6
  deriving DecidableEq, Repr

def Ip6.mapped (ip : Ip6) : Option Ip4 :=
  if ip.bytes.take 12 = List.replicate 10 0 ++ [255,255] then
    match ip.bytes.drop 12 with
    | [a,b,c,d] => some ⟨a,b,c,d⟩
    | _ => none
  else none

/- Broken-down time. The year is the printed one, within a C `int`. -/
structure Tm where
  year : Int
  mon : Fin 12
  mday : Fin 32
  hour : Fin 24
  min : Fin 60
  sec : Fin 62
  yearBound : year.natAbs < 10 ^ 10
  deriving DecidableEq

structure Libc where
  gmtime : Int → Option Tm
  localtime : Int → Option Tm
  timegm : (year mon mday hour min sec : Nat) → Option Int
  inetPton4 : Bytes → Option Ip4
  inetPton6 : Bytes → Option Ip6

/- The C library, server, client and job of the worked cases. -/
def bareLibc : Libc := ⟨fun _ => none,fun _ => none,fun _ _ _ _ _ _ => none,fun _ => none,fun _ => none⟩

structure Server where
  root : Buffer 1024
  auth : Bool
  tls : Bool
  requireTls : Bool
  skipBanner : Bool
  allowForeignPort : Bool
  allowStop : Bool
  pasvMin : UInt16
  pasvMax : UInt16
  libc : Libc

/- `opftp_server_create` on a given C library, with or without a login callback. -/
def serverCreate (libc : Libc) (auth : Bool) : Server where
  root := ⟨[slash],by decide⟩
  auth := auth
  tls := false
  requireTls := false
  skipBanner := false
  allowForeignPort := false
  allowStop := false
  pasvMin := 0
  pasvMax := 0
  libc := libc

def house : Server := serverCreate bareLibc false

/- `opftp_server_set_root`, and `opftp_server_set_root_runtime` where it returns 0. -/
def Server.setRoot (s : Server) (root : Bytes) : Server :=
  if root.head? ≠ some slash then s else { s with root := Buffer.print 1023 root }

abbrev JobId := Nat

structure Client where
  connected : Bool
  generation : Nat
  peer : SockAddr
  /- Bytes received and not yet consumed, `rbuf[rpos..rlen]`. -/
  rbuf : Bytes
  loggedIn : Bool
  disconnectRequested : Bool
  user : Buffer 256
  cwd : Buffer 1024
  job : Option JobId
  aborPending : Bool
  rest : Nat
  rnfr : Buffer 1024
  haveRnfr : Bool
  cpfr : Buffer 1024
  haveCpfr : Bool
  tls : Bool
  tlsHandshaking : Bool
  tlsProt : Bool
  pasvFd : Option Fd
  dataPeer : SockAddr
  haveDataPeer : Bool
  deriving DecidableEq

def clientNew (peer : SockAddr) : Client where
  connected := true
  generation := 1
  peer := peer
  rbuf := []
  loggedIn := false
  disconnectRequested := false
  user := ⟨[],emptyName⟩
  cwd := ⟨[slash],by decide⟩
  job := none
  aborPending := false
  rest := 0
  rnfr := ⟨[],emptyPath⟩
  haveRnfr := false
  cpfr := ⟨[],emptyPath⟩
  haveCpfr := false
  tls := false
  tlsHandshaking := false
  tlsProt := false
  pasvFd := none
  dataPeer := .unspec
  haveDataPeer := false

def visitor : Client := clientNew .unspec

inductive JobOp where | list | stor | appe | retr | copy
  deriving DecidableEq, Repr

structure Job where
  id : JobId
  generation : Nat
  op : JobOp
  path : Buffer 1024
  dst : Buffer 1024
  rest : Nat
  nlst : Bool
  mlsd : Bool
  needTls : Bool
  pasvFd : Option Fd
  dataPeer : SockAddr
  haveDataPeer : Bool
  ctlPeer : SockAddr
  deriving DecidableEq

def smallJob : Job where
  id := 0
  generation := 1
  op := .retr
  path := Buffer.print _ (ascii "/a")
  dst := Buffer.print _ []
  rest := 0
  nlst := false
  mlsd := false
  needTls := false
  pasvFd := none
  dataPeer := .unspec
  haveDataPeer := true
  ctlPeer := .unspec

inductive About where
  | command
  | accepted (job : JobId)
  | finished (job : JobId)
  | abort
  deriving DecidableEq, Repr

inductive Handshake where | finished | wantRead | wantWrite | failed
  deriving DecidableEq, Repr

inductive Call where
  | send (about : About) (text : Bytes)
  | fs (call : FsCall)
  | entries (dir : Fd)
  | errno
  | auth (user pass : Bytes)
  | enter (name : Bytes) (client : Client)
  | localAddr
  | socket (family : Family)
  | bind (fd : Fd) (port : Nat)
  | listen (fd : Fd)
  | boundPort (fd : Fd)
  | closeFd (fd : Fd)
  | newJob (op : JobOp)
  | dispatch (job : Job)
  | freeJob (job : JobId)
  | cancel (job : JobId)
  | stop
  | stouSeq
  | tlsCreate (pending : Bytes)
  | tlsHandshake
  deriving DecidableEq

abbrev Answer : Call → Type
  | .fs call => call.Answer
  | .entries _ => List Dirent
  | .errno => Errno
  | .auth .. => Bool
  | .localAddr => SockAddr
  | .socket _ => Option Fd
  | .bind .. => Bool
  | .listen _ => Bool
  | .boundPort _ => UInt16
  | .newJob _ => Option JobId
  | .dispatch _ => Bool
  | .stouSeq => UInt32
  | .tlsCreate _ => Bool
  | .tlsHandshake => Handshake
  | .send .. | .enter .. | .closeFd _ | .freeJob _ | .cancel _ | .stop => Unit

abbrev Handler := Program Call Answer
abbrev Trace := List (Exchange Answer)

def invoke (call : Call) : Handler (Answer call) := Program.perform call

@[simp] theorem invokeAsk (call) : invoke call = Program.ask call Program.done := rfl

theorem runsInvoke {α : Type} {call} {k : Answer call → Handler α} {trace : Trace} {a}
    (run : (invoke call >>= k).Runs trace a) :
    ∃ answer rest, trace = ⟨call,answer⟩ :: rest ∧ (k answer).Runs rest a := Program.runsAsk.mp run

theorem runsOnce {α : Type} {call} {k : Answer call → α} {trace : Trace} {a}
    (run : (invoke call >>= fun answer => pure (k answer)).Runs trace a) : ∃ answer, trace = [⟨call,answer⟩] ∧ a = k answer := by
  obtain ⟨answer,rest,rfl,last⟩ := runsInvoke run
  obtain ⟨rfl,rfl⟩ := Program.runsDone.mp last
  exact ⟨answer,rfl,rfl⟩

theorem invokeRuns {α : Type} {trace : Trace} {a} (call answer) {k : Answer call → Handler α}
    (rest : (k answer).Runs trace a) : (invoke call >>= k).Runs (⟨call,answer⟩ :: trace) a := .ask answer rest

def Replied (trace : Trace) (text : Bytes) : Prop :=
  ∃ e ∈ trace, e.1 = .send .command text

instance (trace text) : Decidable (Replied trace text) := by unfold Replied; infer_instance

def said : Exchange Answer → Option (About × Bytes)
  | ⟨.send about text,_⟩ => some (about,text)
  | _ => none

def sends (trace : Trace) : List (About × Bytes) := trace.filterMap said

def r150 : Bytes := ascii "Accepted data connection."
def r200 : Bytes := ascii "OK."
def r202 : Bytes := ascii "Already logged in."
def r215 : Bytes := ascii "UNIX Type: L8"
def r221 : Bytes := ascii "Bye."
def r226 : Bytes := ascii "Transfer complete."
def r250 : Bytes := ascii "File operation successful."
def r350a : Bytes := ascii "Ready for next command."
def r421 : Bytes := ascii "Closing control connection."
def r425 : Bytes := ascii "Cannot open data connection."
def r426 : Bytes := ascii "Connection closed; transfer aborted."
def r450 : Bytes := ascii "Another data transfer is already in progress."
def r451 : Bytes := ascii "Data transfer error (network)."
def r501 : Bytes := ascii "Bad command syntax."
def r502 : Bytes := ascii "Command not implemented."
def r503 : Bytes := ascii "Bad command usage."
def r504 : Bytes := ascii "Parameter not accepted."
def r530 : Bytes := ascii "Not logged in."
def r550 : Bytes := ascii "Cannot access specified file or directory."
def r554 : Bytes := ascii "Invalid REST restart point."

/- `char buf[1024]` in `opftp_client_send` and `opftp_client_send_reply`. -/
def sendText (msg : Bytes) : Bytes := snprintf 1024 (msg ++ crlf)
def replyText (code : Nat) (msg : Bytes) : Bytes := snprintf 1024 (decimal code ++ space :: msg ++ crlf)

theorem replyTextCode {code} (msg) (three : (decimal code).length = 3) :
    (replyText code msg).take 3 = decimal code := by
  rw [replyText,snprintf,List.take_take,List.append_assoc,List.take_append_of_le_length (by simp [three]),
    List.take_of_length_le (by simp [three])]

def clientSend (msg : Bytes) : Handler Unit := invoke (.send .command (sendText msg))
def sendRaw (text : Bytes) : Handler Unit := invoke (.send .command text)
def replyAbout (about : About) (code : Nat) (msg : Bytes) : Handler Unit :=
  invoke (.send about (replyText code msg))
def reply (code : Nat) (msg : Bytes) : Handler Unit := replyAbout .command code msg

/- A failed backend call leaves its errno; other refusals leave whatever was there. -/
inductive Failure where
  | known (errno : Errno)
  | stale
  deriving DecidableEq, Repr

def fsErrorText : Errno → Bytes
  | .enoent | .enotdir => ascii "No such file or directory."
  | .eacces | .eperm => ascii "Permission denied."
  | .eisdir => ascii "Is a directory."
  | _ => r550

def replyFsError : Failure → Handler Unit
  | .known e => reply 550 (fsErrorText e)
  | .stale => do
    let e ← invoke .errno
    reply 550 (fsErrorText e)

/- `opftp_close_fd` on a descriptor that may be -1. -/
def closeSome : Option Fd → Handler Unit
  | none => return
  | some fd => invoke (.closeFd fd)

def closing (fd : Option Fd) : Trace := fd.toList.map fun fd => ⟨.closeFd fd,()⟩

theorem closeSomeRuns {fd trace} (run : (closeSome fd).Runs trace ()) : trace = closing fd := by
  cases fd with
  | none => exact (Program.runsDone.mp run).1
  | some fd =>
    obtain ⟨⟨⟩,rest,rfl,last⟩ := Program.runsAsk.mp run
    rw [(Program.runsDone.mp last).1]
    rfl

def given (param : Option Bytes) : Option Bytes := param.filter (· ≠ [])

theorem givenSome (arg) : given (some arg) = if arg = [] then none else some arg := by
  by_cases blank : arg = [] <;> simp [given,Option.filter_some,blank]

/- The argument resolved: the parameter, or the working directory's own text. -/
def argText (c : Client) (param : Option Bytes) : Bytes := (given param).getD c.cwd.text

def resolveArg (s : Server) (c : Client) (param : Option Bytes) : Option Bytes :=
  (pathResolve s.root.text c.cwd.text (argText c param) maxPath).map (·.1)

theorem resolveArgEq (s c param) :
    resolveArg s c param =
      if (rooted s.root.text (resolvedStack s.root.text c.cwd.text (argText c param))).length < maxPath then
        some (rooted s.root.text (resolvedStack s.root.text c.cwd.text (argText c param))) else none := by
  have base : ¬ (baseText c.cwd.text (argText c param)).length ≥ maxPath := by
    have := c.cwd.fits
    unfold baseText
    split
    · decide
    · unfold maxPath
      omega
  rw [resolveArg,pathResolveEq (Nat.le_refl _) s.root.fits,if_neg base]
  split <;> rfl

theorem resolveArgShort {s c param path} (resolved : resolveArg s c param = some path) : path.length < 1024 := by
  rw [resolveArgEq] at resolved
  split at resolved
  · cases Option.some.inj resolved
    assumption
  · contradiction

/- `parent_is_dir`: nothing, or why not. -/
def parentIsDir (path : Bytes) : Handler (Option Failure) :=
  match pathParent path maxPath with
  | none => return some .stale
  | some [] => return none
  | some parent => do
    match ← invoke (.fs (.stat parent)) with
    | .error e => return some (.known e)
    | .ok st => return if isDir st.mode then none else some .stale

def pathIsUnder (path dir : Bytes) : Bool :=
  if dir = [slash] then path.head? = some slash ∧ path ≠ [slash]
  else path.take dir.length = dir ∧ (path.drop dir.length).head? = some slash

end OpenPs3Ftp.Session
