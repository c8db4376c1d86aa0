import OpenPs3Ftp.Listing
import OpenPs3Ftp.Worker.Channel

/-! The client facade of the legacy shim (`ftpclient.c`, `ftputil.c`). The old handlers
and the data callbacks run on different threads and share one record, so they read it
and write its fields by calls; a program of theirs is a sequence of such calls. What is
written over the end of a buffer for a name is not known afterwards; paths have no
capacity here. The poll array and the client map of the old server, and what
only they read, are not modelled. -/
namespace OpenPs3Ftp.Legacy
open Lib Text Fs Session Listing Worker

inductive DataCallback where | list | nlst | retr | stor
  deriving DecidableEq, Repr

/- `struct Client` with its variables and its slot of the shim. The handle in `fd`, the
levels of `cwd` and the others up to `portAddr` are the variables. -/
structure Facade where
  cwd : List Bytes
  user : Bytes
  rnfr : Bytes
  auth : Bool
  fd : Option Fd
  rest : UInt64
  portAddr : Option SockAddr
  lastcmd : Bytes
  socketData : Option Fd
  socketPasv : Option Fd
  cbData : Option DataCallback
  jobActive : Bool
  cancel : Bool
  dataGo : Bool
  deriving DecidableEq

inductive Store where
  | cwd (levels : List Bytes)
  | user (text : Bytes)
  | rnfr (path : Bytes)
  | auth (granted : Bool)
  | fd (handle : Option Fd)
  | rest (offset : UInt64)
  | portAddr (target : Option SockAddr)
  | lastcmd (name : Bytes)
  | socketData (fd : Option Fd)
  | socketPasv (fd : Option Fd)
  | cbData (callback : Option DataCallback)
  | jobActive (flag : Bool)
  | cancel (flag : Bool)
  | dataGo (flag : Bool)
  deriving DecidableEq

def Facade.set (f : Facade) : Store → Facade
  | .cwd levels => { f with cwd := levels }
  | .user text => { f with user := text }
  | .rnfr path => { f with rnfr := path }
  | .auth granted => { f with auth := granted }
  | .fd handle => { f with fd := handle }
  | .rest offset => { f with rest := offset }
  | .portAddr target => { f with portAddr := target }
  | .lastcmd name => { f with lastcmd := name }
  | .socketData fd => { f with socketData := fd }
  | .socketPasv fd => { f with socketPasv := fd }
  | .cbData callback => { f with cbData := callback }
  | .jobActive flag => { f with jobActive := flag }
  | .cancel flag => { f with cancel := flag }
  | .dataGo flag => { f with dataGo := flag }

inductive Readiness where
  | failed
  | timeout
  | ready (hangup asked : Bool)
  deriving DecidableEq, Repr

inductive Ask where
  | core (call : Call)
  /- Whether the core client has a facade in its user data. -/
  | userdata
  | load
  | store (field : Store)
  | lock
  | unlock
  | malloc
  | memory
  | slot
  | nfds
  | peerAddr
  | connect (fd : Fd) (target : SockAddr)
  | poll (fd : Option Fd) (event : PollEvent) (timeout : Nat)
  | accept (listener : Fd)
  | shutdown (fd : Fd)
  | dispatch (event : PollEvent)
  | dataSend (fd : Fd) (bytes : Bytes)
  | dataRecv (fd : Fd) (size : Nat)
  | usleep (micros : Nat)
  deriving DecidableEq

abbrev Ask.Answer : Ask → Type
  | .core call => Session.Answer call
  | .userdata | .malloc | .slot | .connect .. => Bool
  | .load => Facade
  | .memory => Bytes
  | .nfds => Nat
  | .peerAddr => SockAddr
  | .poll .. => Readiness
  | .accept _ => Option Fd
  | .dataSend .. => Option Nat
  | .dataRecv .. => Option Bytes
  | .store _ | .lock | .unlock | .shutdown _ | .dispatch _ | .usleep _ => Unit

abbrev Routine := Bounded Ask Ask.Answer

def ask (call : Ask) : Routine call.Answer := Bounded.perform call
def load : Routine Facade := ask .load
def put (field : Store) : Routine Unit := ask (.store field)
def io (call : FsCall) : Routine call.Answer := ask (.core (.fs call))
def closeFd (fd : Fd) : Routine Unit := ask (.core (.closeFd fd))

def closeFile (fd : Fd) : Routine Unit := do
  let _ ← io (.close fd)
  return

def onCore {α : Type} : Handler α → Routine α
  | .done a => .done (some a)
  | .ask call next => .ask (.core call) fun answer => onCore (next answer)

def locked {α : Type} (body : Routine α) : Routine α := do
  ask .lock
  let a ← body
  ask .unlock
  return a

/- The settings of the old server that its code reads: the core it runs on, whether its
thread pool could be made, `MAX_PATH` and `MAX_NAME`. -/
structure Setup where
  server : Server
  pool : Bool
  maxPath : Nat
  maxName : Nat

def sendReply (code : Nat) (msg : Bytes) : Routine Unit := ask (.core (.send .command (replyText code msg)))

/- `client_send_code`: a 150 lets the data executor start. -/
def sendCode (code : Nat) (msg : Bytes) : Routine Unit := do
  (if code = 150 then locked (put (.dataGo true)) else pure ())
  sendReply code msg

def sendRawLine (text : Bytes) : Routine Unit := ask (.core (.send .command (snprintf 1024 (text ++ crlf))))
def sendMulticode (code : Nat) (msg : Bytes) : Routine Unit :=
  sendRawLine (snprintf 1056 (decimal code ++ 45 :: msg))
def sendMultimessage (msg : Bytes) : Routine Unit := sendRawLine (snprintf 1056 (space :: msg))

def r226a : Bytes := ascii "Transfer aborted."
def r230a : Bytes := ascii "Successfully logged in."
def r452 : Bytes := ascii "Data transfer error (system)."
def welcomeMsg : Bytes := ascii "OpenPS3FTP v4.4"

def joinLevels (maxPath : Nat) : Nat → List Bytes → Bytes
  | _,[] => []
  | len,name :: rest =>
    if len + name.length > maxPath then []
    else name ++ (if rest = [] then [] else slash :: joinLevels maxPath (len + name.length + 1) rest)

def getWorkingDirectory (maxPath : Nat) (levels : List Bytes) : Bytes := slash :: joinLevels maxPath 1 levels

/- Each name goes into a slot of its own, whatever its length. -/
def setWorkingDirectory (maxName : Nat) (path : Bytes) : Option (List Bytes) :=
  if ∀ name ∈ fields slash path, name.length < maxName then some (fields slash path) else none

def getAbsolutePath (old new : Bytes) : Bytes :=
  if new.head? = some slash then new
  else
    let joined := (if old.getLast? = some slash then old else old ++ [slash]) ++ new
    if joined.getLast? = some slash then joined.dropLast else joined

def strToupper (src : Bytes) (len : Nat) : Bytes := (src.take (max len 1)).map toupper

def parseCommandString (text : Bytes) : Bytes × Bytes :=
  let name := text.takeWhile (· ≠ space)
  (strToupper text (min name.length 32),text.drop (name.length + 1))

/- `"%hu,%hu,%hu,%hu,%hu,%hu"` with all six conversions made. -/
def parsePortTuple (text : Bytes) : Option (List Nat) :=
  (Commands.scanTuple 6 text).map fun tuple => tuple.map (· % 2 ^ 16)

def getFileMode (mode : Mode) : Bytes :=
  (if isDir mode then 100 else if isReg mode then 45 else if mode &&& typeMask = 0o120000 then 108 else 63) ::
    (modeStr mode).tail

def padRight (width : Nat) (text : Bytes) : Bytes := text ++ List.replicate (width - text.length) space

def signed (n : UInt32) : Bytes :=
  if n.toNat < 2 ^ 31 then decimal n.toNat else 45 :: decimal (2 ^ 32 - n.toNat)

def listLine (libc : Libc) (name : Bytes) (st : Stat) : Bytes :=
  let tm := (libc.localtime st.mtime).getD zeroTm
  getFileMode st.mode ++ ascii "   1 " ++ padRight 10 (signed st.uid) ++ [space] ++ padRight 10 (signed st.gid) ++
    [space] ++ padLeft 10 space (decimal st.size.toNat) ++ [space] ++ months.getD tm.mon.val [] ++ [space] ++
    padLeft 2 space (decimal tm.mday.val) ++ [space] ++ two tm.hour.val ++ ascii ":" ++ two tm.min.val ++ [space] ++
    name ++ crlf

example : getAbsolutePath (ascii "/a") (ascii "b/") = ascii "/a/b" := by decide
example : parseCommandString (ascii "chmod 644 x") = (ascii "CHMOD",ascii "644 x") := by decide

end OpenPs3Ftp.Legacy
