import OpenPs3Ftp.Legacy.Facade

/-! Data transfers of the legacy shim: starting and ending one on the reactor thread,
and the executor that runs its callback on a thread of the pool (`ftpclient.c`, with the
callbacks of `base.c`). -/
namespace OpenPs3Ftp.Legacy
open Lib Text Fs Session Worker

def badHandle : Errno := .other 9

def readdirOf : Option Fd → Routine (Except Errno (Option Dirent))
  | none => return .error badHandle
  | some fd => io (.readdir fd)

def readOf (size : Nat) : Option Fd → Routine (Except Errno Bytes)
  | none => return .error badHandle
  | some fd => io (.read fd size)

def writeOf (bytes : Bytes) : Option Fd → Routine (Except Errno Nat)
  | none => return .error badHandle
  | some fd => io (.write fd bytes)

def closeOf : Option Fd → Routine Unit
  | none => return
  | some fd => closeFile fd

def closedirOf : Option Fd → Routine Unit
  | none => return
  | some fd => io (.closedir fd)

def closeSocket : Option Fd → Routine Unit
  | none => return
  | some fd => closeFd fd

def sendData (bytes : Bytes) : Option Fd → Routine (Option Nat)
  | none => return none
  | some fd => ask (.dataSend fd bytes)

def recvData (size : Nat) : Option Fd → Routine (Option Bytes)
  | none => return none
  | some fd => ask (.dataRecv fd size)

def bufferData : Nat := 64 * 1024

/- Every end of a transfer: the handle closed and forgotten, and the reply. -/
def endData (closing : Routine Unit) (code : Nat) (msg : Bytes) : Routine Bool := do
  closing
  put (.fd none)
  sendCode code msg
  return true

variable (u : Setup) (c : Client) (callback : DataCallback)

/- `data_list` and `data_nlst`, which differ in the line they send. -/
def dataEntry (line : Bytes → Stat → Bytes) : Routine Bool := do
  let f ← load
  match ← readdirOf f.fd with
  | .error _ => endData (closedirOf f.fd) 452 r452
  | .ok none => endData (closedirOf f.fd) 226 r226
  | .ok (some de) =>
    match ← io (.stat (getAbsolutePath (getWorkingDirectory u.maxPath f.cwd) de.name.text)) with
    | .error _ => return false
    | .ok st =>
      let text := line de.name.text st
      match ← sendData text f.socketData with
      | none => endData (closedirOf f.fd) 451 r451
      | some sent => if sent < text.length then endData (closedirOf f.fd) 451 r451 else return false

def dataList : Routine Bool := dataEntry u (listLine u.server.libc)
def dataNlst : Routine Bool := dataEntry u fun name _ => name ++ crlf

def dataRetr : Routine Bool := do
  let f ← load
  match ← readOf bufferData f.fd with
  | .error _ => endData (closeOf f.fd) 452 r452
  | .ok [] => endData (closeOf f.fd) 226 r226
  | .ok bytes =>
    match ← sendData bytes f.socketData with
    | none => endData (closeOf f.fd) 451 r451
    | some sent => if sent < bytes.length then endData (closeOf f.fd) 451 r451 else return false

def dataStor : Routine Bool := do
  let f ← load
  match ← recvData bufferData f.socketData with
  | some [] => endData (closeOf f.fd) 226 r226
  | none => endData (closeOf f.fd) 451 r451
  | some bytes =>
    match ← writeOf bytes f.fd with
    | .error _ => endData (closeOf f.fd) 452 r452
    | .ok wrote => if wrote < bytes.length then endData (closeOf f.fd) 452 r452 else return false

def DataCallback.run : DataCallback → Routine Bool
  | .list => dataList u
  | .nlst => dataNlst u
  | .retr => dataRetr
  | .stor => dataStor

def goRound (_ : Unit) : Routine (Unit ⊕ Unit) := do
  if ← locked (do let f ← load; return f.dataGo || f.cancel) then return .inr ()
  else do
    ask (.usleep 1000)
    return .inl ()

def abandoned : Routine Bool := locked do
  let f ← load
  return f.cancel || f.cbData.isNone

def callbackRound : Routine (Unit ⊕ Unit) := do
  let done ← locked do
    let f ← load
    match f.cbData with
    | some callback => callback.run u
    | none => return true
  return if done then .inr () else .inl ()

def executorRound (fd : Option Fd) (event : PollEvent) (_ : Unit) : Routine (Unit ⊕ Unit) := do
  match ← ask (.poll fd event 1000) with
  | .failed => return .inr ()
  | .timeout => return if ← abandoned then .inr () else .inl ()
  | .ready hangup asked =>
    if hangup then do
      if ← abandoned then return .inr () else callbackRound u
    else if asked then callbackRound u
    else return .inl ()

def dataExecutor (rounds : Nat) (u : Setup) (event : PollEvent) : Routine Unit := do
  let f ← load
  Bounded.loop goRound rounds ()
  Bounded.loop (executorRound u f.socketData event) rounds ()
  locked do
    let f ← load
    (if f.socketData = none then pure () else do
      closeSocket f.socketData
      put (.socketData none))
    put (.cbData none)
  put (.jobActive false)

def withPort (port : UInt16) : SockAddr → SockAddr
  | .unspec => .unspec
  | .inet ip _ => .inet ip port
  | .inet6 ip _ => .inet6 ip port

def activeAddr (f : Facade) : Routine SockAddr := do
  match f.portAddr with
  | some target => do
    put (.portAddr none)
    return target
  | none => return withPort 20 (← ask .peerAddr)

def openData (f : Facade) : Routine Bool := do
  match f.socketPasv with
  | none => do
    let target ← activeAddr f
    match ← ask (.core (.socket .inet)) with
    | none => return false
    | some fd => do
      put (.socketData (some fd))
      if ← ask (.connect fd target) then return true
      else do
        closeFd fd
        put (.socketData none)
        return false
  | some listener => do
    match ← ask (.poll (some listener) .pollin 5000) with
    | .failed | .timeout => do
      closeFd listener
      put (.socketPasv none)
      return false
    | .ready .. => do
      let fd ← ask (.accept listener)
      put (.socketData fd)
      closeFd listener
      put (.socketPasv none)
      return fd.isSome

/- What `client_data_start` does under the mutex: whether a job is to be dispatched. -/
def beginData : Routine Bool := do
  let f ← load
  if f.cbData ≠ none then return false
  else if ← (if f.socketData = none then openData f else pure true) then do
    put (.cbData (some callback))
    put (.cancel false)
    put (.dataGo false)
    if ← ask .malloc then do
      put (.jobActive true)
      return true
    else do
      put (.cbData none)
      return false
  else return false

def clientDataStart (event : PollEvent) : Routine Bool :=
  if ¬ u.pool then return false
  else if c.tlsProt then return false
  else do
    if ← locked (beginData callback) then do
      ask (.dispatch event)
      return true
    else return false

def clientDataEnd : Routine Unit := locked do
  let f ← load
  if f.jobActive then do
    put (.cancel true)
    match f.socketData with
    | none => return
    | some fd => ask (.shutdown fd)
  else
    match f.socketData with
    | none => return
    | some fd => do
      closeFd fd
      put (.socketData none)
      put (.cbData none)

/- The listener's address; another family than IPv4 leaves none, and `bind` refuses. -/
def pasvHost : SockAddr → Ip4
  | .inet ip _ => ip
  | .inet6 ip _ => ip.mapped.getD ⟨0,0,0,0⟩
  | .unspec => ⟨0,0,0,0⟩

def clientPasvEnter : Routine (Option (Ip4 × UInt16)) := do
  let f ← load
  (if f.portAddr = none then pure () else put (.portAddr none))
  closeSocket f.socketPasv
  match ← ask (.core (.socket .inet)) with
  | none => do
    put (.socketPasv none)
    return none
  | some fd => do
    put (.socketPasv (some fd))
    let host := pasvHost (← ask (.core .localAddr))
    if ← ask (.core (.bind fd 0)) then do
      let _ ← ask (.core (.listen fd))
      return some (host,← ask (.core (.boundPort fd)))
    else do
      closeFd fd
      put (.socketPasv none)
      return none

end OpenPs3Ftp.Legacy
