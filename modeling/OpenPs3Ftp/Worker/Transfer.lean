import OpenPs3Ftp.Completion
import OpenPs3Ftp.Worker.Channel

/-! Worker loops of `transfer.c`: listings, downloads, uploads and server-side copies,
and the job that runs one of them and is posted back. -/
namespace OpenPs3Ftp.Worker
open Lib Text Resolve Fs Session Listing Events

def transferBuf : Nat := 64 * 1024
def batchSize : Nat := 8 * 1024
def copyMaxDepth : Nat := 32
def onFs (call : FsCall) : Routine call.Answer := perform (.fs call)

structure Batch where
  lines : Bytes
  rc : Rc
  sent : Nat
  deriving DecidableEq

variable (rounds : Nat) (s : Server) (j : Job) (ch : Channel) (dir : Fd) (b : Batch)

/- `LIST_FLUSH`: a code left by something else does not survive it. -/
def listFlush : Routine Batch :=
  if b.lines = [] then return b
  else do
    let rc ← sendAll rounds ch b.lines
    if rc = none then do
      perform (.progress (b.sent + b.lines.length))
      return ⟨[],none,b.sent + b.lines.length⟩
    else return ⟨[],rc,b.sent⟩

def listLine (de : Dirent) : Bytes :=
  if j.nlst then snprintf 1024 (de.name.text ++ crlf)
  else if j.mlsd then mlsdFormat s.libc 1024 de
  else listingFormat s.libc 1024 de none

/- Room is made before a line is added; a failed send ends the listing. -/
def listAdd (line : Bytes) (b : Batch) : Routine (Batch ⊕ Batch) := do
  let b ← (if line.length > batchSize - b.lines.length then listFlush rounds ch b else pure b)
  if b.rc ≠ none then return .inr b else return .inl { b with lines := b.lines ++ line }

def listRound :
    Routine (Batch ⊕ Batch) := do
  if ← perform .cancelled then return .inr { b with rc := some .ecanceled }
  else
    match ← onFs (.readdir dir) with
    | .error e => return .inr { b with rc := some e }
    | .ok none => return .inr b
    | .ok (some de) => listAdd rounds ch (listLine s j de) b

def listFile (st : Stat) : Routine Rc := do
  let de := direntOf j.path.text st
  let line := if j.mlsd then mlsdFormat s.libc 1024 de else listingFormat s.libc 1024 de none
  return (← listFlush rounds ch ⟨line,none,0⟩).rc

def transferList : Routine Rc := do
  match ← onFs (.stat j.path.text) with
  | .error e => return some e
  | .ok st =>
    if ¬ isDir st.mode then listFile rounds s j ch st
    else
      match ← onFs (.opendir j.path.text) with
      | .error e => return some e
      | .ok dir => do
        let b ← Bounded.loop (listRound rounds s j ch dir) rounds ⟨[],none,0⟩
        let b ← listFlush rounds ch b
        onFs (.closedir dir)
        return b.rc

def readonly : OpenFlags := ⟨.rdonly,false,false,false⟩

def retrRound (fd : Fd) (sent : Nat) : Routine (Nat ⊕ Rc) := do
  if ← perform .cancelled then return .inr (some .ecanceled)
  else
    match ← onFs (.read fd transferBuf) with
    | .error e => return .inr (some e)
    | .ok [] => return .inr none
    | .ok bytes =>
      match ← sendAll rounds ch bytes with
      | some e => return .inr (some e)
      | none => do
        perform (.progress (sent + bytes.length))
        return .inl (sent + bytes.length)

def seekRest (fd : Fd) (offset : Nat) : Routine Rc :=
  if offset = 0 then return none
  else do
    match ← onFs (.seek fd offset) with
    | .error e => return some e
    | .ok _ => return none

/- Buffer and loop of a transfer on an open file, which is closed in any case. -/
def buffered (fd : Fd) (body : Routine Rc) : Routine Rc := do
  let rc ← (do if ← perform .malloc then body else return some .enomem)
  let _ ← onFs (.close fd)
  return rc

def reportTotal : Except Errno Stat → Routine Unit
  | .ok st => if isReg st.mode then perform (.total st.size) else return
  | .error _ => return

def transferRetr : Routine Rc := do
  match ← onFs (.openFile j.path.text readonly 0) with
  | .error e => return some e
  | .ok fd => do
    reportTotal (← onFs (.fstat fd))
    match ← seekRest fd j.rest with
    | some e => do
      let _ ← onFs (.close fd)
      return some e
    | none => buffered fd (Bounded.loop (retrRound rounds ch fd) rounds 0)

def writeRound (fd : Fd) (rest : Bytes) : Routine (Bytes ⊕ Rc) :=
  if rest = [] then return .inr none
  else do
    match ← onFs (.write fd rest) with
    | .error e => return .inr (some e)
    | .ok 0 => return .inr (some .eio)
    | .ok (n + 1) => return .inl (rest.drop (n + 1))

def fsWriteAll (fd : Fd) (bytes : Bytes) : Routine Rc := Bounded.loop (writeRound fd) rounds bytes

def storRound (fd : Fd) (stored : Nat) : Routine (Nat ⊕ Rc) := do
  if ← perform .cancelled then return .inr (some .ecanceled)
  else
    match ← recvSome ch transferBuf with
    | .error .eagain => return .inl stored
    | .error e => return .inr (some e)
    | .ok [] => return .inr none
    | .ok bytes =>
      match ← fsWriteAll rounds fd bytes with
      | some e => return .inr (some e)
      | none => do
        perform (.progress (stored + bytes.length))
        return .inl (stored + bytes.length)

def storFlags : OpenFlags := ⟨.wronly,true,j.op = .stor ∧ j.rest = 0,j.op = .appe⟩

def transferStor : Routine Rc := do
  match ← onFs (.openFile j.path.text (storFlags j) 0o644) with
  | .error e => return some e
  | .ok fd => do
    match ← seekRest fd (if j.op = .stor then j.rest else 0) with
    | some e => do
      let _ ← onFs (.close fd)
      return some e
    | none => buffered fd (Bounded.loop (storRound rounds ch fd) rounds 0)

def copyRound (input output : Fd) (moved : Nat) : Routine (Nat ⊕ Nat × Rc) := do
  if ← perform .cancelled then return .inr (moved,some .ecanceled)
  else
    match ← onFs (.read input transferBuf) with
    | .error e => return .inr (moved,some e)
    | .ok [] => return .inr (moved,none)
    | .ok bytes =>
      match ← fsWriteAll rounds output bytes with
      | some e => return .inr (moved,some e)
      | none => do
        perform (.progress (moved + bytes.length))
        return .inl (moved + bytes.length)

def removeNew (existed : Bool) (rc : Rc) (dst : Bytes) : Routine Unit :=
  if rc ≠ none ∧ ¬ existed then do
    let _ ← onFs (.unlink dst)
    return
  else return

def copyBytes (input output : Fd) (moved : Nat) : Routine (Nat × Rc) := do
  let result ← (do
    if ← perform .malloc then Bounded.loop (copyRound rounds input output) rounds moved
    else return (moved,some .enomem))
  let _ ← onFs (.close input)
  let _ ← onFs (.close output)
  return result

def copyFlags : OpenFlags := ⟨.wronly,true,true,false⟩

def present : Except Errno Stat → Bool
  | .ok _ => true
  | .error _ => false

def copyFile (src dst : Bytes) (moved : Nat) : Routine (Nat × Rc) := do
  match ← onFs (.openFile src readonly 0) with
  | .error e => return (moved,some e)
  | .ok input => do
    let existed := present (← onFs (.stat dst))
    match ← onFs (.openFile dst copyFlags 0o644) with
    | .error e => do
      let _ ← onFs (.close input)
      return (moved,some e)
    | .ok output => do
      let (moved,rc) ← copyBytes rounds input output moved
      removeNew existed rc dst
      return (moved,rc)

structure CopyDir where
  rel : Bytes
  depth : Nat
  deriving DecidableEq

def fitted (text : Bytes) : Option Bytes := if text.length ≥ maxPath then none else some text

def copyJoin (root rel : Bytes) : Option Bytes :=
  fitted (if rel = [] then root else if root = [slash] then slash :: rel else root ++ slash :: rel)

def copyChild (rel name : Bytes) : Option Bytes := fitted (if rel = [] then name else rel ++ slash :: name)

theorem fittedSome {text whole} (made : fitted text = some whole) : text = whole := by
  unfold fitted at made
  split at made
  · contradiction
  · exact Option.some.inj made

/- The walk: directories still to visit, bytes moved and the code so far. -/
structure Walk where
  stack : List CopyDir
  moved : Nat
  rc : Rc
  deriving DecidableEq

def copyEntry (d : CopyDir) (de : Dirent) (w : Walk) : Routine (Walk ⊕ Walk) :=
  match copyChild d.rel de.name.text with
  | none => return .inr { w with rc := some .enametoolong }
  | some child =>
    if isDir de.mode then
      if d.depth + 1 ≥ copyMaxDepth then return .inr { w with rc := some .eloop }
      else do
        if ← perform .malloc then return .inl { w with stack := ⟨child,d.depth + 1⟩ :: w.stack }
        else return .inr { w with rc := some .enomem }
    else if isReg de.mode then
      match copyJoin j.path.text child,copyJoin j.dst.text child with
      | some src,some dst => do
        let (moved,rc) ← copyFile rounds src dst w.moved
        if rc = none then return .inl { w with moved } else return .inr { w with moved, rc }
      | _,_ => return .inr { w with rc := some .enametoolong }
    else return .inl w

def dots (name : Bytes) : Bool := name = ascii "." ∨ name = ascii ".."

def copyDirRound (d : CopyDir) (dir : Fd) (w : Walk) : Routine (Walk ⊕ Walk) := do
  if ← perform .cancelled then return .inr { w with rc := some .ecanceled }
  else
    match ← onFs (.readdir dir) with
    | .error e => return .inr { w with rc := some e }
    | .ok none => return .inr w
    | .ok (some de) => if dots de.name.text then return .inl w else copyEntry rounds j d de w

def ensureDir (path : Bytes) : Routine Rc := do
  match ← onFs (.stat path) with
  | .ok _ => return none
  | .error _ =>
    match ← onFs (.mkdir path 0o755) with
    | .ok () => return none
    | .error e => return some e

def copyTreeRound (w : Walk) : Routine (Walk ⊕ Walk) :=
  match w.stack with
  | [] => return .inr w
  | d :: stack => do
    let w := { w with stack }
    if ← perform .cancelled then return .inr { w with rc := some .ecanceled }
    else
      match copyJoin j.path.text d.rel,copyJoin j.dst.text d.rel with
      | some src,some dst =>
        match ← ensureDir dst with
        | some e => return .inr { w with rc := some e }
        | none =>
          match ← onFs (.opendir src) with
          | .error e => return .inr { w with rc := some e }
          | .ok dir => do
            let w ← Bounded.loop (copyDirRound rounds j d dir) rounds w
            onFs (.closedir dir)
            if w.rc = none then return .inl w else return .inr w
      | _,_ => return .inr { w with rc := some .enametoolong }

def copyTree : Routine Rc := do
  if ← perform .malloc then
    return (← Bounded.loop (copyTreeRound rounds j) rounds ⟨[⟨[],0⟩],0,none⟩).rc
  else return some .enomem

def transferCopy : Routine Rc :=
  if j.path = j.dst then return some .einval
  else do
    match ← onFs (.stat j.path.text) with
    | .error e => return some e
    | .ok st =>
      if isDir st.mode then copyTree rounds j
      else do
        perform (.total st.size)
        return (← copyFile rounds j.path.text j.dst.text 0).2

def closeEvent : Handshake → Option PollEvent
  | .finished | .failed => none
  | .wantRead => some .pollin
  | .wantWrite => some .pollout

def closeNotify (fd : Fd) : Nat → Routine Unit
  | 0 => return
  | left + 1 => do
    match closeEvent (← perform .tlsCloseNotify) with
    | none => return
    | some event =>
      match ← perform (.poll fd event 100) with
      | .failed _ | .timeout => return
      | .ready .. => closeNotify fd left

def tlsShutdown (fd : Fd) (rc : Rc) : Routine Unit := do
  (if rc = none then closeNotify fd 50 else pure ())
  perform .tlsFree

def transferOp : Routine Rc :=
  match j.op with
  | .list => transferList rounds s j ch
  | .retr => transferRetr rounds j ch
  | .stor | .appe => transferStor rounds j ch
  | .copy => transferCopy rounds j

def transferOver (fd : Fd) : Routine Rc :=
  if ¬ j.needTls then transferOp rounds s j ⟨fd,false⟩
  else do
    let (session,rc) ← dataTlsSetup rounds s fd
    let rc ← (if rc = none then transferOp rounds s j ⟨fd,true⟩ else pure rc)
    (if session then tlsShutdown fd rc else pure ())
    return rc

def transferRun : Routine Posted :=
  if j.op = .copy then do
    let rc ← transferCopy rounds j
    return ⟨j,none,false,rc⟩
  else do
    match ← datachanConnectJob s j with
    | .failed dataFd e => return ⟨j,dataFd,false,some e⟩
    | .up fd => do
      let rc ← transferOver rounds s j fd
      return ⟨j,some fd,true,rc⟩

end OpenPs3Ftp.Worker
