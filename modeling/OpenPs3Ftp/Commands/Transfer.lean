import OpenPs3Ftp.Commands.Data
import OpenPs3Ftp.Commands.Paths

/-! Transfer commands of `commands.c`: abort, the common start of a transfer, and
the server-side copy. A dispatched job belongs to a worker from then on. -/
namespace OpenPs3Ftp.Commands
open Lib Text Resolve Fs Session

variable (op : JobOp) (s : Server) (c : Client) (param : Option Bytes)

def cmdAbor : Handler Client :=
  match c.job with
  | some job => do
    invoke (.cancel job)
    return { c with aborPending := true }
  | none => do
    replyAbout .abort 226 (ascii "Abort successful.")
    return c

def jobNew (op : JobOp) (id : JobId) : Job :=
  { id, op, generation := c.generation, path := ⟨[],emptyPath⟩, dst := ⟨[],emptyPath⟩, rest := 0,
    nlst := false, mlsd := false, needTls := false, pasvFd := none, dataPeer := .unspec,
    haveDataPeer := false, ctlPeer := .unspec }

def transferJob (op : JobOp) (path : Bytes) (nlst mlsd : Bool) (id : JobId) : Job :=
  { jobNew c op id with
    nlst, mlsd, rest := c.rest, needTls := c.tlsProt, path := Buffer.print 1023 path, pasvFd := c.pasvFd,
    dataPeer := c.dataPeer, haveDataPeer := c.haveDataPeer, ctlPeer := c.peer }

def jobFree (job : Job) : Handler Unit := do
  closeSome job.pasvFd
  invoke (.freeJob job.id)

def startTransfer (op : JobOp) (path : Bytes) (nlst mlsd : Bool)
    (reply150 : Option Bytes) : Handler Client :=
  if c.job.isSome then answering 450 r450 c
  else if ¬ precheck s c then answering 425 r425 c
  else if c.pasvFd = none ∧ ¬ c.haveDataPeer then answering 425 r425 c
  else do
    match ← invoke (.newJob op) with
    | none => answering 425 r425 c
    | some id =>
      let moved := { c with pasvFd := none, haveDataPeer := false }
      if ← invoke (.dispatch (transferJob c op path nlst mlsd id)) then do
        replyAbout (.accepted id) 150 (reply150.getD r150)
        return { moved with job := some id, rest := 0 }
      else do
        jobFree (transferJob c op path nlst mlsd id)
        answering 425 r425 moved

/- `"LIST -la /path"`: flags are skipped up to the first space. -/
def listingArg : Option Bytes :=
  match param with
  | some (45 :: rest) =>
    match rest.dropWhile (· ≠ space) with
    | [] => none
    | arg => some (skipSpaces arg)
  | _ => param

def startListing (nlst mlsd : Bool) : Handler Client :=
  statting s c (listingArg param) fun path _ => startTransfer s c .list path nlst mlsd none

def cmdList : Handler Client :=
  startListing s c param false false

def cmdNlst : Handler Client :=
  startListing s c param true false

def cmdMlsd : Handler Client :=
  startListing s c param false true

def cmdRetr : Handler Client :=
  statting s c param fun path st =>
    if isReg st.mode then startTransfer s c .retr path false false none else failing .stale c

def storing : Handler Client :=
  match resolveArg s c param with
  | none => answering 501 r501 c
  | some path => do
    match ← parentIsDir path with
    | some failure => failing failure c
    | none => startTransfer s c op path false false none

def cmdStor : Server → Client → Option Bytes → Handler Client := storing .stor
def cmdAppe : Server → Client → Option Bytes → Handler Client := storing .appe

/- The search of STOU: nothing when no name resolves, no name when all are taken. -/
def uniqueName (s : Server) (c : Client) : Nat → Handler (Option (Option Bytes))
  | 0 => return some none
  | tries + 1 => do
    let seq ← invoke .stouSeq
    match resolveArg s c (some (snprintf 32 (ascii "ftp" ++ padLeft 6 48 (decimal seq.toNat)))) with
    | none => return none
    | some name =>
      match ← invoke (.fs (.stat name)) with
      | .error .enoent => return some (some name)
      | _ => uniqueName s c tries

def cmdStou : Handler Client := do
  match ← uniqueName s c 10 with
  | none => answering 550 r550 c
  | some none => answering 450 (ascii "No unique file name available.") c
  | some (some name) =>
    startTransfer s c .stor name false false (some (snprintf 64 (ascii "FILE: " ++ baseName name)))

def copyJob (dst : Bytes) (id : JobId) : Job :=
  { jobNew c .copy id with path := Buffer.print 1023 c.cpfr.text, dst := Buffer.print 1023 dst }

def cmdCpto : Handler Client :=
  if ¬ c.haveCpfr then answering 503 r503 c
  else if c.job.isSome then answering 450 r450 c
  else do
    let target ← resolveTarget s c param
    let c := { c with haveCpfr := false }
    match target with
    | .error failure => failing failure c
    | .ok path =>
      if c.cpfr.text = path then answering 550 (ascii "Source and destination are the same file.") c
      else if pathIsUnder path c.cpfr.text then
        answering 550 (ascii "Destination is inside the source directory.") c
      else
        match ← invoke (.newJob .copy) with
        | none => answering 451 r451 c
        | some id =>
          if ← invoke (.dispatch (copyJob c path id)) then return { c with job := some id }
          else do
            jobFree (copyJob c path id)
            answering 451 r451 c

end OpenPs3Ftp.Commands
