import OpenPs3Ftp.Session

/-! Login, session and parameter commands of `commands.c`: none of them touches
the filesystem or the data channel. -/
namespace OpenPs3Ftp.Commands
open Lib Text Session

variable (s : Server) (c : Client) (param : Option Bytes)

def cmdUser : Handler Client :=
  match given param with
  | none => do
    reply 501 r501
    return c
  | some name => do
    let user := Buffer.print 255 name
    reply 331 (snprintf 256 (ascii "Username " ++ user.text ++ ascii " OK. Password required."))
    return { c with user }

def cmdPass : Handler Client :=
  if c.user.text = [] then do
    reply 503 r503
    return c
  else do
    let ok ← (if s.auth then invoke (.auth c.user.text (param.getD [])) else pure true)
    if ok then do
      reply 230 (snprintf 256 (ascii "Successfully logged in as " ++ c.user.text ++ ascii "."))
      return { c with loggedIn := true }
    else do
      reply 530 r530
      return { c with user := ⟨[],emptyName⟩ }

def cmdQuit : Handler Client := do
  reply 221 r221
  return { c with disconnectRequested := true }

def answering (code : Nat) (msg : Bytes) (c : Client) : Handler Client := do
  reply code msg
  return c

def cmdNoop : Client → Handler Client := answering 200 r200
def cmdSyst : Client → Handler Client := answering 215 r215
def cmdHelp : Client → Handler Client := answering 214 (ascii "The following commands are recognized.")
def cmdAcct : Client → Handler Client := answering 202 r202
def cmdAllo : Client → Handler Client := answering 202 r202

def sendAll : List Bytes → Handler Unit
  | [] => return
  | line :: lines => do
    clientSend line
    sendAll lines

def features : List Bytes :=
  [ascii "211-Features:",ascii " UTF8",ascii " SIZE",ascii " MDTM",ascii " MLSD",
   ascii " MLST type*;size*;modify*;perm*;",ascii " MFMT",ascii " REST STREAM",ascii " EPSV",
   ascii " EPRT",ascii " CPFR",ascii " CPTO"] ++
  (if s.tls then [ascii " AUTH TLS",ascii " PBSZ",ascii " PROT"] else []) ++ [ascii "211 End"]

def cmdFeat : Handler Client := do
  sendAll (features s)
  return c

def choosing (accepted : Bytes → Bool) (good bad : Nat × Bytes) (c : Client) (param : Option Bytes) :
    Handler Client :=
  if param.any accepted then answering good.1 good.2 c else answering bad.1 bad.2 c

def cmdOpts : Client → Option Bytes → Handler Client :=
  choosing (fun p => startsFold (ascii "UTF8") p ∧ sameFold (ascii "ON") (skipSpaces (p.drop 4)))
    (200,r200) (501,r501)

def cmdMode : Client → Option Bytes → Handler Client :=
  choosing (fun p => p.head? = some 83) (200,r200) (504,r504)

def cmdStru : Client → Option Bytes → Handler Client :=
  choosing (fun p => p.head? = some 70) (200,r200) (504,r504)

/- `I` alone, or `A` with at most one of the format letters N, T and C. -/
def typeAccepted (param : Bytes) : Bool :=
  let t := (param.head?).map toupper
  let rest := skipSpaces (param.drop 1)
  if t = some 73 then rest = []
  else if t = some 65 then rest = [] ∨ rest = [78] ∨ rest = [84] ∨ rest = [67]
  else false

def cmdType : Handler Client :=
  if given param = none then answering 501 r501 c else choosing typeAccepted (200,r200) (504,r504) c param

def cmdStop : Handler Client := do
  reply 200 r200
  invoke .stop
  return c

def cmdRest : Handler Client :=
  match given param with
  | none => answering 501 r501 c
  | some text =>
    match strtoull text with
    | some (v,[]) => do
      reply 350 (snprintf 64 (ascii "Restarting at " ++ decimal v ++ ascii "."))
      return { c with rest := v }
    | _ => answering 554 r554 c

/- `opftp_client_start_tls`: buffered bytes feed the handshake and leave the buffer. -/
def clientStartTls : Handler (Client × Bool) :=
  if ¬ s.tls ∨ c.tls ∨ c.tlsHandshaking then return (c,false)
  else do
    let created ← invoke (.tlsCreate c.rbuf)
    if created then return ({ c with rbuf := [], tls := true, tlsHandshaking := true },true)
    else return ({ c with rbuf := [] },false)

def cmdAuth : Handler Client :=
  if ¬ param.any (sameFold (ascii "TLS")) then answering 504 r504 c
  else if ¬ s.tls then answering 502 r502 c
  else if c.tls then answering 503 r503 c
  else do
    let (c,started) ← clientStartTls s c
    if started then answering 234 (ascii "AUTH TLS successful.") c
    else do
      reply 421 r421
      return { c with disconnectRequested := true }

def cmdPbsz : Handler Client :=
  if ¬ c.tls then answering 503 r503 c
  else if given param = none then answering 501 r501 c
  else answering 200 r200 c

def cmdProt : Handler Client :=
  if ¬ c.tls then answering 503 r503 c
  else if param = some (ascii "P") then answering 200 r200 { c with tlsProt := true }
  else if param = some (ascii "C") then answering 200 r200 { c with tlsProt := false }
  else answering 504 r504 c

end OpenPs3Ftp.Commands
