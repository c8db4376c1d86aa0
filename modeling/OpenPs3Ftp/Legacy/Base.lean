import OpenPs3Ftp.Legacy.Data

/-! The base command set of the legacy server (`base.c`). A handler gets the core client
it was called for, the name it was called by and the text after it. -/
namespace OpenPs3Ftp.Legacy
open Lib Text Fs Session Listing Commands Worker

def authed (body : Facade → Routine Unit) : Routine Unit := do
  let f ← load
  if f.auth then body f else sendCode 530 r530

variable (u : Setup) (c : Client) (params : Bytes)

def argued (body : Routine Unit) : Routine Unit :=
  if params = [] then sendCode 501 r501 else body

def absolute (f : Facade) (params : Bytes) : Bytes :=
  getAbsolutePath (getWorkingDirectory u.maxPath f.cwd) params

def onPath (body : Facade → Bytes → Routine Unit) : Routine Unit :=
  authed fun f => argued params (body f (absolute u f params))

def fileExists (path : Bytes) : Routine Bool := do
  match ← io (.stat path) with
  | .error _ => return false
  | .ok _ => return true

def answered {α : Type} (result : Except Errno α) (code : Nat) (msg : Bytes) : Routine Unit :=
  match result with
  | .error _ => sendCode 550 r550
  | .ok _ => sendCode code msg

def cmdAbor : Routine Unit := authed fun _ => do
  clientDataEnd
  sendCode 226 r226a

def cmdAcct : Routine Unit := do
  let f ← load
  if f.auth then sendCode 202 r202
  else do
    put (.auth true)
    sendCode 230 r230a

def cmdAllo : Routine Unit := authed fun _ => sendCode 202 r200

def cmdHelp : Routine Unit := sendCode 214 welcomeMsg
def cmdNoop : Routine Unit := sendCode 200 r200
def cmdSyst : Routine Unit := sendCode 215 r215
def cmdType : Routine Unit := authed fun _ => sendCode 200 r200

def cmdLetter (lower upper params : Bytes) : Routine Unit := authed fun _ =>
  if params = lower ∨ params = upper then sendCode 200 r200 else sendCode 504 r504

def cmdMode : Routine Unit := cmdLetter (ascii "s") (ascii "S") params
def cmdStru : Routine Unit := cmdLetter (ascii "f") (ascii "F") params

def maxUsernameLen : Nat := 32

/- `strcpy` or `sprintf` into a buffer. -/
def copied (size : Nat) (text : Bytes) : Routine Bytes := if text.length < size then return text else ask .memory

def cmdUser : Routine Unit := do
  let f ← load
  if f.auth then sendCode 202 r202
  else argued params do
    let user ← copied maxUsernameLen params
    put (.user user)
    sendCode 331 (← copied (maxUsernameLen + 32) (ascii "Username " ++ user ++ ascii " OK. Password required."))

def cmdPass : Routine Unit := do
  let f ← load
  if f.auth then sendCode 202 r202
  else if f.lastcmd ≠ ascii "USER" then sendCode 503 r503
  else do
    put (.auth true)
    sendCode 230 (← copied (maxUsernameLen + 32) (ascii "Successfully logged in as " ++ f.user ++ ascii "."))

def cmdStat : Routine Unit := do
  let f ← load
  sendMulticode 211 welcomeMsg
  sendMultimessage (ascii "Username: " ++ f.user)
  sendMultimessage (ascii "Authenticated: " ++ decimal f.auth.toNat)
  sendMultimessage (ascii "Total connections: " ++ decimal ((← ask .nfds) - 1))
  sendCode 211 (ascii "End.")

def cmdFeat : Routine Unit := do
  sendMulticode 211 (ascii "Features:")
  sendMultimessage (ascii "REST STREAM")
  sendMultimessage (ascii "SIZE")
  sendMultimessage (ascii "MDTM")
  sendMultimessage (ascii "TVFS")
  sendCode 211 (ascii "End")

def cmdRest : Routine Unit := authed fun _ =>
  let offset : Int := ((strtol 10 params).map (·.1)).getD 0
  if offset ≥ 0 then do
    put (.rest (UInt64.ofNat offset.toNat))
    sendCode 350 (ascii "Restarting at " ++ decimal offset.toNat ++ ascii ".")
  else sendCode 554 r554

def cmdCdup : Routine Unit := authed fun f => do
  put (.cwd f.cwd.dropLast)
  sendCode 250 r250

def cmdCwd : Routine Unit := onPath u params fun _ path => do
  match ← io (.stat path) with
  | .error _ => sendCode 550 r550
  | .ok st =>
    if isDir st.mode then do
      match setWorkingDirectory u.maxName path with
      | some levels => put (.cwd levels)
      | none => put (.cwd (fields slash (← ask .memory)))
      sendCode 250 r250
    else sendCode 550 r550

def cmdPwd : Routine Unit := authed fun f =>
  sendCode 257 (34 :: getWorkingDirectory u.maxPath f.cwd ++ [34])

def cmdDele : Routine Unit := onPath u params fun _ path => do
  answered (← io (.unlink path)) 250 r250

def cmdRmd : Routine Unit := onPath u params fun _ path => do
  answered (← io (.rmdir path)) 250 r250

def cmdMkd : Routine Unit := onPath u params fun _ path => do
  answered (← io (.mkdir path 0o777)) 257 (34 :: path ++ [34])

def cmdRnfr : Routine Unit := onPath u params fun _ path => do
  if ← fileExists path then do
    put (.rnfr path)
    sendCode 350 r350a
  else sendCode 550 r550

def cmdRnto : Routine Unit := onPath u params fun f path => do
  if f.lastcmd ≠ ascii "RNFR" then sendCode 503 r503
  else answered (← io (.rename f.rnfr path)) 250 r250

def cmdSize : Routine Unit := onPath u params fun _ path => do
  match ← io (.stat path) with
  | .error _ => sendCode 550 r550
  | .ok st => sendCode 213 (decimal st.size.toNat)

def cmdMdtm : Routine Unit := onPath u params fun _ path => do
  match ← io (.stat path) with
  | .error _ => sendCode 550 r550
  | .ok st => sendCode 213 (timeStamp ((u.server.libc.localtime st.mtime).getD zeroTm))

def strtoul (base : Nat) (text : Bytes) : Nat :=
  ((scanNumber base text).map fun n =>
    if 2 ^ 64 ≤ n.magnitude then 2 ^ 64 - 1
    else if n.negative then (2 ^ 64 - n.magnitude) % 2 ^ 64 else n.magnitude).getD 0

def cmdChmod : Routine Unit := authed fun f => argued params do
  match fields space params with
  | mode :: path :: _ =>
    answered (← io (.chmod (absolute u f path) (UInt16.ofNat (strtoul 8 mode)))) 200 r200
  | _ => sendCode 501 r501

def cmdStop : Routine Unit := authed fun _ => do
  ask (.core .stop)
  sendCode 421 r421

def cmdSite : Routine Unit := argued params
  (let (name,rest) := parseCommandString params
   if name = ascii "CHMOD" then cmdChmod u rest
   else if name = ascii "STOP" then cmdStop
   else sendCode 502 r502)

def cmdPasv : Routine Unit := authed fun _ => do
  match ← clientPasvEnter with
  | none => sendCode 425 r425
  | some (ip,port) => sendCode 227 (ascii "Entering Passive Mode (" ++ commaSeparated ip port ++ ascii ")")

def portTarget : List Nat → Option SockAddr
  | [a,b,c,d,high,low] =>
    some (.inet ⟨UInt8.ofNat a,UInt8.ofNat b,UInt8.ofNat c,UInt8.ofNat d⟩ (UInt16.ofNat (high <<< 8 ||| low)))
  | _ => none

def cmdPort : Routine Unit := authed fun f =>
  match (parsePortTuple params).bind portTarget with
  | none => sendCode 501 r501
  | some target =>
    if f.socketData ≠ none then sendCode 450 r450
    else do
      put (.portAddr (some target))
      sendCode 200 r200

/- The end of the transfer commands: a transfer started, or its handle closed again. -/
def startOr (callback : DataCallback) (event : PollEvent) (closing : Routine Unit) :
    Routine Unit := do
  if ← clientDataStart u c callback event then sendCode 150 r150
  else do
    closing
    put (.fd none)
    sendCode 425 r425

def idle (body : Facade → Routine Unit) : Routine Unit := authed fun f =>
  if f.fd ≠ none then sendCode 450 r450 else body f

/- `cmd_list` and `cmd_nlst`; the parameter is not looked at. -/
def cmdListing (callback : DataCallback) : Routine Unit := idle fun f => do
  match ← io (.opendir (getWorkingDirectory u.maxPath f.cwd)) with
  | .error _ => sendCode 550 r550
  | .ok dir => do
    put (.fd (some dir))
    startOr u c callback .pollout (io (.closedir dir))

def cmdList : Routine Unit := cmdListing u c .list
def cmdNlst : Routine Unit := cmdListing u c .nlst

def seekStart (f : Facade) (fd : Fd) (callback : DataCallback) (event : PollEvent) :
    Routine Unit := do
  let _ ← io (.seek fd f.rest.toNat)
  put (.rest 0)
  startOr u c callback event (closeFile fd)

def cmdRetr : Routine Unit := idle fun f => argued params do
  let path := absolute u f params
  if ← fileExists path then
    match ← io (.openFile path ⟨.rdonly,false,false,false⟩ 0o777) with
    | .error _ => sendCode 550 r550
    | .ok fd => do
      put (.fd (some fd))
      seekStart u c f fd .retr .pollout
  else sendCode 550 r550

def cmdStor (name params : Bytes) : Routine Unit := idle fun f => argued params do
  let path := absolute u f params
  let creat := !(← fileExists path)
  let append := decide (name = ascii "APPE")
  match ← io (.openFile path ⟨.wronly,creat,!append && decide (f.rest = 0),append⟩ 0o777) with
  | .error _ => sendCode 550 r550
  | .ok fd => do
    put (.fd (some fd))
    (if creat then do let _ ← io (.chmod path 0o777) else pure ())
    seekStart u c f fd .stor .pollin

inductive Base where
  | abor | acct | allo | cdup | cwd | dele | help | list | mkd | mode | nlst | noop | pass | pasv | port | pwd
  | rest | retr | rmd | rnfr | rnto | site | stat | stor | stru | syst | type | user | feat | size | mdtm
  deriving DecidableEq, Repr

def Base.run (name params : Bytes) : Base → Routine Unit
  | .abor => cmdAbor
  | .acct => cmdAcct
  | .allo => cmdAllo
  | .cdup => cmdCdup
  | .cwd => cmdCwd u params
  | .dele => cmdDele u params
  | .help => cmdHelp
  | .list => cmdList u c
  | .mkd => cmdMkd u params
  | .mode => cmdMode params
  | .nlst => cmdNlst u c
  | .noop => cmdNoop
  | .pass => cmdPass
  | .pasv => cmdPasv
  | .port => cmdPort params
  | .pwd => cmdPwd u
  | .rest => cmdRest params
  | .retr => cmdRetr u c params
  | .rmd => cmdRmd u params
  | .rnfr => cmdRnfr u params
  | .rnto => cmdRnto u params
  | .site => cmdSite u params
  | .stat => cmdStat
  | .stor => cmdStor u c name params
  | .stru => cmdStru params
  | .syst => cmdSyst
  | .type => cmdType
  | .user => cmdUser params
  | .feat => cmdFeat
  | .size => cmdSize u params
  | .mdtm => cmdMdtm u params

def baseCommandImport : List (String × Base) :=
  [("ABOR",.abor),("ACCT",.acct),("ALLO",.allo),("APPE",.stor),("CDUP",.cdup),("CWD",.cwd),("DELE",.dele),
   ("HELP",.help),("LIST",.list),("MKD",.mkd),("MODE",.mode),("NLST",.nlst),("NOOP",.noop),("PASS",.pass),
   ("PASV",.pasv),("PORT",.port),("PWD",.pwd),("REST",.rest),("RETR",.retr),("RMD",.rmd),("RNFR",.rnfr),
   ("RNTO",.rnto),("SITE",.site),("STAT",.stat),("STOR",.stor),("STRU",.stru),("SYST",.syst),("TYPE",.type),
   ("USER",.user),("XCUP",.cdup),("XCWD",.cwd),("XMKD",.mkd),("XPWD",.pwd),("XRMD",.rmd),("FEAT",.feat),
   ("SIZE",.size),("MDTM",.mdtm)]

/- `base_connect`: the variables of a new client. Two of them hold whatever the memory
did until they are written. -/
def baseConnect : Routine Facade := do
  let user ← ask .memory
  let rnfr ← ask .memory
  sendMulticode 220 welcomeMsg
  return {
    cwd := [], user, rnfr, auth := false, fd := none, rest := 0, portAddr := none, lastcmd := [],
    socketData := none, socketPasv := none, cbData := none, jobActive := false, cancel := false, dataGo := false }

end OpenPs3Ftp.Legacy
