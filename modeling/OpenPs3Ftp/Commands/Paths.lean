import OpenPs3Ftp.Listing
import OpenPs3Ftp.Commands.Login

/-! Path commands of `commands.c`. Each resolves its argument first and names only
what the resolver returned, the parent of it, or a source stored earlier. -/
namespace OpenPs3Ftp.Commands
open Lib Text Resolve Fs Session Listing

def quoted (text : Bytes) : Bytes := snprintf 1040 (34 :: text ++ [34])

variable (s : Server) (c : Client) (param : Option Bytes)

def cmdPwd : Handler Client := do
  reply 257 (quoted c.cwd.text)
  return c

def failing (failure : Failure) (c : Client) : Handler Client := do
  replyFsError failure
  return c

/- The FTP-visible directory: the resolved path without the root's text. -/
def visible (root path : Bytes) : Bytes :=
  if path = root then [slash] else if 1 < root.length then path.drop root.length else path

theorem visibleShort (root) {path} (short : path.length < 1024) : (visible root path).length ≤ 1023 := by
  unfold visible
  split
  · simp
  split
  · rw [List.length_drop]
    omega
  · omega

def cmdCwd : Handler Client :=
  match resolveArg s c param with
  | none => answering 501 r501 c
  | some path => do
    match ← invoke (.fs (.stat path)) with
    | .error e => failing (.known e) c
    | .ok st =>
      if isDir st.mode then do
        reply 250 r250
        return { c with cwd := Buffer.print 1023 (visible s.root.text path) }
      else failing .stale c

def cmdCdup : Handler Client := cmdCwd s c (some (ascii ".."))

def resolveTarget : Handler (Except Failure Bytes) :=
  match resolveArg s c param with
  | none => return .error .stale
  | some path => do
    match ← parentIsDir path with
    | some failure => return .error failure
    | none => return .ok path

def cmdMkd : Handler Client :=
  if given param = none then answering 501 r501 c
  else do
    match ← resolveTarget s c param with
    | .error failure => failing failure c
    | .ok path =>
      match ← invoke (.fs (.mkdir path 0o755)) with
      | .error e => failing (.known e) c
      | .ok () => answering 257 (quoted path) c

def cmdRmd : Handler Client :=
  match resolveArg s c param with
  | none => answering 501 r501 c
  | some path => do
    match ← invoke (.fs (.rmdir path)) with
    | .error e => failing (.known e) c
    | .ok () => answering 250 r250 c

def cmdDele : Handler Client :=
  match resolveArg s c param with
  | none => answering 501 r501 c
  | some path => do
    match ← invoke (.fs (.unlink path)) with
    | .error e => failing (.known e) c
    | .ok () => answering 250 r250 c

def statting (k : Bytes → Stat → Handler Client) :
    Handler Client :=
  match resolveArg s c param with
  | none => answering 501 r501 c
  | some path => do
    match ← invoke (.fs (.stat path)) with
    | .error e => failing (.known e) c
    | .ok st => k path st

def cmdRnfr : Handler Client :=
  statting s c param fun path _ => do
    reply 350 r350a
    return { c with rnfr := Buffer.print 1023 path, haveRnfr := true }

def cmdRnto : Handler Client :=
  if ¬ c.haveRnfr then answering 503 r503 c
  else do
    let target ← resolveTarget s c param
    let c := { c with haveRnfr := false }
    match target with
    | .error failure => failing failure c
    | .ok path =>
      match ← invoke (.fs (.rename c.rnfr.text path)) with
      | .error e => failing (.known e) c
      | .ok () => answering 250 r250 c

def cmdCpfr : Handler Client :=
  statting s c param fun path st =>
    if isReg st.mode ∨ isDir st.mode then do
      reply 350 (if isDir st.mode then ascii "Directory exists, ready for destination name."
        else ascii "File exists, ready for destination name.")
      return { c with cpfr := Buffer.print 1023 path, haveCpfr := true }
    else failing .stale c

def cmdSize : Handler Client :=
  statting s c param fun _ st =>
    if isReg st.mode then answering 213 (snprintf 64 (decimal st.size.toNat)) c else failing .stale c

def cmdMdtm : Handler Client :=
  statting s c param fun _ st =>
    match s.libc.gmtime st.mtime with
    | none => failing (.known .eoverflow) c
    | some tm => answering 213 (snprintf 64 (timeStamp tm)) c

def sendEntries (libc : Libc) : List Dirent → Handler Unit
  | [] => return
  | de :: rest => do
    sendRaw (listingFormat libc 1024 de none)
    sendEntries libc rest

def statLines (path : Bytes) (st : Stat) : Handler Unit :=
  if isDir st.mode then do
    match ← invoke (.fs (.opendir path)) with
    | .error _ => return
    | .ok dir => do
      sendEntries s.libc (← invoke (.entries dir))
      invoke (.fs (.closedir dir))
  else sendRaw (listingFormat s.libc 1024 (direntOf path st) none)

def cmdStat : Handler Client :=
  if given param = none then do
    clientSend (snprintf 1088 (ascii "211-Status of server: cwd=" ++ c.cwd.text))
    clientSend (ascii "211 End")
    return c
  else statting s c param fun path st => do
    clientSend (snprintf 1024 (ascii "211-Status of " ++ path ++ ascii ":"))
    statLines s path st
    clientSend (ascii "211 End")
    return c

def cmdMlst : Handler Client :=
  if given param = none then answering 501 r501 c
  else statting s c param fun path st => do
    clientSend (ascii "250-Start of list")
    sendRaw (snprintf 1025 (space :: mlsdFormat s.libc 1024 (direntOf path st)))
    answering 250 (ascii "End") c

/- `utimes` after a successful `stat`; what is answered then is `k`. -/
def touching (arg : Bytes) (t : Int) (k : Handler Client) : Handler Client :=
  statting s c (some arg) fun path _ => do
    match ← invoke (.fs (.utimes path t)) with
    | .error e => failing (.known e) c
    | .ok () => k

def cmdMfmt : Handler Client :=
  match param.filter (fun p => 15 ≤ p.length ∧ (p.drop 14).head? = some space) with
  | none => answering 501 r501 c
  | some p =>
    match parseFtpTime s.libc p with
    | none => answering 501 r501 c
    | some t => touching s c (skipSpaces (p.drop 15)) t
      (match s.libc.gmtime t with
      | none => failing (.known .eoverflow) c
      | some tm => answering 213 (snprintf 64 (ascii "Modify=" ++ timeStamp tm)) c)

def siteChmod (body : Bytes) : Handler Client :=
  match strtol 8 (skipSpaces body) with
  | some (mode,b :: rest) =>
    if b ≠ space then answering 501 r501 c
    else
      match resolveArg s c (some (skipSpaces rest)) with
      | none => answering 501 r501 c
      | some path => do
        match ← invoke (.fs (.chmod path (UInt16.ofNat (mode % 65536).toNat))) with
        | .error e => failing (.known e) c
        | .ok () => answering 200 r200 c
  | _ => answering 501 r501 c

/- SITE UTIME: the time is the last token, everything before it the path. -/
def siteUtime (body : Bytes) : Handler Client :=
  let p := skipSpaces body
  let trailing := p.rtakeWhile (· = space)
  let words := p.rdropWhile (· = space)
  let token := words.rtakeWhile (· ≠ space) ++ trailing
  let before := words.rdropWhile (· ≠ space)
  if before = [] ∨ token.length < 14 ∨ ¬ (token.take 14).all isdigit then answering 501 r501 c
  else
    let path := before.rdropWhile (· = space)
    if path.length ≥ maxPath then answering 501 r501 c
    else
      match parseFtpTime s.libc token with
      | none => answering 501 r501 c
      | some t => touching s c path t (answering 200 r200 c)

def siteStop (body : Bytes) : Handler Client :=
  if skipSpaces body ≠ [] then answering 501 r501 c
  else if ¬ s.allowStop then answering 502 r502 c
  else cmdStop c

def cmdSite : Handler Client :=
  match given param with
  | none => answering 502 r502 c
  | some p =>
    if startsFold (ascii "CHMOD") p then siteChmod s c (p.drop 5)
    else if startsFold (ascii "UTIME") p then siteUtime s c (p.drop 5)
    else if startsFold (ascii "STOP") p then siteStop s c (p.drop 4)
    else answering 502 r502 c

theorem runsAnswering {code msg c trace c'} (run : (answering code msg c).Runs trace c') :
    trace = [⟨.send .command (replyText code msg),()⟩] ∧ c' = c := by
  obtain ⟨answer,rest,rfl,ended⟩ := runsInvoke run
  obtain ⟨rfl,rfl⟩ := Program.runsDone.mp ended
  exact ⟨rfl,rfl⟩

theorem runsFailing {failure c trace c'} (run : (failing failure c).Runs trace c') :
    c' = c ∧ ∀ e ∈ trace, e.1 = .errno ∨ ∃ msg, e.1 = .send .command (replyText 550 msg) := by
  cases failure with
  | known e =>
    obtain ⟨rfl,rfl⟩ := @runsAnswering 550 _ _ _ _ run
    exact ⟨rfl,by simp⟩
  | stale =>
    obtain ⟨e,rest,rfl,told⟩ := Program.runsAsk.mp run
    obtain ⟨rfl,rfl⟩ := @runsAnswering 550 _ _ _ _ told
    exact ⟨rfl,by simp⟩

end OpenPs3Ftp.Commands
