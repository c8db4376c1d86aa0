import OpenPs3Ftp.Commands.Discipline

/-! The control connection in the reactor: reading bytes, cutting lines, and what
one poll event makes of them (`client.c`, `server.c`). What `recv` returns during
an event is given as a list; after it the socket would block. -/
namespace OpenPs3Ftp.Events
open Lib Text Resolve Fs Session Commands Dispatch Program

def readBuffer : Nat := 4096
def lineBuffer : Nat := 1024

/- `opftp_client_getline`: the line without its end, cut to the caller's buffer, and
the bytes after it. What the caller reads of the line ends at a NUL. -/
def getline (buffer : Bytes) : Option (Bytes × Bytes) :=
  let before := buffer.takeWhile (· ≠ 10)
  match buffer.drop before.length with
  | [] => none
  | _ :: rest =>
    let line := if before.getLast? = some 13 then before.dropLast else before
    some (cstr (line.take (lineBuffer - 1)),rest)

inductive Received where
  | bytes (chunk : Bytes)
  | wouldBlock
  | failed
  deriving DecidableEq, Repr

/- Lines are handled until none is complete, the client is to go, or TLS starts. Each
line takes at least one byte, so the buffer's length bounds their number. -/
def lineLoop (s : Server) : Nat → Client → Handler Client
  | 0,c => return c
  | fuel + 1,c =>
    match getline c.rbuf with
    | none => return c
    | some (line,rest) => do
      let c ← processLine (commandsInit s) (Command.run s) id { c with rbuf := rest } line
      if c.disconnectRequested ∨ c.tlsHandshaking then return c else lineLoop s fuel c

/- A full buffer without a line and a failed or ended stream all end the connection. -/
def readLoop (s : Server) : List Received → Client → Handler Client
  | [],c => return if c.rbuf.length ≥ readBuffer then { c with disconnectRequested := true } else c
  | received :: more,c =>
    if c.rbuf.length ≥ readBuffer then return { c with disconnectRequested := true }
    else
      match received with
      | .wouldBlock => return c
      | .failed | .bytes [] => return { c with disconnectRequested := true }
      | .bytes chunk => do
        let rbuf := c.rbuf ++ chunk.take (readBuffer - c.rbuf.length)
        let c ← lineLoop s rbuf.length { c with rbuf }
        if c.disconnectRequested ∨ c.tlsHandshaking then return c else readLoop s more c

structure Revents where
  pollpri : Bool
  pollin : Bool
  hangup : Bool
  deriving DecidableEq, Repr

def gone (c : Client) : Client :=
  { c with connected := false, job := none, generation := c.generation + 1, pasvFd := none, tls := false,
           tlsHandshaking := if c.tls then false else c.tlsHandshaking }

def cancelSome : Option JobId → Handler Unit
  | none => return
  | some job => invoke (.cancel job)

/- `client_disconnect`: the transfer is cancelled, its completion made stale. -/
def clientDisconnect (c : Client) : Handler Client := do
  cancelSome c.job
  closeSome c.pasvFd
  return gone c

def cancelling (job : Option JobId) : Trace := job.toList.map fun job => ⟨.cancel job,()⟩

theorem disconnectRuns {c c' trace} (run : (clientDisconnect c).Runs trace c') :
    trace = cancelling c.job ++ closing c.pasvFd ∧ c' = gone c := by
  obtain ⟨first,⟨⟩,rest,rfl,cancelled,next⟩ := runsBind.mp run
  obtain ⟨second,⟨⟩,last,rfl,closed,finished⟩ := runsBind.mp next
  obtain ⟨rfl,rfl⟩ := runsDone.mp finished
  have front : first = cancelling c.job := by
    cases job : c.job with
    | none =>
      rw [job] at cancelled
      exact (runsDone.mp cancelled).1
    | some id =>
      rw [job] at cancelled
      obtain ⟨⟨⟩,rest,rfl,done⟩ := runsAsk.mp cancelled
      rw [(runsDone.mp done).1]
      rfl
  rw [front,closeSomeRuns closed,List.append_nil]
  exact ⟨rfl,rfl⟩

def finishEvent (c : Client) : Handler Client :=
  if c.disconnectRequested then clientDisconnect c else return c

def urgentAbort (s : Server) (c : Client) : Handler Client := do
  let after ← dispatchCall (commandsInit s) (Command.run s) id c (ascii "ABOR") none
  return after.getD c

def shaken (c : Client) : Handshake → Client
  | .finished => { c with tlsHandshaking := false }
  | .failed => { c with disconnectRequested := true }
  | .wantRead | .wantWrite => c

def handleClientEvents (s : Server) (revents : Revents) (received : List Received) (c : Client) : Handler Client :=
  if c.tlsHandshaking then do
    let result ← invoke .tlsHandshake
    finishEvent (shaken c result)
  else do
    let c ← (if revents.pollpri then urgentAbort s c else pure c)
    let c ← (if revents.pollin then readLoop s received c else pure c)
    finishEvent (if revents.hangup then { c with disconnectRequested := true } else c)

/- One round of `accept_clients`, up to the connect hook. -/
def acceptClient (s : Server) (peer : SockAddr) : Handler Client := do
  (if s.skipBanner then pure () else reply 220 (ascii "OpenPS3FTP ready."))
  if s.requireTls then do
    reply 534 (ascii "AUTH TLS required.")
    return { clientNew peer with disconnectRequested := true }
  else return clientNew peer

theorem acceptRuns {s peer greeting c} (run : (acceptClient s peer).Runs greeting c) :
    c = { clientNew peer with disconnectRequested := s.requireTls } := by
  obtain ⟨_,_,_,rfl,-,rest⟩ := runsBind.mp run
  split at rest
  · rename_i required
    obtain ⟨⟨⟩,_,rfl,last⟩ := runsInvoke rest
    rw [(runsDone.mp last).2,required]
  · rename_i free
    rw [(runsDone.mp rest).2,(by simpa using free : s.requireTls = false)]
    rfl

section Rule
variable {ρ : Type} {world : (call : Call) → Answer call → Prop} {note : ρ → (call : Call) → Answer call → ρ}
  {guard : ρ → Call → Prop} {s : Server} {Inv : ρ → Client → Prop}
  (buffer : ∀ r c rbuf, Inv r c → Inv r { c with rbuf })
  (leaving : ∀ r c, Inv r c → Inv r { c with disconnectRequested := true })
  (line : ∀ r c text, Inv r c → c.tlsHandshaking = false →
    Meets world note guard Inv r (processLine (commandsInit s) (Command.run s) id c text))
include buffer line

theorem linesMeet (fuel) {r c} (inv : Inv r c) (plain : c.tlsHandshaking = false) :
    Meets world note guard Inv r (lineLoop s fuel c) := by
  induction fuel generalizing r c with
  | zero => exact inv
  | succ fuel ih =>
    unfold lineLoop
    split
    · exact inv
    rename_i text rest _
    rw [meetsBind]
    refine meetsMono (fun r' c' inv' => ?_) (line r { c with rbuf := rest } text (buffer r c rest inv) plain)
    split
    · exact inv'
    · rename_i going
      exact ih inv' (by simp_all)

include leaving

theorem readsMeet (received) {r c} (inv : Inv r c) (plain : c.tlsHandshaking = false) :
    Meets world note guard Inv r (readLoop s received c) := by
  induction received generalizing r c with
  | nil =>
    unfold readLoop
    split
    · exact leaving r c inv
    · exact inv
  | cons first more ih =>
    unfold readLoop
    split
    · exact leaving r c inv
    split
    · exact inv
    · exact leaving r c inv
    · exact leaving r c inv
    rw [meetsBind]
    refine meetsMono (fun r' c' inv' => ?_) (linesMeet buffer line _ (buffer r c _ inv) plain)
    split
    · exact inv'
    · rename_i going
      exact ih inv' (by simp_all)

theorem eventMeets {Last revents received r c} (inv : Inv r c)
    (urgent : revents.pollpri = true → c.tlsHandshaking = false →
      Meets world note guard (fun r' c' => Inv r' c' ∧ c'.tlsHandshaking = false) r (urgentAbort s c))
    (greeting : c.tlsHandshaking = true → guard r .tlsHandshake ∧
      ∀ result, Inv (note r .tlsHandshake result) c ∧
        (result = .finished → Inv (note r .tlsHandshake result) { c with tlsHandshaking := false }))
    (ending : ∀ r c, Inv r c → Meets world note guard Last r (finishEvent c)) :
    Meets world note guard Last r (handleClientEvents s revents received c) := by
  unfold handleClientEvents
  split
  · rename_i shaking
    obtain ⟨owed,after⟩ := greeting shaking
    refine ⟨owed,fun result _ => ?_⟩
    obtain ⟨still,finished⟩ := after result
    cases result with
    | finished => exact ending _ _ (finished rfl)
    | wantRead | wantWrite => exact ending _ _ still
    | failed => exact ending _ _ (leaving _ _ still)
  rename_i notShaking
  have plain : c.tlsHandshaking = false := by simpa using notShaking
  have last : ∀ r c, Inv r c → Meets world note guard Last r
      (finishEvent (if revents.hangup then { c with disconnectRequested := true } else c)) := by
    intro r c inv
    split
    · exact ending _ _ (leaving _ _ inv)
    · exact ending _ _ inv
  have reading : ∀ r c, Inv r c → c.tlsHandshaking = false → Meets world note guard Last r
      ((if revents.pollin then readLoop s received c else pure c) >>= fun c =>
        finishEvent (if revents.hangup then { c with disconnectRequested := true } else c)) := by
    intro r c inv plain
    rw [meetsBind]
    refine meetsMono last ?_
    split
    · exact readsMeet buffer leaving line received inv plain
    · exact inv
  rw [meetsBind]
  have before : Meets world note guard (fun r' c' => Inv r' c' ∧ c'.tlsHandshaking = false) r
      (if revents.pollpri then urgentAbort s c else pure c) := by
    split
    · exact urgent ‹_› plain
    · exact ⟨inv,plain⟩
  exact meetsMono (fun r' c' h => reading r' c' h.1 h.2) before

end Rule

section Lines
variable {ρ : Type} {world : (call : Call) → Answer call → Prop} {note : ρ → (call : Call) → Answer call → ρ}
  {guard : ρ → Call → Prop} {s : Server} {r : ρ} {c : Client}

theorem dispatchMeets {post name param} (unknown : (commandsInit s).lookup name = none → post r none)
    (entering : ∀ command, (commandsInit s).lookup name = some command → guard r (.enter name c) ∧
      Meets world note guard (fun r' c' => post r' (some c')) (note r (.enter name c) ()) (command.run s c param)) :
    Meets world note guard post r (dispatchCall (commandsInit s) (Command.run s) id c name param) := by
  unfold dispatchCall
  split
  · exact unknown ‹_›
  rename_i command found
  obtain ⟨allowed,after⟩ := entering command found
  refine ⟨allowed,fun _ _ => ?_⟩
  have inner : Meets world note guard post (note r (.enter name c) ())
      (command.run s c param >>= fun c' => pure (some c')) := by
    rw [meetsBind]
    exact after
  exact inner

theorem lineMeets {Inv} (text) (inv : Inv r c)
    (saying : ∀ text, guard r (.send .command text) ∧ Inv (note r (.send .command text) ()) c)
    (entering : ∀ name param command, (commandsInit s).lookup name = some command →
      (c.loggedIn = true ∨ preloginCommand name = true) → guard r (.enter name c) ∧
        Meets world note guard Inv (note r (.enter name c) ()) (command.run s c param)) :
    Meets world note guard Inv r (processLine (commandsInit s) (Command.run s) id c text) := by
  unfold processLine
  simp only [meetsIte]
  refine ⟨fun _ => inv,fun _ => ⟨fun _ => ?_,fun open_ => ?_⟩⟩
  · obtain ⟨allowed,after⟩ := saying (replyText 530 (ascii "Not logged in."))
    exact ⟨allowed,fun _ _ => after⟩
  have gate : c.loggedIn = true ∨ preloginCommand ((commandName text).map toupper) = true := by
    simp only [id,not_and,Bool.not_eq_true,Bool.not_eq_false] at open_
    cases logged : c.loggedIn with
    | true => exact .inl rfl
    | false => exact .inr (open_ logged)
  rw [meetsBind]
  refine dispatchMeets (fun _ => ?_) fun command found => entering _ _ command found gate
  obtain ⟨allowed,after⟩ := saying (replyText 502 (ascii "Command not implemented."))
  exact ⟨allowed,fun _ _ => after⟩

theorem acceptMeets {Last} (peer)
    (saying : ∀ text, guard r (.send .command text) ∧ ∀ answer, note r (.send .command text) answer = r)
    (fresh : ∀ leaving, Last r { clientNew peer with disconnectRequested := leaving }) :
    Meets world note guard Last r (acceptClient s peer) := by
  have greeted : Meets world note guard Last r
      (if s.requireTls then do
        reply 534 (ascii "AUTH TLS required.")
        return { clientNew peer with disconnectRequested := true }
      else return clientNew peer) := by
    refine meetsIte.mpr ⟨fun _ => ⟨(saying _).1,fun answer _ => ?_⟩,fun _ => fresh false⟩
    rw [(saying _).2 answer]
    exact fresh true
  unfold acceptClient
  split
  · exact greeted
  · refine ⟨(saying _).1,fun answer _ => ?_⟩
    rw [(saying _).2 answer]
    exact greeted

end Lines

example : getline (ascii "NOOP\r\nQUIT") = some (ascii "NOOP",ascii "QUIT") := by decide

end OpenPs3Ftp.Events
