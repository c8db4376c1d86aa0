import OpenPs3Ftp.Duty

/-! The end of a job on the reactor (`datachan.c`): what a worker posts and the
replies made of it. Together with the events of the control connection this is
everything that happens to a client after it was accepted. -/
namespace OpenPs3Ftp.Events
open Lib Text Resolve Fs Session Commands Dispatch Program

structure Posted where
  job : Job
  dataFd : Option Fd
  connOk : Bool
  result : Option Errno
  deriving DecidableEq

/- The final reply. Without a data connection only the kind of failure is told apart. -/
def Posted.verdict (p : Posted) : Nat × Bytes :=
  if ¬ p.connOk ∧ p.job.op ≠ .copy then
    match p.result with
    | some .ecanceled => (426,ascii "Connection closed; transfer aborted.")
    | some .etimedout | some .eacces => (425,ascii "Cannot open data connection.")
    | _ => (451,ascii "Data transfer error (network).")
  else
    match p.result with
    | none => if p.job.op = .copy then (250,ascii "Copy successful.") else (226,r226)
    | some .ecanceled | some .epipe | some .econnreset | some .etimedout => (426,r426)
    | some .enoent | some .eacces | some .enotdir | some .eisdir | some .einval | some .enametoolong
    | some .eloop => (550,r550)
    | some _ => (451,r451)

def closeJob (p : Posted) : Handler Unit := do
  closeSome p.dataFd
  closeSome p.job.pasvFd

def finishAbort (c : Client) : Handler Client :=
  if c.aborPending then do
    replyAbout .abort 226 (ascii "Abort successful.")
    return { c with aborPending := false }
  else return c

/- `opftp_datachan_complete`; a client that left meanwhile is at another generation. -/
def datachanComplete (p : Posted) (c : Client) : Handler Client := do
  closeJob p
  if p.job.generation ≠ c.generation then return c
  else do
    replyAbout (.finished p.job.id) p.verdict.1 p.verdict.2
    finishAbort { c with job := none }

theorem verdictDone {p : Posted} (success : p.verdict.1 = 226 ∨ p.verdict.1 = 250) :
    p.result = none ∧ (p.job.op = .copy ↔ p.verdict.1 = 250) := by
  unfold Posted.verdict at success ⊢
  split at success <;> split at success <;> simp_all
  split at success <;> simp_all

theorem verdictKnown (p : Posted) : p.verdict.1 ∈ [226,250,425,426,451,550] := by
  unfold Posted.verdict
  split <;> split <;> (try split) <;> simp

def abortReply : Exchange Answer := ⟨.send .abort (replyText 226 (ascii "Abort successful.")),()⟩

theorem abortIdle {c} (idle : c.job = none) : (cmdAbor c).Runs [abortReply] c := by
  rw [cmdAbor,idle]
  exact invokeRuns (.send .abort _) () (.done c)

theorem urgentIdle (s) {c} (idle : c.job = none) :
    (urgentAbort s c).Runs [⟨.enter (ascii "ABOR") c,()⟩,abortReply] c := by
  have entered : (dispatchCall (commandsInit s) (Command.run s) id c (ascii "ABOR") none).Runs
      [⟨.enter (ascii "ABOR") c,()⟩,abortReply] (some c) := by
    rw [dispatchCall,lookupAbor]
    exact invokeRuns (.enter (ascii "ABOR") c) () (runsBind.mpr ⟨_,c,[],rfl,abortIdle idle,.done _⟩)
  exact runsBind.mpr ⟨_,_,[],rfl,entered,.done _⟩

def Posted.reply (p : Posted) : Exchange Answer :=
  ⟨.send (.finished p.job.id) (replyText p.verdict.1 p.verdict.2),()⟩

def Posted.closes (p : Posted) : Trace := closing p.dataFd ++ closing p.job.pasvFd

inductive Completed (p : Posted) (c : Client) : Trace → Client → Prop where
  | stale (left : p.job.generation ≠ c.generation) : Completed p c p.closes c
  | plain (here : p.job.generation = c.generation) (calm : c.aborPending = false) :
      Completed p c (p.closes ++ [p.reply]) { c with job := none }
  | aborted (here : p.job.generation = c.generation) (pending : c.aborPending = true) :
      Completed p c (p.closes ++ [p.reply,abortReply]) { c with job := none, aborPending := false }

theorem completeRuns {p c c' trace} (run : (datachanComplete p c).Runs trace c') : Completed p c trace c' := by
  obtain ⟨closes,⟨⟩,rest,rfl,closed,next⟩ := runsBind.mp run
  obtain ⟨first,⟨⟩,second,rfl,one,two⟩ := runsBind.mp closed
  rw [closeSomeRuns one,closeSomeRuns two]
  split at next
  · obtain ⟨rfl,rfl⟩ := runsDone.mp next
    rw [List.append_nil]
    exact .stale ‹_›
  rename_i same
  have here : p.job.generation = c.generation := by simpa using same
  obtain ⟨⟨⟩,rest,rfl,ending⟩ := runsInvoke next
  unfold finishAbort at ending
  split at ending
  · obtain ⟨⟨⟩,rfl,rfl⟩ := runsOnce ending
    exact .aborted here ‹_›
  · rename_i calm
    obtain ⟨rfl,rfl⟩ := runsDone.mp ending
    exact .plain here (by simpa using calm)

inductive Happening where
  | event (revents : Revents) (received : List Received)
  | completion (posted : Posted)

def Happening.run (s : Server) (c : Client) : Happening → Handler Client
  | .event revents received => handleClientEvents s revents received c
  | .completion posted => datachanComplete posted c

/- Completions are of the client's own transfer, unless it was left behind. -/
def Happening.Ready (c : Client) : Happening → Prop
  | .event .. => c.connected = true
  | .completion posted => c.connected = true ∧
      (posted.job.generation = c.generation → c.job = some posted.job.id)

/- One thing that happened to a client, the session and the configured root it found
and the calls made. -/
structure Moment where
  root : Buffer 1024
  client : Client
  happening : Happening
  trace : Trace

def Moment.server (m : Moment) (s : Server) : Server := { s with root := m.root }

inductive Lives (s : Server) : Client → List Moment → Client → Prop where
  | rest (c) : Lives s c [] c
  | next {m c' moments last} (ready : m.happening.Ready m.client)
      (run : (m.happening.run (m.server s) m.client).Runs m.trace c') (later : Lives s c' moments last) :
      Lives s m.client (m :: moments) last

def Moment.played (s : Server) (root : Buffer 1024) (c : Client) (happening : Happening)
    (oracle : (call : Call) → Answer call) : Moment :=
  ⟨root,c,happening,((happening.run { s with root } c).play oracle).1⟩

theorem playedLives (s root) {c happening} (oracle) (ready : happening.Ready c) :
    Lives s c [.played s root c happening oracle] ((happening.run { s with root } c).play oracle).2 :=
  .next (m := .played s root c happening oracle) ready (playRuns oracle _) (.rest _)

end OpenPs3Ftp.Events
