import OpenPs3Ftp.Lib.Transition
import OpenPs3Ftp.Completion

/-! An event taken apart: every execution of the event code is a sequence of turns,
one line, urgent byte or change of the connection each, with the calls of the event
in the same order. What holds over all sequences of turns holds of the reactor. -/
namespace OpenPs3Ftp.Events
open Lib Text Resolve Fs Session Commands Dispatch Program

inductive Turn where
  | line (text : Bytes)
  | urgent
  | buffer (rbuf : Bytes)
  | leave
  | shake
  | drop
  | complete (posted : Posted)

def Turn.run (s : Server) (c : Client) : Turn → Handler Client
  | .line text => processLine (commandsInit s) (Command.run s) id c text
  | .urgent => urgentAbort s c
  | .buffer rbuf => return { c with rbuf }
  | .leave => return { c with disconnectRequested := true }
  | .shake => do return shaken c (← invoke .tlsHandshake)
  | .drop => clientDisconnect c
  | .complete posted => datachanComplete posted c

def Turn.Ready (c : Client) : Turn → Prop
  | .line _ | .urgent => c.connected = true ∧ c.tlsHandshaking = false
  | .shake => c.connected = true ∧ c.tlsHandshaking = true
  | .drop => c.connected = true ∧ c.disconnectRequested = true
  | .buffer _ | .leave => c.connected = true
  | .complete posted => c.connected = true ∧ (posted.job.generation = c.generation → c.job = some posted.job.id)

def Names (turn : Turn) (name : Bytes) : Prop :=
  match turn with
  | .line text => (commandName text).map toupper = name
  | _ => False

instance (turn name) : Decidable (Names turn name) := by
  unfold Names
  split <;> infer_instance

structure Played where
  root : Buffer 1024
  turn : Turn
  trace : Trace

def connection (s : Server) : System Client Played where
  start c := ∃ peer greeting, (acceptClient s peer).Runs greeting c
  step c p c' := p.turn.Ready c ∧ (p.turn.run { s with root := p.root } c).Runs p.trace c'

def calls (plays : List Played) : Trace := (plays.map (·.trace)).flatten

inductive Lined (s : Server) (c : Client) (text : Bytes) : Trace → Client → Prop where
  | empty (blank : (commandName text).map toupper = []) : Lined s c text [] c
  | shut (out : c.loggedIn = false) (late : preloginCommand ((commandName text).map toupper) = false) :
      Lined s c text [⟨.send .command (replyText 530 (ascii "Not logged in.")),()⟩] c
  | unknown (missing : (commandsInit s).lookup ((commandName text).map toupper) = none) :
      Lined s c text [⟨.send .command (replyText 502 (ascii "Command not implemented.")),()⟩] c
  | entered {command trace c'} (found : (commandsInit s).lookup ((commandName text).map toupper) = some command)
      (gate : c.loggedIn = true ∨ preloginCommand ((commandName text).map toupper) = true)
      (run : (command.run s c (some (lineParam text))).Runs trace c') :
      Lined s c text (⟨.enter ((commandName text).map toupper) c,()⟩ :: trace) c'

variable {s : Server} {c : Client} {trace : Trace}

theorem dispatchRuns {name param command after} (found : (commandsInit s).lookup name = some command)
    (run : (dispatchCall (commandsInit s) (Command.run s) id c name param).Runs trace after) :
    ∃ rest c', trace = ⟨.enter name c,()⟩ :: rest ∧ after = some c' ∧ (command.run s c param).Runs rest c' := by
  rw [dispatchCall,found] at run
  obtain ⟨⟨⟩,rest,rfl,inner⟩ := runsInvoke run
  obtain ⟨first,c',second,rfl,handled,last⟩ := runsBind.mp inner
  obtain ⟨rfl,rfl⟩ := runsDone.mp last
  exact ⟨_,c',rfl,rfl,by simpa using handled⟩

variable {c' : Client}

theorem lineRuns {text} (run : (processLine (commandsInit s) (Command.run s) id c text).Runs trace c') :
    Lined s c text trace c' := by
  unfold processLine at run
  simp only at run
  split at run
  · obtain ⟨rfl,rfl⟩ := runsDone.mp run
    exact .empty ‹_›
  split at run
  · rename_i closed
    obtain ⟨⟨⟩,rfl,rfl⟩ := runsOnce run
    exact .shut (by simpa using closed.1) (by simpa using closed.2)
  rename_i opened
  obtain ⟨first,after,second,rfl,called,last⟩ := runsBind.mp run
  cases found : (commandsInit s).lookup ((commandName text).map toupper) with
  | none =>
    rw [dispatchCall,found] at called
    obtain ⟨rfl,rfl⟩ := runsDone.mp called
    obtain ⟨⟨⟩,rest,rfl,said⟩ := runsInvoke last
    obtain ⟨rfl,rfl⟩ := runsDone.mp said
    exact .unknown found
  | some command =>
    obtain ⟨rest,d,rfl,rfl,handled⟩ := dispatchRuns found called
    obtain ⟨rfl,rfl⟩ := runsDone.mp last
    rw [List.append_nil]
    refine .entered found ?_ handled
    simp only [id,not_and,Bool.not_eq_true,Bool.not_eq_false] at opened
    cases logged : c.loggedIn with
    | true => exact .inl rfl
    | false => exact .inr (opened logged)

theorem enteredRuns {s c c' text command trace}
    (found : (commandsInit s).lookup ((commandName text).map toupper) = some command)
    (gate : c.loggedIn = true ∨ preloginCommand ((commandName text).map toupper) = true)
    (run : (command.run s c (some (lineParam text))).Runs trace c') :
    (processLine (commandsInit s) (Command.run s) id c text).Runs
      (⟨.enter ((commandName text).map toupper) c,()⟩ :: trace) c' := by
  have opened : ¬ (¬ (id c).loggedIn = true ∧ ¬ preloginCommand ((commandName text).map toupper) = true) := by
    rcases gate with logged | free
    · exact fun closed => closed.1 logged
    · exact fun closed => closed.2 free
  simp only [processLine,if_neg (lookupNamed found),if_neg opened]
  refine runsBind.mpr ⟨_,some c',[],(List.append_nil _).symm,?_,.done _⟩
  rw [dispatchCall,found]
  exact invokeRuns (.enter _ c) () (runsBind.mpr ⟨_,c',[],(List.append_nil _).symm,run,.done _⟩)

theorem urgentRuns (run : (urgentAbort s c).Runs trace c') :
    ∃ rest, trace = ⟨.enter (ascii "ABOR") c,()⟩ :: rest ∧ (cmdAbor c).Runs rest c' := by
  obtain ⟨first,after,second,rfl,called,last⟩ := runsBind.mp run
  obtain ⟨rest,d,rfl,rfl,handled⟩ := dispatchRuns (lookupAbor s) called
  obtain ⟨rfl,rfl⟩ := runsDone.mp last
  exact ⟨rest,by simp,handled⟩

inductive Aborted (c : Client) : Trace → Client → Prop where
  | active {job} (held : c.job = some job) : Aborted c [⟨.cancel job,()⟩] { c with aborPending := true }
  | idle (free : c.job = none) : Aborted c [abortReply] c

theorem abortRuns (run : (cmdAbor c).Runs trace c') :
    Aborted c trace c' := by
  unfold cmdAbor at run
  split at run
  · obtain ⟨⟨⟩,rfl,rfl⟩ := runsOnce run
    exact .active ‹_›
  · obtain ⟨⟨⟩,rfl,rfl⟩ := runsOnce run
    exact .idle ‹_›

theorem outcomeRuns {command param} (run : (command.run s c param).Runs trace c') :
    Outcome s command c (noted progress nothing trace) c' :=
  (meetsRuns (discipline command s c param) run fun _ _ => trivial).1

theorem lineConnected {text} (lined : Lined s c text trace c') : c'.connected = c.connected := by
  cases lined with
  | empty | shut | unknown => rfl
  | entered _ _ run => exact (outcomeRuns run).same.1

theorem turnConnected {p} (step : (connection s).step c p c') : c.connected = true := by
  obtain ⟨root,turn,trace⟩ := p
  obtain ⟨ready,-⟩ := step
  cases turn with
  | buffer | leave => exact ready
  | line | urgent | shake | drop | complete => exact ready.1

theorem droppedGone {p} (step : (connection s).step c p c') (drop : p.turn = .drop) : c'.connected = false := by
  have run := step.2
  rw [drop] at run
  rw [(disconnectRuns run).2]
  rfl

variable {d : Client}

section Parts
variable {s : Server}

def Parted (s : Server) (c : Client) (trace : Trace) (d : Client) : Prop :=
  ∃ plays, (connection s).Path c plays d ∧ calls plays = trace

theorem Parted.none (c) : Parted s c [] c := ⟨[],.nil c,rfl⟩

theorem Parted.one (turn : Turn) (ready : turn.Ready c)
    (run : (turn.run s c).Runs trace d) : Parted s c trace d :=
  ⟨[⟨s.root,turn,trace⟩],.cons ⟨ready,run⟩ (.nil d),by simp [calls]⟩

theorem Parted.append {e first second} (left : Parted s c first d) (right : Parted s d second e) :
    Parted s c (first ++ second) e := by
  obtain ⟨plays,path,rfl⟩ := left
  obtain ⟨more,later,rfl⟩ := right
  exact ⟨plays ++ more,path.append later,by simp [calls]⟩

theorem Parted.leave {c} (connected : c.connected = true) :
    Parted s c [] { c with disconnectRequested := true } := .one .leave connected (.done _)

theorem Parted.buffer (rbuf) (connected : c.connected = true) :
    Parted s c [] { c with rbuf } := .one (.buffer rbuf) connected (.done _)

theorem linesParted (fuel) (connected : c.connected = true) (plain : c.tlsHandshaking = false)
    (run : (lineLoop s fuel c).Runs trace d) : Parted s c trace d ∧ d.connected = true := by
  induction fuel generalizing c trace with
  | zero =>
    obtain ⟨rfl,rfl⟩ := runsDone.mp run
    exact ⟨.none _,connected⟩
  | succ fuel ih =>
    unfold lineLoop at run
    split at run
    · obtain ⟨rfl,rfl⟩ := runsDone.mp run
      exact ⟨.none _,connected⟩
    rename_i text rest _
    obtain ⟨first,c',second,rfl,line,later⟩ := runsBind.mp run
    have taken : Parted s c first c' :=
      (Parted.buffer rest connected).append (.one (.line text) ⟨connected,plain⟩ line)
    have still : c'.connected = true := (lineConnected (lineRuns line)).trans connected
    split at later
    · obtain ⟨rfl,rfl⟩ := runsDone.mp later
      exact ⟨by simpa using taken,still⟩
    · rename_i going
      obtain ⟨more,last⟩ := ih still (by simp_all) later
      exact ⟨taken.append more,last⟩

theorem readsParted (received) (connected : c.connected = true) (plain : c.tlsHandshaking = false)
    (run : (readLoop s received c).Runs trace d) : Parted s c trace d ∧ d.connected = true := by
  induction received generalizing c trace with
  | nil =>
    obtain ⟨rfl,rfl⟩ := runsDone.mp run
    split
    · exact ⟨.leave connected,connected⟩
    · exact ⟨.none _,connected⟩
  | cons first more ih =>
    unfold readLoop at run
    split at run
    · obtain ⟨rfl,rfl⟩ := runsDone.mp run
      exact ⟨.leave connected,connected⟩
    split at run
    · obtain ⟨rfl,rfl⟩ := runsDone.mp run
      exact ⟨.none _,connected⟩
    · obtain ⟨rfl,rfl⟩ := runsDone.mp run
      exact ⟨.leave connected,connected⟩
    · obtain ⟨rfl,rfl⟩ := runsDone.mp run
      exact ⟨.leave connected,connected⟩
    obtain ⟨front,c',back,rfl,lines,later⟩ := runsBind.mp run
    obtain ⟨handled,still⟩ := linesParted _ (by exact connected) (by exact plain) lines
    have taken : Parted s c front c' := (Parted.buffer _ connected).append handled
    split at later
    · obtain ⟨rfl,rfl⟩ := runsDone.mp later
      exact ⟨by simpa using taken,still⟩
    · rename_i going
      obtain ⟨rest,last⟩ := ih still (by simp_all) later
      exact ⟨taken.append rest,last⟩

theorem finishParted (connected : c.connected = true)
    (run : (finishEvent c).Runs trace d) : Parted s c trace d := by
  unfold finishEvent at run
  split at run
  · exact .one .drop ⟨connected,‹_›⟩ run
  · obtain ⟨rfl,rfl⟩ := runsDone.mp run
    exact .none _

theorem eventEnds {revents received} (connected : c.connected = true)
    (run : (handleClientEvents s revents received c).Runs trace d) :
    ∃ front back c₁, trace = front ++ back ∧ Parted s c front c₁ ∧ c₁.connected = true ∧ (finishEvent c₁).Runs back d := by
  unfold handleClientEvents at run
  split at run
  · obtain ⟨result,rest,rfl,last⟩ := runsInvoke run
    have shake : Parted s c [⟨.tlsHandshake,result⟩] (shaken c result) :=
      .one .shake ⟨connected,‹_›⟩ (invokeRuns .tlsHandshake result (.done _))
    refine ⟨[⟨.tlsHandshake,result⟩],rest,_,rfl,shake,?_,last⟩
    cases result <;> exact connected
  rename_i notShaking
  have plain : c.tlsHandshaking = false := by simpa using notShaking
  obtain ⟨front,c₁,rest,rfl,urgent,next⟩ := runsBind.mp run
  obtain ⟨middle,c₂,back,rfl,reading,last⟩ := runsBind.mp next
  have first : Parted s c front c₁ ∧ c₁.connected = true ∧ c₁.tlsHandshaking = false := by
    split at urgent
    · obtain ⟨rest,_,abort⟩ := urgentRuns urgent
      refine ⟨.one .urgent ⟨connected,plain⟩ urgent,?_⟩
      cases abortRuns abort <;> exact ⟨connected,plain⟩
    · obtain ⟨rfl,rfl⟩ := runsDone.mp urgent
      exact ⟨.none _,connected,plain⟩
  have second : Parted s c₁ middle c₂ ∧ c₂.connected = true := by
    split at reading
    · exact readsParted received first.2.1 first.2.2 reading
    · obtain ⟨rfl,rfl⟩ := runsDone.mp reading
      exact ⟨.none _,first.2.1⟩
  rw [← List.append_assoc]
  split at last
  · have leaving : Parted s c₂ [] { c₂ with disconnectRequested := true } := .leave second.2
    refine ⟨front ++ middle,back,{ c₂ with disconnectRequested := true },rfl,?_,second.2,last⟩
    simpa using (first.1.append second.1).append leaving
  · exact ⟨front ++ middle,back,c₂,rfl,first.1.append second.1,second.2,last⟩

theorem eventParted {revents received} (connected : c.connected = true)
    (run : (handleClientEvents s revents received c).Runs trace d) : Parted s c trace d := by
  obtain ⟨front,back,c₁,rfl,parted,still,last⟩ := eventEnds connected run
  exact parted.append (finishParted still last)

theorem momentParted {m : Moment} (ready : m.happening.Ready m.client)
    (run : (m.happening.run (m.server s) m.client).Runs m.trace d) : Parted (m.server s) m.client m.trace d := by
  cases same : m.happening with
  | event revents received =>
    rw [same] at run ready
    exact eventParted ready run
  | completion posted =>
    rw [same] at run ready
    exact .one (.complete posted) ready run

theorem livesParted {last} {moments : List Moment} (lives : Lives s c moments last) :
    Parted s c (moments.map (·.trace)).flatten last := by
  induction lives with
  | rest c => exact .none c
  | @next m c' moments last ready run later ih =>
    have first : Parted s m.client m.trace c' := momentParted ready run
    simpa using first.append ih

end Parts
end OpenPs3Ftp.Events
