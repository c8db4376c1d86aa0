import OpenPs3Ftp.Upgrade

/-! Servers that require TLS. A new client is told to go when it is accepted, so its
first event is its last: of what was read first, the first line is handled. -/
namespace OpenPs3Ftp.Admission
open Lib Text Session Commands Dispatch Program Events Framing Hearing Upgrade
open OpenPs3Ftp.Stream (strictServer acceptedNew)

def Allowed : Call → Prop
  | .enter name _ => name = ascii "AUTH" ∨ name = ascii "QUIT"
  | _ => True

def Admits (m : Moment) : Prop := ∃ pending, (pending,true) ∈ sessions m.trace
def HungUp (m : Moment) : Prop := ∃ revents received, m.happening = .event revents received ∧ revents.hangup = true

def firstLine : List Received → Option Bytes
  | .bytes (b :: chunk) :: _ => (getline ((b :: chunk).take readBuffer)).map (·.1)
  | _ => none

def Harmless (text : Bytes) : Prop :=
  preloginCommand ((commandName text).map toupper) = true →
    (commandName text).map toupper = ascii "AUTH" ∨ (commandName text).map toupper = ascii "QUIT"

def Proper (m : Moment) : Prop :=
  match m.happening with
  | .event revents received => revents.pollpri = false ∧
      (revents.pollin = true → ∀ text, firstLine received = some text → Harmless text) ∧
      (Admits m → revents.hangup = true)
  | .completion _ => True

structure Waiting (c : Client) : Prop where
  connected : c.connected = true
  leaving : c.disconnectRequested = true
  plain : c.tlsHandshaking = false
  out : c.loggedIn = false
  free : c.job = none
  buffer : c.rbuf = []

variable {s : Server}

theorem preloginKnown {name} (early : preloginCommand name = true) : (commandsInit s).lookup name ≠ none := by
  have all : ∀ allowStop, ∀ name ∈ preloginNames, ((builtin allowStop).map (fun e => (ascii e.1,e.2))).find?
      (fun e => e.1 = name) ≠ none := by decide
  rw [Table.lookup,commandsInitEntries]
  intro missing
  exact all s.allowStop name (by simpa [preloginCommand] using early) (by simpa using missing)

variable {c c' : Client} {trace : Trace}

theorem commandAllowed {command : Command} {param} (run : (command.run s c param).Runs trace c') :
    ∀ e ∈ trace, Allowed e.1 := by
  intro e member
  obtain ⟨first,second,split⟩ := List.append_of_mem member
  have permitted := (meetsRuns (discipline command s c param) run fun _ _ => trivial).2 first e second split
  obtain ⟨call,answer⟩ := e
  cases call
  case enter => exact permitted.elim
  all_goals exact trivial

theorem lineAllowed {s c c' text trace} (out : c.loggedIn = false) (lined : Lined s c text trace c') :
    (∀ e ∈ trace, Allowed e.1) ↔ Harmless text := by
  cases lined with
  | empty blank => exact ⟨fun _ early => by rw [blank] at early; exact absurd early (by decide),by simp⟩
  | shut _ late => exact ⟨fun _ early => by simp [late] at early,by simp [Allowed]⟩
  | unknown missing => exact ⟨fun _ early => absurd missing (preloginKnown early),by simp [Allowed]⟩
  | entered found gate run =>
    have early := gate.resolve_left (by simp [out])
    constructor
    · exact fun all _ => all _ List.mem_cons_self
    intro harmless e member
    rcases List.mem_cons.mp member with rfl | member
    · exact harmless early
    · exact commandAllowed run e member

theorem finishAllowed (run : (finishEvent c).Runs trace c') :
    ∀ e ∈ trace, Allowed e.1 := by
  have closes : ∀ job fd, ∀ e ∈ cancelling job ++ closing fd, Allowed e.1 := by
    intro job fd
    cases job <;> cases fd <;> simp [cancelling,closing,Allowed]
  unfold finishEvent at run
  split at run
  · rw [(disconnectRuns run).1]
    exact closes _ _
  · obtain ⟨rfl,-⟩ := runsDone.mp run
    simp

theorem completionAllowed {posted} (waiting : Waiting c) (ready : (Happening.completion posted).Ready c)
    (run : (datachanComplete posted c).Runs trace c') :
    c' = c ∧ (∀ e ∈ trace, Allowed e.1) ∧ sessions trace = [] := by
  have stale : posted.job.generation ≠ c.generation := by
    intro same
    have held := ready.2 same
    simp [waiting.free] at held
  cases completeRuns run with
  | stale =>
    refine ⟨rfl,?_⟩
    unfold Posted.closes
    cases posted.dataFd <;> cases posted.job.pasvFd <;> simp [closing,Allowed,sessions,created]
  | plain here | aborted here => exact absurd here stale

theorem linesAllowed {fuel lines} (leaving : c.disconnectRequested = true) (plain : c.tlsHandshaking = false)
    (out : c.loggedIn = false) (run : (lineLog s (fuel + 1) c).Runs trace (lines,c')) :
    c'.disconnectRequested = true ∧
      ((∀ e ∈ trace, Allowed e.1) ↔ ∀ text, (getline c.rbuf).map (·.1) = some text → Harmless text) := by
  unfold lineLog at run
  cases line : getline c.rbuf with
  | none =>
    rw [line] at run
    obtain ⟨rfl,-,rfl⟩ := runsPair.mp run
    exact ⟨leaving,by simp⟩
  | some taken =>
    obtain ⟨text,rest⟩ := taken
    rw [line] at run
    obtain ⟨first,c₁,second,rfl,handled,next⟩ := runsBind.mp run
    have still := (judgedLasting (lineJudged (by exact plain) (lineRuns handled))).leaving leaving
    rw [if_pos (.inl still)] at next
    obtain ⟨rfl,-,rfl⟩ := runsPair.mp next
    refine ⟨still,?_⟩
    rw [List.append_nil,@lineAllowed s { c with rbuf := rest } _ _ _ out (lineRuns handled)]
    simp

theorem readAllowed {received lines} (waiting : Waiting c) (run : (readLog s received c).Runs trace (lines,c')) :
    (∀ e ∈ trace, Allowed e.1) ↔ ∀ text, firstLine received = some text → Harmless text := by
  have nothing : ∀ {lines' : List Bytes} {d : Client} {trace : Trace}, firstLine received = none →
      Program.Runs (.done (lines',d)) trace (lines,c') →
      ((∀ e ∈ trace, Allowed e.1) ↔ ∀ text, firstLine received = some text → Harmless text) := by
    intro lines' d trace none done
    obtain ⟨rfl,-⟩ := runsDone.mp done
    simp [none]
  cases received with
  | nil => exact nothing rfl run
  | cons first more =>
    have room : ¬ c.rbuf.length ≥ readBuffer := by simp [waiting.buffer,readBuffer]
    unfold readLog at run
    rw [if_neg room] at run
    cases first with
    | wouldBlock | failed => exact nothing rfl run
    | bytes chunk =>
      cases chunk with
      | nil => exact nothing rfl run
      | cons b chunk =>
        obtain ⟨front,⟨taken,c₁⟩,back,rfl,lined,next⟩ := runsBind.mp run
        have whole : c.rbuf ++ (b :: chunk).take (readBuffer - c.rbuf.length) = b :: chunk.take 4095 := by
          rw [waiting.buffer]
          rfl
        rw [whole,List.length_cons] at lined
        obtain ⟨still,allowed⟩ := linesAllowed (by exact waiting.leaving) (by exact waiting.plain)
          (by exact waiting.out) lined
        dsimp only at next
        rw [if_pos (.inl still)] at next
        obtain ⟨rfl,-⟩ := runsDone.mp next
        rw [List.append_nil]
        exact allowed

theorem urgentAllowed (run : (urgentAbort s c).Runs trace c') : ¬ ∀ e ∈ trace, Allowed e.1 := by
  obtain ⟨rest,rfl,-⟩ := urgentRuns run
  intro all
  have abort := all _ List.mem_cons_self
  exact absurd abort (by simp only [Allowed]; decide)

theorem eventAllowed {revents received orders} (waiting : Waiting c)
    (run : (eventLog s revents received c).Runs trace (orders,c')) :
    (∀ e ∈ trace, Allowed e.1) ↔ revents.pollpri = false ∧
      (revents.pollin = true → ∀ text, firstLine received = some text → Harmless text) := by
  rw [eventLog,if_neg (by simp [waiting.plain])] at run
  obtain ⟨first,c₁,second,rfl,urgent,next⟩ := runsBind.mp run
  obtain ⟨third,⟨lines,c₂⟩,fourth,rfl,reading,last⟩ := runsBind.mp next
  obtain ⟨fifth,c₃,sixth,rfl,finish,final⟩ := runsBind.mp last
  obtain ⟨rfl,-⟩ := runsDone.mp final
  simp only [List.mem_append,or_imp,forall_and,List.append_nil]
  cases pri : revents.pollpri with
  | true =>
    rw [pri,if_pos rfl] at urgent
    exact ⟨fun all => absurd all.1 (urgentAllowed urgent),by simp⟩
  | false =>
    rw [pri] at urgent
    obtain ⟨rfl,rfl⟩ := runsDone.mp urgent
    have read : (∀ e ∈ third, Allowed e.1) ↔
        (revents.pollin = true → ∀ text, firstLine received = some text → Harmless text) := by
      split at reading
      · rename_i pollin
        rw [readAllowed waiting reading]
        simp [pollin]
      · rename_i idle
        obtain ⟨rfl,-⟩ := runsDone.mp reading
        simp [idle]
    rw [read]
    exact ⟨fun all => ⟨rfl,all.2.1⟩,fun proper => ⟨by simp,proper.2,finishAllowed finish⟩⟩

theorem clientsAdmitted (s : Server) (required : s.requireTls = true) (peer : SockAddr) (greeting : List (Exchange Answer))
    (c last : Client) (moments : List Moment) (orders : List Order) (accepted : (acceptClient s peer).Runs greeting c)
    (heard : Heard s c moments orders last) :
    ((∀ m ∈ moments, ∀ e ∈ m.trace, Allowed e.1) ∧ (∀ m ∈ moments, Admits m → last.connected = true ∨ HungUp m)) ↔
      ∀ m ∈ moments, Proper m := by
  have waiting : Waiting c := by
    rw [acceptRuns accepted,required]
    exact ⟨rfl,rfl,rfl,rfl,rfl,rfl⟩
  clear accepted
  induction heard with
  | rest c => simp
  | @next m orders c' moments more last ready run later ih =>
    cases same : m.happening with
    | event revents received =>
      rw [same] at ready run
      have gone := eventLeaves ready waiting.leaving (eventRan run)
      obtain ⟨rfl,-,rfl⟩ := heardGone gone later
      have hung : HungUp m ↔ revents.hangup = true := by
        constructor
        · rintro ⟨_,_,other,hangup⟩
          rw [same] at other
          cases other
          exact hangup
        · exact fun hangup => ⟨revents,received,same,hangup⟩
      simp only [List.mem_singleton,forall_eq,eventAllowed waiting run,Proper,same,gone,Bool.false_eq_true,false_or,hung,
        and_assoc]
    | completion posted =>
      rw [same] at ready run
      obtain ⟨first,c₁,second,whole,completed,done⟩ := runsBind.mp run
      obtain ⟨rfl,-,rfl⟩ := runsPair.mp done
      obtain ⟨rfl,allowed,silent⟩ := completionAllowed waiting ready completed
      rw [List.append_nil] at whole
      rw [← whole] at allowed silent
      have out : ¬ Admits m := by
        rintro ⟨pending,told⟩
        simp [silent] at told
      have proper : Proper m := by
        unfold Proper
        rw [same]
        trivial
      simp only [List.mem_cons,forall_eq_or_imp,proper,true_and]
      refine Iff.trans ?_ (ih waiting)
      exact ⟨fun all => ⟨all.1.2,all.2.2⟩,fun all => ⟨⟨allowed,all.1⟩,⟨fun admits => absurd admits out,all.2⟩⟩⟩

def stranger : Client := { visitor with disconnectRequested := true }
def sends (text : String) : List (Revents × List Received) := [(readable,[.bytes (ascii text),.wouldBlock])]
def served (text : String) : List Moment × List Order × Client := follow strictServer stranger (sends text)

theorem servedHeard (text) :
    Heard strictServer stranger (served text).1 (served text).2.1 (served text).2.2 := by
  unfold served
  exact followHeard strictServer stranger (sends text)

def enters (name : String) : Exchange Answer → Bool
  | ⟨.enter entered _,_⟩ => entered = ascii name
  | _ => false

theorem strangersServed :
    (∃ greeting, (acceptClient strictServer .unspec).Runs greeting stranger) ∧
    (Heard strictServer stranger (served "USER anna\r\n").1 (served "USER anna\r\n").2.1
        (served "USER anna\r\n").2.2 ∧
      ∃ m ∈ (served "USER anna\r\n").1, ∃ e ∈ m.trace, enters "USER" e = true) ∧
    (Heard strictServer stranger (served "AUTH TLS\r\n").1 (served "AUTH TLS\r\n").2.1
        (served "AUTH TLS\r\n").2.2 ∧
      (∃ m ∈ (served "AUTH TLS\r\n").1, ([],true) ∈ sessions m.trace) ∧
      (served "AUTH TLS\r\n").2.2.connected = false) :=
  ⟨acceptedNew strictServer,⟨servedHeard _,by decide +kernel⟩,
    ⟨servedHeard _,by decide +kernel,by decide +kernel⟩⟩

instance (text : Bytes) : Decidable (Harmless text) := by
  unfold Harmless
  infer_instance

theorem admitsAny (m) : Admits m ↔ (sessions m.trace).any (·.2) = true := by
  simp [Admits]

def proper (m : Moment) : Bool :=
  match m.happening with
  | .event revents received => revents.pollpri = false ∧
      (revents.pollin = true → (firstLine received).all fun text => Harmless text) ∧
      ((sessions m.trace).any (·.2) = true → revents.hangup = true)
  | .completion _ => true

theorem properIff (m) : proper m = true ↔ Proper m := by
  unfold proper Proper
  split
  · rename_i revents received _
    rw [decide_eq_true_iff,admitsAny]
    cases firstLine received <;> simp
  · simp

instance : DecidablePred Proper := fun m => decidable_of_iff _ (properIff m)

theorem clientsAdmittedQuit : (served "QUIT\r\n").2.1 = [.line (ascii "QUIT")] ∧
    ∀ m ∈ (served "QUIT\r\n").1, ∀ e ∈ m.trace, Allowed e.1 := by
  obtain ⟨greeting,accepted⟩ : ∃ greeting, (acceptClient strictServer .unspec).Runs greeting stranger :=
    acceptedNew strictServer
  have all := clientsAdmitted strictServer rfl .unspec greeting stranger _ _ _ accepted (servedHeard "QUIT\r\n")
  exact ⟨by decide +kernel,(all.mpr (by decide +kernel)).1⟩

end OpenPs3Ftp.Admission
