import OpenPs3Ftp.Conversation
import OpenPs3Ftp.Lib.Behaviour

/-! Reply lines on the control connection (`client.c`): the write loop against what
`send`, the TLS write and `poll` return, and the lines that workers leave to the
reactor. Callers ignore the loop's result, so each line is tried whatever became of
the ones before. -/
namespace OpenPs3Ftp.Wire
open Lib Text Session Commands Program Events

/- What one round of the loop is told. The waits carry whether `poll` came back ready. -/
inductive Write where
  | accepted (n : Nat)
  | wouldBlock (ready : Bool)
  | wantRead (ready : Bool)
  | wantWrite (ready : Bool)
  | failed
  deriving DecidableEq, Repr

def Write.again (secure : Bool) : Write → Bool
  | .wouldBlock ready => ¬ secure ∧ ready
  | .wantRead ready | .wantWrite ready => secure ∧ ready
  | _ => false

/- The loop of `opftp_client_send_raw` from the unwritten rest on: the bytes placed and
whether it returned 0. With no more answers it is still waiting. -/
def writeLoop (secure : Bool) : Bytes → List Write → Bytes × Bool
  | [],_ => ([],true)
  | _ :: _,[] => ([],false)
  | byte :: rest,.accepted n :: more =>
    if n = 0 then ([],false)
    else
      let (placed,ok) := writeLoop secure ((byte :: rest).drop n) more
      ((byte :: rest).take n ++ placed,ok)
  | byte :: rest,write :: more => if write.again secure then writeLoop secure (byte :: rest) more else ([],false)

/- The outcomes of a line's own writes take its `n` bytes whole. -/
def takes (secure : Bool) : Nat → List Write → Bool
  | 0,_ => true
  | _ + 1,[] => false
  | n + 1,.accepted k :: more => k ≠ 0 && takes secure (n + 1 - k) more
  | n + 1,write :: more => write.again secure && takes secure (n + 1) more

/- The first of them that is not a wait takes nothing. -/
def bars (secure : Bool) : List Write → Bool
  | [] => true
  | .accepted k :: _ => k = 0
  | write :: more => !write.again secure || bars secure more

theorem writeLoopShape (secure text writes) :
    (writeLoop secure text writes).1 <+: text ∧
    ((writeLoop secure text writes).1 = text ↔ takes secure text.length writes = true) ∧
    ((writeLoop secure text writes).1 = [] ↔ text = [] ∨ bars secure writes = true) := by
  induction writes generalizing text with
  | nil => cases text <;> simp [writeLoop,takes,bars]
  | cons write more ih =>
    cases text with
    | nil => simp [writeLoop,takes]
    | cons byte rest =>
      cases write with
      | accepted n =>
        by_cases stuck : n = 0
        · simp [writeLoop,takes,bars,stuck]
        obtain ⟨begins,whole,-⟩ := ih ((byte :: rest).drop n)
        have split : (byte :: rest).take n ++ (byte :: rest).drop n = byte :: rest := List.take_append_drop n _
        simp only [writeLoop,stuck,if_false]
        refine ⟨?_,?_,by simp [bars,stuck]⟩
        · rw [← List.prefix_append_right_inj ((byte :: rest).take n),split] at begins
          exact begins
        · rw [← List.append_cancel_left_eq ((byte :: rest).take n),split,List.length_drop] at whole
          simpa [takes,stuck] using whole
      | wouldBlock ready | wantRead ready | wantWrite ready =>
        obtain ⟨begins,whole,silent⟩ := ih (byte :: rest)
        simp only [writeLoop,takes,bars,List.length_cons]
        split
        · rename_i again
          simpa [again] using And.intro begins (And.intro whole silent)
        · rename_i ends
          simp [ends]
      | failed => simp [writeLoop,takes,bars,Write.again]

structure Attempt where
  text : Bytes
  secure : Bool
  writes : List Write
  deriving DecidableEq, Repr

def Attempt.placed (a : Attempt) : Bytes := (writeLoop a.secure a.text a.writes).1
def Attempt.takes (a : Attempt) : Bool := Wire.takes a.secure a.text.length a.writes
def Attempt.bars (a : Attempt) : Bool := a.text = [] || Wire.bars a.secure a.writes

theorem wholeIff (a : Attempt) : a.placed = a.text ↔ a.takes = true := (writeLoopShape a.secure a.text a.writes).2.1

theorem silentIff (a : Attempt) : a.placed = [] ↔ a.bars = true := by
  have shape := (writeLoopShape a.secure a.text a.writes).2.2
  simpa [Attempt.bars,Attempt.placed] using shape

structure Pending where
  generation : Nat
  text : Bytes
  deriving DecidableEq, Repr

def queueReply (c : Client) (text : Bytes) (queue : List Pending) : List Pending := queue ++ [⟨c.generation,text⟩]

def drainReplies (c : Client) : List Pending → Handler Unit
  | [] => return
  | p :: rest => do
    (if p.generation = c.generation then sendRaw p.text else pure ())
    drainReplies c rest

theorem drainRuns {c queue trace} (run : (drainReplies c queue).Runs trace ()) :
    sends trace = (queue.filter (·.generation = c.generation)).map fun p => (.command,p.text) := by
  induction queue generalizing trace with
  | nil =>
    rw [(runsDone.mp run).1]
    rfl
  | cons p rest ih =>
    obtain ⟨first,⟨⟩,later,rfl,said,drained⟩ := runsBind.mp run
    rw [sends,List.filterMap_append,← sends,← sends,ih drained]
    split at said
    · rename_i here
      obtain ⟨⟨⟩,none_,rfl,last⟩ := runsAsk.mp said
      rw [(runsDone.mp last).1,List.filter_cons_of_pos (by simpa using here)]
      rfl
    · rename_i stale
      rw [(runsDone.mp said).1,List.filter_cons_of_neg (by simpa using stale)]
      rfl

/- What the lines of a trace meet; `answers` has one entry a line. -/
def wire (trace : Trace) (answers : List (Bool × List Write)) : List Attempt :=
  List.zipWith (fun reply answer => ⟨reply.2,answer.1,answer.2⟩) (sends trace) answers

theorem wireTexts {trace answers} (all : answers.length = (sends trace).length) :
    (wire trace answers).map (·.text) = (sends trace).map (·.2) := by
  rw [wire,List.map_zipWith]
  exact List.ext_getElem (by simp [all]) (by simp)

/- The control connection with the lines its workers leave. A line is issued when the
reactor comes to write it. -/
structure Control where
  client : Client
  queue : List Pending
  issued : List Bytes
  attempts : List Attempt

inductive Event where
  | turn (played : Played) (answers : List (Bool × List Write))
  | queue (text : Bytes)
  | drain (trace : Trace) (answers : List (Bool × List Write))

def opening (c : Client) (greeting : Trace) (answers : List (Bool × List Write)) : Control :=
  ⟨c,[],(sends greeting).map (·.2),wire greeting answers⟩

def turned (st : Control) (c : Client) (trace : Trace) (answers : List (Bool × List Write)) : Control :=
  { st with client := c, issued := st.issued ++ (sends trace).map (·.2), attempts := st.attempts ++ wire trace answers }

def drained (st : Control) (trace : Trace) (answers : List (Bool × List Write)) : Control :=
  { st with queue := [], attempts := st.attempts ++ wire trace answers
            issued := st.issued ++ (st.queue.filter (·.generation = st.client.generation)).map (·.text) }

inductive Step (s : Server) : Control → Event → Control → Prop where
  | turn {st p c} (answers) (step : (connection s).step st.client p c) (all : answers.length = (sends p.trace).length) :
      Step s st (.turn p answers) (turned st c p.trace answers)
  | queue {st} (text) : Step s st (.queue text) { st with queue := queueReply st.client text st.queue }
  | drain {st trace} (answers) (run : (drainReplies st.client st.queue).Runs trace ())
      (all : answers.length = (sends trace).length) : Step s st (.drain trace answers) (drained st trace answers)

def control (s : Server) : System Control Event where
  start st := ∃ peer greeting c answers, (acceptClient s peer).Runs greeting c ∧
    answers.length = (sends greeting).length ∧ st = opening c greeting answers
  step := Step s

theorem issuedReached {s st} (reached : (control s).Reached st) : st.attempts.map (·.text) = st.issued := by
  refine System.invariant (P := fun st => st.attempts.map (·.text) = st.issued) ?_ ?_ reached
  · rintro _ ⟨peer,greeting,c,answers,-,all,rfl⟩
    exact wireTexts all
  · intro st event st' same _ step
    cases step with
    | turn answers _ all => simp only [turned,List.map_append,same,wireTexts all]
    | queue text => exact same
    | drain answers run all =>
      simp only [drained,List.map_append,same,wireTexts all,drainRuns run,List.map_map]
      rfl

def placed (attempts : List Attempt) : Bytes := (attempts.map (·.placed)).flatten

/- At every point what is on the wire is a beginning of the lines issued, and a line
cut short is the last of which anything is written. -/
def InOrder (st : Control) : Prop :=
  (∀ k, placed (st.attempts.take k) <+: st.issued.flatten) ∧
  ∀ before a after, st.attempts = before ++ a :: after → a.placed ≠ a.text → ∀ later ∈ after, later.placed = []

/- Each line's own writes take it whole, or those of every later line are barred. -/
def Unbroken : List Attempt → Prop
  | [] => True
  | a :: after => a.takes = true ∧ Unbroken after ∨ ∀ later ∈ after, later.bars = true

instance decidableUnbroken : (attempts : List Attempt) → Decidable (Unbroken attempts)
  | [] => isTrue trivial
  | _ :: after => @instDecidableOr _ _ (@instDecidableAnd _ _ inferInstance (decidableUnbroken after)) inferInstance

theorem placedBegins {attempts : List Attempt} (unbroken : Unbroken attempts) (k) :
    placed (attempts.take k) <+: (attempts.map (·.text)).flatten := by
  induction attempts generalizing k with
  | nil => simp [placed]
  | cons a attempts ih =>
    cases k with
    | zero => simp [placed]
    | succ k =>
      simp only [placed,List.take_succ_cons,List.map_cons,List.flatten_cons]
      rcases unbroken with ⟨whole,tail⟩ | barred
      · rw [(wholeIff a).mpr whole,List.prefix_append_right_inj]
        exact ih tail k
      · have nothing : ((attempts.take k).map (·.placed)).flatten = [] := by
          simp only [List.flatten_eq_nil_iff,List.mem_map]
          rintro _ ⟨b,member,rfl⟩
          exact (silentIff b).mpr (barred b (List.mem_of_mem_take member))
        rw [nothing,List.append_nil]
        exact (writeLoopShape a.secure a.text a.writes).1.trans (List.prefix_append _ _)

theorem cutLast {attempts : List Attempt} (unbroken : Unbroken attempts) {before a after}
    (split : attempts = before ++ a :: after) (cut : a.placed ≠ a.text) : ∀ later ∈ after, later.placed = [] := by
  induction attempts generalizing before with
  | nil => simp at split
  | cons first attempts ih =>
    cases before with
    | nil =>
      obtain ⟨rfl,rfl⟩ := List.cons.inj split
      rcases unbroken with ⟨whole,-⟩ | barred
      · exact absurd ((wholeIff _).mpr whole) cut
      · exact fun later member => (silentIff later).mpr (barred later member)
    | cons b before =>
      obtain ⟨rfl,tail⟩ := List.cons.inj split
      rcases unbroken with ⟨-,rest⟩ | barred
      · exact ih rest tail
      · exact fun later member => (silentIff later).mpr (barred later (by simp [tail,member]))

theorem lastUnbroken {attempts : List Attempt}
    (last : ∀ before a after, attempts = before ++ a :: after → a.placed ≠ a.text → ∀ later ∈ after, later.placed = []) :
    Unbroken attempts := by
  induction attempts with
  | nil => trivial
  | cons a attempts ih =>
    by_cases whole : a.placed = a.text
    · exact .inl ⟨(wholeIff a).mp whole,ih fun before b after split => last (a :: before) b after (by rw [split]; rfl)⟩
    · exact .inr fun later member => (silentIff later).mp (last [] a attempts rfl whole later member)

def greeted : Trace × Client := (acceptClient house .unspec).play Containment.refusals
def noop : Utterance := ⟨"NOOP",Containment.refusals⟩
def start : Control := opening greeted.2 greeted.1 [(false,[.accepted 100])]
def noops (st : Control) (writes : List Write) : Control :=
  turned st (noop.run house st.client).2 (noop.played house st.client).trace [(false,writes)]

theorem startReached : (control house).Reached start :=
  .start ⟨.unspec,_,_,_,playRuns _ _,by decide +kernel,rfl⟩

theorem noopsReached {st} (writes) (reached : (control house).Reached st)
    (ready : (st.client.connected = true ∧ st.client.tlsHandshaking = false) ∧
      (sends (noop.played house st.client).trace).length = 1) : (control house).Reached (noops st writes) :=
  .step reached trivial (.turn _ (spokenStep ready.1) (by rw [ready.2]; rfl))

/- A worker leaves a line, and the reactor writes it in two parts. -/
def leaves (st : Control) : Control :=
  { st with queue := queueReply st.client (replyText 226 (ascii "Done.")) st.queue }

def relays (st : Control) : Control :=
  drained st ((drainReplies st.client st.queue).play Containment.refusals).1
    [(false,[.accepted 3,.wouldBlock true,.accepted 100])]

def relayed : Control := relays (leaves (noops start [.accepted 100]))

theorem relaysReached {st} (reached : (control house).Reached st)
    (one : (sends ((drainReplies st.client st.queue).play Containment.refusals).1).length = 1) :
    (control house).Reached (relays st) :=
  .step reached trivial (.drain _ (playRuns _ _) (by rw [one]; rfl))

def cutShort : Control := noops (noops start [.accepted 3,.wouldBlock false]) [.accepted 100]

end OpenPs3Ftp.Wire
