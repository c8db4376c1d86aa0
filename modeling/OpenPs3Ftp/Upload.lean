import OpenPs3Ftp.Lib.Splice
import OpenPs3Ftp.Worker.Calls
import OpenPs3Ftp.Worker.Running

/-! An upload into a file that nobody else writes. However the bytes come in and however
much of them each write takes, the file holds its old content with a beginning of what
was received put where the job's mode has it, and all of it when the result is 0. -/
namespace OpenPs3Ftp.Upload
open Lib Text Fs Session Events Worker
open Setting (leavesPure leavesAsk leavesThen leavesVia leavesLoop leavesPost)

structure Cursor where
  fd : Fd
  pos : Nat
  append : Bool
  deriving DecidableEq, Repr

structure State where
  content : Bytes
  cursor : Option Cursor
  received : Bytes
  deriving DecidableEq, Repr

def begin (old : Bytes) : State := ⟨old,none,[]⟩
def Cursor.place (k : Cursor) (content : Bytes) : Nat := if k.append then content.length else k.pos

def written (st : State) (fd : Fd) (bytes : Bytes) : State :=
  match st.cursor with
  | none => st
  | some k =>
    if k.fd = fd then { st with content := splice 0 st.content (k.place st.content) bytes
                                cursor := some { k with pos := k.place st.content + bytes.length } }
    else st

def State.note (st : State) : (call : Work) → call.Answer → State
  | .fs (.openFile _ flags _),.ok fd =>
    { st with content := if flags.trunc then [] else st.content, cursor := some ⟨fd,0,flags.append⟩ }
  | .fs (.seek fd offset),.ok _ =>
    { st with cursor := st.cursor.map fun k => if k.fd = fd then { k with pos := offset } else k }
  | .fs (.write fd bytes),.ok n => written st fd (bytes.take n)
  | .recv ..,.ok bytes => { st with received := st.received ++ bytes }
  | .tlsRead _,.moved bytes => { st with received := st.received ++ bytes }
  | _,_ => st

def Takes : (call : Work) → call.Answer → Prop
  | .fs (.write _ bytes),.ok n => n ≤ bytes.length
  | _,_ => True

def solitary : Setting Work Work.Answer State where
  can _ := Takes
  next := State.note

def takes : (call : Work) → call.Answer → Bool
  | .fs (.write _ bytes),.ok n => n ≤ bytes.length
  | _,_ => true

theorem takesIff (call answer) : takes call answer = true ↔ Takes call answer := by
  unfold takes Takes
  split <;> simp

instance decidableTakes (st : State) (call : Work) (answer : call.Answer) : Decidable (solitary.can st call answer) :=
  decidable_of_iff _ (takesIff call answer)

/- The content a job is to leave: the bytes alone, the old content with the bytes from the
offset on, or the old content followed by the bytes. -/
def stored (j : Job) (old bytes : Bytes) : Bytes :=
  if j.op = .appe then old ++ bytes
  else if j.rest = 0 then bytes
  else splice 0 old j.rest bytes

section
variable {old : Bytes} {j : Job} {st : State} {call : Work} {answer : call.Answer}

theorem sendsSame (sends : Sends call) : solitary.next st call answer = st := by
  cases call <;> cases sends <;> rfl

theorem opensSame (opens : Opens call) : solitary.next st call answer = st := by
  cases call <;> cases opens <;> rfl

theorem storedMore (part : Bytes) (bytes) {k : Cursor} (mode : k.append = decide (j.op = .appe))
    (pos : j.op ≠ .appe → k.pos = j.rest + part.length) :
    splice 0 (stored j old part) (k.place (stored j old part)) bytes = stored j old (part ++ bytes) := by
  unfold Cursor.place
  by_cases appending : j.op = .appe
  · rw [mode,decide_eq_true appending,if_pos rfl,spliceEnd]
    simp [stored,appending]
  rw [mode,decide_eq_false appending,if_neg (by decide),pos appending]
  by_cases plain : j.rest = 0
  · simp [stored,appending,plain,spliceEnd]
  · simp [stored,appending,plain,spliceAppend]

/- The file is open and `part` of what was received is written, with `rest` to follow. -/
structure Writing (old : Bytes) (j : Job) (fd : Fd) (part : Bytes) (st : State) (rest : Bytes) : Prop where
  received : st.received = part ++ rest
  content : st.content = stored j old part
  cursor : ∃ k, st.cursor = some k ∧ k.fd = fd ∧ k.append = decide (j.op = .appe) ∧
    (j.op ≠ .appe → k.pos = j.rest + part.length)

structure Ended (old : Bytes) (j : Job) (rc : Rc) (st : State) : Prop where
  good : rc = none → st.content = stored j old st.received
  bad : st.cursor ≠ none → ∃ part, part <+: st.received ∧ st.content = stored j old part

theorem Writing.ended {fd part rest rc} (h : Writing old j fd part st rest) (all : rc = none → rest = []) :
    Ended old j rc st := by
  refine ⟨fun code => ?_,fun _ => ⟨part,?_,h.content⟩⟩
  · rw [h.received,all code,List.append_nil]
    exact h.content
  · rw [h.received]
    exact List.prefix_append _ _

theorem Writing.takes {fd part} {rest : Bytes} (n) (h : Writing old j fd part st rest) :
    Writing old j fd (part ++ rest.take n) (solitary.next st (.fs (.write fd rest)) (.ok n)) (rest.drop n) := by
  obtain ⟨k,cursor,same,mode,pos⟩ := h.cursor
  have next : solitary.next st (.fs (.write fd rest)) (.ok n) =
      { st with content := stored j old (part ++ rest.take n)
                cursor := some { k with pos := k.place (stored j old part) + (rest.take n).length } } := by
    simp [solitary,State.note,written,cursor,same,h.content,storedMore part _ mode pos]
  rw [next]
  refine ⟨?_,rfl,_,rfl,same,mode,fun other => ?_⟩
  · rw [List.append_assoc,List.take_append_drop]
    exact h.received
  · change k.place (stored j old part) + (rest.take n).length = j.rest + (part ++ rest.take n).length
    rw [Cursor.place,mode,decide_eq_false other,if_neg (by decide),pos other,List.length_append,Nat.add_assoc]

theorem writeLeaves {spent} (low : ∀ st part fd rest, Writing old j fd part st rest → spent st) (rounds fd) {part}
    (bytes) (inv : Writing old j fd part st bytes) :
    solitary.Leaves spent (fun st rc => ∃ part rest, Writing old j fd part st rest ∧ (rc = none → rest = [])) st
      (fsWriteAll rounds fd bytes) := by
  refine leavesLoop (fun st rest => ∃ part, Writing old j fd part st rest) (fun st rest held => ?_) ?_ rounds ⟨part,inv⟩
  · obtain ⟨part,inv⟩ := held
    exact low st part fd rest inv
  intro st rest held
  obtain ⟨part,inv⟩ := held
  unfold writeRound
  split
  · rename_i empty
    subst empty
    exact leavesPure ⟨part,[],inv,fun _ => rfl⟩
  refine leavesAsk fun wrote possible => ?_
  cases wrote with
  | error e => exact leavesPure ⟨part,rest,inv,nofun⟩
  | ok n =>
    have step := inv.takes n
    cases n with
    | zero => exact leavesPure ⟨_,_,step,nofun⟩
    | succ n => exact leavesPure ⟨_,step⟩

theorem recvLeaves {spent} (ch size) :
    solitary.Leaves spent (fun st' got => (∃ e, got = .error e ∧ st' = st) ∨
      ∃ bytes, got = .ok bytes ∧ st' = { st with received := st.received ++ bytes }) st (recvSome ch size) := by
  have wait : ∀ event, solitary.Leaves spent (fun st' _ => st' = st) st (waitFd ch.fd event 1000) := by
    intro event
    refine leavesPost (fun st' rc held => ?_)
      (@waitLeaves _ solitary spent st (· = st) (fun st' _ => st' = st) ?_ ?_ ch.fd event 1000 rfl)
    · rcases held with ⟨-,same⟩ | ⟨e,-,-,same⟩ <;> exact same
    · intro st' call answer same sends _ _ _
      rw [sendsSame sends,same]
    · intro st' call answer same sends _ _
      rw [sendsSame sends,same]
  have again : ∀ event, solitary.Leaves spent (fun st' got => ∃ e, got = .error e ∧ st' = st) st (recvAgain ch.fd event) := by
    intro event
    refine leavesThen (wait event) fun st' rc same => ?_
    cases rc with
    | none | some e => exact leavesPure ⟨_,rfl,same⟩
  refine leavesAsk fun cancelled _ => ?_
  rw [@sendsSame st .cancelled cancelled trivial]
  cases cancelled with
  | true => exact leavesPure (.inl ⟨_,rfl,rfl⟩)
  | false =>
    simp only [Bool.false_eq_true,if_false]
    split
    · refine leavesAsk fun got _ => ?_
      cases got with
      | moved bytes => exact leavesPure (.inr ⟨bytes,rfl,rfl⟩)
      | wantRead => exact leavesPost (fun _ _ held => .inl held) (again .pollin)
      | wantWrite => exact leavesPost (fun _ _ held => .inl held) (again .pollout)
      | failed => exact leavesPure (.inl ⟨_,rfl,rfl⟩)
    refine leavesThen (wait .pollin) fun st' rc same => ?_
    subst same
    cases rc with
    | some e => exact leavesPure (.inl ⟨_,rfl,rfl⟩)
    | none =>
      refine Setting.leavesOne fun got _ => ?_
      cases got with
      | error e => exact .inl ⟨_,rfl,rfl⟩
      | ok bytes => exact .inr ⟨bytes,rfl,rfl⟩

theorem Writing.gets {fd part bytes} (h : Writing old j fd part st []) :
    Writing old j fd part { st with received := st.received ++ bytes } bytes := by
  refine ⟨?_,h.content,h.cursor⟩
  have received := h.received
  rw [List.append_nil] at received
  exact congrArg (· ++ bytes) received

theorem roundLeaves (rounds ch fd n) {part} (inv : Writing old j fd part st []) :
    solitary.Leaves (fun _ => True)
      (fun st next => Sum.elim (fun _ => ∃ part, Writing old j fd part st []) (fun rc => Ended old j rc st) next) st
      (storRound rounds ch fd n) := by
  refine leavesAsk fun cancelled _ => ?_
  rw [@sendsSame st .cancelled cancelled trivial]
  cases cancelled with
  | true => exact leavesPure (inv.ended nofun)
  | false =>
    refine leavesThen (recvLeaves ch transferBuf) fun st' got held => ?_
    rcases held with ⟨e,rfl,rfl⟩ | ⟨bytes,rfl,rfl⟩
    · cases e <;> first | exact leavesPure ⟨part,inv⟩ | exact leavesPure (inv.ended nofun)
    cases bytes with
    | nil => exact leavesPure (inv.gets.ended fun _ => rfl)
    | cons byte more =>
      refine leavesThen (writeLeaves (fun _ _ _ _ _ => trivial) rounds fd (byte :: more) inv.gets) fun st rc held => ?_
      obtain ⟨part,rest,inv,all⟩ := held
      cases rc with
      | some e => exact leavesPure (inv.ended nofun)
      | none =>
        cases all rfl
        exact leavesAsk fun _ _ => leavesPure ⟨part,inv⟩

theorem opensFile {path : Bytes} {mode : Mode} {fd : Fd} (upload : j.op = .stor ∨ j.op = .appe) :
    let st := solitary.next (begin old) (.fs (.openFile path (storFlags j) mode)) (.ok fd)
    st.received = [] ∧ st.content = stored j old [] ∧ st.cursor = some ⟨fd,0,decide (j.op = .appe)⟩ := by
  refine ⟨rfl,?_,rfl⟩
  rcases upload with same | same
  · by_cases plain : j.rest = 0 <;> simp [solitary,State.note,begin,storFlags,stored,same,plain]
  · simp [solitary,State.note,begin,storFlags,stored,same]

theorem seekLeaves {fd} (upload : j.op = .stor ∨ j.op = .appe) (received : st.received = [])
    (content : st.content = stored j old []) (cursor : st.cursor = some ⟨fd,0,decide (j.op = .appe)⟩) :
    solitary.Leaves (fun _ => True) (fun st rc => (rc = none ∧ Writing old j fd [] st []) ∨ (rc ≠ none ∧ Ended old j rc st)) st
      (seekRest fd (if j.op = .stor then j.rest else 0)) := by
  rcases upload with stor | appe
  · rw [if_pos stor]
    unfold seekRest
    split
    · rename_i start
      exact leavesPure (.inl ⟨rfl,received,content,_,cursor,rfl,rfl,fun _ => start.symm⟩)
    refine leavesAsk fun sought _ => ?_
    cases sought with
    | error e => exact leavesPure (.inr ⟨by simp,⟨nofun,fun _ => ⟨[],List.nil_prefix,content⟩⟩⟩)
    | ok place =>
      have moved_ : solitary.next st (.fs (.seek fd j.rest)) (.ok place) =
          { st with cursor := some ⟨fd,j.rest,decide (j.op = .appe)⟩ } := by
        simp [solitary,State.note,cursor]
      rw [moved_]
      exact leavesPure (.inl ⟨rfl,received,content,_,rfl,rfl,rfl,fun _ => rfl⟩)
  · rw [if_neg (by simp [appe])]
    exact leavesPure (.inl ⟨rfl,received,content,_,cursor,rfl,rfl,fun other => absurd appe other⟩)

theorem storLeaves (rounds ch) (upload : j.op = .stor ∨ j.op = .appe) :
    solitary.Leaves (fun _ => True) (fun st rc => Ended old j rc st) (begin old) (transferStor rounds j ch) := by
  refine leavesAsk fun opened _ => ?_
  cases opened with
  | error e => exact leavesPure ⟨nofun,fun open_ => absurd rfl open_⟩
  | ok fd =>
    obtain ⟨received,content,cursor⟩ := @opensFile old j j.path.text 0o644 fd upload
    refine leavesThen (seekLeaves upload received content cursor) fun st rc held => ?_
    rcases held with ⟨rfl,inv⟩ | ⟨code,ended⟩
    · refine leavesVia (fun st rc => Ended old j rc st) ?_ fun st rc ended => leavesAsk fun _ _ => leavesPure ended
      refine leavesAsk fun made _ => ?_
      rw [@sendsSame st .malloc made trivial]
      cases made with
      | false => exact leavesPure (inv.ended nofun)
      | true =>
        refine leavesLoop (fun st _ => ∃ part, Writing old j fd part st []) (fun _ _ _ => trivial) ?_ rounds ⟨[],inv⟩
        intro st n held
        obtain ⟨part,inv⟩ := held
        exact roundLeaves rounds ch fd n inv
    · cases rc with
      | none => exact absurd rfl code
      | some e => exact leavesAsk fun _ _ => leavesPure ended

theorem runLeft (rounds s) (upload : j.op = .stor ∨ j.op = .appe) :
    solitary.Leaves (fun _ => True)
      (Concluded s j (fun st => st = begin old) (fun st => st = begin old) fun st rc => Ended old j rc st) (begin old)
      (transferRun rounds s j) := by
  refine @runLeaves _ solitary _ _ (fun st => st = begin old) (fun st => st = begin old) (fun st => st = begin old)
    (Ended old j) (Ended old j) (Ended old j) (fun _ _ => trivial) ?_ (fun _ _ start => start) ?_ ?_ (fun _ _ start => start)
    ?_ (fun _ _ _ _ _ _ ended => ended) ?_ (fun _ _ ended => ended) rounds s j ?_ ?_ rfl
  · intro st call answer start opens
    rwa [opensSame opens]
  · intro st call answer start sends _ _ _
    rwa [sendsSame sends]
  · intro st call answer start sends _ _
    rwa [sendsSame sends]
  · exact fun _ _ _ ended => ended.elim id id
  · exact fun _ _ _ ended => ended.elim id id
  · rcases upload with same | same <;> simp [same]
  intro st ch held
  rw [held.elim id id]
  unfold transferOp
  split
  · simp_all
  · simp_all
  · exact storLeaves rounds ch upload
  · exact storLeaves rounds ch upload
  · simp_all

end

theorem uploadExact (old : Bytes) (rounds : Nat) (s : Server) (j : Job) (upload : j.op = .stor ∨ j.op = .appe)
    (trace : List (Exchange Work.Answer)) (o : Option Posted) (run : (transferRun rounds s j).Runs trace o)
    (alone : solitary.Genuine (begin old) trace) :
    (o = none → rounds ≤ trace.length) ∧
    ∀ posted, o = some posted →
      (posted.result = none →
        (solitary.after (begin old) trace).content = stored j old (solitary.after (begin old) trace).received) ∧
      (posted.result = none → (j.op = .appe ∨ j.rest ≠ 0) → (solitary.after (begin old) trace).received = [] →
        (solitary.after (begin old) trace).content = old) ∧
      (posted.result ≠ none → (solitary.after (begin old) trace).cursor ≠ none →
        ∃ part, part <+: (solitary.after (begin old) trace).received ∧
          (solitary.after (begin old) trace).content = stored j old part) := by
  have left := Setting.yieldsRuns (runLeft rounds s upload) run alone
  refine ⟨?_,?_⟩
  · intro spent
    subst spent
    exact runLasts s (by rcases upload with same | same <;> simp [same]) trace run
  intro posted same
  subst same
  have ended : Ended old j posted.result (solitary.after (begin old) trace) := by
    cases left with
    | unconnected _ code here | unsecured _ _ _ code here | unshaken _ _ _ code here =>
      exact ⟨fun none_ => absurd none_ code,fun open_ => by rw [here] at open_; exact absurd rfl open_⟩
    | ran _ _ ended => exact ended
  refine ⟨ended.good,fun code kept empty => ?_,fun _ => ended.bad⟩
  rw [ended.good code,empty]
  rcases kept with appe | rest
  · simp [stored,appe]
  · simp [stored,rest]

def fromFour : Job := { smallJob with op := .stor, rest := 4 }

def byPieces (coming : List Bytes) : (call : Work) → call.Answer × List Bytes
  | .recv .. => (.ok (coming.headD []),coming.tail)
  | .fs (.write ..) => (.ok 1,coming)
  | call => (smoothly call,coming)

def pieces : Work.Trace × Option Posted :=
  Program.playFrom byPieces [ascii "xy",ascii "z"] (transferRun 9 house fromFour)

theorem uploadExactPieces : pieces.2 = some ⟨fromFour,some 4,true,none⟩ ∧ solitary.Genuine (begin (ascii "abc")) pieces.1 ∧
    (solitary.after (begin (ascii "abc")) pieces.1).content = ascii "abc" ++ 0 :: ascii "xyz" := by
  have ended : pieces.2 = some ⟨fromFour,some 4,true,none⟩ := by decide +kernel
  have genuine : solitary.Genuine (begin (ascii "abc")) pieces.1 := by decide +kernel
  have got : (solitary.after (begin (ascii "abc")) pieces.1).received = ascii "xyz" := by decide +kernel
  have exact_ := uploadExact (ascii "abc") 9 house fromFour (.inl rfl) pieces.1 pieces.2
    (Program.playFromRuns byPieces _ _) genuine
  refine ⟨ended,genuine,((exact_.2 _ ended).1 rfl).trans ?_⟩
  rw [got]
  decide +kernel

end OpenPs3Ftp.Upload
