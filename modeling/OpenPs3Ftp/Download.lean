import OpenPs3Ftp.Worker.Calls
import OpenPs3Ftp.Worker.Running

/-! A download from a file that stays as it is. Whatever the reads, sends and waits come
to, the peer has been given a beginning of the file from the restart offset on. -/
namespace OpenPs3Ftp.Download
open Lib Text Fs Session Events Worker
open Setting (leavesPure leavesAsk leavesMono leavesThen leavesVia leavesLoop)

/- The chunk read last: its size, what is not sent of it yet, and the bytes of all chunks
that were sent to their end. -/
structure Chunk where
  size : Nat
  left : Bytes
  whole : Nat
  deriving DecidableEq, Repr

def Chunk.note (k : Chunk) : (call : Work) → call.Answer → Chunk
  | .fs (.read ..),.ok bytes => ⟨bytes.length,bytes,k.whole⟩
  | call,answer =>
    let left := k.left.drop (moved call answer).length
    ⟨k.size,left,if moved call answer ≠ [] ∧ left = [] then k.whole + k.size else k.whole⟩

/- `cursor` is the open file with the position in it. -/
structure State where
  course : Course
  cursor : Option (Fd × Nat)
  chunk : Chunk
  deriving DecidableEq, Repr

def begin : State := ⟨.begin,none,⟨0,[],0⟩⟩

def cursorAfter (cursor : Option (Fd × Nat)) : (call : Work) → call.Answer → Option (Fd × Nat)
  | .fs (.openFile ..),.ok fd => some (fd,0)
  | .fs (.seek fd offset),.ok _ => cursor.map fun at_ => if at_.1 = fd then (fd,offset) else at_
  | .fs (.read fd _),.ok bytes => cursor.map fun at_ => if at_.1 = fd then (fd,at_.2 + bytes.length) else at_
  | _,_ => cursor

/- A read yields what stands at the position, as much of it as it likes, and nothing only
at the end of the file. -/
def Reads (content : Bytes) (st : State) : (call : Work) → call.Answer → Prop
  | .fs (.read fd size),.ok bytes => ∀ at_ ∈ st.cursor, at_.1 = fd →
      bytes <+: content.drop at_.2 ∧ bytes.length ≤ size ∧ (bytes = [] → content.length ≤ at_.2)
  | _,_ => True

def unchanging (content : Bytes) : Setting Work Work.Answer State where
  can := Reads content
  next st call answer := ⟨st.course.note call answer,cursorAfter st.cursor call answer,st.chunk.note call answer⟩

def reads (content : Bytes) (st : State) : (call : Work) → call.Answer → Bool
  | .fs (.read fd size),.ok bytes => decide (∀ at_ ∈ st.cursor, at_.1 = fd →
      bytes <+: content.drop at_.2 ∧ bytes.length ≤ size ∧ (bytes = [] → content.length ≤ at_.2))
  | _,_ => true

theorem readsIff (content st call answer) : reads content st call answer = true ↔ Reads content st call answer := by
  unfold reads Reads
  split
  · exact decide_eq_true_iff
  · simp

instance decidableReads (content : Bytes) (st : State) (call : Work) (answer : call.Answer) :
    Decidable ((unchanging content).can st call answer) := decidable_of_iff _ (readsIff content st call answer)

variable {fd : Fd} {n size : Nat} {bytes : Bytes} {rc : Rc}

section
variable {content : Bytes} {offset : Nat} {st : State} {call : Work} {answer : call.Answer}

theorem sendsCursor (cursor) (sends : Sends call) : cursorAfter cursor call answer = cursor := by
  cases call <;> cases sends <;> rfl

theorem sendsChunk (k : Chunk) (sends : Sends call) : k.note call answer =
    ⟨k.size,k.left.drop (moved call answer).length,
     if moved call answer ≠ [] ∧ k.left.drop (moved call answer).length = [] then k.whole + k.size else k.whole⟩ := by
  cases call <;> cases sends <;> rfl

theorem sendsIdle (sends : Sends call) (well : fault call answer = false) (still : moved call answer = []) :
    (unchanging content).next st call answer = st := by
  simp [unchanging,Course.sends sends well,sendsCursor _ sends,sendsChunk _ sends,still]

theorem sendsBad (sends : Sends call) (failed : fault call answer = true) (going : st.course.phase = .transferring) :
    (unchanging content).next st call answer = { st with course := { st.course with faulty := true } } := by
  simp [unchanging,Course.fails sends failed going,sendsCursor _ sends,sendsChunk _ sends,faultStill failed]

def Partly (content : Bytes) (offset : Nat) (st : State) : Prop := st.course.sent <+: content.drop offset

structure Fresh (st : State) : Prop where
  well : st.course.faulty = false
  sent : st.course.sent = []
  told : st.course.reported = 0
  chunk : st.chunk = ⟨0,[],0⟩

structure Between (content : Bytes) (offset : Nat) (fd : Fd) (st : State) (n : Nat) : Prop where
  going : st.course.phase = .transferring
  well : st.course.faulty = false
  file : ∃ pos, st.cursor = some (fd,pos) ∧ st.course.sent ++ content.drop pos = content.drop offset
  told : st.course.reported = n
  whole : st.chunk.whole = n

/- While a chunk of `size` bytes is sent, with `rest` of it left. -/
structure Within (content : Bytes) (offset : Nat) (fd : Fd) (n size : Nat) (st : State) (rest : Bytes) : Prop where
  going : st.course.phase = .transferring
  well : st.course.faulty = false
  file : ∃ pos, st.cursor = some (fd,pos) ∧ st.course.sent ++ (rest ++ content.drop pos) = content.drop offset
  told : st.course.reported = n
  sized : st.chunk.size = size
  left : st.chunk.left = rest
  whole : st.chunk.whole = if rest = [] then n + size else n

structure Ended (content : Bytes) (offset : Nat) (rc : Rc) (st : State) : Prop where
  begun : st.course.phase ≠ .connecting
  partly : Partly content offset st
  told : st.course.reported = st.chunk.whole
  good : rc = none → st.course.faulty = false ∧ st.course.sent = content.drop offset
  bad : rc ≠ none → st.course.faulty = true

theorem Between.partly (h : Between content offset fd st n) : Partly content offset st := by
  obtain ⟨pos,-,same⟩ := h.file
  exact ⟨_,same⟩

theorem Within.partly {rest} (h : Within content offset fd n size st rest) : Partly content offset st := by
  obtain ⟨pos,-,same⟩ := h.file
  exact ⟨_,same⟩

theorem Fresh.partly (h : Fresh st) : Partly content offset st := by
  rw [Partly,h.sent]
  exact List.nil_prefix

theorem Fresh.failed {rc} (h : Fresh st) (going : st.course.phase = .transferring) (code : rc ≠ none) :
    Ended content offset rc { st with course := { st.course with faulty := true } } :=
  ⟨by simp [going],h.partly,by rw [h.told,h.chunk],fun none_ => absurd none_ code,fun _ => rfl⟩

theorem Between.failed {fd n rc} (h : Between content offset fd st n) (code : rc ≠ none) :
    Ended content offset rc { st with course := { st.course with faulty := true } } :=
  ⟨by simp [h.going],h.partly,h.told.trans h.whole.symm,fun none_ => absurd none_ code,fun _ => rfl⟩

theorem Within.failed {fd n size rest rc} (h : Within content offset fd n size st rest) (some_ : rest ≠ [])
    (code : rc ≠ none) : Ended content offset rc { st with course := { st.course with faulty := true } } := by
  have whole := h.whole
  rw [if_neg some_] at whole
  exact ⟨by simp [h.going],h.partly,h.told.trans whole.symm,fun none_ => absurd none_ code,fun _ => rfl⟩

theorem Within.sends {rest : Bytes} (h : Within content offset fd n size st rest)
    (sends : Sends call) (well : fault call answer = false) (some_ : moved call answer ≠ [])
    (part : moved call answer <+: rest) :
    Within content offset fd n size ((unchanging content).next st call answer) (rest.drop (moved call answer).length) := by
  obtain ⟨more,rfl⟩ := part
  obtain ⟨pos,cursor,same⟩ := h.file
  have open_ : ¬ (moved call answer ++ more = []) := by simp [some_]
  have whole := h.whole
  rw [if_neg open_] at whole
  rw [List.drop_left]
  refine ⟨?_,?_,⟨pos,?_,?_⟩,?_,?_,?_,?_⟩
  · simpa [unchanging,Course.sends sends well] using h.going
  · simpa [unchanging,Course.sends sends well] using h.well
  · simpa [unchanging,sendsCursor _ sends] using cursor
  · simpa [unchanging,Course.sends sends well] using same
  · simpa [unchanging,Course.sends sends well] using h.told
  · simpa [unchanging,sendsChunk _ sends] using h.sized
  · simp [unchanging,sendsChunk _ sends,h.left]
  · simp [unchanging,sendsChunk _ sends,h.left,h.sized,whole,some_]

theorem chunkLeaves (rounds ch) (inv : Within content offset fd n bytes.length st bytes) :
    (unchanging content).Leaves (Partly content offset)
      (fun st rc => (rc = none ∧ Within content offset fd n bytes.length st []) ∨
        ∃ e, rc = some e ∧ ∀ rc, rc ≠ none → Ended content offset rc st) st (sendAll rounds ch bytes) := by
  refine sendLeaves (fun st rest inv => inv.partly) ?_ ?_ ?_ rounds ch bytes inv
  · intro st rest call answer inv _ sends _ well still
    rwa [sendsIdle sends well still]
  · intro st rest call answer inv _ sends well filled part
    exact inv.sends sends well filled part
  · intro st rest call answer inv open_ sends _ failed rc code
    rw [sendsBad sends failed inv.going]
    exact inv.failed open_ code

theorem askedOn : (unchanging content).next st .cancelled false = st := sendsIdle trivial rfl rfl

theorem askedOff (going : st.course.phase = .transferring) :
    (unchanging content).next st .cancelled true = { st with course := { st.course with faulty := true } } :=
  sendsBad trivial rfl going

theorem readFailed {e} (going : st.course.phase = .transferring) :
    (unchanging content).next st (.fs (.read fd size)) (.error e) = { st with course := { st.course with faulty := true } } := by
  simp [unchanging,Course.note,Chunk.note,cursorAfter,fault,moved,progressed,Phase.after,going]

theorem readSome {pos} (going : st.course.phase = .transferring) (well : st.course.faulty = false)
    (cursor : st.cursor = some (fd,pos)) :
    (unchanging content).next st (.fs (.read fd size)) (.ok bytes) =
      ⟨st.course,some (fd,pos + bytes.length),⟨bytes.length,bytes,st.chunk.whole⟩⟩ := by
  obtain ⟨⟨phase,faulty,sent,reported⟩,at_,chunk⟩ := st
  cases going
  cases well
  cases cursor
  simp [unchanging,Course.note,Chunk.note,cursorAfter,fault,moved,progressed,Phase.after]

theorem Between.chunk {pos} (h : Between content offset fd st n) (cursor : st.cursor = some (fd,pos))
    (some_ : bytes ≠ []) (part : bytes <+: content.drop pos) :
    Within content offset fd n bytes.length ((unchanging content).next st (.fs (.read fd size)) (.ok bytes)) bytes := by
  obtain ⟨pos',here,same⟩ := h.file
  cases Option.some.inj (here.symm.trans cursor)
  obtain ⟨more,split⟩ := part
  have later : content.drop (pos + bytes.length) = more := by
    rw [← List.drop_drop,← split,List.drop_left]
  rw [readSome h.going h.well cursor]
  refine ⟨h.going,h.well,⟨_,rfl,?_⟩,h.told,rfl,rfl,?_⟩
  · rw [later,split]
    exact same
  · rw [if_neg some_]
    exact h.whole

theorem Within.counted (h : Within content offset fd n size st []) :
    Between content offset fd ((unchanging content).next st (.progress (n + size)) ()) (n + size) := by
  refine ⟨?_,?_,?_,rfl,?_⟩
  · simp [unchanging,Course.note,Phase.after,h.going]
  · simp [unchanging,Course.note,fault,h.well]
  · simpa [unchanging,Course.note,moved,cursorAfter] using h.file
  · simpa [unchanging,Chunk.note,moved] using h.whole

theorem roundLeaves (rounds ch fd n) (inv : Between content offset fd st n) :
    (unchanging content).Leaves (Partly content offset)
      (fun st next => Sum.elim (Between content offset fd st) (fun rc => Ended content offset rc st) next) st
      (retrRound rounds ch fd n) := by
  refine leavesAsk fun cancelled _ => ?_
  cases cancelled with
  | true =>
    rw [askedOff inv.going]
    exact leavesPure (inv.failed (by simp))
  | false =>
    rw [askedOn]
    refine leavesAsk fun got possible => ?_
    cases got with
    | error e =>
      rw [readFailed inv.going]
      exact leavesPure (inv.failed (by simp))
    | ok bytes =>
      obtain ⟨pos,cursor,same⟩ := inv.file
      obtain ⟨part,-,last⟩ := possible (fd,pos) cursor rfl
      cases bytes with
      | nil =>
        have end_ : content.drop pos = [] := List.drop_of_length_le (last rfl)
        rw [end_,List.append_nil] at same
        rw [readSome inv.going inv.well cursor]
        exact leavesPure ⟨by simp [inv.going],⟨[],by simpa using same⟩,inv.told.trans inv.whole.symm,fun _ => ⟨inv.well,same⟩,
          fun code => absurd rfl code⟩
      | cons byte more =>
        refine leavesThen (chunkLeaves rounds ch (inv.chunk cursor (List.cons_ne_nil _ _) part)) ?_
        intro st rc held
        rcases held with ⟨rfl,within⟩ | ⟨e,rfl,ended⟩
        · exact leavesAsk fun _ _ => leavesPure within.counted
        · exact leavesPure (ended _ (by simp))

theorem untouched (going : st.course.phase = .transferring) :
    (∀ fd answer, (unchanging content).next st (.fs (.fstat fd)) answer = st) ∧
    (∀ fd answer, (unchanging content).next st (.fs (.close fd)) answer = st) ∧
    ∀ size answer, (unchanging content).next st (.total size) answer = st := by
  obtain ⟨⟨phase,faulty,sent,reported⟩,at_,chunk⟩ := st
  cases going
  simp [unchanging,Course.note,Chunk.note,cursorAfter,fault,moved,progressed,Phase.after]

theorem Fresh.opens {path flags mode} (h : Fresh st) (soon : st.course.phase ≠ .closing) :
    Between content 0 fd ((unchanging content).next st (.fs (.openFile path flags mode)) (.ok fd)) 0 ∧
      Fresh ((unchanging content).next st (.fs (.openFile path flags mode)) (.ok fd)) := by
  obtain ⟨⟨phase,faulty,sent,reported⟩,at_,chunk⟩ := st
  obtain ⟨rfl,rfl,rfl,rfl⟩ := h
  cases phase with
  | closing => exact absurd rfl soon
  | connecting | transferring => exact ⟨⟨rfl,rfl,⟨0,rfl,rfl⟩,rfl,rfl⟩,⟨rfl,rfl,rfl,rfl⟩⟩

theorem Fresh.shut {path flags mode e} (h : Fresh st) (soon : st.course.phase ≠ .closing) (code : rc ≠ none) :
    Ended content offset rc ((unchanging content).next st (.fs (.openFile path flags mode)) (.error e)) := by
  obtain ⟨⟨phase,faulty,sent,reported⟩,at_,chunk⟩ := st
  obtain ⟨rfl,rfl,rfl,rfl⟩ := h
  cases phase with
  | closing => exact absurd rfl soon
  | connecting | transferring =>
    exact ⟨by simp [unchanging,Course.note,Phase.after],List.nil_prefix,rfl,fun none_ => absurd none_ code,fun _ => rfl⟩

theorem Fresh.seeks (h : Fresh st) (inv : Between content 0 fd st n) :
    (unchanging content).Leaves (Partly content offset)
      (fun st rc => (rc = none ∧ Between content offset fd st n) ∨
        (rc ≠ none ∧ Ended content offset rc st ∧ st.course.phase = .transferring)) st (seekRest fd offset) := by
  unfold seekRest
  split
  · rename_i start
    subst start
    exact leavesPure (.inl ⟨rfl,inv⟩)
  refine leavesAsk fun sought _ => ?_
  obtain ⟨pos,cursor,-⟩ := inv.file
  cases sought with
  | error e =>
    have moved_ : (unchanging content).next st (.fs (.seek fd offset)) (.error e) =
        { st with course := { st.course with faulty := true } } := by
      simp [unchanging,Course.note,Chunk.note,cursorAfter,fault,moved,progressed,Phase.after,inv.going]
    rw [moved_]
    exact leavesPure (.inr ⟨by simp,h.failed inv.going (by simp),inv.going⟩)
  | ok place =>
    have moved_ : (unchanging content).next st (.fs (.seek fd offset)) (.ok place) = { st with cursor := some (fd,offset) } := by
      obtain ⟨⟨phase,faulty,sent,reported⟩,at_,chunk⟩ := st
      cases cursor
      cases inv.going
      cases inv.well
      simp [unchanging,Course.note,Chunk.note,cursorAfter,fault,moved,progressed,Phase.after]
    rw [moved_]
    refine leavesPure (.inl ⟨rfl,inv.going,inv.well,⟨offset,rfl,?_⟩,inv.told,inv.whole⟩)
    simp [h.sent]

theorem Ended.calm (h : Ended content offset rc st)
    (quiet : fault call answer = false ∨ st.course.phase.after call ≠ .transferring) (still : moved call answer = [])
    (plain : progressed st.course.reported call = st.course.reported) (same : st.chunk.note call answer = st.chunk) :
    Ended content offset rc ((unchanging content).next st call answer) := by
  have faulty : (st.course.note call answer).faulty = st.course.faulty := by
    rcases quiet with quiet | quiet <;> simp [Course.note,quiet]
  refine ⟨?_,?_,?_,?_,?_⟩
  · exact begunAfter call h.begun
  · simpa [Partly,unchanging,Course.note,still] using h.partly
  · simpa [unchanging,Course.note,plain,same] using h.told
  · intro code
    obtain ⟨well,all⟩ := h.good code
    exact ⟨faulty.trans well,by simpa [unchanging,Course.note,still] using all⟩
  · exact fun code => faulty.trans (h.bad code)

theorem Ended.closes {answer} (h : Ended content offset rc st) :
    Ended content offset rc ((unchanging content).next st (.fs (.close fd)) answer) :=
  h.calm (.inl rfl) rfl rfl (by simp [Chunk.note,moved])

theorem retrLeaves (rounds j ch) (fresh : Fresh st) (soon : st.course.phase ≠ .closing) :
    (unchanging content).Leaves (Partly content j.rest) (fun st rc => Ended content j.rest rc st) st
      (transferRetr rounds j ch) := by
  refine leavesAsk fun opened _ => ?_
  cases opened with
  | error e => exact leavesPure (fresh.shut soon (by simp))
  | ok fd =>
    obtain ⟨inv,fresh⟩ := fresh.opens soon
    refine leavesAsk fun found _ => ?_
    rw [(untouched inv.going).1]
    refine leavesVia (fun st _ => Between content 0 fd st 0 ∧ Fresh st) ?_ fun st _ held => ?_
    · unfold reportTotal
      split
      · split
        · exact Setting.leavesOne fun _ _ => by rw [(untouched inv.going).2.2]; exact ⟨inv,fresh⟩
        · exact leavesPure ⟨inv,fresh⟩
      · exact leavesPure ⟨inv,fresh⟩
    obtain ⟨inv,fresh⟩ := held
    refine leavesThen (fresh.seeks inv) fun st rc held => ?_
    rcases held with ⟨rfl,inv⟩ | ⟨code,ended,going⟩
    · refine leavesVia (fun st rc => Ended content j.rest rc st) ?_ fun st rc ended =>
        leavesAsk fun _ _ => leavesPure ended.closes
      refine leavesAsk fun made _ => ?_
      cases made with
      | false =>
        rw [@sendsBad content st .malloc false trivial rfl inv.going]
        exact leavesPure (inv.failed (by simp))
      | true =>
        rw [@sendsIdle content st .malloc true trivial rfl rfl]
        exact leavesLoop (Between content j.rest fd) (fun st n inv => inv.partly)
          (fun st n inv => roundLeaves rounds ch fd n inv) rounds inv
    · cases rc with
      | none => exact absurd rfl code
      | some e => exact leavesAsk fun _ _ => leavesPure ended.closes

structure Unsent (st : State) : Prop where
  faulty : st.course.faulty = true
  sent : st.course.sent = []
  told : st.course.reported = st.chunk.whole

theorem opensStill (opens : Opens call) : (unchanging content).next begin call answer = begin := by
  cases call <;> cases opens <;> rfl

theorem runLeft (rounds s) {j} (retr : j.op = .retr) :
    (unchanging content).Leaves (Partly content j.rest)
      (Concluded s j (fun st => st = begin) Unsent fun st rc => Ended content j.rest rc st) begin
      (transferRun rounds s j) := by
  refine @runLeaves _ _ _ _ (fun st => st = begin) (fun st => Fresh st ∧ st.course.phase = .transferring) Unsent
    (Ended content j.rest) (fun rc st => Ended content j.rest rc st ∧ st.course.phase = .closing) (Ended content j.rest)
    ?_ ?_ ?_ ?_ ?_ ?_ ?_ ?_ ?_ ?_ rounds s j ?_ ?_ rfl
  · exact fun st ready => ready.1.partly
  · intro st call answer start opens
    rw [start]
    exact opensStill opens
  · intro st now start
    rw [start]
    exact ⟨⟨rfl,rfl,rfl,rfl⟩,rfl⟩
  · intro st call answer ready sends _ well still
    rwa [sendsIdle sends well still]
  · intro st call answer ready sends _ failed
    rw [sendsBad sends failed ready.2]
    exact ⟨rfl,ready.1.sent,by rw [ready.1.told,ready.1.chunk]⟩
  · intro st answer unsent
    refine ⟨?_,?_,?_⟩
    · simp [unchanging,Course.note,unsent.faulty]
    · simp [unchanging,Course.note,unsent.sent,moved]
    · simpa [unchanging,Course.note,Chunk.note,moved,progressed] using unsent.told
  · intro rc st answer held
    have ended : Ended content j.rest rc st := held.elim id And.left
    refine ⟨ended.calm (.inl rfl) rfl rfl (by simp [Chunk.note,moved]),?_⟩
    cases phase : st.course.phase with
    | connecting => exact absurd phase ended.begun
    | transferring | closing => simp [unchanging,Course.note,phase,Phase.after]
  · intro rc st fd event timeout answer held
    have shut : st.course.phase.after (.poll fd event timeout) = .closing := by simp [held.2,Phase.after]
    exact ⟨held.1.calm (.inr (by simp [shut])) rfl rfl (by simp [Chunk.note,moved]),shut⟩
  · intro rc st answer held
    exact (held.elim id And.left).calm (.inl rfl) rfl rfl (by simp [Chunk.note,moved])
  · exact fun rc st ended => ended
  · simp [retr]
  intro st ch held
  rw [transferOp,retr]
  rcases held with rfl | ready
  · exact retrLeaves rounds j ch ⟨rfl,rfl,rfl,rfl⟩ (by decide)
  · exact retrLeaves rounds j ch ready.1 (by simp [ready.2])

end

theorem sentGrows {content before trace} (part : before <+: trace) :
    ((unchanging content).after begin before).course.sent <+: ((unchanging content).after begin trace).course.sent :=
  @Setting.afterGrows _ _ _ (unchanging content) (fun st later => st.course.sent <+: later.course.sent)
    (fun _ => List.prefix_rfl) (fun first second => first.trans second) (fun _ _ _ => List.prefix_append _ _) _ _ part begin

theorem downloadExact (content : Bytes) (rounds : Nat) (s : Server) (j : Job) (retr : j.op = .retr)
    (trace : List (Exchange Work.Answer)) (o : Option Posted) (run : (transferRun rounds s j).Runs trace o)
    (unchanged : (unchanging content).Genuine begin trace) :
    (∀ before, before <+: trace →
      ((unchanging content).after begin before).course.sent <+: content.drop j.rest) ∧
    (o = none → rounds ≤ trace.length) ∧
    ∀ posted, o = some posted →
      (posted.result = none ↔ posted.connOk = true ∧ (j.needTls = true → s.tls = true) ∧
        ((unchanging content).after begin trace).course.faulty = false ∧
        ((unchanging content).after begin trace).course.sent = content.drop j.rest) ∧
      ((unchanging content).after begin trace).course.reported = ((unchanging content).after begin trace).chunk.whole := by
  have left := Setting.yieldsRuns (runLeft rounds s retr) run unchanged
  have partly : Partly content j.rest ((unchanging content).after begin trace) := by
    cases o with
    | none => exact left
    | some posted =>
      cases left with
      | unconnected _ _ here | unsecured _ _ _ _ here => rw [here]; exact List.nil_prefix
      | unshaken _ _ _ _ unsent => rw [Partly,unsent.sent]; exact List.nil_prefix
      | ran _ _ ended => exact ended.partly
  refine ⟨fun before part => (sentGrows part).trans partly,?_,?_⟩
  · intro spent
    subst spent
    exact runLasts s (by simp [retr]) trace run
  intro posted same
  subst same
  cases left with
  | unconnected down code here => exact ⟨by simp [down,code],by rw [here]; rfl⟩
  | unsecured up asked lacking code here => exact ⟨by simp [asked,lacking,code],by rw [here]; rfl⟩
  | unshaken up asked having code unsent => exact ⟨by simp [code,unsent.faulty],unsent.told⟩
  | ran up secure ended =>
    refine ⟨⟨fun code => ⟨up,secure,ended.good code⟩,fun held => ?_⟩,ended.told⟩
    cases code : posted.result with
    | none => rfl
    | some e =>
      have faulty := ended.bad (by simp [code])
      rw [held.2.2.1] at faulty
      cases faulty

def fromOne : Job := { smallJob with rest := 1 }

def byPieces (pos : Nat) : (call : Work) → call.Answer × Nat
  | .fs (.seek _ offset) => (.ok offset,offset)
  | .fs (.read ..) => (.ok (((ascii "abc").drop pos).take 1),pos + 1)
  | .send .. => (.ok 1,pos)
  | call => (smoothly call,pos)

def pieces : Work.Trace × Option Posted :=
  Program.playFrom byPieces 0 (transferRun 9 house fromOne)

theorem downloadExactPieces : pieces.2 = some ⟨fromOne,some 4,true,none⟩ ∧
    (unchanging (ascii "abc")).Genuine begin pieces.1 ∧
    ((unchanging (ascii "abc")).after begin pieces.1).course.sent = ascii "bc" ∧
    ((unchanging (ascii "abc")).after begin pieces.1).course.reported =
      ((unchanging (ascii "abc")).after begin pieces.1).chunk.whole := by
  have ended : pieces.2 = some ⟨fromOne,some 4,true,none⟩ := by decide +kernel
  have genuine : (unchanging (ascii "abc")).Genuine begin pieces.1 := by decide +kernel
  have exact_ := downloadExact (ascii "abc") 9 house fromOne rfl pieces.1 pieces.2
    (Program.playFromRuns byPieces 0 _) genuine
  obtain ⟨code,told⟩ := exact_.2.2 _ ended
  exact ⟨ended,genuine,(code.mp rfl).2.2.2,told⟩

end OpenPs3Ftp.Download
