import OpenPs3Ftp.Worker.Calls
import OpenPs3Ftp.Worker.Running

/-! A listing against what its path names: a file, or a directory whose entries are read
one by one. Batching lines changes nothing that is sent. The code of a failed `readdir`
is overwritten when lines still waiting are sent after it, and NLST shows a single file in
the long format. -/
namespace OpenPs3Ftp.Directory
open Lib Text Resolve Fs Session Listing Events Worker Replies
open Setting (leavesPure leavesAsk leavesThen leavesVia leavesLoop leavesPost)

/- `given` counts the entries read, `unread` tells that the last call to fail was `readdir`. -/
structure State where
  course : Course
  cancelled : Bool
  given : Nat
  unread : Bool
  deriving DecidableEq, Repr

def begin : State := ⟨.begin,false,0,false⟩

def givenAfter (given : Nat) : (call : Work) → call.Answer → Nat
  | .fs (.readdir _),.ok (some _) => given + 1
  | _,_ => given

def breaks : (call : Work) → call.Answer → Bool
  | .fs (.readdir _),.error _ => true
  | _,_ => false

def stops : (call : Work) → call.Answer → Bool
  | .cancelled,cancelled => cancelled
  | _,_ => false

variable (s : Server) (j : Job) (found : Stat) (entries : List Dirent)

/- The flag of a cancelled job stays set, `stat` tells what is there, and the entries come
in their order and to their end. Any call may fail. -/
def Shows (st : State) : (call : Work) → call.Answer → Prop
  | .cancelled,cancelled => st.cancelled = true → cancelled = true
  | .fs (.stat _),.ok got => got = found
  | .fs (.readdir _),.ok (some de) => entries.drop st.given = de :: entries.drop (st.given + 1)
  | .fs (.readdir _),.ok none => entries.drop st.given = []
  | _,_ => True

def showing : Setting Work Work.Answer State where
  can := Shows found entries
  next st call answer := ⟨st.course.note call answer,st.cancelled || stops call answer,givenAfter st.given call answer,
    if st.course.phase.after call = .transferring ∧ fault call answer = true then breaks call answer else st.unread⟩

instance decidableShows (found : Stat) (entries : List Dirent) (st : State) (call : Work) (answer : call.Answer) :
    Decidable ((showing found entries).can st call answer) := by
  unfold showing Shows
  dsimp only
  split <;> infer_instance

/- A `readdir` failed after an entry was given, and nothing failed after it. -/
def State.lost (st : State) : Bool := st.unread && st.given ≠ 0

/- A line in the format that the command selects, before it is cut to any buffer. -/
def entryLine (de : Dirent) : Bytes :=
  if j.nlst then de.name.text ++ crlf
  else if j.mlsd then mlsdLine s.libc de
  else listingLine s.libc de none

def listing : Bytes :=
  if isDir found.mode then (entries.map (entryLine s j)).flatten
  else entryLine s j (direntOf j.path.text found)

theorem listingLength (libc de) :
    (listingLine libc de none).length < 1024 ∧ de.name.text.length + 2 < (listingLine libc de none).length := by
  have id32 : ∀ v : UInt32, (decimal v.toNat).length ≤ 10 := fun v =>
    decimalLength (by decide) (Nat.lt_of_lt_of_le v.toNat_lt (by decide))
  have size : (decimal de.size.toNat).length ≤ 20 :=
    decimalLength (by decide) (Nat.lt_of_lt_of_le de.size.toNat_lt (by decide))
  have small : ∀ {n : Nat} (v : Fin n), n ≤ 62 → (two v.val).length ≤ 2 := fun v le => (shortTwo ⟨v.val,by omega⟩).1
  have name := de.name.fits
  have mode := (shortMode de.mode).1
  unfold listingLine
  generalize (libc.localtime de.mtime).getD zeroTm = tm
  have month := (shortMonth tm.mon).1
  have day := small tm.mday (by decide)
  have hour := small tm.hour (by decide)
  have minute := small tm.min (by decide)
  have owner := id32 (if de.uid = 0 ∧ de.gid = 0 then 1 else de.uid)
  have group := id32 (if de.uid = 0 ∧ de.gid = 0 then 1 else de.gid)
  have links : (ascii " 1 ").length = 3 := by decide
  have colon : (ascii ":").length = 1 := by decide
  have newline : crlf.length = 2 := by decide
  simp only [List.length_append,List.length_singleton,padLeftLength,Option.getD_none,links,colon,newline]
  constructor <;> omega

theorem lineWhole (s j de) : listLine s j de = entryLine s j de := by
  have name := de.name.fits
  have newline : crlf.length = 2 := by decide
  unfold listLine entryLine
  split
  · exact snprintfShort (by rw [List.length_append,newline]; omega)
  · split
    · exact snprintfShort (mlsdLength s.libc de).1
    · exact snprintfShort (listingLength s.libc de).1

theorem lineSome (s j de) : listLine s j de ≠ [] := by
  rw [lineWhole]
  unfold entryLine
  split
  · exact List.append_ne_nil_of_right_ne_nil _ (by decide)
  · split
    · exact List.ne_nil_of_length_pos (Nat.zero_lt_of_lt (mlsdLength s.libc de).2)
    · exact List.ne_nil_of_length_pos (Nat.zero_lt_of_lt (listingLength s.libc de).2)

variable {spent : State → Prop} {rc : Rc}

section
variable {found : Stat} {entries : List Dirent} {s : Server} {j : Job} {st : State} {call : Work} {answer : call.Answer}

theorem sendsWell (sends : Sends call) (well : fault call answer = false) : (showing found entries).next st call answer =
    { st with course := { st.course with sent := st.course.sent ++ moved call answer } } := by
  have others : stops call answer = false ∧ givenAfter st.given call answer = st.given := by
    cases call <;> cases sends <;> first | exact ⟨rfl,rfl⟩ | exact ⟨well,rfl⟩
  simp [showing,Course.sends sends well,others,well]

structure Faulted (st : State) : Prop where
  going : st.course.phase = .transferring
  faulty : st.course.faulty = true
  read : st.unread = false

theorem sendsBad (sends : Sends call) (failed : fault call answer = true) (going : st.course.phase = .transferring) :
    Faulted ((showing found entries).next st call answer) := by
  have other : breaks call answer = false := by cases call <;> cases sends <;> rfl
  refine ⟨?_,?_,?_⟩ <;> simp [showing,Course.fails sends failed going,sendsPhase _ sends,failed,going,other]

theorem sendLeft (any : ∀ st, spent st) (rounds ch lines) (going : st.course.phase = .transferring) :
    (showing found entries).Leaves spent (fun st' rc =>
      (rc = none ∧ st' = { st with course := { st.course with sent := st.course.sent ++ lines } }) ∨
      (rc ≠ none ∧ Faulted st')) st (sendAll rounds ch lines) := by
  have inv : ∃ part, lines = part ++ lines ∧ st = { st with course := { st.course with sent := st.course.sent ++ part } } :=
    ⟨[],rfl,by simp⟩
  refine leavesPost ?_ (@sendLeaves _ (showing found entries) spent st
    (fun st' rest => ∃ part, lines = part ++ rest ∧
      st' = { st with course := { st.course with sent := st.course.sent ++ part } }) (fun st' _ => Faulted st')
    (fun st _ _ => any st) ?_ ?_ ?_ rounds ch lines inv)
  · intro st' rc held
    rcases held with ⟨code,part,all,same⟩ | ⟨e,rfl,bad⟩
    · rw [List.append_nil] at all
      exact .inl ⟨code,all ▸ same⟩
    · exact .inr ⟨by simp,bad⟩
  · intro st' rest call answer held _ sends _ well still
    obtain ⟨part,all,rfl⟩ := held
    exact ⟨part,all,by simp [sendsWell sends well,still]⟩
  · intro st' rest call answer held _ sends well _ piece
    obtain ⟨part,rfl,rfl⟩ := held
    obtain ⟨more,rfl⟩ := piece
    exact ⟨part ++ moved call answer,by simp,by simp [sendsWell sends well]⟩
  intro st' rest call answer held _ sends _ failed
  obtain ⟨part,all,rfl⟩ := held
  exact sendsBad sends failed going

theorem sendCancelled (any : ∀ st, spent st) (rounds ch) {lines} (some_ : lines ≠ [])
    (going : st.course.phase = .transferring) (cancelled : st.cancelled = true) :
    (showing found entries).Leaves spent (fun st' rc => rc ≠ none ∧ Faulted st') st (sendAll rounds ch lines) := by
  cases rounds with
  | zero => exact any st
  | succ rounds =>
    refine leavesVia (fun st' next => ∃ e, next = .inr (some e) ∧ Faulted st') ?_ fun st' next held => ?_
    · unfold sendRound
      rw [if_neg some_]
      refine leavesAsk fun flag possible => ?_
      cases possible cancelled
      exact leavesPure ⟨_,rfl,sendsBad trivial rfl going⟩
    · obtain ⟨e,rfl,bad⟩ := held
      exact leavesPure ⟨by simp,bad⟩

def flushed (st : State) (b : Batch) : State :=
  { st with course := { st.course with sent := st.course.sent ++ b.lines, reported := b.sent + b.lines.length } }

theorem flushLeft (any : ∀ st, spent st) (rounds ch b) (going : st.course.phase = .transferring) :
    (showing found entries).Leaves spent (fun st' b' => (b.lines = [] ∧ b' = b ∧ st' = st) ∨
      (b.lines ≠ [] ∧ b' = ⟨[],none,b.sent + b.lines.length⟩ ∧ st' = flushed st b) ∨
      (b'.rc ≠ none ∧ b'.lines = [] ∧ Faulted st')) st (listFlush rounds ch b) := by
  unfold listFlush
  split
  · rename_i empty
    exact leavesPure (.inl ⟨empty,rfl,rfl⟩)
  rename_i some_
  refine leavesThen (sendLeft any rounds ch b.lines going) fun st' rc held => ?_
  rcases held with ⟨rfl,rfl⟩ | ⟨code,bad⟩
  · rw [if_pos rfl]
    refine leavesAsk fun _ _ => leavesPure (.inr (.inl ⟨some_,rfl,?_⟩))
    simp [showing,flushed,Course.note,Phase.after,going,fault,moved,progressed,stops,givenAfter]
  · rw [if_neg code]
    exact leavesPure (.inr (.inr ⟨code,rfl,bad⟩))

theorem flushCancelled (any : ∀ st, spent st) (rounds ch b) (going : st.course.phase = .transferring)
    (cancelled : st.cancelled = true) :
    (showing found entries).Leaves spent (fun st' b' => (b' = b ∧ st' = st) ∨ (b'.rc ≠ none ∧ Faulted st')) st
      (listFlush rounds ch b) := by
  unfold listFlush
  split
  · exact leavesPure (.inl ⟨rfl,rfl⟩)
  rename_i some_
  refine leavesThen (sendCancelled any rounds ch some_ going cancelled) fun st' rc held => ?_
  rw [if_neg held.1]
  exact leavesPure (.inr held)

def linesOf (s : Server) (j : Job) (es : List Dirent) : Bytes := (es.map (entryLine s j)).flatten

structure Reading (s : Server) (j : Job) (entries : List Dirent) (st : State) (b : Batch) : Prop where
  going : st.course.phase = .transferring
  well : st.course.faulty = false
  read : st.unread = false
  code : b.rc = none
  shown : st.course.sent ++ b.lines = linesOf s j (entries.take st.given)
  waiting : b.lines = [] ↔ st.given = 0

inductive Looped (s : Server) (j : Job) (entries : List Dirent) (st : State) (b : Batch) : Prop where
  | all (reading : Reading s j entries st b) (last : entries.take st.given = entries)
  | unread (going : st.course.phase = .transferring) (code : b.rc ≠ none) (faulty : st.course.faulty = true)
      (unread : st.unread = true) (waiting : b.lines = [] ↔ st.given = 0)
  | cancelled (code : b.rc ≠ none) (flag : st.cancelled = true) (bad : Faulted st)
  | unsent (code : b.rc ≠ none) (empty : b.lines = []) (bad : Faulted st)

theorem takeNext {entries : List Dirent} {n de} (next : entries.drop n = de :: entries.drop (n + 1)) :
    entries.take (n + 1) = entries.take n ++ [de] := by
  rw [List.take_add_one,← List.head?_drop,next]
  rfl

theorem roundLeft (rounds ch dir b) (inv : Reading s j entries st b) :
    (showing found entries).Leaves (fun _ => True)
      (fun st next => Sum.elim (Reading s j entries st) (Looped s j entries st) next) st
      (listRound rounds s j ch dir b) := by
  refine leavesAsk fun flag possible => ?_
  cases flag with
  | true =>
    have bad := @sendsBad found entries st .cancelled true trivial rfl inv.going
    exact leavesPure (.cancelled (by simp) (by simp [showing,stops]) bad)
  | false =>
    have same := @sendsWell found entries st .cancelled false trivial rfl
    have same : (showing found entries).next st .cancelled false = st := by rw [same]; simp [moved]
    rw [same]
    refine leavesAsk fun entry possible => ?_
    cases entry with
    | error e =>
      refine leavesPure (.unread ?_ (by simp) ?_ ?_ inv.waiting)
      · simp [showing,Course.note,Phase.after,inv.going]
      · simp [showing,Course.note,Phase.after,inv.going,fault]
      · simp [showing,Phase.after,inv.going,fault,breaks]
    | ok next =>
      cases next with
      | none =>
        have last : entries.take st.given = entries := by
          have split := List.take_append_drop st.given entries
          rwa [show entries.drop st.given = [] from possible,List.append_nil] at split
        have still : (showing found entries).next st (.fs (.readdir dir)) (.ok none) = st := by
          obtain ⟨⟨phase,faulty,sent,reported⟩,cancelled,given,unread⟩ := st
          cases inv.going
          simp [showing,Course.note,Phase.after,fault,moved,progressed,stops,givenAfter]
        rw [still]
        exact leavesPure (.all inv last)
      | some de =>
        have got : (showing found entries).next st (.fs (.readdir dir)) (.ok (some de)) = { st with given := st.given + 1 } := by
          obtain ⟨⟨phase,faulty,sent,reported⟩,cancelled,given,unread⟩ := st
          cases inv.going
          simp [showing,Course.note,Phase.after,fault,moved,progressed,stops,givenAfter]
        rw [got]
        have more : linesOf s j (entries.take (st.given + 1)) = linesOf s j (entries.take st.given) ++ listLine s j de := by
          rw [takeNext possible,linesOf,linesOf,lineWhole]
          simp
        have added : ∀ lines, lines ++ listLine s j de = [] ↔ st.given + 1 = 0 := fun lines =>
          iff_of_false (List.append_ne_nil_of_right_ne_nil _ (lineSome s j de)) (Nat.succ_ne_zero _)
        have kept : Reading s j entries { st with given := st.given + 1 } { b with lines := b.lines ++ listLine s j de } :=
          ⟨inv.going,inv.well,inv.read,inv.code,by rw [more,← inv.shown,List.append_assoc],added _⟩
        refine leavesVia (fun st' b' => (b'.rc = none ∧ Reading s j entries st'
            { b' with lines := b'.lines ++ listLine s j de }) ∨ (b'.rc ≠ none ∧ Looped s j entries st' b')) ?_ fun st' b' held => ?_
        · split
          · refine leavesPost ?_ (flushLeft (fun _ => trivial) rounds ch b inv.going)
            intro st' b' held
            rcases held with ⟨_,rfl,rfl⟩ | ⟨_,rfl,rfl⟩ | ⟨code,empty,bad⟩
            · exact .inl ⟨inv.code,kept⟩
            · refine .inl ⟨rfl,inv.going,inv.well,inv.read,rfl,?_,added []⟩
              change st.course.sent ++ b.lines ++ ([] ++ listLine s j de) = _
              rw [List.nil_append,inv.shown]
              exact more.symm
            · exact .inr ⟨code,.unsent code empty bad⟩
          · exact leavesPure (.inl ⟨inv.code,kept⟩)
        rcases held with ⟨code,reading⟩ | ⟨code,looped⟩
        · rw [if_neg (by simp [code])]
          exact leavesPure reading
        · rw [if_pos code]
          exact leavesPure looped

def fileLine (s : Server) (j : Job) (found : Stat) : Bytes :=
  if j.mlsd then mlsdLine s.libc (direntOf j.path.text found) else listingLine s.libc (direntOf j.path.text found) none

theorem fileSome (s j found) : fileLine s j found ≠ [] := by
  unfold fileLine
  split
  · exact List.ne_nil_of_length_pos (Nat.zero_lt_of_lt (mlsdLength _ _).2)
  · exact List.ne_nil_of_length_pos (Nat.zero_lt_of_lt (listingLength _ _).2)

/- What a listing leaves with its code; `lost` is the failed `readdir` that nobody is told of. -/
inductive Ended (s : Server) (j : Job) (found : Stat) (entries : List Dirent) (rc : Rc) (st : State) : Prop where
  | complete (code : rc = none) (well : st.course.faulty = false) (kept : st.lost = false)
      (sent : st.course.sent = if isDir found.mode then linesOf s j entries else fileLine s j found)
  | failed (code : rc ≠ none) (bad : st.course.faulty = true) (kept : st.lost = false)
  | lost (dir : isDir found.mode = true) (code : rc = none) (bad : st.course.faulty = true) (gone : st.lost = true)

theorem Ended.calm (h : Ended s j found entries rc st)
    (quiet : fault call answer = false ∨ st.course.phase.after call ≠ .transferring) (still : moved call answer = [])
    (same : givenAfter st.given call answer = st.given) :
    Ended s j found entries rc ((showing found entries).next st call answer) := by
  have faulty : ((showing found entries).next st call answer).course.faulty = st.course.faulty := by
    rcases quiet with quiet | quiet <;> simp [showing,Course.note,quiet]
  have lost : ((showing found entries).next st call answer).lost = st.lost := by
    rcases quiet with quiet | quiet <;> simp [showing,State.lost,same,quiet]
  cases h with
  | complete code well kept shown =>
    exact .complete code (faulty.trans well) (lost.trans kept) (by simpa [showing,Course.note,still] using shown)
  | failed code bad kept => exact .failed code (faulty.trans bad) (lost.trans kept)
  | lost dir code bad gone => exact .lost dir code (faulty.trans bad) (lost.trans gone)

theorem Faulted.ended (bad : Faulted st) (code : rc ≠ none) : Ended s j found entries rc st :=
  .failed code bad.faulty (by simp [State.lost,bad.read])

theorem lastLeft (dir : isDir found.mode = true) (rounds ch b) (looped : Looped s j entries st b) :
    (showing found entries).Leaves (fun _ => True)
      (fun st b => Ended s j found entries b.rc st ∧ st.course.phase = .transferring) st (listFlush rounds ch b) := by
  cases looped with
  | all reading last =>
    refine leavesPost ?_ (flushLeft (fun _ => trivial) rounds ch b reading.going)
    intro st' b' held
    have shown := reading.shown
    have kept : st.lost = false := by simp [State.lost,reading.read]
    rw [last] at shown
    rcases held with ⟨empty,rfl,rfl⟩ | ⟨_,rfl,rfl⟩ | ⟨code,_,bad⟩
    · rw [empty,List.append_nil] at shown
      exact ⟨.complete reading.code reading.well kept (by rw [if_pos dir]; exact shown),reading.going⟩
    · exact ⟨.complete rfl reading.well kept (by rw [if_pos dir]; exact shown),reading.going⟩
    · exact ⟨bad.ended code,bad.going⟩
  | unread going code faulty unread waiting =>
    refine leavesPost ?_ (flushLeft (fun _ => trivial) rounds ch b going)
    intro st' b' held
    rcases held with ⟨empty,rfl,rfl⟩ | ⟨some_,rfl,rfl⟩ | ⟨code',_,bad⟩
    · exact ⟨.failed code faulty (by simp [State.lost,waiting.mp empty]),going⟩
    · exact ⟨.lost dir rfl faulty (by simpa [State.lost,flushed,unread] using mt waiting.mpr some_),going⟩
    · exact ⟨bad.ended code',bad.going⟩
  | cancelled code flag bad =>
    refine leavesPost ?_ (flushCancelled (fun _ => trivial) rounds ch b bad.going flag)
    intro st' b' held
    rcases held with ⟨rfl,rfl⟩ | ⟨code',worse⟩
    · exact ⟨bad.ended code,bad.going⟩
    · exact ⟨worse.ended code',worse.going⟩
  | unsent code empty bad =>
    unfold listFlush
    rw [if_pos empty]
    exact leavesPure ⟨bad.ended code,bad.going⟩

structure Fresh (st : State) : Prop where
  soon : st.course.phase ≠ .closing
  well : st.course.faulty = false
  sent : st.course.sent = []
  read : st.unread = false
  given : st.given = 0

theorem Fresh.after (h : Fresh st) (fs) : st.course.phase.after (.fs fs) = .transferring := by
  cases at_ : st.course.phase with
  | connecting | transferring => rfl
  | closing => exact absurd at_ h.soon

theorem Fresh.finds {fs got} (h : Fresh st) (well : fault (.fs fs) got = false)
    (one : givenAfter st.given (.fs fs) got = st.given) :
    Fresh ((showing found entries).next st (.fs fs) got) ∧
      ((showing found entries).next st (.fs fs) got).course.phase = .transferring := by
  refine ⟨⟨?_,?_,?_,?_,one.trans h.given⟩,h.after fs⟩
  · simp [showing,Course.note,h.after]
  · simp [showing,Course.note,h.well,well]
  · simpa [showing,Course.note,moved] using h.sent
  · simp [showing,h.read,well]

theorem Fresh.misses {fs got} (h : Fresh st) (failed : fault (.fs fs) got = true)
    (one : givenAfter st.given (.fs fs) got = st.given) (code : rc ≠ none) :
    Ended s j found entries rc ((showing found entries).next st (.fs fs) got) ∧
      ((showing found entries).next st (.fs fs) got).course.phase ≠ .connecting := by
  refine ⟨.failed code ?_ ?_,?_⟩
  · simp [showing,Course.note,h.after,failed]
  · simp [showing,State.lost,one.trans h.given]
  · simp [showing,Course.note,h.after]

theorem fileLeft (file : isDir found.mode = false) (rounds ch) (fresh : Fresh st)
    (going : st.course.phase = .transferring) :
    (showing found entries).Leaves (fun _ => True)
      (fun st rc => Ended s j found entries rc st ∧ st.course.phase ≠ .connecting) st (listFile rounds s j ch found) := by
  have fits : (if j.mlsd then mlsdFormat s.libc 1024 (direntOf j.path.text found)
      else listingFormat s.libc 1024 (direntOf j.path.text found) none) = fileLine s j found := by
    unfold fileLine
    split
    · exact snprintfShort (mlsdLength _ _).1
    · exact snprintfShort (listingLength _ _ ).1
  unfold listFile
  simp only [fits]
  refine leavesThen (flushLeft (fun _ => trivial) rounds ch ⟨fileLine s j found,none,0⟩ going) fun st' b held => leavesPure ?_
  rcases held with ⟨empty,_,_⟩ | ⟨_,rfl,rfl⟩ | ⟨code,_,bad⟩
  · exact absurd empty (fileSome s j found)
  · refine ⟨.complete rfl fresh.well ?_ ?_,?_⟩
    · simp [State.lost,flushed,fresh.read]
    · simp [flushed,fresh.sent,file]
    · simp [flushed,going]
  · exact ⟨bad.ended code,by simp [bad.going]⟩

theorem listLeft (rounds ch) (fresh : Fresh st) :
    (showing found entries).Leaves (fun _ => True)
      (fun st rc => Ended s j found entries rc st ∧ st.course.phase ≠ .connecting) st (transferList rounds s j ch) := by
  refine leavesAsk fun looked possible => ?_
  cases looked with
  | error e => exact leavesPure (fresh.misses rfl rfl (by simp))
  | ok got =>
    cases possible
    obtain ⟨fresh,going⟩ := @Fresh.finds found entries st (.stat j.path.text) (.ok found) fresh rfl rfl
    cases kind : isDir found.mode with
    | false =>
      simp only [kind,Bool.false_eq_true,not_false_eq_true,if_true]
      exact fileLeft kind rounds ch fresh going
    | true =>
      simp only [kind,not_true_eq_false,if_false]
      refine leavesAsk fun opened _ => ?_
      cases opened with
      | error e => exact leavesPure (fresh.misses rfl rfl (by simp))
      | ok dir =>
        obtain ⟨fresh,going⟩ := @Fresh.finds found entries _ (.opendir j.path.text) (.ok dir) fresh rfl rfl
        have reading : Reading s j entries _ ⟨[],none,0⟩ :=
          ⟨going,fresh.well,fresh.read,rfl,by rw [fresh.sent,fresh.given]; rfl,by simp [fresh.given]⟩
        refine leavesThen (leavesLoop (Reading s j entries) (fun _ _ _ => trivial)
          (fun st b reading => roundLeft rounds ch dir b reading) rounds reading) fun st b looped => ?_
        refine leavesThen (lastLeft kind rounds ch b looped) fun st b held => leavesAsk fun _ _ => leavesPure ?_
        exact ⟨held.1.calm (.inl rfl) rfl rfl,begunAfter _ (by simp [held.2])⟩

structure Unsent (st : State) : Prop where
  faulty : st.course.faulty = true
  read : st.unread = false

theorem opensStill (opens : Opens call) (start : st.course = .begin) : (showing found entries).next st call answer =
    { st with cancelled := st.cancelled || stops call answer } := by
  obtain ⟨course,cancelled,given,unread⟩ := st
  cases start
  cases call <;> cases opens <;> simp [showing,Course.note,Phase.after,moved,progressed,givenAfter]

theorem runLeft (rounds) (list : j.op = .list) :
    (showing found entries).Leaves (fun _ => True)
      (Concluded s j (fun st => Fresh st ∧ st.course = .begin) Unsent fun st rc => Ended s j found entries rc st) begin
      (transferRun rounds s j) := by
  refine @runLeaves _ (showing found entries) _ _ (fun st => Fresh st ∧ st.course = .begin)
    (fun st => Fresh st ∧ st.course.phase = .transferring) Unsent
    (fun rc st => Ended s j found entries rc st ∧ st.course.phase ≠ .connecting)
    (fun rc st => Ended s j found entries rc st ∧ st.course.phase = .closing) (Ended s j found entries)
    (fun _ _ => trivial) ?_ ?_ ?_ ?_ ?_ ?_ ?_ ?_ (fun _ _ held => held.1) rounds s j (by simp [list]) ?_ ?_
  · intro st call answer held opens
    rw [opensStill opens held.2]
    exact ⟨⟨held.1.soon,held.1.well,held.1.sent,held.1.read,held.1.given⟩,held.2⟩
  · intro st now held
    obtain ⟨course,cancelled,given,unread⟩ := st
    obtain ⟨fresh,start⟩ := held
    cases start
    exact ⟨⟨nofun,rfl,rfl,fresh.read,fresh.given⟩,rfl⟩
  · intro st call answer held sends _ well still
    have same := @sendsWell found entries st call answer sends well
    rw [still,List.append_nil] at same
    rwa [same]
  · intro st call answer held sends _ failed
    have bad := @sendsBad found entries st call answer sends failed held.2
    exact ⟨bad.faulty,bad.read⟩
  · intro st answer unsent
    refine ⟨?_,?_⟩
    · simp [showing,Course.note,unsent.faulty]
    · simp [showing,unsent.read,fault]
  · intro rc st answer held
    have ended : Ended s j found entries rc st := held.elim And.left And.left
    refine ⟨ended.calm (.inl rfl) rfl rfl,?_⟩
    rcases held with ⟨_,begun⟩ | ⟨_,shut⟩
    · cases phase : st.course.phase with
      | connecting => exact absurd phase begun
      | transferring | closing => simp [showing,Course.note,phase,Phase.after]
    · simp [showing,Course.note,shut,Phase.after]
  · intro rc st fd event timeout answer held
    have shut : st.course.phase.after (.poll fd event timeout) = .closing := by simp [held.2,Phase.after]
    exact ⟨held.1.calm (.inr (by simp [shut])) rfl rfl,shut⟩
  · intro rc st answer held
    exact (held.elim And.left And.left).calm (.inl rfl) rfl rfl
  · intro st ch held
    rw [transferOp,list]
    exact listLeft rounds ch (held.elim And.left And.left)
  · exact ⟨⟨by decide,rfl,rfl,rfl,rfl⟩,rfl⟩

theorem fileShown (nlst : j.nlst = true) : fileLine s j found ≠ entryLine s j (direntOf j.path.text found) := by
  intro same
  have newline : crlf.length = 2 := by decide
  have count := congrArg List.length same
  unfold entryLine fileLine at count
  rw [if_pos nlst,List.length_append,newline] at count
  split at count
  · exact absurd count (Nat.ne_of_gt (mlsdLength _ _).2)
  · exact absurd count (Nat.ne_of_gt (listingLength _ _).2)

theorem Ended.told (h : Ended s j found entries rc st) :
    ((rc = none → st.course.sent = listing s j found entries) ∧ (st.course.faulty = true → rc ≠ none)) ↔
      st.lost = false ∧
        ¬ (j.nlst = true ∧ isDir found.mode = false ∧ st.course.sent ≠ [] ∧ st.course.faulty = false) := by
  unfold listing
  cases h with
  | complete code well kept sent =>
    cases kind : isDir found.mode with
    | true => simp [kind,sent,well,kept,linesOf]
    | false =>
      cases nlst : j.nlst with
      | true => simp [kind,sent,code,well,kept,fileSome,fileShown nlst]
      | false => simp [kind,sent,well,kept,fileLine,entryLine,nlst]
  | failed code bad kept => simp [code,bad,kept]
  | lost dir code bad gone => simp [code,bad,gone]

end

theorem listingExact (found : Stat) (entries : List Dirent) (rounds : Nat) (s : Server) (j : Job) (list : j.op = .list)
    (trace : List (Exchange Work.Answer)) (o : Option Posted) (run : (transferRun rounds s j).Runs trace o)
    (genuine : (showing found entries).Genuine begin trace) :
    (o = none → rounds ≤ trace.length) ∧
    ∀ posted, o = some posted →
      (((posted.result = none → ((showing found entries).after begin trace).course.sent = listing s j found entries) ∧
        (((showing found entries).after begin trace).course.faulty = true → posted.result ≠ none)) ↔
      ((showing found entries).after begin trace).lost = false ∧
        ¬ (j.nlst = true ∧ isDir found.mode = false ∧
          ((showing found entries).after begin trace).course.sent ≠ [] ∧
          ((showing found entries).after begin trace).course.faulty = false)) := by
  have left := Setting.yieldsRuns (runLeft rounds list) run genuine
  refine ⟨?_,?_⟩
  · intro spent
    subst spent
    exact runLasts s (by simp [list]) trace run
  intro posted same
  subst same
  cases left with
  | unconnected _ code here | unsecured _ _ _ code here => simp [code,State.lost,here.1.read,here.1.sent]
  | unshaken _ _ _ code here => simp [code,State.lost,here.read,here.faulty]
  | ran _ _ ended => exact ended.told

def list (nlst : Bool) : Job := { smallJob with op := .list, path := Buffer.print _ (ascii "/d"), nlst }

def entry (name : String) : Dirent := ⟨Buffer.print _ (ascii name),0o100644,7,0,0,0⟩
def both : List Dirent := [entry "a",entry "b"]

def reading (last : Except Errno (Option Dirent)) (left : List Dirent) :
    (call : Work) → call.Answer × List Dirent
  | .fs (.stat _) => (.ok found,left)
  | .fs (.readdir _) =>
    match left with
    | [] => (last,[])
    | de :: left => (.ok (some de),left)
  | call => (smoothly call,left)

def small (last : Except Errno (Option Dirent)) (left : List Dirent) (nlst : Bool) :
    Work.Trace × Option Posted :=
  Program.playFrom (reading found last) left (transferRun 9 house (list nlst))

theorem listingCut :
    (Program.Runs (transferRun 9 house (list false)) (small directory (.error .eio) [entry "a"] false).1
        (some ⟨list false,some 4,true,none⟩) ∧
      (showing directory both).Genuine begin (small directory (.error .eio) [entry "a"] false).1 ∧
      ((showing directory both).after begin (small directory (.error .eio) [entry "a"] false).1).course.sent ≠
        listing house (list false) directory both) ∧
    (Program.Runs (transferRun 9 house (list true)) (small plainFile (.ok none) [] true).1
        (some ⟨list true,some 4,true,none⟩) ∧
      (showing plainFile []).Genuine begin (small plainFile (.ok none) [] true).1 ∧
      ((showing plainFile []).after begin (small plainFile (.ok none) [] true).1).course.sent ≠
        listing house (list true) plainFile []) := by
  have unread : (small directory (.error .eio) [entry "a"] false).2 = some ⟨list false,some 4,true,none⟩ := by decide +kernel
  have single : (small plainFile (.ok none) [] true).2 = some ⟨list true,some 4,true,none⟩ := by decide +kernel
  refine ⟨⟨?_,by decide +kernel,by decide +kernel⟩,?_,by decide +kernel,by decide +kernel⟩
  · rw [← unread]
    exact Program.playFromRuns _ _ _
  · rw [← single]
    exact Program.playFromRuns _ _ _

theorem listingExactNames : (small directory (.ok none) both true).2 = some ⟨list true,some 4,true,none⟩ ∧
    (showing directory both).Genuine begin (small directory (.ok none) both true).1 ∧
    ((showing directory both).after begin (small directory (.ok none) both true).1).course.sent = ascii "a\r\nb\r\n" := by
  have ended : (small directory (.ok none) both true).2 = some ⟨list true,some 4,true,none⟩ := by decide +kernel
  have genuine : (showing directory both).Genuine begin (small directory (.ok none) both true).1 := by decide +kernel
  have exact_ := listingExact directory both 9 house (list true) rfl _ _
    (Program.playFromRuns (reading directory (.ok none)) both _) genuine
  refine ⟨ended,genuine,(((exact_.2 _ ended).mpr (by decide +kernel)).1 rfl).trans ?_⟩
  decide +kernel

end OpenPs3Ftp.Directory
