import OpenPs3Ftp.Worker.Calls
import OpenPs3Ftp.Worker.Running

/-! What a worker still does once the flag of its job is set. It looks at the flag before
every chunk and every entry, so that what it does since it last found the flag clear bounds
what it does after any moment at which the flag is set. -/
namespace OpenPs3Ftp.Reaction
open Lib Text Resolve Fs Session Listing Events Worker
open Setting (leavesPure leavesAsk leavesThen leavesVia leavesLoop leavesUses leavesPost)

def takes : (call : Work) → call.Answer → Nat
  | .fs (.read ..),.ok bytes | .recv ..,.ok bytes | .tlsRead _,.moved bytes => bytes.length
  | _,_ => 0

def gives : (call : Work) → call.Answer → Nat
  | .send _ bytes,.ok n | .tlsWrite bytes,.moved n | .fs (.write _ bytes),.ok n => min n bytes.length
  | _,_ => 0

def opens : (call : Work) → call.Answer → Nat
  | .fs (.openFile ..),.ok _ | .fs (.opendir _),.ok _ | .fs (.mkdir ..),.ok _ => 1
  | _,_ => 0

def feeds : (call : Work) → call.Answer → Bool
  | .fs (.stat _),.ok _ | .fs (.readdir _),.ok (some _) => true
  | .fs (.read ..),.ok bytes | .recv ..,.ok bytes | .tlsRead _,.moved bytes => bytes ≠ []
  | _,_ => false

structure Half where
  absent : Option Bytes
  making : Option Bytes
  deriving DecidableEq

def Half.note (h : Half) : (call : Work) → call.Answer → Half
  | .fs (.stat path),.error _ => { h with absent := some path }
  | .fs (.stat _),.ok _ => { h with absent := none }
  | .fs (.openFile path flags _),.ok _ => if flags.creat ∧ h.absent = some path then ⟨none,some path⟩ else h
  | .fs (.read ..),.ok [] => { h with making := none }
  | .fs (.unlink path),_ => if h.making = some path then { h with making := none } else h
  | _,_ => h

def unmade : Half := ⟨none,none⟩

def halfMade (trace : Work.Trace) : Option Bytes :=
  (trace.foldl (fun h e => h.note e.1 e.2) unmade).making

def chunk (j : Job) : Nat := if j.op = .list then batchSize else transferBuf

def Visible (before after : Work.Trace) : Prop :=
  (∀ seen, (⟨.cancelled,seen⟩ : Exchange Work.Answer) ∈ before → seen = false) ∧
    ∀ seen, (⟨.cancelled,seen⟩ : Exchange Work.Answer) ∈ after → seen = true

def Sized : (call : Work) → call.Answer → Prop
  | .fs (.read _ size),.ok bytes | .recv _ size,.ok bytes | .tlsRead size,.moved bytes => bytes.length ≤ size
  | _,_ => True

def total (count : (call : Work) → call.Answer → Nat) (trace : Work.Trace) : Nat :=
  (trace.map fun e => count e.1 e.2).sum

/- What follows the moment: at most a chunk, at most so many files, nothing left half made,
and no success unless there was no input left. -/
structure Prompt (j : Job) (files : Nat) (before after : Work.Trace) (out : Option Posted) : Prop where
  taken : total takes after ≤ chunk j
  given : total gives after ≤ chunk j
  opened : total opens after ≤ files
  removed : out ≠ none → halfMade (before ++ after) = none
  stopped : ∀ p, out = some p → p.result = none → ∀ e ∈ after, feeds e.1 e.2 = false

structure Watch where
  taken : Nat
  given : Nat
  opened : Nat
  fed : Bool
  half : Half
  deriving DecidableEq

def idle (h : Half) : Watch := ⟨0,0,0,false,h⟩

def Watch.note (st : Watch) : (call : Work) → call.Answer → Watch
  | .cancelled,false => idle st.half
  | call,answer => ⟨st.taken + takes call answer,st.given + gives call answer,st.opened + opens call answer,
      st.fed || feeds call answer,st.half.note call answer⟩

def watching : Setting Work Work.Answer Watch := ⟨fun _ => Sized,Watch.note⟩

def Calm : Work → Prop
  | .fs (.close _) | .fs (.seek ..) | .fs (.fstat _) | .fs (.closedir _) => True
  | .cancelled | .fs _ | .send .. | .recv .. | .tlsWrite _ | .tlsRead _ => False
  | _ => True

theorem calmStill (call) (calm : Calm call) (st answer) : watching.next st call answer = st := by
  cases call with
  | fs call => cases call <;> first | exact calm.elim | simp [watching,Watch.note,takes,gives,opens,feeds,Half.note]
  | _ => first | exact calm.elim | simp [watching,Watch.note,takes,gives,opens,feeds,Half.note]

theorem seenStill (st) : watching.next st .cancelled true = st := by
  simp [watching,Watch.note,takes,gives,opens,feeds,Half.note]

structure Within (n k : Nat) (h : Half) (st : Watch) : Prop where
  taken : st.taken ≤ n
  given : st.given ≤ n
  opened : st.opened ≤ k
  half : st.half = h

def Few (n k : Nat) (st : Watch) : Prop := ∃ h, Within n k h st

section
variable {n k : Nat} {h : Half} {st : Watch}

theorem idleWithin : Within n k h (idle h) := ⟨Nat.zero_le _,Nat.zero_le _,Nat.zero_le _,rfl⟩

theorem Within.few (within : Within n k h st) : Few n k st := ⟨h,within⟩

theorem leavesCalm {α : Type} {spent : Watch → Prop} {post : Watch → α → Prop} {call} {next : call.Answer → Routine α}
    (calm : Calm call) (then_ : ∀ answer, watching.Leaves spent post st (next answer)) :
    watching.Leaves spent post st (perform call >>= next) := leavesAsk fun answer _ => by
  rw [calmStill call calm]
  exact then_ answer

theorem leavesSeen {α : Type} {spent : Watch → Prop} {post : Watch → α → Prop} {next : Bool → Routine α}
    (seen : watching.Leaves spent post st (next true)) (clear : watching.Leaves spent post (idle st.half) (next false)) :
    watching.Leaves spent post st (perform .cancelled >>= next) := leavesAsk fun cancelled _ => by
  cases cancelled with
  | true => rwa [seenStill]
  | false => exact clear

theorem waitIdle {α : Type} {p : Routine α} (uses : Bounded.Uses (fun call => Calm call ∨ call = .cancelled) p) :
    watching.Leaves (Few n k) (fun st _ => st = idle h) (idle h) p := by
  refine leavesUses uses (fun st same => same ▸ idleWithin.few) (fun st call answer same only _ => ?_) rfl
  subst same
  rcases only with calm | rfl
  · exact calmStill _ calm _ _
  · cases answer with
    | false => rfl
    | true => exact seenStill _

def Sent (n k : Nat) (h : Half) (st : Watch) (rest : Bytes) (st' : Watch) : Bytes ⊕ Rc → Prop
  | .inl rest' => Within n k h st' ∧ rest'.length ≤ n ∧ st'.fed = false
  | .inr rc => Within n k h st' ∧ (rc = none → rest = [] ∧ st' = st)

theorem sendRoundPrompt (ch : Channel) (rest : Bytes) (within : Within n k h st) (short : rest.length ≤ n) :
    watching.Leaves (Few n k) (Sent n k h st rest) st (sendRound ch rest) := by
  have waited : ∀ event, watching.Leaves (Few n k) (Sent n k h st rest) (idle h) (awaiting ch.fd event rest some) := by
    intro event
    refine leavesThen (waitIdle (usesWait (.inr rfl) (fun _ _ => .inl trivial) event 1000)) ?_
    rintro st rc rfl
    split
    · exact leavesPure ⟨idleWithin,short,rfl⟩
    · exact leavesPure ⟨idleWithin,short,rfl⟩
    · exact leavesPure ⟨idleWithin,nofun⟩
  have moved : ∀ m, Within n k h ⟨0,0 + min m rest.length,0,false || false,h⟩ := fun m =>
    ⟨Nat.zero_le _,by dsimp only; omega,Nat.zero_le _,rfl⟩
  have shorter : ∀ m, (rest.drop m).length ≤ n := fun m => by
    rw [List.length_drop]
    omega
  unfold sendRound
  split
  · rename_i empty
    exact leavesPure ⟨within,fun _ => ⟨empty,rfl⟩⟩
  refine leavesSeen (leavesPure ⟨within,nofun⟩) ?_
  rw [within.half]
  simp
  split
  · refine leavesAsk fun wrote _ => ?_
    cases wrote with
    | moved m =>
      cases m with
      | zero => exact leavesPure ⟨moved 0,nofun⟩
      | succ m => exact leavesPure ⟨moved (m + 1),shorter _,rfl⟩
    | wantRead | wantWrite => exact waited _
    | failed => exact leavesPure ⟨idleWithin,nofun⟩
  refine leavesThen (waitIdle (usesWait (.inr rfl) (fun _ _ => .inl trivial) .pollout 1000)) ?_
  rintro st rc rfl
  split
  · exact leavesPure ⟨idleWithin,short,rfl⟩
  · exact leavesPure ⟨idleWithin,nofun⟩
  refine leavesAsk fun sent _ => ?_
  split
  · exact leavesPure ⟨moved _,shorter _,rfl⟩
  · exact leavesPure ⟨moved 0,nofun⟩
  · exact leavesPure ⟨idleWithin,short,rfl⟩
  · exact leavesPure ⟨idleWithin,nofun⟩

theorem sendPrompt (rounds ch bytes) (within : Within n k h st) (short : bytes.length ≤ n) :
    watching.Leaves (Few n k) (fun st rc => Within n k h st ∧ (rc = none → bytes = [] ∨ st.fed = false)) st
      (sendAll rounds ch bytes) := by
  refine leavesLoop (fun st rest => Within n k h st ∧ rest.length ≤ n ∧ (rest = bytes ∨ st.fed = false))
    (fun st rest held => held.1.few) (fun st rest held => ?_) rounds ⟨within,short,.inl rfl⟩
  refine leavesPost ?_ (sendRoundPrompt ch rest held.1 held.2.1)
  rintro st' (rest' | rc) next
  · exact ⟨next.1,next.2.1,.inr next.2.2⟩
  · refine ⟨next.1,fun none_ => ?_⟩
    obtain ⟨empty,rfl⟩ := next.2 none_
    exact held.2.2.imp_left fun same => same.symm.trans empty

theorem writePrompt (rounds fd bytes) (within : Within n k h st) (short : st.given + bytes.length ≤ n) :
    watching.Leaves (Few n k) (fun st _ => Within n k h st) st (fsWriteAll rounds fd bytes) := by
  refine leavesLoop (fun st rest => Within n k h st ∧ st.given + rest.length ≤ n) (fun st rest held => held.1.few)
    (fun st rest held => ?_) rounds ⟨within,short⟩
  obtain ⟨within,short⟩ := held
  unfold writeRound
  split
  · exact leavesPure within
  refine leavesAsk fun wrote _ => ?_
  have wrote_ : ∀ m, Within n k h ⟨st.taken,st.given + min m rest.length,st.opened,st.fed || false,st.half⟩ := fun m =>
    ⟨within.taken,by dsimp only; omega,within.opened,within.half⟩
  match wrote with
  | .error e => exact leavesPure ⟨within.taken,within.given,within.opened,within.half⟩
  | .ok 0 => exact leavesPure (wrote_ 0)
  | .ok (m + 1) =>
    refine leavesPure ⟨wrote_ (m + 1),?_⟩
    show st.given + min (m + 1) rest.length + (rest.drop (m + 1)).length ≤ n
    rw [List.length_drop]
    omega

def Came (n k : Nat) (h : Half) (st : Watch) : Except Errno Bytes → Prop
  | .ok bytes => bytes.length ≤ n ∧ st = ⟨bytes.length,0,0,bytes ≠ [],h⟩
  | .error _ => Within n k h st

theorem recvPrompt (ch : Channel) (within : Within n k h st) :
    watching.Leaves (Few n k) (Came n k h) st (recvSome ch n) := by
  have again : ∀ event, watching.Leaves (Few n k) (Came n k h) (idle h) (recvAgain ch.fd event) := by
    intro event
    refine leavesThen (waitIdle (usesWait (.inr rfl) (fun _ _ => .inl trivial) event 1000)) ?_
    rintro st rc rfl
    split <;> exact leavesPure idleWithin
  have got : ∀ bytes : Bytes, (⟨0 + bytes.length,0,0,false || decide (bytes ≠ []),h⟩ : Watch) =
      ⟨bytes.length,0,0,bytes ≠ [],h⟩ := fun bytes => by simp
  refine leavesSeen (leavesPure within) ?_
  rw [within.half]
  simp only [Bool.false_eq_true,if_false]
  split
  · refine leavesAsk fun read sized => ?_
    cases read with
    | moved bytes => exact leavesPure ⟨sized,got bytes⟩
    | wantRead | wantWrite => exact again _
    | failed => exact leavesPure idleWithin
  refine leavesThen (waitIdle (usesWait (.inr rfl) (fun _ _ => .inl trivial) .pollin 1000)) ?_
  rintro st rc rfl
  split
  · exact leavesPure idleWithin
  refine Setting.leavesOne fun read sized => ?_
  cases read with
  | error e => exact idleWithin
  | ok bytes => exact ⟨sized,got bytes⟩

def Over (n k : Nat) (h : Half) (st : Watch) (rc : Rc) : Prop := Within n k h st ∧ (rc = none → st.fed = false)

theorem bufferedPrompt {fd body} (inner : watching.Leaves (Few n k) (Over n k h) st body) (within : Within n k h st) :
    watching.Leaves (Few n k) (Over n k h) st (buffered fd body) := by
  refine leavesVia (Over n k h) (leavesAsk fun made _ => ?_) fun st rc ended => leavesAsk fun closed _ => ?_
  · rw [calmStill .malloc trivial]
    cases made with
    | true => exact inner
    | false => exact leavesPure ⟨within,nofun⟩
  · rw [calmStill (.fs (.close fd)) trivial]
    exact leavesPure ended

theorem seekStill (fd offset) :
    watching.Leaves (Few n k) (fun st' _ => st' = st) st (seekRest fd offset) := by
  unfold seekRest
  split
  · exact leavesPure rfl
  · refine leavesAsk fun sought _ => ?_
    rw [calmStill (.fs (.seek fd offset)) trivial]
    cases sought <;> exact leavesPure rfl

end

section
variable {h : Half}

theorem wholeEnd (whole : h.making = none) : ({ h with making := none } : Half) = h := by
  rw [← whole]

theorem retrPrompt (rounds j ch) (whole : h.making = none) :
    watching.Leaves (Few transferBuf 1) (Over transferBuf 1 h) (idle h) (transferRetr rounds j ch) := by
  refine leavesAsk fun opened _ => ?_
  cases opened with
  | error e => exact leavesPure ⟨idleWithin,nofun⟩
  | ok fd =>
    have first : watching.next (idle h) (.fs (.openFile j.path.text readonly 0)) (.ok fd) = ⟨0,0,1,false,h⟩ := by
      simp [watching,Watch.note,takes,gives,opens,feeds,Half.note,idle,readonly]
    have within : Within transferBuf 1 h ⟨0,0,1,false,h⟩ := ⟨Nat.zero_le _,Nat.zero_le _,Nat.le_refl _,rfl⟩
    rw [first]
    refine leavesAsk fun found _ => ?_
    rw [calmStill (.fs (.fstat fd)) trivial]
    have total : watching.Leaves (Few transferBuf 1) (fun st _ => st = ⟨0,0,1,false,h⟩) ⟨0,0,1,false,h⟩
        (reportTotal found) := by
      unfold reportTotal
      split
      · split
        · exact Setting.leavesOne fun _ _ => calmStill (.total _) trivial _ _
        · exact leavesPure rfl
      · exact leavesPure rfl
    refine leavesThen total ?_
    rintro _ _ rfl
    refine leavesThen (seekStill fd j.rest) ?_
    rintro _ rc rfl
    cases rc with
    | some e =>
      exact leavesCalm trivial fun _ => leavesPure ⟨within,nofun⟩
    | none =>
      refine bufferedPrompt (leavesLoop (fun st _ => Within transferBuf 1 h st) (fun _ _ held => held.few)
        (fun st sent within => ?_) rounds within) within
      refine leavesSeen (leavesPure ⟨within,nofun⟩) ?_
      rw [within.half]
      refine leavesAsk fun got sized => ?_
      match got,sized with
      | .error e,_ => exact leavesPure ⟨idleWithin,nofun⟩
      | .ok [],_ => exact leavesPure ⟨⟨Nat.zero_le _,Nat.zero_le _,Nat.zero_le _,wholeEnd whole⟩,fun _ => rfl⟩
      | .ok (b :: bytes),sized =>
        have read : Within transferBuf 1 h (watching.next (idle h) (.fs (.read fd transferBuf)) (.ok (b :: bytes))) :=
          ⟨Nat.le_trans (Nat.le_of_eq (Nat.zero_add _)) sized,Nat.zero_le _,Nat.zero_le _,rfl⟩
        refine leavesThen (sendPrompt rounds ch (b :: bytes) read sized) fun st rc sent => ?_
        cases rc with
        | some e => exact leavesPure ⟨sent.1,nofun⟩
        | none =>
          exact leavesCalm trivial fun _ => leavesPure sent.1

theorem storPrompt (rounds j ch) (known : h.absent = none) :
    watching.Leaves (Few transferBuf 1) (Over transferBuf 1 h) (idle h) (transferStor rounds j ch) := by
  refine leavesAsk fun opened _ => ?_
  cases opened with
  | error e => exact leavesPure ⟨idleWithin,nofun⟩
  | ok fd =>
    have first : watching.next (idle h) (.fs (.openFile j.path.text (storFlags j) 0o644)) (.ok fd) = ⟨0,0,1,false,h⟩ := by
      simp [watching,Watch.note,takes,gives,opens,feeds,Half.note,idle,known]
    have within : Within transferBuf 1 h ⟨0,0,1,false,h⟩ := ⟨Nat.zero_le _,Nat.zero_le _,Nat.le_refl _,rfl⟩
    rw [first]
    refine leavesThen (seekStill fd _) ?_
    rintro _ rc rfl
    cases rc with
    | some e =>
      exact leavesCalm trivial fun _ => leavesPure ⟨within,nofun⟩
    | none =>
      refine bufferedPrompt (leavesLoop (fun st _ => Within transferBuf 1 h st) (fun _ _ held => held.few)
        (fun st stored within => ?_) rounds within) within
      refine leavesSeen (leavesPure ⟨within,nofun⟩) ?_
      rw [within.half]
      refine leavesThen (recvPrompt ch idleWithin) fun st got held => ?_
      split
      · exact leavesPure held
      · exact leavesPure ⟨held,nofun⟩
      · obtain ⟨-,rfl⟩ := held
        exact leavesPure ⟨⟨Nat.zero_le _,Nat.zero_le _,Nat.zero_le _,rfl⟩,fun _ => by simp⟩
      rename_i bytes _
      obtain ⟨short,rfl⟩ := held
      refine leavesThen (writePrompt rounds fd bytes ⟨short,Nat.zero_le _,Nat.zero_le _,rfl⟩ (by simpa using short))
        fun st rc within => ?_
      cases rc with
      | some e => exact leavesPure ⟨within,nofun⟩
      | none =>
        exact leavesCalm trivial fun _ => leavesPure within

end

section
variable {h : Half} {st : Watch}

theorem lineShort (s j de) : (listLine s j de).length ≤ batchSize := by
  have short : ∀ text, (snprintf 1024 text).length ≤ batchSize := fun text =>
    Nat.le_trans (snprintfLength 1024 text) (by decide)
  unfold listLine
  split
  · exact short _
  · split <;> exact short _

theorem flushPrompt (rounds ch) {b} (within : Within batchSize 1 h st) (short : b.lines.length ≤ batchSize) :
    watching.Leaves (Few batchSize 1)
      (fun st' b' => Within batchSize 1 h st' ∧ b'.lines = [] ∧
        (b'.rc = none → st'.fed = false ∨ (b.rc = none ∧ b.lines = [] ∧ st' = st))) st (listFlush rounds ch b) := by
  unfold listFlush
  split
  · rename_i empty
    exact leavesPure ⟨within,empty,fun none_ => .inr ⟨none_,empty,rfl⟩⟩
  rename_i filled
  refine leavesThen (sendPrompt rounds ch b.lines within short) fun st' rc sent => ?_
  split
  · rename_i none_
    exact leavesCalm trivial fun _ => leavesPure ⟨sent.1,rfl,fun _ => .inl ((sent.2 none_).resolve_left filled)⟩
  · rename_i code
    exact leavesPure ⟨sent.1,rfl,fun none_ => absurd none_ code⟩

theorem listRoundPrompt (rounds s j ch dir) {b} (within : Within batchSize 1 h st)
    (short : b.lines.length ≤ batchSize) :
    watching.Leaves (Few batchSize 1) (fun st next => Sum.elim
      (fun b : Batch => Within batchSize 1 h st ∧ b.lines.length ≤ batchSize)
      (fun b : Batch => Within batchSize 1 h st ∧ b.lines.length ≤ batchSize ∧ (b.rc = none → st.fed = false)) next) st
      (listRound rounds s j ch dir b) := by
  refine leavesSeen (leavesPure ⟨within,short,nofun⟩) ?_
  rw [within.half]
  refine leavesAsk fun entry _ => ?_
  match entry with
  | .error e => exact leavesPure ⟨idleWithin,short,nofun⟩
  | .ok none => exact leavesPure ⟨idleWithin,short,fun _ => rfl⟩
  | .ok (some de) =>
    have read : Within batchSize 1 h (watching.next (idle h) (.fs (.readdir dir)) (.ok (some de))) :=
      ⟨Nat.zero_le _,Nat.zero_le _,Nat.zero_le _,rfl⟩
    generalize watching.next (idle h) (.fs (.readdir dir)) (.ok (some de)) = st at read
    refine leavesVia (fun st (b : Batch) => Within batchSize 1 h st ∧ (b.lines ++ listLine s j de).length ≤ batchSize) ?_
      fun st b held => ?_
    · split
      · refine leavesPost (fun st b held => ⟨held.1,?_⟩) (flushPrompt rounds ch read short)
        rw [held.2.1]
        exact lineShort s j de
      rename_i room
      refine leavesPure ⟨read,?_⟩
      rw [List.length_append]
      omega
    split
    · rename_i code
      refine leavesPure ⟨held.1,?_,fun none_ => absurd none_ code⟩
      have both := held.2
      rw [List.length_append] at both
      omega
    · exact leavesPure held

theorem lineFilled (body) : snprintf 1024 (body ++ crlf) ≠ [] := by simp [snprintf,crlf]

theorem fileFilled (s : Server) (j : Job) (de) :
    (if j.mlsd then mlsdFormat s.libc 1024 de else listingFormat s.libc 1024 de none) ≠ [] := by
  split <;> exact lineFilled _

structure Safe (n k : Nat) (st : Watch) : Prop where
  taken : st.taken ≤ n
  given : st.given ≤ n
  opened : st.opened ≤ k
  whole : st.half.making = none

theorem lowSafe {n k fed} (whole : h.making = none) : Safe n k ⟨0,0,0,fed,h⟩ :=
  ⟨Nat.zero_le _,Nat.zero_le _,Nat.zero_le _,whole⟩

theorem Within.safe {n k} (within : Within n k h st) (whole : h.making = none) : Safe n k st :=
  ⟨within.taken,within.given,within.opened,by rw [within.half,whole]⟩

theorem Safe.within {n k} (safe : Safe n k st) : Within n k st.half st :=
  ⟨safe.taken,safe.given,safe.opened,rfl⟩

def Ended (n k : Nat) (st : Watch) (rc : Rc) : Prop := Safe n k st ∧ (rc = none → st.fed = false)

theorem listPrompt (rounds s j ch) (whole : h.making = none) :
    watching.Leaves (Few batchSize 1) (Ended batchSize 1) (idle h) (transferList rounds s j ch) := by
  refine leavesAsk fun found _ => ?_
  cases found with
  | error e => exact leavesPure ⟨lowSafe whole,nofun⟩
  | ok st =>
    have first : Within batchSize 1 { h with absent := none } (watching.next (idle h) (.fs (.stat j.path.text)) (.ok st)) :=
      ⟨Nat.zero_le _,Nat.zero_le _,Nat.zero_le _,rfl⟩
    dsimp only
    split
    · have short : (if j.mlsd then mlsdFormat s.libc 1024 (direntOf j.path.text st)
          else listingFormat s.libc 1024 (direntOf j.path.text st) none).length ≤ batchSize := by
        split <;> exact Nat.le_trans (snprintfLength 1024 _) (by decide)
      refine leavesThen (flushPrompt rounds ch first short) fun st' b held => leavesPure ⟨held.1.safe whole,fun none_ => ?_⟩
      rcases held.2.2 none_ with calm | ⟨-,empty,-⟩
      · exact calm
      · exact absurd empty (fileFilled s j _)
    refine leavesAsk fun opened _ => ?_
    cases opened with
    | error e => exact leavesPure ⟨lowSafe whole,nofun⟩
    | ok dir =>
      have inside : Within batchSize 1 { h with absent := none } (watching.next (watching.next (idle h)
          (.fs (.stat j.path.text)) (.ok st)) (.fs (.opendir j.path.text)) (.ok dir)) :=
        ⟨Nat.zero_le _,Nat.zero_le _,Nat.le_refl _,rfl⟩
      refine leavesVia (fun st (b : Batch) => Within batchSize 1 { h with absent := none } st ∧
        b.lines.length ≤ batchSize ∧ (b.rc = none → st.fed = false)) (leavesLoop (fun st (b : Batch) =>
          Within batchSize 1 { h with absent := none } st ∧ b.lines.length ≤ batchSize) (fun _ _ held => held.1.few)
          (fun st b held => listRoundPrompt rounds s j ch dir held.1 held.2) rounds ⟨inside,Nat.zero_le _⟩)
        fun st b held => ?_
      refine leavesThen (flushPrompt rounds ch held.1 held.2.1) fun st' b' flushed => leavesAsk fun closed _ => ?_
      rw [calmStill (.fs (.closedir dir)) trivial]
      refine leavesPure ⟨flushed.1.safe whole,fun none_ => ?_⟩
      rcases flushed.2.2 none_ with calm | ⟨well,-,rfl⟩
      · exact calm
      · exact held.2.2 well

end

section
variable {h : Half} {st : Watch}

def Copied (h : Half) (st : Watch) (rc : Rc) : Prop :=
  (rc = none ∧ st.fed = false ∧ Within transferBuf 2 { h with making := none } st) ∨ (rc ≠ none ∧ Within transferBuf 2 h st)

theorem bytesPrompt (rounds input output moved) (within : Within transferBuf 2 h st) :
    watching.Leaves (Few transferBuf 2) (fun st result => Copied h st result.2) st
      (copyBytes rounds input output moved) := by
  refine leavesVia (fun st result => Copied h st result.2) (leavesAsk fun made _ => ?_) fun st result copied =>
    leavesAsk fun one _ => leavesAsk fun two _ => ?_
  · rw [calmStill .malloc trivial]
    cases made with
    | false => exact leavesPure (.inr ⟨by simp,within⟩)
    | true =>
      refine leavesLoop (fun st _ => Within transferBuf 2 h st) (fun _ _ held => held.few) (fun st moved within => ?_)
        rounds within
      refine leavesSeen (leavesPure (.inr ⟨by simp,within⟩)) ?_
      rw [within.half]
      refine leavesAsk fun got sized => ?_
      match got,sized with
      | .error e,_ => exact leavesPure (.inr ⟨by simp,idleWithin⟩)
      | .ok [],_ => exact leavesPure (.inl ⟨rfl,rfl,⟨Nat.zero_le _,Nat.zero_le _,Nat.zero_le _,rfl⟩⟩)
      | .ok (b :: bytes),sized =>
        have read : Within transferBuf 2 h (watching.next (idle h) (.fs (.read input transferBuf)) (.ok (b :: bytes))) :=
          ⟨Nat.le_trans (Nat.le_of_eq (Nat.zero_add _)) sized,Nat.zero_le _,Nat.zero_le _,rfl⟩
        refine leavesThen (writePrompt rounds output (b :: bytes) read
          (Nat.le_trans (Nat.le_of_eq (Nat.zero_add _)) sized)) fun st rc within => ?_
        cases rc with
        | some e => exact leavesPure (.inr ⟨by simp,within⟩)
        | none =>
          exact leavesCalm trivial fun _ => leavesPure within
  · rw [calmStill (.fs (.close input)) trivial,calmStill (.fs (.close output)) trivial]
    exact leavesPure copied

structure Fresh (st : Watch) : Prop where
  taken : st.taken = 0
  given : st.given = 0
  opened : st.opened = 0
  whole : st.half.making = none

theorem Fresh.safe (fresh : Fresh st) : Safe transferBuf 2 st :=
  ⟨by simp [fresh.taken],by simp [fresh.given],by simp [fresh.opened],fresh.whole⟩

theorem filePrompt (rounds src dst moved) (fresh : Fresh st) :
    watching.Leaves (Few transferBuf 2) (fun st result => Ended transferBuf 2 st result.2) st
      (copyFile rounds src dst moved) := by
  obtain ⟨taken,given,opened,fed,half⟩ := st
  obtain ⟨rfl,rfl,rfl,whole⟩ := fresh
  refine leavesAsk fun opened _ => ?_
  cases opened with
  | error e => exact leavesPure ⟨lowSafe whole,nofun⟩
  | ok input =>
    have first : watching.next ⟨0,0,0,fed,half⟩ (.fs (.openFile src readonly 0)) (.ok input) = ⟨0,0,1,fed,half⟩ := by
      simp [watching,Watch.note,takes,gives,opens,feeds,Half.note,readonly]
    rw [first]
    refine leavesAsk fun found _ => leavesAsk fun created _ => ?_
    cases created with
    | error e =>
      refine leavesAsk fun closed _ => ?_
      rw [calmStill (.fs (.close input)) trivial]
      cases found <;>
        exact leavesPure ⟨⟨Nat.zero_le _,Nat.zero_le _,Nat.le_succ 1,whole⟩,nofun⟩
    | ok output =>
      -- a destination that was not found is half made from here on
      have second : ∃ h, (present found = true → h.making = none) ∧ (present found = false → h.making = some dst) ∧
          Within transferBuf 2 h (watching.next (watching.next ⟨0,0,1,fed,half⟩ (.fs (.stat dst)) found)
            (.fs (.openFile dst copyFlags 0o644)) (.ok output)) := by
        cases found with
        | error e =>
          refine ⟨⟨none,some dst⟩,by simp [present],by simp,⟨Nat.zero_le _,Nat.zero_le _,Nat.le_refl _,?_⟩⟩
          simp [watching,Watch.note,Half.note,copyFlags]
        | ok stat =>
          refine ⟨{ half with absent := none },fun _ => whole,by simp [present],
            ⟨Nat.zero_le _,Nat.zero_le _,Nat.le_refl _,?_⟩⟩
          simp [watching,Watch.note,Half.note]
      obtain ⟨h,kept,made,within⟩ := second
      refine leavesThen (bytesPrompt rounds input output moved within) fun st result copied => ?_
      obtain ⟨moved,rc⟩ := result
      refine leavesVia (fun st _ => Ended transferBuf 2 st rc) ?_ fun st _ ended => leavesPure ended
      unfold removeNew
      rcases copied with ⟨none_,calm,within⟩ | ⟨code,within⟩
      · rw [if_neg (fun both => both.1 none_)]
        exact leavesPure ⟨within.safe rfl,fun _ => calm⟩
      cases existed : present found with
      | true =>
        rw [if_neg (by simp)]
        exact leavesPure ⟨within.safe (kept existed),fun none_ => absurd none_ code⟩
      | false =>
        rw [if_pos ⟨code,by simp⟩]
        refine leavesAsk fun removed _ => leavesPure ⟨⟨within.taken,within.given,within.opened,?_⟩,
          fun none_ => absurd none_ code⟩
        simp [watching,Watch.note,Half.note,within.half,made existed]

theorem entryPrompt (rounds j d de w) (fresh : Fresh st) :
    watching.Leaves (Few transferBuf 2) (fun st next => Sum.elim (fun _ => Safe transferBuf 2 st)
      (fun w => Safe transferBuf 2 st ∧ w.rc ≠ none) next) st (copyEntry rounds j d de w) := by
  unfold copyEntry
  split
  · exact leavesPure ⟨fresh.safe,by simp⟩
  split
  · split
    · exact leavesPure ⟨fresh.safe,by simp⟩
    refine leavesAsk fun made _ => ?_
    rw [calmStill .malloc trivial]
    cases made with
    | true => exact leavesPure fresh.safe
    | false => exact leavesPure ⟨fresh.safe,by simp⟩
  split
  · split
    · refine leavesThen (filePrompt rounds _ _ w.moved fresh) fun st result ended => ?_
      obtain ⟨moved,rc⟩ := result
      cases rc with
      | none => exact leavesPure ended.1
      | some e => exact leavesPure ⟨ended.1,by simp⟩
    · exact leavesPure ⟨fresh.safe,by simp⟩
  · exact leavesPure fresh.safe

theorem idleFresh (whole : h.making = none) : Fresh (idle h) := ⟨rfl,rfl,rfl,whole⟩

theorem dirPrompt (rounds j d dir w) (safe : Safe transferBuf 2 st) :
    watching.Leaves (Few transferBuf 2) (fun st w => Ended transferBuf 2 st w.rc) st
      (Bounded.loop (copyDirRound rounds j d dir) rounds w) := by
  refine leavesLoop (fun st _ => Safe transferBuf 2 st) (fun _ _ held => held.within.few) (fun st w safe => ?_) rounds safe
  refine leavesSeen (leavesPure ⟨safe,nofun⟩) ?_
  refine leavesAsk fun entry _ => ?_
  match entry with
  | .error e => exact leavesPure ⟨(idleFresh safe.whole).safe,nofun⟩
  | .ok none => exact leavesPure ⟨(idleFresh safe.whole).safe,fun _ => rfl⟩
  | .ok (some de) =>
    have fresh : Fresh (watching.next (idle st.half) (.fs (.readdir dir)) (.ok (some de))) := ⟨rfl,rfl,rfl,safe.whole⟩
    dsimp only
    split
    · exact leavesPure fresh.safe
    refine leavesPost ?_ (entryPrompt rounds j d de w fresh)
    rintro st (w | w) held
    · exact held
    · exact ⟨held.1,fun none_ => absurd none_ held.2⟩

theorem ensurePrompt (path) (fresh : Fresh st) :
    watching.Leaves (Few transferBuf 2) (fun st _ => st.taken = 0 ∧ st.given = 0 ∧ st.opened ≤ 1 ∧ st.half.making = none) st
      (ensureDir path) := by
  obtain ⟨taken,given,opened,fed,half⟩ := st
  obtain ⟨rfl,rfl,rfl,whole⟩ := fresh
  refine leavesAsk fun found _ => ?_
  cases found with
  | ok stat => exact leavesPure ⟨rfl,rfl,Nat.zero_le _,whole⟩
  | error e =>
    refine leavesAsk fun made _ => ?_
    cases made with
    | ok _ => exact leavesPure ⟨rfl,rfl,Nat.le_refl _,whole⟩
    | error e => exact leavesPure ⟨rfl,rfl,Nat.zero_le _,whole⟩

def Walks (st : Watch) (w : Walk) : Prop := Safe transferBuf 2 st ∧ (w.stack = [] → w.rc = none → st.fed = false)

theorem treeRoundPrompt (rounds j) {w} (walks : Walks st w) :
    watching.Leaves (Few transferBuf 2) (fun st next => Sum.elim (Walks st) (fun w => Ended transferBuf 2 st w.rc) next) st
      (copyTreeRound rounds j w) := by
  unfold copyTreeRound
  split
  · rename_i empty
    exact leavesPure ⟨walks.1,walks.2 empty⟩
  rename_i d stack _
  refine leavesSeen (leavesPure ⟨walks.1,nofun⟩) ?_
  have fresh : Fresh (idle st.half) := idleFresh walks.1.whole
  simp
  split
  · rename_i src dst _ _
    refine leavesThen (ensurePrompt dst fresh) fun st rc held => ?_
    obtain ⟨taken,given,opened,whole⟩ := held
    have safe : Safe transferBuf 2 st := ⟨by simp [taken],by simp [given],by omega,whole⟩
    cases rc with
    | some e => exact leavesPure ⟨safe,nofun⟩
    | none =>
      refine leavesAsk fun entered _ => ?_
      cases entered with
      | error e =>
        refine leavesPure ⟨⟨?_,?_,?_,whole⟩,nofun⟩
        · exact safe.taken
        · exact safe.given
        · exact safe.opened
      | ok dir =>
        have inside : Safe transferBuf 2 (watching.next st (.fs (.opendir src)) (.ok dir)) :=
          ⟨safe.taken,safe.given,Nat.succ_le_succ opened,whole⟩
        refine leavesThen (dirPrompt rounds j d dir _ inside) fun st w ended => leavesAsk fun closed _ => ?_
        rw [calmStill (.fs (.closedir dir)) trivial]
        split
        · rename_i none_
          exact leavesPure ⟨ended.1,fun _ _ => ended.2 none_⟩
        · exact leavesPure ended
  · exact leavesPure ⟨fresh.safe,nofun⟩

theorem copyPrompt (rounds j) (whole : h.making = none) :
    watching.Leaves (Few transferBuf 2) (Ended transferBuf 2) (idle h) (transferCopy rounds j) := by
  unfold transferCopy
  split
  · exact leavesPure ⟨(idleFresh whole).safe,nofun⟩
  refine leavesAsk fun found _ => ?_
  cases found with
  | error e => exact leavesPure ⟨lowSafe whole,nofun⟩
  | ok stat =>
    have fresh : Fresh (watching.next (idle h) (.fs (.stat j.path.text)) (.ok stat)) := ⟨rfl,rfl,rfl,whole⟩
    dsimp only
    split
    · refine leavesAsk fun made _ => ?_
      rw [calmStill .malloc trivial]
      cases made with
      | false => exact leavesPure ⟨fresh.safe,nofun⟩
      | true =>
        refine leavesVia (fun st (w : Walk) => Ended transferBuf 2 st w.rc) (leavesLoop Walks
          (fun st _ walks => walks.1.within.few) (fun st w walks => treeRoundPrompt rounds j walks) rounds
          ⟨fresh.safe,nofun⟩) fun st w ended => leavesPure ended
    · refine leavesAsk fun _ _ => ?_
      rw [calmStill (.total _) trivial]
      exact leavesThen (filePrompt rounds _ _ 0 fresh) fun st result ended => leavesPure ended

end

section
variable {st : Watch} {rounds : Nat} {s : Server} {j : Job}

theorem Over.ended {n k h rc} (over_ : Over n k h st rc) (whole : h.making = none) :
    Ended n k st rc := ⟨over_.1.safe whole,over_.2⟩

theorem opPrompt (data : j.op ≠ .copy) (ch) :
    watching.Leaves (Few (chunk j) 1) (Ended (chunk j) 1) (idle unmade) (transferOp rounds s j ch) := by
  unfold transferOp
  split
  · rename_i op
    rw [show chunk j = batchSize from if_pos op]
    exact listPrompt rounds s j ch rfl
  all_goals
    rename_i op
    first
    | contradiction
    | rw [show chunk j = transferBuf from if_neg (by simp [op])]
  · exact leavesPost (fun _ _ ended => ended.ended rfl) (retrPrompt rounds j ch rfl)
  · exact leavesPost (fun _ _ ended => ended.ended rfl) (storPrompt rounds j ch rfl)
  · exact leavesPost (fun _ _ ended => ended.ended rfl) (storPrompt rounds j ch rfl)

theorem overPrompt (data : j.op ≠ .copy) (fd : Fd) :
    watching.Leaves (Few (chunk j) 1) (Ended (chunk j) 1) (idle unmade) (transferOver rounds s j fd) := by
  unfold transferOver
  split
  · exact opPrompt data _
  refine leavesThen (waitIdle (makesSetup (fun _ _ => .inl trivial) (.inr rfl) (.inl trivial) (fun _ => .inl trivial)
    (.inl trivial) s).1) ?_
  rintro _ ⟨session,rc⟩ rfl
  refine leavesVia (Ended (chunk j) 1) ?_ fun st rc ended => ?_
  · split
    · exact opPrompt data _
    · rename_i code
      exact leavesPure ⟨lowSafe rfl,fun none_ => absurd none_ code⟩
  refine leavesVia (fun st' _ => st' = st) ?_ ?_
  · split
    · refine leavesUses (g := Calm) (usesShutdown (fun _ _ => trivial) trivial trivial rc) ?_ ?_ rfl
      · rintro _ rfl
        exact ended.1.within.few
      · rintro _ call answer rfl calm _
        exact calmStill call calm _ answer
    · exact leavesPure rfl
  · rintro _ _ rfl
    exact leavesPure ended

theorem runPrompt (data : j.op ≠ .copy) :
    watching.Leaves (Few (chunk j) 1) (fun st p => Ended (chunk j) 1 st p.result) (idle unmade) (transferRun rounds s j) := by
  unfold transferRun
  rw [if_neg data]
  refine leavesThen (waitIdle (usesConnect (.inr rfl) (fun _ _ _ => .inl trivial) (fun _ => .inl trivial)
    (fun _ => .inl trivial) (fun _ _ => .inl trivial) (fun _ => .inl trivial) s j)) ?_
  rintro _ connected rfl
  cases connected with
  | failed dataFd e =>
    exact leavesPure ⟨lowSafe rfl,nofun⟩
  | up fd => exact leavesThen (overPrompt data fd) fun st rc ended => leavesPure ended

theorem copyRunPrompt (copies : j.op = .copy) :
    watching.Leaves (Few (chunk j) 2) (fun st p => Ended (chunk j) 2 st p.result) (idle unmade) (transferRun rounds s j) := by
  unfold transferRun chunk
  rw [copies]
  exact leavesThen (copyPrompt rounds j rfl) fun st rc ended => leavesPure ended

end

section
variable {before after : Work.Trace}

theorem sizedGenuine {trace} (sized : ∀ e ∈ trace, Sized e.1 e.2) (st) : watching.Genuine st trace := by
  induction trace generalizing st with
  | nil => exact trivial
  | cons e rest ih => exact ⟨sized e List.mem_cons_self,ih (fun x member => sized x (List.mem_cons_of_mem _ member)) _⟩

theorem halfAfter (trace st) : (watching.after st trace).half = trace.foldl (fun h e => h.note e.1 e.2) st.half := by
  induction trace generalizing st with
  | nil => rfl
  | cons e rest ih =>
    have step : (watching.next st e.1 e.2).half = st.half.note e.1 e.2 := by
      obtain ⟨call,answer⟩ := e
      cases call with
      | cancelled => cases answer <;> rfl
      | _ => rfl
    show (watching.after (watching.next st e.1 e.2) rest).half = _
    rw [ih,step]
    rfl

theorem countedAfter (seen : ∀ seen, (⟨.cancelled,seen⟩ : Exchange Work.Answer) ∈ after → seen = true) (st) :
    (watching.after st after).taken = st.taken + total takes after ∧
      (watching.after st after).given = st.given + total gives after ∧
      (watching.after st after).opened = st.opened + total opens after ∧
      ((watching.after st after).fed = false → st.fed = false ∧ ∀ e ∈ after, feeds e.1 e.2 = false) := by
  induction after generalizing st with
  | nil => exact ⟨rfl,rfl,rfl,fun calm => ⟨calm,by simp⟩⟩
  | cons e rest ih =>
    have step : watching.next st e.1 e.2 = ⟨st.taken + takes e.1 e.2,st.given + gives e.1 e.2,st.opened + opens e.1 e.2,
        st.fed || feeds e.1 e.2,st.half.note e.1 e.2⟩ := by
      obtain ⟨call,answer⟩ := e
      cases call with
      | cancelled =>
        cases seen answer List.mem_cons_self
        rfl
      | _ => rfl
    obtain ⟨taken,given,opened,fed⟩ := ih (fun b member => seen b (List.mem_cons_of_mem _ member))
      (watching.next st e.1 e.2)
    rw [step] at taken given opened fed
    have first : watching.after st (e :: rest) = watching.after (watching.next st e.1 e.2) rest := rfl
    rw [first,step]
    refine ⟨?_,?_,?_,fun calm => ?_⟩
    · rw [taken,Nat.add_assoc]
      rfl
    · rw [given,Nat.add_assoc]
      rfl
    · rw [opened,Nat.add_assoc]
      rfl
    · obtain ⟨here,later⟩ := fed calm
      obtain ⟨calm,quiet⟩ := Bool.or_eq_false_iff.mp here
      exact ⟨calm,List.forall_mem_cons.mpr ⟨quiet,later⟩⟩

theorem endedPrompt {rounds s j k out}
    (each : watching.Leaves (Few (chunk j) k) (fun st p => Ended (chunk j) k st p.result) (idle unmade) (transferRun rounds s j))
    (run : Program.Runs (transferRun rounds s j) (before ++ after) out) (sized : ∀ e ∈ before ++ after, Sized e.1 e.2)
    (visible : Visible before after) : Prompt j k before after out := by
  have held := Setting.yieldsRuns each run (sizedGenuine sized _)
  have whole : halfMade (before ++ after) = (watching.after (idle unmade) (before ++ after)).half.making := by
    rw [halfAfter]
    rfl
  have split : watching.after (idle unmade) (before ++ after) = watching.after (watching.after (idle unmade) before) after := by
    rw [Setting.after,List.foldl_append]
    rfl
  obtain ⟨taken,given,opened,fed⟩ := countedAfter visible.2 (watching.after (idle unmade) before)
  rw [← split] at taken given opened fed
  have few : Few (chunk j) k (watching.after (idle unmade) (before ++ after)) := by
    cases out with
    | none => exact held
    | some p => exact held.1.within.few
  obtain ⟨h,within⟩ := few
  refine ⟨?_,?_,?_,fun complete => ?_,?_⟩
  · have := within.taken
    omega
  · have := within.given
    omega
  · have := within.opened
    omega
  · cases out with
    | none => exact absurd rfl complete
    | some p => exact whole.trans held.1.whole
  · rintro p rfl success
    exact (fed (held.2 success)).2

end

def Copies (j : Job) : Prop := j.op = .copy ∧ j.path ≠ j.dst

def pressing : (call : Work) → call.Answer
  | .cancelled => true
  | .fs (.stat _) => .ok ⟨0o100644,0,0,0,0⟩
  | call => smoothly call

theorem pressingOpens (s) {j} (copies : Copies j) :
    ∃ rest, (Program.play pressing (transferRun 1 s j)).1 =
      ⟨.fs (.stat j.path.text),.ok ⟨0o100644,0,0,0,0⟩⟩ :: ⟨.total 0,()⟩ ::
      ⟨.fs (.openFile j.path.text readonly 0),.ok 5⟩ :: ⟨.fs (.stat j.dst.text),.ok ⟨0o100644,0,0,0,0⟩⟩ ::
      ⟨.fs (.openFile j.dst.text copyFlags 0o644),.ok 5⟩ :: rest := by
  obtain ⟨op,differ⟩ := copies
  rw [transferRun,if_pos op,transferCopy,if_neg differ]
  exact ⟨_,rfl⟩

theorem pressingSized (s j) : ∀ e ∈ (Program.play pressing (transferRun 1 s j)).1, Sized e.1 e.2 := by
  intro e member
  rw [Program.playAnswers pressing _ e member]
  obtain ⟨call,answer⟩ := e
  cases call with
  | fs call => cases call <;> first | exact trivial | exact Nat.zero_le _
  | _ => first | exact trivial | exact Nat.zero_le _

theorem pressingVisible (s j) : Visible [] (Program.play pressing (transferRun 1 s j)).1 :=
  ⟨fun _ member => absurd member List.not_mem_nil,fun _ member => Program.playAnswers pressing _ _ member⟩

theorem pressingSlow (s) {j} (copies : Copies j) :
    ¬ Prompt j 1 [] (Program.play pressing (transferRun 1 s j)).1 (Program.play pressing (transferRun 1 s j)).2 := by
  intro prompt
  obtain ⟨rest,same⟩ := pressingOpens s copies
  have opened := prompt.opened
  rw [same] at opened
  simp only [total,List.map_cons,List.sum_cons,opens] at opened
  omega

theorem samePrompt {rounds} (s) {j} (copies : j.op = .copy) (same : j.path = j.dst) :
    watching.Leaves (Few (chunk j) 1) (fun st p => Ended (chunk j) 1 st p.result) (idle unmade) (transferRun rounds s j) := by
  rw [transferRun,if_pos copies,transferCopy,if_pos same]
  exact leavesPure ⟨lowSafe rfl,nofun⟩

theorem Prompt.more {j before after out k k'} (le : k ≤ k') (prompt : Prompt j k before after out) :
    Prompt j k' before after out :=
  { prompt with opened := Nat.le_trans prompt.opened le }

theorem reactsPromptly (s : Server) (j : Job) :
    (∀ rounds before after out, Program.Runs (transferRun rounds s j) (before ++ after) out →
      (∀ e ∈ before ++ after, Sized e.1 e.2) → Visible before after → Prompt j 2 before after out) ∧
    ((∀ rounds before after out, Program.Runs (transferRun rounds s j) (before ++ after) out →
      (∀ e ∈ before ++ after, Sized e.1 e.2) → Visible before after → Prompt j 1 before after out) ↔ ¬ Copies j) := by
  have single : ¬ Copies j → ∀ rounds before after out, Program.Runs (transferRun rounds s j) (before ++ after) out →
      (∀ e ∈ before ++ after, Sized e.1 e.2) → Visible before after → Prompt j 1 before after out := by
    intro other rounds before after out run sized visible
    by_cases copies : j.op = .copy
    · have same : j.path = j.dst := by_contra fun differ => other ⟨copies,differ⟩
      exact endedPrompt (samePrompt s copies same) run sized visible
    · exact endedPrompt (runPrompt copies) run sized visible
  refine ⟨fun rounds before after out run sized visible => ?_,fun all copies => ?_,single⟩
  · by_cases copies : Copies j
    · exact endedPrompt (copyRunPrompt copies.1) run sized visible
    · exact (single copies rounds before after out run sized visible).more (Nat.le_succ 1)
  · exact pressingSlow s copies (all 1 [] _ _ (Program.playRuns pressing _) (pressingSized s j) (pressingVisible s j))

def smallCopy : Job := { smallJob with op := .copy, dst := Buffer.print _ (ascii "/b") }

theorem copyOpensTwo : ∃ rounds before after out,
    Program.Runs (transferRun rounds house smallCopy) (before ++ after) out ∧
    (∀ e ∈ before ++ after, Sized e.1 e.2) ∧ Visible before after ∧ total opens after = 2 ∧
    ¬ Prompt smallCopy 1 before after out :=
  ⟨1,[],_,_,Program.playRuns pressing (transferRun 1 house smallCopy),
    pressingSized house smallCopy,pressingVisible house smallCopy,
    by decide +kernel,pressingSlow house ⟨rfl,by decide⟩⟩

end OpenPs3Ftp.Reaction
