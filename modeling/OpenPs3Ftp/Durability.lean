import OpenPs3Ftp.Worker.Calls
import OpenPs3Ftp.Verdict

/-! Backend errors on the file a job writes. Uploads and copies pass on every error that
opening, seeking and writing report; what closing reports is thrown away, also where a
backend keeps its errors until then. -/
namespace OpenPs3Ftp.Durability
open Lib Text Fs Session Events Worker
open Bounded (Keeps keepsPure keepsBind keepsMono keepsLoop Uses usesKeeps)
open Verdict (tellsVerdict repliesVisitor)

/- Files are open for writing from `outs`. Removing is a call on the destination too. -/
def onTarget (outs : List Fd) : Work → Bool
  | .fs (.openFile _ flags _) => flags.access ≠ .rdonly
  | .fs (.write fd _) | .fs (.seek fd _) | .fs (.close fd) => fd ∈ outs
  | .fs (.unlink _) => true
  | _ => false

def outsAfter (outs : List Fd) : (call : Work) → call.Answer → List Fd
  | .fs (.openFile _ flags _),.ok fd => if flags.access ≠ .rdonly then fd :: outs else outs
  | .fs (.close fd),_ => outs.erase fd
  | _,_ => outs

def targets (outs : List Fd) : Work.Trace → Work.Trace
  | [] => []
  | e :: rest =>
    if onTarget outs e.1 then e :: targets (outsAfter outs e.1 e.2) rest else targets (outsAfter outs e.1 e.2) rest

def closes : Work → Bool
  | .fs (.close _) => true
  | _ => false

def succeeded : (call : Work) → call.Answer → Bool
  | .fs call,answer => call.error answer = none
  | _,_ => true

structure Ledger where
  outs : List Fd
  bad : Bool

def fails (outs : List Fd) (call : Work) (answer : call.Answer) : Bool :=
  onTarget outs call && !closes call && !succeeded call answer

def Ledger.note (r : Ledger) (call : Work) (answer : call.Answer) : Ledger :=
  ⟨outsAfter r.outs call answer,r.bad || fails r.outs call answer⟩

theorem notedTargets (trace outs bad) :
    (Program.noted Ledger.note ⟨outs,bad⟩ trace).bad = false ↔
      bad = false ∧ ∀ e ∈ targets outs trace, closes e.1 = false → succeeded e.1 e.2 = true := by
  induction trace generalizing outs bad with
  | nil => simp [Program.noted,targets]
  | cons e rest ih =>
    have first : Program.noted Ledger.note ⟨outs,bad⟩ (e :: rest) =
        Program.noted Ledger.note ⟨outsAfter outs e.1 e.2,bad || fails outs e.1 e.2⟩ rest := rfl
    rw [first,ih,targets,fails]
    split
    · rename_i on
      simp only [on,List.forall_mem_cons,Bool.or_eq_false_iff,Bool.true_and]
      cases closes e.1 <;> simp [and_assoc]
    · rename_i off
      simp [off]

abbrev Holds {α : Type} (post : Ledger → α → Prop) (r : Ledger) (p : Routine α) : Prop :=
  Keeps (fun _ _ => True) Ledger.note (fun _ _ => True) post r p

def Fine (r : Ledger) (rc : Rc) : Prop := rc = none → r.bad = false

section Rules
variable {α : Type} {post : Ledger → α → Prop} {r : Ledger}

theorem holdsAsk {call k} (next : ∀ answer, Holds post (r.note call answer) (k answer)) :
    Holds post r (perform call >>= k) := Bounded.keepsAsk trivial fun answer _ => next answer

theorem holdsThen {β : Type} {first : Ledger → β → Prop} {p} {f : β → Routine α} (one : Holds first r p)
    (next : ∀ r b, first r b → Holds post r (f b)) : Holds post r (p >>= f) := keepsBind (keepsMono next one)

theorem notedCalm (call answer) (good : r.bad = false) (calm : fails r.outs call answer = false) :
    (r.note call answer).bad = false := by
  rw [Ledger.note,good,calm]
  rfl

theorem holdsCalm {call k} (good : r.bad = false) (calm : ∀ outs answer, fails outs call answer = false)
    (next : ∀ answer r, r.bad = false → Holds post r (k answer)) : Holds post r (perform call >>= k) :=
  holdsAsk fun answer => next answer _ (notedCalm call answer good (calm _ answer))

def Elsewhere : Work → Prop
  | .fs (.openFile _ flags _) => flags.access = .rdonly
  | .fs (.write ..) | .fs (.seek ..) | .fs (.unlink _) => False
  | _ => True

theorem elsewhereCalm (call) (other : Elsewhere call) (outs answer) : fails outs call answer = false := by
  unfold fails
  cases call with
  | fs call => cases call <;> simp_all [Elsewhere,onTarget,closes]
  | _ => rfl

theorem elsewhereHolds {p : Routine α} (uses : Uses Elsewhere p) (good : r.bad = false) :
    Holds (fun r _ => r.bad = false) r p :=
  usesKeeps uses (fun _ _ good other => ⟨trivial,fun answer => notedCalm _ _ good (elsewhereCalm _ other _ answer)⟩) good

end Rules

section Jobs
variable {r : Ledger}

theorem succeededCalm {call answer} (well : succeeded call answer = true) (outs) :
    fails outs call answer = false := by simp [fails,well]

theorem writeFine (rounds fd bytes) (good : r.bad = false) : Holds Fine r (fsWriteAll rounds fd bytes) := by
  refine keepsLoop (fun r _ => r.bad = false) (fun r rest good => ?_) rounds good
  unfold writeRound
  split
  · exact keepsPure.mpr fun _ => good
  refine holdsAsk fun wrote => ?_
  match wrote with
  | .error e | .ok 0 => exact keepsPure.mpr nofun
  | .ok (n + 1) => exact keepsPure.mpr (notedCalm _ _ good (succeededCalm rfl _))

theorem closeFine {rc} (fd answer) (fine : Fine r rc) : Fine (r.note (.fs (.close fd)) answer) rc :=
  fun well => notedCalm _ _ (fine well) (elsewhereCalm (.fs (.close fd)) trivial _ answer)

theorem recvUses (ch size) : Uses Elsewhere (recvSome ch size) := by
  refine (makesRecv (n := 0) trivial (fun _ _ => trivial) (fun call moves => ?_) size).1
  cases call <;> first | exact trivial | exact moves.elim

theorem storFine (rounds : Nat) (j : Job) (ch : Channel) (good : r.bad = false) :
    Holds Fine r (transferStor rounds j ch) := by
  refine holdsAsk fun opened => ?_
  cases opened with
  | error e => exact keepsPure.mpr nofun
  | ok fd =>
    have good := notedCalm (.fs (.openFile j.path.text (storFlags j) 0o644)) (.ok fd) good (succeededCalm rfl _)
    have sought : ∀ offset, Holds Fine (r.note (.fs (.openFile j.path.text (storFlags j) 0o644)) (.ok fd))
        (seekRest fd offset) := by
      intro offset
      unfold seekRest
      split
      · exact keepsPure.mpr fun _ => good
      refine holdsAsk fun sought => ?_
      cases sought with
      | error e => exact keepsPure.mpr nofun
      | ok n => exact keepsPure.mpr fun _ => notedCalm _ _ good (succeededCalm rfl _)
    refine holdsThen (sought _) fun r rc fine => ?_
    cases rc with
    | some e => exact holdsAsk fun closed => keepsPure.mpr nofun
    | none =>
      refine holdsThen ?_ fun r rc (fine : Fine r rc) => holdsAsk fun closed => keepsPure.mpr (closeFine fd closed fine)
      refine holdsAsk fun made => ?_
      have good := notedCalm .malloc made (fine rfl) rfl
      cases made with
      | false => exact keepsPure.mpr nofun
      | true =>
        refine keepsLoop (fun r _ => r.bad = false) (fun r stored good => ?_) rounds good
        refine holdsCalm good (fun _ _ => rfl) fun cancelled r good => ?_
        cases cancelled with
        | true => exact keepsPure.mpr nofun
        | false =>
          refine holdsThen (elsewhereHolds (recvUses ch transferBuf) good) fun r got good => ?_
          split
          · exact keepsPure.mpr good
          · exact keepsPure.mpr nofun
          · exact keepsPure.mpr fun _ => good
          refine holdsThen (writeFine rounds fd _ good) fun r rc fine => ?_
          cases rc with
          | some e => exact keepsPure.mpr nofun
          | none => exact holdsAsk fun _ => keepsPure.mpr (notedCalm _ _ (fine rfl) rfl)

theorem copyBytesFine (rounds : Nat) (input output) (moved : Nat) (good : r.bad = false) :
    Holds (fun r result => Fine r result.2) r (copyBytes rounds input output moved) := by
  refine holdsThen ?_ fun r result (fine : Fine r result.2) => holdsAsk fun one => holdsAsk fun two =>
    keepsPure.mpr (closeFine output two (closeFine input one fine))
  refine holdsCalm good (fun _ _ => rfl) fun made r good => ?_
  cases made with
  | false => exact keepsPure.mpr nofun
  | true =>
    refine keepsLoop (fun r _ => r.bad = false) (fun r moved good => ?_) rounds good
    refine holdsCalm good (fun _ _ => rfl) fun cancelled r good => ?_
    cases cancelled with
    | true => exact keepsPure.mpr nofun
    | false =>
      refine holdsCalm good (fun _ _ => rfl) fun got r good => ?_
      match got with
      | .error e => exact keepsPure.mpr nofun
      | .ok [] => exact keepsPure.mpr fun _ => good
      | .ok (b :: bytes) =>
        refine holdsThen (writeFine rounds output (b :: bytes) good) fun r rc fine => ?_
        cases rc with
        | some e => exact keepsPure.mpr nofun
        | none => exact holdsAsk fun _ => keepsPure.mpr (notedCalm _ _ (fine rfl) rfl)

theorem copyFileFine (rounds : Nat) (src dst : Bytes) (moved : Nat) (good : r.bad = false) :
    Holds (fun r result => Fine r result.2) r (copyFile rounds src dst moved) := by
  refine holdsCalm good (fun _ _ => rfl) fun opened r good => ?_
  cases opened with
  | error e => exact keepsPure.mpr nofun
  | ok input =>
    refine holdsAsk fun found => holdsAsk fun opened => ?_
    have good := notedCalm (.fs (.stat dst)) found good rfl
    cases opened with
    | error e => exact holdsAsk fun _ => keepsPure.mpr nofun
    | ok output =>
      have good := notedCalm (.fs (.openFile dst copyFlags 0o644)) (.ok output) good (succeededCalm rfl _)
      refine holdsThen (copyBytesFine rounds input output moved good) fun r result fine => ?_
      obtain ⟨moved,rc⟩ := result
      have removed : Holds (fun r _ => Fine r rc) r (removeNew (present found) rc dst) := by
        unfold removeNew
        split
        · rename_i removing
          exact holdsAsk fun _ => keepsPure.mpr fun well => absurd well removing.1
        · exact keepsPure.mpr fine
      exact holdsThen removed fun r _ fine => keepsPure.mpr fine

theorem ensureCalm (path) : Uses Elsewhere (ensureDir path) := by
  refine Bounded.usesAsk trivial fun found => ?_
  cases found with
  | ok st => exact Bounded.usesPure _
  | error e =>
    refine Bounded.usesAsk trivial fun made => ?_
    cases made <;> exact Bounded.usesPure _

theorem looksElsewhere {From call} (look : Looks From call) : Elsewhere call := by
  cases call with
  | fs call => cases call <;> first | exact trivial | exact look.elim
  | _ => exact trivial

theorem copyFine (rounds : Nat) (j) (good : r.bad = false) : Holds Fine r (transferCopy rounds j) := by
  have follow : Copying (Bounded.keeping (fun _ _ => True) Ledger.note fun _ _ => True) (fun _ _ => True) j (fun _ => True)
      (fun _ => True) (fun _ => True) (fun r => r.bad = false) fun rc r => Fine r rc := {
    low := fun _ _ => trivial
    well := fun _ => ⟨fun fine => fine rfl,fun good _ => good⟩
    failed := fun _ _ _ => nofun
    source := trivial
    top := fun _ _ => by split <;> exact trivial
    child := fun _ _ _ _ _ _ _ _ => trivial
    joins := fun _ _ _ _ _ _ _ => ⟨trivial,trivial⟩
    looks := fun call r look good => keepsMono (fun _ _ good => ⟨good,trivial⟩)
      (elsewhereHolds (Bounded.usesOne (looksElsewhere look)) good)
    closes := fun dir _ _ fine =>
      ⟨trivial,fun answer _ => keepsPure.mpr fun well => notedCalm (.fs (.closedir dir)) answer (fine well) rfl⟩
    ensures := fun path r _ good => keepsMono (fun _ _ good _ => good) (elsewhereHolds (ensureCalm path) good)
    copies := fun rounds src dst moved r _ _ good => copyFileFine rounds src dst moved good }
  exact follow.whole rounds good

def Writes (j : Job) : Prop := j.op = .stor ∨ j.op = .appe ∨ j.op = .copy

theorem connectCalm (s j) : Uses Elsewhere (datachanConnectJob s j) :=
  usesConnect trivial (fun _ _ _ => trivial) (fun _ => trivial) (fun _ => trivial) (fun _ _ => trivial) (fun _ => trivial) s j

theorem opFine (rounds s) {j} (writes : Writes j) (ch) (good : r.bad = false) :
    Holds Fine r (transferOp rounds s j ch) := by
  unfold transferOp
  rcases writes with op | op | op <;> rw [op]
  · exact storFine rounds j ch good
  · exact storFine rounds j ch good
  · exact copyFine rounds j good

theorem overFine (rounds : Nat) (s : Server) {j : Job} (writes : Writes j) (fd : Fd) (good : r.bad = false) :
    Holds Fine r (transferOver rounds s j fd) := by
  unfold transferOver
  split
  · exact opFine rounds s writes _ good
  have setup : Uses Elsewhere (dataTlsSetup rounds s fd) :=
    (makesSetup (fun _ _ => trivial) trivial trivial (fun _ => trivial) trivial s).1
  refine holdsThen (elsewhereHolds setup good) fun r out good => ?_
  obtain ⟨session,rc⟩ := out
  have inner : Holds Fine r (if rc = none then transferOp rounds s j ⟨fd,true⟩ else pure rc) := by
    split
    · exact opFine rounds s writes _ good
    · exact keepsPure.mpr fun _ => good
  refine holdsThen inner fun r rc fine => ?_
  have freed : Holds (fun r _ => Fine r rc) r (if session then tlsShutdown fd rc else pure ()) := by
    split
    · refine usesKeeps (usesShutdown (g := Elsewhere) (fun _ _ => trivial) trivial trivial rc) (fun r call fine other =>
        ⟨trivial,fun answer well => notedCalm _ _ (fine well) (elsewhereCalm _ other _ answer)⟩) fine
    · exact keepsPure.mpr fine
  exact holdsThen freed fun r _ fine => keepsPure.mpr fine

theorem runFine (rounds : Nat) (s : Server) {j : Job} (writes : Writes j) (good : r.bad = false) :
    Holds (fun r p => Fine r p.result) r (transferRun rounds s j) := by
  unfold transferRun
  split
  · exact holdsThen (copyFine rounds j good) fun r rc fine => keepsPure.mpr fine
  refine holdsThen (elsewhereHolds (connectCalm s j) good) fun r connected good => ?_
  cases connected with
  | failed dataFd e => exact keepsPure.mpr nofun
  | up fd => exact holdsThen (overFine rounds s writes fd good) fun r rc fine => keepsPure.mpr fine

end Jobs

/- A job that is answered with success met no error on its destination, closes apart. -/
theorem onlyClosesUnchecked (rounds : Nat) (s : Server) (j : Job) (writes : Writes j)
    (trace : List (Exchange Work.Answer)) (p : Posted) (run : Program.Runs (transferRun rounds s j) trace (some p))
    (c c' : Client) (here : p.job.generation = c.generation) (calls : List (Exchange Answer))
    (ended : (datachanComplete p c).Runs calls c')
    (success : Verdict.Tells p.job calls 226 ∨ Verdict.Tells p.job calls 250) :
    (∀ e ∈ targets [] trace, succeeded e.1 e.2 = true) ↔
      ∀ e ∈ targets [] trace, closes e.1 = true → succeeded e.1 e.2 = true := by
  have code : p.verdict.1 = 226 ∨ p.verdict.1 = 250 :=
    success.imp (tellsVerdict ended here (by decide)).mp (tellsVerdict ended here (by decide)).mp
  have fine := (Program.meetsRuns (runFine rounds s writes (r := ⟨[],false⟩) rfl) run fun _ _ => trivial).1
  have rest := ((notedTargets trace [] false).mp (fine p rfl (verdictDone code).1)).2
  constructor
  · exact fun all e member _ => all e member
  intro closed e member
  cases close : closes e.1 with
  | true => exact closed e member close
  | false => exact rest e member close

def upload : Job := { smallJob with op := .stor }

def delaying (closed : Except Errno Unit) : Bool → (call : Work) → call.Answer × Bool
  | true,.recv .. => (.ok [1,2],false)
  | more,.fs (.write _ bytes) => (.ok bytes.length,more)
  | more,.fs (.close _) => (closed,more)
  | more,call => (smoothly call,more)

def trace (closed : Except Errno Unit) : Work.Trace :=
  ((transferRun 9 house upload).playFrom (delaying closed) true).1

theorem traceRuns (closed)
    (ended : ((transferRun 9 house upload).playFrom (delaying closed) true).2 = some ⟨upload,some 4,true,none⟩) :
    Program.Runs (transferRun 9 house upload) (trace closed) (some ⟨upload,some 4,true,none⟩) := by
  have run := Program.playFromRuns (delaying closed) true (transferRun 9 house upload)
  rwa [ended] at run

theorem onlyClosesUncheckedTwo : ((targets [] (trace (.ok ()))).any fun e => e.1 matches .fs (.write _ [1,2])) = true ∧
    ((∀ e ∈ targets [] (trace (.ok ())), succeeded e.1 e.2 = true) ↔
      ∀ e ∈ targets [] (trace (.ok ())), closes e.1 = true → succeeded e.1 e.2 = true) :=
  ⟨by decide +kernel,onlyClosesUnchecked 9 house upload (.inl rfl) _ _ (traceRuns (.ok ()) (by decide +kernel))
    visitor _ rfl _ (repliesVisitor rfl rfl rfl) (.inl ⟨_,List.mem_cons_of_mem _ List.mem_cons_self⟩)⟩

theorem closeFailsUnseen : ∃ p calls c', Program.Runs (transferRun 9 house upload) (trace (.error .eio)) (some p) ∧
    (datachanComplete p visitor).Runs calls c' ∧ Verdict.Tells upload calls 226 ∧
    ¬ ∀ e ∈ targets [] (trace (.error .eio)), succeeded e.1 e.2 = true :=
  ⟨_,_,_,traceRuns (.error .eio) (by decide +kernel),repliesVisitor rfl rfl rfl,
    ⟨_,List.mem_cons_of_mem _ List.mem_cons_self⟩,by decide +kernel⟩

end OpenPs3Ftp.Durability
