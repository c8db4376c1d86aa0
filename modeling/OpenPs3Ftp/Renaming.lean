import OpenPs3Ftp.Commands.Aim
import OpenPs3Ftp.Conversation
import OpenPs3Ftp.Recollection

/-! Sources of renames and copies. The ledger beside the session has the source that the
last RNFR or CPFR named, if that was accepted and not used since; the session keeps an
older one when the last was refused. -/
namespace OpenPs3Ftp.Renaming
open Lib Text Fs Session Commands Dispatch Program Events Recollection

structure Ledger where
  rename : Option Bytes
  copy : Option Bytes
  deriving DecidableEq

variable (s : Server) (l : Ledger) (c : Client) (p : Played)

def named : Option Bytes :=
  if codes p.trace = [decimal 350] then resolveArg { s with root := p.root } c (parameter p.turn) else none

def UsesRename : Prop := Names p.turn (ascii "RNTO") ∧ c.loggedIn = true
def UsesCopy : Prop := Names p.turn (ascii "CPTO") ∧ c.loggedIn = true ∧ c.job = none

instance (c p) : Decidable (UsesRename c p) := by unfold UsesRename; infer_instance
instance (c p) : Decidable (UsesCopy c p) := by unfold UsesCopy; infer_instance

def Ledger.note : Ledger where
  rename := if Names p.turn (ascii "RNFR") then named s c p else if UsesRename c p then none else l.rename
  copy := if Names p.turn (ascii "CPFR") then named s c p else if UsesCopy c p then none else l.copy

def sources : System (Client × Ledger) Played := (connection s).watched ⟨none,none⟩ (Ledger.note s)

def renameSource : Option Bytes := if c.haveRnfr then some c.rnfr.text else none
def copySource : Option Bytes := if c.haveCpfr then some c.cpfr.text else none
def Sound (st : Client × Ledger) : Prop := st.2 = ⟨renameSource st.1,copySource st.1⟩

def Tidy (st : Client × Ledger) (p : Played) : Prop :=
  (Names p.turn (ascii "RNFR") → codes p.trace ≠ [decimal 350] → st.1.haveRnfr = false) ∧
  (Names p.turn (ascii "CPFR") → codes p.trace ≠ [decimal 350] → st.1.haveCpfr = false)

instance (st p) : Decidable (Tidy st p) := by unfold Tidy; infer_instance

inductive Tracks (asks uses : Prop) (accepted : Prop) (path old new : Option Bytes) : Prop where
  | named (line : asks) (good : accepted) (now : new = path) : Tracks asks uses accepted path old new
  | failed (line : asks) (bad : ¬ accepted) (now : new = old) : Tracks asks uses accepted path old new
  | used (other : ¬ asks) (line : uses) (now : new = none) : Tracks asks uses accepted path old new
  | kept (other : ¬ asks) (calm : ¬ uses) (now : new = old) : Tracks asks uses accepted path old new

theorem Tracks.ledger {asks uses accepted : Prop} [Decidable asks] [Decidable uses] [Decidable accepted]
    {path old new} (tracks : Tracks asks uses accepted path old new) :
    ((if asks then (if accepted then path else none) else if uses then none else old) = new ↔
      (asks → ¬ accepted → old = none)) := by
  cases tracks with
  | named line good now => simp [line,good,now]
  | failed line bad now => simp [line,bad,now,eq_comm]
  | used other line now => simp [other,line,now]
  | kept other calm now => simp [other,calm,now]

theorem Tracks.still {asks uses accepted : Prop} {path old new} (bad : asks → ¬ accepted) (calm : ¬ uses)
    (now : new = old) : Tracks asks uses accepted path old new := by
  by_cases line : asks
  · exact .failed line (bad line) now
  · exact .kept line calm now

section Turns
variable {s : Server} {c c' : Client} {p : Played}

def RenameTracks (s : Server) (c : Client) (p : Played) (c' : Client) : Prop :=
  Tracks (Names p.turn (ascii "RNFR")) (UsesRename c p) (codes p.trace = [decimal 350])
    (resolveArg { s with root := p.root } c (parameter p.turn)) (renameSource c) (renameSource c')

def CopyTracks (s : Server) (c : Client) (p : Played) (c' : Client) : Prop :=
  Tracks (Names p.turn (ascii "CPFR")) (UsesCopy c p) (codes p.trace = [decimal 350])
    (resolveArg { s with root := p.root } c (parameter p.turn)) (copySource c) (copySource c')

theorem sameSources {rest} (same : memory c' = { memory c with pasvFd := rest }) :
    renameSource c' = renameSource c ∧ copySource c' = copySource c := by
  have flag : c'.haveRnfr = c.haveRnfr := congrArg Memory.haveRnfr same
  have path : c'.rnfr = c.rnfr := congrArg Memory.rnfr same
  have copyFlag : c'.haveCpfr = c.haveCpfr := congrArg Memory.haveCpfr same
  have copyPath : c'.cpfr = c.cpfr := congrArg Memory.cpfr same
  exact ⟨by rw [renameSource,renameSource,flag,path],by rw [copySource,copySource,copyFlag,copyPath]⟩

theorem turnTracks (turned : Turned s c p c') : RenameTracks s c p c' ∧ CopyTracks s c p c' := by
  cases turned with
  | aside idle same deaf =>
    refine ⟨.still (fun line => unaccepted (deaf ("RNFR",.rnfr) (by decide) line).no) (fun uses => ?_) (sameSources same).1,
      .still (fun line => unaccepted (deaf ("CPFR",.cpfr) (by decide) line).no) (fun uses => ?_) (sameSources same).2⟩
    · exact absurd uses.2 (ne_true_of_eq_false (deaf ("RNTO",.rnto) (by decide) uses.1).out)
    · exact absurd uses.2.1 (ne_true_of_eq_false (deaf ("CPTO",.cpto) (by decide) uses.1).out)
  | dropped turn idle same =>
    have silent : ∀ name, ¬ Names p.turn name := by
      intro name
      rw [turn]
      exact id
    obtain ⟨rename,copy⟩ := sameSources same
    exact ⟨.kept (silent _) (fun uses => silent _ uses.1) rename,.kept (silent _) (fun uses => silent _ uses.1) copy⟩
  | @entered name command trace logged is begun does =>
    have seen : codes p.trace = codes trace := by rw [begun]; rfl
    have rnfr := is ("RNFR",.rnfr) (by decide)
    have rnto := is ("RNTO",.rnto) (by decide)
    have cpfr := is ("CPFR",.cpfr) (by decide)
    have cpto := is ("CPTO",.cpto) (by decide)
    have rename : command ∉ [.rnfr,.rnto] → renameSource c' = renameSource c → RenameTracks s c p c' := fun other now =>
      .kept (fun line => other (by simp [rnfr.mpr line])) (fun line => other (by simp [rnto.mpr line.1])) now
    have copy : command ∉ [.cpfr,.cpto] → copySource c' = copySource c → CopyTracks s c p c' := fun other now =>
      .kept (fun line => other (by simp [cpfr.mpr line])) (fun line => other (by simp [cpto.mpr line.1])) now
    cases does with
    | pasv result | epsv result | port result | eprt result =>
      cases result <;> exact ⟨rename (by decide) rfl,copy (by decide) rfl⟩
    | transfer which result =>
      have apart : ∀ command ∈ transfers, command ∉ [.rnfr,.rnto] ∧ command ∉ [.cpfr,.cpto] := by decide
      obtain ⟨first,second⟩ := apart command which
      cases result <;> exact ⟨rename first rfl,copy second rfl⟩
    | unrest | rest => exact ⟨rename (by decide) rfl,copy (by decide) rfl⟩
    | unrnfr no => exact ⟨.failed (rnfr.mp rfl) (seen ▸ unaccepted no) rfl,copy (by decide) rfl⟩
    | uncpfr no => exact ⟨rename (by decide) rfl,.failed (cpfr.mp rfl) (seen ▸ unaccepted no) rfl⟩
    | rnfr good idle code =>
      refine ⟨.named (rnfr.mp rfl) (seen.trans code) ?_,copy (by decide) rfl⟩
      rw [good,renameSource,if_pos rfl,printResolved good]
    | cpfr good idle code =>
      refine ⟨rename (by decide) rfl,.named (cpfr.mp rfl) (seen.trans code) ?_⟩
      rw [good,copySource,if_pos rfl,printResolved good]
    | rnto result =>
      refine ⟨.used (fun line => absurd (rnfr.mpr line) (by decide)) ⟨rnto.mp rfl,logged⟩ ?_,
        copy (by decide) (by cases result <;> rfl)⟩
      cases result with
      | unnamed missing => simp [renameSource,missing]
      | refused | asked => rfl
    | cpto result =>
      refine ⟨rename (by decide) (by cases result <;> rfl),?_⟩
      have silent : ¬ Names p.turn (ascii "CPFR") := fun line => absurd (cpfr.mpr line) (by decide)
      cases result with
      | unnamed missing =>
        by_cases free : c.job = none
        · exact .used silent ⟨cpto.mp rfl,logged,free⟩ (by simp [copySource,missing])
        · exact .kept silent (fun line => free line.2.2) rfl
      | busy _ job => exact .kept silent (fun line => job line.2.2) rfl
      | refused _ free | unsent _ free | sent _ free => exact .used silent ⟨cpto.mp rfl,logged,free⟩ rfl

theorem sourceNone : (renameSource c = none ↔ c.haveRnfr = false) ∧ (copySource c = none ↔ c.haveCpfr = false) := by
  simp [renameSource,copySource]

end Turns

theorem stepSound {s st st' p} (sound : Sound st) (step : (sources s).step st p st') : Sound st' ↔ Tidy st p := by
  obtain ⟨c,l⟩ := st
  obtain ⟨c',l'⟩ := st'
  obtain ⟨moved,noted⟩ := step
  obtain rfl : l' = l.note s c p := noted
  obtain rfl : l = ⟨renameSource c,copySource c⟩ := sound
  have tracks := turnTracks (turnTurned moved)
  have rename := tracks.1.ledger
  have copy := tracks.2.ledger
  rw [sourceNone.1] at rename
  rw [sourceNone.2] at copy
  simp only [Sound,Ledger.note,named,Ledger.mk.injEq]
  exact and_congr rename copy

def Unused (c' : Client) : Prop :=
  c' = c ∧ if c.loggedIn then ∃ name, p.trace = [⟨.enter name c,()⟩,⟨.send .command (replyText 503 r503),()⟩]
    else p.trace = [⟨.send .command (replyText 530 (ascii "Not logged in.")),()⟩]

section Uses
variable {s : Server} {c c' : Client} {p : Played}

theorem Shut.unused (shut : Shut c p.trace c') : Unused c p c' := by
  refine ⟨shut.same,?_⟩
  rw [if_neg (by simp [shut.out])]
  exact shut.told

variable (turned : Turned s c p c')
include turned

theorem usesUnused {e} (member : e ∈ memorable) (line : Names p.turn (ascii e.1))
    (entered : ∀ {root trace}, Does { s with root } c (parameter p.turn) e.2 trace c' →
      c' = c ∧ trace = [⟨.send .command (replyText 503 r503),()⟩]) : Unused c p c' := by
  cases turned with
  | aside idle same deaf => exact Shut.unused (deaf e member line)
  | dropped turn =>
    rw [turn] at line
    exact line.elim
  | entered logged is begun does =>
    obtain rfl := (is e member).mpr line
    obtain ⟨same,rfl⟩ := entered does
    refine ⟨same,?_⟩
    rw [if_pos logged]
    exact ⟨_,begun⟩

theorem renameUnused (line : Names p.turn (ascii "RNTO")) (missing : c.haveRnfr = false) : Unused c p c' := by
  refine @usesUnused _ _ _ _ turned ("RNTO",.rnto) (by decide) line fun does => ?_
  cases does with
  | transfer which => exact absurd which (by decide)
  | rnto result =>
    cases result with
    | unnamed => exact ⟨rfl,rfl⟩
    | refused pending | asked pending => exact absurd pending (by simp [missing])

theorem copyUnused (line : Names p.turn (ascii "CPTO")) (missing : c.haveCpfr = false) : Unused c p c' := by
  refine @usesUnused _ _ _ _ turned ("CPTO",.cpto) (by decide) line fun does => ?_
  cases does with
  | transfer which => exact absurd which (by decide)
  | cpto result =>
    cases result with
    | unnamed => exact ⟨rfl,rfl⟩
    | busy pending | refused pending | unsent pending | sent pending => exact absurd pending (by simp [missing])

theorem deedOf {e} (member : e ∈ p.trace) (is : deed e.1 = true) :
    ∃ command, (∀ entry ∈ memorable, command = entry.2 ↔ Names p.turn (ascii entry.1)) ∧ Deeds c command [e] := by
  have here : e ∈ deeds p.trace := List.mem_filter.mpr ⟨member,is⟩
  cases turned with
  | aside idle | dropped _ idle =>
    rw [idle] at here
    cases here
  | @entered name command trace logged known begun does =>
    refine ⟨command,known,?_⟩
    have same : deeds p.trace = deeds trace := by rw [begun]; rfl
    rw [same] at here
    have done := does.done
    generalize deeds trace = all at done here
    cases done with
    | none => cases here
    | data which own => rw [List.mem_singleton.mp here]; exact .data which own
    | rename which pending => rw [List.mem_singleton.mp here]; exact .rename which pending
    | copy which pending => rw [List.mem_singleton.mp here]; exact .copy which pending

theorem renameDeed {old new answer}
    (member : (⟨.fs (.rename old new),answer⟩ : Exchange Answer) ∈ p.trace) :
    Names p.turn (ascii "RNTO") ∧ renameSource c = some old := by
  obtain ⟨command,known,done⟩ := deedOf turned member rfl
  cases done with
  | rename which pending => exact ⟨(known ("RNTO",.rnto) (by decide)).mp which,by simp [renameSource,pending]⟩

theorem copyDeed {job sent} (member : (⟨.dispatch job,sent⟩ : Exchange Answer) ∈ p.trace)
    (copies : job.op = .copy) : Names p.turn (ascii "CPTO") ∧ copySource c = some job.path.text := by
  obtain ⟨command,known,done⟩ := deedOf turned member rfl
  cases done with
  | data which own =>
    obtain ⟨-,op,path,nlst,mlsd,id,data,rfl⟩ := own
    exact absurd copies data
  | copy which pending =>
    refine ⟨(known ("CPTO",.cpto) (by decide)).mp which,?_⟩
    simp [copySource,pending,copyJob,Buffer.printSelf]

end Uses

theorem sourceNamedLast (s : Server) (st : Client × Ledger) (reached : (sources s).Reach Tidy st) :
    Sound st ∧ ∀ p st', (sources s).step st p st' → (Sound st' ↔ Tidy st p) ∧
      (∀ old new answer, ⟨.fs (.rename old new),answer⟩ ∈ p.trace →
        Names p.turn (ascii "RNTO") ∧ st.2.rename = some old) ∧
      (∀ job sent, ⟨.dispatch job,sent⟩ ∈ p.trace → job.op = .copy →
        Names p.turn (ascii "CPTO") ∧ st.2.copy = some job.path.text) ∧
      (Names p.turn (ascii "RNTO") → st.2.rename = none → Unused st.1 p st'.1) ∧
      (Names p.turn (ascii "CPTO") → st.2.copy = none → Unused st.1 p st'.1) := by
  have sound : Sound st := by
    refine System.invariant ?_ (fun _ _ _ sound tidy step => (stepSound sound step).mpr tidy) reached
    rintro ⟨c,l⟩ ⟨⟨peer,greeting,run⟩,fresh⟩
    obtain rfl : c = _ := acceptRuns run
    exact fresh
  refine ⟨sound,fun p st' step => ⟨stepSound sound step,?_⟩⟩
  have turned := turnTurned step.1
  rw [sound]
  refine ⟨fun old new answer member => renameDeed turned member,fun job sent member copies => copyDeed turned member copies,
    fun line missing => ?_,fun line missing => ?_⟩
  · exact renameUnused turned line (sourceNone.1.mp missing)
  · exact copyUnused turned line (sourceNone.2.mp missing)


@[irreducible] def pending : Client × Ledger :=
  converse house (Ledger.note house) (visitor,⟨none,none⟩)
    (words (.ok directory) ["USER a","PASS b","RNFR a"])

theorem pendingAgreed : Agreed house (Ledger.note house) Tidy (visitor,⟨none,none⟩)
    (words (.ok directory) ["USER a","PASS b","RNFR a"]) := by decide +kernel

theorem pendingReached : (sources house).Reach Tidy pending := by
  unfold pending
  exact converseReach (newcomerReach .unspec rfl) pendingAgreed

def moving : Utterance := ⟨"RNTO c",obliging (.ok directory)⟩

theorem sourceNamedLastOnce : Names (moving.played house pending.1).turn (ascii "RNTO") ∧
    pending.2.rename = some (ascii "/a") := by
  have step : (sources house).step pending (moving.played house pending.1)
      (conversed house (Ledger.note house) pending moving) := saidStep (by decide +kernel)
  have made : ∃ e ∈ (moving.played house pending.1).trace, e.1 = .fs (.rename (ascii "/a") (ascii "/c")) := by
    decide +kernel
  obtain ⟨⟨call,answer⟩,member,is⟩ := made
  subst is
  exact ((sourceNamedLast house pending pendingReached).2 _ _ step).2.1 _ _ answer member

def misnamed : List Utterance :=
  words (.ok directory) ["USER a","PASS b","RNFR a"] ++ words (.error .enoent) ["RNFR b"]

@[irreducible] def outdated : Client × Ledger :=
  converse house (Ledger.note house) (visitor,⟨none,none⟩) misnamed

theorem outdatedAgreed : Agreed house (Ledger.note house) (fun _ _ => True) (visitor,⟨none,none⟩)
    misnamed := by decide +kernel

theorem outdatedReached : (sources house).Reach (fun _ _ => True) outdated := by
  unfold outdated
  exact converseReach (newcomerReach .unspec rfl) outdatedAgreed

theorem sourceOutdated : (sources house).Reach (fun _ _ => True) outdated ∧ outdated.2 = ⟨none,none⟩ ∧
    (sources house).step outdated (moving.played house outdated.1)
      (conversed house (Ledger.note house) outdated moving) ∧
    ∃ e ∈ (moving.played house outdated.1).trace, e.1 = .fs (.rename (ascii "/a") (ascii "/c")) :=
  ⟨outdatedReached,by decide +kernel,saidStep (by decide +kernel),by decide +kernel⟩

end OpenPs3Ftp.Renaming
