import OpenPs3Ftp.Tls
import OpenPs3Ftp.Containment

/-! How an upload inside TLS ends. The worker takes a read of nothing for the end of
the file; the wrapper reads nothing both at the closing alert and where the connection
was cut, so a cut upload is answered like a complete one. -/
namespace OpenPs3Ftp.Truncation
open Lib Text Fs Session Commands Events Worker Tls
open Bounded (Uses usesKeeps keepsPure keepsAsk keepsBind keepsMono keepsLoop)

def answered (r : List (TlsResult Bytes)) : (call : Work) → call.Answer → List (TlsResult Bytes)
  | .tlsRead _,result => r ++ [result]
  | _,_ => r

def tlsReads (trace : Work.Trace) : List (TlsResult Bytes) := Program.noted answered [] trace

abbrev Reads {α : Type} (post : List (TlsResult Bytes) → α → Prop) (r : List (TlsResult Bytes)) (p : Routine α) : Prop :=
  Bounded.Keeps (fun _ _ => True) answered (fun _ _ => True) post r p

def Unended (r : List (TlsResult Bytes)) : Prop := .moved [] ∉ r
def Ended (r : List (TlsResult Bytes)) : Prop := ∃ before, r = before ++ [.moved []] ∧ Unended before
def Told (r : List (TlsResult Bytes)) (rc : Rc) : Prop := if rc = none then Ended r else Unended r

theorem toldNone {r} (ended : Ended r) : Told r none := by
  rw [Told,if_pos rfl]
  exact ended

theorem toldSome {r rc} (failed : rc ≠ none) (open_ : Unended r) : Told r rc := by
  rw [Told,if_neg failed]
  exact open_

def Unread : Work → Prop
  | .tlsRead _ => False
  | _ => True

theorem nearUnread (call) (near : Near (fun _ => True) call) : Unread call := by
  cases call <;> first | exact trivial | exact near.elim

section Parts
variable {r : List (TlsResult Bytes)} {j : Job}

theorem unreadReads {α : Type} {p : Routine α} (uses : Uses Unread p) : Reads (fun r' _ => r' = r) r p := by
  refine @usesKeeps _ _ _ _ _ answered (fun _ _ => True) (fun r' => r' = r) _ _ uses ?_ rfl
  rintro _ call rfl unread
  refine ⟨trivial,fun answer => ?_⟩
  cases call <;> first | rfl | exact unread.elim

theorem unreadThen {α β : Type} {post : List (TlsResult Bytes) → β → Prop} {p : Routine α} {f : α → Routine β}
    (uses : Uses Unread p) (next : ∀ a, Reads post r (f a)) : Reads post r (p >>= f) := by
  refine keepsBind (keepsMono ?_ (unreadReads uses))
  rintro _ a rfl
  exact next a

def Heard (r : List (TlsResult Bytes)) : Except Errno Bytes → Prop
  | .ok [] => Ended r
  | _ => Unended r

theorem againReads (open_ : Unended r) (fd event) : Reads Heard r (recvAgain fd event) := by
  refine unreadThen (usesWait trivial (fun _ _ => trivial) event 1000) fun rc => ?_
  split <;> exact keepsPure.mpr open_

theorem unendedSnoc {result} (open_ : Unended r) (more : result ≠ .moved []) : Unended (r ++ [result]) := by
  simpa [Unended,more.symm] using open_

theorem recvReads (open_ : Unended r) (fd size) : Reads Heard r (recvSome ⟨fd,true⟩ size) := by
  refine keepsAsk trivial fun cancelled _ => ?_
  split
  · exact keepsPure.mpr open_
  refine keepsAsk trivial fun result _ => ?_
  cases result with
  | moved bytes =>
    refine keepsPure.mpr ?_
    cases bytes with
    | nil => exact ⟨r,rfl,open_⟩
    | cons => exact unendedSnoc open_ (by simp)
  | wantRead => exact againReads (unendedSnoc open_ (by simp)) fd .pollin
  | wantWrite => exact againReads (unendedSnoc open_ (by simp)) fd .pollout
  | failed => exact keepsPure.mpr (unendedSnoc open_ (by simp))

theorem roundReads (open_ : Unended r) (rounds : Nat) (fd file) (stored : Nat) :
    Reads (fun r next => Sum.elim (fun _ => Unended r) (Told r) next) r (storRound rounds ⟨fd,true⟩ file stored) := by
  refine keepsAsk trivial fun cancelled _ => ?_
  split
  · exact keepsPure.mpr (toldSome (by simp) open_)
  refine keepsBind (keepsMono ?_ (recvReads open_ fd transferBuf))
  intro r got heard
  split
  · exact keepsPure.mpr heard
  · exact keepsPure.mpr (toldSome (by simp) heard)
  · exact keepsPure.mpr (toldNone heard)
  rename_i bytes more
  have open_ : Unended r := by
    cases bytes with
    | nil => exact absurd rfl more
    | cons => exact heard
  refine unreadThen (makesWrite (fun _ => trivial) _).1 fun rc => ?_
  split
  · exact keepsPure.mpr (toldSome (by simp) open_)
  · exact keepsAsk trivial fun _ _ => keepsPure.mpr open_

theorem bufferedReads {body} (open_ : Unended r) (inner : Reads Told r body) (file) :
    Reads Told r (buffered file body) := by
  refine keepsBind (keepsMono (fun r rc told => ?_) (?_ : Reads Told r _))
  · exact unreadThen (Bounded.usesOne trivial) fun _ => keepsPure.mpr told
  refine keepsAsk trivial fun made _ => ?_
  split
  · exact inner
  · exact keepsPure.mpr (toldSome (by simp) open_)

theorem storReads (open_ : Unended r) (rounds : Nat) (fd) : Reads Told r (transferStor rounds j ⟨fd,true⟩) := by
  have failed : ∀ e : Errno, Told r (some e) := fun e => toldSome (by simp) open_
  refine unreadThen (Bounded.usesOne trivial) fun opened => ?_
  split
  · exact keepsPure.mpr (failed _)
  refine unreadThen (makesSeek (n := 0) nearUnread _ _).1 fun sought => ?_
  split
  · exact unreadThen (Bounded.usesOne trivial) fun _ => keepsPure.mpr (failed _)
  · refine bufferedReads open_ ?_ _
    exact keepsLoop (fun r _ => Unended r) (fun r stored open_ => roundReads open_ rounds fd _ stored) rounds open_

theorem overReads (upload : j.op = .stor ∨ j.op = .appe) (sealed : j.needTls = true) (open_ : Unended r)
    (rounds : Nat) (s fd) : Reads Told r (transferOver rounds s j fd) := by
  unfold transferOver
  rw [if_neg (by simp [sealed])]
  refine unreadThen (makesSetup (fun _ _ => trivial) trivial trivial (fun _ => trivial) trivial s).1 fun setup => ?_
  obtain ⟨session,rc⟩ := setup
  have op : Reads Told r (if rc = none then transferOp rounds s j ⟨fd,true⟩ else pure rc) := by
    split
    · rcases upload with upload | upload <;> rw [transferOp,upload] <;> exact storReads open_ rounds fd
    · exact keepsPure.mpr (toldSome ‹_› open_)
  refine keepsBind (keepsMono (fun r rc told => ?_) op)
  refine unreadThen ?_ fun _ => keepsPure.mpr told
  split
  · exact usesShutdown (fun _ _ => trivial) trivial trivial rc
  · exact Bounded.usesPure _

def Reported (j : Job) (r : List (TlsResult Bytes)) (posted : Posted) : Prop :=
  posted.job = j ∧ if posted.connOk then Told r posted.result else Unended r

theorem runReads (upload : j.op = .stor ∨ j.op = .appe) (sealed : j.needTls = true) (rounds : Nat) (s) :
    Reads (Reported j) [] (transferRun rounds s j) := by
  have open_ : Unended [] := by simp [Unended]
  unfold transferRun
  rw [if_neg (by rcases upload with upload | upload <;> simp [upload])]
  refine unreadThen (usesConnect trivial (fun _ _ _ => trivial) (fun _ => trivial) (fun _ => trivial) (fun _ _ => trivial)
    (fun _ => trivial) s j) fun connected => ?_
  split
  · exact keepsPure.mpr ⟨rfl,open_⟩
  · exact keepsBind (keepsMono (fun r rc told => keepsPure.mpr ⟨rfl,told⟩) (overReads upload sealed open_ rounds s _))

end Parts

theorem completeVerdict {posted : Posted} (upload : posted.job.op = .stor ∨ posted.job.op = .appe) :
    posted.verdict.1 = 226 ↔ posted.connOk = true ∧ posted.result = none := by
  have transfer : posted.job.op ≠ .copy := by rcases upload with upload | upload <;> simp [upload]
  constructor
  · intro complete
    refine ⟨?_,(verdictDone (.inl complete)).1⟩
    by_contra unconnected
    rw [Posted.verdict,if_pos ⟨unconnected,transfer⟩] at complete
    split at complete <;> cases complete
  · rintro ⟨connected,none_⟩
    simp [Posted.verdict,connected,none_,transfer]

theorem reportedVerdict {j : Job} {r} {posted : Posted} (upload : j.op = .stor ∨ j.op = .appe)
    (reported : Reported j r posted) : posted.verdict.1 = 226 ∧ Ended r ∨ posted.verdict.1 ≠ 226 ∧ Unended r := by
  obtain ⟨rfl,told⟩ := reported
  have verdict := completeVerdict upload
  split at told
  · rename_i connected
    unfold Told at told
    split at told
    · exact .inl ⟨verdict.mpr ⟨connected,‹_›⟩,told⟩
    · rename_i failed
      exact .inr ⟨fun complete => failed (verdict.mp complete).2,told⟩
  · rename_i unconnected
    exact .inr ⟨fun complete => unconnected (verdict.mp complete).1,told⟩

theorem unendedCodes {codes : List ReadCode} (open_ : Unended (codes.map tlsRead)) :
    .zero ∉ codes ∧ .closeNotify ∉ codes :=
  ⟨fun member => open_ (List.mem_map.mpr ⟨_,member,rfl⟩),fun member => open_ (List.mem_map.mpr ⟨_,member,rfl⟩)⟩

theorem endedCodes {codes : List ReadCode} (ended : Ended (codes.map tlsRead)) :
    .closeNotify ∈ codes ↔ .zero ∉ codes := by
  obtain ⟨before,split_,open_⟩ := ended
  obtain ⟨front,back,rfl,rfl,last⟩ := List.map_eq_append_iff.mp split_
  obtain ⟨code,rfl,end_⟩ := List.map_eq_singleton_iff.mp last
  obtain ⟨zero,notify⟩ := unendedCodes open_
  rcases tlsReadEnd.mp end_ with rfl | rfl <;> simp [zero,notify]

theorem uploadsComplete (rounds : Nat) (s : Server) (job : Job) (trace : List (Exchange Work.Answer)) (posted : Posted)
    (upload : job.op = .stor ∨ job.op = .appe) (sealed : job.needTls = true)
    (run : Program.Runs (transferRun rounds s job) trace (some posted)) (codes : List ReadCode)
    (same : codes.map tlsRead = tlsReads trace) :
    (posted.verdict.1 = 226 → .closeNotify ∈ codes) ↔ .zero ∉ codes := by
  have reported := (Program.meetsRuns (runReads upload sealed rounds s) run fun _ _ => trivial).1 posted rfl
  change Reported job (tlsReads trace) posted at reported
  rw [← same] at reported
  rcases reportedVerdict upload reported with ⟨complete,ended⟩ | ⟨incomplete,open_⟩
  · rw [← endedCodes ended]
    exact ⟨fun told => told complete,fun heard _ => heard⟩
  · exact ⟨fun _ => (unendedCodes open_).1,fun _ complete => absurd complete incomplete⟩

def uploading (codes : List ReadCode) : (call : Work) → call.Answer × List ReadCode
  | .tlsRead _ => (tlsRead (codes.headD .error),codes.tail)
  | .fs (.openFile ..) => (.ok 8,codes)
  | .fs (.write _ bytes) => (.ok bytes.length,codes)
  | .fs call => (Containment.absent call,codes)
  | .cancelled => (false,codes)
  | .malloc | .tlsCreate .. => (true,codes)
  | .nowMs => (0,codes)
  | .poll .. => (.ready false true false,codes)
  | .accept _ => (.error .econnreset,codes)
  | .socket _ => (.ok 7,codes)
  | .connect .. => (.ok (),codes)
  | .soError _ => (none,codes)
  | .send _ bytes => (.ok bytes.length,codes)
  | .recv .. => (.ok [],codes)
  | .tlsHandshake | .tlsCloseNotify => (.finished,codes)
  | .tlsWrite bytes => (.moved bytes.length,codes)
  | .tlsFree | .progress _ | .total _ => ((),codes)

def vault : Server := { house with tls := true }

def upload : Job := { smallJob with op := .stor, needTls := true }

def uploaded (codes : List ReadCode) : Work.Trace × Option Posted :=
  Program.playFrom uploading codes (transferRun 9 vault upload)

def record : ReadCode := .bytes 1 [2,3]

theorem uploadCut : Program.Runs (transferRun 9 vault upload) (uploaded [record,.zero]).1
      (some ⟨upload,some 7,true,none⟩) ∧
    [record,.zero].map tlsRead = tlsReads (uploaded [record,.zero]).1 ∧
    (uploaded [record,.zero]).1.any (fun e => e.1 = .fs (.write 8 [1,2,3])) ∧
    (⟨upload,some 7,true,none⟩ : Posted).verdict.1 = 226 ∧ .closeNotify ∉ [record,.zero] := by
  refine ⟨?_,by decide +kernel,by decide +kernel,by decide +kernel,by decide⟩
  have run := Program.playFromRuns uploading [record,.zero] (transferRun 9 vault upload)
  have result : (uploaded [record,.zero]).2 = some ⟨upload,some 7,true,none⟩ := by decide +kernel
  rw [← result]
  exact run

theorem uploadsCompleteNotified : [record,.closeNotify].map tlsRead = tlsReads (uploaded [record,.closeNotify]).1 ∧
    ((⟨upload,some 7,true,none⟩ : Posted).verdict.1 = 226 → .closeNotify ∈ [record,.closeNotify]) := by
  have same : [record,.closeNotify].map tlsRead = tlsReads (uploaded [record,.closeNotify]).1 := by decide +kernel
  have run := Program.playFromRuns uploading [record,.closeNotify] (transferRun 9 vault upload)
  have result : (uploaded [record,.closeNotify]).2 = some ⟨upload,some 7,true,none⟩ := by decide +kernel
  refine ⟨same,(uploadsComplete 9 vault upload _ _ (.inl rfl) rfl ?_ _ same).mpr (by decide)⟩
  rw [← result]
  exact run

end OpenPs3Ftp.Truncation
