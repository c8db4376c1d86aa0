import OpenPs3Ftp.Worker.Transfer

/-! Which calls a transfer makes: those that touch no connection, on the paths it was given,
and those that move bytes over its channel, in the clear or inside its TLS session. Each of
its loops makes a call in every round, so a job that has made fewer calls than its loops
have rounds has been posted. -/
namespace OpenPs3Ftp.Worker
open Lib Text Resolve Fs Session Events
open Bounded (Uses Obeys Makes Lasts keepsPure keepsAsk keepsBind keepsMono keepsLoop usesPure usesAsk usesOne usesBind
  usesLoop usesObeys makesPure makesAsk makesOne makesBind makesLoop lastsPure lastsBind spendsAsk spendsDone)

def Own : Work → Prop
  | .cancelled | .fs _ | .malloc | .nowMs | .poll .. | .progress _ | .total _ => True
  | _ => False

def Alone : Work → Prop
  | .cancelled | .fs _ | .malloc | .nowMs | .progress _ | .total _ => True
  | _ => False

def Near (Path : Bytes → Prop) : Work → Prop
  | .fs call => ∀ path ∈ call.paths, Path path
  | .cancelled | .malloc | .nowMs | .progress _ | .total _ => True
  | _ => False

def Channel.Moves (ch : Channel) : Work → Prop
  | .send fd _ | .recv fd _ => ch.tls = false ∧ fd = ch.fd
  | .tlsWrite _ | .tlsRead _ => ch.tls = true
  | _ => False

theorem aloneOwn {call} (alone : Alone call) : Own call := by
  cases call <;> first | exact trivial | exact alone.elim

theorem Near.alone {Path call} (near : Near Path call) : Alone call := by
  cases call <;> first | exact trivial | exact near.elim

variable {g : Work → Prop} {fd : Fd} {n : Nat}

theorem makesWrite (writes : ∀ bytes, g (.fs (.write fd bytes))) (bytes) : Makes g n (fsWriteAll n fd bytes) := by
  refine makesLoop (fun rest => ?_) (fun rest => ?_) bytes
  · unfold writeRound
    split
    · exact makesPure _
    · refine makesAsk (writes _) fun wrote => ?_
      split <;> exact makesPure _
  unfold writeRound
  split
  · exact spendsDone _
  · exact spendsAsk _

theorem usesCopyBytes {input output} (flag : g .cancelled) (memory : g .malloc) (report : ∀ n, g (.progress n))
    (reads : ∀ size, g (.fs (.read input size))) (writes : ∀ bytes, g (.fs (.write output bytes)))
    (closes : ∀ fd, g (.fs (.close fd))) (rounds moved) : Uses g (copyBytes rounds input output moved) := by
  refine usesBind (usesAsk memory fun made => ?_) fun result =>
    usesAsk (closes _) fun _ => usesAsk (closes _) fun _ => usesPure _
  split
  · refine usesLoop (fun moved => usesAsk flag fun cancelled => ?_) rounds moved
    split
    · exact usesPure _
    refine usesAsk (reads _) fun got => ?_
    split
    · exact usesPure _
    · exact usesPure _
    refine usesBind (makesWrite writes _).1 fun rc => ?_
    split
    · exact usesPure _
    · exact usesAsk (report _) fun _ => usesPure _
  · exact usesPure _

section Locally
variable {Path : Bytes → Prop} (near : ∀ call, Near Path call → g call)
include near

theorem makesOwn {call} (pathless : call.paths = []) : Makes g n (onFs call) :=
  makesOne (near _ fun _ member => absurd member (by simp [pathless]))

theorem makesAt {call path} (single : call.paths = [path]) (here : Path path) : Makes g n (onFs call) :=
  makesOne (near _ fun p (member : p ∈ call.paths) => by
    rw [single] at member
    rwa [List.mem_singleton.mp member])

theorem makesSeek (fd offset) : Makes g n (seekRest fd offset) := by
  unfold seekRest
  split
  · exact makesPure _
  · refine makesBind (makesOwn near rfl) fun sought => ?_
    split <;> exact makesPure _

theorem makesBuffered {body} (inner : Makes g n body) : Makes g n (buffered fd body) := by
  refine makesBind (makesAsk (near _ trivial) fun made => ?_) fun rc => makesBind (makesOwn near rfl) fun _ => makesPure _
  split
  · exact inner
  · exact makesPure _

end Locally

/- What a copy asks between the files that it copies; at its source it only looks. -/
def Looks (From : Bytes → Prop) : Work → Prop
  | .cancelled | .malloc | .total _ | .fs (.readdir _) => True
  | .fs (.stat path) | .fs (.opendir path) => From path
  | _ => False

def Pending (Rel : CopyDir → Prop) (w : Walk) : Prop := ∀ d ∈ w.stack, Rel d ∧ d.depth < copyMaxDepth

/- What it takes to follow a copy in a logic: `Good` holds while nothing has failed, and
`Ended` with the code of every part. `Rel` is met below the source, and paths of `From` are
copied to those of `Onto`. -/
structure Copying {σ : Type} (L : Bounded.Logic Work Work.Answer σ) (world : (call : Work) → call.Answer → Prop) (j : Job)
    (From Onto : Bytes → Prop) (Rel : CopyDir → Prop) (Good : σ → Prop) (Ended : Rc → σ → Prop) : Prop where
  low : ∀ st, Good st → L.low st
  well : ∀ st, Ended none st ↔ Good st
  failed : ∀ e st, Good st → Ended (some e) st
  source : From j.path.text
  top : ∀ stat, world (.fs (.stat j.path.text)) (.ok stat) → if isDir stat.mode then Rel ⟨[],0⟩ else Onto j.dst.text
  child : ∀ dir de d path, world (.fs (.readdir dir)) (.ok (some de)) → dots de.name.text = false → Rel d →
    copyChild d.rel de.name.text = some path → Rel ⟨path,d.depth + 1⟩
  joins : ∀ d src dst, Rel d → d.depth ≤ copyMaxDepth → copyJoin j.path.text d.rel = some src →
    copyJoin j.dst.text d.rel = some dst → From src ∧ Onto dst
  looks : ∀ call st, Looks From call → Good st → L.Ends st (perform call) fun answer st => Good st ∧ world call answer
  closes : ∀ dir rc st, Ended rc st → L.Ends st (onFs (.closedir dir)) fun _ st => Ended rc st
  ensures : ∀ path st, Onto path → Good st → L.Ends st (ensureDir path) Ended
  copies : ∀ rounds src dst moved st, From src → Onto dst → Good st →
    L.Ends st (copyFile rounds src dst moved) fun result st => Ended result.2 st

namespace Copying
variable {σ : Type} {L : Bounded.Logic Work Work.Answer σ} {world : (call : Work) → call.Answer → Prop} {j : Job}
  {From Onto : Bytes → Prop} {Rel : CopyDir → Prop} {Good : σ → Prop} {Ended : Rc → σ → Prop} {st : σ} {w : Walk}
  (h : Copying L world j From Onto Rel Good Ended)
include h

theorem asks {α : Type} {call} {k : call.Answer → Routine α} {post} (look : Looks From call) (good : Good st)
    (next : ∀ answer st, Good st → world call answer → L.Ends st (k answer) post) : L.Ends st (perform call >>= k) post :=
  L.then_ (h.looks call st look good) fun answer st held => next answer st held.1 held.2

theorem entry (rounds) {d de} (below : ∀ path, copyChild d.rel de.name.text = some path → Rel ⟨path,d.depth + 1⟩)
    (shallow : d.depth < copyMaxDepth) (pending : Pending Rel w) (code : w.rc = none) (good : Good st) :
    L.Ends st (copyEntry rounds j d de w) fun next st =>
      Sum.elim (fun w => Pending Rel w ∧ w.rc = none ∧ Good st) (fun w => Pending Rel w ∧ Ended w.rc st) next := by
  unfold copyEntry
  split
  · exact L.pure ⟨pending,h.failed _ _ good⟩
  rename_i path made
  split
  · split
    · exact L.pure ⟨pending,h.failed _ _ good⟩
    rename_i room
    refine h.asks trivial good fun made st good _ => ?_
    split
    · exact L.pure ⟨List.forall_mem_cons.mpr ⟨⟨below path ‹_›,Nat.lt_of_not_le room⟩,pending⟩,code,good⟩
    · exact L.pure ⟨pending,h.failed _ _ good⟩
  split
  · split
    · rename_i from_ onto
      obtain ⟨from_,onto⟩ := h.joins _ _ _ (below path made) shallow from_ onto
      refine L.then_ (h.copies rounds _ _ w.moved st from_ onto good) fun result st ended => ?_
      split
      split
      · rename_i rc well
        exact L.pure ⟨pending,code,(h.well st).mp (well ▸ ended)⟩
      · exact L.pure ⟨pending,ended⟩
    · exact L.pure ⟨pending,h.failed _ _ good⟩
  · exact L.pure ⟨pending,code,good⟩

theorem directory (rounds) {d dir} (inside : Rel d ∧ d.depth < copyMaxDepth) (pending : Pending Rel w)
    (code : w.rc = none) (good : Good st) :
    L.Ends st (Bounded.loop (copyDirRound rounds j d dir) rounds w) fun w st => Pending Rel w ∧ Ended w.rc st := by
  refine L.loop (fun w st => Pending Rel w ∧ w.rc = none ∧ Good st) (fun _ st inv => h.low st inv.2.2) ?_ rounds
    ⟨pending,code,good⟩
  rintro w st ⟨pending,code,good⟩
  refine h.asks trivial good fun cancelled st good _ => ?_
  split
  · exact L.pure ⟨pending,h.failed _ _ good⟩
  refine h.asks trivial good fun entry st good listed => ?_
  split
  · exact L.pure ⟨pending,h.failed _ _ good⟩
  · exact L.pure ⟨pending,code ▸ (h.well st).mpr good⟩
  split
  · exact L.pure ⟨pending,code,good⟩
  · rename_i proper
    exact h.entry rounds (fun path => h.child _ _ _ path listed (by simpa using proper) inside.1) inside.2 pending code good

theorem round (rounds) (pending : Pending Rel w) (code : w.rc = none) (good : Good st) :
    L.Ends st (copyTreeRound rounds j w) fun next st =>
      Sum.elim (fun w => Pending Rel w ∧ w.rc = none ∧ Good st) (fun w => Ended w.rc st) next := by
  unfold copyTreeRound
  split
  · exact L.pure (code ▸ (h.well st).mpr good)
  rename_i d stack same
  rw [Pending,same] at pending
  obtain ⟨inside,rest⟩ := List.forall_mem_cons.mp pending
  refine h.asks trivial good fun cancelled st good _ => ?_
  split
  · exact L.pure (h.failed _ _ good)
  split
  · rename_i src dst from_ onto
    obtain ⟨from_,onto⟩ := h.joins d src dst inside.1 inside.2.le from_ onto
    refine L.then_ (h.ensures dst st onto good) fun rc st ended => ?_
    split
    · exact L.pure ended
    refine h.asks from_ ((h.well st).mp ended) fun opened st good _ => ?_
    split
    · exact L.pure (h.failed _ _ good)
    refine L.then_ (h.directory rounds inside rest code good) fun w st walked => ?_
    refine L.then_ (h.closes _ w.rc st walked.2) fun _ st ended => ?_
    split
    · rename_i well
      exact L.pure ⟨walked.1,well,(h.well st).mp (well ▸ ended)⟩
    · exact L.pure ended
  · exact L.pure (h.failed _ _ good)

theorem whole (rounds) (good : Good st) : L.Ends st (transferCopy rounds j) Ended := by
  unfold transferCopy
  split
  · exact L.pure (h.failed _ _ good)
  refine h.asks h.source good fun found st good seen => ?_
  split
  · exact L.pure (h.failed _ _ good)
  have top := h.top _ seen
  split
  · rename_i dir
    rw [if_pos dir] at top
    refine h.asks trivial good fun made st good _ => ?_
    split
    · exact L.then_ (L.loop (fun w st => Pending Rel w ∧ w.rc = none ∧ Good st) (fun _ st inv => h.low st inv.2.2)
        (fun w st inv => h.round rounds inv.1 inv.2.1 inv.2.2) rounds
        ⟨List.forall_mem_singleton.mpr ⟨top,by decide⟩,rfl,good⟩) fun w st ended => L.pure ended
    · exact L.pure (h.failed _ _ good)
  · rename_i leaf
    rw [if_neg leaf] at top
    exact h.asks trivial good fun _ st good _ => L.then_ (h.copies rounds _ _ 0 st h.source top good) fun _ st ended => L.pure ended

end Copying

section Locally
variable {Path : Bytes → Prop} (near : ∀ call, Near Path call → g call)
include near

theorem usesCopyFile (rounds) {src dst} (source : Path src) (target : Path dst) (moved) :
    Uses g (copyFile rounds src dst moved) := by
  have own : ∀ {call : FsCall}, call.paths = [] → Uses g (onFs call) := fun pathless => (makesOwn (n := 0) near pathless).1
  have there : ∀ {call : FsCall}, call.paths = [dst] → Uses g (onFs call) := fun single => (makesAt (n := 0) near single target).1
  refine usesBind (makesAt (n := 0) near rfl source).1 fun input => ?_
  split
  · exact usesPure _
  refine usesBind (there rfl) fun found => usesBind (there rfl) fun output => ?_
  split
  · exact usesBind (own rfl) fun _ => usesPure _
  refine usesBind (usesCopyBytes (near _ trivial) (near _ trivial) (fun _ => near _ trivial) (fun _ => near _ nofun)
    (fun _ => near _ nofun) (fun _ => near _ nofun) _ _) fun result => usesBind ?_ fun _ => usesPure _
  unfold removeNew
  split
  · exact usesBind (there rfl) fun _ => usesPure _
  · exact usesPure _

theorem usesEnsure {path} (here : Path path) : Uses g (ensureDir path) := by
  refine usesBind (makesAt (n := 0) near rfl here).1 fun found => ?_
  split
  · exact usesPure _
  · refine usesBind (makesAt (n := 0) near rfl here).1 fun made => ?_
    split <;> exact usesPure _

theorem obeysCopy {Rel : Bytes → Prop} {j : Job} {world : (call : Work) → call.Answer → Prop}
    (source : ∀ rel path, Rel rel → copyJoin j.path.text rel = some path → Path path)
    (target : ∀ rel path, Rel rel → copyJoin j.dst.text rel = some path → Path path)
    (child : ∀ dir de rel path, world (.fs (.readdir dir)) (.ok (some de)) → dots de.name.text = false → Rel rel →
      copyChild rel de.name.text = some path → Rel path)
    (rounds) (top : Rel []) (from_ : Path j.path.text) (onto : Path j.dst.text) :
    Obeys world g (fun _ => True) (transferCopy rounds j) := by
  have follow : Copying (Bounded.keeping world (fun (_ : Unit) _ _ => ()) fun _ => g) world j Path Path (fun d => Rel d.rel)
      (fun _ => True) fun _ _ => True := {
    low := fun _ _ => trivial
    well := fun _ => Iff.rfl
    failed := fun _ _ _ => trivial
    source := from_
    top := fun stat _ => by split <;> assumption
    child := fun dir de d path => child dir de d.rel path
    joins := fun d src dst here _ leaves leads => ⟨source _ _ here leaves,target _ _ here leads⟩
    looks := fun call st look _ => ⟨near call ?_,fun answer seen => keepsPure.mpr ⟨trivial,seen⟩⟩
    closes := fun dir _ _ _ => keepsMono (fun _ _ _ => trivial) (usesObeys (makesOwn (n := 0) near rfl).1)
    ensures := fun path _ here _ => usesObeys (usesEnsure near here)
    copies := fun rounds src dst moved _ source target _ => usesObeys (usesCopyFile near rounds source target moved) }
  · exact follow.whole rounds trivial
  · cases call with
    | fs call =>
      cases call with
      | stat path | opendir path => simpa [Near,FsCall.paths] using (show Path path from look)
      | readdir => exact nofun
      | _ => exact look.elim
    | _ => first | exact trivial | exact look.elim

end Locally

theorem usesCopy (alone : ∀ call, Alone call → g call) (rounds j) : Uses g (transferCopy rounds j) :=
  @obeysCopy g (fun _ => True) (fun call near => alone call near.alone) (fun _ => True) j _ (fun _ _ _ _ => trivial)
    (fun _ _ _ _ => trivial) (fun _ _ _ _ _ _ _ _ => trivial) rounds trivial trivial trivial

section Polling
variable (flag : g .cancelled)
include flag

theorem makesInterrupted : Makes g n interrupted := makesAsk flag fun _ => makesPure _

variable (polls : ∀ event timeout, g (.poll fd event timeout))
include polls

theorem makesWait (event timeout) : Makes g n (waitFd fd event timeout) := by
  refine makesAsk (polls event timeout) fun polled => ?_
  split
  · exact makesPure _
  · exact makesInterrupted flag
  split
  · exact makesInterrupted flag
  · split
    · exact makesPure _
    · split <;> exact makesPure _

theorem usesWait (event timeout) : Uses g (waitFd fd event timeout) :=
  (makesWait (n := 0) flag polls event timeout).1

theorem makesAwaiting {σ β : Type} (event : PollEvent) (again : σ) (failed : Errno → β) :
    Makes g n (awaiting fd event again failed) := by
  refine makesBind (makesWait flag polls event 1000) fun rc => ?_
  split <;> exact makesPure _

theorem makesPeer (event) : Makes g n (waitPeer fd event) := by
  refine makesAsk (polls event 2000) fun polled => ?_
  split
  · exact makesPure _
  · exact makesPure _
  · split
    · exact makesInterrupted flag
    · exact makesPure _

end Polling

section Moving
variable (flag : g .cancelled) {ch : Channel} (polls : ∀ event timeout, g (.poll ch.fd event timeout))
  (moves : ∀ call, ch.Moves call → g call)
include flag polls moves

theorem makesSend (bytes : Bytes) : Makes g n (sendAll n ch bytes) := by
  refine makesLoop (fun rest => ?_) (fun rest => ?_) bytes
  · unfold sendRound
    split
    · exact makesPure _
    refine makesAsk flag fun cancelled => ?_
    split
    · exact makesPure _
    split
    · rename_i sealed
      refine makesAsk (moves _ sealed) fun wrote => ?_
      split
      · exact makesPure _
      · exact makesAwaiting flag polls _ _ _
      · exact makesAwaiting flag polls _ _ _
      · exact makesPure _
      · exact makesPure _
    rename_i clear
    refine makesBind (makesWait flag polls _ _) fun rc => ?_
    split
    · exact makesPure _
    · exact makesPure _
    · refine makesAsk (moves _ ⟨by simpa using clear,rfl⟩) fun sent => ?_
      split <;> exact makesPure _
  unfold sendRound
  split
  · exact spendsDone _
  · exact spendsAsk _

theorem makesRecv (size) : Makes g n (recvSome ch size) := by
  have again : ∀ event, Makes g n (recvAgain ch.fd event) := by
    intro event
    refine makesBind (makesWait flag polls _ _) fun rc => ?_
    split <;> exact makesPure _
  refine makesAsk flag fun cancelled => ?_
  split
  · exact makesPure _
  split
  · rename_i sealed
    refine makesAsk (moves _ sealed) fun got => ?_
    split
    · exact makesPure _
    · exact again _
    · exact again _
    · exact makesPure _
  rename_i clear
  refine makesBind (makesWait flag polls _ _) fun rc => ?_
  split
  · exact makesPure _
  · exact makesOne (moves _ ⟨by simpa using clear,rfl⟩)

end Moving

section Channel
variable {Path : Bytes → Prop} (near : ∀ call, Near Path call → g call) {ch : Channel}
  (polls : ∀ event timeout, g (.poll ch.fd event timeout)) (moves : ∀ call, ch.Moves call → g call)
include near polls moves

theorem makesFlush (b) : Makes g n (listFlush n ch b) := by
  unfold listFlush
  split
  · exact makesPure _
  refine makesBind (makesSend (near _ trivial) polls moves _) fun rc => ?_
  split
  · exact makesAsk (near _ trivial) fun _ => makesPure _
  · exact makesPure _

theorem makesListRound (s j dir b) : Makes g n (listRound n s j ch dir b) := by
  refine makesAsk (near _ trivial) fun cancelled => ?_
  split
  · exact makesPure _
  refine makesBind (makesOwn near rfl) fun entry => ?_
  split
  · exact makesPure _
  · exact makesPure _
  refine makesBind ?_ fun b => ?_
  · split
    · exact makesFlush near polls moves _
    · exact makesPure _
  · split <;> exact makesPure _

variable {j : Job} (here : Path j.path.text)
include here

theorem makesList (s) : Makes g n (transferList n s j ch) := by
  refine makesBind (makesAt near rfl here) fun found => ?_
  split
  · exact makesPure _
  split
  · exact makesBind (makesFlush near polls moves _) fun _ => makesPure _
  refine makesBind (makesAt near rfl here) fun opened => ?_
  split
  · exact makesPure _
  · exact makesBind (makesLoop (makesListRound near polls moves s j _) (fun _ => spendsAsk _) _) fun b =>
      makesBind (makesFlush near polls moves _) fun _ => makesBind (makesOwn near rfl) fun _ => makesPure _

theorem makesRetr : Makes g n (transferRetr n j ch) := by
  refine makesBind (makesAt near rfl here) fun opened => ?_
  split
  · exact makesPure _
  refine makesBind (makesOwn near rfl) fun found => makesBind ?_ fun _ => makesBind (makesSeek near _ _) fun sought => ?_
  · unfold reportTotal
    split
    · split
      · exact makesOne (near _ trivial)
      · exact makesPure _
    · exact makesPure _
  split
  · exact makesBind (makesOwn near rfl) fun _ => makesPure _
  refine makesBuffered near (makesLoop (fun sent => makesAsk (near .cancelled trivial) fun cancelled => ?_)
    (fun _ => spendsAsk _) _)
  split
  · exact makesPure _
  refine makesBind (makesOwn near rfl) fun got => ?_
  split
  · exact makesPure _
  · exact makesPure _
  refine makesBind (makesSend (near _ trivial) polls moves _) fun rc => ?_
  split
  · exact makesPure _
  · exact makesAsk (near _ trivial) fun _ => makesPure _

theorem makesStor : Makes g n (transferStor n j ch) := by
  refine makesBind (makesAt near rfl here) fun opened => ?_
  split
  · exact makesPure _
  refine makesBind (makesSeek near _ _) fun sought => ?_
  split
  · exact makesBind (makesOwn near rfl) fun _ => makesPure _
  refine makesBuffered near (makesLoop (fun stored => makesAsk (near .cancelled trivial) fun cancelled => ?_)
    (fun _ => spendsAsk _) _)
  split
  · exact makesPure _
  refine makesBind (makesRecv (near _ trivial) polls moves _) fun got => ?_
  split
  · exact makesPure _
  · exact makesPure _
  · exact makesPure _
  refine makesBind (makesWrite (fun _ => near _ nofun) _) fun rc => ?_
  split
  · exact makesPure _
  · exact makesAsk (near _ trivial) fun _ => makesPure _

theorem makesOp (data : j.op ≠ .copy) (s) : Makes g n (transferOp n s j ch) := by
  unfold transferOp
  split
  · exact makesList near polls moves here s
  · exact makesRetr near polls moves here
  · exact makesStor near polls moves here
  · exact makesStor near polls moves here
  · exact absurd ‹_› data

end Channel

section Session
variable (polls : ∀ event timeout, g (.poll fd event timeout))
include polls

theorem makesSetup (flag : g .cancelled) (clock : g .nowMs) (create : ∀ deadline, g (.tlsCreate fd deadline))
    (shake : g .tlsHandshake) (s : Server) : Makes g n (dataTlsSetup n s fd) := by
  unfold dataTlsSetup
  split
  · exact makesPure _
  refine makesAsk clock fun now => makesAsk (create _) fun made => ?_
  split
  · refine makesBind (makesLoop (fun _ => makesAsk flag fun cancelled => ?_) (fun _ => spendsAsk _) _) fun _ => makesPure _
    split
    · exact makesPure _
    refine makesAsk shake fun result => ?_
    split
    · exact makesPure _
    · exact makesPure _
    · exact makesAwaiting flag polls _ _ _
    · exact makesAwaiting flag polls _ _ _
  · exact makesPure _

theorem makesShutdown (notify : g .tlsCloseNotify) (free : g .tlsFree) (rc) : Makes g n (tlsShutdown fd rc) := by
  have closing : ∀ left, Makes g n (closeNotify fd left) := by
    intro left
    induction left with
    | zero => exact makesPure _
    | succ left ih =>
      refine makesAsk notify fun result => ?_
      split
      · exact makesPure _
      refine makesAsk (polls _ _) fun polled => ?_
      split
      · exact makesPure _
      · exact makesPure _
      · exact ih
  refine makesBind ?_ fun _ => makesOne free
  split
  · exact closing 50
  · exact makesPure _

theorem usesShutdown (notify : g .tlsCloseNotify) (free : g .tlsFree) (rc) : Uses g (tlsShutdown fd rc) :=
  (makesShutdown (n := 0) polls notify free rc).1

end Session

theorem makesOver {Path} (near : ∀ call, Near Path call → g call)
    (polls : ∀ event timeout, g (.poll fd event timeout)) (moves : ∀ tls call, Channel.Moves ⟨fd,tls⟩ call → g call)
    (create : ∀ deadline, g (.tlsCreate fd deadline)) (shake : g .tlsHandshake) (notify : g .tlsCloseNotify)
    (free : g .tlsFree) {j} (here : Path j.path.text) (data : j.op ≠ .copy) (s) :
    Makes g n (transferOver n s j fd) := by
  unfold transferOver
  split
  · exact makesOp near polls (moves _) here data s
  refine makesBind (makesSetup polls (near _ trivial) (near _ trivial) create shake s) fun made => ?_
  split
  rename_i session rc
  refine makesBind ?_ fun rc => makesBind ?_ fun _ => makesPure _
  · split
    · exact makesOp near polls (moves _) here data s
    · exact makesPure _
  · split
    · exact makesShutdown polls notify free rc
    · exact makesPure _

theorem usesOver (alone : ∀ call, Alone call → g call) (polls : ∀ event timeout, g (.poll fd event timeout))
    (moves : ∀ tls call, Channel.Moves ⟨fd,tls⟩ call → g call) (create : ∀ deadline, g (.tlsCreate fd deadline))
    (shake : g .tlsHandshake) (notify : g .tlsCloseNotify) (free : g .tlsFree) {j} (data : j.op ≠ .copy) (rounds s) :
    Uses g (transferOver rounds s j fd) :=
  (makesOver (fun call (near : Near (fun _ => True) call) => alone call near.alone) polls moves create shake notify free
    trivial data s).1

theorem makesConnect (flag : g .cancelled) (polls : ∀ fd event timeout, g (.poll fd event timeout))
    (opens : ∀ listener, j.pasvFd = some listener → g (.accept listener))
    (reaches : j.pasvFd = none → j.haveDataPeer = true → g (.socket j.dataPeer) ∧ ∀ fd, g (.connect fd j.dataPeer))
    (errors : ∀ fd, g (.soError fd)) (s) : Makes g n (datachanConnectJob s j) := by
  unfold datachanConnectJob
  split
  · rename_i held
    refine makesBind (makesPeer flag (polls _) _) fun rc => ?_
    split
    · exact makesPure _
    refine makesAsk (opens _ held) fun accepted => ?_
    split
    · exact makesPure _
    · split <;> exact makesPure _
  rename_i free
  split
  · rename_i named
    obtain ⟨socket,connects⟩ := reaches free named
    refine makesAsk socket fun made => ?_
    split
    · exact makesPure _
    refine makesAsk (connects _) fun started => ?_
    split
    · exact makesPure _
    refine makesBind (makesPeer flag (polls _) _) fun rc => ?_
    split
    · exact makesPure _
    · refine makesAsk (errors _) fun error => ?_
      split <;> exact makesPure _
  · exact makesPure _

theorem usesConnect (flag : g .cancelled) (polls : ∀ fd event timeout, g (.poll fd event timeout))
    (opens : ∀ listener, g (.accept listener)) (sockets : ∀ target, g (.socket target))
    (connects : ∀ fd target, g (.connect fd target)) (errors : ∀ fd, g (.soError fd)) (s j) :
    Uses g (datachanConnectJob s j) :=
  (makesConnect (n := 0) flag polls (fun _ _ => opens _) (fun _ _ => ⟨sockets _,fun _ => connects _ _⟩) errors s).1

theorem runLasts (s) {j} (data : j.op ≠ .copy) : Lasts n (transferRun n s j) := by
  unfold transferRun
  rw [if_neg data]
  refine lastsBind (makesConnect (g := fun _ => True) trivial (fun _ _ _ => trivial) (fun _ _ => trivial)
    (fun _ _ => ⟨trivial,fun _ => trivial⟩) (fun _ => trivial) s).2 fun connected => ?_
  split
  · exact lastsPure _
  · exact lastsBind (makesOver (g := fun _ => True) (fun call (_ : Near (fun _ => True) call) => trivial) (fun _ _ => trivial)
      (fun _ _ _ => trivial) (fun _ => trivial) trivial trivial trivial trivial data s).2 fun rc => lastsPure _

end OpenPs3Ftp.Worker
