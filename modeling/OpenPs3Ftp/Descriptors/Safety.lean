import OpenPs3Ftp.Lib.Registry
import OpenPs3Ftp.Service.Count
import OpenPs3Ftp.Descriptors.Machine

/-! The table of descriptors is at every moment what the fields of clients and jobs, and
what the reactor's code has in its hands, say it is. -/
namespace OpenPs3Ftp.Descriptors
open Lib Text Fs Session Commands Dispatch Events Worker Reactor Program

structure Claim where
  held : Option JobId
  refused : Bool

def Claim.note (m : Claim) : (call : Call) → Answer call → Claim
  | .dispatch job,answer => ⟨if answer then some job.id else m.held,!answer⟩
  | _,_ => m

def Claim.Allows (m : Claim) : Call → Prop
  | .cancel job => m.held = some job
  | .freeJob _ => m.refused = true
  | _ => True

abbrev Claims (m : Claim) (p : Handler Client) : Prop :=
  Meets (fun _ _ => True) Claim.note Claim.Allows (fun _ _ => True) m p

theorem eventClaims (s c revents received refused) :
    Claims ⟨c.job,refused⟩ (handleClientEvents s revents received c) := by
  refine meetsWeaken (fun (d : Duty) (m : Claim) => m.held = d.held ∧ (d.work.refused ≠ none → m.refused = true))
    ⟨rfl,fun asked => absurd rfl asked⟩ ?_ ?_ (fun _ _ _ _ _ => trivial)
    (@eventDutiful s True c revents received fun _ _ => .inr trivial)
  · rintro d m call ⟨held,refused⟩ owed
    cases call with
    | cancel job => exact held.trans owed
    | freeJob job => exact refused owed.2.2
    | _ => trivial
  rintro d m call answer ⟨held,refused⟩ owed
  cases call with
  | enter name other => exact ⟨held.trans owed.1.job.symm,fun asked => absurd rfl asked⟩
  | dispatch job =>
    have first : d.work.refused = none := owed.2.2.2.2.2.2.2
    cases answer with
    | true => exact ⟨rfl,fun asked => absurd first asked⟩
    | false => exact ⟨held,fun _ => rfl⟩
  | send about text => cases about <;> exact ⟨held,refused⟩
  | _ => exact ⟨held,refused⟩

theorem sendClaims {m about text k} (next : Claims m (k ())) :
    Claims m (invoke (.send about text) >>= k) := ⟨trivial,fun _ _ => next⟩

theorem acceptClaims (s peer m) : Claims m (acceptClient s peer) :=
  acceptMeets peer (fun _ => ⟨trivial,fun _ => rfl⟩) fun _ => trivial

theorem closeClaims {m fd k} (next : Claims m (k ())) : Claims m (closeSome fd >>= k) := by
  cases fd with
  | none => exact next
  | some fd => exact ⟨trivial,fun _ _ => next⟩

theorem completeClaims (p c m) : Claims m (datachanComplete p c) := by
  unfold datachanComplete closeJob
  rw [bindAssoc]
  refine closeClaims (closeClaims (meetsIte.mpr ⟨fun _ => trivial,fun _ => sendClaims ?_⟩))
  exact meetsIte.mpr ⟨fun _ => sendClaims trivial,fun _ => trivial⟩

def Flies (core : Reactor.State) (job : JobId) : Prop := ∃ f ∈ flights core, f.job.id = job

def Belongs (st : State) (r : Shelf) : Owner → Fd → Prop
  | .client id,fd =>
    if engaged st.core = some id then r.mine = some fd
    else ∃ c, st.core.clients id = some c ∧ c.pasvFd = some fd
  | .listener job,fd => (∃ f ∈ flights st.core, f.job.id = job ∧ f.job.pasvFd = some fd) ∨
      debtor st = some job ∧ r.lent = some fd
  | .data job,fd => (∃ h, st.hands job = some h ∧ h.data = some fd) ∨
      (∃ d ∈ landed st.core, d.posted.job.id = job ∧ d.posted.dataFd = some fd) ∨
      debtor st = some job ∧ r.data = some fd
  | .reader job,fd => ∃ w, st.pipes job = some (fd,w)
  | .writer job,fd => ∃ v, st.pipes job = some (v,fd)

def Works (s : Server) (st : State) (r : Shelf) (held : Option JobId) : Prop :=
  match st.core.task with
  | none => r = rest none ∧ st.spare = none ∧ st.closing = none
  | some (_,p) => Shelves Shelf.Leaves r p ∧ Keeping s (fun _ => True) st.spare p ∧ Claims ⟨held,st.refused⟩ p

def Handled (s : Server) (job : Job) (h : Hand) : Prop :=
  (∀ trace o, Program.Runs h.left trace o → Program.Runs (transferRun h.rounds s job) (h.trace ++ trace) o) ∧
    Handling job (Returned job) h.data h.left

structure Good (s : Server) (st : State) (r : Shelf) (held : Option JobId) : Prop where
  sound : ∃ log m, Sound st.core log m
  works : Works s st r held
  setting : st.setting = r.setting
  tabled : Registers st.table (Belongs st r)
  born : ∀ job, st.pipes job ≠ none ↔ Flies st.core job ∨ debtor st = some job
  known : ∀ job, st.pipes job ≠ none → job < st.core.nextJob
  apart : ∀ job, debtor st = some job → ¬ Flies st.core job
  posted : r.data ≠ none → st.closing ≠ none
  owing : r.lent ≠ none → st.closing ≠ none ∨ st.spare ≠ none ∧ st.refused = true
  single : st.closing ≠ none → st.spare = none
  handling : ∀ job h, st.hands job = some h → ∃ f ∈ st.core.running, f.job.id = job ∧ Handled s f.job h
  holding : ∀ job, held = some job → Flies st.core job

section Frame
variable {s : Server} {st : State} {r : Shelf} {held : Option JobId} {core : Reactor.State}

theorem goodStart {st} (start : Start st) : Good s st (rest none) none := by
  obtain ⟨begun,table,pipes,hands,setting,spare,closing⟩ := start
  have sound := soundStart begun
  obtain ⟨clients,queue,running,completions,phase,task⟩ := begun
  have none_ : flights st.core = [] := by simp [flights,queue,running,completions,drained,phase]
  have quiet : landed st.core = [] := by simp [landed,completions,drained,phase]
  have out : debtor st = none := by simp [debtor,closing,spare]
  refine ⟨⟨_,_,sound⟩,?_,setting,?_,?_,by simp [pipes],by simp [out],by simp [rest],by simp [rest],by simp [closing],
    by simp [hands],by simp⟩
  · rw [Works,task]
    exact ⟨rfl,spare,closing⟩
  · intro fd owner
    cases owner <;> simp [table,Belongs,engaged,task,clients,none_,quiet,out,hands,pipes]
  · simp [pipes,Flies,none_,out]

variable (good : Good s st r held)
include good

theorem Good.move (sound : ∃ log m, Sound core log m)
    (flies : ∀ f, f ∈ flights core ↔ f ∈ flights st.core) (lands : ∀ d, d ∈ landed core ↔ d ∈ landed st.core)
    (clients : core.clients = st.core.clients) (task : core.task = st.core.task) (next : core.nextJob = st.core.nextJob)
    (running : core.running = st.core.running) : Good s { st with core } r held where
  sound := sound
  works := by
    have works := good.works
    unfold Works at works ⊢
    simpa only [task] using works
  setting := good.setting
  tabled := good.tabled.same fun owner fd => by
    have same : engaged core = engaged st.core := by rw [engaged,engaged,task]
    cases owner <;> simp [Belongs,same,clients,flies,lands,debtor]
  born job := by simpa [Flies,flies,debtor] using good.born job
  known job has := by simpa [next] using good.known job has
  apart job mine := by simpa [Flies,flies] using good.apart job mine
  posted := good.posted
  owing := good.owing
  single := good.single
  handling job h has := by simpa [running] using good.handling job h has
  holding job has := by simpa [Flies,flies] using good.holding job has

theorem Good.resting (idle : st.core.task = none) :
    r = rest none ∧ st.spare = none ∧ st.closing = none := by
  have works := good.works
  rw [Works,idle] at works
  exact works

theorem Good.begin {id p fd job} (idle : st.core.task = none)
    (sound : ∃ log m, Sound core log m) (flies : ∀ f, f ∈ flights core ↔ f ∈ flights st.core)
    (lands : ∀ d, d ∈ landed core ↔ d ∈ landed st.core) (clients : core.clients = st.core.clients)
    (task : core.task = some (id,p)) (next : core.nextJob = st.core.nextJob)
    (running : core.running = st.core.running)
    (mine : ∀ k, fd = some k ↔ ∃ c, st.core.clients id = some c ∧ c.pasvFd = some k)
    (holds : ∀ j, job = some j → Flies st.core j) (shelved : Shelves Shelf.Leaves (rest fd) p)
    (keeping : Keeping s (fun _ => True) none p) (claims : Claims ⟨job,st.refused⟩ p) :
    Good s { st with core } (rest fd) job := by
  obtain ⟨rfl,spare,closing⟩ := good.resting idle
  refine { good with sound, works := ?_, tabled := ?_, born := fun j => ?_, known := fun j has => ?_, apart := fun j owes => ?_
                     handling := fun j h has => ?_, holding := fun j has => ?_ }
  · rw [Works,task]
    exact ⟨shelved,spare ▸ keeping,claims⟩
  · refine good.tabled.same fun owner k => ?_
    cases owner with
    | client other =>
      simp [Belongs,engaged,task,idle,clients]
      by_cases same : id = other
      · subst same
        simpa [rest] using mine k
      · simp [same]
    | listener job => simp [Belongs,flies,debtor,rest]
    | data job => simp [Belongs,lands,debtor,rest]
    | reader job | writer job => rfl
  · simpa [Flies,flies,debtor] using good.born j
  · simpa [next] using good.known j has
  · simpa [Flies,flies] using good.apart j owes
  · simpa [running] using good.handling j h has
  · simpa [Flies,flies] using holds j has

theorem goodComplete {d left c} (idle : st.core.task = none)
    (at_ : st.core.phase = .draining (d :: left)) (owner : st.core.clients d.owner = some c)
    (sound : ∃ log m, Sound core log m)
    (new : core = { st.core with phase := .draining left, task := some (d.owner,datachanComplete d.posted c) }) :
    Good s { st with closing := some d.posted.job.id, core }
      ⟨c.pasvFd,d.posted.dataFd,d.posted.job.pasvFd,false,false⟩ none := by
  obtain ⟨rfl,spare,closing⟩ := good.resting idle
  have out : debtor st = none := by simp [debtor,spare,closing]
  have perm := flightsStep (Reactor.Step.complete idle at_ owner : Reactor.Step 0 s st.core (.complete d) _)
  rw [← new] at perm
  have flies : ∀ f, f ∈ flights st.core ↔ f = d.flight ∨ f ∈ flights core := fun f => by
    simpa [Act.lands,Act.launches] using (perm.mem_iff (a := f)).symm
  have gone : ¬ Flies core d.posted.job.id := by
    obtain ⟨log,m,sound⟩ := good.sound
    have distinct := (perm.map (·.job.id)).nodup_iff.mpr sound.distinct
    simpa [Act.lands,Flies,Delivery.flight] using (List.nodup_cons.mp distinct).1
  subst new
  refine { good with sound, works := ⟨completeShelved d.posted c,?_,completeClaims d.posted c _⟩, tabled := ?_
                     born := fun job => ?_, apart := fun job owes => ?_, posted := by simp, owing := by simp
                     single := fun _ => spare, holding := by simp }
  · rw [spare]
    exact meetsMono (fun _ _ left => ⟨left.1,trivial⟩) (Service.completeKeeping d.posted c)
  · refine good.tabled.same fun who fd => ?_
    cases who with
    | client other =>
      simp [Belongs,engaged,idle]
      by_cases mine : d.owner = other
      · subst mine
        simp [owner]
      · simp [mine]
    | listener job => simp [Belongs,flies,debtor,spare,closing,or_and_right,exists_or,or_comm,Delivery.flight]
    | data job => simp [Belongs,landed,drained,at_,debtor,spare,closing,or_and_right,exists_or,or_comm,or_left_comm]
    | _ => exact Iff.rfl
  · simpa [Flies,flies,debtor,spare,closing,or_and_right,exists_or,or_comm,Delivery.flight] using good.born job
  · obtain rfl : d.posted.job.id = job := by simpa [debtor] using owes
    exact gone

end Frame

section Calls
variable {s : Server} {st : State} {r : Shelf} {held : Option JobId} {id : ClientId} {call : Call}
  {next : Answer call → Handler Client}

variable (good : Good s st r held)
include good

theorem Good.allowed (busy : st.core.task = some (id,.ask call next)) :
    r.Allows call ∧ Careful s st.spare call ∧ Claim.Allows ⟨held,st.refused⟩ call := by
  have works := good.works
  rw [Works,busy] at works
  exact ⟨works.1.1,works.2.1.1,works.2.2.1⟩

theorem Good.worked (busy : st.core.task = some (id,.ask call next)) (answer) {st'}
    (task : st'.core.task = some (id,next answer)) (spare : st'.spare = custody st.spare call answer)
    (refused : st'.refused = (Claim.note ⟨held,st.refused⟩ call answer).refused) :
    Works s st' (r.note call answer) (Claim.note ⟨held,st.refused⟩ call answer).held := by
  have works := good.works
  rw [Works,busy] at works
  rw [Works,task,spare,refused]
  exact ⟨works.1.2 answer trivial,works.2.1.2 answer trivial,works.2.2.2 answer trivial⟩

omit call next in
omit good in
theorem busyEngaged {p q} (busy : st.core.task = some (id,p)) :
    engaged { st.core with task := some (id,q) } = engaged st.core := by simp [engaged,busy]

omit call next in
omit good in
theorem belongsTask {p q} (table) {r} (busy : st.core.task = some (id,p)) (owner fd) :
    Belongs { st with table, core := { st.core with task := some (id,q) } } r owner fd ↔ Belongs st r owner fd := by
  cases owner with
  | client other => simp [Belongs,busyEngaged busy]
  | _ => exact Iff.rfl

theorem goodPlain (busy : st.core.task = some (id,.ask call next)) (answer)
    (sound : ∃ log m, Sound { st.core with task := some (id,next answer) } log m) {setting}
    (spare : custody st.spare call answer = st.spare)
    (claim : Claim.note ⟨held,st.refused⟩ call answer = ⟨held,st.refused⟩)
    (note : r.note call answer = { r with setting }) :
    Good s { st with setting, core := { st.core with task := some (id,next answer) } } { r with setting } held := by
  have works : Works s { st with setting, core := { st.core with task := some (id,next answer) } } _ _ :=
    good.worked busy answer rfl spare.symm (by rw [claim])
  rw [note,claim] at works
  exact { good with sound, works, setting := rfl, tabled := good.tabled.same (belongsTask st.table busy) }

theorem goodSocket {family next fd}
    (busy : st.core.task = some (id,.ask (.socket family) next)) (free : st.table fd = none)
    (sound : ∃ log m, Sound { st.core with task := some (id,next (some fd)) } log m) :
    Good s { st with table := Function.update st.table fd (some (.client id))
                     core := { st.core with task := some (id,next (some fd)) } } { r with mine := some fd } held := by
  obtain ⟨-,empty⟩ := (good.allowed busy).1
  have here : engaged st.core = some id := by simp [engaged,busy]
  have tabled : Registers (Function.update st.table fd (some (.client id))) (Belongs st { r with mine := some fd }) := by
    refine good.tabled.opening free (fun other who k => ?_) (fun k => ?_)
    · cases other with
      | client other =>
        have away : ¬ id = other := fun same => who (congrArg Owner.client same.symm)
        simp [Belongs,here,if_neg away]
      | _ => exact Iff.rfl
    · simp [Belongs,here,empty]
      exact eq_comm
  exact { good with
    sound
    works := good.worked busy (some fd) rfl rfl rfl
    tabled := tabled.same (belongsTask _ busy) }

omit call next in
theorem Good.grounded {job} (owes : debtor st = some job) :
    (∀ f ∈ flights st.core, f.job.id ≠ job) ∧ st.hands job = none ∧ ∀ d ∈ landed st.core, d.posted.job.id ≠ job := by
  have out : ∀ f ∈ flights st.core, f.job.id ≠ job := fun f member is => good.apart job owes ⟨f,member,is⟩
  refine ⟨out,?_,fun d member is => out d.flight ?_ is⟩
  · by_contra some_
    obtain ⟨h,has⟩ := Option.ne_none_iff_exists'.mp some_
    obtain ⟨f,running,is,-⟩ := good.handling job h has
    exact out f (by simp [flights,running]) is
  · have there := List.mem_map_of_mem (f := Delivery.flight) member
    simpa [landed,flights] using Or.inr (Or.inr (by simpa [landed] using there))

omit call next in
theorem Good.dataOwed {fd} (mine : r.data = some fd) : ∃ job, st.closing = some job ∧ debtor st = some job := by
  obtain ⟨job,closing⟩ := Option.ne_none_iff_exists'.mp (good.posted (by simp [mine]))
  exact ⟨job,closing,by simp [debtor,closing]⟩

omit call next in
theorem Good.lentOwed {fd} (mine : r.lent = some fd) : ∃ job, debtor st = some job := by
  refine Option.ne_none_iff_exists'.mp ?_
  rcases good.owing (by simp [mine]) with closing | ⟨spare,-⟩
  · simp [debtor,closing]
  · simp [debtor,spare]

theorem Good.closed {next : Unit → Handler Client} {fd} {r' : Shelf}
    (busy : st.core.task = some (id,.ask (.closeFd fd) next)) (note : r.note (.closeFd fd) () = r')
    (setting : r'.setting = r.setting) (posted : r'.data ≠ none → r.data ≠ none)
    (owing : r'.lent ≠ none → r.lent ≠ none) (tabled : Registers (Function.update st.table fd none) (Belongs st r'))
    {core} (sound : ∃ log m, Sound core log m) (new : core = { st.core with task := some (id,next ()) }) :
    Good s { st with table := Function.update st.table fd none, core } r' held := by
  have works : Works s { st with table := Function.update st.table fd none, core } _ _ :=
    good.worked busy () (by rw [new]) rfl rfl
  rw [note] at works
  subst new
  exact { good with
    sound
    works
    setting := good.setting.trans setting.symm
    tabled := tabled.same (belongsTask _ busy)
    posted := fun some_ => good.posted (posted some_)
    owing := fun some_ => good.owing (owing some_) }

theorem goodClose {next : Unit → Handler Client} {fd}
    (busy : st.core.task = some (id,.ask (.closeFd fd) next))
    (sound : ∃ log m, Sound { st.core with task := some (id,next ()) } log m) :
    Good s { st with table := Function.update st.table fd none, core := { st.core with task := some (id,next ()) } }
      (r.note (.closeFd fd) ()) held := by
  obtain ⟨-,mine | ⟨noData,mine | ⟨noLent,mine⟩⟩⟩ := (good.allowed busy).1
  · obtain ⟨job,closing,owes⟩ := good.dataOwed mine
    obtain ⟨-,hands,lands⟩ := good.grounded owes
    have here : Belongs st r (.data job) fd := Or.inr (Or.inr ⟨owes,mine⟩)
    have note : r.note (.closeFd fd) () = { r with data := none } := by rw [Shelf.note,if_pos mine]
    rw [note]
    refine good.closed busy note rfl (by simp) (fun some_ => some_) ?_ sound rfl
    refine good.tabled.closing here (fun other who k => ?_) (fun k => ?_)
    · cases other with
      | data other =>
        have away : ¬ job = other := fun same => who (congrArg Owner.data same.symm)
        simp [Belongs,owes,away]
      | _ => exact Iff.rfl
    have nowhere : ¬ ∃ d ∈ landed st.core, d.posted.job.id = job ∧ d.posted.dataFd = some k := by
      rintro ⟨d,member,is,-⟩
      exact lands d member is
    simp only [Belongs,hands,owes,mine,nowhere,Option.some.injEq,reduceCtorEq,false_and,exists_false,true_and,and_false,
      false_or,false_iff,not_and,not_not]
    exact Eq.symm
  · obtain ⟨job,owes⟩ := good.lentOwed mine
    obtain ⟨flies,-,-⟩ := good.grounded owes
    have here : Belongs st r (.listener job) fd := Or.inr ⟨owes,mine⟩
    have note : r.note (.closeFd fd) () = { r with lent := none } := by
      rw [Shelf.note,if_neg (by simp [noData]),if_pos mine]
    rw [note]
    refine good.closed busy note rfl (fun some_ => some_) (by simp) ?_ sound rfl
    refine good.tabled.closing here (fun other who k => ?_) (fun k => ?_)
    · cases other with
      | listener other =>
        have away : ¬ job = other := fun same => who (congrArg Owner.listener same.symm)
        simp [Belongs,owes,away]
      | _ => exact Iff.rfl
    have nowhere : ¬ ∃ f ∈ flights st.core, f.job.id = job ∧ f.job.pasvFd = some k := by
      rintro ⟨f,member,is,-⟩
      exact flies f member is
    simp only [Belongs,owes,mine,nowhere,Option.some.injEq,reduceCtorEq,true_and,and_false,false_or,false_iff,not_and,
      not_not]
    exact Eq.symm
  have engaged_ : engaged st.core = some id := by simp [engaged,busy]
  have here : Belongs st r (.client id) fd := by
    simp [Belongs,engaged_]
    exact mine
  have note : r.note (.closeFd fd) () = { r with mine := none, shut := !r.setting } := by
    rw [Shelf.note,if_neg (by simp [noData]),if_neg (by simp [noLent])]
  rw [note]
  refine good.closed busy note rfl (fun some_ => some_) (fun some_ => some_) ?_ sound rfl
  refine good.tabled.closing here (fun other who k => ?_) (fun k => ?_)
  · cases other with
    | client other =>
      have away : ¬ id = other := fun same => who (congrArg Owner.client same.symm)
      simp [Belongs,engaged_,away]
    | _ => exact Iff.rfl
  · simp [Belongs,engaged_,mine,eq_comm]

/-! A job that is handed over takes the listener along, whether the pool takes it or not. -/

omit call next in
omit good in
theorem calledDispatch (st id job answer) : called st id (.dispatch job) answer =
    { st with table := (lend st job).table, spare := if answer then none else st.spare, refused := !answer } := by
  cases given : job.pasvFd <;> simp [called,lend,given]

omit call next in
theorem lendTabled {job st' r'} (here : engaged st.core = some id) (calm : r.Calm)
    (own : job.pasvFd = none ∨ job.pasvFd = r.mine) (table : st'.table = (lend st job).table)
    (pipes : st'.pipes = st.pipes) (hands : st'.hands = st.hands) (lands : landed st'.core = landed st.core)
    (clients : st'.core.clients = st.core.clients) (still : engaged st'.core = some id) (data : r'.data = none)
    (mine : r'.mine = if job.pasvFd = none then r.mine else none)
    (listeners : ∀ other k, Belongs st' r' (.listener other) k ↔
      Belongs st r (.listener other) k ∨ job.id = other ∧ job.pasvFd = some k) :
    Registers st'.table (Belongs st' r') := by
  obtain ⟨noData,noLent,-⟩ := calm
  have client : ∀ other k, Belongs st' r' (.client other) k ↔
      Belongs st r (.client other) k ∧ ¬ (other = id ∧ job.pasvFd = some k) := by
    intro other k
    simp [Belongs,here,still,clients]
    by_cases same : id = other
    · subst same
      simp [mine]
      cases given : job.pasvFd with
      | none => simp
      | some fd =>
        have held : r.mine = some fd := by simpa [given,eq_comm] using own
        simp [held]
    · simp [same,Ne.symm same]
  have others : ∀ owner k, (∀ other, owner ≠ .client other) → (∀ other, owner ≠ .listener other) →
      (Belongs st' r' owner k ↔ Belongs st r owner k) := by
    intro owner k notClient notListener
    cases owner with
    | client other => exact absurd rfl (notClient other)
    | listener other => exact absurd rfl (notListener other)
    | data other => simp [Belongs,hands,lands,data,noData]
    | reader other | writer other => simp [Belongs,pipes]
  rw [table]
  cases given : job.pasvFd with
  | none =>
    rw [lend,given]
    refine good.tabled.same fun owner k => ?_
    cases owner with
    | client other => simpa [given] using client other k
    | listener other => simpa [given] using listeners other k
    | _ => exact others _ k (by simp) (by simp)
  | some fd =>
    have held : Belongs st r (.client id) fd := by
      have mine : r.mine = some fd := by simpa [given,eq_comm] using own
      simp [Belongs,here,mine]
    rw [lend,given]
    refine good.tabled.moving held (by simp) (fun owner notClient notListener k => ?_) (fun k => ?_) (fun k => ?_)
    · cases owner with
      | client other =>
        have away : other ≠ id := fun same => notClient (congrArg Owner.client same)
        simpa [away] using client other k
      | listener other =>
        have away : job.id ≠ other := fun same => notListener (congrArg Owner.listener same.symm)
        simpa [away] using listeners other k
      | _ => exact others _ k (by simp) (by simp)
    · simpa [given,eq_comm] using client id k
    · simpa [given,eq_comm] using listeners job.id k

omit call next in
omit good in
theorem lentNote {job} (calm : r.Calm) (answer) : r.note (.dispatch job) answer =
    { r with mine := if job.pasvFd = none then r.mine else none, lent := if answer then none else job.pasvFd } := by
  rw [Shelf.note]
  split
  · obtain ⟨mine,data,lent,setting,shut⟩ := r
    obtain ⟨-,rfl,-⟩ := calm
    simp [*]
  · simp [*]

theorem goodSent {job next} (busy : st.core.task = some (id,.ask (.dispatch job) next))
    (waits : st.closing = none) {core} (sound : ∃ log m, Sound core log m)
    (new : core = { st.core with queue := st.core.queue ++ [⟨id,job⟩], task := some (id,next true) }) :
    Good s { called st id (.dispatch job) true with core }
      (r.note (.dispatch job) true) (some job.id) := by
  obtain ⟨⟨calm,own⟩,spare,-⟩ := good.allowed busy
  have owes : debtor st = some job.id := by
    rw [debtor,waits]
    exact spare
  have flies : ∀ f, f ∈ flights core ↔ f = ⟨id,job⟩ ∨ f ∈ flights st.core := fun f => by
    simp [new,flights,drained,or_left_comm]
  have works : Works s { called st id (.dispatch job) true with core } _ (some job.id) :=
    good.worked busy true (by rw [new]) (by rw [calledDispatch]; rfl) (by rw [calledDispatch]; rfl)
  rw [calledDispatch,lentNote calm true] at works ⊢
  subst new
  refine { good with
    sound
    works
    tabled := ?_
    born := fun j => ?_
    apart := by simp [debtor,waits]
    owing := by simp
    single := fun _ => rfl
    holding := fun j is => ⟨_,(flies _).mpr (.inl rfl),Option.some.inj is⟩ }
  · refine lendTabled good (by simp [engaged,busy]) calm own rfl rfl rfl rfl rfl rfl calm.1 rfl fun other k => ?_
    simp [Belongs,debtor,waits,flies,calm.2.1,or_and_right,exists_or,or_comm]
  · rw [good.born,owes]
    simp [Flies,flies,debtor,waits,or_and_right,exists_or,or_comm]

theorem goodRefused {job next} (busy : st.core.task = some (id,.ask (.dispatch job) next))
    (waits : st.closing = none) (sound : ∃ log m, Sound { st.core with task := some (id,next false) } log m) :
    Good s { called st id (.dispatch job) false with core := { st.core with task := some (id,next false) } }
      (r.note (.dispatch job) false) held := by
  obtain ⟨⟨calm,own⟩,spare,-⟩ := good.allowed busy
  have spare : st.spare = some job.id := spare
  have works : Works s { called st id (.dispatch job) false with core := { st.core with task := some (id,next false) } }
      (r.note (.dispatch job) false) held := good.worked busy false rfl (by rw [calledDispatch]; rfl) (by rw [calledDispatch]; rfl)
  rw [calledDispatch,lentNote calm false] at works ⊢
  refine { good with sound, works, tabled := ?_, owing := fun _ => .inr ⟨by simp [spare],rfl⟩ }
  refine lendTabled good (by simp [engaged,busy]) calm own rfl rfl rfl rfl rfl rfl calm.1 rfl fun other k => ?_
  simp [Belongs,debtor,waits,spare,calm.2.1]
  exact Iff.rfl

/-! The pipe of a job goes with the job, when its sockets are closed. -/

omit call next in
omit good in
theorem closePipeAs (st job) : closePipe st job =
    { st with table := (closePipe st job).table, pipes := (closePipe st job).pipes } := by
  unfold closePipe
  split <;> rfl

omit call next in
theorem Good.unpiped {job} (st') (owes : debtor st = some job) (data : r.data = none)
    (lent : r.lent = none) (paid : debtor st' = none) (core : st'.core = { st.core with task := st'.core.task })
    (still : engaged st'.core = engaged st.core) (hands : st'.hands = st.hands)
    (table : st'.table = (closePipe st job).table) (pipes : st'.pipes = (closePipe st job).pipes) :
    Registers st'.table (Belongs st' r) ∧ (∀ j, st'.pipes j ≠ none ↔ Flies st'.core j ∨ debtor st' = some j) ∧
      ∀ j, st'.pipes j ≠ none → j < st'.core.nextJob := by
  obtain ⟨⟨v,w⟩,pair⟩ := Option.ne_none_iff_exists'.mp ((good.born job).mpr (.inr owes))
  simp [closePipe,pair] at table pipes
  have flies : flights st'.core = flights st.core := by
    rw [core]
    rfl
  have lands : landed st'.core = landed st.core := by
    rw [core]
    rfl
  have clients : st'.core.clients = st.core.clients := by rw [core]
  have fewer : ∀ j, st'.pipes j ≠ none ↔ j ≠ job ∧ st.pipes j ≠ none := by
    intro j
    rw [pipes]
    by_cases same : j = job <;> simp [same]
  refine ⟨?_,fun j => ?_,fun j has => ?_⟩
  · have reader : Belongs st r (.reader job) v := ⟨w,pair⟩
    have first : Registers (Function.update st.table v none)
        (fun owner k => owner ≠ .reader job ∧ Belongs st r owner k) := by
      refine good.tabled.closing reader (fun other who k => ?_) (fun k => ?_)
      · simp [who]
      · simp [Belongs,pair,eq_comm]
    rw [table]
    refine first.closing ⟨(by simp : Owner.writer job ≠ .reader job),⟨v,pair⟩⟩ (fun other who k => ?_) (fun k => ?_)
    · cases other with
      | client other => simp [Belongs,still,clients]
      | listener other => simp [Belongs,flies,paid,lent]
      | data other => simp [Belongs,hands,lands,paid,data]
      | reader other => by_cases same : other = job <;> simp [Belongs,same,pipes]
      | writer other =>
        have away : other ≠ job := fun same => who (congrArg Owner.writer same)
        simp [Belongs,away,pipes]
    · simp [Belongs,pair,pipes,eq_comm]
  · rw [fewer,good.born,owes]
    simp [Flies,flies,paid]
    constructor
    · rintro ⟨away,there⟩
      exact there.resolve_right fun same => away same.symm
    · exact fun there => ⟨fun same => good.apart job owes (same ▸ there),.inl there⟩
  · rw [core]
    exact good.known j ((fewer j).mp has).2

theorem goodFree {job next} (busy : st.core.task = some (id,.ask (.freeJob job) next))
    (waits : st.closing = none) (sound : ∃ log m, Sound { st.core with task := some (id,next ()) } log m) :
    Good s { called st id (.freeJob job) () with core := { st.core with task := some (id,next ()) } } r held := by
  obtain ⟨⟨data,lent,-⟩,spare,-⟩ := good.allowed busy
  have owes : debtor st = some job := by
    rw [debtor,waits]
    exact spare
  have same : called st id (.freeJob job) () =
      { st with table := (closePipe st job).table, pipes := (closePipe st job).pipes, spare := none } := by
    show { closePipe st job with spare := none } = _
    rw [closePipeAs]
  have works : Works s { called st id (.freeJob job) () with core := { st.core with task := some (id,next ()) } } r held :=
    good.worked busy () rfl (by rw [same]; rfl) (by rw [same]; rfl)
  rw [same] at works ⊢
  obtain ⟨tabled,born,known⟩ := good.unpiped { st with table := (closePipe st job).table
                                                       pipes := (closePipe st job).pipes
                                                       spare := none
                                                       core := { st.core with task := some (id,next ()) } }
    owes data lent (by simp [debtor,waits]) rfl (busyEngaged busy) rfl rfl rfl
  exact { good with sound, works, tabled, born, known, apart := by simp [debtor,waits], single := fun _ => rfl
                    owing := fun some_ => absurd lent some_ }

omit call next id in
theorem Good.emptied
    (after : ∀ id fd next, st.core.task ≠ some (id,.ask (.closeFd fd) next)) : r.data = none ∧ r.lent = none := by
  have works := good.works
  unfold Works at works
  cases busy : st.core.task with
  | none =>
    rw [busy] at works
    rw [works.1]
    exact ⟨rfl,rfl⟩
  | some task =>
    obtain ⟨id,p⟩ := task
    rw [busy] at works
    cases p with
    | done c =>
      obtain ⟨-,data,lent,-⟩ := works.1
      exact ⟨data,lent⟩
    | ask call next =>
      have allowed := works.1.1
      cases call
      case closeFd fd => exact absurd busy (after id fd next)
      case socket | dispatch => exact ⟨allowed.1.1,allowed.1.2.1⟩
      all_goals exact ⟨allowed.1,allowed.2.1⟩

omit call next id in
theorem goodPipe {job} (due : st.closing = some job)
    (after : ∀ id fd next, st.core.task ≠ some (id,.ask (.closeFd fd) next)) :
    Good s { closePipe st job with closing := none } r held := by
  obtain ⟨data,lent⟩ := good.emptied after
  have owes : debtor st = some job := by rw [debtor,due,Option.some_or]
  have spare : st.spare = none := good.single (by simp [due])
  rw [closePipeAs]
  obtain ⟨tabled,born,known⟩ := good.unpiped { st with table := (closePipe st job).table
                                                       pipes := (closePipe st job).pipes
                                                       closing := none }
    owes data lent (by simp [debtor,spare]) rfl rfl rfl rfl rfl
  refine { good with tabled, born, known, works := ?_, apart := by simp [debtor,spare], posted := fun some_ => absurd data some_
                     owing := fun some_ => absurd lent some_, single := fun some_ => absurd rfl some_ }
  have works := good.works
  unfold Works at works ⊢
  cases busy : st.core.task with
  | none =>
    rw [busy] at works
    exact ⟨works.1,works.2.1,rfl⟩
  | some task =>
    rw [busy] at works
    exact works

theorem goodCreate {op next v w} (busy : st.core.task = some (id,.ask (.newJob op) next))
    (waits : st.closing = none) (unused : st.table v = none ∧ st.table w = none) (two : v ≠ w)
    (sound : ∃ log m, Sound { st.core with nextJob := st.core.nextJob + 1, task := some (id,next (some st.core.nextJob)) }
      log m) :
    Good s { st with core := { st.core with nextJob := st.core.nextJob + 1, task := some (id,next (some st.core.nextJob)) }
                     table := Function.update (Function.update st.table v (some (.reader st.core.nextJob))) w
                       (some (.writer st.core.nextJob))
                     pipes := Function.update st.pipes st.core.nextJob (some (v,w))
                     spare := some st.core.nextJob } r held := by
  obtain ⟨⟨data,lent,-⟩,spare,-⟩ := good.allowed busy
  have spare : st.spare = none := spare
  have owes : debtor st = none := by rw [debtor,waits,spare,Option.none_or]
  generalize new : st.core.nextJob = job at sound ⊢
  have unborn : st.pipes job = none := by
    by_contra has
    exact absurd (good.known job has) (by simp [new])
  have grounded : ¬ Flies st.core job := fun flies => (good.born job).mpr (.inl flies) unborn
  refine { good with sound, works := good.worked busy (some job) rfl rfl rfl, tabled := ?_, born := fun j => ?_
                     known := fun j has => ?_, apart := fun j is => ?_, owing := fun some_ => absurd lent some_
                     single := fun some_ => absurd waits some_ }
  · have first : Registers (Function.update st.table v (some (.reader job)))
        (fun owner k => Belongs st r owner k ∨ owner = .reader job ∧ k = v) := by
      refine good.tabled.opening unused.1 (fun other who k => ?_) (fun k => ?_)
      · simp [who]
      · simp
    refine first.opening (by rw [Function.update_of_ne two.symm]; exact unused.2) (fun other who k => ?_) (fun k => ?_)
    · cases other with
      | client other => simp [Belongs,engaged,busy]
      | listener other =>
        simp [Belongs,lent]
        exact Iff.rfl
      | data other =>
        simp [Belongs,data]
        exact Iff.rfl
      | reader other =>
        by_cases same : other = job
        · simp [Belongs,same,unborn,eq_comm]
        · simp [Belongs,same]
      | writer other =>
        have away : other ≠ job := fun same => who (congrArg Owner.writer same)
        simp [Belongs,away]
    · simp [Belongs,unborn,eq_comm]
  · simp only [debtor,waits,Option.none_or,Option.some.injEq]
    by_cases same : j = job
    · simp [same]
    · rw [Function.update_of_ne same,good.born,owes]
      simp [Flies,flights,drained,Ne.symm same]
  · by_cases same : j = job
    · simp [same]
    have there : st.pipes j ≠ none := by simpa [Function.update_of_ne same] using has
    have below := good.known j there
    rw [new] at below
    exact Nat.lt_succ_of_lt below
  · obtain rfl : job = j := by simpa [debtor,waits] using is
    exact grounded

theorem goodFinish {c} (busy : st.core.task = some (id,.done c)) (waits : st.closing = none)
    (sound : ∃ log m, Sound { st.core with clients := seated st.core id c, task := none } log m) :
    Good s { st with core := { st.core with clients := seated st.core id c, task := none } } (rest none) none := by
  have works := good.works
  rw [Works,busy] at works
  obtain ⟨⟨mine,data,lent,setting,-⟩,⟨spare,-⟩,-⟩ := works
  refine { good with sound, works := ⟨rfl,spare,waits⟩, setting := good.setting.trans setting, tabled := ?_
                     posted := fun some_ => absurd rfl some_, owing := fun some_ => absurd rfl some_, holding := by simp }
  refine good.tabled.same fun owner k => ?_
  cases owner with
  | client other =>
    simp [Belongs,engaged,busy,seated]
    by_cases same : id = other
    · simp [same,mine]
    · simp [same,Ne.symm same]
  | listener other =>
    simp [Belongs,lent,rest]
    exact Iff.rfl
  | data other =>
    simp [Belongs,data,rest]
    exact Iff.rfl
  | reader other | writer other => exact Iff.rfl

end Calls

section Hands
variable {s : Server} {st : State} {r : Shelf} {held : Option JobId}

theorem Good.alone {f g} (good : Good s st r held) (one : f ∈ flights st.core) (two : g ∈ flights st.core)
    (same : f.job.id = g.job.id) : f = g := by
  obtain ⟨log,m,sound⟩ := good.sound
  exact List.inj_on_of_nodup_map sound.distinct one two same

theorem goodTake {f left} (rounds) (good : Good s st r held) (waiting : st.core.queue = f :: left)
    {core} (sound : ∃ log m, Sound core log m) (new : core = { st.core with queue := left, running := f :: st.core.running }) :
    Good s { st with
        core
        hands := Function.update st.hands f.job.id (some ⟨rounds,[],transferRun rounds s f.job,none⟩) } r held := by
  have queued : f ∈ flights st.core := by simp [flights,waiting]
  have idle : st.hands f.job.id = none := by
    by_contra has
    obtain ⟨h,has⟩ := Option.ne_none_iff_exists'.mp has
    obtain ⟨g,running,is,-⟩ := good.handling _ h has
    have same : g = f := good.alone (by simp [flights,running]) queued is
    obtain ⟨log,m,sound⟩ := good.sound
    have distinct := (List.nodup_append.mp sound.distinct.of_map).1
    rw [waiting] at distinct
    exact (List.nodup_cons.mp distinct).1 (by simp [same ▸ running])
  have flies : ∀ g, g ∈ flights core ↔ g ∈ flights st.core := fun g => by
    simp [new,flights,drained,waiting,or_left_comm]
  subst new
  refine { good with sound, tabled := ?_, born := fun j => ?_, apart := fun j is => ?_, handling := fun j h has => ?_
                     holding := fun j is => ?_ }
  · refine good.tabled.same fun owner k => ?_
    cases owner with
    | listener other => simp [Belongs,flies,debtor]
    | data other =>
      by_cases mine : other = f.job.id
      · simp [Belongs,mine,landed,drained,debtor,idle]
      · simp [Belongs,mine,landed,drained,debtor]
    | _ => exact Iff.rfl
  · simpa [Flies,flies,debtor] using good.born j
  · simpa [Flies,flies] using good.apart j is
  · by_cases mine : j = f.job.id
    · subst mine
      obtain rfl : (⟨rounds,[],transferRun rounds s f.job,none⟩ : Hand) = h := by simpa using has
      exact ⟨f,by simp,rfl,fun trace o run => run,runHandling rounds s⟩
    · obtain ⟨g,running,rest⟩ := good.handling j h (by simpa [mine] using has)
      exact ⟨g,by simp [running],rest⟩
  · simpa [Flies,flies] using good.holding j is

theorem Handled.gains {job h call next} (handled : Handled s job h) (at_ : h.left = Program.ask call next) :
    Handles job h.data call ∧
      ∀ answer, Handled s job ⟨h.rounds,h.trace ++ [⟨call,answer⟩],next answer,opened h.data call answer⟩ := by
  obtain ⟨runs,handling⟩ := handled
  rw [at_] at runs handling
  refine ⟨handling.1,fun answer => ⟨fun trace o run => ?_,handling.2 answer trivial⟩⟩
  have whole := runs (⟨call,answer⟩ :: trace) o (.ask answer run)
  simpa using whole

theorem Handles.fresh {job data call answer fd} (handles : Handles job data call) (new : gained call answer = some fd) :
    data = none := by
  cases call with
  | accept listener => exact handles.2
  | socket family => exact handles
  | _ => cases new

theorem goodWork {job h call next} (answer) (good : Good s st r held) (has : st.hands job = some h)
    (at_ : h.left = Program.ask call next) (unused : ∀ fd, gained call answer = some fd → st.table fd = none) :
    Good s { st with table := gain st.table job (gained call answer)
                     hands := Function.update st.hands job
                       (some ⟨h.rounds,h.trace ++ [⟨call,answer⟩],next answer,opened h.data call answer⟩) } r held := by
  obtain ⟨f,running,is,handled⟩ := good.handling job h has
  obtain ⟨handles,later⟩ := handled.gains at_
  have flies : f ∈ flights st.core := by simp [flights,running]
  refine { good with tabled := ?_, handling := fun j g there => ?_ }
  · cases new : gained call answer with
    | none =>
      have still : opened h.data call answer = h.data := by rw [opened,new,Option.none_or]
      refine good.tabled.same fun owner k => ?_
      cases owner with
      | data other =>
        by_cases mine : other = job
        · simp [Belongs,mine,still,has,debtor]
        · simp [Belongs,mine,debtor]
      | _ => exact Iff.rfl
    | some fd =>
      have gains : opened h.data call answer = some fd := by rw [opened,new,Option.some_or]
      refine good.tabled.opening (unused fd new) (fun other who k => ?_) (fun k => ?_)
      · cases other with
        | data other =>
          have away : other ≠ job := fun same => who (congrArg Owner.data same)
          simp [Belongs,away,debtor]
        | _ => exact Iff.rfl
      · have empty := handles.fresh new
        rw [empty] at gains
        simp [Belongs,gains,has,empty,debtor,eq_comm,or_comm]
  by_cases mine : j = job
  · subst mine
    obtain rfl : (⟨h.rounds,h.trace ++ [⟨call,answer⟩],next answer,opened h.data call answer⟩ : Hand) = g := by
      simpa using there
    exact ⟨f,running,is,later answer⟩
  · exact good.handling j g (by simpa [mine] using there)

theorem Handled.posts {job h posted} (handled : Handled s job h) (done : h.left = Program.done (some posted)) :
    (transferRun h.rounds s job).Runs h.trace (some posted) ∧ Returned job h.data posted := by
  obtain ⟨runs,handling⟩ := handled
  rw [done] at runs handling
  exact ⟨by simpa using runs [] _ (.done _),handling posted rfl⟩

theorem goodPost {f before after h posted} (good : Good s st r held) (busy : st.core.running = before ++ f :: after)
    (has : st.hands f.job.id = some h) (done : h.left = Program.done (some posted))
    {core} (sound : ∃ log m, Sound core log m)
    (new : core = { st.core with running := before ++ after, completions := ⟨f.owner,posted⟩ :: st.core.completions }) :
    Good s { st with core
                     hands := Function.update st.hands f.job.id none } r held := by
  obtain ⟨g,running,is,handled⟩ := good.handling _ h has
  have here : f ∈ flights st.core := by simp [flights,busy]
  obtain rfl : g = f := good.alone (by simp [flights,running]) here is
  obtain ⟨-,returned,data⟩ := handled.posts done
  have flies : ∀ x, x ∈ flights core ↔ x ∈ flights st.core := by
    intro x
    simp only [new,flights,drained,busy,List.map_cons,Delivery.flight,returned,List.mem_append,List.mem_cons]
    tauto
  subst new
  refine { good with sound, tabled := ?_, born := fun j => ?_, apart := fun j owes => ?_, handling := fun j h' there => ?_
                     holding := fun j mine => ?_ }
  · refine good.tabled.same fun owner k => ?_
    cases owner with
    | listener other => simp [Belongs,flies,debtor]
    | data other =>
      by_cases mine : other = g.job.id
      · simp [Belongs,mine,landed,drained,debtor,has,returned,data,or_and_right,exists_or,or_assoc]
      · simp [Belongs,mine,Ne.symm mine,landed,drained,debtor,returned,or_and_right,exists_or]
    | _ => exact Iff.rfl
  · simpa [Flies,flies,debtor] using good.born j
  · simpa [Flies,flies] using good.apart j owes
  · by_cases mine : j = g.job.id
    · simp [mine] at there
    obtain ⟨x,running',rest⟩ := good.handling j h' (by simpa [mine] using there)
    refine ⟨x,?_,rest⟩
    have away : x ≠ g := fun same => mine (rest.1 ▸ same ▸ rfl)
    simpa [busy,away] using running'
  · simpa [Flies,flies] using good.holding j mine

end Hands

section Run
variable {workers : Nat} {s : Server} {st st' : State} {r : Shelf} {held : Option JobId}

theorem goodCall {id call} {next : Answer call → Handler Client} {answer} (good : Good s st r held)
    (busy : st.core.task = some (id,.ask call next)) (simple : Simple (.call id ⟨call,answer⟩))
    (unused : Unused st.table (.call id ⟨call,answer⟩)) (waits : st.closing = none ∨ Shuts (.call id ⟨call,answer⟩))
    (sound : ∃ log m, Sound { answered st.core id call answer with task := some (id,next answer) } log m) :
    ∃ held', Good s { called st id call answer with
        core := { answered st.core id call answer with task := some (id,next answer) } } (r.note call answer) held' := by
  have same : r = { r with setting := st.setting } := by rw [good.setting]
  cases call
  case enter name c => exact ⟨held,goodPlain good busy answer sound rfl rfl rfl⟩
  case send about text => exact ⟨held,goodPlain good busy answer sound rfl rfl rfl⟩
  case newJob op =>
    obtain rfl : answer = none := simple
    have spare : st.spare = none := (good.allowed busy).2.1
    have plain := goodPlain good busy none sound spare.symm rfl same
    rw [← same] at plain
    exact ⟨held,plain⟩
  case socket family =>
    cases answer with
    | some fd => exact ⟨held,goodSocket good busy (unused fd rfl) sound⟩
    | none =>
      have note : r.note (.socket family) none = { r with setting := st.setting } := by
        obtain ⟨-,empty⟩ := (good.allowed busy).1
        rw [Shelf.note,good.setting,← empty]
      rw [note]
      exact ⟨held,goodPlain good busy none sound rfl rfl note⟩
  case closeFd fd => exact ⟨held,goodClose good busy sound⟩
  case dispatch job =>
    have open_ : st.closing = none := waits.resolve_right fun shuts => shuts
    cases answer with
    | true => exact ⟨_,goodSent good busy open_ sound rfl⟩
    | false => exact ⟨held,goodRefused good busy open_ sound⟩
  case freeJob job =>
    exact ⟨held,goodFree good busy (waits.resolve_right fun shuts => shuts) sound⟩
  all_goals
    have plain := goodPlain good busy answer sound rfl rfl same
    rw [← same] at plain
    exact ⟨held,plain⟩

theorem Good.waiting {id c} (good : Good s st r held) (owner : st.core.clients id = some c)
    (free : engaged st.core ≠ some id) (j) (has : c.job = some j) : Flies st.core j := by
  obtain ⟨log,m,sound⟩ := good.sound
  rcases sound.seats id free with ⟨absent,-⟩ | ⟨here,-,holds⟩ | ⟨here,-,none_,-,-⟩
  · rw [owner] at absent
    cases absent
  · rw [owner] at here
    cases here
    rw [has] at holds
    obtain ⟨job,one,is,-⟩ := holds
    have mine : (⟨id,job⟩ : Flight) ∈ own st.core id := by simp [one]
    exact ⟨_,(List.mem_filter.mp mine).1,is⟩
  rw [owner] at here
  cases here
  rw [has] at none_
  cases none_

theorem goodCore {act core} (good : Good s st r held) (simple : Simple act)
    (step : Reactor.Step workers s st.core act core) (unused : Unused st.table act)
    (waits : st.closing = none ∨ Shuts act) : ∃ r' held', Good s { acted st act with core } r' held' := by
  have sound : ∃ log m, Sound core log m := by
    obtain ⟨log,m,sound⟩ := good.sound
    exact ⟨_,soundStep sound step⟩
  have flies : act.lands = [] → act.launches = [] → ∀ f, f ∈ flights core ↔ f ∈ flights st.core := by
    intro lands launches f
    have perm := flightsStep step
    rw [lands,launches] at perm
    exact perm.mem_iff
  cases step with
  | wake _ at_ | collect _ at_ _ | accepted _ at_ | served _ at_ =>
    exact ⟨r,held,good.move sound (flies rfl rfl) (by simp [landed,drained,at_]) rfl rfl rfl rfl⟩
  | complete idle at_ owner => exact ⟨_,_,goodComplete good idle at_ owner sound rfl⟩
  | @event id revents left c root received idle at_ owner =>
    have keeping : Custody s (handleClientEvents { s with root } revents received c) :=
      @Service.eventKeeping { s with root } revents received c
    refine ⟨rest c.pasvFd,c.job,good.begin idle sound (flies rfl rfl) (by simp [landed,drained,at_]) rfl rfl rfl rfl ?_
      (good.waiting owner (by simp [engaged,idle])) (eventShelved _ revents received c) keeping
      (eventClaims _ c revents received _)⟩
    simp [owner]
  | accept idle at_ =>
    refine ⟨rest none,none,good.begin idle sound (flies rfl rfl) (by simp [landed,drained,at_]) rfl rfl rfl rfl ?_ ?_
      (acceptShelved s _) ?_ (acceptClaims s _ _)⟩
    · obtain ⟨log,m,sound⟩ := good.sound
      simp [(sound.coming _ le_rfl).1]
    · simp
    · exact meetsMono (fun _ _ left => ⟨left.1,trivial⟩) (Service.acceptKeeping _)
  | call answer busy _ => exact ⟨_,goodCall good busy simple unused waits sound⟩
  | finish busy => exact ⟨_,_,goodFinish good busy (waits.resolve_right fun shuts => shuts) sound⟩
  | take | post => exact simple.elim

theorem goodStep {move} (good : Good s st r held) (step : Step workers s st move st') :
    ∃ r' held', Good s st' r' held' := by
  have sound : ∀ {act core}, Reactor.Step workers s st.core act core → ∃ log m, Sound core log m := by
    intro act core step
    obtain ⟨log,m,sound⟩ := good.sound
    exact ⟨_,soundStep sound step⟩
  cases step with
  | core simple step unused waits => exact goodCore good simple step unused waits
  | create step waits unused two =>
    have sound := sound step
    cases step with
    | call _ busy possible =>
      obtain rfl : _ = st.core.nextJob := by simpa [Answers] using possible
      exact ⟨r,held,goodCreate good busy waits unused two sound⟩
  | pipe due after => exact ⟨r,held,goodPipe good due after⟩
  | take rounds step =>
    have sound := sound step
    cases step with
    | take waiting _ => exact ⟨r,held,goodTake rounds good waiting sound rfl⟩
  | work answer has at_ unused => exact ⟨r,held,goodWork answer good has at_ unused⟩
  | @post f before after h posted busy has done =>
    obtain ⟨g,running,is,handled⟩ := good.handling _ h has
    have here : f ∈ flights st.core := by simp [flights,busy]
    obtain rfl : g = f := good.alone (by simp [flights,running]) here is
    exact ⟨r,held,goodPost good busy has done (sound (.post busy (handled.posts done).1)) rfl⟩

theorem goodReached (reached : (descriptors workers s).Reached st) : ∃ r held, Good s st r held :=
  @System.invariant _ _ _ _ (fun st => ∃ r held, Good s st r held) (fun _ start => ⟨_,_,goodStart start⟩)
    (fun _ _ _ ⟨_,_,good⟩ _ step => goodStep good step) _ reached

end Run
end OpenPs3Ftp.Descriptors
