import OpenPs3Ftp.Conversation
import OpenPs3Ftp.Descriptors.Safety
import OpenPs3Ftp.Descriptors.Schedule
import OpenPs3Ftp.Reactor

/-! Every descriptor made for a client or a job has one owner from when it is opened until
it is closed, and nothing uses it after that. -/
namespace OpenPs3Ftp.Descriptors
open Lib Text Fs Session Commands Dispatch Events Worker Reactor Program

def Freed (c : Client) : Prop := c.connected = false → c.pasvFd = none

structure Cleared (st : Reactor.State) : Prop where
  seats : ∀ id c, st.clients id = some c → Freed c
  task : ∀ id p, st.task = some (id,p) → ∀ trace c, p.Runs trace c → Freed c

variable {c : Client} {trace : Trace}

theorem completeFreed {p c'} (freed : Freed c) (run : (datachanComplete p c).Runs trace c') : Freed c' := by
  cases completeRuns run <;> exact freed

variable {s : Server}

theorem eventFreed {revents received c'} (connected : c.connected = true)
    (run : (handleClientEvents s revents received c).Runs trace c') : Freed c' := by
  obtain ⟨front,back,middle,rfl,-,still,last⟩ := eventEnds connected run
  unfold finishEvent at last
  split at last
  · obtain ⟨-,rfl⟩ := disconnectRuns last
    exact fun _ => rfl
  obtain ⟨-,rfl⟩ := runsDone.mp last
  intro gone
  rw [still] at gone
  cases gone

theorem acceptFreed {peer} (run : (acceptClient s peer).Runs trace c) : Freed c := by
  obtain ⟨⟨-,connected⟩,-⟩ := meetsRuns (Service.acceptKeeping peer) run (fun _ _ => trivial)
  intro gone
  rw [connected] at gone
  cases gone

variable {workers : Nat}

theorem clearedStep {st st' log m act} (sound : Sound st log m) (cleared : Cleared st)
    (step : Reactor.Step workers s st act st') : Cleared st' := by
  obtain ⟨seats,task⟩ := cleared
  cases step with
  | wake | collect | accepted | served | take | post => exact ⟨seats,task⟩
  | complete _ _ owner =>
    refine ⟨seats,fun id p busy trace c run => ?_⟩
    cases busy
    exact completeFreed (seats _ _ owner) run
  | @event id revents left c root received idle at_ owner =>
    refine ⟨seats,fun id p busy trace c run => ?_⟩
    cases busy
    obtain ⟨c',found,here⟩ := (sound.ready at_).2 id (by simp [Ready.id?])
    rw [owner] at found
    cases found
    exact eventFreed here run
  | accept =>
    refine ⟨seats,fun id p busy trace c run => ?_⟩
    cases busy
    exact acceptFreed run
  | @call _ call _ answer busy _ =>
    refine ⟨by simpa using seats,fun id p now trace c run => ?_⟩
    cases now
    exact task _ _ busy (⟨call,answer⟩ :: trace) c (.ask answer run)
  | @finish _ c busy =>
    refine ⟨fun other c' here => ?_,by simp⟩
    simp only [seated] at here
    split at here
    · cases here
      exact task _ _ busy [] c (.done c)
    · exact seats other c' here

def Owner.job? : Owner → Option JobId
  | .client _ => none
  | .listener job | .data job | .reader job | .writer job => some job

/- While code runs for a client its fields are in that code's hands, and so is a job that is
not in flight. -/
structure Owned (st : State) : Prop where
  clients : ∀ id c fd, engaged st.core ≠ some id → st.core.clients id = some c →
    (st.table fd = some (.client id) ↔ c.pasvFd = some fd)
  single : ∀ id fd fd', st.table fd = some (.client id) → st.table fd' = some (.client id) → fd = fd'
  left : ∀ id c fd, engaged st.core ≠ some id → st.core.clients id = some c → c.connected = false →
    st.table fd ≠ some (.client id)
  listeners : ∀ f ∈ flights st.core, ∀ fd, st.table fd = some (.listener f.job.id) ↔ f.job.pasvFd = some fd
  worked : ∀ job h fd, st.hands job = some h → (st.table fd = some (.data job) ↔ h.data = some fd)
  posted : ∀ d ∈ landed st.core, ∀ fd, st.table fd = some (.data d.posted.job.id) ↔ d.posted.dataFd = some fd
  pipes : ∀ job v w, st.pipes job = some (v,w) → st.table v = some (.reader job) ∧ st.table w = some (.writer job)
  piped : ∀ f ∈ flights st.core, st.pipes f.job.id ≠ none
  alive : ∀ fd owner job, st.table fd = some owner → owner.job? = some job → Flies st.core job ∨ debtor st = some job
  resting : st.core.task = none → debtor st = none

def ends : Option (Fd × Fd) → List Fd
  | none => []
  | some (v,w) => [v,w]

def closes (st : State) : Move → List Fd
  | .core (.call _ ⟨.closeFd fd,_⟩) => [fd]
  | .core (.call _ ⟨.freeJob job,_⟩) | .pipe job => ends (st.pipes job)
  | _ => []

/- A client's descriptor is closed where a set-up command replaces it or the client is
disconnected, a job's when the pool refused it or after it was posted. -/
def Due (st st' : State) : Owner → Prop
  | .client id => engaged st.core = some id ∧
      (st.setting = true ∨ ∃ c, st'.core.task = some (id,.done c) ∧ c.connected = false)
  | .listener job | .data job | .reader job | .writer job =>
      st.closing = some job ∨ st.spare = some job ∧ st.refused = true

def Lends (move : Move) (st' : State) (fd : Fd) (owner : Owner) : Prop :=
  ∃ id job answer, move = .core (.call id ⟨.dispatch job,answer⟩) ∧ owner = .client id ∧ job.pasvFd = some fd ∧
    st'.table fd = some (.listener job.id)

/- The descriptors that a worker's call is about; it waits for the cancel pipe too. -/
def touches (data : Option Fd) (pipe : Option (Fd × Fd)) : Work → List Fd
  | .poll fd _ _ => fd :: ((ends pipe).take 1)
  | .accept fd | .connect fd _ | .soError fd | .send fd _ | .recv fd _ | .tlsCreate fd _ => [fd]
  | .tlsHandshake | .tlsWrite _ | .tlsRead _ | .tlsCloseNotify | .tlsFree => data.toList
  | _ => []

structure Proper (st : State) (move : Move) (st' : State) : Prop where
  closing : ∀ fd ∈ closes st move, st'.table fd = none ∧ ∃ owner, st.table fd = some owner ∧ Due st st' owner
  keeping : ∀ fd owner, st.table fd = some owner → fd ∉ closes st move →
    st'.table fd = some owner ∨ Lends move st' fd owner
  cancelling : ∀ id job answer, move = .core (.call id ⟨.cancel job,answer⟩) → ∃ v w, st.pipes job = some (v,w)
  working : ∀ job e h, move = .work job e → st.hands job = some h → st.pipes job ≠ none ∧
    ∀ fd ∈ touches h.data (st.pipes job) e.1, ∃ owner, st.table fd = some owner ∧ owner.job? = some job

variable {job : JobId} {id : ClientId} {fd : Fd} {st' : State} {move : Move} {owner : Owner}

section Facts
variable {s : Server} {st : State} {r : Shelf} {held : Option JobId}

variable (good : Good s st r held)
include good

theorem Good.launched {f d} (running : f ∈ st.core.running) (posted : d ∈ landed st.core) :
    d.posted.job.id ≠ f.job.id := by
  obtain ⟨log,m,sound⟩ := good.sound
  intro same
  have distinct := sound.distinct
  rw [flights,List.map_append,List.map_append,List.nodup_append] at distinct
  refine distinct.2.2 f.job.id ?_ d.flight.job.id ?_ same.symm
  · exact List.mem_append_right _ (List.mem_map_of_mem running)
  · rw [← List.map_append]
    exact List.mem_map_of_mem (List.mem_map_of_mem posted)

omit good in
theorem landedFlies {core d} (posted : d ∈ landed core) : d.flight ∈ flights core := by
  have there := List.mem_map_of_mem (f := Delivery.flight) posted
  rw [landed,List.map_append] at there
  exact List.mem_append_right _ there

theorem Good.owned (cleared : Cleared st.core) : Owned st where
  clients id c fd away here := by
    rw [good.tabled fd (.client id)]
    simp [Belongs,away,here]
  single id fd fd' one two := by
    rw [good.tabled fd (.client id)] at one
    rw [good.tabled fd' (.client id)] at two
    simp only [Belongs] at one two
    split at one
    · rw [if_pos ‹_›] at two
      exact Option.some.inj (one.symm.trans two)
    rw [if_neg ‹_›] at two
    obtain ⟨c,here,has⟩ := one
    obtain ⟨c',here',has'⟩ := two
    rw [here] at here'
    cases here'
    exact Option.some.inj (has.symm.trans has')
  left id c fd away here gone owner := by
    rw [good.tabled fd (.client id)] at owner
    simp [Belongs,away,here,cleared.seats id c here gone] at owner
  listeners f member fd := by
    rw [good.tabled fd (.listener f.job.id)]
    constructor
    · rintro (⟨g,there,is,has⟩ | ⟨owes,-⟩)
      · rwa [good.alone there member is] at has
      · exact absurd ⟨f,member,rfl⟩ (good.apart _ owes)
    · exact fun has => Or.inl ⟨f,member,rfl,has⟩
  worked job h fd has := by
    rw [good.tabled fd (.data job)]
    obtain ⟨f,running,is,-⟩ := good.handling job h has
    constructor
    · rintro (⟨g,there,data⟩ | ⟨d,posted,same,-⟩ | ⟨owes,-⟩)
      · rw [has] at there
        cases there
        exact data
      · exact absurd (same.trans is.symm) (good.launched running posted)
      · exact absurd ⟨f,by simp [flights,running],is⟩ (good.apart _ owes)
    · exact fun data => Or.inl ⟨h,has,data⟩
  posted d member fd := by
    rw [good.tabled fd (.data d.posted.job.id)]
    constructor
    · rintro (⟨h,has,-⟩ | ⟨d',posted,same,data⟩ | ⟨owes,-⟩)
      · obtain ⟨f,running,is,-⟩ := good.handling _ h has
        exact absurd is.symm (good.launched running member)
      · obtain ⟨log,m,sound⟩ := good.sound
        have distinct := sound.distinct
        rw [flights,List.map_append,List.nodup_append] at distinct
        have one := distinct.2.1
        rw [← List.map_append,List.map_map] at one
        rwa [List.inj_on_of_nodup_map one posted member same] at data
      · exact absurd ⟨d.flight,landedFlies member,rfl⟩ (good.apart _ owes)
    · exact fun data => Or.inr (Or.inl ⟨d,member,rfl,data⟩)
  pipes job v w pair := ⟨(good.tabled v (.reader job)).mpr ⟨w,pair⟩,(good.tabled w (.writer job)).mpr ⟨v,pair⟩⟩
  piped f member := (good.born f.job.id).mpr (.inl ⟨f,member,rfl⟩)
  alive fd owner job has mine := by
    rw [good.tabled fd owner] at has
    cases owner with
    | client id => cases mine
    | listener other =>
      cases mine
      rcases has with ⟨f,member,is,-⟩ | ⟨owes,-⟩
      · exact .inl ⟨f,member,is⟩
      · exact .inr owes
    | data other =>
      cases mine
      rcases has with ⟨h,hand,-⟩ | ⟨d,posted,same,-⟩ | ⟨owes,-⟩
      · obtain ⟨f,running,is,-⟩ := good.handling _ h hand
        exact .inl ⟨f,by simp [flights,running],is⟩
      · exact .inl ⟨d.flight,landedFlies posted,same⟩
      · exact .inr owes
    | reader other =>
      cases mine
      obtain ⟨w,pair⟩ := has
      exact (good.born _).mp (by simp [pair])
    | writer other =>
      cases mine
      obtain ⟨v,pair⟩ := has
      exact (good.born _).mp (by simp [pair])
  resting idle := by
    obtain ⟨-,spare,closing⟩ := good.resting idle
    simp [debtor,spare,closing]

omit good in
theorem shutEnds {p} (shelved : Shelves Shelf.Leaves r p) (shut : r.shut = true) :
    ∃ c, p = .done c ∧ c.connected = false := by
  cases p with
  | done c => exact ⟨c,rfl,shelved.2.2.2.2 shut⟩
  | ask call next =>
    have open_ : r.shut = false := by
      have allowed := shelved.1
      cases call
      case closeFd => exact allowed.1
      case socket | dispatch => exact allowed.1.2.2
      all_goals exact allowed.2.2
    rw [shut] at open_
    cases open_

theorem Good.owes (owes : debtor st = some job) (lent : r.lent ≠ none) :
    st.closing = some job ∨ st.spare = some job ∧ st.refused = true := by
  cases closing : st.closing with
  | some other => exact .inl (by simpa [debtor,closing] using owes)
  | none =>
    obtain ⟨-,refused⟩ := (good.owing lent).resolve_left (by simp [closing])
    exact .inr ⟨by simpa [debtor,closing] using owes,refused⟩

theorem Good.shuts {next} (busy : st.core.task = some (id,.ask (.closeFd fd) next))
    (after : st'.core.task = some (id,next ())) : ∃ owner, st.table fd = some owner ∧ Due st st' owner := by
  obtain ⟨-,mine | ⟨noData,mine | ⟨noLent,mine⟩⟩⟩ := (good.allowed busy).1
  · obtain ⟨job,closing,owes⟩ := good.dataOwed mine
    exact ⟨.data job,(good.tabled fd (.data job)).mpr (Or.inr (Or.inr ⟨owes,mine⟩)),.inl closing⟩
  · obtain ⟨job,owes⟩ := good.lentOwed mine
    exact ⟨.listener job,(good.tabled fd (.listener job)).mpr (Or.inr ⟨owes,mine⟩),good.owes owes (by simp [mine])⟩
  have here : engaged st.core = some id := by simp [engaged,busy]
  refine ⟨.client id,(good.tabled fd (.client id)).mpr (by simpa [Belongs,here] using mine),here,?_⟩
  cases setting : st.setting with
  | true => exact .inl rfl
  | false =>
    have works := good.works
    rw [Works,busy] at works
    have shut : (r.note (.closeFd fd) ()).shut = true := by
      rw [Shelf.note,if_neg (by simp [noData]),if_neg (by simp [noLent])]
      simp [← good.setting,setting]
    obtain ⟨c,ended,gone⟩ := shutEnds (works.1.2 () trivial) shut
    exact .inr ⟨c,by rw [after,ended],gone⟩

theorem Good.piped (due : st.closing = some job ∨ st.spare = some job ∧ st.refused = true)
    (member : fd ∈ ends (st.pipes job)) (st') :
    (closePipe st job).table fd = none ∧ ∃ owner, st.table fd = some owner ∧ Due st st' owner := by
  cases pair : st.pipes job with
  | none => simp [pair,ends] at member
  | some pipe =>
    obtain ⟨v,w⟩ := pipe
    rw [pair] at member
    have which : fd = v ∨ fd = w := by simpa [ends] using member
    refine ⟨?_,?_⟩
    · rw [closePipe,pair]
      rcases which with rfl | rfl <;> simp [Function.update_apply]
    · rcases which with rfl | rfl
      · exact ⟨.reader job,(good.tabled fd (.reader job)).mpr ⟨w,pair⟩,due⟩
      · exact ⟨.writer job,(good.tabled fd (.writer job)).mpr ⟨v,pair⟩,due⟩

theorem Good.closing (step : Step workers s st move st') (fd) (member : fd ∈ closes st move) :
    st'.table fd = none ∧ ∃ owner, st.table fd = some owner ∧ Due st st' owner := by
  cases step with
  | core simple step unused waits =>
    cases step with
    | @call _ call next answer busy possible =>
      cases call
      case closeFd fd' =>
        obtain rfl : fd = fd' := by simpa [closes] using member
        exact ⟨Function.update_self ..,good.shuts busy rfl⟩
      case freeJob job =>
        obtain ⟨-,spare,refused⟩ := good.allowed busy
        exact good.piped (.inr ⟨spare,refused⟩) member _
      all_goals simp [closes] at member
    | _ => simp [closes] at member
  | pipe due after => exact good.piped (.inl due) member _
  | _ => simp [closes] at member

omit good in
theorem updateOpen {table fd' owner'} (free : table fd' = none) (has : table fd = some owner) :
    Function.update table fd' (some owner') fd = some owner := by
  have away : fd ≠ fd' := by
    rintro rfl
    rw [free] at has
    cases has
  rwa [Function.update_of_ne away]

omit good in
theorem closeKeeps (has : st.table fd = some owner)
    (away : fd ∉ ends (st.pipes job)) : (closePipe st job).table fd = some owner := by
  unfold closePipe
  split
  · exact has
  · rename_i v w pair
    have apart : fd ≠ v ∧ fd ≠ w := by simpa [pair,ends] using away
    simp [apart,has]

theorem Good.lends {job next} (busy : st.core.task = some (id,.ask (.dispatch job) next))
    (has : st.table fd = some owner) :
    (lend st job).table fd = some owner ∨
      owner = .client id ∧ job.pasvFd = some fd ∧ (lend st job).table fd = some (.listener job.id) := by
  obtain ⟨⟨-,own⟩,-⟩ := good.allowed busy
  unfold lend
  split
  · exact .inl has
  rename_i fd' given
  by_cases same : fd = fd'
  · subst same
    have mine : r.mine = some fd := by simpa [given,eq_comm] using own
    have here : st.table fd = some (.client id) :=
      (good.tabled fd (.client id)).mpr (by simpa [Belongs,engaged,busy] using mine)
    rw [here] at has
    exact .inr ⟨(Option.some.inj has).symm,given,Function.update_self ..⟩
  · exact .inl ((Function.update_of_ne same ..).trans has)

theorem Good.keeping (step : Step workers s st move st') (fd owner)
    (has : st.table fd = some owner) (away : fd ∉ closes st move) :
    st'.table fd = some owner ∨ Lends move st' fd owner := by
  cases step with
  | core simple step unused waits =>
    cases step with
    | @call id call next answer busy possible =>
      cases call
      case socket family =>
        cases answer with
        | none => exact .inl has
        | some fd' => exact .inl (updateOpen (unused fd' rfl) has)
      case closeFd fd' =>
        have apart : fd ≠ fd' := by simpa [closes] using away
        exact .inl ((Function.update_of_ne apart ..).trans has)
      case freeJob job => exact .inl (closeKeeps has away)
      case dispatch job =>
        rcases good.lends busy has with same | ⟨mine,given,moved⟩
        · exact .inl same
        · exact .inr ⟨id,job,answer,rfl,mine,given,moved⟩
      all_goals exact .inl has
    | _ => exact .inl has
  | create step waits unused two =>
    exact .inl (updateOpen ((Function.update_of_ne two.symm ..).trans unused.2) (updateOpen unused.1 has))
  | pipe due after => exact .inl (closeKeeps has away)
  | take | post => exact .inl has
  | @work job h call next answer held at_ unused =>
    left
    cases new : gained call answer with
    | none => exact has
    | some fd' => exact updateOpen (unused fd' new) has

theorem Good.cancelling {answer}
    (step : Step workers s st (.core (.call id ⟨.cancel job,answer⟩)) st') : ∃ v w, st.pipes job = some (v,w) := by
  cases step with
  | core simple step unused waits =>
    cases step with
    | call _ busy _ =>
      obtain ⟨-,-,claimed⟩ := good.allowed busy
      have flies : Flies st.core job := good.holding job claimed
      obtain ⟨⟨v,w⟩,pair⟩ := Option.ne_none_iff_exists'.mp ((good.born job).mpr (.inl flies))
      exact ⟨v,w,pair⟩

theorem Good.working {e h} (step : Step workers s st (.work job e) st')
    (has : st.hands job = some h) :
    st.pipes job ≠ none ∧
      ∀ fd ∈ touches h.data (st.pipes job) e.1, ∃ owner, st.table fd = some owner ∧ owner.job? = some job := by
  obtain ⟨f,running,is,handled⟩ := good.handling job h has
  have member : f ∈ flights st.core := by simp [flights,running]
  have piped : st.pipes job ≠ none := (good.born job).mpr (.inl ⟨f,member,is⟩)
  have lent : ∀ fd, f.job.pasvFd = some fd → ∃ owner, st.table fd = some owner ∧ owner.job? = some job :=
    fun fd given => ⟨.listener job,(good.tabled fd (.listener job)).mpr (Or.inl ⟨f,member,is,given⟩),rfl⟩
  have data : ∀ fd, h.data = some fd → ∃ owner, st.table fd = some owner ∧ owner.job? = some job :=
    fun fd given => ⟨.data job,(good.tabled fd (.data job)).mpr (Or.inl ⟨h,has,given⟩),rfl⟩
  refine ⟨piped,fun fd touched => ?_⟩
  cases step with
  | @work _ h' call next answer has' at_ unused =>
    rw [has] at has'
    cases has'
    obtain ⟨handles,-⟩ := handled.gains at_
    cases call
    case poll fd' _ _ =>
      rcases List.mem_cons.mp touched with rfl | pipe
      · exact handles.elim (lent fd) (data fd)
      · obtain ⟨⟨v,w⟩,pair⟩ := Option.ne_none_iff_exists'.mp piped
        obtain rfl : fd = v := by simpa [pair,ends] using pipe
        exact ⟨.reader job,(good.tabled fd (.reader job)).mpr ⟨w,pair⟩,rfl⟩
    case accept fd' =>
      obtain rfl : fd = fd' := by simpa [touches] using touched
      exact lent fd handles.1
    case connect fd' _ | soError fd' | send fd' _ | recv fd' _ | tlsCreate fd' _ =>
      obtain rfl : fd = fd' := by simpa [touches] using touched
      exact data fd handles
    case tlsHandshake | tlsWrite | tlsRead | tlsCloseNotify | tlsFree => exact data fd (by simpa [touches] using touched)
    all_goals simp [touches] at touched

theorem Good.proper (step : Step workers s st move st') : Proper st move st' where
  closing := good.closing step
  keeping := good.keeping step
  cancelling := by
    rintro id job answer rfl
    exact good.cancelling step
  working := by
    rintro job e h rfl has
    exact good.working step has

end Facts

theorem clearedReached {st} (reached : (descriptors workers s).Reached st) : Cleared st.core := by
  induction reached with
  | start first =>
    obtain ⟨⟨clients,-,-,-,-,task⟩,-⟩ := first
    exact ⟨by simp [clients],by simp [task]⟩
  | @step st _ _ before _ moved ih =>
    obtain ⟨r,held,good⟩ := goodReached before
    obtain ⟨log,m,sound⟩ := good.sound
    cases moved with
    | core _ step | create step | take _ step => exact clearedStep sound ih step
    | pipe =>
      rw [closePipeAs]
      exact ⟨ih.seats,ih.task⟩
    | work | post => exact ⟨ih.seats,ih.task⟩

def unopened : State := ⟨booted,fun _ => none,fun _ => none,fun _ => none,false,none,false,none⟩

/- The first client stores a file, the second waits with a listener; the worker has made
the data connection. -/
def storing : List Cue :=
  (([.wake,.collect [.listener [caller,caller]],.wake,
    .collect [.client 0 ⟨false,true,false⟩,.client 1 ⟨false,true,false⟩],.event [.bytes stored,.wouldBlock],
    .event [.bytes (ascii "USER a\nPASS b\nPASV\n"),.wouldBlock],.take] : List Hint).map .react) ++
  List.replicate 4 (.work 0)

def connecting : (call : Work) → call.Answer
  | .socket _ => .ok 10
  | call => stalled call

def Busy (st : State) : Prop :=
  st.table 7 = some (.client 1) ∧ st.pipes 0 = some (8,9) ∧ st.table 8 = some (.reader 0) ∧
    st.table 9 = some (.writer 0) ∧ st.table 10 = some (.data 0) ∧ (flights st.core).map (·.job.id) = [0]

def stores : List Move × State :=
  (chooser 2 house (8,9) (obliging (.error .enoent)) connecting).play (fun _ _ => true) 300 unopened storing

theorem busySome : ∃ st, (descriptors 2 house).Reached st ∧ Busy st := by
  have start : (descriptors 2 house).Reached unopened :=
    .start ⟨bootedStart,fun _ => rfl,fun _ => rfl,fun _ => rfl,rfl,rfl,rfl⟩
  have path : (descriptors 2 house).Path unopened stores.1 stores.2 := System.Chooser.playPath 300 storing trivial
  exact ⟨stores.2,path.reached start,by unfold Busy; decide +kernel⟩

end OpenPs3Ftp.Descriptors
