import OpenPs3Ftp.Lifecycle.Keeper

/-! What is released, and when: the mutexes, the queue, the pollset and the filesystem
wrapper by `opftp_reactor_shutdown`, the server by `opftp_server_destroy`. Workers that
outlast the wait for them, or that an initialisation left behind, are not waited for, and
`destroy` does not wait for the caller of `run_loop`. -/
namespace OpenPs3Ftp.Lifecycle
open Lib Fs Program
open Threads (playReach play keepsReach idleWithin idleReach idle advance)

def Op.releases : Op → Bool
  | .freeJobs | .destroyCompl | .freeQueue | .destroyPollset | .freeWrapper | .freeServer => true
  | _ => false

def Shared.Still (s : Shared) : Prop := s.active = false ∧ s.unborn = 0 ∧ s.counted = 0 ∧ s.stray = 0

def Crew (s : Shared) : Option Role → Prop
  | none => s.stray = 0 ∧ (s.started = true → s.pool = true) ∧ (s.started = false → s.unborn = 0 ∧ s.counted = 0)
  | some .entered | some (.closing _ .dismissed) => s.stray = 0 ∧ s.unborn = 0 ∧ s.counted = 0
  | some .broken | some (.closing _ .idle) | some (.closing _ .abandoned) => False
  | some (.closing _ .draining) => s.stray = 0
  | some _ => s.stray = 0 ∧ s.pool = true

/- The wait for the workers does not give up, and an initialisation that has begun to
create workers succeeds. -/
def careful : Exchange Reply → Bool
  | ⟨.abandon,_⟩ => false
  | ⟨.createWorker,ok⟩ | ⟨.wrap,ok⟩ => ok
  | _ => true

variable {what : Event}

section
variable {s s' : Shared} {role : Role} {op : Op} {answer : Reply op}

theorem crewKeeper (keeps : role.keeps = true) (fits : Fits s (some role)) (crew : Crew s (some role))
    (allowed : Allows role op) (can : Can s op answer) (may : careful ⟨op,answer⟩ = true) :
    Crew (effect s op answer) (role.note op answer).keeper := by
  cases allowed
  all_goals first | exact absurd (show false = true from keeps) (by decide) | exact crew | exact crew.elim | skip
  case build builds =>
    cases op
    case openPool => exact ⟨by simp [effect,crew.1,crew.2.1,crew.2.2],rfl⟩
    all_goals first | exact crew | cases builds
  case create =>
    obtain rfl : answer = true := may
    exact crew
  case wrap =>
    obtain rfl : answer = true := may
    exact crew
  case abort => exact ⟨crew.1,fun on => absurd (fits.1.symm.trans on) (by decide),fun _ => crew.2⟩
  case spawn => cases answer <;> exact crew
  case running => exact ⟨crew.1,fun _ => crew.2,fun off => absurd (fits.1.symm.trans off) (by decide)⟩
  case idle =>
    obtain rfl : answer = false := can.trans (by simp [crew.2])
    exact crew.1
  case abandon => cases may
  case joinWorkers => exact ⟨crew,can⟩
  case finish w d begun past =>
    cases w with
    | failed => exact absurd rfl begun
    | loop | stop =>
      cases d with
      | dismissed => exact ⟨crew.1,fun on => absurd (show false = true from on) (by decide),fun _ => crew.2⟩
      | idle | abandoned => exact crew.elim
      | fresh | draining => cases past

theorem eventCrew (happens : Happens s what s') :
    s'.started = s.started ∧ s'.pool = s.pool ∧ (s.stray = 0 → s'.stray = 0) ∧
      (s.unborn = 0 ∧ s.counted = 0 → s'.unborn = 0 ∧ s'.counted = 0) := by
  cases happens with
  | birth some_ => exact ⟨rfl,rfl,id,fun none_ => absurd none_.1 (Nat.ne_of_gt some_)⟩
  | exit some_ closed => exact ⟨rfl,rfl,id,fun none_ => absurd none_.2 (Nat.ne_of_gt some_)⟩
  | stray some_ => exact ⟨rfl,rfl,fun none_ => absurd none_ (Nat.ne_of_gt some_),id⟩
  | opened | unopened | turn | reroot | command | see | fail | close => exact ⟨rfl,rfl,id,id⟩

theorem crewEvent {keeper} (crew : Crew s keeper) (happens : Happens s what s') : Crew s' keeper := by
  obtain ⟨started,pool,stray,none_⟩ := eventCrew happens
  rcases keeper with _ | role
  · exact ⟨stray crew.1,fun on => pool.trans (crew.2.1 (started.symm.trans on)),
      fun off => none_ (crew.2.2 (started.symm.trans off))⟩
  cases role with
  | entered => exact ⟨stray crew.1,none_ crew.2⟩
  | broken => exact crew
  | closing w d =>
    cases d with
    | fresh => exact ⟨stray crew.1,pool.trans crew.2⟩
    | draining => exact stray crew
    | dismissed => exact ⟨stray crew.1,none_ crew.2⟩
    | idle | abandoned => exact crew
  | _ => exact ⟨stray crew.1,pool.trans crew.2⟩

def Manned (s : Shared) (keeper : Option Role) : Prop := Fits s keeper ∧ Crew s keeper

theorem crewTable : Table (careful · = true) Manned where
  first := ⟨fitsTable.first,rfl,fun on => absurd on (by decide),fun _ => ⟨rfl,rfl⟩⟩
  own keeps manned allowed can may :=
    ⟨fitsTable.own keeps manned.1 allowed can trivial,crewKeeper keeps manned.1 manned.2 allowed can may⟩
  other idle allowed manned := by
    refine ⟨fitsTable.other idle allowed manned.1,?_⟩
    cases allowed
    all_goals first | exact absurd (show true = false from idle) (by decide) | exact manned.2
  disposal disposes manned := by cases disposes <;> exact manned
  begins manned can begins := by
    refine ⟨fitsTable.begins manned.1 can begins,?_⟩
    rcases begins with ⟨rfl,same⟩ | ⟨⟨seen,rfl⟩,same⟩
    · cases same
      exact ⟨manned.2.1,manned.2.2.2 can.symm⟩
    · cases same
      exact ⟨manned.2.1,manned.2.2.1 (manned.1.1.trans can.symm)⟩
  left left keeps manned := by
    refine ⟨fitsTable.left left keeps manned.1,?_⟩
    obtain ⟨fits,crew⟩ := manned
    cases left with
    | late => exact ⟨crew.1,fun _ => crew.2,fun off => absurd (fits.1.symm.trans off) (by decide)⟩
    | @failed d past =>
      cases d with
      | dismissed => exact ⟨crew.1,fun on => absurd (fits.1.symm.trans on) (by decide),fun _ => crew.2⟩
      | idle | abandoned => exact crew.elim
      | fresh | draining => cases past
    | refused | aborted | plain | freed => cases keeps
  event manned happens := ⟨fitsTable.event manned.1 happens,crewEvent manned.2 happens⟩

end

def destroying (st : Threading) (u : Nat) : Bool :=
  match st.task u with
  | some (.destroy,_) => true
  | _ => false

/- `destroy` is called while no other call is in progress, and none is made from then on
unless it gives up. The root is not changed while the server runs. -/
def tidies (st : Threading) (u : Nat) : Doing → Bool
  | .enter _ entry => st.shared.server && !destroying st u && (entry != .destroy || (st.task u).isNone)
  | .call t e => careful e && spares st u (.call t e)
  | .event .reroot => false
  | _ => true

def Tidy (st : Threading) (label : Doing) : Prop := ∀ u, tidies st u label = true

def Doomed (s : Shared) : Role → Prop
  | .inspecting | .joining | .joined | .closing .stop _ => True
  | .asking => s.started = true ∧ s.ready = true
  | .heard | .waking _ => s.started = true
  | .freeing | .leaving => s.started = false
  | _ => False

def Announced (st : Threading) : Prop :=
  st.shared.running = true → st.shared.ready = true ∨ ∃ t, st.role t = .launched

structure Disposing (st : Threading) : Prop where
  alone : ∀ t u, destroying st t = true → u ≠ t → st.task u = none
  place : ∀ t, destroying st t = true → Doomed st.shared (st.role t)
  gone : st.shared.server = false → st.shared.started = false ∧
    ∀ t, st.task t ≠ none → st.role t = .freeing ∨ st.role t = .leaving

variable {t : Nat} {entry : Entry}

section
variable {cfg : Config} {st st' : Threading} {label : Doing} {keeper : Option Nat} {s : Shared} {role : Role} {op : Op}
  {answer : Reply op}

theorem tidyExclusive (tidy : Tidy st label) : Exclusive st label := by
  intro u
  cases label with
  | call t e => exact ((Bool.and_eq_true _ _).mp (tidy u)).2
  | _ => rfl

theorem tidyCareful {e} (tidy : Tidy st (.call t e)) : careful e = true :=
  ((Bool.and_eq_true _ _).mp (tidy 0)).1

theorem announcedCall {entry} (permitted : Permits entry role op) :
    ((effect s op answer).running = true → s.running = true ∨ role.note op answer = .launched) ∧
    (s.ready = true → (effect s op answer).ready = true) ∧ (role = .launched → (effect s op answer).ready = true) := by
  rcases permitted with allowed | ⟨-,disposes⟩
  · cases allowed
    all_goals first | exact ⟨.inl,id,nofun⟩ | skip
    case build builds => cases op <;> first | exact ⟨.inl,id,nofun⟩ | cases builds
    case create | spawn => cases answer <;> exact ⟨.inl,id,nofun⟩
    case loopOnly | joined => exact ⟨fun on => absurd (show false = true from on) (by decide),id,nofun⟩
    case running => exact ⟨fun _ => .inr rfl,id,nofun⟩
    case publish | publishLoop => exact ⟨.inl,fun _ => rfl,fun _ => rfl⟩
  · cases disposes <;> exact ⟨.inl,id,nofun⟩

theorem announcedStep (announced : Announced st) (keeps : (rules cfg).Keeps st)
    (step : (threads cfg).system.step st label st') : Announced st' := by
  cases step with
  | @enter t entry free =>
    intro on
    refine (announced on).imp_right fun ⟨u,launched⟩ => ⟨u,?_⟩
    have other : u ≠ t := by
      rintro rfl
      exact absurd (show Role.outside = .launched from (keeps.out free).symm.trans launched) (by decide)
    simpa [Function.update_of_ne other] using launched
  | @call t entry op next shared answer busy performed =>
    obtain ⟨-,rfl⟩ := performed
    obtain ⟨running,ready,publishes⟩ := @announcedCall st.shared (st.role t) op answer entry (keeps.allowed busy)
    intro on
    rcases running on with before | launched
    · rcases announced before with yes | ⟨u,launched⟩
      · exact .inl (ready yes)
      · by_cases same : u = t
        · exact .inl (publishes (same ▸ launched))
        · exact .inr ⟨u,by simpa [Function.update_of_ne same] using launched⟩
    · exact .inr ⟨t,by simpa [threads] using launched⟩
  | @leave t entry value busy =>
    intro on
    refine (announced on).imp_right fun ⟨u,launched⟩ => ⟨u,?_⟩
    have other : u ≠ t := by
      rintro rfl
      have left : Leaves (st.role u) value := keeps.left busy
      rw [launched] at left
      cases left
    simpa [Function.update_of_ne other] using launched
  | event happened =>
    intro on
    have same : ∀ {s s' what}, Happens s what s' → s'.ready = s.ready := fun happens => by cases happens <;> rfl
    rw [same happened]
    exact announced ((eventFlags happened).2.1.symm.trans on)

theorem doomedCall (doomed : Doomed s role) (permitted : Permits .destroy role op) (can : Can s op answer)
    (vacant : role.keeps = false → s.started = s.running) (ready : s.running = true → s.ready = true) :
    Doomed (effect s op answer) (role.note op answer) := by
  rcases permitted with allowed | ⟨-,disposes⟩
  · cases allowed
    all_goals first | exact doomed.elim | exact doomed | exact trivial | skip
    case await =>
      obtain rfl : answer = true := can.2.trans doomed.2
      exact doomed.1
    case find =>
      obtain rfl : answer = true := can.trans ((vacant rfl).symm.trans doomed)
      exact trivial
    case idle w | abandon w | joinWorkers w => cases w <;> first | exact doomed.elim | exact trivial
    case finish w d begun past => cases w <;> first | exact doomed.elim | exact rfl
  cases disposes with
  | inspect =>
    cases answer with
    | true => exact ⟨can.symm,ready ((vacant rfl).symm.trans can.symm)⟩
    | false => exact can.symm
  | free | freeStopped => exact doomed

theorem destroyingBusy {p} (busy : st.task t = some (entry,p)) : destroying st t = true ↔ entry = .destroy := by
  unfold destroying
  rw [busy]
  cases entry <;> simp

theorem destroyingOther {shared roles u task} (other : u ≠ t) :
    destroying ⟨shared,Function.update st.task t task,roles⟩ u = destroying st u := by
  have same : Function.update st.task t task u = st.task u := Function.update_of_ne other _ _
  simp only [destroying,same]

theorem destroyingAfter {shared roles v p}
    (doomed : destroying ⟨shared,Function.update st.task t (some (entry,p)),roles⟩ v = true)
    (alone : v ≠ t → destroying st v = false) : v = t ∧ entry = .destroy := by
  by_cases same : v = t
  · subst same
    exact ⟨rfl,(destroyingBusy (Function.update_self _ _ _)).mp doomed⟩
  · rw [destroyingOther same,alone same] at doomed
    cases doomed

theorem freesCall (permitted : Permits entry role op) (off : (effect s op answer).server = false) :
    s.server = false ∨ entry = .destroy ∧ (role = .freeing ∨ role = .leaving) := by
  rcases permitted with allowed | ⟨same,disposes⟩
  · refine .inl ?_
    cases allowed
    all_goals first | exact off | skip
    case build builds => cases op <;> first | exact off | cases builds
    case create | spawn => cases answer <;> exact off
  cases disposes with
  | inspect => exact .inl off
  | free => exact .inr ⟨same,.inl rfl⟩
  | freeStopped => exact .inr ⟨same,.inr rfl⟩

theorem lateCall {entry} (permitted : Permits entry role op) (late : role = .freeing ∨ role = .leaving) :
    (effect s op answer).started = s.started ∧ role.note op answer = role := by
  rcases permitted with allowed | ⟨-,disposes⟩
  · rcases late with rfl | rfl <;> cases allowed
  · cases disposes with
    | inspect => simp at late
    | free | freeStopped => exact ⟨rfl,rfl⟩

theorem eventKeeps {s'} (happens : Happens s what s') :
    s'.started = s.started ∧ s'.ready = s.ready ∧ s'.server = s.server := by
  cases happens <;> exact ⟨rfl,rfl,rfl⟩

theorem Disposing.vacant (disposing : Disposing st) (kept : Kept Fits st keeper) (keeps : (rules cfg).Keeps st)
    (doomed : destroying st t = true) (idle : (st.role t).keeps = false) : keeper = none := by
  cases keeper with
  | none => rfl
  | some u =>
    have other : u ≠ t := fun same => kept.idle idle (congrArg some same)
    have busy := (kept.sole u).mpr rfl
    rw [keeps.out (disposing.alone t u doomed other)] at busy
    exact absurd (show false = true from busy) (by decide)

theorem Disposing.others (disposing : Disposing st) {v task} (busy : st.task t = some task) (other : v ≠ t) :
    destroying st v = false := by
  by_contra doomed
  rw [disposing.alone v t (Bool.of_not_eq_false doomed) (Ne.symm other)] at busy
  cases busy

theorem disposingStep (disposing : Disposing st) (kept : Kept Fits st keeper) (keeps : (rules cfg).Keeps st)
    (announced : Announced st) (tidy : Tidy st label) (step : (threads cfg).system.step st label st') :
    Disposing st' := by
  cases step with
  | @enter t entry free =>
    have free' : ∀ u, st.shared.server = true ∧ destroying st u = false ∧ (entry = .destroy → st.task u = none) := by
      intro u
      have met := tidy u
      simp only [tidies,Bool.and_eq_true,Bool.not_eq_true',Bool.or_eq_true,bne_iff_ne,Option.isNone_iff_eq_none] at met
      exact ⟨met.1.1,met.1.2,fun same => met.2.resolve_left fun other => other same⟩
    refine ⟨fun v u doomed other => ?_,fun v doomed => ?_,fun off => ?_⟩
    · obtain ⟨rfl,same⟩ := destroyingAfter doomed fun _ => (free' v).2.1
      exact (Function.update_of_ne other _ _).trans ((free' u).2.2 same)
    · obtain ⟨rfl,rfl⟩ := destroyingAfter doomed fun _ => (free' v).2.1
      simp only [Function.update_self]
      exact trivial
    · exact absurd ((free' 0).1.symm.trans off) (by decide)
  | @call t entry op next shared answer busy performed =>
    obtain ⟨can,rfl⟩ := performed
    have permitted : Permits entry (st.role t) op := keeps.allowed busy
    have alone : ∀ v, v ≠ t → destroying st v = false := fun v other => disposing.others busy other
    refine ⟨fun v u doomed other => ?_,fun v doomed => ?_,fun off => ?_⟩
    · obtain ⟨rfl,rfl⟩ := destroyingAfter doomed (alone v)
      exact (Function.update_of_ne other _ _).trans (disposing.alone v u ((destroyingBusy busy).mpr rfl) other)
    · obtain ⟨rfl,rfl⟩ := destroyingAfter doomed (alone v)
      simp only [Function.update_self]
      have doomed : destroying st v = true := (destroyingBusy busy).mpr rfl
      refine doomedCall (disposing.place v doomed) permitted can (fun idle => ?_) fun running => ?_
      · obtain rfl := disposing.vacant kept keeps doomed idle
        exact kept.fits.1
      rcases announced running with ready | ⟨u,launched⟩
      · exact ready
      by_cases same : u = v
      · have place := disposing.place v doomed
        rw [← same,launched] at place
        exact place.elim
      · have outside := keeps.out (disposing.alone v u doomed same)
        exact absurd (show Role.outside = .launched from outside.symm.trans launched) (by decide)
    have late : (st.role t = .freeing ∨ st.role t = .leaving) ∧ st.shared.started = false ∧
        ∀ u, u ≠ t → st.task u ≠ none → st.role u = .freeing ∨ st.role u = .leaving := by
      rcases freesCall permitted off with before | ⟨rfl,late⟩
      · obtain ⟨started,all⟩ := disposing.gone before
        exact ⟨all t (by simp [busy]),started,fun u _ => all u⟩
      have doomed : destroying st t = true := (destroyingBusy busy).mpr rfl
      have place := disposing.place t doomed
      refine ⟨late,?_,fun u other there => absurd (disposing.alone t u doomed other) there⟩
      rcases late with role | role <;> rw [role] at place <;> exact place
    obtain ⟨here,started,there⟩ := late
    obtain ⟨same,stays⟩ := @lateCall st.shared (st.role t) op answer entry permitted here
    refine ⟨same.trans started,fun u busy' => ?_⟩
    by_cases eq : u = t
    · subst eq
      simpa [threads,stays] using here
    · simp only [Function.update_of_ne eq] at busy' ⊢
      exact there u eq busy'
  | @leave t entry value busy =>
    have nobody : ∀ v, destroying ⟨st.shared,Function.update st.task t none,Function.update st.role t (threads cfg).rest⟩ v
        = false := by
      intro v
      by_cases same : v = t
      · subst same
        simp [destroying]
      · rw [destroyingOther same]
        exact disposing.others busy same
    refine ⟨fun v u doomed => ?_,fun v doomed => ?_,fun off => ?_⟩
    · exact absurd ((nobody v).symm.trans doomed) (by decide)
    · exact absurd ((nobody v).symm.trans doomed) (by decide)
    obtain ⟨started,late⟩ := disposing.gone off
    refine ⟨started,fun u still => ?_⟩
    by_cases same : u = t
    · subst same
      simp at still
    · simp only [Function.update_of_ne same] at still ⊢
      exact late u still
  | event happened =>
    obtain ⟨started,ready,server⟩ := eventKeeps happened
    refine ⟨disposing.alone,fun v doomed => ?_,fun off => ?_⟩
    · have place := disposing.place v doomed
      cases now : st.role v <;> rw [now] at place <;> simp_all [Doomed]
    · obtain ⟨off',late⟩ := disposing.gone (server.symm.trans off)
      exact ⟨started.trans off',late⟩

theorem mannedReached (reached : (threads cfg).system.Reach Tidy st) : ∃ keeper, Kept Manned st keeper :=
  crewTable.reached (fun _ _ manned => manned.1) (fun _ _ => tidyExclusive) (fun _ _ _ => tidyCareful) reached

theorem disposingReached (reached : (threads cfg).system.Reach Tidy st) : Announced st ∧ Disposing st := by
  induction reached with
  | start first =>
    obtain ⟨fresh,free,-⟩ := first
    have fresh : _ = created := fresh
    refine ⟨fun on => ?_,fun t u doomed => ?_,fun t doomed => ?_,fun off => ?_⟩
    · rw [fresh] at on
      cases on
    · simp [destroying,free t] at doomed
    · simp [destroying,free t] at doomed
    · rw [fresh] at off
      cases off
  | step before met moved ih =>
    obtain ⟨keeper,kept⟩ := mannedReached before
    have keeps : (rules cfg).Keeps _ := keepsReach before
    exact ⟨announcedStep ih.1 keeps moved,disposingStep ih.2 ⟨kept.sole,kept.fits.1⟩ keeps ih.1 met moved⟩

theorem stillVacant (manned : Manned s none) (off : s.started = false) : s.Still := by
  obtain ⟨fits,stray,-,none_⟩ := manned
  refine ⟨?_,(none_ off).1,(none_ off).2,stray⟩
  by_contra on
  exact absurd (off.symm.trans (fits.1.trans (fits.2 (Bool.of_not_eq_false on)))) (by decide)

theorem stillReleasing (manned : Manned s (some role)) (allowed : Allows role op) (releases : op.releases = true) :
    s.Still := by
  obtain ⟨fits,crew⟩ := manned
  cases allowed
  all_goals first | exact absurd (show false = true from releases) (by decide) | skip
  case build builds =>
    cases op <;> first
      | exact absurd (show false = true from releases) (by decide)
      | exact absurd (show false = true from builds) (by decide)
  case freeJobs | destroyCompl | freeQueue => exact ⟨fits.2.2,crew.2.1,crew.2.2,crew.1⟩
  case destroyPollset w d past | freeWrapper w d past =>
    cases d with
    | dismissed => exact ⟨fits.2.2,crew.2.1,crew.2.2,crew.1⟩
    | idle | abandoned => exact crew.elim
    | fresh | draining => cases past

theorem releasesKeeps (allowed : Allows role op) (releases : op.releases = true) : role.keeps = true := by
  cases allowed
  all_goals first | exact absurd (show false = true from releases) (by decide) | rfl

def releasing : Doing → Bool
  | .call _ e => e.1.releases
  | .event .reroot => true
  | _ => false

theorem releasedLast (reached : (threads cfg).system.Reach Tidy st) (tidy : Tidy st label)
    (step : (threads cfg).system.step st label st') :
    (releasing label = true → st.shared.Still) ∧ (st.shared.server = false → st.shared.Still) := by
  obtain ⟨keeper,kept⟩ := mannedReached reached
  obtain ⟨-,disposing⟩ := disposingReached reached
  have keeps : (rules cfg).Keeps _ := keepsReach reached
  refine ⟨fun releases => ?_,fun off => ?_⟩
  · cases step with
    | enter | leave => cases releases
    | @event what =>
      cases what with
      | reroot => cases tidy 0
      | _ => cases releases
    | @call t entry _ next shared _ busy performed =>
      rcases keeps.allowed busy with allowed | ⟨rfl,disposes⟩
      · obtain rfl : keeper = some t := (kept.sole t).mp (releasesKeeps allowed releases)
        exact stillReleasing kept.fits allowed releases
      have doomed : destroying st t = true := (destroyingBusy busy).mpr rfl
      have late : (st.role t).keeps = false ∧ st.shared.started = false := by
        have place := disposing.place t doomed
        generalize st.role t = role at disposes place
        cases disposes with
        | inspect => cases releases
        | free | freeStopped => exact ⟨rfl,place⟩
      obtain rfl := disposing.vacant ⟨kept.sole,kept.fits.1⟩ keeps doomed late.1
      exact stillVacant kept.fits late.2
  obtain ⟨started,late⟩ := disposing.gone off
  cases keeper with
  | none => exact stillVacant kept.fits started
  | some u =>
    have busy := (kept.sole u).mpr rfl
    exfalso
    by_cases free : st.task u = none
    · rw [keeps.out free] at busy
      exact absurd (show false = true from busy) (by decide)
    · rcases late u free with role | role <;> rw [role] at busy <;> cases busy

end

def tidy (n : Nat) (st : Threading) (label : Doing) : Bool := (List.range n).all fun u => tidies st u label

theorem tidyMet {cfg n st label} (within : Threads.Within (threads cfg) n st) (some_ : 0 < n)
    (passed : tidy n st label = true) : Tidy st label := by
  intro u
  have first := List.all_eq_true.mp passed 0 (List.mem_range.mpr some_)
  by_cases below : u < n
  · exact List.all_eq_true.mp passed u (List.mem_range.mpr below)
  obtain ⟨free,outside⟩ := within u (Nat.le_of_not_lt below)
  have outside : st.role u = .outside := outside
  cases label with
  | enter t entry => simp_all [tidies,destroying]
  | call t e =>
    simp only [tidies,Bool.and_eq_true] at first ⊢
    refine ⟨first.1,?_⟩
    unfold spares
    split <;> simp [outside,Role.keeps]
  | leave t value => rfl
  | event what => cases what <;> exact first

def isCall (t : Nat) (op : Op) : Doing → Bool
  | .call u e => u == t && e.1 == op
  | _ => false

theorem isCallSound {op label} (called : isCall t op label = true) : ∃ answer, label = .call t ⟨op,answer⟩ := by
  cases label with
  | call u e =>
    obtain ⟨op',answer⟩ := e
    simp only [isCall,Bool.and_eq_true,beq_iff_eq] at called
    obtain ⟨rfl,rfl⟩ := called
    exact ⟨answer,rfl⟩
  | enter | leave | event => cases called

theorem releasedLastServer : ∃ st label st', (threads small).system.Reach Tidy st ∧
    (threads small).system.step st label st' ∧ (∃ answer, label = .call 0 ⟨.freeServer,answer⟩) ∧ st.shared.Still := by
  have ran : (play (chooser small) 1 (tidy 1) (idle (threads small) created)
      ([.enter 0 .start] ++ moves 21 0 ++ [.event .birth,.event (.open_ true),.enter 0 .destroy] ++ moves 7 0 ++
        [.event .see,.event .close] ++ moves 8 0 ++ [.event .exit] ++ moves 10 0)).bind (fun st =>
        (advance (chooser small) st (.move 0 false)).map fun next =>
          (isCall 0 .freeServer next.label,tidy 1 st next.label)) = some (true,true) := by
    decide +kernel
  obtain ⟨st,played,rest⟩ := Option.bind_eq_some_iff.mp ran
  obtain ⟨⟨label,st',step⟩,-,facts⟩ := Option.map_eq_some_iff.mp rest
  obtain ⟨called,passed⟩ := Prod.mk.inj facts
  obtain ⟨answer,rfl⟩ := isCallSound called
  obtain ⟨reached,within⟩ := playReach _ (fun _ _ within => tidyMet within Nat.one_pos) (idleWithin _ _)
    (idleReach rfl) played
  exact ⟨st,_,st',reached,step trivial,⟨answer,rfl⟩,
    (releasedLast reached (tidyMet within Nat.one_pos passed) (step trivial)).1 rfl⟩

theorem releasedUnderWorker :
    (∃ st label st', (threads small).system.Reached st ∧ (threads small).system.step st label st' ∧
      (∃ answer, label = .call 0 ⟨.destroyPollset,answer⟩) ∧ st.shared.counted = 1) ∧
    ∃ st st', (threads small).system.Reached st ∧ (threads small).system.step st (.event .reroot) st' ∧
      st.shared.active = true ∧ st.shared.counted = 1 := by
  constructor
  · have ran : (play (chooser small) 1 (fun _ _ => true) (idle (threads small) created)
        ([.enter 0 .start] ++ moves 21 0 ++ [.event .birth,.event (.open_ true),.enter 0 .stop] ++ moves 6 0 ++
          [.event .see,.event .close] ++ moves 12 0)).bind (fun st =>
          (advance (chooser small) st (.move 0 false)).map fun next =>
            (isCall 0 .destroyPollset next.label,st.shared.counted)) = some (true,1) := by
      decide +kernel
    obtain ⟨st,played,rest⟩ := Option.bind_eq_some_iff.mp ran
    obtain ⟨⟨label,st',step⟩,-,facts⟩ := Option.map_eq_some_iff.mp rest
    obtain ⟨called,counted⟩ := Prod.mk.inj facts
    exact ⟨st,label,st',(playReach _ (fun _ _ _ _ => trivial) (idleWithin _ _) (idleReach rfl) played).1,
      step trivial,isCallSound called,counted⟩
  have ran : (play (chooser small) 1 (fun _ _ => true) (idle (threads small) created)
      ([.enter 0 .start] ++ moves 21 0 ++ [.event .birth,.event (.open_ true)])).map (fun st =>
        (st.shared.reactor,st.shared.counted)) = some (.active true .polling,1) := by
    decide +kernel
  obtain ⟨st,played,facts⟩ := Option.map_eq_some_iff.mp ran
  obtain ⟨at_,counted⟩ := Prod.mk.inj facts
  exact ⟨st,_,(playReach _ (fun _ _ _ _ => trivial) (idleWithin _ _) (idleReach rfl) played).1,.event (.reroot at_),
    by simp [Shared.active,at_],counted⟩

end OpenPs3Ftp.Lifecycle
