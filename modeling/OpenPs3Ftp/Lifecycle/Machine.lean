import OpenPs3Ftp.Lib.Threads
import OpenPs3Ftp.Lifecycle.Code

/-! Any number of threads in the public calls of one server, with its reactor and its
workers. -/
namespace OpenPs3Ftp.Lifecycle
open Lib Fs Program

inductive Cell where | absent | live | destroyed
  deriving DecidableEq

inductive Loop where | entering | polling | leaving
  deriving DecidableEq

inductive Reactor where
  | absent
  | active (own : Bool) (at_ : Loop)
  | ended
  deriving DecidableEq

/- `alive` is `workers_alive`. Of the worker threads, `unborn` ones have not counted
themselves in yet, and `stray` ones were left behind by an earlier run. `pollset` is
whether the pointer is set; what it points to is then alive. -/
structure Shared where
  started : Bool
  starting : Bool
  ready : Bool
  stopping : Bool
  running : Bool
  done : Bool
  server : Bool
  socket : Bool
  listener : Bool
  queue : Bool
  queueMutex : Bool
  queueCond : Bool
  compl : Cell
  locked : Bool
  table : Bool
  pool : Bool
  alive : Int
  unborn : Nat
  counted : Nat
  stray : Nat
  wrapper : Bool
  pollset : Bool
  reactor : Reactor
  deriving DecidableEq

def created : Shared where
  started := false
  starting := false
  ready := false
  stopping := false
  running := false
  done := false
  server := true
  socket := false
  listener := false
  queue := false
  queueMutex := false
  queueCond := false
  compl := .absent
  locked := false
  table := false
  pool := false
  alive := 0
  unborn := 0
  counted := 0
  stray := 0
  wrapper := false
  pollset := false
  reactor := .absent

/- What an operation may answer; waits have no answer before their time. -/
def Can (s : Shared) : (op : Op) → Reply op → Prop
  | .isStarted,answer => answer = s.started
  | .isRunning,answer => answer = s.running
  | .isDone,answer => answer = s.done
  | .awaitReady,answer => (s.starting = true → s.ready = true) ∧ answer = s.ready
  | .hasCompl,answer => answer = decide (s.compl ≠ .absent)
  | .lockCompl,_ => s.locked = false
  | .detach,answer => s.locked = false ∧ answer = s.pollset
  | .poolIdle,answer => answer = decide (s.pool = false ∧ s.alive = 0)
  | .workersGone,answer => answer = decide (s.alive = 0)
  | .joinWorkers,_ => s.unborn = 0 ∧ s.counted = 0
  | .joinReactor,_ | .leaveLoop,_ => s.reactor = .ended
  | .hasWrapper,answer => answer = s.wrapper
  | _,_ => True

def effect (s : Shared) : (op : Op) → Reply op → Shared
  | .setStarted value,_ => { s with started := value }
  | .setRunning value,_ => { s with running := value }
  | .setDone value,_ => { s with done := value }
  | .setStopping value,_ => { s with stopping := value }
  | .setStarting value,_ => { s with starting := value }
  | .publish,_ => { s with ready := true, starting := false }
  | .socket _,failed => { s with socket := failed = none }
  | .closeSocket,_ => { s with socket := false }
  | .keepSocket,_ => { s with socket := false, listener := true }
  | .allocQueue,ok => { s with queue := ok }
  | .queueMutex,ok => { s with queueMutex := ok }
  | .queueCond,ok => { s with queueCond := ok }
  | .complMutex,ok => { s with compl := if ok then .live else .absent }
  | .allocWorkers,ok => { s with table := ok }
  | .openPool,_ => { s with pool := true, alive := 0, unborn := 0, counted := 0, stray := s.stray + s.unborn + s.counted }
  | .createWorker,ok => if ok then { s with unborn := s.unborn + 1 } else s
  | .closePool,_ => { s with pool := false }
  | .wrap,ok => { s with wrapper := ok }
  | .spawn,ok => if ok then { s with reactor := .active true .entering } else s
  | .enterLoop,_ => { s with reactor := .active false .entering }
  | .lockCompl,_ => { s with locked := true }
  | .wakeUnlock,_ => { s with locked := false }
  | .detach,_ => { s with pollset := false }
  | .joinWorkers,_ => { s with table := false }
  | .freeJobs,_ => { s with queueMutex := false, queueCond := false }
  | .destroyCompl,_ => { s with compl := .destroyed }
  | .forgetCompl,_ => { s with compl := .absent }
  | .freeQueue,_ => { s with queue := false }
  | .freeWrapper,_ => { s with wrapper := false }
  | .freeServer,_ => { s with server := false }
  | _,_ => s

inductive Event where
  | open_ (ok : Bool)
  | turn
  | reroot
  | command
  | see
  | fail
  | close
  | birth
  | exit
  | stray
  deriving DecidableEq

inductive Happens : Shared → Event → Shared → Prop where
  | opened {s own} (at_ : s.reactor = .active own .entering) (free : s.locked = false) :
      Happens s (.open_ true) { s with reactor := .active own .polling, pollset := true }
  /- Without a pollset the loop returns at once. -/
  | unopened {s own} (at_ : s.reactor = .active own .entering) :
      Happens s (.open_ false) { s with reactor := .ended, done := s.done || own }
  | turn {s own} (at_ : s.reactor = .active own .polling) (going : s.stopping = false) : Happens s .turn s
  /- `apply_root_change` after a call of `opftp_server_set_root_runtime`: the wrapper in use
  is freed and a new one put in its place. -/
  | reroot {s own} (at_ : s.reactor = .active own .polling) : Happens s .reroot { s with wrapper := true }
  | command {s own} (at_ : s.reactor = .active own .polling) (going : s.stopping = false) :
      Happens s .command { s with stopping := true }
  | see {s own} (at_ : s.reactor = .active own .polling) (asked : s.stopping = true) :
      Happens s .see { s with reactor := .active own .leaving }
  | fail {s own} (at_ : s.reactor = .active own .polling) : Happens s .fail { s with reactor := .active own .leaving }
  | close {s own} (at_ : s.reactor = .active own .leaving) :
      Happens s .close { s with reactor := .ended, listener := false, done := s.done || own }
  | birth {s} (some_ : 0 < s.unborn) :
      Happens s .birth { s with unborn := s.unborn - 1, counted := s.counted + 1, alive := s.alive + 1 }
  | exit {s} (some_ : 0 < s.counted) (closed : s.pool = false) :
      Happens s .exit { s with counted := s.counted - 1, alive := s.alive - 1 }
  | stray {s} (some_ : 0 < s.stray) : Happens s .stray { s with stray := s.stray - 1, alive := s.alive - 1 }

/- Who runs `opftp_reactor_shutdown`: a start that could not create the reactor thread,
the caller of `run_loop`, or `stop`. -/
inductive Whence where | failed | loop | stop
  deriving DecidableEq

inductive Dismissal where | fresh | idle | draining | abandoned | dismissed
  deriving DecidableEq

/- Where a thread is. A start or `run_loop` is `entered` past its check, `staffed` from its
first worker on, `claimed` once it has set `started`. A stop is `heard` past the wait for
readiness, `waking` once it has set `stopping`, with what it saw of the completion mutex,
and `joining` where it has found a reactor thread. -/
inductive Role where
  | outside
  | calling
  | refused
  | entered
  | staffed
  | broken
  | aborted
  | claimed
  | spawned
  | launched
  | poised
  | failing
  | serving
  | asking
  | heard
  | waking (seen : Bool)
  | joining
  | joined
  | closing (whence : Whence) (dismissal : Dismissal)
  | inspecting
  | freeing
  | leaving
  deriving DecidableEq

def Role.note : Role → (op : Op) → Reply op → Role
  | .calling,.isStarted,answer => if answer then .refused else .entered
  | .entered,.openPool,_ => .staffed
  | .staffed,.createWorker,ok | .staffed,.wrap,ok => if ok then .staffed else .broken
  | .entered,.setStarting false,_ | .broken,.setStarting false,_ => .aborted
  | .staffed,.setStarted true,_ => .claimed
  | .claimed,.spawn,ok => if ok then .spawned else .failing
  | .spawned,.setRunning true,_ => .launched
  | .launched,.publish,_ => .leaving
  | .claimed,.publish,_ => .poised
  | .poised,.enterLoop,_ => .serving
  | .failing,.setStarted false,_ => .closing .failed .fresh
  | .serving,.leaveLoop,_ => .closing .loop .fresh
  | .asking,.awaitReady,answer => if answer then .heard else .leaving
  | .heard,.setStopping true,_ => .waking false
  | .waking _,.hasCompl,answer => .waking answer
  | .waking _,.isRunning,answer => if answer then .joining else .leaving
  | .joining,.joinReactor,_ => .joined
  | .joined,.setRunning false,_ => .closing .stop .fresh
  | .closing whence _,.poolIdle,answer => .closing whence (if answer then .idle else .draining)
  | .closing whence _,.abandon,_ => .closing whence .abandoned
  | .closing whence _,.joinWorkers,_ => .closing whence .dismissed
  | .closing .loop _,.setStarted false,_ | .closing .stop _,.setStarted false,_ => .leaving
  | .inspecting,.isStarted,answer => if answer then .asking else .freeing
  | role,_,_ => role

def Op.builds : Op → Bool
  | .socket _ | .bind | .listen | .closeSocket | .keepSocket | .allocQueue | .queueMutex | .queueCond | .complMutex
  | .allocWorkers | .openPool => true
  | _ => false

def Dismissal.over : Dismissal → Bool
  | .idle | .abandoned | .dismissed => true
  | .fresh | .draining => false

inductive Allows : Role → Op → Prop where
  | check : Allows .calling .isStarted
  | announce : Allows .entered (.setStarting true)
  | build {op} (builds : op.builds = true) : Allows .entered op
  | create : Allows .staffed .createWorker
  | wrap : Allows .staffed .wrap
  | drop : Allows .broken .closePool
  | abort : Allows .entered (.setStarting false)
  | abortBroken : Allows .broken (.setStarting false)
  | claim : Allows .staffed (.setStarted true)
  | unfinished : Allows .claimed (.setDone false)
  | loopOnly : Allows .claimed (.setRunning false)
  | unasked : Allows .claimed (.setStopping false)
  | spawn : Allows .claimed .spawn
  | disclaim : Allows .failing (.setStarted false)
  | abortFailed : Allows (.closing .failed .fresh) (.setStarting false)
  | running : Allows .spawned (.setRunning true)
  | publish : Allows .launched .publish
  | publishLoop : Allows .claimed .publish
  | enterLoop : Allows .poised .enterLoop
  | leaveLoop : Allows .serving .leaveLoop
  | await : Allows .asking .awaitReady
  | ask : Allows .heard (.setStopping true)
  | look : Allows (.waking false) .hasCompl
  | lock : Allows (.waking true) .lockCompl
  | wake : Allows (.waking true) .wakeUnlock
  | wakeBare : Allows (.waking false) .wakeBare
  | find {seen} : Allows (.waking seen) .isRunning
  | poll : Allows .joining .isDone
  | nap : Allows .joining .nap
  | join : Allows .joining .joinReactor
  | joined : Allows .joined (.setRunning false)
  | close {w} : Allows (.closing w .fresh) .hasCompl
  | detach {w} : Allows (.closing w .fresh) .detach
  | idle {w} : Allows (.closing w .fresh) .poolIdle
  | closePool {w} : Allows (.closing w .draining) .closePool
  | count {w} : Allows (.closing w .draining) .workersGone
  | doze {w} : Allows (.closing w .draining) .nap
  | abandon {w} : Allows (.closing w .draining) .abandon
  | joinWorkers {w} : Allows (.closing w .draining) .joinWorkers
  | freeJobs {w} : Allows (.closing w .dismissed) .freeJobs
  | destroyCompl {w} : Allows (.closing w .dismissed) .destroyCompl
  | forgetCompl {w} : Allows (.closing w .dismissed) .forgetCompl
  | freeQueue {w} : Allows (.closing w .dismissed) .freeQueue
  | destroyPollset {w d} (past : d.over = true) : Allows (.closing w d) .destroyPollset
  | hasWrapper {w d} (past : d.over = true) : Allows (.closing w d) .hasWrapper
  | freeWrapper {w d} (past : d.over = true) : Allows (.closing w d) .freeWrapper
  | finish {w d} (begun : w ≠ .failed) (past : d.over = true) : Allows (.closing w d) (.setStarted false)

inductive Disposes : Role → Op → Prop where
  | inspect : Disposes .inspecting .isStarted
  | free : Disposes .freeing .freeServer
  | freeStopped : Disposes .leaving .freeServer

inductive Entry where | start | runLoop | stop | destroy
  deriving DecidableEq

def Entry.code (cfg : Config) : Entry → Code (Option Errno)
  | .start => serverStart cfg
  | .runLoop => serverRunLoop cfg
  | .stop => serverStop cfg
  | .destroy => serverDestroy cfg

def Entry.first : Entry → Role
  | .start | .runLoop => .calling
  | .stop => .asking
  | .destroy => .inspecting

def threads (cfg : Config) : Threads Entry Op Reply (Option Errno) Shared Event Role where
  start s := s = created
  code := Entry.code cfg
  performs s op answer s' := Can s op answer ∧ s' = effect s op answer
  happens := Happens
  first := Entry.first
  note := Role.note
  rest := .outside

inductive Leaves : Role → Option Errno → Prop where
  | refused : Leaves .refused (some ealready)
  | aborted {e} : Leaves .aborted (some e)
  | failed {d} (past : d.over = true) : Leaves (.closing .failed d) (some .enomem)
  | late : Leaves .joining (some .etimedout)
  | plain : Leaves .leaving none
  | freed : Leaves .freeing none

abbrev Abides {α : Type} (post : Role → α → Prop) (role : Role) (p : Code α) : Prop :=
  Meets (fun _ _ => True) Role.note Allows post role p

section
variable {cfg : Config} {α β : Type} {post : Role → α → Prop}

theorem abidesThen {p} {f : α → Code β} {mid : Role → α → Prop} {post : Role → β → Prop} {role}
    (first : Abides mid role p) (later : ∀ role a, mid role a → Abides post role (f a)) :
    Abides post role (p >>= f) :=
  meetsBind.mpr (meetsMono later first)

theorem callAbides {op f role} (allowed : Allows role op)
    (later : ∀ answer, Abides post (role.note op answer) (f answer)) : Abides post role (call op >>= f) :=
  ⟨allowed,fun answer _ => later answer⟩

theorem callsAbides {op post role} (allowed : Allows role op) (later : ∀ answer, post (role.note op answer) answer) :
    Abides post role (call op) :=
  ⟨allowed,fun answer _ => later answer⟩

theorem buildAbides {op f} (builds : op.builds = true) (other : op ≠ .openPool)
    (later : ∀ answer, Abides post .entered (f answer)) : Abides post .entered (call op >>= f) := by
  refine callAbides (.build builds) fun answer => ?_
  cases op <;> first | exact later answer | exact absurd rfl other | cases builds

theorem familyAbides (family) : Abides (fun role _ => role = .entered) .entered (bindFamily family) := by
  refine buildAbides rfl (by simp) fun failed => ?_
  cases failed with
  | some e => exact rfl
  | none =>
    refine buildAbides rfl (by decide) fun failed => ?_
    cases failed with
    | some e => exact buildAbides rfl (by decide) fun _ => rfl
    | none =>
      refine buildAbides rfl (by decide) fun failed => ?_
      cases failed with
      | some e | none => exact buildAbides rfl (by decide) fun _ => rfl

theorem bindAbides : Abides (fun role _ => role = .entered) .entered (bindListener cfg) := by
  refine meetsIte.mpr ⟨fun _ => familyAbides .inet,fun _ => abidesThen (familyAbides .inet6) ?_⟩
  rintro role (_ | e) rfl
  · exact rfl
  · exact familyAbides .inet

def Built (role : Role) (rc : Option Errno) : Prop :=
  if rc = none then role = .staffed else role = .entered ∨ role = .broken

theorem workersAbides (n) : Abides Built .staffed (createWorkers n) := by
  induction n with
  | zero => exact rfl
  | succ n ih =>
    refine callAbides .create fun ok => ?_
    cases ok with
    | true => exact ih
    | false => exact callAbides .drop fun _ => .inr rfl

theorem datachanAbides : Abides Built .entered (datachanInit cfg) := by
  refine buildAbides rfl (by decide) fun queue => buildAbides rfl (by decide) fun mutex => ?_
  have cond : Abides (fun role _ => role = .entered) .entered (if mutex then call .queueCond else return false) :=
    meetsIte.mpr ⟨fun _ => callsAbides (.build rfl) fun _ => rfl,fun _ => rfl⟩
  refine abidesThen cond ?_
  rintro role cond rfl
  refine buildAbides rfl (by decide) fun compl => meetsIte.mpr ⟨fun _ => .inl rfl,fun _ => ?_⟩
  refine buildAbides rfl (by decide) fun table => meetsIte.mpr ⟨fun _ => ?_,fun _ => .inl rfl⟩
  exact callAbides (.build rfl) fun _ => workersAbides cfg.numWorkers

theorem initAbides : Abides Built .entered (reactorInit cfg) := by
  refine abidesThen bindAbides ?_
  rintro role (_ | e) rfl
  · refine abidesThen datachanAbides ?_
    rintro role (_ | e) built
    · obtain rfl : role = .staffed := built
      refine callAbides .wrap fun ok => ?_
      cases ok with
      | true => exact rfl
      | false => exact .inr rfl
    · exact built
  · exact .inl rfl

theorem abortAbides {role e} (built : Built role (some e)) :
    Abides Leaves role (do call (.setStarting false); return some e) := by
  rcases built with rfl | rfl
  · exact callAbides .abort fun _ => .aborted
  · exact callAbides .abortBroken fun _ => .aborted

theorem awaitAbides (whence n) :
    Abides (fun role _ => role = .closing whence .draining) (.closing whence .draining) (awaitWorkers n) := by
  induction n with
  | zero => exact callsAbides .count fun _ => rfl
  | succ n ih =>
    refine callAbides .count fun gone => ?_
    cases gone with
    | true => exact rfl
    | false => exact callAbides .doze fun _ => ih

def Past (whence : Whence) (role : Role) : Prop := ∃ d, role = .closing whence d ∧ d.over = true

theorem datachanShutdownAbides (whence) :
    Abides (fun role _ => Past whence role) (.closing whence .fresh) (datachanShutdown cfg) := by
  refine callAbides .idle fun idle => ?_
  cases idle with
  | true => exact ⟨.idle,rfl,rfl⟩
  | false =>
    refine callAbides .closePool fun _ => abidesThen (awaitAbides whence cfg.naps) ?_
    rintro role gone rfl
    cases gone with
    | true =>
      refine callAbides .joinWorkers fun _ => callAbides .freeJobs fun _ => callAbides .destroyCompl fun _ => ?_
      exact callAbides .forgetCompl fun _ => callsAbides .freeQueue fun _ => ⟨.dismissed,rfl,rfl⟩
    | false => exact callsAbides .abandon fun _ => ⟨.abandoned,rfl,rfl⟩

theorem shutdownAbides (whence) :
    Abides (fun role _ => Past whence role) (.closing whence .fresh) (reactorShutdown cfg) := by
  have detach : Abides (fun role _ => role = .closing whence .fresh) (.closing whence .fresh)
      (do if ← call .hasCompl then call .detach else return false) := by
    refine callAbides .close fun has => ?_
    cases has with
    | true => exact callsAbides .detach fun _ => rfl
    | false => exact rfl
  refine abidesThen detach ?_
  rintro role ps rfl
  refine abidesThen (datachanShutdownAbides whence) ?_
  rintro role ⟨⟩ ⟨d,rfl,past⟩
  have unwrap : Abides (fun role _ => Past whence role) (.closing whence d)
      (do if ← call .hasWrapper then call .freeWrapper : Code Unit) := by
    refine callAbides (.hasWrapper past) fun has => ?_
    cases has with
    | true => exact callsAbides (.freeWrapper past) fun _ => ⟨d,rfl,past⟩
    | false => exact ⟨d,rfl,past⟩
  cases ps with
  | true => exact callAbides (.destroyPollset past) fun _ => unwrap
  | false => exact unwrap

theorem startAbides : Abides Leaves .calling (serverStart cfg) := by
  refine callAbides .check fun started => ?_
  cases started with
  | true => exact .refused
  | false =>
    refine callAbides .announce fun _ => abidesThen initAbides ?_
    rintro role (_ | e) built
    · obtain rfl : role = .staffed := built
      refine callAbides .claim fun _ => callAbides .unfinished fun _ => callAbides .unasked fun _ => ?_
      refine callAbides .spawn fun ok => ?_
      cases ok with
      | true => exact callAbides .running fun _ => callAbides .publish fun _ => .plain
      | false =>
        refine callAbides .disclaim fun _ => callAbides .abortFailed fun _ => abidesThen (shutdownAbides .failed) ?_
        rintro role ⟨⟩ ⟨d,rfl,past⟩
        exact .failed past
    · exact abortAbides built

theorem runLoopAbides : Abides Leaves .calling (serverRunLoop cfg) := by
  refine callAbides .check fun started => ?_
  cases started with
  | true => exact .refused
  | false =>
    refine callAbides .announce fun _ => abidesThen initAbides ?_
    rintro role (_ | e) built
    · obtain rfl : role = .staffed := built
      refine callAbides .claim fun _ => callAbides .loopOnly fun _ => callAbides .unasked fun _ => ?_
      refine callAbides .publishLoop fun _ => callAbides .enterLoop fun _ => callAbides .leaveLoop fun _ => ?_
      refine abidesThen (shutdownAbides .loop) ?_
      rintro role ⟨⟩ ⟨d,rfl,past⟩
      exact callAbides (.finish (by decide) past) fun _ => .plain
    · exact abortAbides built

def Stopped (role : Role) (rc : Option Errno) : Prop :=
  role = .leaving ∧ rc = none ∨ role = .joining ∧ rc = some .etimedout

theorem awaitReactorAbides (n) : Abides (fun role _ => role = .joining) .joining (awaitReactor n) := by
  induction n with
  | zero => exact callAbides .poll fun _ => rfl
  | succ n ih =>
    refine callAbides .poll fun past => ?_
    cases past with
    | true => exact rfl
    | false => exact callAbides .nap fun _ => ih

theorem joinAbides : Abides Stopped .joining (stopReactor cfg) := by
  refine abidesThen (awaitReactorAbides cfg.naps) ?_
  rintro role ⟨⟩ rfl
  refine callAbides .poll fun past => ?_
  cases past with
  | true =>
    refine callAbides .join fun _ => callAbides .joined fun _ => abidesThen (shutdownAbides .stop) ?_
    rintro role ⟨⟩ ⟨d,rfl,past⟩
    exact callAbides (.finish (by decide) past) fun _ => .inl ⟨rfl,rfl⟩
  | false => exact .inr ⟨rfl,rfl⟩

theorem findAbides (seen) :
    Abides Stopped (.waking seen) (do if ← call .isRunning then stopReactor cfg else return none) := by
  refine callAbides .find fun running => ?_
  cases running with
  | true => exact joinAbides
  | false => exact .inl ⟨rfl,rfl⟩

theorem stopAbides : Abides Stopped .asking (serverStop cfg) := by
  refine callAbides .await fun ready => ?_
  cases ready with
  | false => exact .inl ⟨rfl,rfl⟩
  | true =>
    refine callAbides .ask fun _ => callAbides .look fun has => ?_
    cases has with
    | true => exact callAbides .lock fun _ => callAbides .wake fun _ => findAbides true
    | false => exact callAbides .wakeBare fun _ => findAbides false

theorem stopLeaves : Abides Leaves .asking (serverStop cfg) := by
  refine meetsMono ?_ stopAbides
  rintro role rc (⟨rfl,rfl⟩ | ⟨rfl,rfl⟩)
  · exact .plain
  · exact .late

theorem destroyAbides : Meets (fun _ _ => True) Role.note (fun role op => Allows role op ∨ Disposes role op) Leaves
    .inspecting (serverDestroy cfg) := by
  refine ⟨.inr .inspect,fun started _ => ?_⟩
  cases started with
  | false => exact ⟨.inr .free,fun _ _ => .freed⟩
  | true =>
    refine meetsBind.mpr (meetsMono ?_ (meetsGuard (fun _ _ => .inl) stopAbides))
    rintro role rc (⟨rfl,rfl⟩ | ⟨rfl,rfl⟩)
    · exact ⟨.inr .freeStopped,fun _ _ => .plain⟩
    · exact .late

end

def Permits (entry : Entry) (role : Role) (op : Op) : Prop := Allows role op ∨ entry = .destroy ∧ Disposes role op

def rules (cfg : Config) : Threads.Discipline (threads cfg) where
  allows := Permits
  leaves := Leaves
  kept entry := by
    cases entry with
    | start => exact meetsGuard (fun _ _ => .inl) startAbides
    | runLoop => exact meetsGuard (fun _ _ => .inl) runLoopAbides
    | stop => exact meetsGuard (fun _ _ => .inl) stopLeaves
    | destroy => exact meetsGuard (fun _ _ permitted => permitted.imp_right fun disposes => ⟨rfl,disposes⟩) destroyAbides

end OpenPs3Ftp.Lifecycle
