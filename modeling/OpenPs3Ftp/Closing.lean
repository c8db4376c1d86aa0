import OpenPs3Ftp.Service.Ending

/-! `opftp_server_stop` on a server that `opftp_server_start` has put on threads of its
own: the wait for the reactor, `opftp_datachan_shutdown` with the wait for the workers,
and the server as `stop` leaves it (`server.c`, `datachan.c`). -/
namespace OpenPs3Ftp.Closing
open Lib Text Fs Session Commands Events Worker Reactor Service Program System

/- Where the thread that calls `stop` is. `asked` has set the flag, `waiting` and
`draining` count the milliseconds slept, `returned` holds the error. -/
inductive Stage where
  | idle
  | asked
  | waiting (waited : Nat)
  | shutting
  | draining (waited : Nat)
  | joining
  | returned (rc : Option Errno)
  deriving DecidableEq

/- `pool` is `pool_running`; `born` workers have counted themselves in and `exited` ones
out again, so that `workers_alive` is the difference. `joined` is a reactor thread that
runs no more, after `reactor_running` was reset. -/
structure State where
  svc : Service.State
  pool : Bool
  born : Nat
  exited : Nat
  joined : Bool
  stage : Stage

def Spare (st : State) : Prop := st.svc.core.running.length + st.exited < st.born

def Free (st : State) : Move → Prop
  | .core (.take _) => Spare st
  | .stop => False
  | _ => True

def freeQueue (svc : Service.State) : Service.State :=
  let freed := svc.core.queue.foldl (fun st f => release st f.owner) svc
  { freed with core := { freed.core with queue := [] } }

inductive Deed where
  | service (move : Move)
  | birth
  | exit
  | call
  | enter
  | nap
  | giveUp
  | proceed
  | shut
  | rest
  | abandon
  | counted
  | join

inductive Step (workers : Nat) (s : Server) (timeout : Nat) : State → Deed → State → Prop where
  | service {st move svc} (step : Service.Step workers s st.svc move svc) (free : Free st move) :
      Step workers s timeout st (.service move) { st with svc }
  | birth {st} (room : st.born < workers) : Step workers s timeout st .birth { st with born := st.born + 1 }
  | exit {st} (closed : st.pool = false) (empty : st.svc.core.queue = []) (spare : Spare st) :
      Step workers s timeout st .exit { st with exited := st.exited + 1 }
  | call {st} (at_ : st.stage = .idle ∨ ∃ rc, st.stage = .returned rc) :
      Step workers s timeout st .call { st with svc := { st.svc with stopping := true }, stage := .asked }
  | enter {st} (at_ : st.stage = .asked) :
      Step workers s timeout st .enter { st with stage := if st.joined then .returned none else .waiting 0 }
  | nap {st waited} (at_ : st.stage = .waiting waited) (going : st.svc.place ≠ .ended) (patient : waited < timeout) :
      Step workers s timeout st .nap { st with stage := .waiting (waited + 10) }
  | giveUp {st waited} (at_ : st.stage = .waiting waited) (going : st.svc.place ≠ .ended) (late : timeout ≤ waited) :
      Step workers s timeout st .giveUp { st with stage := .returned (some .etimedout) }
  | proceed {st waited} (at_ : st.stage = .waiting waited) (past : st.svc.place = .ended) :
      Step workers s timeout st .proceed { st with joined := true, stage := .shutting }
  | shut {st} (at_ : st.stage = .shutting) :
      Step workers s timeout st .shut
        (if st.pool = false ∧ st.born = st.exited then { st with stage := .returned none }
        else { st with pool := false, stage := .draining 0 })
  | rest {st waited} (at_ : st.stage = .draining waited) (alive : st.born ≠ st.exited) (patient : waited < timeout) :
      Step workers s timeout st .rest { st with stage := .draining (waited + 10) }
  /- The wait for the workers ends without them, and `stop` returns as if it had not. -/
  | abandon {st waited} (at_ : st.stage = .draining waited) (alive : st.born ≠ st.exited) (late : timeout ≤ waited) :
      Step workers s timeout st .abandon { st with stage := .returned none }
  | counted {st waited} (at_ : st.stage = .draining waited) (none : st.born = st.exited) :
      Step workers s timeout st .counted { st with stage := .joining }
  | join {st} (at_ : st.stage = .joining) (all : st.exited = workers) :
      Step workers s timeout st .join { st with svc := freeQueue st.svc, stage := .returned none }

def Start (st : State) : Prop :=
  Service.Start st.svc ∧ st.pool = true ∧ st.born = 0 ∧ st.exited = 0 ∧ st.joined = false ∧ st.stage = .idle

def closing (workers : Nat) (s : Server) (timeout : Nat) : System State Deed where
  start := Start
  step := Step workers s timeout

def Deed.move : Deed → Option Move
  | .service move => some move
  | .call => some .stop
  | _ => none

def moves (log : List Deed) : List Move := log.filterMap Deed.move

/- The workers are not abandoned, and nothing is under way where the reactor looks for
the last time. -/
def Settled (now : State × List Deed) : Deed → Prop
  | .service move => Orderly now.1.svc move
  | .abandon => False
  | _ => True

structure Kept (workers : Nat) (st : State) : Prop where
  born : st.born ≤ workers
  ended : st.joined = true → st.svc.place = .ended
  pool : st.joined = false → st.pool = true
  stage : match st.stage with
    | .idle | .waiting _ => st.joined = false
    | .asked => st.joined = true → st.exited = workers
    | .shutting => st.joined = true ∧ st.pool = true
    | .draining _ | .joining => st.joined = true
    | .returned none => st.joined = true ∧ st.exited = workers
    | .returned (some e) => st.joined = false ∧ e = .etimedout

section
variable {workers timeout : Nat} {s : Server} {st st' : State} {deed : Deed} {log : List Deed}

theorem movesAppend : moves (log ++ [deed]) = moves log ++ deed.move.toList := by
  cases named : deed.move <;> simp [moves,named]

theorem freeQueuePlace (svc) : (freeQueue svc).place = svc.place := by
  have each : ∀ (fs : List Flight) (svc : Service.State),
      (fs.foldl (fun st f => release st f.owner) svc).place = svc.place := by
    intro fs
    induction fs with
    | nil => exact fun _ => rfl
    | cons f fs ih => exact fun svc => ih (release svc f.owner)
  exact each svc.core.queue svc

theorem freeQueueEmpty {svc} (empty : svc.core.queue = []) : freeQueue svc = svc := by
  obtain ⟨⟨clients,nextClient,nextJob,queue,running,completions,phase,task⟩,place,stopping,refs,freed,stamped,retained,
    linked⟩ := svc
  dsimp only at empty
  subst empty
  rfl

theorem cleanDeed (clean : Clean s st.svc (moves log)) (kept : Kept workers st) (settled : Settled (st,log) deed)
    (step : Step workers s timeout st deed st') : Clean s st'.svc (moves (log ++ [deed])) := by
  rw [movesAppend]
  cases step with
  | service step free => exact cleanStep clean settled step
  | call at_ => exact cleanStep clean trivial (@Service.Step.stop workers s st.svc)
  | join at_ all =>
    have stage := kept.stage
    rw [at_] at stage
    have empty := (flightsNone (clean.over (kept.ended stage)).1).1
    simpa [Deed.move,freeQueueEmpty empty] using clean
  | shut at_ =>
    split <;> simpa [Deed.move] using clean
  | _ => simpa [Deed.move] using clean

theorem keptStep (kept : Kept workers st) (settled : Settled (st,log) deed) (step : Step workers s timeout st deed st') :
    Kept workers st' := by
  have stage := kept.stage
  cases step with
  | service step free => exact ⟨kept.born,fun joined => endedStays (kept.ended joined) step,kept.pool,stage⟩
  | birth room => exact ⟨room,kept.ended,kept.pool,stage⟩
  | exit closed empty spare =>
    have remain : st.exited ≠ workers := by
      have born := kept.born
      unfold Spare at spare
      omega
    refine ⟨kept.born,kept.ended,kept.pool,?_⟩
    cases at_ : st.stage with
    | asked =>
      rw [at_] at stage
      exact fun joined => absurd (stage joined) remain
    | returned rc =>
      rw [at_] at stage
      cases rc with
      | none => exact absurd stage.2 remain
      | some e => exact stage
    | _ =>
      rw [at_] at stage
      exact stage
  | call at_ =>
    refine ⟨kept.born,kept.ended,kept.pool,fun joined => ?_⟩
    rcases at_ with at_ | ⟨rc,at_⟩
    · rw [at_] at stage
      exact absurd (joined.symm.trans stage) (by decide)
    rw [at_] at stage
    cases rc with
    | none => exact stage.2
    | some e => exact absurd (joined.symm.trans stage.1) (by decide)
  | enter at_ =>
    rw [at_] at stage
    refine ⟨kept.born,kept.ended,kept.pool,?_⟩
    cases joined : st.joined with
    | false => exact rfl
    | true => exact ⟨rfl,stage joined⟩
  | nap at_ | counted at_ | rest at_ =>
    rw [at_] at stage
    exact ⟨kept.born,kept.ended,kept.pool,stage⟩
  | giveUp at_ going late =>
    rw [at_] at stage
    exact ⟨kept.born,kept.ended,kept.pool,stage,rfl⟩
  | proceed at_ past =>
    rw [at_] at stage
    exact ⟨kept.born,fun _ => past,nofun,rfl,kept.pool stage⟩
  | shut at_ =>
    rw [at_] at stage
    rw [if_neg (by simp [stage.2])]
    exact ⟨kept.born,kept.ended,fun unjoined => absurd (unjoined.symm.trans stage.1) (by decide),stage.1⟩
  | abandon at_ alive late => exact settled.elim
  | join at_ all =>
    rw [at_] at stage
    exact ⟨kept.born,fun joined => (freeQueuePlace st.svc).trans (kept.ended joined),kept.pool,stage,all⟩

theorem closingReached (reached : (closing workers s timeout).logged.Reach Settled (st,log)) :
    Clean s st.svc (moves log) ∧ Kept workers st := by
  refine System.invariant (P := fun now => Clean s now.1.svc (moves now.2) ∧ Kept workers now.1) ?_ ?_ reached
  · rintro ⟨st,log⟩ ⟨⟨begun,pool,born,exited,joined,stage⟩,rfl⟩
    dsimp only at begun pool born exited joined stage
    refine ⟨cleanStart begun,by simp [born],by simp [joined],fun _ => pool,?_⟩
    rw [stage]
    exact joined
  · rintro ⟨st,log⟩ deed ⟨st',log'⟩ ⟨clean,kept⟩ settled ⟨step,rfl⟩
    exact ⟨cleanDeed clean kept settled step,keptStep kept settled step⟩

end

theorem stopSettles (workers : Nat) (s : Server) (timeout : Nat) (st : State) (log : List Deed)
    (reached : (closing workers s timeout).logged.Reach Settled (st,log)) (rc : Option Errno)
    (returned : st.stage = .returned rc) :
    rc = some .etimedout ∨ rc = none ∧ st.exited = workers ∧ st.svc.place = .ended ∧
      (∀ id job, .core (.call id ⟨.dispatch job,true⟩) ∈ moves log → Finished (moves log) id job) ∧
      flights st.svc.core = [] ∧ (∀ id, st.svc.refs id = 0) ∧ st.svc.core.completions = [] ∧ st.svc.linked = [] := by
  obtain ⟨clean,kept⟩ := closingReached reached
  have stage := kept.stage
  rw [returned] at stage
  cases rc with
  | some e => exact .inl (congrArg some stage.2)
  | none =>
    have past := kept.ended stage.1
    obtain ⟨landed,idle,linked,retained,deserted,refs,finished⟩ := clean.over past
    exact .inr ⟨rfl,stage.2,past,finished,landed,refs,(flightsNone landed).2,linked⟩

def goes (test : Service.State → Move → Bool) (svc : Service.State) (hints : List Service.Hint) : List Move × Service.State :=
  (Service.chooser 2 house Containment.refusals offline).play test 200 svc hints

def asked (test : Service.State → Move → Bool) (hints : List Service.Hint) : Service.State :=
  { (goes test blank hints).2 with stopping := true }

def Deed.plain : Deed → Bool
  | .service _ | .abandon => false
  | _ => true

section
variable (ok : State × List Deed → Deed → Prop) {test : Service.State → Move → Bool}
  (met : ∀ st log move, test st.svc move = true → ok (st,log) (.service move)) (waits : ∀ svc, test svc .stop = false)
include met waits

theorem goesReach {svc stage log} (hints) (even : Even svc)
    (here : (closing 2 house 5000).logged.Reach ok (⟨svc,true,2,0,false,stage⟩,log)) :
    (closing 2 house 5000).logged.Reach ok
      (⟨(goes test svc hints).2,true,2,0,false,stage⟩,log ++ (goes test svc hints).1.map .service) := by
  have kept := @Chooser.playKept _ _ _ _ (Service.chooser 2 house Containment.refusals offline) test
    (fun svc ms => (closing 2 house 5000).logged.Reach ok (⟨svc,true,2,0,false,stage⟩,log ++ ms.map .service))
    ?_ 200 svc [] hints even (by simpa using here)
  · simpa [goes] using kept
  intro svc ms move svc' before passed moved
  have free : Free ⟨svc,true,2,0,false,stage⟩ move := by
    cases move with
    | stop =>
      rw [waits] at passed
      cases passed
    | core act =>
      cases act with
      | take f =>
        cases moved with
        | core fits step =>
          cases step with
          | take waiting free => exact free
      | _ => trivial
    | _ => trivial
  rw [List.map_append,← List.append_assoc]
  exact .step before (met _ _ _ passed) ⟨.service moved free,rfl⟩

/- Both workers start, the server serves, and `stop` waits for all of them. -/
theorem closedReach (others : ∀ now deed, deed.plain = true → ok now deed) (hints later)
    {last : List Move × Service.State} (is : goes test (asked test hints) later = last) (ended : last.2.place = .ended)
    (queue : last.2.core.queue = []) (running : last.2.core.running = []) :
    ∃ log, (closing 2 house 5000).logged.Reach ok (⟨last.2,false,2,2,true,.returned none⟩,log) ∧ .abandon ∉ log ∧
      moves log = (goes test blank hints).1 ++ .stop :: last.1 := by
  have path : (service 2 house).Path blank (goes test blank hints).1 (goes test blank hints).2 :=
    Chooser.playPath 200 _ (evenStart blankStart)
  have even : Even (asked test hints) :=
    @evenStep 2 house _ _ _ (path.kept (fun _ _ _ => evenStep) (evenStart blankStart)) .stop
  have fine {deeds : List Deed} (plain : ∀ deed ∈ deeds, deed.plain = true) (deed) (member : deed ∈ deeds) (now) :
      ok now deed := others now deed (plain deed member)
  have births : (closing 2 house 5000).Path ⟨blank,true,0,0,false,.idle⟩ [.birth,.birth] ⟨blank,true,2,0,false,.idle⟩ :=
    .cons (.birth (by decide)) (.cons (.birth (by decide)) (.nil _))
  have opened := (births.logged []).reach (fine (by decide)) (.start ⟨⟨blankStart,rfl,rfl,rfl,rfl,rfl⟩,rfl⟩)
  have called : (closing 2 house 5000).Path ⟨(goes test blank hints).2,true,2,0,false,.idle⟩ [.call]
      ⟨asked test hints,true,2,0,false,.asked⟩ := .cons (.call (.inl rfl)) (.nil _)
  have stopping := (called.logged _).reach (fine (by decide)) (goesReach ok met waits hints (evenStart blankStart) opened)
  have served := goesReach ok met waits later even stopping
  rw [is] at served
  have join := @Step.join 2 house 5000 ⟨last.2,false,2,2,true,.joining⟩ rfl rfl
  rw [freeQueueEmpty queue] at join
  have joining : (closing 2 house 5000).Path ⟨last.2,true,2,0,false,.asked⟩
      [.enter,.proceed,.shut,.exit,.exit,.counted,.join] ⟨last.2,false,2,2,true,.returned none⟩ := by
    refine .cons (.enter rfl) (.cons (.proceed rfl ended) (.cons (.shut rfl) ?_))
    refine .cons (.exit rfl queue ?_) (.cons (.exit rfl queue ?_) (.cons (.counted rfl rfl) (.cons join (.nil _))))
    · simp [Spare,running]
    · simp [Spare,running]
  refine ⟨_,(joining.logged _).reach (fine (by decide)) served,by simp,?_⟩
  simp [moves,Deed.move,List.filterMap_cons,List.filterMap_map,Function.comp_def]

end

def orderly (svc : Service.State) : Move → Bool
  | .core .wake => !(svc.place matches .replying .first []) || svc.core.queue.isEmpty && svc.core.running.isEmpty
  | .grab => !(svc.place matches .entering .last) || svc.retained.isEmpty
  | .stamp _ | .retain _ | .link _ | .stop => false
  | _ => true

theorem orderlySound {svc move} (so : orderly svc move = true) : Orderly svc move := by
  cases move with
  | core act =>
    cases act with
    | wake =>
      intro place
      simpa [orderly,place] using so
    | _ => trivial
  | grab =>
    intro place
    simpa [orderly,place] using so
  | stamp | retain | link => cases so
  | _ => trivial

theorem plainSettled {now deed} (plain : deed.plain = true) : Settled now deed := by
  cases deed with
  | service | abandon => cases plain
  | _ => trivial

def Move.accepts : Move → Bool
  | .core (.call _ ⟨.dispatch _,true⟩) => true
  | _ => false

/- The upload is over and its end has been told before the server is stopped. -/
def settling : List Service.Hint := Service.storing ++ [.core .post,.poll .ready,.core (.collect [])]

theorem stopSettlesServed : ∃ st log, (closing 2 house 5000).logged.Reach Settled (st,log) ∧
    st.stage = .returned none ∧ st.exited = 2 ∧ (∀ id, st.svc.refs id = 0) ∧
    ∃ id job, .core (.call id ⟨.dispatch job,true⟩) ∈ moves log ∧ Finished (moves log) id job := by
  have facts : (goes orderly blank settling).1.any Move.accepts = true ∧
      (goes orderly (asked orderly settling) []).2.place.isEnded = true ∧
      (goes orderly (asked orderly settling) []).2.core.queue = [] ∧
      (goes orderly (asked orderly settling) []).2.core.running = [] := by decide +kernel
  generalize last_ : goes orderly (asked orderly settling) [] = last at facts
  obtain ⟨accepts,ended,queue,running⟩ := facts
  obtain ⟨log,reached,-,whole⟩ := closedReach Settled (fun _ _ _ => orderlySound) (fun _ => rfl)
    (fun _ _ => plainSettled) settling [] last_ (matchesEnded ended) queue running
  have settled := (stopSettles 2 house 5000 _ log reached none rfl).resolve_left (by simp)
  obtain ⟨move,member,is⟩ := List.any_eq_true.mp accepts
  have told : move ∈ moves log := by
    rw [whole]
    exact List.mem_append_left _ member
  refine ⟨_,log,reached,rfl,rfl,settled.2.2.2.2.2.1,?_⟩
  unfold Move.accepts at is
  split at is
  · exact ⟨_,_,told,settled.2.2.2.1 _ _ told⟩
  · cases is

/- A transfer is running when the server is stopped: its worker ends after the reactor
has looked for the last time. -/
def going (_ : Service.State) (move : Move) : Bool := !(move matches .stop)

theorem stopForgets : ∃ st log d, (closing 2 house 5000).logged.Reached (st,log) ∧ .abandon ∉ log ∧
    st.stage = .returned none ∧ d ∈ st.svc.core.completions ∧ 0 < st.svc.refs d.owner ∧ st.svc.freed d.owner = 0 := by
  have facts : (goes going (asked going Service.storing) [.core .post]).2.place.isEnded = true ∧
      (goes going (asked going Service.storing) [.core .post]).2.core.queue = [] ∧
      (goes going (asked going Service.storing) [.core .post]).2.core.running = [] ∧
      (goes going (asked going Service.storing) [.core .post]).2.core.completions.map Delivery.owner = [0] ∧
      0 < (goes going (asked going Service.storing) [.core .post]).2.refs 0 ∧
      (goes going (asked going Service.storing) [.core .post]).2.freed 0 = 0 := by decide +kernel
  generalize last_ : goes going (asked going Service.storing) [.core .post] = last at facts
  obtain ⟨ended,queue,running,posted,counted,alive⟩ := facts
  obtain ⟨d,only,mine⟩ := List.map_eq_singleton_iff.mp posted
  obtain ⟨log,reached,kept,-⟩ := closedReach (fun _ _ => True) (fun _ _ _ _ => trivial) (fun _ => rfl)
    (fun _ _ _ => trivial) Service.storing [.core .post] last_ (matchesEnded ended) queue running
  exact ⟨_,log,d,reached,kept,rfl,by simp [only],by simpa [mine] using counted,by simpa [mine] using alive⟩

end OpenPs3Ftp.Closing
