import OpenPs3Ftp.References

/-! How the main loop of the reactor ends. -/
namespace OpenPs3Ftp.Service
open Lib Text Session Commands Events Worker Reactor Program System

def Point.after : Point → Bool
  | .round _ => false
  | .first | .last => true

def Place.over : Place → Bool
  | .entering point | .replying point _ | .completing point => point.after
  | .dropping | .ended => true
  | .top | .serving _ => false

def Place.failing : Place → Bool
  | .entering point | .replying point _ | .completing point => point = .round .failed
  | _ => false

def Move.asks : Move → Bool
  | .stop => true
  | .core (.call _ ⟨.stop,_⟩) => true
  | _ => false

def Requested (log : List Move) : Prop := ∃ move ∈ log, move.asks = true

inductive Turn (st st' : State) : Move → Prop where
  | poll {outcome} (before : st.place = .top) (place : st'.place = .entering (.round outcome)) :
      Turn st st' (.poll outcome)
  | left {move} (why : st.stopping = true ∨ st.place.failing = true) (place : st'.place = .entering .first)
      (other : ∀ outcome, move ≠ .poll outcome) : Turn st st' move
  | same {move} (past : st'.place.over = st.place.over) (failing : st'.place.failing = st.place.failing)
      (other : ∀ outcome, move ≠ .poll outcome) : Turn st st' move

section
variable {workers : Nat} {s : Server} {st st' : State} {move : Move} {log : List Move}

theorem turnCore {act place} (fits : Fits place act) :
    (moved place act).over = place.over ∧ (moved place act).failing = place.failing := by
  cases act with
  | wake =>
    obtain ⟨point,rfl,-⟩ := fits
    exact ⟨rfl,rfl⟩
  | collect ready =>
    obtain rfl : place = .completing (.round .ready) := fits
    exact ⟨rfl,rfl⟩
  | event | served =>
    obtain rfl : place = .serving false := fits
    exact ⟨rfl,rfl⟩
  | _ => exact ⟨rfl,rfl⟩

theorem turnStep (step : Step workers s st move st') : Turn st st' move := by
  cases step with
  | core fits step => exact .same (turnCore fits).1 (turnCore fits).2 (by simp)
  | poll outcome at_ going => exact .poll at_ rfl
  | leave at_ asked => exact .left (.inl asked) rfl (by simp)
  | broke at_ idle empty => exact .left (.inr (by simp [at_,Place.failing])) rfl (by simp)
  | grab at_ | closed at_ | dropped at_ idle none_ | drained at_ idle empty =>
    exact .same (by simp [at_,Place.over,Point.after]) (by simp [at_,Place.failing]) (by simp)
  | reply at_ owner => exact .same (by simp [at_,release,Place.over]) (by simp [at_,release,Place.failing]) (by simp)
  | look at_ idle =>
    refine .same ?_ ?_ (by simp)
    · rw [at_]
      split <;> rfl
    · rw [at_]
      split <;> rfl
  | drop | refuse | stamp | retain | link | stop => exact .same rfl rfl (by simp)

theorem stoppingStep (step : Step workers s st move st') : st'.stopping = (st.stopping || move.asks) := by
  cases step with
  | @core act core fits step =>
    cases step with
    | @call id call next answer busy possible =>
      cases call with
      | stop => simp [after,counted,Move.asks]
      | newJob op => cases answer <;> simp [after,counted,Move.asks,retain]
      | _ => simp [after,counted,Move.asks,release]
    | finish busy =>
      simp only [after,counted,Move.asks,Bool.or_false]
      split <;> rfl
    | _ => simp [after,counted,Move.asks]
  | look at_ idle =>
    simp only [Move.asks,Bool.or_false]
    split <;> rfl
  | stop => simp [Move.asks]
  | _ => simp [Move.asks,release,retain]

structure Kept (st : State) (log : List Move) : Prop where
  asked : st.stopping = true ↔ Requested log
  past : st.place.over = true → Requested log ∨ .poll .failed ∈ log
  failing : st.place.failing = true → .poll .failed ∈ log
  failed : .poll .failed ∈ log → st.place.over = true ∨ st.place.failing = true
  dropped : ∀ id, .drop id ∈ log → st.place.over = true

theorem requestedAppend : Requested (log ++ [move]) ↔ Requested log ∨ move.asks = true := by
  simp [Requested,or_and_right,exists_or]

theorem Turn.stays (turn : Turn st st' move) (past : st.place.over = true) : st'.place.over = true := by
  cases turn with
  | poll before place => simp [before,Place.over] at past
  | left why place other => simp [place,Place.over,Point.after]
  | same same failing other => exact same.trans past

theorem keptStep (kept : Kept st log) (step : Step workers s st move st') : Kept st' (log ++ [move]) := by
  have turn := turnStep step
  refine ⟨?_,fun past => ?_,fun failing => ?_,fun member => ?_,fun id member => ?_⟩
  · rw [stoppingStep step,requestedAppend,← kept.asked,Bool.or_eq_true]
  · rw [requestedAppend,List.mem_append]
    cases turn with
    | poll before place => simp [place,Place.over,Point.after] at past
    | left why place other =>
      rcases why with asked | failing
      · exact .inl (.inl (kept.asked.mp asked))
      · exact .inr (.inl (kept.failing failing))
    | same same failing other => exact (kept.past (same.symm.trans past)).imp .inl .inl
  · rw [List.mem_append]
    cases turn with
    | @poll outcome before place =>
      have bad : outcome = .failed := by simpa [place,Place.failing] using failing
      exact .inr (by simp [bad])
    | left why place other => simp [place,Place.failing] at failing
    | same past same other => exact .inl (kept.failing (same.symm.trans failing))
  · rcases List.mem_append.mp member with before | now
    · rcases kept.failed before with past | failing
      · exact .inl (turn.stays past)
      cases turn with
      | poll before place => simp [before,Place.failing] at failing
      | left why place other => exact .inl (by simp [place,Place.over,Point.after])
      | same past same other => exact .inr (same.trans failing)
    rw [List.mem_singleton] at now
    subst now
    cases turn with
    | poll before place => exact .inr (by simp [place,Place.failing])
    | left why place other | same past same other => exact absurd rfl (other .failed)
  rcases List.mem_append.mp member with before | now
  · exact turn.stays (kept.dropped id before)
  rw [List.mem_singleton] at now
  subst now
  cases step with
  | drop at_ idle owner here first => simp [at_,Place.over]

theorem keptReached (reached : (service workers s).logged.Reached (st,log)) : Kept st log := by
  refine System.invariant (P := fun now => Kept now.1 now.2) ?_ ?_ reached
  · rintro ⟨st,log⟩ ⟨start,rfl⟩
    obtain ⟨-,-,at_,going,-⟩ := start
    dsimp only at at_ going
    exact ⟨by simp [going,Requested],by simp [at_,Place.over],by simp [at_,Place.failing],by simp,by simp⟩
  · rintro ⟨st,log⟩ move ⟨st',log'⟩ kept - ⟨step,rfl⟩
    exact keptStep kept step

def Tended (s : Server) (core : Reactor.State) : Prop :=
  ∀ id p, core.task = some (id,p) → ∃ post held, Keeping s post held p

theorem tendedTask {core id p post held} (keeping : Keeping s post held p) (task : core.task = some (id,p)) :
    Tended s core := by
  intro other q busy
  obtain ⟨-,rfl⟩ := somePair task busy
  exact ⟨post,held,keeping⟩

theorem tendedCore {core core' act} (tended : Tended s core) (step : Reactor.Step workers s core act core') :
    Tended s core' := by
  cases step with
  | @complete d left c idle at_ owner => exact tendedTask (completeKeeping d.posted c) rfl
  | @event id revents left c root received idle at_ owner =>
    exact tendedTask (@eventKeeping { s with root } revents received c) rfl
  | @accept peer peers left idle at_ => exact tendedTask (acceptKeeping peer) rfl
  | call answer busy possible =>
    obtain ⟨post,held,keeping⟩ := tended _ _ busy
    exact tendedTask (keeping.2 answer trivial) rfl
  | finish busy => exact fun id p busy => by cases busy
  | _ => exact tended

theorem tendedStep (tended : Tended s st.core) (step : Step workers s st move st') : Tended s st'.core := by
  cases step with
  | core fits step => exact tendedCore tended step
  | @drop id c at_ idle owner here first => exact tendedTask (disconnectKeeping c) rfl
  | look at_ idle =>
    split <;> exact tended
  | _ => exact tended

theorem stopAllowed (tended : Tended s st.core) {id call answer}
    (step : Step workers s st (.core (.call id ⟨call,answer⟩)) st') (stops : call = .stop) : s.allowStop = true := by
  cases step with
  | core fits step =>
    cases step with
    | call answer busy possible =>
      obtain ⟨post,held,keeping⟩ := tended _ _ busy
      subst stops
      exact keeping.1

theorem allowedReached (reached : (service workers s).logged.Reached (st,log)) :
    Tended s st.core ∧ ∀ id, .core (.call id ⟨.stop,()⟩) ∈ log → s.allowStop = true := by
  refine System.invariant
    (P := fun now => Tended s now.1.core ∧ ∀ id, .core (.call id ⟨.stop,()⟩) ∈ now.2 → s.allowStop = true) ?_ ?_ reached
  · rintro ⟨st,log⟩ ⟨start,rfl⟩
    refine ⟨fun id p busy => ?_,by simp⟩
    rw [start.1.2.2.2.2.2] at busy
    cases busy
  rintro ⟨st,log⟩ move ⟨st',log'⟩ ⟨tended,allowed⟩ - ⟨step,rfl⟩
  refine ⟨tendedStep tended step,fun id member => ?_⟩
  rcases List.mem_append.mp member with before | now
  · exact allowed id before
  · rw [List.mem_singleton] at now
    subst now
    exact stopAllowed tended step rfl

end

theorem loopLeftOnRequest (workers : Nat) (s : Server) (st : State) (log : List Move)
    (reached : (service workers s).logged.Reached (st,log)) :
    (.poll .failed ∉ log → st.place.over = true ∨ (∃ id, .drop id ∈ log) → Requested log) ∧
    (¬ Requested log → (st.place.over = true ∨ st.place.failing = true ↔ .poll .failed ∈ log)) ∧
    ∀ id, .core (.call id ⟨.stop,()⟩) ∈ log → s.allowStop = true := by
  have kept := keptReached reached
  refine ⟨fun sound left => ?_,fun unasked => ⟨fun left => ?_,kept.failed⟩,(allowedReached reached).2⟩
  · have past : st.place.over = true := by
      rcases left with past | ⟨id,member⟩
      · exact past
      · exact kept.dropped id member
    exact (kept.past past).resolve_right sound
  · rcases left with past | failing
    · exact (kept.past past).resolve_left unasked
    · exact kept.failing failing

def Move.fails : Move → Bool
  | .poll .failed => true
  | _ => false

def failing : List Move × State := plays (fun _ _ => true) (arriving ++ [.poll .failed])
def asked : List Move × State := plays (fun _ _ => true) (arriving ++ [.stop])

theorem loopLeftUnasked : ∃ st log, (service 2 house).logged.Reached (st,log) ∧
    st.place = .ended ∧ ¬ Requested log ∧ .drop 0 ∈ log ∧ ∀ id, listed st.core id = false := by
  have reached : (service 2 house).logged.Reached (failing.2,failing.1) := playsReached _ _
  have even : Even failing.2 := (Chooser.playPath 200 _ (evenStart blankStart)).kept (fun _ _ _ => evenStep) (evenStart blankStart)
  have facts : failing.2.place.isEnded = true ∧ (∀ move ∈ failing.1, move.asks = false) ∧
      (failing.1.any (· matches .drop 0)) = true ∧ deserted failing.2.core 0 = true := by decide +kernel
  generalize failing = last at reached even facts
  obtain ⟨ended,unasked,dropped,none_⟩ := facts
  refine ⟨last.2,last.1,reached,matchesEnded ended,fun ⟨move,member,asks⟩ => ?_,?_,
    fun id => desertedListed even none_ (Nat.zero_le id)⟩
  · rw [unasked move member] at asks
    cases asks
  · obtain ⟨move,member,is⟩ := List.any_eq_true.mp dropped
    split at is
    · exact member
    · cases is

theorem loopLeftOnRequestAsked : ∃ st log, (service 2 house).logged.Reached (st,log) ∧
    .poll .failed ∉ log ∧ st.place.over = true ∧ Requested log := by
  have reached : (service 2 house).logged.Reached (asked.2,asked.1) := playsReached _ _
  have facts : (∀ move ∈ asked.1, move.fails = false) ∧ asked.2.place.over = true := by decide +kernel
  generalize asked = last at reached facts
  have sound : .poll .failed ∉ last.1 := fun failed => nomatch facts.1 _ failed
  exact ⟨last.2,last.1,reached,sound,facts.2,(loopLeftOnRequest 2 house _ _ reached).1 sound (.inl facts.2)⟩

end OpenPs3Ftp.Service
