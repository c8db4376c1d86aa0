import OpenPs3Ftp.Lib.Ring
import OpenPs3Ftp.Reactor.Machine

/-! The worker pool as it is built (`datachan.c`): the ring under its mutex, the
condition variable and the worker loops, in place of the queue and the set of running
transfers. Whatever holds the mutex is one step. A signal wakes a worker that waits, if
there is one, and a worker may wake by itself. Every step of this server is one of the
abstract server, or changes nothing there. -/
namespace OpenPs3Ftp.Reactor
open Lib Text Fs Session Commands Events Worker

inductive Hand where
  | ready
  | asleep
  | running (job : Option Flight)
  deriving DecidableEq

def Hand.flight : Hand → Option Flight
  | .running job => job
  | _ => none

/- `core` is everything but the jobs that wait or are run. -/
structure Engine where
  core : State
  ring : RingBuffer Flight
  hands : List Hand

inductive Deed where
  | act (act : Act)
  | take (hand : Nat) (job : Option Flight)
  | sleep (hand : Nat)
  | wake (hand : Nat)
  | post (hand : Nat) (delivery : Delivery)

def Act.pooled : Act → Prop
  | .take _ | .post _ | .call _ ⟨.dispatch _,_⟩ => True
  | _ => False

def Engine.waiting (e : Engine) (task : Option (ClientId × Handler Client)) : Engine :=
  { e with core := { e.core with task } }

inductive Engine.Step (workers : Nat) (s : Server) : Engine → Deed → Engine → Prop where
  | other {e act core} (apart : ¬ act.pooled) (step : Reactor.Step workers s e.core act core) :
      Step workers s e (.act act) { e with core }
  | refused {e id job next} (busy : e.core.task = some (id,.ask (.dispatch job) next))
      (full : e.ring.push ⟨id,job⟩ = none) :
      Step workers s e (.act (.call id ⟨.dispatch job,false⟩)) (e.waiting (some (id,next false)))
  | unheard {e id job next ring} (busy : e.core.task = some (id,.ask (.dispatch job) next))
      (pushed : e.ring.push ⟨id,job⟩ = some ring) (nobody : .asleep ∉ e.hands) :
      Step workers s e (.act (.call id ⟨.dispatch job,true⟩)) { e.waiting (some (id,next true)) with ring }
  | signal {e id job next ring hand} (busy : e.core.task = some (id,.ask (.dispatch job) next))
      (pushed : e.ring.push ⟨id,job⟩ = some ring) (sleeper : e.hands[hand]? = some .asleep) :
      Step workers s e (.act (.call id ⟨.dispatch job,true⟩))
        { e.waiting (some (id,next true)) with ring, hands := e.hands.set hand .ready }
  | sleep {e hand} (here : e.hands[hand]? = some .ready) (empty : e.ring.count = 0) :
      Step workers s e (.sleep hand) { e with hands := e.hands.set hand .asleep }
  | take {e hand} (here : e.hands[hand]? = some .ready) (filled : e.ring.count ≠ 0) :
      Step workers s e (.take hand e.ring.pop.1)
        { e with ring := e.ring.pop.2, hands := e.hands.set hand (.running e.ring.pop.1) }
  | wake {e hand} (sleeper : e.hands[hand]? = some .asleep) :
      Step workers s e (.wake hand) { e with hands := e.hands.set hand .ready }
  | post {e hand f rounds trace posted} (busy : e.hands[hand]? = some (.running (some f)))
      (run : (transferRun rounds s f.job).Runs trace (some posted)) :
      Step workers s e (.post hand ⟨f.owner,posted⟩)
        { e with core := { e.core with completions := ⟨f.owner,posted⟩ :: e.core.completions },
                 hands := e.hands.set hand .ready }

def Engine.Start (workers : Nat) (e : Engine) : Prop :=
  Reactor.Start e.core ∧ e.ring = RingBuffer.make Flight (capacity workers) ∧ e.hands = List.replicate workers .ready

def engine (workers : Nat) (s : Server) : System Engine Deed where
  start := Engine.Start workers
  step := Engine.Step workers s

def Deed.abstract : Deed → Option Act
  | .act own => some own
  | .take _ job => job.map .take
  | .post _ delivery => some (.post delivery)
  | .sleep _ | .wake _ => none

/- The ring and the workers against the jobs that wait and those that are run. While
somebody sleeps, every waiting job has a worker of its own on the way to it. -/
structure Fits (workers : Nat) (ring : RingBuffer Flight) (hands : List Hand) (queue running : List Flight) : Prop where
  held : ring.Holds (capacity workers) queue
  flying : running.Perm (hands.filterMap Hand.flight)
  size : hands.length = workers
  whole : .running none ∉ hands
  attended : .asleep ∈ hands → queue.length ≤ hands.count .ready

def Shows (workers : Nat) (e : Engine) (st : State) : Prop :=
  ∃ queue running, st = { e.core with queue, running } ∧ Fits workers e.ring e.hands queue running

def Moves (workers : Nat) (s : Server) (st : State) : Option Act → State → Prop
  | none,st' => st' = st
  | some act,st' => Step workers s st act st'

section Hands
variable {hands : List Hand} {w : Nat} {now then_ : Hand}

theorem handParts (here : hands[w]? = some now) :
    hands = hands.take w ++ now :: hands.drop (w + 1) ∧
      hands.set w then_ = hands.take w ++ then_ :: hands.drop (w + 1) := by
  obtain ⟨bound,found⟩ := List.getElem?_eq_some_iff.mp here
  refine ⟨?_,List.set_eq_take_append_cons_drop.trans (if_pos bound)⟩
  rw [← found,List.getElem_cons_drop,List.take_append_drop]

theorem flightsSet (here : hands[w]? = some now) :
    (now.flight.toList ++ (hands.set w then_).filterMap Hand.flight).Perm
      (then_.flight.toList ++ hands.filterMap Hand.flight) := by
  obtain ⟨before,after⟩ := @handParts hands w now then_ here
  have opened : ∀ (h : Hand) rest, (h :: rest).filterMap Hand.flight = h.flight.toList ++ rest.filterMap Hand.flight := by
    intro h rest
    rw [List.filterMap_cons]
    cases h.flight <;> rfl
  rw [after]
  nth_rewrite 3 [before]
  simp only [List.filterMap_append,opened,List.perm_iff_count,List.count_append]
  omega

theorem readySet (here : hands[w]? = some now) :
    (hands.set w then_).count .ready + (if now = .ready then 1 else 0) =
      hands.count .ready + (if then_ = .ready then 1 else 0) := by
  obtain ⟨before,after⟩ := @handParts hands w now then_ here
  rw [after]
  nth_rewrite 3 [before]
  simp only [List.count_append,List.count_cons,beq_iff_eq]
  omega

end Hands

section
variable {workers : Nat} {s : Server}

theorem stepFramed {core core' act} (apart : ¬ act.pooled) (step : Step workers s core act core') (queue running) :
    Step workers s { core with queue, running } act { core' with queue, running } := by
  cases step with
  | wake idle at_ => exact .wake idle at_
  | complete idle at_ owner => exact .complete idle at_ owner
  | collect idle at_ collected => exact .collect idle at_ collected
  | event root received idle at_ owner => exact .event root received idle at_ owner
  | accept idle at_ => exact .accept idle at_
  | accepted idle at_ => exact .accepted idle at_
  | served idle at_ => exact .served idle at_
  | finish busy => exact .finish busy
  | take | post => exact absurd trivial apart
  | @call id call next answer busy possible =>
    cases call with
    | dispatch job => exact absurd trivial apart
    | newJob op =>
      cases answer with
      | none | some j => exact .call _ busy possible
    | _ => exact .call answer busy trivial

theorem showsStart {e} (positive : 0 < workers) (start : Engine.Start workers e) :
    Start e.core ∧ Shows workers e e.core := by
  obtain ⟨first,ring,hands⟩ := start
  have ⟨_,queue,running,_⟩ := first
  refine ⟨first,e.core.queue,e.core.running,rfl,?_⟩
  rw [ring,hands,queue,running]
  refine ⟨RingBuffer.holdsMake (by unfold capacity; omega),?_,List.length_replicate,by simp,by simp⟩
  rw [List.filterMap_eq_nil_iff.mpr]
  simp +contextual [Hand.flight]

section Hand
variable {ring ring' : RingBuffer Flight} {hands : List Hand} {queue running : List Flight} {w : Nat} {now then_ : Hand}
  {f : Flight}

variable (fits : Fits workers ring hands queue running)
include fits

theorem Fits.wholeSet (safe : then_ ≠ .running none) :
    .running none ∉ hands.set w then_ := by
  intro member
  rcases List.mem_or_eq_of_mem_set member with old | new
  · exact fits.whole old
  · exact safe new.symm

theorem Fits.idle (here : hands[w]? = some now)
    (bare : now.flight = none ∧ then_.flight = none) (safe : then_ ≠ .running none)
    (attended : .asleep ∈ hands.set w then_ → queue.length ≤ (hands.set w then_).count .ready) :
    Fits workers ring (hands.set w then_) queue running := by
  have flights := @flightsSet hands w now then_ here
  rw [bare.1,bare.2] at flights
  exact ⟨fits.held,fits.flying.trans flights.symm,by rw [List.length_set,fits.size],fits.wholeSet safe,attended⟩

theorem Fits.sleep (here : hands[w]? = some .ready)
    (empty : ring.count = 0) : Fits workers ring (hands.set w .asleep) queue running := by
  refine fits.idle here ⟨rfl,rfl⟩ (by simp) fun _ => ?_
  rw [← fits.held.count,empty]
  exact Nat.zero_le _

theorem Fits.wake (here : hands[w]? = some .asleep) :
    Fits workers ring (hands.set w .ready) queue running := by
  refine fits.idle here ⟨rfl,rfl⟩ (by simp) fun _ => ?_
  have more := @readySet hands w .asleep .ready here
  have enough := fits.attended (List.mem_of_getElem? here)
  simp at more
  omega

theorem Fits.unheard (pushed : ring.push f = some ring')
    (nobody : .asleep ∉ hands) : Fits workers ring' hands (queue ++ [f]) running :=
  ⟨fits.held.push pushed,fits.flying,fits.size,fits.whole,fun someone => absurd someone nobody⟩

theorem Fits.signal (pushed : ring.push f = some ring')
    (here : hands[w]? = some .asleep) : Fits workers ring' (hands.set w .ready) (queue ++ [f]) running := by
  have woken := fits.wake here
  refine ⟨fits.held.push pushed,woken.flying,woken.size,woken.whole,fun _ => ?_⟩
  have more := @readySet hands w .asleep .ready here
  have enough := fits.attended (List.mem_of_getElem? here)
  simp at more ⊢
  omega

theorem Fits.take (here : hands[w]? = some .ready)
    (filled : ring.count ≠ 0) : ∃ f rest, queue = f :: rest ∧ ring.pop.1 = some f ∧ running.length < workers ∧
      Fits workers ring.pop.2 (hands.set w (.running (some f))) rest (f :: running) := by
  cases waiting : queue with
  | nil => exact absurd (fits.held.count.trans (by rw [waiting]; rfl)) filled
  | cons f rest =>
    have held := fits.held
    rw [waiting] at held
    have flights := @flightsSet hands w .ready (.running (some f)) here
    have more := @readySet hands w .ready (.running (some f)) here
    have taken : (f :: running).Perm ((hands.set w (.running (some f))).filterMap Hand.flight) :=
      (fits.flying.cons f).trans flights.symm
    refine ⟨f,rest,rfl,held.pop.1,?_,held.pop.2,taken,?_,fits.wholeSet (by simp),fun someone => ?_⟩
    · have few := List.length_filterMap_le Hand.flight (hands.set w (.running (some f)))
      rw [← taken.length_eq,List.length_set,fits.size,List.length_cons] at few
      exact few
    · rw [List.length_set,fits.size]
    · have enough := fits.attended ((List.mem_or_eq_of_mem_set someone).resolve_right (by simp))
      simp [waiting] at more enough
      omega

theorem Fits.post (busy : hands[w]? = some (.running (some f))) :
    ∃ before after, running = before ++ f :: after ∧
      Fits workers ring (hands.set w .ready) queue (before ++ after) := by
  have flights := @flightsSet hands w (.running (some f)) .ready busy
  have more := @readySet hands w (.running (some f)) .ready busy
  have whole : (f :: (hands.set w .ready).filterMap Hand.flight).Perm running := flights.trans fits.flying.symm
  obtain ⟨before,after,rfl⟩ := List.append_of_mem (whole.subset List.mem_cons_self)
  refine ⟨before,after,rfl,fits.held,?_,?_,fits.wholeSet (by simp),fun someone => ?_⟩
  · exact ((whole.trans List.perm_middle).cons_inv).symm
  · rw [List.length_set,fits.size]
  · have enough := fits.attended ((List.mem_or_eq_of_mem_set someone).resolve_right (by simp))
    simp at more
    omega

end Hand

theorem showsStep {e e' st deed} (shows : Shows workers e st) (step : Engine.Step workers s e deed e') :
    ∃ st', Moves workers s st deed.abstract st' ∧ Shows workers e' st' := by
  obtain ⟨queue,running,rfl,fits⟩ := shows
  have few : queue.length ≤ capacity workers := fits.held.count ▸ fits.held.few
  have room : ∀ {f ring}, e.ring.push f = some ring → queue.length < capacity workers := fun pushed =>
    Nat.lt_of_le_of_ne few fun full => by simp [fits.held.pushNone.mpr full] at pushed
  cases step with
  | @other act core apart moved =>
    exact ⟨_,stepFramed apart moved queue running,⟨queue,running,rfl,fits⟩⟩
  | refused busy full =>
    have none : ¬ queue.length < capacity workers := by
      rw [fits.held.pushNone.mp full]
      exact Nat.lt_irrefl _
    exact ⟨_,Step.call _ busy (decide_eq_false none).symm,⟨queue,running,rfl,fits⟩⟩
  | @unheard id job next ring busy pushed nobody =>
    exact ⟨_,Step.call _ busy (decide_eq_true (room pushed)).symm,
      ⟨queue ++ [⟨id,job⟩],running,rfl,fits.unheard pushed nobody⟩⟩
  | @signal id job next ring hand busy pushed sleeper =>
    exact ⟨_,Step.call _ busy (decide_eq_true (room pushed)).symm,
      ⟨queue ++ [⟨id,job⟩],running,rfl,fits.signal pushed sleeper⟩⟩
  | sleep here empty => exact ⟨_,rfl,⟨queue,running,rfl,fits.sleep here empty⟩⟩
  | wake sleeper => exact ⟨_,rfl,⟨queue,running,rfl,fits.wake sleeper⟩⟩
  | take here filled =>
    obtain ⟨f,rest,rfl,popped,free,after⟩ := fits.take here filled
    rw [popped]
    exact ⟨_,Step.take rfl free,⟨rest,f :: running,rfl,after⟩⟩
  | post busy run =>
    obtain ⟨before,after,rfl,rest⟩ := fits.post busy
    exact ⟨_,Step.post rfl run,⟨queue,before ++ after,rfl,rest⟩⟩

end
end OpenPs3Ftp.Reactor
