import OpenPs3Ftp.Turns
import OpenPs3Ftp.Reactor
import OpenPs3Ftp.Reactor.Pool

/-! The job ring over whole runs of the server as it is built: its bounds, the order
jobs are taken in, that each is executed once, and what a refused dispatch leaves. -/
namespace OpenPs3Ftp.Reactor
open Lib Text Fs Session Commands Dispatch Events Worker Program System

def Act.unqueues : Act → List Flight
  | .take flight => [flight]
  | _ => []

def Deed.accepts : Deed → Option Flight
  | .act (.call id ⟨.dispatch job,answer⟩) => if answer = true then some ⟨id,job⟩ else none
  | _ => none

def Deed.takes : Deed → Option (Nat × Option Flight)
  | .take hand job => some (hand,job)
  | _ => none

def Deed.ends : Deed → Option (Nat × Option Flight)
  | .post hand delivery => some (hand,some delivery.flight)
  | _ => none

def accepted (log : List Deed) : List Flight := log.filterMap Deed.accepts
def taken (log : List Deed) : List (Nat × Option Flight) := log.filterMap Deed.takes
def takenBy (hand : Nat) (log : List Deed) : List (Nat × Option Flight) := (taken log).filter (·.1 = hand)

def doneBy (hand : Nat) (log : List Deed) : List (Nat × Option Flight) :=
  (log.filterMap Deed.ends).filter (·.1 = hand)

def underWay (hand : Nat) : Option Hand → List (Nat × Option Flight)
  | some (.running job) => [(hand,job)]
  | _ => []

theorem filterMapOne {α β : Type} (f : α → Option β) (a) : [a].filterMap f = (f a).toList := by
  cases found : f a <;> simp [found]

variable {w : Nat} {st : State} {e e' : Engine} {deed : Deed} {log : List Deed}

section Log
variable {workers : Nat} {s : Server}

structure Kept (workers : Nat) (s : Server) (e : Engine) (log : List Deed) (st : State) : Prop where
  fits : Shows workers e st
  abstract : (reactor workers s).logged.Reached (st,log.filterMap Deed.abstract)
  order : (taken log).map (·.2) ++ st.queue.map some = (accepted log).map some
  hands : ∀ w, takenBy w log = doneBy w log ++ underWay w e.hands[w]?

theorem underWaySet {hands : List Hand} {i now then_} (here : hands[w]? = some now) :
    underWay i (hands.set w then_)[i]? = if i = w then underWay i (some then_) else underWay i hands[i]? := by
  obtain ⟨bound,-⟩ := List.getElem?_eq_some_iff.mp here
  split
  · rename_i same
    subst same
    rw [List.getElem?_set_self bound]
  · rename_i other
    rw [List.getElem?_set_ne fun same => other same.symm]

theorem queueStep {st' act} (step : Step workers s st act st') :
    st.queue ++ (Deed.act act).accepts.toList = act.unqueues ++ st'.queue := by
  cases step with
  | take waiting free => simpa [Deed.accepts,Act.unqueues] using waiting
  | @call id call next answer busy possible =>
    cases call with
    | dispatch job | newJob op => cases answer <;> simp [Deed.accepts,Act.unqueues,answered]
    | _ => simp [Deed.accepts,Act.unqueues,answered]
  | _ => simp [Deed.accepts,Act.unqueues]

theorem handStep (step : Engine.Step workers s e deed e') (i) :
    underWay i e.hands[i]? ++ deed.takes.toList.filter (·.1 = i) =
      deed.ends.toList.filter (·.1 = i) ++ underWay i e'.hands[i]? := by
  have change : ∀ {w now then_}, e.hands[w]? = some now →
      underWay w (some now) ++ deed.takes.toList.filter (·.1 = w) =
        deed.ends.toList.filter (·.1 = w) ++ underWay w (some then_) →
      (i ≠ w → deed.takes.toList.filter (·.1 = i) = [] ∧ deed.ends.toList.filter (·.1 = i) = []) →
      underWay i e.hands[i]? ++ deed.takes.toList.filter (·.1 = i) =
        deed.ends.toList.filter (·.1 = i) ++ underWay i (e.hands.set w then_)[i]? := by
    intro w now then_ here own others
    rw [underWaySet here]
    split
    · rename_i same
      subst same
      rw [here,own]
    · rename_i other
      rw [(others other).1,(others other).2,List.append_nil,List.nil_append]
  cases step with
  | other | refused | unheard => simp [Deed.takes,Deed.ends,Engine.waiting]
  | signal busy pushed sleeper | wake sleeper => exact change sleeper rfl fun _ => ⟨rfl,rfl⟩
  | sleep here empty => exact change here rfl fun _ => ⟨rfl,rfl⟩
  | take here filled =>
    refine change here ?_ fun other => ?_
    · simp [Deed.takes,Deed.ends,underWay]
    · simp [Deed.takes,Deed.ends,Ne.symm other]
  | post busy run =>
    refine change busy ?_ fun other => ?_
    · simp [Deed.takes,Deed.ends,underWay,Delivery.flight,runPosts run]
    · simp [Deed.takes,Deed.ends,Ne.symm other]

theorem orderStep {st'} (shows : Shows workers e st) (step : Engine.Step workers s e deed e')
    (moves : Moves workers s st deed.abstract st') :
    deed.takes.toList.map (·.2) ++ st'.queue.map some = (st.queue ++ deed.accepts.toList).map some := by
  cases step with
  | @other act core apart moved =>
    have same := queueStep moves
    cases act <;> simp_all [Deed.takes,Act.unqueues,Act.pooled]
  | refused | unheard | signal =>
    have same := queueStep moves
    simp_all [Deed.takes,Act.unqueues]
  | sleep | wake =>
    obtain rfl : st' = st := moves
    simp [Deed.takes,Deed.accepts]
  | take here filled =>
    obtain ⟨queue,running,rfl,fits⟩ := shows
    obtain ⟨f,rest,rfl,popped,-⟩ := fits.take here filled
    rw [popped] at moves ⊢
    have same := queueStep moves
    simpa [Deed.takes,Deed.accepts,Act.unqueues] using congrArg (List.map some) same.symm
  | post busy run =>
    have same := queueStep moves
    simp_all [Deed.takes,Deed.accepts,Act.unqueues]

theorem keptStep (kept : Kept workers s e log st)
    (step : Engine.Step workers s e deed e') : ∃ st', Kept workers s e' (log ++ [deed]) st' := by
  obtain ⟨st',moves,shows⟩ := showsStep kept.fits step
  refine ⟨st',shows,?_,?_,fun w => ?_⟩
  · rw [List.filterMap_append]
    cases what : deed.abstract with
    | none =>
      rw [what] at moves
      obtain rfl : st' = st := moves
      simpa [what] using kept.abstract
    | some act =>
      rw [what] at moves
      have step : Step workers s st act st' := moves
      have reached : (reactor workers s).logged.Reached (st',log.filterMap Deed.abstract ++ [act]) :=
        kept.abstract.step trivial ⟨step,rfl⟩
      simpa [what] using reached
  · have order := orderStep kept.fits step moves
    simp only [taken,accepted,List.filterMap_append,filterMapOne,List.map_append,List.append_assoc] at order ⊢
    rw [order,← List.append_assoc]
    exact congrArg (· ++ _) kept.order
  have hand := handStep step w
  have before := kept.hands w
  simp only [takenBy,doneBy,taken,List.filterMap_append,filterMapOne,List.filter_append] at before ⊢
  rw [before,List.append_assoc,hand,List.append_assoc]

theorem keptReached (positive : 0 < workers)
    (reached : (engine workers s).logged.Reached (e,log)) : ∃ st, Kept workers s e log st := by
  refine System.invariant (P := fun now => ∃ st, Kept workers s now.1 now.2 st) ?_ ?_ reached
  · rintro ⟨e,log⟩ ⟨first,rfl⟩
    obtain ⟨start,shows⟩ := showsStart positive first
    refine ⟨e.core,shows,.start ⟨start,rfl⟩,?_,fun w => ?_⟩
    · rw [start.2.1]
      rfl
    · rw [first.2.2]
      simp [takenBy,taken,doneBy,underWay,List.getElem?_replicate]
  · rintro ⟨e,log⟩ deed ⟨e',log'⟩ ⟨st,kept⟩ - ⟨step,rfl⟩
    exact keptStep kept step

def Chapter.flight : Chapter → Option Flight
  | .dispatched id job => some ⟨id,job⟩
  | _ => none

theorem storyAccepted (j) (log : List Deed) :
    (story j (log.filterMap Deed.abstract)).filterMap Chapter.flight = (accepted log).filter (·.job.id = j) := by
  induction log with
  | nil => rfl
  | cons deed log ih =>
    have first : ((deed.abstract.bind (chapter j)).bind Chapter.flight).toList =
        deed.accepts.toList.filter (·.job.id = j) := by
      cases deed with
      | take hand job => cases job <;> rfl
      | sleep | wake | post => rfl
      | act own =>
        cases own with
        | call id e =>
          obtain ⟨call,answer⟩ := e
          cases call with
          | dispatch job => by_cases same : job.id = j <;> cases answer <;> simp [chapter,Deed.accepts,Deed.abstract,same,Chapter.flight]
          | send about text =>
            cases about with
            | accepted k | finished k => by_cases same : k = j <;> simp [chapter,Deed.accepts,Deed.abstract,same,Chapter.flight]
            | command | abort => rfl
          | _ => rfl
        | _ => rfl
    have whole : (deed :: log) = [deed] ++ log := rfl
    rw [whole,accepted,story,List.filterMap_append,List.filterMap_append,List.filterMap_append,List.filterMap_append,
      List.filter_append,filterMapOne Deed.accepts,← first]
    refine congrArg₂ (· ++ ·) ?_ ih
    rw [filterMapOne]
    cases deed.abstract with
    | none => rfl
    | some act =>
      rw [Option.toList_some,filterMapOne,Option.bind_some]
      cases chapter j act with
      | none => rfl
      | some told => rw [Option.toList_some,filterMapOne,Option.bind_some]

theorem storyOnce {log j} (account : Account st log j) : ((story j log).filterMap Chapter.flight).length ≤ 1 := by
  have one : ∀ {id job chapters}, Airborne id job chapters → (chapters.filterMap Chapter.flight).length = 1 := by
    rintro id job chapters ⟨announced,rfl,-⟩
    cases announced <;> rfl
  cases account with
  | unborn none => simp [none]
  | flying _ _ told | due _ _ told | left _ told => exact Nat.le_of_eq (one told)
  | ended _ told whole =>
    rw [whole,List.filterMap_append,List.length_append,one told]
    rfl

theorem acceptedOnce (kept : Kept workers s e log st) :
    ((accepted log).map (·.job.id)).Nodup := by
  obtain ⟨m,sound⟩ := soundReached kept.abstract
  refine List.nodup_iff_count_le_one.mpr fun j => ?_
  have once := storyOnce (sound.account j)
  rw [storyAccepted] at once
  rw [List.count,List.countP_map,List.countP_eq_length_filter]
  refine Nat.le_trans (Nat.le_of_eq ?_) once
  congr 1

end Log

abbrev EngineRun (workers : Nat) (s : Server) := Behaviour (engine workers s).logged

def Deed.by_ (hand : Nat) : Deed → Prop
  | .sleep w | .take w _ | .post w _ => w = hand
  | _ => False

def Attentive {workers : Nat} {s : Server} (run : EngineRun workers s) : Prop := ∀ hand, run.Fair (Deed.by_ hand)

def Waiting (t : Nat) (now : Engine × List Deed) : Prop :=
  (taken now.2).length = t ∧ t < (accepted now.2).length

def Further (t : Nat) (now : Engine × List Deed) : Prop := t < (taken now.2).length

variable {t : Nat}

section Progress
variable {workers : Nat} {s : Server} {e e' : Engine} {log : List Deed} {st : State} {deed : Deed}

theorem handOther {now} (step : Engine.Step workers s e deed e') (other : ¬ deed.by_ w)
    (here : e.hands[w]? = some now) (awake : now ≠ .asleep) : e'.hands[w]? = some now := by
  have kept : ∀ {i then_}, i ≠ w → (e.hands.set i then_)[w]? = some now :=
    fun differ => by rw [List.getElem?_set_ne differ,here]
  have sleeping : ∀ {i}, e.hands[i]? = some .asleep → i ≠ w := by
    rintro i sleeper rfl
    exact awake (Option.some.inj (here.symm.trans sleeper))
  cases step with
  | other | refused | unheard => exact here
  | signal _ _ sleeper | wake sleeper => exact kept (sleeping sleeper)
  | sleep | take | post => exact kept other

theorem waitingStep (waiting : Waiting t (e,log)) (deed) :
    Waiting t (e',log ++ [deed]) ∨ Further t (e',log ++ [deed]) := by
  obtain ⟨count,more⟩ := waiting
  simp only [Waiting,Further,taken,accepted,List.filterMap_append,filterMapOne,List.length_append] at count more ⊢
  cases deed.takes with
  | none => exact .inl ⟨by simpa using count,by omega⟩
  | some pair => exact .inr (by simp [count])

theorem Kept.filled (kept : Kept workers s e log st) (waiting : Waiting t (e,log)) : e.ring.count ≠ 0 := by
  obtain ⟨queue,running,rfl,fits⟩ := kept.fits
  have lengths := congrArg List.length kept.order
  obtain ⟨count,more⟩ := waiting
  simp only [List.length_append,List.length_map] at lengths count more
  rw [fits.held.count]
  omega

theorem Kept.attended (kept : Kept workers s e log st) (waiting : Waiting t (e,log)) (positive : 0 < workers) :
    ∃ w : Nat, e.hands[w]? = some .ready ∨ ∃ f, e.hands[w]? = some (.running (some f)) := by
  have filled := kept.filled waiting
  obtain ⟨queue,running,rfl,fits⟩ := kept.fits
  rw [fits.held.count] at filled
  obtain ⟨hand,here⟩ : ∃ hand, e.hands[0]? = some hand :=
    ⟨_,List.getElem?_eq_getElem (by rw [fits.size]; exact positive)⟩
  cases hand with
  | ready => exact ⟨0,.inl here⟩
  | running job =>
    cases job with
    | none => exact absurd (List.mem_of_getElem? here) fits.whole
    | some f => exact ⟨0,.inr ⟨f,here⟩⟩
  | asleep =>
    have some_ := fits.attended (List.mem_of_getElem? here)
    obtain ⟨w,found⟩ := List.mem_iff_getElem?.mp (List.count_pos_iff.mp (show 0 < e.hands.count .ready by omega))
    exact ⟨w,.inl found⟩

theorem readyStep (kept : Kept workers s e log st) (waiting : Waiting t (e,log))
    (here : e.hands[w]? = some .ready) (mine : deed.by_ w) (step : Engine.Step workers s e deed e') :
    Further t (e',log ++ [deed]) := by
  cases step with
  | sleep _ empty => exact absurd empty (kept.filled waiting)
  | take => simp [Further,taken,Deed.takes,← waiting.1]
  | post busy _ =>
    obtain rfl := mine
    simp [here] at busy
  | _ => exact mine.elim

theorem endStep {f} (here : e.hands[w]? = some (.running (some f))) (mine : deed.by_ w)
    (step : Engine.Step workers s e deed e') :
    e'.hands[w]? = some .ready ∧ ∃ d : Delivery, deed = .post w d ∧ d.flight = f := by
  cases step with
  | sleep idle _ | take idle _ =>
    obtain rfl := mine
    simp [here] at idle
  | post busy ran =>
    obtain rfl := mine
    obtain rfl : f = _ := by simpa [here] using busy
    obtain ⟨bound,-⟩ := List.getElem?_eq_some_iff.mp here
    exact ⟨List.getElem?_set_self bound,_,rfl,by simp [Delivery.flight,runPosts ran]⟩
  | _ => exact mine.elim

section Fair
variable {run : EngineRun workers s} (fair : Attentive run)
include fair

theorem readyTakes (positive : 0 < workers) (t w : Nat) :
    run.Leads (fun now => Waiting t now ∧ now.1.hands[w]? = some .ready) (Further t) := by
  refine (fair w).leads ?_ ?_
  · rintro ⟨e,log⟩ reached ⟨waiting,here⟩
    obtain ⟨st,kept⟩ := keptReached positive reached
    exact ⟨.take w _,(_,_),rfl,.take here (kept.filled waiting),rfl⟩
  · rintro ⟨e,log⟩ deed ⟨e',log'⟩ reached ⟨waiting,here⟩ ⟨step,rfl⟩
    obtain ⟨st,kept⟩ := keptReached positive reached
    by_cases mine : deed.by_ w
    · exact .inr (readyStep kept waiting here mine step)
    · exact (waitingStep waiting deed).imp_left fun still => ⟨⟨still,handOther step mine here (by simp)⟩,mine⟩

theorem busyEnds (w f) :
    run.Leads (fun now => now.1.hands[w]? = some (.running (some f)))
      (fun now => now.1.hands[w]? = some .ready ∧ ∃ d : Delivery, .post w d ∈ now.2 ∧ d.flight = f) := by
  refine (fair w).leads ?_ ?_
  · rintro ⟨e,log⟩ - here
    obtain ⟨trace,posted,ran⟩ := runnable s f.job
    exact ⟨.post w _,(_,_),rfl,.post here ran,rfl⟩
  · rintro ⟨e,log⟩ deed ⟨e',log'⟩ - here ⟨step,rfl⟩
    by_cases mine : deed.by_ w
    · obtain ⟨ready,d,rfl,same⟩ := endStep here mine step
      exact .inr ⟨ready,d,by simp,same⟩
    · exact .inl ⟨handOther step mine here (by simp),mine⟩

theorem waitingTaken (positive : 0 < workers) (t : Nat) : run.Leads (Waiting t) (Further t) := by
  intro n waiting
  obtain ⟨st,kept⟩ := keptReached positive (run.reached n)
  obtain ⟨w,ready | ⟨f,busy⟩⟩ := kept.attended waiting positive
  · exact readyTakes fair positive t w n ⟨waiting,ready⟩
  have along := Behaviour.Leads.along (busyEnds fair w f) (R := Waiting t) (S := Further t) ?_
  · obtain ⟨m,later,⟨⟨ready,-⟩,still⟩ | further⟩ := along n ⟨busy,waiting⟩
    · obtain ⟨k,last,further⟩ := readyTakes fair positive t w m ⟨still,ready⟩
      exact ⟨k,Nat.le_trans later last,further⟩
    · exact ⟨m,later,further⟩
  · rintro ⟨e,log⟩ deed ⟨e',log'⟩ - still ⟨-,rfl⟩
    exact waitingStep still deed

omit fair in
theorem logGrows {n m} (later : n ≤ m) : (run.state n).2 <+: (run.state m).2 := by
  induction m, later using Nat.le_induction with
  | base => exact List.prefix_rfl
  | succ m later ih =>
    have grown := (run.next m).2
    exact ih.trans ⟨[run.label m],grown.symm⟩

theorem acceptedTaken (positive : 0 < workers) (k n) (here : k < (accepted (run.state n).2).length) :
    ∃ m, n ≤ m ∧ k < (taken (run.state m).2).length := by
  induction missing : k + 1 - (taken (run.state n).2).length using Nat.strong_induction_on generalizing n with
  | _ left ih =>
    by_cases done : k < (taken (run.state n).2).length
    · exact ⟨n,Nat.le_refl n,done⟩
    obtain ⟨m,later,further⟩ := waitingTaken fair positive _ n ⟨rfl,by omega⟩
    have more : (accepted (run.state n).2).length ≤ (accepted (run.state m).2).length :=
      ((logGrows later).filterMap _).length_le
    simp only [Further] at further
    obtain ⟨l,last,found⟩ := ih (k + 1 - (taken (run.state m).2).length) (by omega) m (by omega) rfl
    exact ⟨l,Nat.le_trans later last,found⟩

theorem acceptedExecuted (positive : 0 < workers) {n f} (here : f ∈ accepted (run.state n).2) :
    ∃ m w d, n ≤ m ∧ (w,some f) ∈ taken (run.state m).2 ∧ .post w d ∈ (run.state m).2 ∧ d.flight = f := by
  obtain ⟨k,bound,rfl⟩ := List.mem_iff_getElem.mp here
  obtain ⟨m,later,done⟩ := acceptedTaken fair positive k n bound
  obtain ⟨st,kept⟩ := keptReached positive (run.reached m)
  have same : ((taken (run.state m).2).map (·.2))[k]? = some (some (accepted (run.state n).2)[k]) := by
    have order := congrArg (·[k]?) kept.order
    have longer : (accepted (run.state m).2)[k]? = (accepted (run.state n).2)[k]? := by
      obtain ⟨rest,whole⟩ := (logGrows later).filterMap Deed.accepts
      exact (congrArg (·[k]?) whole.symm).trans (List.getElem?_append_left bound)
    simp only [List.getElem?_map,longer,List.getElem?_eq_getElem bound] at order
    rw [List.getElem?_append_left (by simpa using done)] at order
    exact order
  obtain ⟨⟨w,job⟩,found,owner⟩ := List.mem_map.mp (List.mem_of_getElem? same)
  obtain rfl : job = some _ := owner
  have mine : (w,some (accepted (run.state n).2)[k]) ∈ takenBy w (run.state m).2 :=
    List.mem_filter.mpr ⟨found,by simp⟩
  rw [kept.hands w] at mine
  rcases List.mem_append.mp mine with ended | going
  · obtain ⟨posted,-⟩ := List.mem_filter.mp ended
    obtain ⟨deed,told,what⟩ := List.mem_filterMap.mp posted
    cases deed with
    | post hand d =>
      obtain ⟨rfl,flight⟩ : hand = w ∧ d.flight = (accepted (run.state n).2)[k] := by simpa [Deed.ends] using what
      exact ⟨m,hand,d,later,found,told,flight⟩
    | _ => cases what
  have busy : (run.state m).1.hands[w]? = some (.running (some (accepted (run.state n).2)[k])) := by
    generalize (run.state m).1.hands[w]? = hand at going
    unfold underWay at going
    split at going
    · rename_i job
      have same : some (accepted (run.state n).2)[k] = job := by simpa using going
      rw [same]
    · cases going
  obtain ⟨l,last,-,d,told,flight⟩ := busyEnds fair w _ m busy
  exact ⟨l,w,d,Nat.le_trans later last,((logGrows last).filterMap _).subset found,told,flight⟩

end Fair
end Progress
variable {trace : Trace} {job : Job}

section Refused
variable {s : Server} {c c' : Client}

def Permits (s : Server) (c : Client) (p : Progress) (trace : Trace) : Prop :=
  ∀ first e second, trace = first ++ e :: second → Permitted s c (noted progress p first) e.1

theorem permitsCons {p e} (permits : Permits s c p (e :: trace)) :
    Permitted s c p e.1 ∧ Permits s c (progress p e.1 e.2) trace :=
  ⟨permits [] e trace rfl,fun first f second whole => permits (e :: first) f second (by rw [whole]; rfl)⟩

theorem releasedNoted (trace p) :
    ∃ given, (noted progress p trace).released = p.released ++ given ∧ given.Sublist (trace.map (·.1)) := by
  induction trace generalizing p with
  | nil => exact ⟨[],by simp [noted],.refl _⟩
  | cons e trace ih =>
    obtain ⟨given,whole,part⟩ := ih (progress p e.1 e.2)
    have first : (progress p e.1 e.2).released = p.released ∨ (progress p e.1 e.2).released = p.released ++ [e.1] := by
      obtain ⟨call,answer⟩ := e
      cases call with
      | closeFd fd =>
        by_cases open_ : p.refused ≠ none ∧ p.released = []
        · exact .inr (by simp [progress,open_])
        · exact .inl (if_neg open_)
      | freeJob job => exact .inr rfl
      | dispatch job => cases answer <;> exact .inl rfl
      | send about text => cases about <;> exact .inl rfl
      | _ => exact .inl rfl
    rcases first with none | one
    · exact ⟨given,by rw [← none]; exact whole,part.cons _⟩
    · refine ⟨e.1 :: given,?_,part.cons_cons _⟩
      rw [List.append_cons,← one]
      exact whole

theorem idleNoted {trace p} (permits : Permits s c p trace) (idle : p.refused = none → p.released = []) :
    (noted progress p trace).refused = none → (noted progress p trace).released = [] := by
  induction trace generalizing p with
  | nil => exact idle
  | cons e trace ih =>
    obtain ⟨allowed,later⟩ := permitsCons permits
    refine ih later ?_
    obtain ⟨call,answer⟩ := e
    cases call with
    | closeFd fd =>
      intro still
      have same : p.refused = none := still
      exact (congrArg Progress.released (progressClosed same fd)).trans (idle same)
    | freeJob job => exact fun none => absurd none allowed.2.2
    | dispatch job =>
      cases answer with
      | false => exact fun still => absurd still (Option.some_ne_none job)
      | true => exact idle
    | send about text => cases about <;> exact idle
    | _ => exact idle

theorem refusedNoted {p} (permits : Permits s c p trace) (refused : p.refused = some job) :
    (noted progress p trace).refused = some job := by
  induction trace generalizing p with
  | nil => exact refused
  | cons e trace ih =>
    obtain ⟨allowed,later⟩ := permitsCons permits
    refine ih later ?_
    obtain ⟨call,answer⟩ := e
    cases call with
    | dispatch other => exact absurd (refused.symm.trans allowed.2.2.2.2.2.2) (by simp)
    | send about text => cases about <;> exact refused
    | _ => exact refused

theorem lineRefused {text} (run : (processLine (commandsInit s) (Command.run s) id c text).Runs trace c')
    (refused : ⟨.dispatch job,false⟩ ∈ trace) :
    ∃ before after, trace = before ++ ⟨.dispatch job,false⟩ :: after ∧
      (undoing job).Sublist (after.map (·.1)) ∧ c'.connected = c.connected ∧
      c'.disconnectRequested = c.disconnectRequested := by
  cases lineRuns run with
  | empty | shut | unknown => simp at refused
  | @entered command trace _ found gate handled =>
    obtain ⟨before,after,rfl⟩ := List.append_of_mem ((List.mem_cons.mp refused).resolve_left (by simp))
    obtain ⟨outcome,permits⟩ := meetsRuns (discipline command s c _) handled fun _ _ => trivial
    have asked := permits before _ after rfl
    have split : noted progress nothing (before ++ ⟨.dispatch job,false⟩ :: after) =
        noted progress (progress (noted progress nothing before) (.dispatch job) false) after := by
      simp [noted]
    have later : Permits s c (progress (noted progress nothing before) (.dispatch job) false) after := by
      intro first e second whole
      have there := permits (before ++ ⟨.dispatch job,false⟩ :: first) e second (by simp [whole])
      simpa [noted] using there
    have first : (noted progress nothing before).released = [] := by
      refine @idleNoted s c _ _ (fun first e second whole => ?_) (fun _ => rfl) asked.2.2.2.2.2.2
      exact permits first e (second ++ ⟨.dispatch job,false⟩ :: after) (by simp [whole])
    have undone := outcome.refusal job (by rw [split]; exact refusedNoted later rfl)
    obtain ⟨given,whole,part⟩ := releasedNoted after (progress (noted progress nothing before) (.dispatch job) false)
    rw [← split,undone.1] at whole
    have same : undoing job = given := whole.trans (by simp [progress,first])
    refine ⟨⟨.enter _ c,()⟩ :: before,after,rfl,same ▸ part,outcome.same.1,undone.2⟩

end Refused
theorem refusedFull {workers s id answer} (shows : Shows workers e st)
    (step : Engine.Step workers s e (.act (.call id ⟨.dispatch job,answer⟩)) e') :
    answer = false ↔ e.ring.count = capacity workers := by
  obtain ⟨queue,running,rfl,fits⟩ := shows
  have full : ∀ f, e.ring.push f = none ↔ e.ring.count = capacity workers := by
    intro f
    rw [fits.held.pushNone,fits.held.count]
  cases step with
  | other apart moved => exact absurd trivial apart
  | refused busy none => simpa using (full _).mp none
  | unheard _ pushed | signal _ pushed =>
    have room := (full ⟨id,job⟩).not.mp (by simp [pushed])
    simpa using room

theorem jobsOrdered (workers : Nat) (positive : 0 < workers) (s : Server) :
    (∀ e log, (engine workers s).logged.Reached (e,log) →
      e.ring.count ≤ 2 * workers ∧ e.ring.tail = (e.ring.head + e.ring.count) % (2 * workers) ∧
      (∃ queue, e.ring.Holds (2 * workers) queue ∧
        (taken log).map (·.2) ++ queue.map some = (accepted log).map some) ∧
      ((accepted log).map (·.job.id)).Nodup ∧ ((taken log).map (·.2)).Nodup ∧
      (∀ hand, takenBy hand log = doneBy hand log ++ underWay hand e.hands[hand]?) ∧
      ∀ id job answer e', (engine workers s).step e (.act (.call id ⟨.dispatch job,answer⟩)) e' →
        (answer = false ↔ e.ring.count = 2 * workers)) ∧
    (∀ run : EngineRun workers s, Attentive run → ∀ n f, f ∈ accepted (run.state n).2 →
      ∃ m hand d, n ≤ m ∧ (hand,some f) ∈ taken (run.state m).2 ∧ .post hand d ∈ (run.state m).2 ∧ d.flight = f) ∧
    ∀ c text trace c' job, (processLine (commandsInit s) (Command.run s) id c text).Runs trace c' →
      ⟨.dispatch job,false⟩ ∈ trace → ∃ before after, trace = before ++ ⟨.dispatch job,false⟩ :: after ∧
        (undoing job).Sublist (after.map (·.1)) ∧ c'.connected = c.connected ∧
        c'.disconnectRequested = c.disconnectRequested := by
  refine ⟨fun e log reached => ?_,fun run fair n f here => acceptedExecuted fair positive here,
    fun c text trace c' job run refused => lineRefused run refused⟩
  obtain ⟨st,kept⟩ := keptReached positive reached
  have once := acceptedOnce kept
  obtain ⟨queue,running,shown,fits⟩ := kept.fits
  have order : (taken log).map (·.2) ++ queue.map some = (accepted log).map some := by
    simpa [shown] using kept.order
  refine ⟨fits.held.few,fits.held.tail,⟨queue,fits.held,order⟩,once,?_,kept.hands,?_⟩
  · have all : ((accepted log).map some).Nodup := (List.Nodup.of_map _ once).map (Option.some_injective _)
    rw [← order] at all
    exact all.of_append_left
  · intro id job answer e' step
    exact refusedFull kept.fits step

def scarce : (call : Call) → Answer call
  | .newJob _ => some 7
  | call => Containment.refusals call

def provided : Client := { clientNew caller with loggedIn := true, dataPeer := caller, haveDataPeer := true }

def turnedAway : Exchange Answer → Option Job
  | ⟨.dispatch job,false⟩ => some job
  | _ => none

/-! Runs of the pool that can be computed, as those of the server are. -/
inductive Cue where
  | core (hint : Hint)
  | take (hand : Nat)
  | sleep (hand : Nat)
  | post (hand : Nat)

instance : DecidablePred Act.pooled := fun act =>
  decidable_of_iff (act matches .take _ | .post _ | .call _ ⟨.dispatch _,_⟩) (by unfold Act.pooled; split <;> simp_all)

namespace Engine
variable (workers : Nat) (s : Server) (oracle : (call : Call) → Answer call) (labour : (call : Work) → call.Answer)

abbrev Turn (e : Engine) : Type := (engine workers s).Next (fun _ => True) e

variable {workers s}

def lift {e : Engine} (next : Choice workers s e.core) : Option (Turn workers s e) :=
  if apart : ¬ next.label.pooled then
    some ⟨.act next.label,{ e with core := next.state },fun _ => .other apart (next.step trivial)⟩
  else none

def due (e : Engine) : Option (Turn workers s e) :=
  match busy : e.core.task with
  | some (id,.ask (.dispatch job) next) =>
    match pushed : e.ring.push ⟨id,job⟩ with
    | none =>
      some ⟨.act (.call id ⟨.dispatch job,false⟩),e.waiting (some (id,next false)),fun _ => .refused busy pushed⟩
    | some ring =>
      if nobody : .asleep ∉ e.hands then
        some ⟨.act (.call id ⟨.dispatch job,true⟩),{ e.waiting (some (id,next true)) with ring },
          fun _ => .unheard busy pushed nobody⟩
      else none
  | _ => (Reactor.due workers s oracle e.core).bind lift

def pick (cue : Cue) (e : Engine) : Option (Turn workers s e) :=
  match cue with
  | .core hint => (Reactor.pick workers s labour hint e.core).bind lift
  | .take hand => if here : e.hands[hand]? = some .ready ∧ e.ring.count ≠ 0 then
      some ⟨.take hand e.ring.pop.1,{ e with ring := e.ring.pop.2, hands := e.hands.set hand (.running e.ring.pop.1) },
        fun _ => .take here.1 here.2⟩
    else none
  | .sleep hand => if here : e.hands[hand]? = some .ready ∧ e.ring.count = 0 then
      some ⟨.sleep hand,{ e with hands := e.hands.set hand .asleep },fun _ => .sleep here.1 here.2⟩
    else none
  | .post hand =>
    match busy : e.hands[hand]? with
    | some (.running (some f)) =>
      match last : ((transferRun 0 s f.job).play labour).2 with
      | none => none
      | some posted => some ⟨.post hand ⟨f.owner,posted⟩,
          { e with core := { e.core with completions := ⟨f.owner,posted⟩ :: e.core.completions },
                   hands := e.hands.set hand .ready },
          fun _ => .post busy (last ▸ playRuns labour (transferRun 0 s f.job))⟩
    | _ => none

def chooser (workers : Nat) (s : Server) : Chooser (engine workers s) Cue where
  Sane _ := True
  sane _ _ := trivial
  due := due oracle
  pick := pick labour

end Engine

def readied : Engine := ⟨booted,RingBuffer.make Flight 2,[.ready]⟩

theorem readiedStart : Engine.Start 1 readied := ⟨bootedStart,rfl,rfl⟩

/- From a state in which the reactor rests, only the reactor moves. -/
theorem engineRests {e} (path : (engine 1 house).Path readied log e) (resting : Resting e.core) :
    ∃ run : EngineRun 1 house, ∀ n, run.state (log.length + n) =
      ({ e with core := idling e.core n },log ++ (List.range n).map fun n => .act (idleAct n)) := by
  obtain ⟨idle,at_,clear⟩ := resting
  have here : idling e.core 0 = e.core := by simp [idling,idlePhase,← at_]
  have apart : ∀ n, ¬ (idleAct n).pooled := fun n => by unfold idleAct; split_ifs <;> exact id
  obtain ⟨state,label,zero,next,tail⟩ := (path.logged []).goesOn
    (fun n => ({ e with core := idling e.core n },log ++ (List.range n).map fun n => .act (idleAct n)))
    (fun n => .act (idleAct n)) (by simp [here]) fun n => ⟨.other (apart n) (idlingStep idle clear n),by simp [List.range_succ]⟩
  exact ⟨⟨state,label,zero ▸ ⟨readiedStart,rfl⟩,next⟩,fun n => (tail n).1⟩

def worked (later : List Cue) : List Deed × Engine :=
  (Engine.chooser Containment.refusals offline 1 house).play (fun _ _ => true) 300 readied (storing.map .core ++ later)

theorem workedPath (later) : (engine 1 house).Path readied (worked later).1 (worked later).2 :=
  Chooser.playPath 300 _ trivial

theorem jobsOrderedServed : 0 < 1 ∧
    (∃ (run : EngineRun 1 house) (n : Nat) (f : Flight), Attentive run ∧ f ∈ accepted (run.state n).2 ∧
      (run.state n).1.ring.tail = ((run.state n).1.ring.head + (run.state n).1.ring.count) % (2 * 1) ∧
      ∃ m hand d, n ≤ m ∧ (hand,some f) ∈ taken (run.state m).2 ∧ .post hand d ∈ (run.state m).2 ∧ d.flight = f) ∧
    ∃ trace c' job, (processLine (commandsInit house) (Command.run house) id provided (ascii "STOU")).Runs trace c' ∧
      ⟨.dispatch job,false⟩ ∈ trace ∧ c'.connected = true := by
  have ordered := jobsOrdered 1 (by decide) house
  refine ⟨by decide,?_,?_⟩
  · have path := workedPath [.take 0,.post 0,.take 0,.post 0,.core .wake,.core (.collect []),.sleep 0]
    generalize played : worked _ = last at path
    have facts : rests last.2.core = true ∧ last.2.hands = [.asleep] ∧ accepted last.1 ≠ [] := by
      rw [← played]
      decide +kernel
    obtain ⟨resting,asleep,some_⟩ := facts
    obtain ⟨f,told⟩ := List.exists_mem_of_ne_nil _ some_
    obtain ⟨run,goes⟩ := engineRests path (restsResting resting)
    have attentive : Attentive run := by
      intro w n enabled
      obtain ⟨deed,⟨e',_⟩,mine,moved⟩ := enabled _ (Nat.le_add_left n _)
      rw [goes n] at moved
      cases moved.1 with
      | sleep here | take here | post here => cases w <;> simp_all [Deed.by_]
      | _ => exact mine.elim
    have here : f ∈ accepted (run.state (last.1.length + 0)).2 := by
      rw [goes 0]
      simpa using told
    exact ⟨run,_,f,attentive,here,(ordered.1 _ _ (run.reached _)).2.1,ordered.2.1 run attentive _ _ here⟩
  have run := playRuns scarce (processLine (commandsInit house) (Command.run house) id provided (ascii "STOU"))
  generalize played : (processLine (commandsInit house) (Command.run house) id provided (ascii "STOU")).play scarce =
    last at run
  obtain ⟨trace,c'⟩ := last
  have away : (trace.filterMap turnedAway).length = 1 := by
    have fixed : (((processLine (commandsInit house) (Command.run house) id provided (ascii "STOU")).play scarce).1
        |>.filterMap turnedAway).length = 1 := by decide +kernel
    rwa [played] at fixed
  obtain ⟨job,only⟩ := List.length_eq_one_iff.mp away
  obtain ⟨e,member,refused⟩ := List.mem_filterMap.mp (show job ∈ trace.filterMap turnedAway by simp [only])
  have same : e = ⟨.dispatch job,false⟩ := by
    unfold turnedAway at refused
    split at refused <;> simp at refused
    rw [refused]
  subst same
  obtain ⟨-,-,-,-,connected,-⟩ := ordered.2.2 provided _ trace c' job run member
  exact ⟨trace,c',job,run,member,connected⟩

/- The only worker is at the first upload, and its peer is silent. -/
theorem jobWaits : ∃ (run : EngineRun 1 house) (n : Nat) (f g : Flight), g ∈ accepted (run.state n).2 ∧
    (∀ m, n ≤ m → (run.state m).1.hands = [.running (some f)] ∧ ∀ hand, (hand,some g) ∉ taken (run.state m).2) ∧
    ∀ rounds, Program.Runs (transferRun rounds house f.job) (Program.play stalled (transferRun rounds house f.job)).1 none := by
  have path := workedPath [.take 0]
  generalize played : worked [.take 0] = last at path
  have facts : rests last.2.core = true ∧ (accepted last.1).length = 2 ∧ (accepted last.1).Nodup ∧
      last.2.hands = (accepted last.1).dropLast.map (fun f => .running (some f)) ∧
      taken last.1 = (accepted last.1).dropLast.map (fun f => (0,some f)) ∧
      ∀ f ∈ (accepted last.1).dropLast, stallable f.job = true := by
    rw [← played]
    decide +kernel
  obtain ⟨resting,two,apart,busy,took,stalls⟩ := facts
  obtain ⟨f,g,both⟩ := List.length_eq_two.mp two
  rw [both] at apart busy took stalls
  obtain ⟨run,goes⟩ := engineRests path (restsResting resting)
  refine ⟨run,last.1.length + 0,f,g,?_,fun m later => ?_,fun rounds => ?_⟩
  · rw [goes 0]
    simp [both]
  · obtain ⟨n,rfl⟩ := Nat.exists_eq_add_of_le later
    rw [Nat.add_assoc,goes]
    refine ⟨busy,fun hand here => ?_⟩
    have silent : ∀ n, taken ((List.range n).map fun n => .act (idleAct n)) = [] := by simp [taken,Deed.takes]
    rw [taken,List.filterMap_append,← taken,← taken,silent,took] at here
    simp_all
  · have run := playRuns stalled (transferRun rounds house f.job)
    rwa [stalledRun house rounds (stalls f (by simp))] at run

end OpenPs3Ftp.Reactor
