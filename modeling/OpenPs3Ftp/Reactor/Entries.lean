import OpenPs3Ftp.Reactor.Tasks

/-! Handlers in the log of the running server: each works for the client that entered
it last, and a job it dispatches carries that client's settings and the address the
client was accepted from. -/
namespace OpenPs3Ftp.Reactor
open Lib Text Fs Session Commands Events Worker Program System

def Act.enters (id : ClientId) : Act → Option Client
  | .call i ⟨.enter _ c,_⟩ => if i = id then some c else none
  | _ => none

def lastEntered (id : ClientId) (log : List Act) : Option Client := (log.filterMap (Act.enters id)).getLast?

variable {id : ClientId}

theorem lastEnteredKept {log act} (none_ : act.enters id = none) :
    lastEntered id (log ++ [act]) = lastEntered id log := by
  simp [lastEntered,List.filterMap_append,none_]

theorem lastEnteredNow (id log name c) : lastEntered id (log ++ [.call id ⟨.enter name c,()⟩]) = some c := by
  simp [lastEntered,List.filterMap_append,Act.enters]

def Apart : Call → Prop
  | .enter .. | .dispatch _ => False
  | _ => True

def Serving (s : Server) (log : List Act) (id : ClientId) (peer : SockAddr) (p : Handler Client) : Prop :=
  (∃ d root, Dutiful { s with root } True (Ended { s with root }) d p ∧ d.client.peer = peer ∧
    (d.name ≠ [] → lastEntered id log = some d.client)) ∨
  p.Obeys (fun _ _ => True) Apart (fun c => c.peer = peer)

structure Traced (s : Server) (st : State) (log : List Act) : Prop where
  fresh : ∀ id peer, .accept id peer ∈ log → id < st.nextClient
  once : ∀ id peer other, .accept id peer ∈ log → .accept id other ∈ log → peer = other
  seats : ∀ id c, st.clients id = some c → .accept id c.peer ∈ log
  task : ∀ id p, st.task = some (id,p) → ∃ peer, .accept id peer ∈ log ∧ Serving s log id peer p
  entered : ∀ id name c, .call id ⟨.enter name c,()⟩ ∈ log → .accept id c.peer ∈ log
  carried : ∀ before id job after, log = before ++ .call id ⟨.dispatch job,true⟩ :: after →
    ∃ c, lastEntered id before = some c ∧ .accept id c.peer ∈ log ∧ Carried s c job

theorem followsPeer {s d c} (follows : Follows s d c) : c.peer = d.client.peer := by
  obtain ⟨c',how,same⟩ := follows
  rw [same]
  rcases how with ⟨-,-,rfl⟩ | ⟨command,-,outcome⟩
  · rfl
  · exact outcome.same.2.2

theorem endedPeer {s d c} (ended : Ended s d c) : c.peer = d.client.peer := by
  obtain ⟨c',follows,how⟩ := ended
  have same := followsPeer follows
  rcases how with ⟨-,rfl⟩ | ⟨-,rfl⟩
  · exact same
  · exact same

variable {peer : SockAddr}

section
variable {workers : Nat} {s : Server} {st st' : State} {log : List Act} {act : Act}

theorem servingEvent (root revents received c id) :
    Serving s log id c.peer (handleClientEvents { s with root } revents received c) :=
  .inl ⟨Events.fresh c,root,eventDutiful received fun _ _ => .inr trivial,rfl,fun named => absurd rfl named⟩

theorem completeApart (p c) : (datachanComplete p c).Obeys (fun _ _ => True) Apart (fun c' => c'.peer = c.peer) := by
  unfold datachanComplete closeJob finishAbort closeSome
  cases p.job.pasvFd <;> cases p.dataFd <;> by_cases here : p.job.generation = c.generation <;>
    by_cases pending : c.aborPending = true <;>
    simp [here,pending,Apart,Obeys,replyAbout,invokeAsk]

theorem servingCompletion (p c id) : Serving s log id c.peer (datachanComplete p c) :=
  .inr (completeApart p c)

theorem servingAccepted (peer id) : Serving s log id peer (acceptClient s peer) := by
  right
  unfold acceptClient
  cases s.skipBanner <;> cases s.requireTls <;> simp [Apart,Obeys,reply,replyAbout,invokeAsk,clientNew]

theorem servingCall {call next} (serving : Serving s log id peer (.ask call next)) (answer) :
    Serving s (log ++ [.call id ⟨call,answer⟩]) id peer (next answer) := by
  rcases serving with ⟨d,root,⟨owed,later⟩,same,named⟩ | ⟨apart,later⟩
  · refine .inl ⟨d.note call answer,root,later answer trivial,?_⟩
    cases call with
    | enter name c => exact ⟨(followsPeer owed.1).trans same,fun _ => lastEnteredNow id log name c⟩
    | _ => exact ⟨same,fun entered => (lastEnteredKept rfl).trans (named entered)⟩
  · exact .inr (later answer trivial)

variable (traced : Traced s st log)
include traced

theorem carriedAppend (now : ∀ id job, act = .call id ⟨.dispatch job,true⟩ →
      ∃ c, lastEntered id log = some c ∧ .accept id c.peer ∈ log ∧ Carried s c job) :
    ∀ before id job after, log ++ [act] = before ++ .call id ⟨.dispatch job,true⟩ :: after →
      ∃ c, lastEntered id before = some c ∧ .accept id c.peer ∈ log ++ [act] ∧ Carried s c job := by
  intro before id job after whole
  rcases after.eq_nil_or_concat with rfl | ⟨rest,late,rfl⟩
  · obtain ⟨rfl,same⟩ := List.append_inj' whole rfl
    obtain ⟨c,last,accepted,carried⟩ := now id job (List.singleton_inj.mp same)
    exact ⟨c,last,List.mem_append_left _ accepted,carried⟩
  · rw [List.concat_eq_append,← List.cons_append,← List.append_assoc] at whole
    obtain ⟨same,-⟩ := List.append_inj' whole rfl
    obtain ⟨c,last,accepted,carried⟩ := traced.carried before id job rest same
    exact ⟨c,last,List.mem_append_left _ accepted,carried⟩

omit traced in
theorem Serving.append {p} (serving : Serving s log id peer p) (none_ : act.enters id = none) :
    Serving s (log ++ [act]) id peer p := by
  rcases serving with ⟨d,root,dutiful,same,named⟩ | obeys
  · exact .inl ⟨d,root,dutiful,same,fun entered => (lastEnteredKept none_).trans (named entered)⟩
  · exact .inr obeys

def Act.plain : Act → Prop
  | .accept .. | .call .. => False
  | _ => True

theorem tracedPlain (plain : act.plain) (next : st'.nextClient = st.nextClient)
    (seats : ∀ id c, st'.clients id = some c → .accept id c.peer ∈ log)
    (task : ∀ id p, st'.task = some (id,p) → ∃ peer, .accept id peer ∈ log ∧ Serving s log id peer p) :
    Traced s st' (log ++ [act]) := by
  have old : ∀ id peer, .accept id peer ∈ log ++ [act] → .accept id peer ∈ log := by
    intro id peer member
    rcases List.mem_append.mp member with here | here
    · exact here
    · rw [← List.mem_singleton.mp here] at plain
      exact plain.elim
  refine ⟨fun id peer member => next ▸ traced.fresh id peer (old _ _ member),
    fun id peer other first second => traced.once id peer other (old _ _ first) (old _ _ second),
    fun id c here => List.mem_append_left _ (seats id c here),?_,?_,?_⟩
  · intro id p busy
    obtain ⟨peer,accepted,serving⟩ := task id p busy
    refine ⟨peer,List.mem_append_left _ accepted,serving.append ?_⟩
    cases act <;> first | rfl | exact plain.elim
  · intro id name c member
    rcases List.mem_append.mp member with here | here
    · exact List.mem_append_left _ (traced.entered id name c here)
    · rw [← List.mem_singleton.mp here] at plain
      exact plain.elim
  · refine carriedAppend traced fun id job same => ?_
    rw [same] at plain
    exact plain.elim

theorem tracedAccept {phase} :
    Traced s { st with phase, nextClient := st.nextClient + 1, task := some (st.nextClient,acceptClient s peer) }
      (log ++ [.accept st.nextClient peer]) := by
  have split : ∀ id other, Act.accept id other ∈ log ++ [.accept st.nextClient peer] →
      (.accept id other ∈ log ∧ id < st.nextClient) ∨ (id = st.nextClient ∧ other = peer) := by
    intro id other member
    rcases List.mem_append.mp member with here | here
    · exact .inl ⟨here,traced.fresh id other here⟩
    · exact .inr (by simpa using here)
  refine ⟨?_,?_,fun id c here => List.mem_append_left _ (traced.seats id c here),?_,?_,?_⟩
  · intro id other member
    rcases split id other member with ⟨-,less⟩ | ⟨rfl,-⟩
    · exact Nat.lt_succ_of_lt less
    · exact Nat.lt_succ_self _
  · intro i a b first second
    rcases split i a first with ⟨first,less⟩ | ⟨here,rfl⟩
    · rcases split i b second with ⟨second,-⟩ | ⟨here,-⟩
      · exact traced.once i a b first second
      · exact absurd less (here ▸ Nat.lt_irrefl _)
    · rcases split i b second with ⟨-,less⟩ | ⟨-,rfl⟩
      · exact absurd less (here ▸ Nat.lt_irrefl _)
      · rfl
  · rintro id p same
    obtain ⟨rfl,rfl⟩ : st.nextClient = id ∧ acceptClient s peer = p := by simpa using same
    exact ⟨peer,by simp,servingAccepted peer _⟩
  · intro id name c member
    rcases List.mem_append.mp member with here | here
    · exact List.mem_append_left _ (traced.entered id name c here)
    · simp at here
  · exact carriedAppend traced fun id job same => by simp at same

theorem tracedCall {call next answer} (busy : st.task = some (id,.ask call next)) :
    Traced s { answered st id call answer with task := some (id,next answer) }
      (log ++ [.call id ⟨call,answer⟩]) := by
  obtain ⟨peer,accepted,serving⟩ := traced.task id _ busy
  have old : ∀ i other, Act.accept i other ∈ log ++ [.call id ⟨call,answer⟩] → .accept i other ∈ log := by
    intro i other member
    simpa using member
  have same : (answered st id call answer).nextClient = st.nextClient := by
    unfold answered
    split <;> first | rfl | split <;> rfl
  refine ⟨fun i other member => same ▸ traced.fresh i other (old _ _ member),
    fun i a b first second => traced.once i a b (old _ _ first) (old _ _ second),
    fun i c here => List.mem_append_left _ (traced.seats i c (by simpa using here)),?_,?_,?_⟩
  · intro i p task
    obtain ⟨rfl,rfl⟩ : id = i ∧ next answer = p := by simpa using task
    exact ⟨peer,List.mem_append_left _ accepted,servingCall serving answer⟩
  · intro i name c member
    rcases List.mem_append.mp member with here | here
    · exact List.mem_append_left _ (traced.entered i name c here)
    obtain ⟨rfl,what⟩ : i = id ∧ (⟨.enter name c,()⟩ : Exchange Answer) = ⟨call,answer⟩ := by simpa using here
    cases what
    refine List.mem_append_left _ ?_
    rcases serving with ⟨d,root,⟨owed,-⟩,from_,-⟩ | ⟨apart,-⟩
    · rw [followsPeer owed.1,from_]
      exact accepted
    · exact apart.elim
  refine carriedAppend traced fun i job same => ?_
  obtain ⟨rfl,what⟩ : id = i ∧ (⟨call,answer⟩ : Exchange Answer) = ⟨.dispatch job,true⟩ := by simpa using same
  cases what
  rcases serving with ⟨d,root,⟨owed,-⟩,from_,named⟩ | ⟨apart,-⟩
  · exact ⟨d.client,named owed.1,from_ ▸ accepted,owed.2.2.2.2.2.2.1⟩
  · exact apart.elim

theorem tracedStep (step : Step workers s st act st') : Traced s st' (log ++ [act]) := by
  cases step with
  | wake | collect | accepted | served | take | post =>
    exact tracedPlain traced trivial rfl traced.seats traced.task
  | @complete d left c idle at_ owner =>
    refine tracedPlain traced trivial rfl traced.seats fun id p busy => ?_
    obtain ⟨rfl,rfl⟩ : d.owner = id ∧ datachanComplete d.posted c = p := by simpa using busy
    exact ⟨c.peer,traced.seats _ _ owner,servingCompletion d.posted c _⟩
  | @event i revents left c root received idle at_ owner =>
    refine tracedPlain traced trivial rfl traced.seats fun id p busy => ?_
    obtain ⟨rfl,rfl⟩ : i = id ∧ handleClientEvents { s with root } revents received c = p := by simpa using busy
    exact ⟨c.peer,traced.seats _ _ owner,servingEvent root revents received c _⟩
  | accept idle at_ => exact tracedAccept traced
  | call answer busy possible => exact tracedCall traced busy
  | @finish i c busy =>
    obtain ⟨peer,accepted,serving⟩ := traced.task _ _ busy
    have same : c.peer = peer := by
      rcases serving with ⟨d,root,ended,from_,-⟩ | last
      · exact (endedPeer ended).trans from_
      · exact last
    refine tracedPlain traced trivial rfl (fun id c' here => ?_) (by simp)
    by_cases mine : id = i
    · obtain rfl : c = c' := by simpa [seated,mine] using here
      rw [mine,same]
      exact accepted
    · exact traced.seats id c' (by simpa [seated,mine] using here)

omit traced in
theorem tracedReached (reached : (reactor workers s).logged.Reached (st,log)) : Traced s st log := by
  refine System.invariant (P := fun now => Traced s now.1 now.2) ?_ ?_ reached
  · rintro ⟨st,log⟩ ⟨first,rfl⟩
    obtain ⟨empty,-,-,-,-,idle⟩ : Start st := first
    refine ⟨by simp,by simp,fun id c here => ?_,fun id p busy => ?_,by simp,by simp⟩
    · simp [empty id] at here
    · simp [idle] at busy
  · rintro ⟨st,log⟩ act ⟨st',log'⟩ traced - ⟨step,rfl⟩
    exact tracedStep traced step

end
end OpenPs3Ftp.Reactor
