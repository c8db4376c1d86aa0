import OpenPs3Ftp.Handover
import OpenPs3Ftp.Reactor.Entries

/-! The end of the loop: which jobs are completed by then, and what is left of lines and
jobs where nothing is under way when the reactor looks for the last time. -/
namespace OpenPs3Ftp.Service
open Lib Text Fs Session Commands Events Worker Reactor Program System

def Owes (e : Exchange Answer) (p : Handler Client) : Prop := ∀ trace c, p.Runs trace c → e ∈ trace

/- Where the completion of a job is in the log, its sockets are closed after it or are
about to be. -/
def Clearing (st : State) (log : List Move) : Prop :=
  ∀ before d after, log = before ++ .core (.complete d) :: after → ∀ e ∈ d.posted.closes,
    .core (.call d.owner e) ∈ after ∨ ∃ p, st.core.task = some (d.owner,p) ∧ Owes e p

def Accounted (st : State) (log : List Move) : Prop :=
  ∀ id job, .core (.call id ⟨.dispatch job,true⟩) ∈ log →
    ⟨id,job⟩ ∈ flights st.core ∨ ∃ d : Delivery, d.flight = ⟨id,job⟩ ∧ .core (.complete d) ∈ log

/- `opftp_datachan_complete` has been through with a job: its pipe is closed, and its
sockets are. -/
def Finished (log : List Move) (id : ClientId) (job : Job) : Prop :=
  ∃ before d after, log = before ++ .core (.complete d) :: after ∧ d.flight = ⟨id,job⟩ ∧
    ∀ e ∈ d.posted.closes, .core (.call id e) ∈ after

def Place.late : Place → Bool
  | .completing point => point = .first
  | .entering point | .replying point _ => point = .last
  | .dropping | .ended => true
  | .top | .serving _ => false

def Spent (core : Reactor.State) : Prop :=
  core.queue = [] ∧ core.running = [] ∧ core.completions = [] ∧
    ∀ id p, core.task = some (id,p) → ∃ post, p.Obeys (fun _ _ => True) Apart post

/- What must not be under way where the reactor looks for the last time: at the
completions after the loop, and at the lines after the last client. -/
def Orderly (st : State) : Move → Prop
  | .core .wake => st.place = .replying .first [] → st.core.queue = [] ∧ st.core.running = []
  | .grab => st.place = .entering .last → st.retained = []
  | .stamp p => 0 < st.refs p.owner
  | .retain p => 0 < st.refs p.owner ∧ st.place.shut = false
  | .link _ => st.place.shut = false
  | _ => True

variable {e : Exchange Answer} {id : ClientId} {core : Reactor.State}

section
variable {workers : Nat} {s : Server} {st st' : State} {move : Move} {log : List Move}

theorem owesCall {call next} (owes : Owes e (.ask call next)) (answer) :
    e = ⟨call,answer⟩ ∨ Owes e (next answer) := by
  by_cases now : e = ⟨call,answer⟩
  · exact .inl now
  · refine .inr fun trace c run => ?_
    have whole := owes (⟨call,answer⟩ :: trace) c (runsAsk.mpr ⟨answer,trace,rfl,run⟩)
    exact (List.mem_cons.mp whole).resolve_left now

theorem owesDone {c} : ¬ Owes e (.done c) :=
  fun owes => List.not_mem_nil (owes [] c (runsDone.mpr ⟨rfl,rfl⟩))

theorem completeOwes {p c} (member : e ∈ p.closes) : Owes e (datachanComplete p c) := by
  intro trace c' run
  cases completeRuns run with
  | stale left => exact member
  | plain here calm | aborted here pending => exact List.mem_append_left _ member

theorem owingStep {p} (busy : st.core.task = some (id,p)) (owes : Owes e p) (step : Step workers s st move st') :
    move = .core (.call id e) ∨ ∃ q, st'.core.task = some (id,q) ∧ Owes e q := by
  cases step with
  | core fits step =>
    cases step with
    | wake idle | complete idle | collect idle | event _ _ idle | accept idle | accepted idle | served idle =>
      simp [idle] at busy
    | call answer at_ possible =>
      obtain ⟨rfl,rfl⟩ := somePair busy at_
      rcases owesCall owes answer with rfl | later
      · exact .inl rfl
      · exact .inr ⟨_,rfl,later⟩
    | finish at_ =>
      obtain ⟨rfl,rfl⟩ := somePair busy at_
      exact absurd owes owesDone
    | take | post => exact .inr ⟨p,busy,owes⟩
  | look at_ idle | broke at_ idle | drained at_ idle | drop at_ idle | dropped at_ idle | refuse at_ idle =>
    simp [idle] at busy
  | _ => exact .inr ⟨p,busy,owes⟩

theorem clearingStep (clearing : Clearing st log) (step : Step workers s st move st') : Clearing st' (log ++ [move]) := by
  intro before d after whole e member
  rcases List.eq_nil_or_concat after with rfl | ⟨rest,last,rfl⟩
  · obtain ⟨rfl,same⟩ := List.append_inj' whole rfl
    obtain rfl := List.singleton_inj.mp same
    cases step with
    | core fits step =>
      cases step with
      | complete idle at_ owner => exact .inr ⟨_,rfl,completeOwes member⟩
  rw [List.concat_eq_append,← List.cons_append,← List.append_assoc] at whole
  obtain ⟨rfl,same⟩ := List.append_inj' whole rfl
  obtain rfl := List.singleton_inj.mp same
  rw [List.concat_eq_append]
  rcases clearing before d rest rfl e member with closed | ⟨p,busy,owes⟩
  · exact .inl (List.mem_append_left _ closed)
  · rcases owingStep busy owes step with rfl | later
    · exact .inl (List.mem_append_right _ List.mem_cons_self)
    · exact .inr later

theorem flightsMove (even : Even st) (step : Step workers s st move st') : (∃ act, move = .core act ∧
    (act.lands ++ flights st'.core).Perm (act.launches ++ flights st.core)) ∨
      flights st'.core = flights st.core ∧ ∀ act, move ≠ .core act := by
  cases step with
  | core fits step => exact .inl ⟨_,rfl,flightsStep step⟩
  | look at_ idle =>
    have none_ := even.2.served at_
    split
    · exact .inr ⟨by simp [flights,none_]; rfl,by simp⟩
    · exact .inr ⟨rfl,by simp⟩
  | broke at_ idle empty | drained at_ idle empty => exact .inr ⟨by simp [flights,Reactor.drained,empty],by simp⟩
  | refuse at_ idle ready => exact .inr ⟨by simp [flights,Reactor.drained,ready,release],by simp⟩
  | _ => exact .inr ⟨rfl,by simp⟩

theorem accountedStep (accounted : Accounted st log) (even : Even st) (step : Step workers s st move st') :
    Accounted st' (log ++ [move]) := by
  intro id job member
  have before : .core (.call id ⟨.dispatch job,true⟩) = move ∨ ⟨id,job⟩ ∈ flights st.core ∨
      ∃ d : Delivery, d.flight = ⟨id,job⟩ ∧ .core (.complete d) ∈ log := by
    rcases List.mem_append.mp member with old | now
    · exact .inr (accounted id job old)
    · exact .inl (List.mem_singleton.mp now)
  rcases flightsMove even step with ⟨act,rfl,perm⟩ | ⟨same,other⟩
  · have landed : ⟨id,job⟩ ∈ act.lands ++ flights st'.core → ⟨id,job⟩ ∈ flights st'.core ∨
        ∃ d : Delivery, d.flight = ⟨id,job⟩ ∧ .core (.complete d) ∈ log ++ [.core act] := by
      intro here
      rcases List.mem_append.mp here with lands | flies
      · cases act with
        | complete d => exact .inr ⟨d,(List.mem_singleton.mp lands).symm,by simp⟩
        | _ => simp [Act.lands] at lands
      · exact .inl flies
    rcases before with now | flying | ⟨d,named,old⟩
    · cases now
      exact landed (perm.mem_iff.mpr (by simp [Act.launches]))
    · exact landed (perm.mem_iff.mpr (List.mem_append_right _ flying))
    · exact .inr ⟨d,named,List.mem_append_left _ old⟩
  rcases before with now | flying | ⟨d,named,old⟩
  · exact absurd now.symm (other _)
  · exact .inl (same ▸ flying)
  · exact .inr ⟨d,named,List.mem_append_left _ old⟩

theorem accountsFinished (accounted : Accounted st log) (clearing : Clearing st log) (idle : st.core.task = none)
    (landed : flights st.core = []) {job} (accepted : .core (.call id ⟨.dispatch job,true⟩) ∈ log) :
    Finished log id job := by
  rcases accounted id job accepted with flying | ⟨d,named,completed⟩
  · simp [landed] at flying
  obtain ⟨before,after,whole⟩ := List.append_of_mem completed
  refine ⟨before,d,after,whole,named,fun e member => ?_⟩
  have owner : d.owner = id := congrArg Flight.owner named
  rw [← owner]
  exact (clearing before d after whole e member).resolve_right fun ⟨p,busy,_⟩ => by simp [idle] at busy

theorem disconnectApart (c) : (clientDisconnect c).Obeys (fun _ _ => True) Apart (fun _ => True) := by
  unfold clientDisconnect cancelSome closeSome
  cases c.job <;> cases c.pasvFd <;> simp [Obeys,Apart,invokeAsk]

theorem spentTask {p post} (obeys : p.Obeys (fun _ _ => True) Apart post) (task : core.task = some (id,p)) :
    ∀ id p, core.task = some (id,p) → ∃ post, p.Obeys (fun _ _ => True) Apart post := by
  intro other q busy
  obtain ⟨-,rfl⟩ := somePair task busy
  exact ⟨post,obeys⟩

theorem answeredQueue {call} (apart : Apart call) (answer) : (answered core id call answer).queue = core.queue := by
  cases call with
  | dispatch job => exact apart.elim
  | newJob op =>
    simp only [answered]
    split <;> rfl
  | _ => rfl

theorem spentStep (spent : st.place.late = true → Spent st.core) (orderly : Orderly st move)
    (step : Step workers s st move st') : st'.place.late = true → Spent st'.core := by
  cases step with
  | core fits step =>
    cases step with
    | wake idle at_ =>
      obtain ⟨point,place,-⟩ := fits
      intro late
      obtain rfl : point = .first := by simpa [after,moved,place,Place.late] using late
      obtain ⟨queue,running⟩ := orderly place
      refine ⟨queue,running,rfl,fun id p busy => ?_⟩
      simp [after,idle] at busy
    | complete idle at_ owner =>
      intro late
      obtain ⟨queue,running,completions,-⟩ := spent late
      exact ⟨queue,running,completions,spentTask (completeApart _ _) rfl⟩
    | collect | event | served => rintro ⟨⟩
    | accept idle at_ | accepted idle at_ =>
      have place : st.place = .serving false := fits
      simp [after,moved,place,Place.late]
    | call answer busy possible =>
      intro late
      obtain ⟨queue,running,completions,apart⟩ := spent late
      obtain ⟨post,now,later⟩ := apart _ _ busy
      exact ⟨(answeredQueue now answer).trans queue,(answeredRunning ..).trans running,
        (answeredCompletions ..).trans completions,spentTask (later answer trivial) rfl⟩
    | finish busy =>
      intro late
      obtain ⟨queue,running,completions,-⟩ := spent late
      exact ⟨queue,running,completions,fun id p busy => by cases busy⟩
    | take waiting free =>
      intro late
      simp [(spent late).1] at waiting
    | post busy run =>
      intro late
      simp [(spent late).2.1] at busy
  | poll _ at_ | leave at_ | broke at_ => rintro ⟨⟩
  | grab at_ | reply at_ =>
    intro late
    refine spent ?_
    rw [at_]
    exact late
  | look at_ idle => split <;> rintro ⟨⟩
  | drained at_ idle empty | dropped at_ idle none_ | closed at_ => exact fun _ => spent (by rw [at_]; rfl)
  | drop at_ idle owner here first =>
    intro late
    obtain ⟨queue,running,completions,-⟩ := spent late
    exact ⟨queue,running,completions,spentTask (disconnectApart _) rfl⟩
  | refuse at_ idle ready => simp [at_,release,Place.late]
  | stamp | retain | link | stop => exact spent

theorem retainedStep (retained : st.place.shut = true → st.retained = []) (orderly : Orderly st move)
    (step : Step workers s st move st') (past : st'.place.shut = true) : st'.retained = [] := by
  have before := shutBefore step past
  cases step with
  | core fits step => simpa only [after,countedLines] using retained (before.resolve_right fun grabs => by cases grabs.1)
  | grab at_ => exact before.elim retained fun grabs => orderly grabs.2
  | retain held => simp [orderly.2] at before
  | link held => simp [show st.place.shut = false from orderly] at before
  | look at_ idle =>
    split <;> exact retained (before.resolve_right fun grabs => by cases grabs.1)
  | _ => exact retained (before.resolve_right fun grabs => by cases grabs.1)

end

structure Clean (s : Server) (st : State) (log : List Move) : Prop where
  passed : Passed st log
  linked : st.place.shut = true → st.linked = []
  retained : st.place.shut = true → st.retained = []
  spent : st.place.late = true → Spent st.core
  accounted : Accounted st log
  clearing : Clearing st log
  tally : ∃ held, Tally s st held

section
variable {workers : Nat} {s : Server} {st st' : State} {move : Move} {log : List Move}

theorem Orderly.referenced (orderly : Orderly st move) : Referenced st move := by
  cases move with
  | stamp p => exact orderly
  | retain p => exact orderly.1
  | _ => trivial

theorem cleanStart (start : Start st) : Clean s st [] :=
  ⟨passedStart start,fun _ => start.2.2.2.2.2.2.2.2,fun _ => start.2.2.2.2.2.2.2.1,
    fun late => by simp [start.2.2.1,Place.late] at late,by simp [Accounted],by simp [Clearing],none,tallyStart start⟩

theorem cleanStep (clean : Clean s st log) (orderly : Orderly st move) (step : Step workers s st move st') :
    Clean s st' (log ++ [move]) := by
  refine ⟨passedStep clean.passed step,shutStep clean.linked (fun p link => by subst link; exact orderly) step,
    retainedStep clean.retained orderly step,spentStep clean.spent orderly step,
    accountedStep clean.accounted clean.passed.even step,clearingStep clean.clearing step,?_⟩
  obtain ⟨held,tally⟩ := clean.tally
  obtain ⟨⟨log,m,sound⟩,staged⟩ := clean.passed.even
  exact tallyStep tally sound staged orderly.referenced step

theorem flightsNone (landed : flights core = []) : core.queue = [] ∧ core.completions = [] := by
  simp only [flights,List.append_eq_nil_iff,List.map_eq_nil_iff] at landed
  exact ⟨landed.1.1,landed.2.1⟩

theorem Clean.over (clean : Clean s st log) (past : st.place = .ended) :
    flights st.core = [] ∧ st.core.task = none ∧ st.linked = [] ∧ st.retained = [] ∧ (∀ id, listed st.core id = false) ∧
      (∀ id, st.refs id = 0) ∧ ∀ id job, .core (.call id ⟨.dispatch job,true⟩) ∈ log → Finished log id job := by
  obtain ⟨queue,running,completions,-⟩ := clean.spent (by rw [past]; rfl)
  have idle := clean.passed.calm (by rw [past]; rfl)
  have phase : st.core.phase = .waiting := by
    have staged := clean.passed.even.2
    unfold Staged at staged
    rwa [past] at staged
  have landed : flights st.core = [] := by simp [flights,queue,running,completions,Reactor.drained,phase]
  have linked := clean.linked (by rw [past]; rfl)
  have retained := clean.retained (by rw [past]; rfl)
  have deserted := clean.passed.deserted (by rw [past]; rfl)
  refine ⟨landed,idle,linked,retained,deserted,fun id => ?_,
    fun id job accepted => accountsFinished clean.accounted clean.clearing idle landed accepted⟩
  obtain ⟨held,tally⟩ := clean.tally
  rw [tally.count,totalIdle idle,deserted id,own,landed,lines,linked,retained]
  simp [inHand,past,naming]

end
end OpenPs3Ftp.Service
