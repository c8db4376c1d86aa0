import OpenPs3Ftp.Reactor.Safety

/-! Every dispatched job is completed when nobody is starved: the reactor keeps going,
a worker that could take a job takes one, and a transfer that is being run comes to an
end. -/
namespace OpenPs3Ftp.Reactor
open Lib Text Fs Session Commands Events Worker Program System

def Act.byReactor : Act → Prop
  | .take _ | .post _ => False
  | _ => True

def Act.takes : Act → Prop
  | .take _ => True
  | _ => False

def Act.posts (f : Flight) : Act → Prop
  | .post d => d.flight = f
  | _ => False

abbrev Run (workers : Nat) (s : Server) := Behaviour (reactor workers s).logged

structure Fair {workers : Nat} {s : Server} (run : Run workers s) : Prop where
  reactor : run.Fair Act.byReactor
  take : run.Fair Act.takes
  post : ∀ f, run.Fair (Act.posts f)

theorem answerable (workers st call) : ∃ answer, Answers workers st call answer := by
  cases call with
  | newJob op => exact ⟨none,.inl rfl⟩
  | dispatch job => exact ⟨_,rfl⟩
  | fs call => cases call <;> exact ⟨default,trivial⟩
  | localAddr => exact ⟨.unspec,trivial⟩
  | tlsHandshake => exact ⟨.failed,trivial⟩
  | _ => exact ⟨default,trivial⟩

theorem runnable (s job) : ∃ trace posted, (transferRun 0 s job).Runs trace (some posted) := by
  unfold transferRun
  split
  · unfold transferCopy
    split
    · exact ⟨_,_,.done _⟩
    · exact ⟨_,_,.ask (Except.error Errno.enoent : Except Errno Stat) (by exact .done _)⟩
  unfold datachanConnectJob
  split
  · exact ⟨_,_,.ask Polled.timeout (by exact .done _)⟩
  · split
    · exact ⟨_,_,.ask (Except.error Errno.enomem : Except Errno Fd) (by exact .done _)⟩
    · exact ⟨_,_,.done _⟩

section Moves
variable {workers : Nat} {s : Server} {st st' : State} {log : List Act} {m : Mind} {act : Act}

theorem Sound.owner {d left} (sound : Sound st log m) (idle : st.task = none) (at_ : st.phase = .draining (d :: left)) :
    ∃ c, st.clients d.owner = some c := by
  have member : d.flight ∈ own st d.owner := by simp [own,flights,drained,at_,Delivery.flight]
  cases sound.resting idle d.owner with
  | empty _ none => simp [none] at member
  | taken here _ _ | left here _ _ _ _ => exact ⟨_,here⟩

theorem reactorMoves (sound : Sound st log m) : ∃ act st', Step workers s st act st' ∧ act.byReactor := by
  cases task : st.task with
  | some busy =>
    obtain ⟨id,p⟩ := busy
    cases p with
    | done c => exact ⟨_,_,.finish task,trivial⟩
    | ask call next =>
      obtain ⟨answer,possible⟩ := answerable workers st call
      exact ⟨_,_,.call answer task possible,trivial⟩
  | none =>
    have awaited := sound.awaited
    cases at_ : st.phase with
    | waiting => exact ⟨_,_,.wake task at_,trivial⟩
    | draining left =>
      cases left with
      | nil => exact ⟨_,_,@Step.collect workers s st [] task at_ ⟨List.nodup_nil,by simp⟩,trivial⟩
      | cons d left =>
        obtain ⟨c,owner⟩ := sound.owner task at_
        exact ⟨_,_,.complete task at_ owner,trivial⟩
    | serving left =>
      rw [Awaited,at_] at awaited
      rcases left with _ | ⟨⟨id,revents⟩ | ⟨_ | ⟨peer,peers⟩⟩,left⟩
      · exact ⟨_,_,.served task at_,trivial⟩
      · obtain ⟨c,owner,-⟩ := awaited.1.2 id (by simp [Ready.id?])
        exact ⟨_,_,.event s.root [] task at_ owner,trivial⟩
      · exact ⟨_,_,.accepted task at_,trivial⟩
      · exact ⟨_,_,.accept task at_,trivial⟩

variable (step : Step workers s st act st')
include step

theorem workerStep (worker : ¬ act.byReactor) :
    st'.phase = st.phase ∧ st'.task = st.task ∧ st'.clients = st.clients ∧
      ∀ d ∈ st.completions, d ∈ st'.completions := by
  cases step with
  | take _ _ => exact ⟨rfl,rfl,rfl,fun d member => member⟩
  | post _ _ => exact ⟨rfl,rfl,rfl,fun d member => List.mem_cons_of_mem _ member⟩
  | _ => exact absurd trivial worker

theorem busyStep {id p} (mine : act.byReactor) (busy : st.task = some (id,p)) :
    st'.phase = st.phase ∧
      ((∃ c, p = .done c ∧ st'.task = none) ∨
        ∃ call next answer, p = .ask call next ∧ act = .call id ⟨call,answer⟩ ∧ st'.task = some (id,next answer)) := by
  cases step with
  | @finish i c found =>
    obtain ⟨rfl,rfl⟩ : i = id ∧ .done c = p := by simpa [busy,eq_comm] using found
    exact ⟨rfl,.inl ⟨c,rfl,rfl⟩⟩
  | @call i call next answer found possible =>
    obtain ⟨rfl,rfl⟩ : i = id ∧ .ask call next = p := by simpa [busy,eq_comm] using found
    exact ⟨answeredPhase ..,.inr ⟨call,next,answer,rfl,rfl,rfl⟩⟩
  | take | post => exact mine.elim
  | wake idle | complete idle | collect idle | event _ _ idle | accept idle | accepted idle | served idle =>
    simp [busy] at idle

def weight : Ready → Nat
  | .client .. => 1
  | .listener peers => peers.length + 1

inductive Turned (st st' : State) : Prop where
  | wake (at_ : st.phase = .waiting) (phase : st'.phase = .draining st.completions) (idle : st'.task = none)
  | complete {d left c} (at_ : st.phase = .draining (d :: left)) (owner : st.clients d.owner = some c)
      (phase : st'.phase = .draining left) (task : st'.task = some (d.owner,datachanComplete d.posted c))
      (clients : st'.clients = st.clients)
  | collect {ready} (at_ : st.phase = .draining []) (phase : st'.phase = .serving ready) (idle : st'.task = none)
  | handle {first left left' id p} (at_ : st.phase = .serving (first :: left)) (phase : st'.phase = .serving left')
      (less : (left'.map weight).sum < ((first :: left).map weight).sum) (task : st'.task = some (id,p))
  | skip {first left} (at_ : st.phase = .serving (first :: left)) (phase : st'.phase = .serving left)
      (less : (left.map weight).sum < ((first :: left).map weight).sum) (idle : st'.task = none)
  | served (at_ : st.phase = .serving []) (phase : st'.phase = .waiting) (idle : st'.task = none)

theorem idleStep (mine : act.byReactor) (idle : st.task = none) :
    Turned st st' := by
  cases step with
  | wake _ at_ => exact .wake at_ rfl idle
  | complete _ at_ owner => exact .complete at_ owner rfl rfl rfl
  | collect _ at_ _ => exact .collect at_ rfl idle
  | event _ _ _ at_ _ | accept _ at_ => exact .handle at_ rfl (by simp [weight]) rfl
  | accepted _ at_ => exact .skip at_ rfl (by simp [weight]) idle
  | served _ at_ => exact .served at_ rfl idle
  | take | post => exact mine.elim
  | call _ busy | finish busy => simp [idle] at busy

inductive Moved (workers : Nat) (st st' : State) : Act → Prop where
  | take {f rest} (waiting : st.queue = f :: rest) (free : st.running.length < workers) (queue : st'.queue = rest)
      (running : st'.running = f :: st.running) : Moved workers st st' (.take f)
  | post {f posted before after} (busy : st.running = before ++ f :: after) (queue : st'.queue = st.queue)
      (running : st'.running = before ++ after) (same : posted.job = f.job)
      (completions : st'.completions = ⟨f.owner,posted⟩ :: st.completions) :
      Moved workers st st' (.post ⟨f.owner,posted⟩)
  | other {act more} (mine : act.byReactor) (queue : st'.queue = st.queue ++ more) (running : st'.running = st.running) :
      Moved workers st st' act

theorem stepMoved : Moved workers st st' act := by
  cases step with
  | take waiting free => exact .take waiting free rfl rfl
  | post busy run => exact .post busy rfl rfl (runPosts run) rfl
  | @call id call next answer busy possible =>
    have running : (answered st id call answer).running = st.running :=
      answeredRunning ..
    cases call with
    | dispatch job =>
      cases answer with
      | true => exact @Moved.other workers st _ _ [⟨id,job⟩] trivial rfl rfl
      | false => exact @Moved.other workers st _ _ [] trivial (List.append_nil _).symm rfl
    | newJob op =>
      refine @Moved.other workers st _ _ [] trivial ?_ running
      simp [answered]
      split <;> rfl
    | _ => exact @Moved.other workers st _ _ [] trivial (List.append_nil _).symm rfl
  | _ => exact @Moved.other workers st _ _ [] trivial (List.append_nil _).symm rfl

theorem stepDelivery {d} (here : d ∈ st.completions) :
    d ∈ st'.completions ∨ d ∈ drained st' := by
  cases step with
  | wake _ _ => exact .inr here
  | post _ _ => exact .inl (List.mem_cons_of_mem _ here)
  | @call id call next answer busy possible =>
    have same : (answered st id call answer).completions = st.completions :=
      answeredCompletions ..
    left
    simpa [same] using here
  | _ => exact .inl here

end Moves

section Reactor
variable {workers : Nat} {s : Server} {run : Run workers s} (fair : Fair run)
include fair

theorem reactorLeads {P Q}
    (kept : ∀ st log act st', P (st,log) → ¬ act.byReactor → Step workers s st act st' → P (st',log ++ [act]))
    (acts : ∀ st log act st' m, Sound st log m → P (st,log) → act.byReactor → Step workers s st act st' →
      Q (st',log ++ [act])) : run.Leads P Q := by
  refine fair.reactor.leads ?_ ?_
  · rintro ⟨st,log⟩ reached -
    obtain ⟨m,sound⟩ := soundReached reached
    obtain ⟨act,st',step,mine⟩ := @reactorMoves workers s _ _ _ sound
    exact ⟨act,(st',log ++ [act]),mine,step,rfl⟩
  rintro ⟨st,log⟩ act ⟨st',log'⟩ reached holds ⟨step,rfl⟩
  by_cases mine : act.byReactor
  · obtain ⟨m,sound⟩ := soundReached reached
    exact .inr (acts st log act st' m sound holds mine step)
  · exact .inl ⟨kept st log act st' holds mine step,mine⟩

theorem taskEnds (id phase p) :
    run.Leads (fun now => now.1.task = some (id,p) ∧ now.1.phase = phase)
      (fun now => now.1.task = none ∧ now.1.phase = phase) := by
  have kept : ∀ (p : Handler Client) st (log : List Act) act st', st.task = some (id,p) ∧ st.phase = phase →
      ¬ act.byReactor → Step workers s st act st' → st'.task = some (id,p) ∧ st'.phase = phase := by
    rintro p st log act st' ⟨busy,at_⟩ worker step
    obtain ⟨samePhase,sameTask,-⟩ := workerStep step worker
    exact ⟨sameTask.trans busy,samePhase.trans at_⟩
  induction p with
  | done c =>
    refine reactorLeads fair (kept _) ?_
    rintro st log act st' m - ⟨busy,at_⟩ mine step
    obtain ⟨phase,⟨c,-,idle⟩ | ⟨call,next,answer,impossible,-⟩⟩ := busyStep step mine busy
    · exact ⟨idle,phase.trans at_⟩
    · cases impossible
  | ask call next ih =>
    have one : run.Leads (fun now => now.1.task = some (id,.ask call next) ∧ now.1.phase = phase)
        (fun now => ∃ answer, now.1.task = some (id,next answer) ∧ now.1.phase = phase) := by
      refine reactorLeads fair (kept _) ?_
      rintro st log act st' m - ⟨busy,at_⟩ mine step
      obtain ⟨phase,⟨c,impossible,-⟩ | ⟨_,_,answer,same,-,task⟩⟩ := busyStep step mine busy
      · cases impossible
      · cases same
        exact ⟨answer,task,phase.trans at_⟩
    refine one.trans ?_
    rintro n ⟨answer,now⟩
    exact ih answer n now

theorem idleLeads {at_ Q}
    (acts : ∀ st log act st' m, Sound st log m → st.task = none → st.phase = at_ → Turned st st' →
      Q (st',log ++ [act])) : run.Leads (fun now => now.1.task = none ∧ now.1.phase = at_) Q := by
  refine reactorLeads fair ?_ ?_
  · rintro st log act st' ⟨idle,here⟩ worker step
    obtain ⟨phase,task,-⟩ := workerStep step worker
    exact ⟨task.trans idle,phase.trans here⟩
  · rintro st log act st' m sound ⟨idle,here⟩ mine step
    exact acts st log act st' m sound idle here (idleStep step mine idle)

def Idle (phase : Phase) (now : State × List Act) : Prop := now.1.task = none ∧ now.1.phase = phase
def At (phase : Phase) (now : State × List Act) : Prop := now.1.phase = phase

theorem atIdle (phase) : run.Leads (At phase) (Idle phase) := by
  rintro n here
  cases task : (run.state n).1.task with
  | none => exact ⟨n,Nat.le_refl n,task,here⟩
  | some busy => exact taskEnds fair busy.1 phase busy.2 n ⟨task,here⟩

theorem servingEnds (left) : run.Leads (Idle (.serving left)) (Idle .waiting) := by
  refine Behaviour.Leads.descend (measure fun left : List Ready => (left.map weight).sum).wf
    (P := fun left => Idle (.serving left)) (fun left => ?_) left
  have next : run.Leads (Idle (.serving left)) (fun now => Idle .waiting now ∨
      ∃ left', (left'.map weight).sum < (left.map weight).sum ∧ At (.serving left') now) := by
    refine idleLeads fair ?_
    rintro st log act st' m - - at_ turned
    cases turned with
    | handle here phase less _ | skip here phase less _ =>
      obtain rfl := Phase.serving.inj (here.symm.trans at_)
      exact .inr ⟨_,less,phase⟩
    | served _ phase idle => exact .inl ⟨idle,phase⟩
    | wake here | complete here | collect here => simp [here] at at_
  refine next.trans (.or (.refl fun _ _ done => .inl done) ?_)
  rintro n ⟨left',less,here⟩
  obtain ⟨k,later,idle⟩ := atIdle fair _ n here
  exact ⟨k,later,.inr ⟨left',less,idle⟩⟩

theorem drainingEnds (left) : run.Leads (Idle (.draining left)) (Idle .waiting) := by
  induction left with
  | nil =>
    have next : run.Leads (Idle (.draining [])) (fun now => ∃ ready, Idle (.serving ready) now) := by
      refine idleLeads fair ?_
      rintro st log act st' m - - at_ turned
      cases turned with
      | collect _ phase idle => exact ⟨_,idle,phase⟩
      | wake here | complete here | handle here | skip here | served here => simp [here] at at_
    refine next.trans ?_
    rintro n ⟨ready,now⟩
    exact servingEnds fair ready n now
  | cons d left ih =>
    have next : run.Leads (Idle (.draining (d :: left))) (At (.draining left)) := by
      refine idleLeads fair ?_
      rintro st log act st' m - - at_ turned
      cases turned with
      | complete here _ phase _ _ =>
        obtain ⟨-,rfl⟩ := List.cons.inj (Phase.draining.inj (here.symm.trans at_))
        exact phase
      | wake here | collect here | handle here | skip here | served here => simp [here] at at_
    exact next.trans ((atIdle fair _).trans ih)

theorem comesRound : run.Leads (fun _ => True) (Idle .waiting) := by
  rintro n -
  have now : At (run.state n).1.phase (run.state n) := rfl
  obtain ⟨k,later,idle⟩ := atIdle fair _ n now
  cases phase : (run.state n).1.phase with
  | waiting =>
    rw [phase] at idle
    exact ⟨k,later,idle⟩
  | draining left =>
    rw [phase] at idle
    obtain ⟨l,last,done⟩ := drainingEnds fair left k idle
    exact ⟨l,Nat.le_trans later last,done⟩
  | serving left =>
    rw [phase] at idle
    obtain ⟨l,last,done⟩ := servingEnds fair left k idle
    exact ⟨l,Nat.le_trans later last,done⟩

theorem deliveryDrained (d) : run.Leads (fun now => d ∈ now.1.completions) (fun now => d ∈ drained now.1) := by
  have around := (comesRound fair).along (R := fun now => d ∈ now.1.completions) (S := fun now => d ∈ drained now.1) (by
    rintro ⟨st,log⟩ act ⟨st',log'⟩ - here ⟨step,-⟩
    exact stepDelivery step here)
  have woken : run.Leads (fun now => Idle .waiting now ∧ d ∈ now.1.completions) (fun now => d ∈ drained now.1) := by
    refine reactorLeads fair ?_ ?_
    · rintro st log act st' ⟨⟨idle,at_⟩,here⟩ worker step
      obtain ⟨phase,task,-,kept⟩ := workerStep step worker
      exact ⟨⟨task.trans idle,phase.trans at_⟩,kept d here⟩
    rintro st log act st' m - ⟨⟨idle,at_⟩,here⟩ mine step
    cases idleStep step mine idle with
    | wake _ phase _ => simpa [drained,phase] using here
    | complete found | collect found | handle found | skip found | served found => simp [found] at at_
  intro n here
  obtain ⟨k,later,both | done⟩ := around n ⟨trivial,here⟩
  · obtain ⟨l,last,done⟩ := woken k both
    exact ⟨l,Nat.le_trans later last,done⟩
  · exact ⟨k,later,done⟩

def Begun (d : Delivery) (now : State × List Act) : Prop :=
  Left now.1 d.owner ∨ ∃ c, now.1.task = some (d.owner,datachanComplete d.posted c) ∧
    c.connected = true ∧ d.posted.job.generation = c.generation

theorem drainedBegun (d) : run.Leads (fun now => d ∈ drained now.1) (Begun d) := by
  have through : ∀ left, d ∈ left → run.Leads (Idle (.draining left)) (Begun d) := by
    intro left
    induction left with
    | nil => simp
    | cons first left ih =>
      intro member
      have next : run.Leads (Idle (.draining (first :: left))) (fun now => Begun d now ∨ d ∈ left ∧ At (.draining left) now) := by
        refine idleLeads fair ?_
        rintro st log act st' m sound idle at_ turned
        cases turned with
        | complete here owner phase task clients =>
          obtain ⟨rfl,rfl⟩ := List.cons.inj (Phase.draining.inj (here.symm.trans at_))
          rcases List.mem_cons.mp member with rfl | later
          · refine .inl ?_
            have seated : d.flight ∈ own st d.owner := by simp [own,flights,drained,at_,Delivery.flight]
            cases sound.resting idle d.owner with
            | empty _ none => simp [none] at seated
            | @taken c found connected holds =>
              obtain rfl : c = _ := by simpa [owner] using found.symm
              refine .inr ⟨c,task,connected,?_⟩
              cases held : c.job with
              | none =>
                rw [held] at holds
                simp [show own st d.owner = [] from holds] at seated
              | some j =>
                rw [held] at holds
                obtain ⟨job,one,-,stamp⟩ := holds
                have same : d.flight = ⟨d.owner,job⟩ := by simpa [one] using seated
                rw [← stamp]
                exact congrArg (·.job.generation) same
            | left found gone _ _ _ => exact .inl ⟨_,by rw [clients,found],gone⟩
          · exact .inr ⟨later,phase⟩
        | wake here | collect here | handle here | skip here | served here => simp [here] at at_
      refine next.trans (.or (.refl fun _ _ done => done) ?_)
      rintro n ⟨later,here⟩
      exact ((atIdle fair _).trans (ih later)) n here
  intro n here
  cases phase : (run.state n).1.phase with
  | draining left => exact ((atIdle fair _).trans (through left (by simpa [drained,phase] using here))) n phase
  | waiting | serving _ => simp [drained,phase] at here

def Sends (j : JobId) : Handler Client → Prop
  | .done _ => False
  | .ask call next => (∃ text, call = .send (.finished j) text) ∨ ∀ answer, Sends j (next answer)

omit fair in
theorem mindsSend {generation m p posted} (minds : Minds generation m p) (due : m.due = some posted) :
    Sends posted.job.id p := by
  induction p generalizing m with
  | done c => exact absurd (due.symm.trans minds.1) (by simp)
  | ask call next ih =>
    obtain ⟨allowed,later⟩ := minds
    have silent : (∀ answer, (m.note call answer).due = m.due) → Sends posted.job.id (.ask call next) :=
      fun same => .inr fun answer => ih answer (later answer trivial) ((same answer).trans due)
    cases call with
    | send about text =>
      cases about with
      | finished j =>
        obtain ⟨-,p,pending,rfl,-⟩ := allowed
        obtain rfl : posted = p := by simpa [due] using pending
        exact .inl ⟨text,rfl⟩
      | command | accepted | abort => exact silent fun _ => rfl
    | dispatch job =>
      refine silent fun answer => ?_
      cases answer <;> rfl
    | _ => exact silent fun _ => rfl

def Told (id : ClientId) (j : JobId) (now : State × List Act) : Prop :=
  ∃ text, Chapter.finished id text ∈ story j now.2

theorem sendsTold (id j p) (sends : Sends j p) : run.Leads (fun now => now.1.task = some (id,p)) (Told id j) := by
  induction p with
  | done c => exact sends.elim
  | ask call next ih =>
    have one : run.Leads (fun now => now.1.task = some (id,.ask call next))
        (fun now => Told id j now ∨ ∃ answer, Sends j (next answer) ∧ now.1.task = some (id,next answer)) := by
      refine reactorLeads fair ?_ ?_
      · rintro st log act st' busy worker step
        exact (workerStep step worker).2.1.trans busy
      rintro st log act st' m - busy mine step
      obtain ⟨-,⟨c,impossible,-⟩ | ⟨_,_,answer,same,rfl,task⟩⟩ := busyStep step mine busy
      · cases impossible
      cases same
      rcases sends with ⟨text,rfl⟩ | later
      · exact .inl ⟨text,by simp [chapter]⟩
      · exact .inr ⟨answer,later answer,task⟩
    refine one.trans (.or (.refl fun _ _ done => done) ?_)
    rintro n ⟨answer,later,now⟩
    exact ih answer later n now

def Settled (id : ClientId) (j : JobId) (now : State × List Act) : Prop := Told id j now ∨ Left now.1 id

theorem drainedSettled (d) : run.Leads (fun now => d ∈ drained now.1) (Settled d.owner d.posted.job.id) := by
  refine (drainedBegun fair d).trans (.or (.refl fun _ _ gone => .inr gone) ?_)
  rintro n ⟨c,task,connected,here⟩
  have sends := mindsSend (completeMinds connected here) rfl
  obtain ⟨k,later,told⟩ := sendsTold fair d.owner d.posted.job.id _ sends n task
  exact ⟨k,later,.inl told⟩

omit fair in
theorem postable {st : State} {f log} (here : f ∈ st.running) : (reactor workers s).logged.Enabled (·.posts f) (st,log) := by
  obtain ⟨before,after,busy⟩ := List.append_of_mem here
  obtain ⟨trace,posted,ran⟩ := runnable s f.job
  refine ⟨.post ⟨f.owner,posted⟩,(_,log ++ [.post ⟨f.owner,posted⟩]),?_,.post busy ran,rfl⟩
  simp [Act.posts,Delivery.flight,runPosts ran]

theorem runningPosted (f) : run.Leads (fun now => f ∈ now.1.running)
    (fun now => ∃ d : Delivery, d.flight = f ∧ d ∈ now.1.completions) := by
  refine (fair.post f).leads (fun _ _ here => postable here) ?_
  rintro ⟨st,log⟩ act ⟨st',log'⟩ - here ⟨step,-⟩
  cases stepMoved (show Step workers s st act st' from step) with
  | take _ _ _ running => exact .inl ⟨by simp [running,here],id⟩
  | @post g posted before after busy _ running same completions =>
    by_cases this : g = f
    · subst this
      exact .inr ⟨⟨g.owner,posted⟩,by simp [Delivery.flight,same],by simp [completions]⟩
    refine .inl ⟨?_,fun mine => this ?_⟩
    · rw [busy] at here
      simpa [running,Ne.symm this] using here
    · rw [← show _ = f from mine,Delivery.flight,same]
  | other mine _ running =>
    refine .inl ⟨by rwa [running],?_⟩
    cases act <;> first | exact id | exact mine.elim

omit fair in
theorem fewStep {st st' act} (few : st.running.length ≤ workers) (step : Step workers s st act st') :
    st'.running.length ≤ workers := by
  cases stepMoved step with
  | take _ free _ running =>
    rw [running]
    exact free
  | post busy _ running _ _ =>
    simp [busy,running] at few ⊢
    omega
  | other _ _ running => rwa [running]

omit fair in
theorem fewRunning {now} (reached : (reactor workers s).logged.Reached now) : now.1.running.length ≤ workers := by
  refine System.invariant (P := fun now : State × List Act => now.1.running.length ≤ workers) ?_ ?_ reached
  · rintro now ⟨⟨-,-,running,-⟩,-⟩
    rw [running]
    exact Nat.zero_le _
  · rintro now act next few - ⟨step,-⟩
    exact fewStep few step

def Waits (f : Flight) (k : Nat) (now : State × List Act) : Prop := now.1.queue[k]? = some f

def Advanced (f : Flight) (k : Nat) (now : State × List Act) : Prop :=
  f ∈ now.1.running ∨ ∃ j, j < k ∧ Waits f j now

omit fair in
theorem takeAdvances {f g k st st' rest log log'} (waits : Waits f k (st,log)) (waiting : st.queue = g :: rest)
    (queue : st'.queue = rest) (running : st'.running = g :: st.running) : Advanced f k (st',log') := by
  cases k with
  | zero =>
    left
    have same : g = f := by simpa [Waits,waiting] using waits
    simp [running,same]
  | succ k => exact .inr ⟨k,Nat.lt_succ_self k,by simpa [Waits,waiting,queue] using waits⟩

omit fair in
theorem waitsAppend {f k st st' more log log'} (waits : Waits f k (st,log)) (queue : st'.queue = st.queue ++ more) :
    Waits f k (st',log') := by
  have bound : k < st.queue.length := (List.getElem?_eq_some_iff.mp waits).1
  rw [Waits,queue,List.getElem?_append_left bound]
  exact waits

theorem freeTakes (f k) : run.Leads (fun now => Waits f k now ∧ now.1.running.length < workers) (Advanced f k) := by
  refine fair.take.leads ?_ ?_
  · rintro ⟨st,log⟩ - ⟨waits,free⟩
    cases queue : st.queue with
    | nil => simp [Waits,queue] at waits
    | cons g rest => exact ⟨.take g,(_,log ++ [.take g]),trivial,.take queue free,rfl⟩
  · rintro ⟨st,log⟩ act ⟨st',log'⟩ - ⟨waits,free⟩ ⟨step,-⟩
    cases stepMoved (show Step workers s st act st' from step) with
    | take waiting _ queue running => exact .inr (takeAdvances waits waiting queue running)
    | @post _ _ before after busy queue running _ _ =>
      refine .inl ⟨⟨waitsAppend waits (by rw [queue,List.append_nil]),?_⟩,id⟩
      simp [busy,running] at free ⊢
      omega
    | other mine queue running =>
      refine .inl ⟨⟨waitsAppend waits queue,by rwa [running]⟩,?_⟩
      cases act <;> first | exact id | exact mine.elim

theorem busyFrees (f g k) :
    run.Leads (fun now => Waits f k now ∧ g ∈ now.1.running)
      (fun now => Advanced f k now ∨ Waits f k now ∧ now.1.running.length < workers) := by
  refine (fair.post g).leads (fun _ _ here => postable here.2) ?_
  rintro ⟨st,log⟩ act ⟨st',log'⟩ reached ⟨waits,here⟩ ⟨step,-⟩
  cases stepMoved (show Step workers s st act st' from step) with
  | take waiting _ queue running => exact .inr (.inl (takeAdvances waits waiting queue running))
  | @post _ _ before after busy queue running _ _ =>
    refine .inr (.inr ⟨waitsAppend waits (by rw [queue,List.append_nil]),?_⟩)
    have few := fewRunning reached
    simp [busy,running] at few ⊢
    omega
  | other mine queue running =>
    refine .inl ⟨⟨waitsAppend waits queue,by rwa [running]⟩,?_⟩
    cases act <;> first | exact id | exact mine.elim

theorem queuedRuns (positive : 0 < workers) (f) :
    run.Leads (fun now => f ∈ now.1.queue) (fun now => f ∈ now.1.running) := by
  have down : ∀ k, run.Leads (Waits f k) (Advanced f k) := by
    intro k n waits
    by_cases free : (run.state n).1.running.length < workers
    · exact freeTakes fair f k n ⟨waits,free⟩
    cases busy : (run.state n).1.running with
    | nil => simp [busy,positive] at free
    | cons g rest =>
      refine ((busyFrees fair f g k).trans (.or (.refl fun _ _ done => done) (freeTakes fair f k))) n ⟨waits,?_⟩
      simp [busy]
  intro n here
  obtain ⟨k,bound,found⟩ := List.mem_iff_getElem.mp here
  exact Behaviour.Leads.descend Nat.lt_wfRel.wf (P := Waits f) down k n (List.getElem?_eq_some_iff.mpr ⟨bound,found⟩)

theorem flightSettled (positive : 0 < workers) (f) :
    run.Leads (fun now => f ∈ flights now.1) (Settled f.owner f.job.id) := by
  have drained_ : run.Leads (fun now => ∃ d : Delivery, d.flight = f ∧ d ∈ drained now.1)
      (Settled f.owner f.job.id) := by
    rintro n ⟨d,rfl,here⟩
    exact drainedSettled fair d n here
  have completed : run.Leads (fun now => ∃ d : Delivery, d.flight = f ∧ d ∈ now.1.completions)
      (Settled f.owner f.job.id) := by
    rintro n ⟨d,rfl,here⟩
    exact ((deliveryDrained fair d).trans (drainedSettled fair d)) n here
  have ran := (runningPosted fair f).trans completed
  have queued := (queuedRuns fair positive f).trans ran
  intro n here
  simp only [flights,List.mem_append,List.mem_map] at here
  rcases here with (here | here) | ⟨d,here,same⟩ | ⟨d,here,same⟩
  · exact queued n here
  · exact ran n here
  · exact completed n ⟨d,same,here⟩
  · exact drained_ n ⟨d,same,here⟩

end Reactor

def idlePhase (n : Nat) : Phase := if n % 3 = 0 then .waiting else if n % 3 = 1 then .draining [] else .serving []
def idleAct (n : Nat) : Act := if n % 3 = 0 then .wake else if n % 3 = 1 then .collect [] else .served
def idling (st : State) (n : Nat) : State := { st with phase := idlePhase n }

theorem idleByReactor (n) : (idleAct n).byReactor := by
  unfold idleAct
  split
  · exact trivial
  · split <;> exact trivial

theorem idlingStep {workers s st} (idle : st.task = none) (clear : st.completions = []) (n) :
    Step workers s (idling st n) (idleAct n) (idling st (n + 1)) := by
  obtain round | round | round : n % 3 = 0 ∨ n % 3 = 1 ∨ n % 3 = 2 := by omega
  · have moved := @Step.wake workers s (idling st n) idle (by simp [idling,idlePhase,round])
    simpa [idling,idleAct,idlePhase,round,Nat.add_mod,clear] using moved
  · have moved := @Step.collect workers s (idling st n) [] idle (by simp [idling,idlePhase,round])
      ⟨List.nodup_nil,by simp⟩
    simpa [idling,idleAct,idlePhase,round,Nat.add_mod] using moved
  · have moved := @Step.served workers s (idling st n) idle (by simp [idling,idlePhase,round])
    simpa [idling,idleAct,idlePhase,round,Nat.add_mod] using moved

theorem restsRun {workers s st st' acts} (first : Start st) (path : (reactor workers s).Path st acts st')
    (idle : st'.task = none) (at_ : st'.phase = .waiting) (clear : st'.completions = []) :
    ∃ run : Run workers s, run.Fair Act.byReactor ∧ run.state acts.length = (st',acts) ∧
      ∀ n, run.state (acts.length + n) = (idling st' n,acts ++ (List.range n).map idleAct) := by
  have here : idling st' 0 = st' := by simp [idling,idlePhase,← at_]
  obtain ⟨state,label,zero,next,tail⟩ := (path.logged []).goesOn
    (fun n => (idling st' n,acts ++ (List.range n).map idleAct)) idleAct (by simp [here])
    fun n => ⟨idlingStep idle clear n,by simp [List.range_succ]⟩
  have begins : (reactor workers s).logged.start (state 0) := zero ▸ ⟨first,rfl⟩
  refine ⟨⟨state,label,begins,next⟩,fun n _ => ?_,by simpa [here] using (tail 0).1,fun n => (tail n).1⟩
  have mine : (label (acts.length + n)).byReactor := (tail n).2.symm ▸ idleByReactor n
  exact ⟨acts.length + n,by omega,mine⟩

section Rests
variable {workers : Nat} {s : Server} {run : Run workers s} {st : State} {start : Nat}
  (rests : ∀ n, (run.state (start + n)).1 = idling st n)
include rests

theorem restsTakes (stuck : st.queue = [] ∨ workers ≤ st.running.length) : run.Fair Act.takes := by
  intro n enabled
  obtain ⟨act,⟨last,_⟩,takes,moved⟩ := enabled (start + n) (by omega)
  have step : Step workers s (idling st n) act last := rests n ▸ moved.1
  cases step with
  | take waiting free =>
    rcases stuck with none_ | busy
    · simp [idling,none_] at waiting
    · exact absurd free (Nat.not_lt.mpr busy)
  | _ => exact takes.elim

theorem restsPosts (running : st.running = []) (f) : run.Fair (Act.posts f) := by
  intro n enabled
  obtain ⟨act,⟨last,_⟩,posts,moved⟩ := enabled (start + n) (by omega)
  have step : Step workers s (idling st n) act last := rests n ▸ moved.1
  cases step with
  | post busy ran => simp [idling,running] at busy
  | _ => exact posts.elim

end Rests
end OpenPs3Ftp.Reactor
