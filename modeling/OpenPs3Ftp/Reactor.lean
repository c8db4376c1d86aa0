import OpenPs3Ftp.Containment
import OpenPs3Ftp.Reactor.Schedule

/-! Jobs and their replies on the running server. -/
namespace OpenPs3Ftp.Reactor
open Lib Text Fs Session Commands Events Worker Program System

def Act.speaksTo (id : ClientId) : Act → Prop
  | .call i ⟨.send _ _,_⟩ => i = id
  | _ => False

section
variable {workers : Nat} {s : Server} {st st' : State} {log : List Act} {m : Mind} {act : Act}

theorem speaksLive {generation about text} (allowed : m.Allows generation (.send about text)) : m.live = true := by
  cases about with
  | accepted | finished => exact allowed.1
  | command | abort => exact allowed

theorem leftStep {id} (sound : Sound st log m) (left : Left st id) (step : Step workers s st act st') :
    Left st' id ∧ ¬ act.speaksTo id := by
  cases step with
  | @finish i c busy =>
    obtain ⟨generation,leaves,tasked⟩ := sound.engagedIn busy
    exact ⟨left.finish tasked leaves,fun speaks => speaks⟩
  | @call i call next answer busy possible =>
    obtain ⟨generation,⟨allowed,-⟩,tasked⟩ := sound.engagedIn busy
    refine ⟨left.of (answeredClients ..),fun speaks => ?_⟩
    cases call with
    | send about text =>
      obtain rfl : i = id := speaks
      exact absurd (speaksLive allowed) (by simp [tasked.dead left])
    | _ => exact speaks
  | _ => exact ⟨left,fun speaks => speaks⟩

theorem leftPath {id acts} (sound : Sound st log m) (left : Left st id) (path : (reactor workers s).Path st acts st') :
    ∀ act ∈ acts, ¬ act.speaksTo id := by
  induction path generalizing log m with
  | nil => simp
  | cons moved later ih =>
    obtain ⟨still,silent⟩ := leftStep sound left moved
    obtain ⟨m',sound'⟩ := soundStep sound moved
    simpa [silent] using ih sound' still

theorem storyJob {j id job} (told : .dispatched id job ∈ story j log) : job.id = j := by
  obtain ⟨act,-,told⟩ := List.mem_filterMap.mp told
  unfold chapter at told
  split at told <;> simp at told
  exact told.2.2 ▸ told.1.2

theorem storyDispatched {j id job} (told : .dispatched id job ∈ story j log) :
    .call id ⟨.dispatch job,true⟩ ∈ log := by
  obtain ⟨act,member,told⟩ := List.mem_filterMap.mp told
  unfold chapter at told
  split at told <;> simp at told
  obtain ⟨⟨rfl,-⟩,rfl,rfl⟩ := told
  exact member

theorem flightDispatched (sound : Sound st log m) {f} (here : f ∈ flights st) :
    .call f.owner ⟨.dispatch f.job,true⟩ ∈ log := by
  obtain ⟨announced,whole,-⟩ := sound.flying f here
  refine @storyDispatched log f.job.id f.owner f.job ?_
  rw [whole]
  cases announced <;> simp [opening]

theorem Airborne.announced {id i job chapters} (told : Airborne i job chapters) (accepted : .accepted id ∈ chapters) :
    id = i ∧ chapters = [.dispatched id job,.accepted id] ∧ job.op ≠ .copy := by
  obtain ⟨announced,rfl,plain⟩ := told
  cases announced with
  | false => simp [opening] at accepted
  | true =>
    obtain rfl : id = i := by simpa [opening] using accepted
    exact ⟨rfl,rfl,plain rfl⟩

theorem Airborne.open {id i job chapters text} (told : Airborne i job chapters) : .finished id text ∉ chapters := by
  obtain ⟨announced,rfl,-⟩ := told
  cases announced <;> simp [opening]

inductive Account (st : State) (log : List Act) (j : JobId) : Prop where
  | unborn (none : story j log = [])
  | flying {f} (here : f ∈ flights st) (same : f.job.id = j) (told : Airborne f.owner f.job (story j log))
  | due {id job p} (task : st.task = some (id,p)) (sends : Sends j p) (told : Airborne id job (story j log))
  | left {id job} (gone : Left st id) (told : Airborne id job (story j log))
  | ended {d chapters} (posted : .post d ∈ log) (told : Airborne d.owner d.posted.job chapters)
      (whole : story j log = chapters ++ [.finished d.owner (finalText d.posted)])

theorem Sound.account (sound : Sound st log m) (j) : Account st log j := by
  by_cases flying : ∃ f ∈ flights st, f.job.id = j
  · obtain ⟨f,here,rfl⟩ := flying
    exact .flying here rfl (sound.flying f here)
  by_cases due : ∃ p, m.due = some p ∧ p.job.id = j
  · obtain ⟨posted,pending,rfl⟩ := due
    obtain ⟨-,id,busy,-,told⟩ := sound.due posted pending
    obtain ⟨⟨i,p⟩,task,rfl⟩ := Option.map_eq_some_iff.mp busy
    obtain ⟨generation,minds,-⟩ := sound.engagedIn task
    exact .due task (mindsSend minds pending) told
  generalize whole : story j log = chapters
  have grounded := sound.grounded j (fun f here same => flying ⟨f,here,same⟩)
    (fun p pending same => due ⟨p,pending,same⟩)
  rw [whole] at grounded
  cases grounded with
  | unborn => exact .unborn whole
  | ended posted told => exact .ended posted told whole
  | left gone told => exact .left gone (whole ▸ told)

theorem Sound.single (sound : Sound st log m) (id) : (own st id).length ≤ 1 := by
  by_cases busy : engaged st = some id
  · obtain ⟨⟨i,p⟩,task,rfl⟩ := Option.map_eq_some_iff.mp busy
    obtain ⟨generation,-,tasked⟩ := sound.engagedIn task
    exact tasked.past.1
  cases sound.seats id busy with
  | empty _ none => simp [none]
  | @taken c _ _ holds =>
    cases held : c.job with
    | none =>
      rw [held] at holds
      simp [show own st id = [] from holds]
    | some j =>
      rw [held] at holds
      obtain ⟨job,one,-⟩ := holds
      simp [one]
  | left _ _ _ few _ => exact few

end

theorem verdictTransfer {p : Posted} (data : p.job.op ≠ .copy) : p.verdict.1 ∈ [226,425,426,451,550] := by
  have known := verdictKnown p
  have done : p.verdict.1 ≠ 250 := fun copied => data ((verdictDone (.inr copied)).2.mpr copied)
  simpa [done] using known

section
variable {st : State} {log : List Act} {j : JobId} {id : ClientId}

theorem Account.announced (account : Account st log j) (accepted : .accepted id ∈ story j log) :
    ∃ job, job.id = j ∧ job.op ≠ .copy ∧ (story j log = [.dispatched id job,.accepted id] ∨
      ∃ p, .post ⟨id,p⟩ ∈ log ∧ p.job = job ∧ p.verdict.1 ∈ [226,425,426,451,550] ∧ story j log =
        [.dispatched id job,.accepted id,.finished id (replyText p.verdict.1 p.verdict.2)]) := by
  have begun : ∀ {i job}, Airborne i job (story j log) → ∃ job, job.id = j ∧ job.op ≠ .copy ∧
      story j log = [.dispatched id job,.accepted id] := by
    intro i job told
    obtain ⟨rfl,whole,plain⟩ := told.announced accepted
    exact ⟨job,@storyJob log j id job (by simp [whole]),plain,whole⟩
  cases account with
  | unborn none => simp [none] at accepted
  | flying _ _ told | due _ _ told | left _ told =>
    obtain ⟨job,same,plain,whole⟩ := begun told
    exact ⟨job,same,plain,.inl whole⟩
  | @ended d chapters posted told whole =>
    obtain ⟨rfl,front,plain⟩ := told.announced (by simpa [whole] using accepted)
    refine ⟨d.posted.job,@storyJob log j d.owner _ (by simp [whole,front]),plain,.inr ⟨d.posted,posted,rfl,?_,?_⟩⟩
    · exact verdictTransfer plain
    · rw [whole,front]
      rfl

theorem Account.closed {text} (account : Account st log j) (finished : .finished id text ∈ story j log) :
    ∃ p, .post ⟨id,p⟩ ∈ log ∧ p.job.id = j ∧ text = replyText p.verdict.1 p.verdict.2 := by
  cases account with
  | unborn none => simp [none] at finished
  | flying _ _ told | due _ _ told | left _ told => exact absurd finished told.open
  | @ended d chapters posted told whole =>
    obtain ⟨rfl,rfl⟩ : id = d.owner ∧ text = finalText d.posted := by
      simpa [whole,told.open] using finished
    refine ⟨d.posted,posted,@storyJob log j d.owner _ ?_,rfl⟩
    obtain ⟨announced,rfl,-⟩ := told
    simp [whole,opening]

end

theorem acceptedFinished {workers s} {run : Run workers s} (fair : Fair run) (positive : 0 < workers) {n j id}
    (accepted : .accepted id ∈ story j (run.state n).2) (stays : ∀ m, n ≤ m → ¬ Left (run.state m).1 id) :
    ∃ m text, n ≤ m ∧ .finished id text ∈ story j (run.state m).2 := by
  obtain ⟨m,sound⟩ := soundReached (run.reached n)
  cases sound.account j with
  | unborn none => simp [none] at accepted
  | flying here same told =>
    obtain ⟨rfl,-⟩ := told.announced accepted
    subst same
    obtain ⟨k,later,⟨text,told⟩ | left⟩ := flightSettled fair positive _ n here
    · exact ⟨k,text,later,told⟩
    · exact absurd left (stays k later)
  | due task sends told =>
    obtain ⟨rfl,-⟩ := told.announced accepted
    obtain ⟨k,later,text,told⟩ := sendsTold fair _ j _ sends n task
    exact ⟨k,text,later,told⟩
  | left gone told =>
    obtain ⟨rfl,-⟩ := told.announced accepted
    exact absurd gone (stays n (Nat.le_refl n))
  | ended _ told whole =>
    obtain ⟨rfl,-⟩ := told.announced (by simpa [whole] using accepted)
    exact ⟨n,_,Nat.le_refl n,by rw [whole]; exact List.mem_append_right _ List.mem_cons_self⟩

theorem transfersAnswered (workers : Nat) (positive : 0 < workers) (s : Server) :
    (∀ st log, (reactor workers s).logged.Reached (st,log) →
      (∀ id, (own st id).length ≤ 1) ∧
      (∀ j id, .accepted id ∈ story j log → ∃ job, job.id = j ∧ job.op ≠ .copy ∧
        (story j log = [.dispatched id job,.accepted id] ∨
          ∃ p, .post ⟨id,p⟩ ∈ log ∧ p.job = job ∧ p.verdict.1 ∈ [226,425,426,451,550] ∧ story j log =
            [.dispatched id job,.accepted id,.finished id (replyText p.verdict.1 p.verdict.2)])) ∧
      (∀ j id text, .finished id text ∈ story j log → ∃ p, .post ⟨id,p⟩ ∈ log ∧ p.job.id = j ∧
        text = replyText p.verdict.1 p.verdict.2 ∧
        (p.verdict.1 = 226 ∨ p.verdict.1 = 250 → p.result = none ∧ (p.job.op = .copy ↔ p.verdict.1 = 250))) ∧
      ∀ id, Left st id → ∀ acts st', (reactor workers s).Path st acts st' → ∀ act ∈ acts, ¬ act.speaksTo id) ∧
    ∀ run : Run workers s, Fair run → ∀ n j id, .accepted id ∈ story j (run.state n).2 →
      (∀ m, n ≤ m → ¬ Left (run.state m).1 id) →
      ∃ m text, n ≤ m ∧ .finished id text ∈ story j (run.state m).2 := by
  refine ⟨fun st log reached => ?_,fun run fair n j id accepted stays => acceptedFinished fair positive accepted stays⟩
  obtain ⟨m,sound⟩ := soundReached reached
  refine ⟨sound.single,fun j id => (sound.account j).announced,fun j id text finished => ?_,
    fun id left acts st' path => leftPath sound left path⟩
  obtain ⟨p,posted,same,text⟩ := (sound.account j).closed finished
  exact ⟨p,posted,same,text,verdictDone⟩

def caller : SockAddr := .inet ⟨127,0,0,1⟩ 5000
def booted : State := ⟨fun _ => none,0,0,[],[],[],.waiting,none⟩

def offline : (call : Work) → call.Answer
  | .fs call => Containment.absent call
  | .cancelled | .malloc | .tlsCreate .. => false
  | .nowMs => 0
  | .poll .. => .timeout
  | .accept _ | .socket _ | .connect .. | .send .. | .recv .. => .error .enomem
  | .soError _ => none
  | .tlsHandshake | .tlsCloseNotify => .failed
  | .tlsWrite _ | .tlsRead _ => .failed
  | .tlsFree | .progress _ | .total _ => ()

/- The connection is made, and then nothing is ever received. -/
def stalled : (call : Work) → call.Answer
  | .malloc => true
  | .fs (.openFile ..) => .ok 8
  | .poll _ _ timeout => if timeout = 2000 then .ready false true false else .timeout
  | .socket _ => .ok 7
  | .connect .. => .ok ()
  | call => offline call

def stallable (job : Job) : Bool :=
  job.op = .stor && !job.needTls && job.pasvFd.isNone && job.haveDataPeer && job.rest = 0

theorem stallableShape {job} (plain : stallable job = true) :
    job = { job with op := .stor, needTls := false, pasvFd := none, haveDataPeer := true, rest := 0 } := by
  obtain ⟨id,generation,op,path,dst,rest,nlst,mlsd,needTls,pasvFd,dataPeer,haveDataPeer,ctlPeer⟩ := job
  simp only [stallable,Bool.and_eq_true,decide_eq_true_eq,Bool.not_eq_true',Option.isNone_iff_eq_none] at plain
  obtain ⟨⟨⟨⟨rfl,rfl⟩,rfl⟩,rfl⟩,rfl⟩ := plain
  rfl

theorem stalledBind {α β : Type} {p : Routine α} {f : α → Routine β} (none_ : (Program.play stalled p).2 = none) :
    (Program.play stalled (p >>= f : Routine β)).2 = none := by
  induction p with
  | done value =>
    cases value with
    | none => rfl
    | some a => cases none_
  | ask call next ih => exact ih _ none_

theorem stalledLoop (fd file rounds stored) :
    (Program.play stalled (Bounded.loop (storRound rounds ⟨fd,false⟩ file) rounds stored)).2 = none := by
  suffices every : ∀ k, (Program.play stalled (Bounded.loop (storRound rounds ⟨fd,false⟩ file) k stored)).2 = none from
    every rounds
  intro k
  induction k with
  | zero => rfl
  | succ k ih => exact ih

theorem stalledRun {job} (s rounds) (plain : stallable job = true) :
    (Program.play stalled (transferRun rounds s job)).2 = none := by
  rw [stallableShape plain]
  have stor := @stalledBind _ _ _ (fun rc => do let _ ← onFs (.close 8); return rc) (stalledLoop 7 8 rounds 0)
  exact @stalledBind _ _ _ (fun rc => pure (⟨_,some 7,true,rc⟩ : Posted)) stor

def stored : Bytes := ascii "USER a\nPASS b\nPORT 127,0,0,1,4,1\nSTOU\n"

/- Two clients, each of which stores a file. -/
def storing : List Hint :=
  [.wake,.collect [.listener [caller,caller]],.wake,.collect [.client 0 ⟨false,true,false⟩,.client 1 ⟨false,true,false⟩],
    .event [.bytes stored,.wouldBlock],.event [.bytes stored,.wouldBlock]]

def played (later : List Hint) : List Act × State :=
  (chooser 1 house Containment.refusals offline).play (fun _ _ => true) 300 booted (storing ++ later)

theorem bootedStart : Start booted := ⟨fun _ => rfl,rfl,rfl,rfl,rfl,rfl⟩

theorem playedSome {P : List Act → State → Prop} (later) (so : P (played later).1 (played later).2) :
    ∃ acts st, (reactor 1 house).Path booted acts st ∧ P acts st :=
  ⟨_,_,Chooser.playPath 300 _ trivial,so⟩

def stays (st : State) (id : ClientId) : Bool := (st.clients id).any (·.connected)

theorem staysNever {st id} (here : stays st id = true) : ¬ Left st id := by
  rintro ⟨c,seat,away⟩
  simp [stays,seat,away] at here

def Served (acts : List Act) (st : State) : Prop :=
  rests st = true ∧ st.queue = [] ∧ st.running = [] ∧ .accepted 0 ∈ story 0 acts ∧ stays st 0 = true

theorem servedSome : ∃ acts st, (reactor 1 house).Path booted acts st ∧ Served acts st :=
  playedSome [.take,.post,.take,.post,.wake,.collect []] (by unfold Served; decide +kernel)

theorem transfersAnsweredStou : 0 < 1 ∧ ∃ (run : Run 1 house) (n : Nat), Fair run ∧
    .accepted 0 ∈ story 0 (run.state n).2 ∧ (∀ m, n ≤ m → ¬ Left (run.state m).1 0) ∧
    ∃ m text, n ≤ m ∧ .finished 0 text ∈ story 0 (run.state m).2 := by
  obtain ⟨acts,st,path,resting,queue,running,told,here⟩ := servedSome
  obtain ⟨idle,at_,clear⟩ := restsResting resting
  obtain ⟨run,reacts,now,goes⟩ := restsRun bootedStart path idle at_ clear
  have same : ∀ n, (run.state (acts.length + n)).1 = idling st n := fun n => by rw [goes]
  have fair : Fair run := ⟨reacts,restsTakes same (.inl queue),restsPosts same running⟩
  have accepted : .accepted 0 ∈ story 0 (run.state acts.length).2 := by rwa [now]
  have never : ∀ m, acts.length ≤ m → ¬ Left (run.state m).1 0 := by
    intro m later
    obtain ⟨n,rfl⟩ := Nat.exists_eq_add_of_le later
    rw [same]
    exact staysNever here
  exact ⟨by decide,run,_,fair,accepted,never,(transfersAnswered 1 (by decide) house).2 run fair _ 0 0 accepted never⟩

def Chapter.isFinal : Chapter → Bool
  | .finished .. => true
  | _ => false

def Stuck (acts : List Act) (st : State) : Prop :=
  rests st = true ∧ st.running.length = 1 ∧ (∀ f ∈ st.running, f.job.id = 0 ∧ stallable f.job = true) ∧
    .accepted 0 ∈ story 0 acts ∧ (story 0 acts).all (!·.isFinal) = true ∧ stays st 0 = true

theorem stuckSome : ∃ acts st, (reactor 1 house).Path booted acts st ∧ Stuck acts st :=
  playedSome [.take] (by unfold Stuck; decide +kernel)

theorem storyIdle (j acts n) : story j (acts ++ (List.range n).map idleAct) = story j acts := by
  have quiet : ∀ n, chapter j (idleAct n) = none := fun n => by unfold idleAct; split_ifs <;> rfl
  simp [story,List.filterMap_map,quiet]

/- The peer of the first upload connects and then neither sends nor closes. -/
theorem transferStalls : ∃ (run : Run 1 house) (n : Nat) (f : Flight), run.Fair Act.byReactor ∧ run.Fair Act.takes ∧
    f.job.id = 0 ∧ .accepted 0 ∈ story 0 (run.state n).2 ∧
    (∀ m, n ≤ m → ¬ Left (run.state m).1 0 ∧ f ∈ (run.state m).1.running ∧
      ∀ text, .finished 0 text ∉ story 0 (run.state m).2) ∧
    ∀ rounds, Program.Runs (transferRun rounds house f.job) (Program.play stalled (transferRun rounds house f.job)).1 none := by
  obtain ⟨acts,st,path,resting,one,stalls,told,open_,here⟩ := stuckSome
  obtain ⟨idle,at_,clear⟩ := restsResting resting
  obtain ⟨run,reacts,now,goes⟩ := restsRun bootedStart path idle at_ clear
  obtain ⟨f,only⟩ := List.length_eq_one_iff.mp one
  obtain ⟨first,plain⟩ := stalls f (by simp [only])
  have takes : run.Fair Act.takes := restsTakes (fun n => by rw [goes n]) (.inr (Nat.le_of_eq one.symm))
  refine ⟨run,acts.length,f,reacts,takes,first,by rwa [now],fun m later => ?_,fun rounds => ?_⟩
  · obtain ⟨n,rfl⟩ := Nat.exists_eq_add_of_le later
    rw [goes,storyIdle]
    refine ⟨staysNever here,by simp [idling,only],fun text final => ?_⟩
    simpa [Chapter.isFinal] using List.all_eq_true.mp open_ _ final
  · have run := playRuns stalled (transferRun rounds house f.job)
    rwa [stalledRun house rounds plain] at run

end OpenPs3Ftp.Reactor
