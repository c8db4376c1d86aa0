import Mathlib.Data.List.Nodup
import OpenPs3Ftp.Reactor.Tasks

/-! The invariant of the running server. It says where each client's job is, and what
has been said about every job so far, over all interleavings of the reactor with the
workers. -/
namespace OpenPs3Ftp.Reactor
open Lib Text Fs Session Commands Events Worker Program

inductive Chapter where
  | dispatched (id : ClientId) (job : Job)
  | accepted (id : ClientId)
  | finished (id : ClientId) (text : Bytes)
  deriving DecidableEq

def chapter (j : JobId) : Act → Option Chapter
  | .call id ⟨.dispatch job,answer⟩ => if answer = true ∧ job.id = j then some (.dispatched id job) else none
  | .call id ⟨.send (.accepted k) _,_⟩ => if k = j then some (.accepted id) else none
  | .call id ⟨.send (.finished k) text,_⟩ => if k = j then some (.finished id text) else none
  | _ => none

def story (j : JobId) (log : List Act) : List Chapter := log.filterMap (chapter j)

@[simp] theorem storyAppend (j log act) : story j (log ++ [act]) = story j log ++ (chapter j act).toList := by
  rw [story,List.filterMap_append]
  cases told : chapter j act <;> simp [story,told]

def opening (id : ClientId) (job : Job) (announced : Bool) : List Chapter :=
  .dispatched id job :: if announced then [.accepted id] else []

def Airborne (id : ClientId) (job : Job) (chapters : List Chapter) : Prop :=
  ∃ announced, chapters = opening id job announced ∧ (announced = true → job.op ≠ .copy)

def finalText (p : Posted) : Bytes := replyText p.verdict.1 p.verdict.2
def Left (st : State) (id : ClientId) : Prop := ∃ c, st.clients id = some c ∧ c.connected = false

inductive Grounded (st : State) (log : List Act) : List Chapter → Prop where
  | unborn : Grounded st log []
  | ended {d : Delivery} {chapters} (posted : .post d ∈ log) (told : Airborne d.owner d.posted.job chapters) :
      Grounded st log (chapters ++ [.finished d.owner (finalText d.posted)])
  | left {id job chapters} (gone : Left st id) (told : Airborne id job chapters) : Grounded st log chapters

def Holds (st : State) (id : ClientId) (generation : Nat) : Option JobId → Prop
  | none => own st id = []
  | some j => ∃ job, own st id = [⟨id,job⟩] ∧ job.id = j ∧ job.generation = generation

inductive Seat (st : State) (id : ClientId) : Prop where
  | empty (absent : st.clients id = none) (none : own st id = [])
  | taken {c} (here : st.clients id = some c) (connected : c.connected = true)
      (holds : Holds st id c.generation c.job)
  | left {c} (here : st.clients id = some c) (gone : c.connected = false) (free : c.job = none)
      (few : (own st id).length ≤ 1) (old : ∀ f ∈ own st id, f.job.generation < c.generation)

inductive Tasked (st : State) (m : Mind) (id : ClientId) (generation : Nat) : Prop where
  | fresh (live : m.live = true) (absent : st.clients id = none) (holds : Holds st id generation m.held)
  | live {c} (live : m.live = true) (here : st.clients id = some c) (connected : c.connected = true)
      (same : c.generation = generation) (holds : Holds st id generation m.held)
  | stale {c} (dead : m.live = false) (here : st.clients id = some c) (gone : c.connected = false)
      (none : own st id = [])

def engaged (st : State) : Option ClientId := st.task.map (·.1)

def Working (st : State) (m : Mind) : Prop :=
  match st.task with
  | none => m = .idle
  | some (id,p) => ∃ generation, Minds generation m p ∧ Tasked st m id generation

def Awaited (st : State) : Prop :=
  match st.phase with
  | .serving left => Collected st left ∧ ∀ id, engaged st = some id → id ∉ left.filterMap Ready.id?
  | _ => True

structure Sound (st : State) (log : List Act) (m : Mind) : Prop where
  distinct : ((flights st).map (·.job.id)).Nodup
  seats : ∀ id, engaged st ≠ some id → Seat st id
  working : Working st m
  coming : ∀ id, st.nextClient ≤ id → st.clients id = none ∧ engaged st ≠ some id
  flying : ∀ f ∈ flights st, Airborne f.owner f.job (story f.job.id log)
  due : ∀ p, m.due = some p → (∀ f ∈ flights st, f.job.id ≠ p.job.id) ∧
    ∃ id, engaged st = some id ∧ .post ⟨id,p⟩ ∈ log ∧ Airborne id p.job (story p.job.id log)
  grounded : ∀ j, (∀ f ∈ flights st, f.job.id ≠ j) → (∀ p, m.due = some p → p.job.id ≠ j) →
    Grounded st log (story j log)
  telling : ∀ j, m.told = false → m.held = some j →
    ∃ id job, story j log = [.dispatched id job] ∧ (m.copying = false → job.op ≠ .copy)
  unborn : ∀ j, st.nextJob ≤ j → story j log = []
  made : ∀ j, m.made = some j → j < st.nextJob ∧ story j log = []
  posted : ∀ d ∈ st.completions ++ drained st, .post d ∈ log
  awaited : Awaited st

variable {id : ClientId} {generation : Nat} {chapters : List Chapter}

section Frame
variable {st st' : State} {log : List Act} {m : Mind} {act : Act}

theorem ownPerm (same : (flights st').Perm (flights st)) (id) : (own st' id).Perm (own st id) :=
  same.filter _

theorem Holds.perm (owns : (own st' id).Perm (own st id)) {job} (holds : Holds st id generation job) :
    Holds st' id generation job := by
  cases job with
  | none =>
    rw [show own st id = [] from holds] at owns
    exact owns.eq_nil
  | some j =>
    obtain ⟨job,one,rest⟩ := holds
    rw [one] at owns
    exact ⟨job,List.perm_singleton.mp owns,rest⟩

theorem Seat.perm (owns : (own st' id).Perm (own st id)) (client : st'.clients id = st.clients id)
    (seat : Seat st id) : Seat st' id := by
  cases seat with
  | empty absent none =>
    rw [none] at owns
    exact .empty (by rw [client,absent]) owns.eq_nil
  | taken here connected holds => exact .taken (by rw [client,here]) connected (holds.perm owns)
  | left here gone free few old =>
    exact .left (by rw [client,here]) gone free (by rw [owns.length_eq]; exact few)
      fun f member => old f (owns.mem_iff.mp member)

theorem Tasked.perm (owns : (own st' id).Perm (own st id))
    (client : st'.clients id = st.clients id) (tasked : Tasked st m id generation) :
    Tasked st' m id generation := by
  cases tasked with
  | fresh live absent holds => exact .fresh live (by rw [client,absent]) (holds.perm owns)
  | live live here connected stamp holds =>
    exact .live live (by rw [client,here]) connected stamp (holds.perm owns)
  | stale dead here gone none =>
    rw [none] at owns
    exact .stale dead (by rw [client,here]) gone owns.eq_nil

theorem Left.of (clients : st'.clients = st.clients) (left : Left st id) : Left st' id := by
  obtain ⟨c,here,gone⟩ := left
  exact ⟨c,by rw [clients,here],gone⟩

theorem Grounded.later (act) (grounded : Grounded st log chapters) : Grounded st (log ++ [act]) chapters := by
  cases grounded with
  | unborn => exact .unborn
  | ended posted told => exact .ended (by simp [posted]) told
  | left gone told => exact .left gone told

theorem Grounded.state (left : ∀ id, Left st id → Left st' id)
    (grounded : Grounded st log chapters) : Grounded st' log chapters := by
  induction grounded with
  | unborn => exact .unborn
  | ended posted told => exact .ended posted told
  | left gone told => exact .left (left _ gone) told

theorem Grounded.of (act) (left : ∀ id, Left st id → Left st' id) (grounded : Grounded st log chapters) :
    Grounded st' (log ++ [act]) chapters :=
  (grounded.later act).state left

theorem Sound.frame {m' : Mind} (sound : Sound st log m) (clients : st'.clients = st.clients)
    (nextClient : st.nextClient ≤ st'.nextClient) (nextJob : st.nextJob ≤ st'.nextJob)
    (tasks : engaged st' = engaged st) (same : (flights st').Perm (flights st)) (quiet : ∀ j, chapter j act = none)
    (posted : ∀ d ∈ st'.completions ++ drained st', .post d ∈ log ++ [act])
    (mind : m'.due = m.due ∧ m'.told = m.told ∧ m'.held = m.held ∧ m'.copying = m.copying)
    (made : ∀ j, m'.made = some j → j < st'.nextJob ∧ story j log = []) (working : Working st' m')
    (awaited : Awaited st') : Sound st' (log ++ [act]) m' where
  distinct := (same.map _).nodup_iff.mpr sound.distinct
  seats id free := (sound.seats id (by rwa [tasks] at free)).perm (ownPerm same id) (congrFun clients id)
  working := working
  coming id later := by
    rw [clients,tasks]
    exact sound.coming id (Nat.le_trans nextClient later)
  flying f member := by simpa [quiet] using sound.flying f (same.mem_iff.mp member)
  due p pending := by
    obtain ⟨absent,id,busy,post,told⟩ := sound.due p (by rwa [mind.1] at pending)
    exact ⟨fun f member => absent f (same.mem_iff.mp member),id,by rw [tasks,busy],by simp [post],
      by simpa [quiet] using told⟩
  grounded j absent calm := by
    have before := sound.grounded j (fun f member => absent f (same.mem_iff.mpr member)) (by rwa [mind.1] at calm)
    simpa [quiet] using before.of act fun id left => left.of clients
  telling j silent held := by
    rw [mind.2.2.2]
    simpa [quiet] using sound.telling j (by rwa [mind.2.1] at silent) (by rwa [mind.2.2.1] at held)
  unborn j new := by simpa [quiet] using sound.unborn j (Nat.le_trans nextJob new)
  made j new := by simpa [quiet] using made j new
  posted := posted
  awaited := awaited

theorem Working.of (working : Working st m) (clients : st'.clients = st.clients) (task : st'.task = st.task)
    (same : (flights st').Perm (flights st)) : Working st' m := by
  unfold Working at working ⊢
  rw [task]
  split
  · rename_i none
    rwa [none] at working
  rename_i id p busy
  rw [busy] at working
  obtain ⟨generation,minds,tasked⟩ := working
  exact ⟨generation,minds,tasked.perm (ownPerm same id) (congrFun clients id)⟩

theorem Sound.move (sound : Sound st log m) (clients : st'.clients = st.clients)
    (nextClient : st.nextClient ≤ st'.nextClient) (nextJob : st'.nextJob = st.nextJob) (task : st'.task = st.task)
    (same : (flights st').Perm (flights st)) (quiet : ∀ j, chapter j act = none)
    (posted : ∀ d ∈ st'.completions ++ drained st', .post d ∈ log ++ [act]) (awaited : Awaited st') :
    Sound st' (log ++ [act]) m :=
  sound.frame clients nextClient (Nat.le_of_eq nextJob.symm) (by rw [engaged,task,engaged]) same quiet posted
    ⟨rfl,rfl,rfl,rfl⟩ (by rw [nextJob]; exact sound.made) (sound.working.of clients task same) awaited

theorem Sound.posting {d} (sound : Sound st log m) (act) (member : d ∈ st.completions ++ drained st) :
    .post d ∈ log ++ [act] := by
  have before := sound.posted d member
  simp [before]

theorem Sound.turn {phase next} (sound : Sound st log m) (later : st.nextClient ≤ next)
    (quiet : ∀ j, chapter j act = none) (same : drained { st with phase } = drained st)
    (awaited : Awaited { st with phase, nextClient := next }) :
    Sound { st with phase, nextClient := next } (log ++ [act]) m := by
  refine sound.move rfl later rfl rfl ?_ quiet (fun d member => sound.posting act ?_) awaited
  · rw [flights,flights,show drained { st with phase, nextClient := next } = drained st from same]
  · rwa [show drained { st with phase, nextClient := next } = drained st from same] at member

end Frame

variable {left : List Ready} {f : Flight}

section Moves
variable {workers : Nat} {s : Server} {st st' : State} {log : List Act} {m : Mind}

variable (sound : Sound st log m)
include sound

theorem soundWake (at_ : st.phase = .waiting) :
    Sound { st with phase := .draining st.completions, completions := [] } (log ++ [.wake]) m := by
  refine sound.move rfl (Nat.le_refl _) rfl rfl ?_ (fun _ => rfl) ?_ trivial
  · simp [flights,drained,at_]
  · intro d member
    have here : d ∈ st.completions := by simpa [drained] using member
    exact sound.posting _ (by simp [here])

theorem soundCollect {ready} (idle : st.task = none) (at_ : st.phase = .draining [])
    (collected : Collected st ready) : Sound { st with phase := .serving ready } (log ++ [.collect ready]) m :=
  sound.turn (Nat.le_refl _) (fun _ => rfl) (by simp [drained,at_]) ⟨collected,by simp [engaged,idle]⟩

theorem Sound.ready {first} (at_ : st.phase = .serving (first :: left)) :
    Collected st (first :: left) := by
  have awaited := sound.awaited
  rw [Awaited,at_] at awaited
  exact awaited.1

theorem soundAccepted (idle : st.task = none)
    (at_ : st.phase = .serving (.listener [] :: left)) :
    Sound { st with phase := .serving left } (log ++ [.accepted]) m :=
  sound.turn (Nat.le_refl _) (fun _ => rfl) (by simp [drained,at_]) ⟨sound.ready at_,by simp [engaged,idle]⟩

theorem soundServed (at_ : st.phase = .serving []) :
    Sound { st with phase := .waiting } (log ++ [.served]) m :=
  sound.turn (Nat.le_refl _) (fun _ => rfl) (by simp [drained,at_]) trivial

theorem soundTake {rest} (waiting : st.queue = f :: rest) :
    Sound { st with queue := rest, running := f :: st.running } (log ++ [.take f]) m := by
  refine sound.move rfl (Nat.le_refl _) rfl rfl ?_ (fun _ => rfl) (fun d member => ?_) sound.awaited
  · simp only [flights,drained,waiting]
    exact List.perm_middle.append_right _
  · exact sound.posting _ member

theorem soundPost {before after rounds trace posted}
    (busy : st.running = before ++ f :: after) (run : (transferRun rounds s f.job).Runs trace (some posted)) :
    Sound { st with running := before ++ after, completions := ⟨f.owner,posted⟩ :: st.completions }
      (log ++ [.post ⟨f.owner,posted⟩]) m := by
  refine sound.move rfl (Nat.le_refl _) rfl rfl (@flightsStep 0 s st _ _ (.post busy run)) (fun _ => rfl) ?_
    sound.awaited
  rintro d (_ | ⟨_,member⟩)
  · simp
  · exact sound.posting _ member

end Moves

variable {p : Handler Client} {c : Client}

section Begin
variable {s : Server} {st st' : State} {log : List Act} {m m' : Mind} {act : Act}

variable (sound : Sound st log m)
include sound

theorem Sound.restful (idle : st.task = none) : m = .idle := by
  have working := sound.working
  rwa [Working,idle] at working

theorem Sound.resting (idle : st.task = none) (id) : Seat st id :=
  sound.seats id (by simp [engaged,idle])

theorem Sound.begin
    (idle : st.task = none) (clients : st'.clients = st.clients) (nextJob : st'.nextJob = st.nextJob)
    (nextClient : st.nextClient ≤ st'.nextClient) (known : id < st'.nextClient) (task : st'.task = some (id,p))
    (same : (flights st').Perm (flights st)) (quiet : ∀ j, chapter j act = none)
    (posted : ∀ d ∈ st'.completions ++ drained st', d ∈ st.completions ++ drained st) (awaited : Awaited st')
    (minds : Minds generation m' p) (tasked : Tasked st' m' id generation)
    (calm : m'.due = none ∧ m'.told = true ∧ m'.made = none) : Sound st' (log ++ [act]) m' where
  distinct := (same.map _).nodup_iff.mpr sound.distinct
  seats other free := (sound.resting idle other).perm (ownPerm same other) (congrFun clients other)
  working := by
    rw [Working,task]
    exact ⟨generation,minds,tasked⟩
  coming other later := by
    refine ⟨by rw [clients,(sound.coming other (Nat.le_trans nextClient later)).1],fun same => ?_⟩
    obtain rfl : id = other := by simpa [engaged,task] using same
    exact Nat.not_le_of_lt known later
  flying f member := by simpa [quiet] using sound.flying f (same.mem_iff.mp member)
  due p pending := by simp [calm.1] at pending
  grounded j absent _ := by
    have before := sound.grounded j (fun f member => absent f (same.mem_iff.mpr member))
      (by simp [sound.restful idle,Mind.idle])
    simpa [quiet] using before.of act fun id left => left.of clients
  telling j silent := by simp [calm.2.1] at silent
  unborn j new := by simpa [quiet] using sound.unborn j (by rwa [nextJob] at new)
  made j new := by simp [calm.2.2] at new
  posted d member := by
    have before := sound.posted d (posted d member)
    simp [before]
  awaited := awaited

omit sound in
theorem soundEvent {revents} (root received) (sound : Sound st log m) (idle : st.task = none)
    (at_ : st.phase = .serving (.client id revents :: left)) (owner : st.clients id = some c) :
    Sound { st with phase := .serving left,
                    task := some (id,handleClientEvents { s with root } revents received c) }
      (log ++ [.event id root revents received]) (.holding c.job) := by
  obtain ⟨once,here⟩ := sound.ready at_
  obtain ⟨c',found,connected⟩ := here id (by simp [Ready.id?])
  obtain rfl : c' = c := by simpa [owner] using found.symm
  have holds : Holds st id c'.generation c'.job := by
    cases sound.resting idle id with
    | empty absent _ => simp [owner] at absent
    | taken here _ holds =>
      obtain rfl : c' = _ := by simpa [owner] using here
      exact holds
    | left here gone _ _ _ =>
      obtain rfl : c' = _ := by simpa [owner] using here
      simp [connected] at gone
  have known : id < st.nextClient := by
    by_contra later
    have absent := (sound.coming id (Nat.le_of_not_lt later)).1
    simp [owner] at absent
  refine sound.begin idle rfl rfl (Nat.le_refl _) known rfl ?_ (fun _ => rfl) ?_ ?_
    (eventMinds received connected) (.live rfl owner connected rfl ?_) ⟨rfl,rfl,rfl⟩
  · simp [flights,drained,at_]
  · simp [drained,at_]
  · simp only [List.filterMap_cons,Ready.id?,List.nodup_cons] at once
    refine ⟨⟨once.2,fun other member => here other (by simp [Ready.id?,member])⟩,?_⟩
    intro other same
    obtain rfl : id = other := by simpa [engaged] using same
    exact once.1
  · exact holds.perm (ownPerm (by simp [flights,drained,at_]) _)

theorem soundAccept {peer peers} (idle : st.task = none)
    (at_ : st.phase = .serving (.listener (peer :: peers) :: left)) :
    Sound { st with phase := .serving (.listener peers :: left), nextClient := st.nextClient + 1,
                    task := some (st.nextClient,acceptClient s peer) }
      (log ++ [.accept st.nextClient peer]) .idle := by
  obtain ⟨once,here⟩ := sound.ready at_
  have absent := (sound.coming st.nextClient (Nat.le_refl _)).1
  have holds : Holds st st.nextClient (clientNew peer).generation Mind.idle.held := by
    cases sound.resting idle st.nextClient with
    | empty _ none => exact none
    | taken here _ _ | left here _ _ _ _ => simp [absent] at here
  refine sound.begin idle rfl rfl (Nat.le_succ _) (Nat.lt_succ_self _) rfl ?_ (fun _ => rfl) ?_ ?_
    (acceptMinds s peer) (.fresh rfl absent ?_) ⟨rfl,rfl,rfl⟩
  · simp [flights,drained,at_]
  · simp [drained,at_]
  · refine ⟨⟨once,here⟩,?_⟩
    intro other same member
    obtain rfl : st.nextClient = other := by simpa [engaged] using same
    obtain ⟨c,found,-⟩ := here _ member
    simp [absent] at found
  · exact holds.perm (ownPerm (by simp [flights,drained,at_]) _)

theorem soundComplete {d left} (idle : st.task = none)
    (at_ : st.phase = .draining (d :: left)) (owner : st.clients d.owner = some c) :
    ∃ m', Sound { st with phase := .draining left, task := some (d.owner,datachanComplete d.posted c) }
      (log ++ [.complete d]) m' := by
  generalize after : { st with phase := Phase.draining left,
                               task := some (d.owner,datachanComplete d.posted c) } = st'
  have clients : st'.clients = st.clients := by rw [← after]
  have task : st'.task = some (d.owner,datachanComplete d.posted c) := by rw [← after]
  have split : (flights st).Perm (d.flight :: flights st') := by
    rw [← after]
    simp only [flights,drained,at_,List.map_cons]
    rw [← List.append_assoc,← List.append_assoc]
    exact List.perm_middle
  have distinct : d.posted.job.id ∉ (flights st').map (·.job.id) ∧ ((flights st').map (·.job.id)).Nodup := by
    have all := (split.map (·.job.id)).nodup_iff.mp sound.distinct
    simpa [Delivery.flight] using all
  have owns : (own st d.owner).Perm (d.flight :: own st' d.owner) := by
    have filtered := split.filter (·.owner = d.owner)
    simpa [own,Delivery.flight] using filtered
  have begin_ : ∀ m' generation, m'.told = true → m'.made = none →
      (m'.due = some d.posted ∨ m'.due = none ∧ Left st d.owner) →
      Minds generation m' (datachanComplete d.posted c) → Tasked st' m' d.owner generation →
      Sound st' (log ++ [.complete d]) m' := by
    intro m' generation told made due minds tasked
    refine ⟨distinct.2,fun id free => ?_,?_,fun id later => ?_,fun f member => ?_,fun p pending => ?_,
      fun j absent calm => ?_,by simp [told],fun j new => ?_,by simp [made],fun e member => ?_,?_⟩
    · have other : id ≠ d.owner := by
        rintro rfl
        exact free (by simp [engaged,task])
      have same : (own st id).Perm (own st' id) := by
        have filtered := split.filter (·.owner = id)
        simpa [own,Delivery.flight,other.symm] using filtered
      exact (sound.resting idle id).perm same.symm (congrFun clients id)
    · rw [Working,task]
      exact ⟨generation,minds,tasked⟩
    · have coming := sound.coming id (by rwa [← after] at later)
      refine ⟨by rw [clients,coming.1],fun same => ?_⟩
      obtain rfl : d.owner = id := by simpa [engaged,task] using same
      simp [owner] at coming
    · simpa [chapter] using sound.flying f (split.mem_iff.mpr (List.mem_cons_of_mem _ member))
    · obtain rfl : d.posted = p := by
        rcases due with due | ⟨due,-⟩
        · simpa [due] using pending
        · simp [due] at pending
      refine ⟨fun f member same => distinct.1 (List.mem_map.mpr ⟨f,member,same⟩),d.owner,by simp [engaged,task],?_,?_⟩
      · have before := sound.posted d (by simp [drained,at_])
        simp [before]
      · simpa [chapter,Delivery.flight] using sound.flying d.flight (split.mem_iff.mpr List.mem_cons_self)
    · by_cases same : j = d.posted.job.id
      · subst same
        rcases due with due | ⟨-,gone⟩
        · exact absurd rfl (calm _ due)
        · have told := sound.flying d.flight (split.mem_iff.mpr List.mem_cons_self)
          exact .left (gone.of clients) (by simpa [chapter,Delivery.flight] using told)
      have before := sound.grounded j (fun f member => ?_) (by simp [sound.restful idle,Mind.idle])
      · simpa [chapter] using before.of (.complete d) fun id left => left.of clients
      · rcases List.mem_cons.mp (split.mem_iff.mp member) with rfl | member
        · exact Ne.symm same
        · exact absent f member
    · simpa [chapter] using sound.unborn j (by rwa [← after] at new)
    · have before := sound.posted e (by
        rw [← after] at member
        simp [drained,at_] at member ⊢
        exact member.imp_right .inr)
      simp [before]
    · rw [← after]
      trivial
  cases sound.resting idle d.owner with
  | empty absent _ => simp [owner] at absent
  | taken here connected holds =>
    obtain rfl : c = _ := by simpa [owner] using here
    cases held : c.job with
    | none =>
      rw [held] at holds
      rw [show own st d.owner = [] from holds] at owns
      exact absurd owns.nil_eq (by simp)
    | some j =>
      rw [held] at holds
      obtain ⟨job,one,-,stamp⟩ := holds
      rw [one] at owns
      have same := List.singleton_perm.mp owns
      obtain ⟨same,none⟩ := List.cons.inj same
      have stamped : d.posted.job.generation = c.generation := by
        rw [← stamp]
        exact congrArg (·.job.generation) same.symm
      exact ⟨.completing d.posted,begin_ _ _ rfl rfl (.inl rfl) (completeMinds connected stamped)
        (.live rfl (by rw [clients,owner]) connected rfl none.symm)⟩
  | left here gone free few old =>
    obtain rfl : c = _ := by simpa [owner] using here
    have none : own st' d.owner = [] := by
      have length := owns.length_eq
      rw [List.length_cons] at length
      exact List.eq_nil_of_length_eq_zero (by omega)
    have older := old d.flight (owns.mem_iff.mpr List.mem_cons_self)
    exact ⟨.stale,begin_ _ _ rfl rfl (.inr ⟨rfl,c,owner,gone⟩) (staleMinds gone free (Nat.ne_of_lt older))
      (.stale rfl (by rw [clients,owner]) gone none)⟩

end Begin

variable {j : JobId} {q : Handler Client} {text : Bytes}

section Calls
variable {workers : Nat} {st : State} {log : List Act} {m : Mind} {id : ClientId} {call : Call}
  {next : Answer call → Handler Client}

theorem Sound.engagedIn (sound : Sound st log m) (busy : st.task = some (id,p)) :
    ∃ generation, Minds generation m p ∧ Tasked st m id generation := by
  have working := sound.working
  rwa [Working,busy] at working

theorem Tasked.flight (tasked : Tasked st m id generation) (live : m.live = true)
    (held : m.held = some j) : ∃ job, own st id = [⟨id,job⟩] ∧ job.id = j ∧ job.generation = generation := by
  cases tasked with
  | fresh _ _ holds | live _ _ _ _ holds => rwa [held] at holds
  | stale dead _ _ _ => simp [live] at dead

theorem Tasked.past (tasked : Tasked st m id generation) :
    (own st id).length ≤ 1 ∧ ∀ f ∈ own st id, m.live = true ∧ f.job.generation = generation := by
  have held : ∀ job, m.live = true → Holds st id generation job →
      (own st id).length ≤ 1 ∧ ∀ f ∈ own st id, m.live = true ∧ f.job.generation = generation := by
    intro job live holds
    cases job with
    | none => simp [show own st id = [] from holds]
    | some j =>
      obtain ⟨job,one,-,stamp⟩ := holds
      simp [one,live,stamp]
  cases tasked with
  | fresh live _ holds | live live _ _ _ holds => exact held _ live holds
  | stale _ _ _ none => simp [none]

theorem Tasked.mind {m' generation} (live : m'.live = m.live) (held : m'.held = m.held)
    (tasked : Tasked st m id generation) : Tasked st m' id generation := by
  cases tasked with
  | fresh up absent holds => exact .fresh (live.trans up) absent (held ▸ holds)
  | live up here connected stamp holds => exact .live (live.trans up) here connected stamp (held ▸ holds)
  | stale dead here gone none => exact .stale (live.trans dead) here gone none

theorem ownMember (one : own st id = [f]) : f ∈ flights st ∧ f.owner = id := by
  have member : f ∈ own st id := by simp [one]
  simpa [own] using member

theorem Awaited.of {st'} (phase : st'.phase = st.phase) (clients : st'.clients = st.clients)
    (tasks : engaged st' = engaged st) (awaited : Awaited st) : Awaited st' := by
  unfold Awaited Collected at awaited ⊢
  rw [phase,clients,tasks]
  exact awaited

theorem soundQuiet {p q act m' nextJob} (sound : Sound st log m) (busy : st.task = some (id,p))
    (quiet : ∀ j, chapter j act = none) (later : st.nextJob ≤ nextJob)
    (mind : m'.due = m.due ∧ m'.told = m.told ∧ m'.held = m.held ∧ m'.copying = m.copying)
    (made : ∀ j, m'.made = some j → j < nextJob ∧ story j log = []) {generation} (minds : Minds generation m' q)
    (tasked : Tasked st m' id generation) : Sound { st with nextJob, task := some (id,q) } (log ++ [act]) m' := by
  generalize after : { st with nextJob, task := some (id,q) } = st'
  have tasks : engaged st' = engaged st := by simp [← after,engaged,busy]
  have same : (flights st').Perm (flights st) := by rw [← after]; exact .refl _
  have clients : st'.clients = st.clients := by rw [← after]
  refine sound.frame clients (by rw [← after]) (by rw [← after]; exact later) tasks same quiet (fun d member => ?_)
    mind (by rw [← after]; exact made) ?_ (sound.awaited.of (by rw [← after]) clients tasks)
  · exact sound.posting act (by rwa [← after] at member)
  · have working : st'.task = some (id,q) := by rw [← after]
    rw [Working,working]
    exact ⟨generation,minds,tasked.perm (ownPerm same id) (congrFun clients id)⟩

theorem Airborne.some {job} (told : Airborne id job chapters) : chapters ≠ [] := by
  obtain ⟨announced,rfl,-⟩ := told
  simp [opening]

theorem Sound.old (sound : Sound st log m) (told : story j log ≠ []) :
    j < st.nextJob ∧ m.made ≠ some j := by
  constructor
  · by_contra new
    exact told (sound.unborn j (Nat.le_of_not_lt new))
  · exact fun new => told (sound.made j new).2

theorem soundDispatch {job} (sound : Sound st log m) (busy : st.task = some (id,p))
    (allowed : m.Allows generation (.dispatch job)) (tasked : Tasked st m id generation)
    (minds : Minds generation (m.note (.dispatch job) true) q) :
    Sound { st with queue := st.queue ++ [⟨id,job⟩], task := some (id,q) }
      (log ++ [.call id ⟨.dispatch job,true⟩]) (m.note (.dispatch job) true) := by
  obtain ⟨live,free,made,stamp⟩ := allowed
  generalize after : { st with queue := st.queue ++ [(⟨id,job⟩ : Flight)], task := some (id,q) } = st'
  have clients : st'.clients = st.clients := by rw [← after]
  have task : st'.task = some (id,q) := by rw [← after]
  have tasks : engaged st' = engaged st := by simp [engaged,busy,task]
  have split : (flights st').Perm (⟨id,job⟩ :: flights st) := by
    rw [← after]
    simp only [flights,drained,List.append_assoc,List.singleton_append]
    exact List.perm_middle
  obtain ⟨known,blank⟩ := sound.made job.id made
  have other : ∀ j, story j log ≠ [] → chapter j (.call id ⟨.dispatch job,true⟩) = none := by
    intro j told
    have differ : job.id ≠ j := by
      rintro rfl
      exact told blank
    simp [chapter,differ]
  have absent : ∀ f ∈ flights st, f.job.id ≠ job.id := by
    intro f member same
    exact (sound.flying f member).some (same ▸ blank)
  have owns : own st' id = [⟨id,job⟩] := by
    have none : own st id = [] := by
      cases tasked with
      | fresh _ _ holds | live _ _ _ _ holds => rwa [free] at holds
      | stale _ _ _ none => exact none
    have filtered := split.filter (·.owner = id)
    simp at filtered
    rw [show (flights st).filter (·.owner = id) = [] from none] at filtered
    exact List.perm_singleton.mp filtered
  refine ⟨?_,fun i free => ?_,?_,fun i later => ?_,fun f member => ?_,fun p pending => ?_,
    fun j gone calm => ?_,fun j _ held => ?_,fun j new => ?_,by simp [Mind.note],fun d member => ?_,?_⟩
  · rw [(split.map _).nodup_iff,List.map_cons,List.nodup_cons]
    exact ⟨by simpa using absent,sound.distinct⟩
  · have differ : id ≠ i := by
      rintro rfl
      exact free (by simp [engaged,task])
    have same : (own st' i).Perm (own st i) := by
      have filtered := split.filter (·.owner = i)
      simpa [own,differ] using filtered
    exact (sound.seats i (by rwa [tasks] at free)).perm same (congrFun clients i)
  · rw [Working,task]
    refine ⟨generation,minds,?_⟩
    have holds : Holds st' id generation (some job.id) := ⟨job,owns,rfl,stamp⟩
    cases tasked with
    | fresh up absent _ => exact .fresh up (by rw [clients,absent]) holds
    | live up here connected same _ => exact .live up (by rw [clients,here]) connected same holds
    | stale dead _ _ _ => simp [live] at dead
  · rw [clients,tasks]
    exact sound.coming i (by rwa [← after] at later)
  · rcases List.mem_cons.mp (split.mem_iff.mp member) with rfl | member
    · exact ⟨false,by simp [chapter,blank,opening],by simp⟩
    · have told := sound.flying f member
      simpa [other _ told.some] using told
  · obtain ⟨out,i,here,post,told⟩ := sound.due p pending
    refine ⟨fun f member same => ?_,i,by rw [tasks,here],by simp [post],by simpa [other _ told.some] using told⟩
    rcases List.mem_cons.mp (split.mem_iff.mp member) with rfl | member
    · rw [← same] at told
      exact told.some blank
    · exact out f member same
  · have differ : job.id ≠ j := gone ⟨id,job⟩ (split.mem_iff.mpr List.mem_cons_self)
    have before := sound.grounded j (fun f member => gone f (split.mem_iff.mpr (List.mem_cons_of_mem _ member))) calm
    simpa [chapter,differ] using before.of (.call id ⟨.dispatch job,true⟩) fun i left => left.of clients
  · obtain rfl : job.id = j := by simpa [Mind.note] using held
    exact ⟨id,job,by simp [chapter,blank],by simp [Mind.note]⟩
  · have differ : job.id ≠ j := by
      rintro rfl
      rw [← after] at new
      exact Nat.not_le_of_lt known new
    simpa [chapter,differ] using sound.unborn j (by rwa [← after] at new)
  · exact sound.posting _ (by rwa [← after] at member)
  · exact sound.awaited.of (by rw [← after]) clients tasks

theorem soundSaying {about m' new} (sound : Sound st log m) (busy : st.task = some (id,p))
    (minds : Minds generation m' q) (tasked : Tasked st m' id generation) (known : story j log ≠ [])
    (said : ∀ k, chapter k (.call id ⟨.send about text,()⟩) = if j = k then some new else none)
    (mind : m'.made = m.made ∧ m'.copying = m.copying)
    (flying : ∀ f ∈ flights st, f.job.id = j → Airborne f.owner f.job (story j log ++ [new]))
    (due : ∀ p, m'.due = some p → m.due = some p ∧ p.job.id ≠ j)
    (grounded : (∀ f ∈ flights st, f.job.id ≠ j) → (∀ p, m'.due = some p → p.job.id ≠ j) →
      Grounded st (log ++ [.call id ⟨.send about text,()⟩]) (story j log ++ [new]))
    (calm : ∀ k, k ≠ j → (∀ p, m'.due = some p → p.job.id ≠ k) → ∀ p, m.due = some p → p.job.id ≠ k)
    (telling : ∀ k, m'.told = false → m'.held = some k → k ≠ j ∧ m.told = false ∧ m.held = some k) :
    Sound { st with task := some (id,q) } (log ++ [.call id ⟨.send about text,()⟩]) m' := by
  have other : ∀ k, k ≠ j → story k (log ++ [.call id ⟨.send about text,()⟩]) = story k log := by
    intro k differ
    simp [said,differ.symm]
  have this : story j (log ++ [.call id ⟨.send about text,()⟩]) = story j log ++ [new] := by simp [said]
  obtain ⟨below,fresh⟩ := sound.old known
  generalize after : { st with task := some (id,q) } = st'
  have clients : st'.clients = st.clients := by rw [← after]
  have task : st'.task = some (id,q) := by rw [← after]
  have tasks : engaged st' = engaged st := by simp [engaged,busy,task]
  have same : flights st' = flights st := by rw [← after]; rfl
  have owns : ∀ i, (own st' i).Perm (own st i) := fun i => by rw [own,same,own]
  refine ⟨by rw [same]; exact sound.distinct,fun i free => ?_,?_,fun i later => ?_,fun f member => ?_,
    fun p pending => ?_,fun k gone quiet => ?_,fun k silent held => ?_,fun k unborn => ?_,fun k made => ?_,
    fun d member => sound.posting _ (by rwa [← after] at member),sound.awaited.of (by rw [← after]) clients tasks⟩
  · exact (sound.seats i (by rwa [tasks] at free)).perm (owns i) (congrFun clients i)
  · rw [Working,task]
    exact ⟨generation,minds,tasked.perm (owns id) (congrFun clients id)⟩
  · rw [clients,tasks]
    exact sound.coming i (by rwa [← after] at later)
  · rw [same] at member
    by_cases this_ : f.job.id = j
    · rw [this_,this]
      exact flying f member this_
    · rw [other _ this_]
      exact sound.flying f member
  · obtain ⟨before,differ⟩ := due p pending
    obtain ⟨absent,i,here,post,told⟩ := sound.due p before
    exact ⟨by rwa [same],i,by rw [tasks,here],by simp [post],by rwa [other _ differ]⟩
  · rw [same] at gone
    by_cases this_ : k = j
    · subst this_
      rw [this]
      exact (grounded gone quiet).state fun i left => left.of clients
    · rw [other k this_]
      exact (sound.grounded k gone (calm k this_ quiet)).of _ fun i left => left.of clients
  · obtain ⟨differ,before,holding⟩ := telling k silent held
    rw [other k differ,mind.2]
    exact sound.telling k before holding
  · rw [← after] at unborn
    have differ : k ≠ j := by
      rintro rfl
      exact Nat.not_le_of_lt below unborn
    rw [other k differ]
    exact sound.unborn k unborn
  rw [mind.1] at made
  have differ : k ≠ j := by
    rintro rfl
    exact fresh made
  rw [other k differ,← after]
  exact sound.made k made

theorem soundAnnounce (sound : Sound st log m)
    (busy : st.task = some (id,p)) (allowed : m.Allows generation (.send (.accepted j) text))
    (tasked : Tasked st m id generation) (minds : Minds generation (m.note (.send (.accepted j) text) ()) q) :
    Sound { st with task := some (id,q) } (log ++ [.call id ⟨.send (.accepted j) text,()⟩])
      (m.note (.send (.accepted j) text) ()) := by
  obtain ⟨live,held,quiet,plain⟩ := allowed
  obtain ⟨job,one,rfl,-⟩ := tasked.flight live held
  obtain ⟨here,-⟩ := ownMember one
  obtain ⟨announced,whole,-⟩ := sound.flying _ here
  obtain ⟨i,job',only,noCopy⟩ := sound.telling _ quiet held
  have begun : opening id job announced = [.dispatched i job'] := whole.symm.trans only
  obtain ⟨⟨rfl,rfl⟩,silent⟩ : (id = i ∧ job = job') ∧ announced = false := by
    cases announced with
    | false => simpa [opening] using begun
    | true => simp [opening] at begun
  have absent : ∀ p, m.due = some p → p.job.id ≠ job.id :=
    fun p pending same => (sound.due p pending).1 _ here same.symm
  refine soundSaying sound busy minds (@Tasked.mind st m id _ generation rfl rfl tasked) (by simp [only]) (fun k => rfl) ⟨rfl,rfl⟩ ?_
    (fun p pending => ⟨pending,absent p pending⟩) (fun gone _ => absurd rfl (gone _ here)) (fun k _ calm => calm)
    (by simp [Mind.note])
  intro f member same
  obtain rfl : f = ⟨id,job⟩ := List.inj_on_of_nodup_map sound.distinct member here same
  exact ⟨true,by simp [only,opening],fun _ => noCopy plain⟩

theorem soundFinal (sound : Sound st log m)
    (busy : st.task = some (id,p)) (allowed : m.Allows generation (.send (.finished j) text))
    (tasked : Tasked st m id generation) (minds : Minds generation (m.note (.send (.finished j) text) ()) q) :
    Sound { st with task := some (id,q) } (log ++ [.call id ⟨.send (.finished j) text,()⟩])
      (m.note (.send (.finished j) text) ()) := by
  obtain ⟨live,posted,pending,rfl,rfl⟩ := allowed
  obtain ⟨absent,i,here,post,told⟩ := sound.due posted pending
  obtain rfl : id = i := by simpa [engaged,busy] using here
  have over_ : Grounded st (log ++ [.call id ⟨.send (.finished posted.job.id) (finalText posted),()⟩])
      (story posted.job.id log ++ [.finished id (finalText posted)]) :=
    @Grounded.ended st _ ⟨id,posted⟩ _ (by simp [post]) told
  refine soundSaying sound busy minds (@Tasked.mind st m id _ generation rfl rfl tasked) told.some (fun k => rfl) ⟨rfl,rfl⟩
    (fun f member same => absurd same (absent f member)) (by simp [Mind.note]) (fun _ _ => over_) ?_ ?_
  · intro k differ _ p due
    obtain rfl : posted = p := by simpa [pending] using due
    exact differ.symm
  · intro k silent held
    obtain ⟨job,one,rfl,-⟩ := tasked.flight live held
    exact ⟨absent _ (ownMember one).1,silent,held⟩

theorem soundCall {call next answer} (sound : Sound st log m) (busy : st.task = some (id,.ask call next))
    (possible : Answers workers st call answer) :
    Sound { answered st id call answer with task := some (id,next answer) } (log ++ [.call id ⟨call,answer⟩])
      (m.note call answer) := by
  obtain ⟨generation,⟨allowed,later⟩,tasked⟩ := sound.engagedIn busy
  have after := later answer trivial
  have stay : ∀ act, (∀ j, chapter j act = none) → Minds generation m (next answer) →
      Sound { st with task := some (id,next answer) } (log ++ [act]) m := fun act quiet after =>
    soundQuiet sound busy quiet (Nat.le_refl _) ⟨rfl,rfl,rfl,rfl⟩ sound.made after tasked
  cases call with
  | newJob op =>
    have seated := @Tasked.mind st m id (m.note (.newJob op) answer) generation rfl rfl tasked
    rcases possible with rfl | rfl
    · exact soundQuiet sound busy (fun _ => rfl) (Nat.le_refl _) ⟨rfl,rfl,rfl,rfl⟩ (by simp [Mind.note]) after seated
    refine @soundQuiet st log m id _ _ _ _ (st.nextJob + 1) sound busy (fun _ => rfl) (Nat.le_succ _)
      ⟨rfl,rfl,rfl,rfl⟩ (fun j made => ?_) generation after seated
    obtain rfl : st.nextJob = j := by simpa [Mind.note] using made
    exact ⟨Nat.lt_succ_self _,sound.unborn _ (Nat.le_refl _)⟩
  | dispatch job =>
    cases answer with
    | false => exact stay _ (fun _ => rfl) after
    | true => exact soundDispatch sound busy allowed tasked after
  | send about text =>
    cases about with
    | accepted j => exact soundAnnounce sound busy allowed tasked after
    | finished j => exact soundFinal sound busy allowed tasked after
    | command | abort => exact stay _ (fun _ => rfl) after
  | _ => exact stay _ (fun _ => rfl) after

theorem Tasked.dead (tasked : Tasked st m id generation) (left : Left st id) : m.live = false := by
  obtain ⟨c,here,gone⟩ := left
  cases tasked with
  | fresh _ absent _ => simp [here] at absent
  | live _ there connected _ _ =>
    obtain rfl : c = _ := by simpa [here] using there
    simp [gone] at connected
  | stale dead _ _ _ => exact dead

theorem Left.finish {generation c i} (left : Left st i) (tasked : Tasked st m id generation)
    (leaves : m.Leaves generation c) : Left { st with clients := seated st id c, task := none } i := by
  by_cases this : i = id
  · subst this
    have dead := tasked.dead left
    rcases leaves with ⟨-,⟨live,-⟩ | ⟨gone,-⟩⟩
    · simp [dead] at live
    · exact ⟨c,by simp [seated],gone⟩
  · obtain ⟨c',here,gone⟩ := left
    exact ⟨c',by simpa [seated,this] using here,gone⟩

theorem soundFinish (sound : Sound st log m) (busy : st.task = some (id,.done c)) :
    Sound { st with clients := seated st id c, task := none } (log ++ [.finish id c]) .idle := by
  obtain ⟨generation,⟨calm,leaves⟩,tasked⟩ := sound.engagedIn busy
  generalize after : { st with clients := seated st id c, task := none } = st'
  have task : st'.task = none := by rw [← after]
  have idle : engaged st' = none := by simp [engaged,task]
  have here : st'.clients id = some c := by simp [← after,seated]
  have others : ∀ i, i ≠ id → st'.clients i = st.clients i := by
    intro i differ
    simp [← after,seated,differ]
  have same : flights st' = flights st := by rw [← after]; rfl
  have owns : ∀ i, own st' i = own st i := fun i => by rw [own,same,own]
  have left : ∀ i, Left st i → Left st' i := fun i gone => after ▸ gone.finish tasked ⟨calm,leaves⟩
  refine ⟨by rw [same]; exact sound.distinct,fun i _ => ?_,by rw [Working,task],fun i later => ?_,fun f member => ?_,
    by simp [Mind.idle],fun j absent _ => ?_,by simp [Mind.idle],fun j new => ?_,by simp [Mind.idle],
    fun d member => sound.posting _ (by rwa [← after] at member),?_⟩
  · by_cases this : i = id
    · subst this
      rcases leaves with ⟨live,connected,job,stamp⟩ | ⟨gone,free,stamp⟩
      · refine .taken here connected ?_
        rw [stamp,job]
        cases tasked with
        | fresh _ _ holds | live _ _ _ _ holds => exact holds.perm (by rw [owns])
        | stale dead _ _ _ => simp [live] at dead
      have past := tasked.past
      rw [← owns] at past
      refine .left here gone free past.1 fun f member => ?_
      obtain ⟨live,old⟩ := past.2 f member
      rw [live,if_pos rfl] at stamp
      rw [stamp,old]
      exact Nat.lt_succ_self _
    · exact (sound.seats i (by simpa [engaged,busy] using Ne.symm this)).perm (by rw [owns]) (others i this)
  · have coming := sound.coming i (by rwa [← after] at later)
    have differ : i ≠ id := by
      rintro rfl
      exact coming.2 (by simp [engaged,busy])
    exact ⟨by rw [others i differ,coming.1],by simp [idle]⟩
  · rw [same] at member
    simpa [chapter] using sound.flying f member
  · rw [same] at absent
    have before := sound.grounded j absent (by simp [calm])
    simpa [chapter] using before.of (.finish id c) left
  · simpa [chapter] using sound.unborn j (by rwa [← after] at new)
  have awaited := sound.awaited
  have phase : st'.phase = st.phase := by rw [← after]
  unfold Awaited at awaited ⊢
  rw [phase]
  cases at_ : st.phase with
  | serving left =>
    rw [at_] at awaited
    obtain ⟨⟨once,ready⟩,free⟩ := awaited
    refine ⟨⟨once,fun i member => ?_⟩,by simp [idle]⟩
    have differ : i ≠ id := by
      rintro rfl
      exact free i (by simp [engaged,busy]) member
    rw [others i differ]
    exact ready i member
  | waiting | draining _ => trivial

end Calls

theorem soundStep {workers s st st' log m act} (sound : Sound st log m) (step : Step workers s st act st') :
    ∃ m', Sound st' (log ++ [act]) m' := by
  cases step with
  | wake _ at_ => exact ⟨m,soundWake sound at_⟩
  | complete idle at_ owner => exact soundComplete sound idle at_ owner
  | collect idle at_ collected => exact ⟨m,soundCollect sound idle at_ collected⟩
  | event root received idle at_ owner => exact ⟨_,soundEvent root received sound idle at_ owner⟩
  | accept idle at_ => exact ⟨_,soundAccept sound idle at_⟩
  | accepted idle at_ => exact ⟨m,soundAccepted sound idle at_⟩
  | served _ at_ => exact ⟨m,soundServed sound at_⟩
  | call answer busy possible => exact ⟨_,soundCall sound busy possible⟩
  | finish busy => exact ⟨_,soundFinish sound busy⟩
  | take waiting _ => exact ⟨m,soundTake sound waiting⟩
  | post busy run => exact ⟨m,soundPost sound busy run⟩

theorem soundStart {st} (start : Start st) : Sound st [] .idle := by
  obtain ⟨clients,queue,running,completions,phase,task⟩ := start
  have none : flights st = [] := by simp [flights,drained,queue,running,completions,phase]
  have idle : engaged st = Option.none := by simp [engaged,task]
  refine ⟨by simp [none],fun id _ => .empty (clients id) (by simp [own,none]),by rw [Working,task],
    fun id _ => ⟨clients id,by simp [idle]⟩,by simp [none],by simp [Mind.idle],fun _ _ _ => .unborn,
    by simp [Mind.idle],fun _ _ => rfl,by simp [Mind.idle],by simp [drained,completions,phase],?_⟩
  rw [Awaited,phase]
  trivial

theorem soundReached {workers s now} (reached : (reactor workers s).logged.Reached now) :
    ∃ m, Sound now.1 now.2 m := by
  refine System.invariant (P := fun now => ∃ m, Sound now.1 now.2 m) ?_ ?_ reached
  · rintro ⟨st,log⟩ ⟨start,rfl⟩
    exact ⟨.idle,soundStart start⟩
  · rintro ⟨st,log⟩ act ⟨st',log'⟩ ⟨m,sound⟩ - ⟨step,rfl⟩
    exact soundStep sound step

end OpenPs3Ftp.Reactor
