import OpenPs3Ftp.Commands.Powers
import OpenPs3Ftp.Reactor.Safety
import OpenPs3Ftp.Service.Machine

/-! The references to a client. At any time they are those of the reactor's list, of the
dispatched jobs and of the lines on their way, and what the reactor's current task
holds besides. -/
namespace OpenPs3Ftp.Service
open Lib Text Fs Session Commands Dispatch Events Worker Reactor Program
open Act (lands launches)

section Tasks
variable {s : Server} {post : Client → Prop} {c : Client}

theorem keepingClose {fd k} (next : Keeping s post none (k ())) : Keeping s post none (closeSome fd >>= k) := by
  cases fd with
  | none => exact next
  | some fd => exact keepingCall (by trivial) fun _ => next

theorem disconnectKeeping (c) : Keeping s (· = gone c) none (clientDisconnect c) := by
  have closing : Keeping s (· = gone c) none (closeSome c.pasvFd >>= fun _ => pure (gone c)) := keepingClose ⟨rfl,rfl⟩
  unfold clientDisconnect
  cases c.job with
  | none => exact closing
  | some job => exact keepingCall (by trivial) fun _ => closing

theorem urgentKeeping (plain : c.tlsHandshaking = false) :
    Keeping s (·.tlsHandshaking = false) none (urgentAbort s c) := by
  unfold urgentAbort
  rw [Keeping,meetsBind]
  refine dispatchMeets (fun unknown => ?_) fun command found => ⟨trivial,?_⟩
  · rw [lookupAbor] at unknown
    cases unknown
  obtain rfl : command = .abor := Option.some.inj (found.symm.trans (lookupAbor s))
  rw [Command.run,cmdAbor]
  split <;> exact ⟨trivial,fun _ _ => ⟨rfl,plain⟩⟩

theorem eventKeeping (revents received c) : Custody s (handleClientEvents s revents received c) := by
  have rule := @eventMeets _ (fun _ _ => True) custody (Careful s) s (fun held _ => held = none)
  refine rule (fun _ _ _ kept => kept) (fun _ _ kept => kept) ?_ rfl ?_ ?_ ?_
  · rintro held c text rfl -
    refine lineMeets text rfl (fun _ => ⟨trivial,rfl⟩) fun name param command found _ => ⟨trivial,?_⟩
    exact meetsMono (fun _ _ left => left.1) (custodyRun found c param)
  · exact fun _ plain => urgentKeeping plain
  · exact fun _ => ⟨trivial,fun result => ⟨rfl,fun _ => rfl⟩⟩
  rintro held c rfl
  refine meetsIte.mpr ⟨fun _ => ?_,fun _ => ⟨rfl,trivial⟩⟩
  exact meetsMono (fun _ _ left => ⟨left.1,trivial⟩) (disconnectKeeping c)

theorem acceptKeeping (peer) : Keeping s (·.connected = true) none (acceptClient s peer) :=
  acceptMeets peer (fun _ => ⟨trivial,fun _ => rfl⟩) fun _ => ⟨rfl,rfl⟩

theorem completeKeeping (p c) :
    Keeping s (fun c' => c'.connected = c.connected ∧ c'.generation = c.generation) none (datachanComplete p c) := by
  unfold datachanComplete closeJob
  rw [bindAssoc]
  refine keepingClose (keepingClose ?_)
  refine meetsIte.mpr ⟨fun _ => ⟨rfl,rfl,rfl⟩,fun _ => keepingCall (by trivial) fun _ => ?_⟩
  exact meetsIte.mpr ⟨fun _ => keepingCall (by trivial) fun _ => ⟨rfl,rfl,rfl⟩,fun _ => ⟨rfl,rfl,rfl⟩⟩

end Tasks

variable {peer : SockAddr} {peers : List SockAddr} {left : List Ready} {c : Client}

section Core
variable {s : Server} {core : Reactor.State} {log : List Act} {m : Mind}

theorem soundWaiting (sound : Sound core log m) (empty : drained core = []) :
    Sound { core with phase := .waiting } (log ++ [.served]) m :=
  sound.turn (Nat.le_refl _) (fun _ => rfl) empty.symm trivial

theorem soundRefuse (sound : Sound core log m)
    (idle : core.task = none) (ready : core.phase = .serving (.listener (peer :: peers) :: left)) :
    Sound { core with phase := .serving (.listener peers :: left), nextClient := core.nextClient + 1 }
      (log ++ [.accepted]) m := by
  have collected := sound.ready ready
  exact sound.turn (Nat.le_succ _) (fun _ => rfl) (by simp [drained,ready]) ⟨collected,by simp [engaged,idle]⟩

theorem disconnectMinds (c) : Minds c.generation (.holding c.job) (clientDisconnect c) := by
  have leaves : Mind.Leaves c.generation (.holding c.job) (gone c) := ⟨rfl,.inr ⟨rfl,rfl,rfl⟩⟩
  have closing : Minds c.generation (.holding c.job) (closeSome c.pasvFd >>= fun _ => pure (gone c)) := by
    cases c.pasvFd with
    | none => exact leaves
    | some fd => exact ⟨trivial,fun _ _ => leaves⟩
  unfold clientDisconnect
  generalize Mind.holding c.job = m at closing ⊢
  cases c.job with
  | none => exact closing
  | some job => exact ⟨trivial,fun _ _ => closing⟩

theorem soundDrop {id} (sound : Sound core log m) (idle : core.task = none) (at_ : core.phase = .waiting)
    (owner : core.clients id = some c) (here : c.connected = true) :
    Sound { core with task := some (id,clientDisconnect c) } (log ++ [.served]) (.holding c.job) := by
  have holds : Holds core id c.generation c.job := by
    cases sound.resting idle id with
    | empty absent _ => simp [owner] at absent
    | taken there _ holds =>
      obtain rfl : c = _ := by simpa [owner] using there
      exact holds
    | left there gone _ _ _ =>
      obtain rfl : c = _ := by simpa [owner] using there
      simp [here] at gone
  have known : id < core.nextClient := by
    by_contra later
    have absent := (sound.coming id (Nat.le_of_not_lt later)).1
    simp [owner] at absent
  refine sound.begin idle rfl rfl (Nat.le_refl _) known rfl (.refl _) (fun _ => rfl) (fun d member => member) ?_
    (disconnectMinds c) (.live rfl owner here rfl holds) ⟨rfl,rfl,rfl⟩
  rw [Awaited,show ({ core with task := some (id,clientDisconnect c) } : Reactor.State).phase = .waiting from at_]
  trivial

end Core

def Staged (st : State) : Prop :=
  match st.place with
  | .completing _ => ∃ left, st.core.phase = .draining left
  | .serving _ => ∃ left, st.core.phase = .serving left
  | _ => st.core.phase = .waiting

variable {workers : Nat} {s : Server} {st : State}

theorem stagedCore {act core} (staged : Staged st) (fits : Fits st.place act)
    (step : Reactor.Step workers s st.core act core) : Staged (after st act core) := by
  cases step with
  | wake idle at_ =>
    obtain ⟨point,place,-⟩ := fits
    simp [Staged,after,moved,place]
  | complete idle at_ owner =>
    obtain ⟨point,place⟩ := fits
    simp [Staged,after,moved,place]
  | collect idle at_ collected | event root received idle at_ owner => exact ⟨_,rfl⟩
  | accept idle at_ | accepted idle at_ =>
    have place : st.place = .serving false := fits
    simp [Staged,after,moved,place]
  | served idle at_ => exact rfl
  | call answer busy possible =>
    unfold Staged at staged ⊢
    simpa [after,moved] using staged
  | finish busy | take waiting free | post busy run => exact staged

variable {move : Move}

theorem stagedStep {st'} (staged : Staged st) (step : Step workers s st move st') : Staged st' := by
  cases step with
  | core fits step => exact stagedCore staged fits step
  | poll outcome at_ going | leave at_ asked | grab at_ | closed at_ | dropped at_ idle none_ | drop at_ idle owner here first =>
    unfold Staged at staged ⊢
    simpa [at_] using staged
  | reply at_ owner =>
    unfold Staged at staged ⊢
    simpa [at_,release] using staged
  | look at_ idle =>
    split
    · exact rfl
    · unfold Staged at staged
      rw [at_] at staged
      exact staged
  | broke at_ idle empty | drained at_ idle empty => exact rfl
  | refuse at_ idle ready => simp [Staged,release,at_]
  | stamp p reads | retain held | link held | stop => exact staged

theorem Staged.served {st look} (staged : Staged st) (at_ : st.place = .serving look) : drained st.core = [] := by
  unfold Staged at staged
  rw [at_] at staged
  obtain ⟨left,phase⟩ := staged
  simp [drained,phase]

def Even (st : State) : Prop := (∃ log m, Sound st.core log m) ∧ Staged st

theorem evenStart (start : Start st) : Even st := by
  obtain ⟨begun,-,at_,-⟩ := start
  refine ⟨⟨_,_,soundStart begun⟩,?_⟩
  unfold Staged
  rw [at_]
  exact begun.2.2.2.2.1

theorem evenStep {st'} (even : Even st) (step : Step workers s st move st') : Even st' := by
  obtain ⟨⟨log,m,sound⟩,staged⟩ := even
  refine ⟨?_,stagedStep staged step⟩
  cases step with
  | core fits step => exact ⟨_,soundStep sound step⟩
  | look at_ idle =>
    split
    · exact ⟨_,m,soundWaiting sound (staged.served at_)⟩
    · exact ⟨_,_,sound⟩
  | broke at_ idle phase | drained at_ idle phase => exact ⟨_,m,soundWaiting sound (by simp [drained,phase])⟩
  | drop at_ idle owner here first =>
    unfold Staged at staged
    rw [at_] at staged
    exact ⟨_,_,soundDrop sound idle staged owner here⟩
  | refuse at_ idle ready => exact ⟨_,m,soundRefuse sound idle ready⟩
  | _ => exact ⟨_,_,sound⟩

def bonus : Place → Nat
  | .completing _ | .serving false => 1
  | _ => 0

def spare (st : State) (held : Option JobId) (id : ClientId) : Nat :=
  match st.core.task with
  | none => 0
  | some (owner,_) => if owner = id then held.toList.length + bonus st.place else 0

def total (st : State) (held : Option JobId) (id : ClientId) : Nat :=
  (listed st.core id).toNat + (own st.core id).length + (naming id (lines st)).length + spare st held id

inductive Bearing (s : Server) (st : State) : Option JobId → Prop where
  | idle (none_ : st.core.task = none) : Bearing s st none
  | completing {id p c held point} (busy : st.core.task = some (id,p)) (at_ : st.place = .completing point)
      (owner : st.core.clients id = some c)
      (keeping : Keeping s (fun c' => c'.connected = c.connected ∧ c'.generation = c.generation) held p) :
      Bearing s st held
  | accepting {id p held} (busy : st.core.task = some (id,p)) (at_ : st.place = .serving false)
      (absent : st.core.clients id = none) (keeping : Keeping s (·.connected = true) held p) : Bearing s st held
  | serving {id p c held} (busy : st.core.task = some (id,p)) (at_ : st.place = .serving true)
      (owner : st.core.clients id = some c) (here : c.connected = true) (keeping : Keeping s (fun _ => True) held p) :
      Bearing s st held
  | dropping {id p c held} (busy : st.core.task = some (id,p)) (at_ : st.place = .dropping)
      (owner : st.core.clients id = some c) (here : c.connected = true) (keeping : Keeping s (· = gone c) held p) :
      Bearing s st held

def Lives (next : Nat) (refs : ClientId → Int) (freed : ClientId → Nat) : Prop :=
  ∀ id : Nat, (next ≤ id → refs id = 0) ∧ freed id = if id < next ∧ refs id = 0 then 1 else 0

structure Tally (s : Server) (st : State) (held : Option JobId) : Prop where
  bearing : Bearing s st held
  count : ∀ id, st.refs id = total st held id
  lives : Lives st.core.nextClient st.refs st.freed

section Lives
variable {next : Nat} {st : State} {id : Nat}

variable (lives : Lives next st.refs st.freed)
include lives

theorem Lives.known (positive : 0 < st.refs id) : id < next := by
  by_contra later
  have none := (lives id).1 (Nat.le_of_not_lt later)
  omega

theorem Lives.retain (positive : 0 < st.refs id) :
    Lives next (retain st id).refs (retain st id).freed := by
  have known := lives.known positive
  intro other
  obtain ⟨unborn,freed⟩ := lives other
  by_cases same : other = id
  · subst same
    simp [Service.retain]
    refine ⟨fun later => absurd known (Nat.not_lt_of_le later),?_⟩
    rw [freed,if_neg (by omega),if_neg (by omega)]
  · simpa only [Service.retain,Function.update_of_ne same] using ⟨unborn,freed⟩

theorem Lives.release (positive : 0 < st.refs id) :
    Lives next (release st id).refs (release st id).freed := by
  have known := lives.known positive
  intro other
  obtain ⟨unborn,freed⟩ := lives other
  by_cases same : other = id
  · subst same
    simp [Service.release]
    refine ⟨fun later => absurd known (Nat.not_lt_of_le later),?_⟩
    by_cases last : st.refs other = 1
    · rw [if_pos last,Function.update_self,freed,if_neg (by omega),if_pos ⟨known,by omega⟩]
    · rw [if_neg last,freed,if_neg (by omega),if_neg (by omega)]
  simp [Service.release,Function.update_of_ne same]
  refine ⟨unborn,?_⟩
  split
  · rw [Function.update_of_ne same,freed]
  · exact freed

theorem Lives.born : Lives (next + 1) (Function.update st.refs next 1) st.freed := by
  intro other
  obtain ⟨unborn,freed⟩ := lives other
  by_cases same : other = next
  · subst same
    exact ⟨fun later => by omega,by rw [freed,if_neg fun h => Nat.lt_irrefl _ h.1,if_neg (by simp)]⟩
  rw [Function.update_of_ne same]
  refine ⟨fun later => unborn (by omega),?_⟩
  rw [freed]
  exact if_congr (by omega) rfl rfl

end Lives

variable {log : List Act} {m : Mind}

section Tally
variable {workers : Nat} {s : Server} {st st' : State} {held held' : Option JobId} {act : Act} {core : Reactor.State}
  {id : ClientId}

theorem Tally.same (tally : Tally s st held) (bearing : Bearing s st' held')
    (refs : st'.refs = st.refs) (freed : st'.freed = st.freed) (next : st'.core.nextClient = st.core.nextClient)
    (still : ∀ id, total st' held' id = total st held id) : Tally s st' held' where
  bearing := bearing
  count id := by rw [refs,tally.count,still]
  lives := by
    rw [refs,freed,next]
    exact tally.lives

theorem Tally.more (id : ClientId) (tally : Tally s st held) (bearing : Bearing s st' held')
    (refs : st'.refs = (retain st id).refs) (freed : st'.freed = st.freed)
    (next : st'.core.nextClient = st.core.nextClient) (positive : 0 < st.refs id)
    (grown : ∀ other, total st' held' other = total st held other + if other = id then 1 else 0) :
    Tally s st' held' where
  bearing := bearing
  count other := by
    rw [refs,grown,retain]
    by_cases same : other = id
    · subst same
      simp [tally.count]
    · simp [same,tally.count]
  lives := by
    rw [refs,freed,next]
    exact tally.lives.retain positive

theorem Tally.less (id : ClientId) (tally : Tally s st held) (bearing : Bearing s st' held')
    (refs : st'.refs = (release st id).refs) (freed : st'.freed = (release st id).freed)
    (next : st'.core.nextClient = st.core.nextClient)
    (shrunk : ∀ other, total st' held' other + (if other = id then 1 else 0) = total st held other) :
    Tally s st' held' where
  bearing := bearing
  count other := by
    have before := shrunk other
    rw [refs,release]
    by_cases same : other = id
    · subst same
      rw [if_pos rfl] at before
      simp only [Function.update_self,tally.count,← before]
      omega
    · rw [if_neg same] at before
      simp only [Function.update_of_ne same,tally.count,← before]
      rfl
  lives := by
    have before := shrunk id
    rw [if_pos rfl] at before
    rw [refs,freed,next]
    refine tally.lives.release ?_
    rw [tally.count,← before]
    omega

theorem totalIdle (idle : st.core.task = none) (held id) :
    total st held id = (listed st.core id).toNat + (own st.core id).length + (naming id (lines st)).length := by
  simp [total,spare,idle]

theorem inHandAfter (fits : Fits st.place act) : inHand (after st act core) = inHand st := by
  cases act with
  | wake =>
    obtain ⟨point,at_,-⟩ := fits
    simp [inHand,after,moved,at_]
  | collect ready =>
    have at_ : st.place = .completing (.round .ready) := fits
    simp [inHand,after,moved,at_]
  | event | served =>
    have at_ : st.place = .serving false := fits
    simp [inHand,after,moved,at_]
  | _ => rfl

theorem countedLines : (counted st act).stamped = st.stamped ∧ (counted st act).retained = st.retained ∧
    (counted st act).linked = st.linked := by
  unfold counted
  split
  · exact ⟨rfl,rfl,rfl⟩
  · split <;> exact ⟨rfl,rfl,rfl⟩
  · exact ⟨rfl,rfl,rfl⟩
  · exact ⟨rfl,rfl,rfl⟩
  · split <;> exact ⟨rfl,rfl,rfl⟩
  · exact ⟨rfl,rfl,rfl⟩

theorem linesAfter (fits : Fits st.place act) : lines (after st act core) = lines st := by
  rw [lines,inHandAfter fits,lines]
  simp [after,countedLines]

theorem ownAfter (step : Reactor.Step workers s st.core act core) (id) :
    (own core id).length + (act.lands.filter (·.owner = id)).length =
      (own st.core id).length + (act.launches.filter (·.owner = id)).length := by
  have same := ((flightsStep step).filter (·.owner = id)).length_eq
  simp at same
  simp [own]
  omega

theorem spareBusy {p} (busy : st.core.task = some (id,p)) (other) :
    spare st held other = if id = other then held.toList.length + bonus st.place else 0 := by
  rw [spare,busy]

theorem totalBusy {p} (busy : st.core.task = some (id,p)) (held other) :
    total st held other = (listed st.core other).toNat + (own st.core other).length +
      (naming other (lines st)).length + if id = other then held.toList.length + bonus st.place else 0 := by
  rw [total,spareBusy busy]

theorem listedOf (clients : st'.core.clients = st.core.clients) : listed st'.core = listed st.core := by
  funext other
  rw [listed,clients,listed]

theorem Tally.engaged {p} (tally : Tally s st held) (busy : st.core.task = some (id,p)) : 0 < st.refs id := by
  have here : 0 < (listed st.core id).toNat + bonus st.place := by
    cases tally.bearing with
    | idle none_ => simp [busy] at none_
    | completing _ at_ _ _ | accepting _ at_ _ _ => simp [at_,bonus]
    | serving busy' _ owner here _ | dropping busy' _ owner here _ =>
      obtain ⟨rfl,-⟩ := somePair busy busy'
      have member : listed st.core id = true := by simp [listed,owner,here]
      rw [member]
      exact Nat.add_pos_left Nat.one_pos _
  rw [tally.count,total,spareBusy busy,if_pos rfl]
  omega

theorem Bearing.of (bearing : Bearing s st held) (task : st'.core.task = st.core.task)
    (clients : st'.core.clients = st.core.clients) (place : st'.place = st.place) : Bearing s st' held := by
  cases bearing with
  | idle none_ => exact .idle (task.trans none_)
  | completing busy at_ owner keeping =>
    exact .completing (task.trans busy) (place.trans at_) (by rw [clients,owner]) keeping
  | accepting busy at_ absent keeping =>
    exact .accepting (task.trans busy) (place.trans at_) (by rw [clients,absent]) keeping
  | serving busy at_ owner here keeping =>
    exact .serving (task.trans busy) (place.trans at_) (by rw [clients,owner]) here keeping
  | dropping busy at_ owner here keeping =>
    exact .dropping (task.trans busy) (place.trans at_) (by rw [clients,owner]) here keeping

theorem Bearing.call {call next} (answer) (bearing : Bearing s st held)
    (busy : st.core.task = some (id,.ask call next)) (task : st'.core.task = some (id,next answer))
    (clients : st'.core.clients = st.core.clients) (place : st'.place = st.place) :
    Careful s held call ∧ Bearing s st' (custody held call answer) := by
  have same : ∀ {other p}, st.core.task = some (other,p) → id = other ∧ Program.ask call next = p := fun busy' =>
    somePair busy busy'
  cases bearing with
  | idle none_ => simp [busy] at none_
  | completing busy' at_ owner keeping =>
    obtain ⟨rfl,rfl⟩ := same busy'
    exact ⟨keeping.1,.completing task (place.trans at_) (by rw [clients,owner]) (keeping.2 answer trivial)⟩
  | accepting busy' at_ absent keeping =>
    obtain ⟨rfl,rfl⟩ := same busy'
    exact ⟨keeping.1,.accepting task (place.trans at_) (by rw [clients,absent]) (keeping.2 answer trivial)⟩
  | serving busy' at_ owner here keeping =>
    obtain ⟨rfl,rfl⟩ := same busy'
    exact ⟨keeping.1,.serving task (place.trans at_) (by rw [clients,owner]) here (keeping.2 answer trivial)⟩
  | dropping busy' at_ owner here keeping =>
    obtain ⟨rfl,rfl⟩ := same busy'
    exact ⟨keeping.1,.dropping task (place.trans at_) (by rw [clients,owner]) here (keeping.2 answer trivial)⟩

theorem tallyCall {call next answer} (tally : Tally s st held) (busy : st.core.task = some (id,.ask call next))
    (possible : Answers workers st.core call answer) :
    Tally s (after st (.call id ⟨call,answer⟩) { answered st.core id call answer with task := some (id,next answer) })
      (custody held call answer) := by
  have step : Reactor.Step workers s st.core (.call id ⟨call,answer⟩) _ := .call answer busy possible
  have owns := ownAfter step
  generalize now : { answered st.core id call answer with task := some (id,next answer) } = core at owns ⊢
  have clients : core.clients = st.core.clients := by simp [← now]
  have nextClient : core.nextClient = st.core.nextClient := by simp [← now]
  obtain ⟨careful,bearing⟩ := @Bearing.call s st (after st (.call id ⟨call,answer⟩) core) held id call next answer
    tally.bearing busy (by rw [← now]; rfl) clients rfl
  have before := totalBusy busy held
  have after_ : ∀ other, total (after st (.call id ⟨call,answer⟩) core) (custody held call answer) other =
      (listed st.core other).toNat + (own core other).length + (naming other (lines st)).length +
        if id = other then (custody held call answer).toList.length + bonus st.place else 0 := fun other => by
    rw [@totalBusy (after st (.call id ⟨call,answer⟩) core) id (next answer) (by rw [← now]; rfl)]
    rw [linesAfter (show Fits st.place (.call id ⟨call,answer⟩) from trivial)]
    rw [@listedOf st (after st (.call id ⟨call,answer⟩) core) clients]
    rfl
  have steady : custody held call answer = held → (Act.call id ⟨call,answer⟩).launches = [] →
      (counted st (.call id ⟨call,answer⟩)).refs = st.refs → (counted st (.call id ⟨call,answer⟩)).freed = st.freed →
      Tally s (after st (.call id ⟨call,answer⟩) core) (custody held call answer) := by
    intro kept grounded refs freed
    refine tally.same bearing refs freed nextClient fun other => ?_
    have own := owns other
    rw [before,after_,kept]
    simp [grounded,lands] at own
    rw [own]
  cases call with
  | newJob op =>
    obtain rfl : held = none := careful
    cases answer with
    | none => exact steady rfl rfl rfl rfl
    | some job =>
      refine tally.more id bearing rfl rfl nextClient (tally.engaged busy) fun other => ?_
      have own := owns other
      simp [launches,lands] at own
      rw [before,after_,own,custody]
      by_cases same : id = other
      · simp [same]
        omega
      · simp [same,Ne.symm same]
  | dispatch job =>
    obtain rfl : held = some job.id := careful
    cases answer with
    | false => exact steady rfl rfl rfl rfl
    | true =>
      refine tally.same bearing rfl rfl nextClient fun other => ?_
      have own := owns other
      simp [launches,lands] at own
      rw [before,after_,own,custody]
      by_cases same : id = other
      · simp [same]
        omega
      · simp [same]
  | freeJob job =>
    obtain rfl : held = some job := careful
    refine tally.less id bearing rfl rfl nextClient fun other => ?_
    have own := owns other
    simp [launches,lands] at own
    rw [before,after_,own,custody]
    by_cases same : id = other
    · simp [same]
      omega
    · simp [same,Ne.symm same]
  | _ => exact steady rfl rfl rfl rfl

theorem listedSeated (core c other) :
    listed { core with clients := seated core id c, task := none } other =
      if other = id then c.connected else listed core other := by
  by_cases same : other = id <;> simp [listed,seated,same]

theorem eventLeaves {c'} (sound : Sound st.core log m) (busy : st.core.task = some (id,.done c'))
    (owner : st.core.clients id = some c) (here : c.connected = true) :
    c'.connected = true ∧ c'.generation = c.generation ∨ c'.connected = false ∧ c'.generation = c.generation + 1 := by
  obtain ⟨generation,⟨-,leaves⟩,tasked⟩ := sound.engagedIn busy
  cases tasked with
  | fresh _ absent _ => simp [owner] at absent
  | stale _ there gone _ =>
    obtain rfl : c = _ := by simpa [owner] using there
    simp [here] at gone
  | live live there _ same _ =>
    obtain rfl : c = _ := by simpa [owner] using there
    rw [same,← live]
    rcases leaves with ⟨-,connected,-,stamp⟩ | ⟨gone,-,stamp⟩
    · exact .inl ⟨connected.trans live.symm,stamp⟩
    · rw [live,if_pos rfl] at stamp
      exact .inr ⟨gone,stamp⟩

theorem tallyFinish (tally : Tally s st held) (sound : Sound st.core log m)
    (busy : st.core.task = some (id,.done c)) :
    Tally s (after st (.finish id c) { st.core with clients := seated st.core id c, task := none }) none := by
  have now : ∀ other, total (after st (.finish id c) { st.core with clients := seated st.core id c, task := none }) none
      other = (if other = id then c.connected else listed st.core other).toNat + (own st.core other).length +
        (naming other (lines st)).length := fun other => by
    rw [totalIdle rfl,linesAfter (show Fits st.place (.finish id c) from trivial)]
    rw [show listed (after st (.finish id c) _).core other = _ from listedSeated st.core c other]
    rfl
  have same : ∀ {other p}, st.core.task = some (other,p) → id = other ∧ Program.done c = p := fun busy' =>
    somePair busy busy'
  have drops : releases st id c = true →
      c.connected.toNat + 1 = (listed st.core id).toNat + (held.toList.length + bonus st.place) →
      Tally s (after st (.finish id c) { st.core with clients := seated st.core id c, task := none }) none := by
    intro last balance
    refine tally.less id (.idle rfl) (by simp [after,counted,last]) (by simp [after,counted,last]) rfl fun other => ?_
    rw [totalBusy busy,now]
    by_cases mine : other = id
    · subst mine
      simp only [if_true]
      omega
    · simp [mine,Ne.symm mine]
  have stays : releases st id c = false →
      c.connected.toNat = (listed st.core id).toNat + (held.toList.length + bonus st.place) →
      Tally s (after st (.finish id c) { st.core with clients := seated st.core id c, task := none }) none := by
    intro last balance
    refine tally.same (.idle rfl) (by simp [after,counted,last]) (by simp [after,counted,last]) rfl fun other => ?_
    rw [totalBusy busy,now]
    by_cases mine : other = id
    · subst mine
      simp only [if_true]
      omega
    · simp [mine,Ne.symm mine]
  cases tally.bearing with
  | idle none_ => simp [busy] at none_
  | completing busy' at_ owner keeping =>
    obtain ⟨rfl,rfl⟩ := same busy'
    obtain ⟨rfl,connected,-⟩ := keeping
    exact drops (by simp [releases,at_]) (by simp [at_,bonus,connected,listed,owner])
  | accepting busy' at_ absent keeping =>
    obtain ⟨rfl,rfl⟩ := same busy'
    obtain ⟨rfl,connected⟩ := keeping
    exact stays (by simp [releases,at_,absent]) (by simp [at_,bonus,connected,listed,absent])
  | serving busy' at_ owner here keeping =>
    obtain ⟨rfl,rfl⟩ := same busy'
    obtain ⟨rfl,-⟩ := keeping
    rcases eventLeaves sound busy owner here with ⟨connected,stamp⟩ | ⟨gone,stamp⟩
    · exact stays (by simp [releases,at_,owner,stamp]) (by simp [at_,bonus,connected,listed,owner,here])
    · exact drops (by simp [releases,at_,owner,stamp]) (by simp [at_,bonus,gone,listed,owner,here])
  | dropping busy' at_ owner here keeping =>
    obtain ⟨rfl,rfl⟩ := same busy'
    obtain ⟨rfl,rfl⟩ := keeping
    exact drops (by simp [releases,at_,owner,gone]) (by simp [at_,bonus,gone,listed,owner,here])

theorem Bearing.calm (bearing : Bearing s st held) (completing : ∀ point, st.place ≠ .completing point)
    (serving : ∀ look, st.place ≠ .serving look) (dropping : st.place ≠ .dropping) : st.core.task = none := by
  cases bearing with
  | idle none_ => exact none_
  | completing _ at_ => exact absurd at_ (completing _)
  | accepting _ at_ | serving _ at_ => exact absurd at_ (serving _)
  | dropping _ at_ => exact absurd at_ dropping

section Moves
variable (tally : Tally s st held)
include tally

theorem tallyRest (fits : Fits st.place act) (step : Reactor.Step workers s st.core act core)
    (idle : st.core.task = none) (still : core.task = none) (clients : core.clients = st.core.clients)
    (nextClient : core.nextClient = st.core.nextClient) (plain : counted st act = st)
    (quiet : act.launches = [] ∧ act.lands = []) : Tally s (after st act core) none := by
  refine tally.same (.idle still) (by simp [after,plain]) (by simp [after,plain])
    nextClient fun other => ?_
  have owns := ownAfter step other
  simp [quiet] at owns
  rw [totalIdle still,totalIdle idle,linesAfter fits,@listedOf st (after st act core) clients]
  exact congrArg (fun n => _ + n + _) owns

theorem tallyPool (fits : Fits st.place act) (step : Reactor.Step workers s st.core act core)
    (task : core.task = st.core.task) (clients : core.clients = st.core.clients)
    (nextClient : core.nextClient = st.core.nextClient) (plain : counted st act = st) (stays : moved st.place act = st.place)
    (quiet : act.launches = [] ∧ act.lands = []) : Tally s (after st act core) held := by
  have place : (after st act core).place = st.place := stays
  refine tally.same (tally.bearing.of task clients place) (by simp [after,plain])
    (by simp [after,plain]) nextClient fun other => ?_
  have owns := ownAfter step other
  simp [quiet] at owns
  have spares : spare (after st act core) held other = spare st held other := by
    rw [spare,spare,place,show (after st act core).core.task = st.core.task from task]
  rw [total,total,spares,linesAfter fits,@listedOf st (after st act core) clients]
  exact congrArg (fun n => _ + n + _ + _) owns

theorem tallyComplete {d left} (fits : Fits st.place (.complete d))
    (idle : st.core.task = none) (at_ : st.core.phase = .draining (d :: left))
    (owner : st.core.clients d.owner = some c) :
    Tally s (after st (.complete d)
      { st.core with phase := .draining left, task := some (d.owner,datachanComplete d.posted c) }) none := by
  have step : Reactor.Step 0 s st.core (.complete d) _ := .complete idle at_ owner
  have hand : ∀ core, lines (after st (.complete d) core) = lines st := fun _ => linesAfter fits
  obtain ⟨point,place⟩ := fits
  refine tally.same (.completing rfl place owner (completeKeeping d.posted c)) rfl rfl rfl fun other => ?_
  have owns := ownAfter step other
  rw [totalIdle idle,totalBusy rfl,hand]
  by_cases mine : d.owner = other
  · simp only [lands,launches,Delivery.flight,List.filter_cons,mine,decide_true,if_true,List.filter_nil,
      List.length_cons,List.length_nil] at owns
    simp [after,moved,place,mine,bonus,listed] at owns ⊢
    omega
  simp only [lands,launches,Delivery.flight,List.filter_cons,mine,decide_false,List.filter_nil,
    List.length_nil,Bool.false_eq_true,if_false] at owns
  simp [after,mine,listed] at owns ⊢
  omega

theorem tallyEvent {revents} (root received) (sound : Sound st.core log m)
    (fits : Fits st.place (.event id root revents received)) (idle : st.core.task = none)
    (at_ : st.core.phase = .serving (.client id revents :: left)) (owner : st.core.clients id = some c) :
    Tally s (after st (.event id root revents received)
      { st.core with phase := .serving left, task := some (id,handleClientEvents { s with root } revents received c) })
      none := by
  have step : Reactor.Step 0 s st.core (.event id root revents received) _ := .event root received idle at_ owner
  obtain ⟨c',found,here⟩ := (sound.ready at_).2 id (by simp [Ready.id?])
  obtain rfl : c' = c := by simpa [owner] using found.symm
  have keeping : Custody s (handleClientEvents { s with root } revents received c') :=
    @eventKeeping { s with root } revents received c'
  refine tally.same (.serving rfl rfl owner here keeping) rfl rfl rfl fun other => ?_
  have owns := ownAfter step other
  simp [lands,launches] at owns
  rw [totalIdle idle,totalBusy rfl,linesAfter fits]
  simp [after,moved,bonus,listed] at owns ⊢
  omega

theorem tallyAccept
    (sound : Sound st.core log m) (fits : Fits st.place (.accept st.core.nextClient peer)) (idle : st.core.task = none)
    (at_ : st.core.phase = .serving (.listener (peer :: peers) :: left)) :
    Tally s (after st (.accept st.core.nextClient peer)
      { st.core with phase := .serving (.listener peers :: left), nextClient := st.core.nextClient + 1,
                     task := some (st.core.nextClient,acceptClient s peer) }) none := by
  have step : Reactor.Step 0 s st.core (.accept st.core.nextClient peer) _ := .accept idle at_
  have place : st.place = .serving false := fits
  have absent := (sound.coming st.core.nextClient (Nat.le_refl _)).1
  refine ⟨.accepting rfl place absent (acceptKeeping peer),fun other => ?_,tally.lives.born⟩
  have owns := ownAfter step other
  have count := tally.count other
  simp [lands,launches] at owns
  rw [totalIdle idle] at count
  rw [totalBusy rfl,linesAfter fits]
  simp [after,moved,place,counted,bonus,listed] at owns count ⊢
  by_cases mine : other = st.core.nextClient
  · subst mine
    have unborn := (tally.lives st.core.nextClient).1 (Nat.le_refl _)
    simp
    omega
  · rw [Function.update_of_ne mine,if_neg (Ne.symm mine),count]
    omega

theorem tallyCore (sound : Sound st.core log m) (fits : Fits st.place act) (step : Reactor.Step workers s st.core act core) :
    ∃ held', Tally s (after st act core) held' := by
  have whole := step
  cases step with
  | wake idle at_ | collect idle at_ collected | accepted idle at_ | served idle at_ =>
    exact ⟨_,tallyRest tally fits whole idle idle rfl rfl rfl ⟨rfl,rfl⟩⟩
  | complete idle at_ owner => exact ⟨_,tallyComplete tally fits idle at_ owner⟩
  | event root received idle at_ owner => exact ⟨_,tallyEvent tally root received sound fits idle at_ owner⟩
  | accept idle at_ => exact ⟨_,tallyAccept tally sound fits idle at_⟩
  | call answer busy possible => exact ⟨_,tallyCall tally busy possible⟩
  | finish busy => exact ⟨_,tallyFinish tally sound busy⟩
  | take waiting free | post busy run => exact ⟨_,tallyPool tally fits whole rfl rfl rfl rfl rfl ⟨rfl,rfl⟩⟩

theorem tallyTurn (idle : st.core.task = none) (still : st'.core.task = none) (clients : st'.core.clients = st.core.clients) (flights_ : flights st'.core = flights st.core)
    (next : st'.core.nextClient = st.core.nextClient) (refs : st'.refs = st.refs) (freed : st'.freed = st.freed)
    (same : (lines st').Perm (lines st)) : Tally s st' none := by
  refine tally.same (.idle still) refs freed next fun other => ?_
  have named : (naming other (lines st')).length = (naming other (lines st)).length := (same.filter _).length_eq
  rw [totalIdle still,totalIdle idle,listedOf clients,own,flights_,own,named]

theorem tallyDrop (at_ : st.place = .dropping) (idle : st.core.task = none)
    (owner : st.core.clients id = some c) (here : c.connected = true) :
    Tally s { st with core := { st.core with task := some (id,clientDisconnect c) } } none := by
  refine tally.same (.dropping rfl at_ owner here (disconnectKeeping c)) rfl rfl rfl fun other => ?_
  have free : spare { st with core := { st.core with task := some (id,clientDisconnect c) } } none other = 0 := by
    rw [@spareBusy _ none id _ rfl other]
    simp [at_,bonus]
  rw [totalIdle idle,total,free]
  rfl

theorem tallyReply {point p left} (at_ : st.place = .replying point (p :: left)) :
    Tally s (release { st with place := .replying point left } p.owner) none := by
  have idle : st.core.task = none := tally.bearing.calm (by simp [at_]) (by simp [at_]) (by simp [at_])
  refine tally.less p.owner (.idle idle) rfl rfl rfl fun other => ?_
  rw [totalIdle idle,@totalIdle (release { st with place := .replying point left } p.owner) idle]
  simp only [release,lines,inHand,at_,naming,List.cons_append,List.filter_cons]
  by_cases mine : p.owner = other
  · simp [mine]
    omega
  · simp [mine,Ne.symm mine]

theorem tallyRetain {p before after_} (referenced : 0 < st.refs p.owner) :
    Tally s (retain { st with stamped := before ++ after_, retained := p :: st.retained } p.owner) held := by
  refine tally.more p.owner (tally.bearing.of rfl rfl rfl) rfl rfl rfl referenced fun other => ?_
  simp only [total,retain,lines,naming,List.filter_append,List.length_append,List.filter_cons]
  rw [show inHand { st with stamped := before ++ after_, retained := p :: st.retained, refs := _ } = inHand st from rfl]
  rw [show spare { st with stamped := before ++ after_, retained := p :: st.retained, refs := _ } held other =
    spare st held other from rfl]
  by_cases mine : p.owner = other
  · simp [mine]
    omega
  · simp [mine,Ne.symm mine]

theorem tallyRefuse (idle : st.core.task = none) (ready : st.core.phase = .serving (.listener (peer :: peers) :: left)) :
    Tally s (release { st with
      refs := Function.update st.refs st.core.nextClient 1
      core := { st.core with phase := .serving (.listener peers :: left), nextClient := st.core.nextClient + 1 } }
      st.core.nextClient) none := by
  refine ⟨.idle idle,fun other => ?_,?_⟩
  · have count := tally.count other
    have unborn := (tally.lives st.core.nextClient).1 (Nat.le_refl _)
    rw [totalIdle idle] at count
    rw [@totalIdle (release { st with
      refs := Function.update st.refs st.core.nextClient 1
      core := { st.core with phase := .serving (.listener peers :: left), nextClient := st.core.nextClient + 1 } }
      st.core.nextClient) idle]
    simp only [release,lines,inHand,listed,own,flights,drained,ready] at count ⊢
    by_cases mine : other = st.core.nextClient
    · subst mine
      rw [Function.update_self,Function.update_self]
      omega
    · rw [Function.update_of_ne mine,Function.update_of_ne mine]
      exact count
  · have born := tally.lives.born
    exact @Lives.release _ { st with refs := Function.update st.refs st.core.nextClient 1 } st.core.nextClient born
      (by simp)

theorem tallyStep (sound : Sound st.core log m)
    (staged : Staged st) (referenced : Referenced st move) (step : Step workers s st move st') :
    ∃ held', Tally s st' held' := by
  have calm : (∀ point, st.place ≠ .completing point) → (∀ look, st.place ≠ .serving look) → st.place ≠ .dropping →
      st.core.task = none := tally.bearing.calm
  have flights_ : drained st.core = [] → flights { st.core with phase := .waiting } = flights st.core := by
    intro empty
    rw [flights,flights,empty]
    rfl
  cases step with
  | core fits step => exact tallyCore tally sound fits step
  | poll outcome at_ going | leave at_ asked | grab at_ | closed at_ =>
    have idle := calm (by simp [at_]) (by simp [at_]) (by simp [at_])
    exact ⟨_,tallyTurn tally idle idle rfl rfl rfl rfl rfl (by simp [lines,inHand,at_])⟩
  | reply at_ owner => exact ⟨_,tallyReply tally at_⟩
  | look at_ idle =>
    split
    · exact ⟨_,tallyTurn tally idle idle rfl (flights_ (staged.served at_)) rfl rfl rfl (by simp [lines,inHand,at_])⟩
    · exact ⟨_,tallyTurn tally idle idle rfl rfl rfl rfl rfl (by simp [lines,inHand,at_])⟩
  | broke at_ idle phase | drained at_ idle phase =>
    exact ⟨_,tallyTurn tally idle idle rfl (flights_ (by simp [drained,phase])) rfl rfl rfl (by simp [lines,inHand,at_])⟩
  | drop at_ idle owner here first => exact ⟨_,tallyDrop tally at_ idle owner here⟩
  | dropped at_ idle none_ =>
    exact ⟨_,tallyTurn tally idle idle rfl rfl rfl rfl rfl (by simp [lines,inHand,at_])⟩
  | refuse at_ idle ready => exact ⟨_,tallyRefuse tally idle ready⟩
  | stamp p reads | stop => exact ⟨held,tally.same (tally.bearing.of rfl rfl rfl) rfl rfl rfl fun _ => rfl⟩
  | retain => exact ⟨_,tallyRetain tally referenced⟩
  | @link p before after_ retained =>
    refine ⟨held,tally.same (tally.bearing.of rfl rfl rfl) rfl rfl rfl fun other => ?_⟩
    have same : (lines { st with retained := before ++ after_, linked := st.linked ++ [p] }).Perm (lines st) := by
      simp [lines,retained]
      exact (List.perm_middle.symm.append_left _).append_left _
    have named := (same.filter (·.owner = other)).length_eq
    simp [total,naming]
    rw [named]
    rfl

end Moves

theorem tallyStart (start : Start st) : Tally s st none := by
  obtain ⟨begun,fresh,at_,-,refs,freed,stamped,retained,linked⟩ := start
  obtain ⟨clients,queue,running,completions,phase,task⟩ := begun
  refine ⟨.idle task,fun id => ?_,fun id => ⟨fun _ => refs id,?_⟩⟩
  · rw [refs,totalIdle task]
    simp [listed,clients,own,flights,drained,queue,running,completions,phase,lines,inHand,at_,retained,linked,naming]
  · rw [freed,fresh,if_neg (by simp)]

theorem tallyReached (reached : (service workers s).Reach Referenced st) : ∃ held, Tally s st held := by
  have both : Even st ∧ ∃ held, Tally s st held := by
    refine System.invariant (P := fun st => Even st ∧ ∃ held, Tally s st held) ?_ ?_ reached
    · exact fun st start => ⟨evenStart start,none,tallyStart start⟩
    · rintro st move st' ⟨even,held,tally⟩ referenced step
      obtain ⟨⟨log,m,sound⟩,staged⟩ := even
      exact ⟨evenStep ⟨⟨log,m,sound⟩,staged⟩ step,tallyStep tally sound staged referenced step⟩
  exact both.2

end Tally
end OpenPs3Ftp.Service
