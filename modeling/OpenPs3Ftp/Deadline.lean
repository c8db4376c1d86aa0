import OpenPs3Ftp.Protection
import OpenPs3Ftp.Truncation

/-! Handshake deadlines. Every step is timed and comes with what the TLS library
returned there. The wrapper compares the clock with the deadline only where the library
has failed already, so a deadline ends no handshake that would go on. -/
namespace OpenPs3Ftp.Deadline
open Lib Text Fs Session Commands Events Worker Program System Reactor Tls

variable {deadline : Int}

theorem failedCode {now code} : tlsHandshake deadline now code = .failed ↔ code = .error := by
  cases code <;> simp [tlsHandshake]

/-! Control connections: one iteration of the reactor. -/

structure Beat where
  now : Int
  code : ShakeCode
  act : Act

def Beat.Genuine (id : ClientId) (deadline : Int) (b : Beat) : Prop :=
  ∀ answer, b.act = .call id ⟨.tlsHandshake,answer⟩ → answer = tlsHandshake deadline b.now b.code

def Iteration (acts : List Act) : Prop := ∃ middle, acts = .wake :: (middle ++ [.served]) ∧ .served ∉ middle

def shakes (id : ClientId) : Act → Option Handshake
  | .call i ⟨.tlsHandshake,answer⟩ => if i = id then some answer else none
  | _ => none

variable {id : ClientId}

theorem shakesCall {act answer} : shakes id act = some answer ↔ act = .call id ⟨.tlsHandshake,answer⟩ := by
  unfold shakes
  split
  · rename_i i result
    by_cases same : i = id <;> simp [same]
  rename_i other
  constructor
  · intro h
    cases h
  · intro same
    exact absurd same (other _ _)

def Unshaken : Call → Prop
  | .tlsHandshake => False
  | _ => True

variable {i : ClientId}

theorem unshakenCall {call} (unshaken : Unshaken call) (answer) : shakes id (.call i ⟨call,answer⟩) = none := by
  cases call <;> first | rfl | exact unshaken.elim

def Alike (c d : Client) : Prop :=
  d.connected = c.connected ∧ d.tlsHandshaking = c.tlsHandshaking ∧ d.disconnectRequested = c.disconnectRequested

def torn (c : Client) (answer : Handshake) : Bool := c.disconnectRequested || answer = .failed
def Past (st : State) (id : ClientId) : Prop := ∃ left, st.phase = .serving left ∧ id ∉ left.filterMap Ready.id?

inductive Stage (id : ClientId) (c : Client) (st : State) : List Handshake → Prop where
  | before {now} (seat : st.clients id = some now) (alike : Alike c now) (free : engaged st ≠ some id) :
      Stage id c st []
  | completing {p} (busy : st.task = some (id,p))
      (calm : p.Obeys (fun _ _ => True) Unshaken (Alike c)) : Stage id c st []
  | greeting {now} (busy : st.task = some (id,.ask .tlsHandshake fun answer => finishEvent (shaken now answer)))
      (alike : Alike c now) (past : Past st id) : Stage id c st []
  | leaving {answer p} (busy : st.task = some (id,p)) (past : Past st id)
      (calm : p.Obeys (fun _ _ => True) Unshaken fun d => d.connected = !torn c answer) : Stage id c st [answer]
  | after {answer now} (seat : st.clients id = some now) (ended : now.connected = !torn c answer)
      (free : engaged st ≠ some id) (past : Past st id) : Stage id c st [answer]

variable {now : Client}

theorem completionCalm {c} (p) (alike : Alike c now) :
    (datachanComplete p now).Obeys (fun _ _ => True) Unshaken (Alike c) := by
  unfold Alike at alike
  unfold datachanComplete closeJob finishAbort closeSome
  cases p.job.pasvFd <;> cases p.dataFd <;> by_cases here : p.job.generation = now.generation <;>
    by_cases pending : now.aborPending = true <;>
    simp [here,pending,Unshaken,Alike,alike,Obeys,replyAbout,invokeAsk]

theorem leavingCalm {c} (answer) (connected : c.connected = true) (alike : Alike c now) :
    (finishEvent (shaken now answer)).Obeys (fun _ _ => True) Unshaken fun d => d.connected = !torn c answer := by
  obtain ⟨here,-,leaving⟩ := alike
  have drops : ∀ d : Client, (clientDisconnect d).Obeys (fun _ _ => True) Unshaken fun e => e.connected = false := by
    intro d
    unfold clientDisconnect cancelSome closeSome
    cases d.job <;> cases d.pasvFd <;> simp [Unshaken,Obeys,gone,invokeAsk]
  unfold finishEvent
  split
  · rename_i going
    have gone_ : torn c answer = true := by
      cases answer <;> simp_all [shaken,torn]
    rw [gone_]
    exact drops _
  rename_i staying
  have stays : torn c answer = false := by
    cases answer <;> simp_all [shaken,torn]
  rw [stays]
  cases answer <;> exact here.trans connected

section Steps
variable {workers : Nat} {s : Server} {st st' : State} {log : List Act} {m : Mind} {id : ClientId} {c : Client}
  {seen : List Handshake} {act : Act}

theorem Stage.frame (stage : Stage id c st seen) (clients : st'.clients = st.clients) (task : st'.task = st.task)
    (past : Past st id → Past st' id) : Stage id c st' seen := by
  have busy : engaged st' = engaged st := congrArg (Option.map Prod.fst) task
  cases stage with
  | before seat alike free => exact .before (clients ▸ seat) alike (busy ▸ free)
  | completing busy calm => exact .completing (task ▸ busy) calm
  | greeting busy alike here => exact .greeting (task ▸ busy) alike (past here)
  | leaving busy here calm => exact .leaving (task ▸ busy) (past here) calm
  | after seat ended free here => exact .after (clients ▸ seat) ended (busy ▸ free) (past here)

theorem Stage.begin {p} (stage : Stage id c st seen) (idle : st.task = none) (other : i ≠ id)
    (clients : st'.clients = st.clients) (task : st'.task = some (i,p)) (past : Past st id → Past st' id) :
    Stage id c st' seen := by
  have free : engaged st' ≠ some id := by simpa [engaged,task] using other
  cases stage with
  | before seat alike => exact .before (clients ▸ seat) alike free
  | after seat ended _ here => exact .after (clients ▸ seat) ended free (past here)
  | completing busy | greeting busy | leaving busy => simp [idle] at busy

theorem stageComplete {d left} (stage : Stage id c st seen) (idle : st.task = none)
    (at_ : st.phase = .draining (d :: left)) (owner : st.clients d.owner = some now) :
    Stage id c { st with phase := .draining left, task := some (d.owner,datachanComplete d.posted now) } seen := by
  have early : ¬ Past st id := by
    rintro ⟨_,phase,_⟩
    simp [at_] at phase
  by_cases mine : d.owner = id
  · cases stage with
    | before seat alike =>
      obtain rfl := Option.some.inj (seat.symm.trans (mine ▸ owner))
      exact .completing (congrArg (fun i => some (i,_)) mine) (completionCalm d.posted alike)
    | after _ _ _ past => exact absurd past early
    | completing busy | greeting busy | leaving busy => simp [idle] at busy
  · exact stage.begin idle mine rfl rfl fun past => absurd past early

theorem stageEvent {revents left} (root received) (shaking : c.tlsHandshaking = true) (stage : Stage id c st seen)
    (once : i ∉ left.filterMap Ready.id?) (idle : st.task = none)
    (at_ : st.phase = .serving (.client i revents :: left)) (owner : st.clients i = some now) :
    Stage id c { st with
      phase := .serving left, task := some (i,handleClientEvents { s with root } revents received now) } seen := by
  have later : Past st id → i ≠ id ∧ id ∉ left.filterMap Ready.id? := by
    rintro ⟨_,phase,out⟩
    obtain rfl := Phase.serving.inj (at_.symm.trans phase)
    simpa [Ready.id?,eq_comm] using out
  by_cases mine : i = id
  · subst mine
    cases stage with
    | before seat alike =>
      obtain rfl := Option.some.inj (owner.symm.trans seat)
      have begun : handleClientEvents { s with root } revents received now =
          .ask .tlsHandshake fun answer => finishEvent (shaken now answer) := by
        rw [handleClientEvents,if_pos (alike.2.1.trans shaking)]
        rfl
      exact .greeting (congrArg (fun p => some (i,p)) begun) alike ⟨left,rfl,once⟩
    | after _ _ _ past => exact absurd rfl (later past).1
    | completing busy | greeting busy | leaving busy => simp [idle] at busy
  · exact stage.begin idle mine rfl rfl fun past => ⟨left,rfl,(later past).2⟩

variable (connected : c.connected = true)
include connected

theorem stageCall {call next answer} (stage : Stage id c st seen)
    (busy : st.task = some (i,.ask call next)) :
    Stage id c { answered st i call answer with task := some (i,next answer) }
      (seen ++ (shakes id (.call i ⟨call,answer⟩)).toList) := by
  have past : Past st id → Past { answered st i call answer with task := some (i,next answer) } id := by
    rintro ⟨left,phase,out⟩
    exact ⟨left,(answeredPhase ..).trans phase,out⟩
  have clients : { answered st i call answer with task := some (i,next answer) }.clients = st.clients :=
    answeredClients ..
  have aside : i ≠ id → shakes id (.call i ⟨call,answer⟩) = none := fun other => by cases call <;> simp [shakes,other]
  cases stage with
  | before seat alike free =>
    have other : i ≠ id := by simpa [engaged,busy] using free
    rw [aside other]
    exact .before (clients ▸ seat) alike (by simpa [engaged] using other)
  | after seat ended free here =>
    have other : i ≠ id := by simpa [engaged,busy] using free
    rw [aside other]
    exact .after (clients ▸ seat) ended (by simpa [engaged] using other) (past here)
  | completing mine calm =>
    obtain ⟨rfl,rfl⟩ := somePair busy mine
    rw [unshakenCall calm.1]
    exact .completing rfl (calm.2 answer trivial)
  | leaving mine here calm =>
    obtain ⟨rfl,rfl⟩ := somePair busy mine
    rw [unshakenCall calm.1]
    exact .leaving rfl (past here) (calm.2 answer trivial)
  | greeting mine alike here =>
    obtain ⟨rfl,same⟩ := somePair busy mine
    cases same
    simp only [shakes,if_pos,Option.toList]
    exact .leaving rfl (past here) (leavingCalm answer connected alike)

omit connected in
theorem stageFinish {d} (stage : Stage id c st seen) (busy : st.task = some (i,.done d)) :
    Stage id c { st with clients := seated st i d, task := none } seen := by
  have free : engaged { st with clients := seated st i d, task := none } ≠ some id := by simp [engaged]
  cases stage with
  | before seat alike other =>
    have apart : id ≠ i := by simpa [engaged,busy,eq_comm] using other
    exact .before (by simpa [seated,apart] using seat) alike free
  | after seat ended other past =>
    have apart : id ≠ i := by simpa [engaged,busy,eq_comm] using other
    exact .after (by simpa [seated,apart] using seat) ended free past
  | completing mine calm =>
    obtain ⟨rfl,rfl⟩ := somePair busy mine
    exact .before (by simp [seated]) calm free
  | leaving mine past calm =>
    obtain ⟨rfl,rfl⟩ := somePair busy mine
    exact .after (by simp [seated]) calm free past
  | greeting mine =>
    obtain ⟨rfl,same⟩ := somePair busy mine
    cases same

theorem stageStep (shaking : c.tlsHandshaking = true) (sound : Sound st log m)
    (stage : Stage id c st seen) (step : Step workers s st act st') (going : act ≠ .served) :
    Stage id c st' (seen ++ (shakes id act).toList) := by
  have awaited := sound.awaited
  unfold Awaited at awaited
  cases step with
  | wake idle at_ | collect idle at_ =>
    simp only [shakes,Option.toList_none,List.append_nil]
    refine stage.frame rfl rfl ?_
    rintro ⟨_,phase,_⟩
    simp [at_] at phase
  | complete idle at_ owner =>
    simp only [shakes,Option.toList_none,List.append_nil]
    exact stageComplete stage idle at_ owner
  | @event i revents left now root received idle at_ owner =>
    rw [at_] at awaited
    simp only [shakes,Option.toList_none,List.append_nil]
    have once : i ∉ left.filterMap Ready.id? := by simpa [Ready.id?] using (List.nodup_cons.mp awaited.1.1).1
    exact stageEvent root received shaking stage once idle at_ owner
  | @accept peer peers left idle at_ =>
    simp only [shakes,Option.toList_none,List.append_nil]
    have other : st.nextClient ≠ id := by
      rintro rfl
      have unseated := (sound.coming _ (Nat.le_refl _)).1
      cases stage with
      | before seat | after seat => simp [unseated] at seat
      | completing busy | greeting busy | leaving busy => simp [idle] at busy
    refine stage.begin idle other rfl rfl ?_
    rintro ⟨_,phase,out⟩
    obtain rfl := Phase.serving.inj (at_.symm.trans phase)
    exact ⟨_,rfl,by simpa [Ready.id?] using out⟩
  | @accepted left idle at_ =>
    simp only [shakes,Option.toList_none,List.append_nil]
    refine stage.frame rfl rfl ?_
    rintro ⟨_,phase,out⟩
    obtain rfl := Phase.serving.inj (at_.symm.trans phase)
    exact ⟨_,rfl,by simpa [Ready.id?] using out⟩
  | served => exact absurd rfl going
  | call answer busy possible => exact stageCall connected stage busy
  | finish busy =>
    simp only [shakes,Option.toList_none,List.append_nil]
    exact stageFinish stage busy
  | take | post =>
    simp only [shakes,Option.toList_none,List.append_nil]
    exact stage.frame rfl rfl fun past => past

theorem stagePath {acts} (shaking : c.tlsHandshaking = true)
    (path : (reactor workers s).Path st acts st') (going : .served ∉ acts) (sound : Sound st log m)
    (stage : Stage id c st seen) : Stage id c st' (seen ++ acts.filterMap (shakes id)) := by
  induction path generalizing log m seen with
  | nil => simpa using stage
  | @cons st act st₁ acts last moved later ih =>
    obtain ⟨m',sound'⟩ := soundStep sound moved
    rw [List.mem_cons,not_or] at going
    have next := ih going.2 sound' (stageStep connected shaking sound stage moved fun same => going.1 same.symm)
    rw [List.append_assoc] at next
    cases told : shakes id act <;> simpa [told] using next

theorem iterationEnds {acts} (shaking : c.tlsHandshaking = true)
    (sound : Sound st log m) (seat : st.clients id = some c) (iteration : Iteration acts)
    (path : (reactor workers s).Path st acts st') :
    acts.filterMap (shakes id) = [] ∧ ¬ Left st' id ∨
      ∃ answer, acts.filterMap (shakes id) = [answer] ∧ (Left st' id ↔ torn c answer = true) := by
  obtain ⟨middle,rfl,going⟩ := iteration
  have free : engaged st ≠ some id := by
    cases path with
    | cons first later =>
      cases first with
      | wake idle => simp [engaged,idle]
  obtain ⟨st₁,path,last⟩ := @Path.split _ _ _ _ _ (.wake :: middle) _ path
  have stage := stagePath connected shaking path (by simpa using going) sound (.before seat ⟨rfl,rfl,rfl⟩ free)
  have whole : (Act.wake :: (middle ++ [.served])).filterMap (shakes id) = (.wake :: middle).filterMap (shakes id) := by
    rw [← List.cons_append,List.filterMap_append]
    exact List.append_nil _
  rw [whole]
  cases last with
  | cons moved rest =>
    cases rest with
    | nil =>
      cases moved with
      | served idle at_ =>
        generalize (Act.wake :: middle).filterMap (shakes id) = seen at stage
        rw [List.nil_append] at stage
        cases stage with
        | before seat alike =>
          refine .inl ⟨rfl,?_⟩
          rintro ⟨now,here,gone⟩
          obtain rfl := Option.some.inj (seat.symm.trans here)
          simp [alike.1,connected] at gone
        | after seat ended =>
          refine .inr ⟨_,rfl,?_⟩
          constructor
          · rintro ⟨now,here,gone⟩
            obtain rfl := Option.some.inj (seat.symm.trans here)
            simpa [gone] using ended
          · intro torn
            exact ⟨_,seat,by simpa [torn] using ended⟩
        | completing busy | greeting busy | leaving busy => simp [idle] at busy

theorem controlDropped {beats : List Beat}
    (shaking : c.tlsHandshaking = true) (sound : Sound st log m) (seat : st.clients id = some c)
    (iteration : Iteration (beats.map Beat.act)) (path : (reactor workers s).Path st (beats.map Beat.act) st')
    (genuine : ∀ b ∈ beats, b.Genuine id deadline) :
    Left st' id ↔ ∃ b ∈ beats, ∃ answer, b.act = .call id ⟨.tlsHandshake,answer⟩ ∧
      (b.code = .error ∨ c.disconnectRequested = true) := by
  have stepped : ∀ b ∈ beats, ∀ answer, b.act = .call id ⟨.tlsHandshake,answer⟩ →
      answer ∈ (beats.map Beat.act).filterMap (shakes id) := by
    intro b member answer same
    exact List.mem_filterMap.mpr ⟨b.act,List.mem_map.mpr ⟨b,member,rfl⟩,shakesCall.mpr same⟩
  rcases iterationEnds connected shaking sound seat iteration path with ⟨none_,stays⟩ | ⟨answer,one,left⟩
  · refine ⟨fun gone => absurd gone stays,?_⟩
    rintro ⟨b,member,answer,same,-⟩
    simpa [none_] using stepped b member answer same
  have dropped : ∀ b ∈ beats, b.act = .call id ⟨.tlsHandshake,answer⟩ →
      (torn c answer = true ↔ b.code = .error ∨ c.disconnectRequested = true) := by
    intro b member same
    rw [torn,genuine b member answer same,Bool.or_eq_true,decide_eq_true_eq,failedCode,or_comm]
  rw [left]
  constructor
  · intro torn
    have here : answer ∈ (beats.map Beat.act).filterMap (shakes id) := by simp [one]
    obtain ⟨act,made,same⟩ := List.mem_filterMap.mp here
    obtain ⟨b,member,rfl⟩ := List.mem_map.mp made
    exact ⟨b,member,answer,shakesCall.mp same,(dropped b member (shakesCall.mp same)).mp torn⟩
  · rintro ⟨b,member,other,same,ends⟩
    obtain rfl : other = answer := by simpa [one] using stepped b member other same
    exact (dropped b member same).mpr ends

end Steps

/-! Data connections: the loop of `data_tls_setup`. -/

structure Tick where
  now : Int
  code : ShakeCode
  exchange : Exchange Work.Answer

structure Tick.Genuine (deadline : Int) (k : Tick) : Prop where
  clock : ∀ answer, k.exchange = ⟨.nowMs,answer⟩ → answer = k.now
  created : ∀ fd until_ answer, k.exchange = ⟨.tlsCreate fd until_,answer⟩ → until_ = deadline
  stepped : ∀ answer, k.exchange = ⟨.tlsHandshake,answer⟩ → answer = tlsHandshake deadline k.now k.code

def halted (stopped : Bool) : (call : Work) → call.Answer → Bool
  | .tlsHandshake,answer => stopped || answer = .failed
  | _,_ => stopped

abbrev Halts {α : Type} (post : Bool → α → Prop) (stopped : Bool) (p : Program Work Work.Answer α) : Prop :=
  Meets (fun _ _ => True) halted (fun stopped _ => stopped = false) post stopped p

theorem ownHalts {α : Type} {p : Routine α} (uses : Bounded.Uses Own p) : Halts (fun stopped _ => stopped = false) false p := by
  refine meetsWeaken (fun _ stopped => stopped = false) rfl (fun _ _ _ going _ => going) ?_ (fun _ _ _ going _ => going) uses
  intro _ stopped call answer going own
  cases call <;> first | exact going | exact own.elim

def Fails (stopped : Bool) (rc : Option Rc) : Prop := stopped = true → rc = some (some .epipe)

theorem failsGoing {stopped rc} (going : stopped = false) : Fails stopped rc := by
  intro stopped
  simp [going] at stopped

theorem roundHalts (fd : Fd) :
    Halts (Bounded.Round (fun stopped _ => stopped = false) Fails) false (handshakeRound fd () : Routine (Unit ⊕ Rc)) := by
  have again : ∀ event, Halts (Bounded.Round (fun stopped _ => stopped = false) Fails) false
      (awaiting fd event () some : Routine (Unit ⊕ Rc)) := by
    intro event
    refine meetsMono ?_ (ownHalts (makesAwaiting (n := 0) trivial (fun _ _ => trivial) event () some).1)
    rintro stopped (_ | _ | rc) going
    · exact failsGoing going
    · exact going
    · exact failsGoing going
  refine ⟨rfl,fun cancelled _ => ?_⟩
  cases cancelled with
  | true => exact failsGoing rfl
  | false =>
    refine ⟨rfl,fun result _ => ?_⟩
    cases result with
    | finished => exact failsGoing rfl
    | failed => exact fun _ => rfl
    | wantWrite => exact again .pollout
    | wantRead => exact again .pollin

theorem setupHalts (rounds s fd) :
    Halts (fun stopped outcome => stopped = true → outcome = some (true,some .epipe)) false
      (dataTlsSetup rounds s fd : Routine (Bool × Rc)) := by
  have calm : ∀ outcome : Option (Bool × Rc), false = true → outcome = some (true,some .epipe) := by simp
  have loop : Halts Fails false (Bounded.loop (handshakeRound fd) rounds () : Routine Rc) := by
    refine @Bounded.meetsLoop _ _ _ _ (handshakeRound fd) _ (fun _ _ => True) halted (fun stopped _ => stopped = false)
      false (fun stopped _ => stopped = false) Fails (fun _ _ going => failsGoing going) ?_ rounds () rfl
    rintro stopped - rfl
    exact roundHalts fd
  have whole : Halts (fun stopped outcome => stopped = true → outcome = some (true,some .epipe)) false
      (do return (true,← Bounded.loop (handshakeRound fd) rounds ()) : Routine (Bool × Rc)) := by
    refine meetsBind.mpr (meetsMono ?_ loop)
    rintro stopped (_ | rc) fails
    · exact fun failed => by cases fails failed
    · exact fun failed => by cases fails failed; rfl
  unfold dataTlsSetup
  split
  · exact calm _
  refine ⟨rfl,fun now _ => ⟨rfl,fun made _ => ?_⟩⟩
  cases made with
  | false => exact calm _
  | true => exact whole

theorem failedLast {rounds s fd before after outcome}
    (run : Program.Runs (dataTlsSetup rounds s fd) (before ++ ⟨.tlsHandshake,.failed⟩ :: after) outcome) :
    after = [] ∧ outcome = some (true,some .epipe) := by
  obtain ⟨ends,going⟩ := meetsRuns (setupHalts rounds s fd) run fun _ _ => trivial
  have stopped : noted halted false (before ++ [⟨.tlsHandshake,.failed⟩]) = true := by simp [noted,halted]
  cases after with
  | nil => exact ⟨rfl,ends stopped⟩
  | cons e rest =>
    have more := going (before ++ [⟨.tlsHandshake,.failed⟩]) e rest (by simp)
    rw [stopped] at more
    cases more

theorem dataStopped {rounds s fd ticks outcome}
    (run : Program.Runs (dataTlsSetup rounds s fd) (ticks.map Tick.exchange) outcome)
    (genuine : ∀ k ∈ ticks, k.Genuine deadline) :
    (∀ before k after answer, ticks = before ++ k :: after → k.exchange = ⟨.tlsHandshake,answer⟩ →
      deadline < k.now → answer = .failed ∧ after = [] ∧ outcome = some (true,some .epipe)) ↔
    ∀ k ∈ ticks, ∀ answer, k.exchange = ⟨.tlsHandshake,answer⟩ → deadline < k.now → k.code = .error := by
  constructor
  · intro stops k member answer same late
    obtain ⟨before,after,whole⟩ := List.append_of_mem member
    have failed := (stops before k after answer whole same late).1
    rw [(genuine k member).stepped answer same] at failed
    exact failedCode.mp failed
  intro errors before k after answer whole same late
  have member : k ∈ ticks := by simp [whole]
  obtain rfl : answer = .failed := by
    rw [(genuine k member).stepped answer same]
    exact failedCode.mpr (errors k member answer same late)
  rw [whole,List.map_append,List.map_cons,same] at run
  obtain ⟨last,fails⟩ := failedLast run
  exact ⟨rfl,List.map_eq_nil_iff.mp last,fails⟩

theorem handshakesBounded (deadline : Int) :
    (∀ (workers : Nat) (s : Server) (st st' : State) (log : List Act) (id : ClientId) (c : Client) (beats : List Beat),
      (reactor workers s).logged.Reached (st,log) → st.clients id = some c → c.connected = true →
      c.tlsHandshaking = true → Iteration (beats.map Beat.act) →
      (reactor workers s).Path st (beats.map Beat.act) st' →
      (∀ b ∈ beats, b.Genuine id deadline ∧ deadline < b.now) →
      (Left st' id ↔ ∃ b ∈ beats, ∃ answer, b.act = .call id ⟨.tlsHandshake,answer⟩ ∧
        (b.code = .error ∨ c.disconnectRequested = true))) ∧
    (∀ (rounds : Nat) (s : Server) (fd : Fd) (ticks : List Tick) (outcome : Option (Bool × Rc)),
      Program.Runs (dataTlsSetup rounds s fd) (ticks.map Tick.exchange) outcome →
      (∀ k ∈ ticks, k.Genuine deadline) →
      ((∀ before k after answer, ticks = before ++ k :: after → k.exchange = ⟨.tlsHandshake,answer⟩ →
        deadline < k.now → answer = .failed ∧ after = [] ∧ outcome = some (true,some .epipe)) ↔
      ∀ k ∈ ticks, ∀ answer, k.exchange = ⟨.tlsHandshake,answer⟩ → deadline < k.now → k.code = .error)) := by
  constructor
  · intro workers s st st' log id c beats reached seat connected shaking iteration path timed
    obtain ⟨m,sound⟩ := soundReached reached
    exact controlDropped connected shaking sound seat iteration path fun b member => (timed b member).1
  · intro rounds s fd ticks outcome run genuine
    exact dataStopped run genuine

/-! A client that has sent AUTH TLS, one iteration after its deadline of 10000. -/
open Protection (vault negotiating negotiatingReached)

def steps (answer : Handshake) : (call : Call) → Answer call
  | .tlsHandshake => answer
  | call => Containment.refusals call

def greeter : Client := (negotiating.clients 0).getD visitor

theorem greeterSeat : negotiating.clients 0 = some greeter ∧ greeter.connected = true ∧ greeter.tlsHandshaking = true ∧
    greeter.disconnectRequested = false := by
  obtain ⟨here,shown⟩ : (negotiating.clients 0).isSome = true ∧ greeter.connected = true ∧
      greeter.tlsHandshaking = true ∧ greeter.disconnectRequested = false := by decide +kernel
  refine ⟨?_,shown⟩
  obtain ⟨c,seat⟩ := Option.isSome_iff_exists.mp here
  rw [greeter,seat]
  rfl

/- One iteration over what poll reports, up to the end of the copy. -/
def visited (answer : Handshake) (hints : List Hint) : List Act × State :=
  (chooser 2 vault (steps answer) offline).play (fun _ act => !act matches .served) 50
    { negotiating with phase := .draining [], completions := [] } hints

def passing (answer : Handshake) (hints : List Hint) : List Act := .wake :: ((visited answer hints).1 ++ [.served])

def visiting (answer : Handshake) : List Act := passing answer [.collect [.client 0 ⟨false,true,false⟩],.event []]

def atEnd (st : State) : Bool := st.task.isNone && st.phase matches .serving []

theorem atEndServes {st} (so : atEnd st = true) : (reactor 2 vault).step st .served { st with phase := .waiting } := by
  obtain ⟨idle,at_⟩ := (Bool.and_eq_true _ _).mp so
  refine .served (Option.isNone_iff_eq_none.mp idle) ?_
  split at at_ <;> simp_all

theorem passingPath {answer hints} (ends : atEnd (visited answer hints).2 = true) :
    (reactor 2 vault).Path negotiating (passing answer hints) { (visited answer hints).2 with phase := .waiting } ∧
      Iteration (passing answer hints) := by
  obtain ⟨-,-,idle,at_,clear⟩ := negotiatingReached
  have wake := @Step.wake 2 vault _ idle at_
  rw [clear] at wake
  have rest : (reactor 2 vault).Path _ (visited answer hints).1 _ := Chooser.playPath 50 _ trivial
  refine ⟨.cons wake (rest.append (.cons (atEndServes ends) (.nil _))),_,rfl,fun member => ?_⟩
  obtain ⟨-,passed⟩ := Chooser.playTested 50 _ trivial _ member
  cases passed

def timed (code : ShakeCode) (acts : List Act) : List Beat := acts.map fun act => ⟨10001,code,act⟩

theorem timedActs (code acts) : (timed code acts).map Beat.act = acts := by
  simp [timed,Function.comp_def]

theorem timedGenuine {code acts answers} (seen : acts.filterMap (shakes 0) = answers)
    (same : ∀ answer ∈ answers, answer = tlsHandshake 10000 10001 code) :
    ∀ b ∈ timed code acts, b.Genuine 0 10000 ∧ 10000 < b.now := by
  intro b member
  obtain ⟨act,here,rfl⟩ := List.mem_map.mp member
  refine ⟨fun answer called => same answer ?_,show (10000 : Int) < 10001 by decide⟩
  rw [← seen]
  exact List.mem_filterMap.mpr ⟨act,here,shakesCall.mpr called⟩

def Late (beats : List Beat) (answers : List Handshake) : Prop :=
  ∃ st', Iteration (beats.map Beat.act) ∧ (reactor 2 vault).Path negotiating (beats.map Beat.act) st' ∧
    (∀ b ∈ beats, b.Genuine 0 10000 ∧ 10000 < b.now) ∧ (beats.map Beat.act).filterMap (shakes 0) = answers ∧
    ¬ Left st' 0

theorem lateActs {code acts answers st'} (iteration : Iteration acts)
    (path : (reactor 2 vault).Path negotiating acts st') (seen : acts.filterMap (shakes 0) = answers)
    (same : ∀ answer ∈ answers, answer = tlsHandshake 10000 10001 code) (stays : ∀ answer ∈ answers, answer ≠ .failed) :
    Late (timed code acts) answers := by
  obtain ⟨log,reached,rests⟩ := negotiatingReached
  obtain ⟨seat,connected,shaking,staying⟩ := greeterSeat
  obtain ⟨m,sound⟩ := soundReached reached
  have same_ := (timedActs code acts).symm
  refine ⟨st',same_ ▸ iteration,same_ ▸ path,timedGenuine seen same,same_ ▸ seen,?_⟩
  rcases iterationEnds connected shaking sound seat iteration path with ⟨-,stays⟩ | ⟨answer,one,left⟩
  · exact stays
  · have going : answer ≠ .failed := stays answer (by simp [← seen,one])
    simp [left,torn,staying,going]

def shaking (code : ShakeCode) : (call : Work) → call.Answer
  | .tlsHandshake => tlsHandshake 10000 20000 code
  | call => (Truncation.uploading [] call).1

def setup (code : ShakeCode) : Work.Trace × Option (Bool × Rc) :=
  Program.play (shaking code) (dataTlsSetup 2 vault 7)

def ticking (code : ShakeCode) : List Tick :=
  (setup code).1.map fun e => ⟨if e.1 = .nowMs then 0 else 20000,code,e⟩

theorem tickingRuns (code) :
    Program.Runs (dataTlsSetup 2 vault 7) ((ticking code).map Tick.exchange) (setup code).2 := by
  have same : (ticking code).map Tick.exchange = (setup code).1 := by simp [ticking,Function.comp_def]
  rw [same]
  exact playRuns (shaking code) _

def created : Work → Bool
  | .tlsCreate _ deadline => deadline = 10000
  | _ => true

theorem tickingGenuine {code} (all : ∀ e ∈ (setup code).1, created e.1) :
    ∀ k ∈ ticking code, k.Genuine 10000 := by
  intro k member
  obtain ⟨e,here,rfl⟩ := List.mem_map.mp member
  have answer := playAnswers (shaking code) (dataTlsSetup 2 vault 7) e here
  constructor
  · rintro now rfl
    exact answer
  · rintro fd until_ made rfl
    exact of_decide_eq_true (all _ here)
  · rintro result rfl
    exact answer

theorem handshakesLate :
    (∃ log, (reactor 2 vault).logged.Reached (negotiating,log)) ∧
    (∃ c, negotiating.clients 0 = some c ∧ c.connected = true ∧ c.tlsHandshaking = true) ∧
    (∃ beats, Late beats [.wantRead]) ∧ (∃ beats, Late beats []) ∧
    Program.Runs (dataTlsSetup 2 vault 7) ((ticking .wantRead).map Tick.exchange) (setup .wantRead).2 ∧
    (∀ k ∈ ticking .wantRead, k.Genuine 10000 ∧ k.code = .wantRead) ∧
    (ticking .wantRead).map (fun k => (k.now,k.exchange.1)) =
      [(0,.nowMs),(20000,.tlsCreate 7 10000),(20000,.cancelled),(20000,.tlsHandshake),(20000,.poll 7 .pollin 1000),
        (20000,.cancelled),(20000,.tlsHandshake),(20000,.poll 7 .pollin 1000)] := by
  obtain ⟨log,reached,-⟩ := negotiatingReached
  obtain ⟨seat,connected,shaking,-⟩ := greeterSeat
  obtain ⟨path,iteration⟩ : _ ∧ Iteration (visiting .wantRead) := passingPath (by decide +kernel)
  obtain ⟨idle,silent⟩ := @passingPath .wantRead [.collect []] (by decide +kernel)
  have seen : (visiting .wantRead).filterMap (shakes 0) = [.wantRead] := by decide +kernel
  refine ⟨⟨log,reached⟩,⟨greeter,seat,connected,shaking⟩,⟨_,@lateActs .wantRead _ _ _ iteration path seen ?_ ?_⟩,
    ⟨_,@lateActs .wantRead _ [] _ silent idle (by decide +kernel) ?_ ?_⟩,tickingRuns .wantRead,?_,by decide +kernel⟩
  · intro answer member
    exact List.mem_singleton.mp member
  · intro answer member
    rw [List.mem_singleton.mp member]
    decide
  · simp
  · simp
  intro k member
  refine ⟨tickingGenuine (by decide +kernel) k member,?_⟩
  obtain ⟨e,-,rfl⟩ := List.mem_map.mp member
  rfl

theorem handshakesBoundedFailing :
    (∃ log st', (reactor 2 vault).logged.Reached (negotiating,log) ∧
      (reactor 2 vault).Path negotiating (visiting .failed) st' ∧ Left st' 0) ∧
    ∀ before k after answer, ticking .error = before ++ k :: after → k.exchange = ⟨.tlsHandshake,answer⟩ →
      10000 < k.now → answer = .failed ∧ after = [] ∧ (setup .error).2 = some (true,some .epipe) := by
  obtain ⟨log,reached,-⟩ := negotiatingReached
  obtain ⟨seat,connected,shaking,-⟩ := greeterSeat
  obtain ⟨path,iteration⟩ : _ ∧ Iteration (visiting .failed) := passingPath (by decide +kernel)
  have seen : (visiting .failed).filterMap (shakes 0) = [.failed] := by decide +kernel
  have same := timedActs .error (visiting .failed)
  have genuine := @timedGenuine .error _ _ seen fun answer member => List.mem_singleton.mp member
  refine ⟨⟨log,_,reached,path,?_⟩,?_⟩
  · refine ((handshakesBounded 10000).1 2 vault negotiating _ log 0 greeter (timed .error _) reached seat connected
      shaking (same.symm ▸ iteration) (same.symm ▸ path) genuine).mpr ?_
    have here : Handshake.failed ∈ (visiting .failed).filterMap (shakes 0) := by simp [seen]
    obtain ⟨act,member,called⟩ := List.mem_filterMap.mp here
    exact ⟨⟨10001,.error,act⟩,List.mem_map.mpr ⟨act,member,rfl⟩,.failed,shakesCall.mp called,.inl rfl⟩
  refine ((handshakesBounded 10000).2 2 vault 7 (ticking .error) _ (tickingRuns .error)
    (tickingGenuine (by decide +kernel))).mpr ?_
  intro k member _ _ _
  obtain ⟨e,-,rfl⟩ := List.mem_map.mp member
  rfl

end OpenPs3Ftp.Deadline
