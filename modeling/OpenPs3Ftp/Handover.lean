import OpenPs3Ftp.Uptime

/-! Lines that other threads hand over to the reactor, from the queue to the socket. -/
namespace OpenPs3Ftp.Service
open Lib Text Session Commands Events Worker Reactor Program System

def Move.links : Move → Option Pending
  | .link p => some p
  | _ => none

def Move.handles : Move → Option Pending
  | .reply p _ => some p
  | _ => none

def queuedIn (log : List Move) : List Pending := log.filterMap Move.links
def handledIn (log : List Move) : List Pending := log.filterMap Move.handles
def Parted (log : List Move) (id : ClientId) : Prop := ∃ c, .core (.finish id c) ∈ log ∧ c.connected = false

def Place.shut : Place → Bool
  | .replying point _ => point = .last
  | .ended => true
  | _ => false

def Timely (now : State × List Move) : Move → Prop
  | .link _ => now.1.place.shut = false
  | _ => True

def Place.deserted : Place → Bool
  | .entering point | .replying point _ => point = .last
  | .ended => true
  | _ => false

def Place.calm : Place → Bool
  | .top | .entering _ | .replying .. | .ended => true
  | _ => false

/- The rest of `client_disconnect` after the generation has changed. -/
def Parting (core : Reactor.State) (id : ClientId) : Prop :=
  ∃ c : Client, core.task = some (id,closeSome c.pasvFd >>= fun _ => pure (gone c)) ∨ core.task = some (id,.done (gone c))

def Current (core : Reactor.State) (p : Pending) : Prop :=
  Parting core p.owner ∨ ∃ c, core.clients p.owner = some c ∧ (c.connected = true → p.generation = c.generation)

inductive Seats (st st' : State) : Move → Prop where
  | ends {id c} (busy : st.core.task = some (id,.done c)) (clients : st'.core.clients = seated st.core id c) :
      Seats st st' (.core (.finish id c))
  | keeps {move} (clients : st'.core.clients = st.core.clients) (other : ∀ id c, move ≠ .core (.finish id c)) :
      Seats st st' move

inductive Passing (st st' : State) : Move → Prop where
  | grab (none : inHand st = []) (all : inHand st' = st.linked) (empty : st'.linked = []) : Passing st st' .grab
  | reply {p c} (calm : st.place.calm = true) (owner : st.core.clients p.owner = some c)
      (hand : inHand st = p :: inHand st') (linked : st'.linked = st.linked) : Passing st st' (.reply p (written c p))
  | link {p} (hand : inHand st' = inHand st) (linked : st'.linked = st.linked ++ [p]) : Passing st st' (.link p)
  | rest {move} (hand : inHand st' = inHand st) (linked : st'.linked = st.linked) (links : move.links = none)
      (handles : move.handles = none) (other : move ≠ .grab) : Passing st st' move

structure Passed (st : State) (log : List Move) : Prop where
  even : Even st
  calm : st.place.calm = true → st.core.task = none
  deserted : st.place.deserted = true → ∀ id, listed st.core id = false
  parted : ∀ id, Parted log id ↔ Left st.core id
  current : ∀ p ∈ st.stamped ++ lines st, Current st.core p
  order : queuedIn log = handledIn log ++ inHand st ++ st.linked
  taken : ∀ first, first ++ [.grab] <+: log → queuedIn first <+: handledIn log ++ inHand st
  sent : ∀ first p sent, first ++ [.reply p sent] <+: log → (sent = true ↔ ¬ Parted first p.owner)

variable {id : ClientId} {core core' : Reactor.State} {p : Pending}

section
variable {workers : Nat} {s : Server} {st st' : State} {move : Move} {log : List Move}

theorem calmStep (calm : st.place.calm = true → st.core.task = none) (step : Step workers s st move st') :
    st'.place.calm = true → st'.core.task = none := by
  cases step with
  | core fits step =>
    cases step with
    | wake idle at_ =>
      obtain ⟨point,place,-⟩ := fits
      simp [after,moved,place,Place.calm]
    | complete idle at_ owner =>
      obtain ⟨point,place⟩ := fits
      simp [after,moved,place,Place.calm]
    | accept idle at_ =>
      have place : st.place = .serving false := fits
      simp [after,moved,place,Place.calm]
    | event root received idle at_ owner =>
      rintro ⟨⟩
    | collect idle | accepted idle | served idle => exact fun _ => idle
    | call answer busy possible =>
      intro still
      have idle := calm still
      simp [busy] at idle
    | finish busy => exact fun _ => rfl
    | take waiting free | post busy run => exact calm
  | poll outcome at_ going | leave at_ asked | grab at_ | closed at_ | reply at_ owner =>
    exact fun _ => calm (by rw [at_]; rfl)
  | look at_ idle =>
    split <;> exact fun _ => idle
  | broke at_ idle empty | drained at_ idle empty | dropped at_ idle none_ | refuse at_ idle ready =>
    exact fun _ => idle
  | drop at_ idle owner here first => simp [at_,Place.calm]
  | stamp p reads | retain held | link held | stop => exact calm

theorem desertedCalm {place : Place} (deserted : place.deserted = true) : place.calm = true := by
  cases place with
  | top | entering | replying | ended => rfl
  | completing | serving | dropping => cases deserted

theorem desertedStep (calm : st.place.calm = true → st.core.task = none)
    (deserted : st.place.deserted = true → ∀ id, listed st.core id = false) (step : Step workers s st move st') :
    st'.place.deserted = true → ∀ id, listed st'.core id = false := by
  cases step with
  | core fits step =>
    cases step with
    | wake idle at_ =>
      obtain ⟨point,place,-⟩ := fits
      simp [after,moved,place,Place.deserted]
    | collect | event | served => rintro ⟨⟩
    | call answer busy possible | finish busy =>
      intro past
      have idle := calm (desertedCalm past)
      simp [busy] at idle
    | complete | accept | accepted | take | post => exact deserted
  | poll | leave | broke | drained => rintro ⟨⟩
  | grab at_ | reply at_ owner =>
    intro past
    refine deserted ?_
    rw [at_]
    exact past
  | look at_ idle => split <;> rintro ⟨⟩
  | dropped at_ idle none_ => exact fun _ => none_
  | closed at_ => exact fun _ => deserted (by rw [at_]; rfl)
  | drop at_ => simp [at_,Place.deserted]
  | refuse at_ => simp [at_,release,Place.deserted]
  | stamp | retain | link | stop => exact deserted

theorem seatsStep (step : Step workers s st move st') : Seats st st' move := by
  cases step with
  | core fits step =>
    cases step with
    | finish busy => exact .ends busy rfl
    | call answer busy possible => exact .keeps (answeredClients ..) (by simp)
    | _ => exact .keeps rfl (by simp)
  | look at_ idle =>
    split <;> exact .keeps rfl (by simp)
  | _ => exact .keeps rfl (by simp)

theorem partedAppend (id) : Parted (log ++ [move]) id ↔
    Parted log id ∨ ∃ c, move = .core (.finish id c) ∧ c.connected = false := by
  simp only [Parted,List.mem_append,List.mem_singleton,or_and_right,exists_or,eq_comm]

theorem leftStays (even : Even st) (left : Left st.core id) (step : Step workers s st move st') :
    Left st'.core id := by
  obtain ⟨⟨log,m,sound⟩,-⟩ := even
  cases step with
  | core fits step => exact (leftStep sound left step).1
  | look at_ idle =>
    split <;> exact left
  | _ => exact left

theorem partedStep (even : Even st) (same : ∀ id, Parted log id ↔ Left st.core id) (step : Step workers s st move st')
    (id) : Parted (log ++ [move]) id ↔ Left st'.core id := by
  rw [partedAppend,same]
  constructor
  · rintro (left | ⟨c,rfl,gone⟩)
    · exact leftStays even left step
    · cases seatsStep step with
      | ends busy clients => exact ⟨c,by simp [clients,seated],gone⟩
      | keeps clients other => exact absurd rfl (other id c)
  rintro ⟨c,here,gone⟩
  cases seatsStep step with
  | keeps clients other => exact .inl ⟨c,by rw [← clients,here],gone⟩
  | @ends i c' busy clients =>
    rw [clients] at here
    by_cases mine : id = i
    · subst mine
      obtain rfl : c' = c := by simpa [seated] using here
      exact .inr ⟨c',rfl,gone⟩
    · exact .inl ⟨c,by simpa [seated,mine] using here,gone⟩

theorem Current.of (current : Current core p) (task : core'.task = core.task)
    (clients : core'.clients = core.clients) : Current core' p := by
  unfold Current Parting at current ⊢
  rwa [task,clients]

theorem Current.idle (current : Current core p) (idle : core.task = none)
    (clients : core'.clients = core.clients) : Current core' p := by
  rcases current with ⟨c,busy | busy⟩ | settled
  · simp [idle] at busy
  · simp [idle] at busy
  · exact .inr (by rwa [clients])

theorem partingCall {call next answer owner} (busy : core.task = some (id,.ask call next))
    (parting : Parting core owner) (now : core'.task = some (id,next answer)) : Parting core' owner := by
  obtain ⟨c,at_ | at_⟩ := parting
  · obtain ⟨rfl,same⟩ := somePair busy at_
    cases listening : c.pasvFd with
    | none => simp [listening,closeSome] at same
    | some fd =>
      rw [listening] at same
      change Program.ask call next = .ask (.closeFd fd) fun _ => .done (gone c) at same
      cases same
      exact ⟨c,.inr now⟩
  · simp [busy] at at_

theorem partingFinish {owner c'} (busy : core.task = some (id,.done c')) (parting : Parting core owner) :
    owner = id ∧ c'.connected = false := by
  obtain ⟨c,at_ | at_⟩ := parting
  · obtain ⟨rfl,same⟩ := somePair busy at_
    cases listening : c.pasvFd with
    | none =>
      rw [listening] at same
      change Program.done c' = .done (gone c) at same
      cases same
      exact ⟨rfl,rfl⟩
    | some fd => simp [listening,closeSome] at same
  · cases busy.symm.trans at_
    exact ⟨rfl,rfl⟩

theorem currentFinish {c'} (even : Even st) (current : Current st.core p) (busy : st.core.task = some (id,.done c')) :
    Current { st.core with clients := seated st.core id c', task := none } p := by
  obtain ⟨⟨log,m,sound⟩,-⟩ := even
  by_cases mine : p.owner = id
  · refine .inr ⟨c',by simp [seated,mine],fun connected => ?_⟩
    rcases current with parting | ⟨c,here,same⟩
    · simp [(partingFinish busy parting).2] at connected
    rw [mine] at here
    cases there : c.connected with
    | true =>
      rcases eventLeaves sound busy here there with ⟨-,stamp⟩ | ⟨gone,-⟩
      · rw [same there,stamp]
      · simp [gone] at connected
    | false =>
      obtain ⟨generation,leaves,tasked⟩ := sound.engagedIn busy
      obtain ⟨d,seat,gone⟩ := Left.finish ⟨c,here,there⟩ tasked leaves
      obtain rfl : c' = d := by simpa [seated] using seat
      simp [gone] at connected
  · rcases current with parting | ⟨c,here,same⟩
    · exact absurd (partingFinish busy parting).1 mine
    · exact .inr ⟨c,by simpa [seated,mine] using here,same⟩

theorem currentStep (even : Even st) (current : Current st.core p) (step : Step workers s st move st') :
    Current st'.core p := by
  cases step with
  | core fits step =>
    cases step with
    | wake | collect | accepted | served | take | post => exact current.of rfl rfl
    | complete idle | event _ _ idle | accept idle => exact current.idle idle rfl
    | call answer busy possible =>
      rcases current with parting | settled
      · exact .inl (partingCall busy parting rfl)
      · exact .inr (by rwa [after,answeredClients])
    | finish busy => exact currentFinish even current busy
  | look at_ idle =>
    split
    · exact current.of rfl rfl
    · exact current
  | drop at_ idle owner here first => exact current.idle idle rfl
  | _ => exact current.of rfl rfl

theorem readsCurrent (reads : Reads core p.owner p.generation) : Current core p := by
  rcases reads with ⟨c,here,same⟩ | ⟨c,busy,-⟩
  · exact .inr ⟨c,here,fun _ => same⟩
  · exact .inl ⟨c,.inl busy⟩

theorem currentWritten {c} (current : Current st.core p) (idle : st.core.task = none)
    (owner : st.core.clients p.owner = some c) : written c p = true ↔ c.connected = true := by
  rcases current with ⟨d,busy | busy⟩ | ⟨d,here,same⟩
  · simp [idle] at busy
  · simp [idle] at busy
  · obtain rfl : d = c := Option.some.inj (here.symm.trans owner)
    simp only [written,decide_eq_true_eq]
    exact ⟨And.right,fun connected => ⟨(same connected).symm,connected⟩⟩

theorem passingStep (step : Step workers s st move st') : Passing st st' move := by
  cases step with
  | core fits step => exact .rest (inHandAfter fits) (by simp only [after,countedLines]) rfl rfl (by simp)
  | grab at_ => exact .grab (by simp [inHand,at_]) rfl rfl
  | reply at_ owner => exact .reply (by rw [at_]; rfl) owner (by simp [inHand,at_,release]) rfl
  | link held => exact .link rfl rfl
  | look at_ idle =>
    split <;> exact .rest (by simp [inHand,at_]) rfl rfl rfl (by simp)
  | drop at_ | refuse at_ | stamp | retain | stop => exact .rest rfl rfl rfl rfl (by simp)
  | poll _ at_ | leave at_ | broke at_ | drained at_ | dropped at_ | closed at_ =>
    exact .rest (by simp [inHand,at_]) rfl rfl rfl (by simp)

theorem queuedAppend : queuedIn (log ++ [move]) = queuedIn log ++ move.links.toList := by
  cases named : move.links <;> simp [queuedIn,named]

theorem handledAppend : handledIn (log ++ [move]) = handledIn log ++ move.handles.toList := by
  cases named : move.handles <;> simp [handledIn,named]

theorem orderStep (order : queuedIn log = handledIn log ++ inHand st ++ st.linked) (passing : Passing st st' move) :
    queuedIn (log ++ [move]) = handledIn (log ++ [move]) ++ inHand st' ++ st'.linked := by
  rw [queuedAppend,handledAppend,order]
  cases passing with
  | grab none_ all empty => simp [none_,all,empty,Move.links,Move.handles]
  | reply calm owner hand linked | link hand linked => simp [hand,linked,Move.links,Move.handles]
  | rest hand linked links handles other => simp [hand,linked,links,handles]

theorem handledGrows (passing : Passing st st' move) :
    handledIn log ++ inHand st <+: handledIn (log ++ [move]) ++ inHand st' := by
  rw [handledAppend]
  cases passing with
  | grab none_ all empty => simp [none_,Move.handles]
  | reply calm owner hand linked | link hand linked => simp [hand,Move.handles]
  | rest hand linked links handles other => simp [hand,handles]

theorem takenStep (order : queuedIn log = handledIn log ++ inHand st ++ st.linked)
    (taken : ∀ first, first ++ [.grab] <+: log → queuedIn first <+: handledIn log ++ inHand st)
    (passing : Passing st st' move) (first) (before : first ++ [.grab] <+: log ++ [move]) :
    queuedIn first <+: handledIn (log ++ [move]) ++ inHand st' := by
  rcases List.prefix_concat_iff.mp before with now | earlier
  · obtain ⟨rfl,same⟩ := List.append_inj' now rfl
    cases passing with
    | grab none_ all empty => simp [order,handledAppend,none_,all,Move.handles]
    | rest hand linked links handles other => exact absurd (List.singleton_inj.mp same).symm other
    | reply | link => simp at same
  · exact (taken first earlier).trans (handledGrows passing)

theorem pendingStep {p} (step : Step workers s st move st') (here : p ∈ st'.stamped ++ lines st') :
    p ∈ st.stamped ++ lines st ∨ st'.core = st.core ∧ Reads st.core p.owner p.generation := by
  cases step with
  | core fits step =>
    rw [linesAfter fits] at here
    simp only [after,countedLines] at here
    exact .inl here
  | stamp q reads =>
    rcases List.mem_cons.mp here with rfl | old
    · exact .inr ⟨rfl,reads⟩
    · exact .inl old
  | retain held =>
    left
    simp only [retain,lines,inHand,List.mem_append,List.mem_cons,held] at here ⊢
    tauto
  | link held =>
    left
    simp only [lines,inHand,List.mem_append,List.mem_cons,held] at here ⊢
    tauto
  | grab at_ | reply at_ =>
    left
    simp only [lines,inHand,release,List.mem_append,List.mem_cons,at_] at here ⊢
    tauto
  | look at_ idle =>
    split at here
    · exact .inl (by simpa [lines,inHand,at_] using here)
    · exact .inl (by simpa [lines,inHand,at_] using here)
  | poll _ at_ | leave at_ | broke at_ | drained at_ | dropped at_ | closed at_ =>
    exact .inl (by simpa [lines,inHand,at_] using here)
  | drop | refuse | stop => exact .inl here

theorem passedStep (passed : Passed st log) (step : Step workers s st move st') : Passed st' (log ++ [move]) := by
  have passing := passingStep step
  refine ⟨evenStep passed.even step,calmStep passed.calm step,desertedStep passed.calm passed.deserted step,
    partedStep passed.even passed.parted step,
    fun p member => ?_,orderStep passed.order passing,takenStep passed.order passed.taken passing,fun first p sent before => ?_⟩
  · rcases pendingStep step member with old | ⟨same,reads⟩
    · exact currentStep passed.even (passed.current p old) step
    · exact (readsCurrent reads).of (by rw [same]) (by rw [same])
  rcases List.prefix_concat_iff.mp before with now | earlier
  · obtain ⟨rfl,same⟩ := List.append_inj' now rfl
    obtain rfl := List.singleton_inj.mp same
    generalize told : Move.reply p sent = move at passing
    cases passing with
    | @reply q c calm owner hand linked =>
      cases told
      have current := passed.current p (by simp [lines,hand])
      rw [currentWritten current (passed.calm calm) owner,passed.parted]
      simp [Left,owner]
    | grab | link => cases told
    | rest hand linked links handles other => simp [← told,Move.handles] at handles
  · exact passed.sent first p sent earlier

theorem passedStart (start : Start st) : Passed st [] := by
  have even := evenStart start
  obtain ⟨⟨none_,-,-,-,-,idle⟩,-,at_,-,-,-,stamped,retained,linked⟩ := start
  have hand : inHand st = [] := by simp [inHand,at_]
  refine ⟨even,fun _ => idle,by simp [at_,Place.deserted],fun id => ?_,by simp [lines,stamped,retained,linked,hand],?_,
    by simp,by simp⟩
  · simp [Parted,Left,none_]
  · simp [queuedIn,handledIn,hand,linked]

theorem shutBefore (step : Step workers s st move st') (past : st'.place.shut = true) :
    st.place.shut = true ∨ move = .grab ∧ st.place = .entering .last := by
  cases step with
  | @core act core fits step =>
    cases act with
    | wake =>
      obtain ⟨point,place,-⟩ := fits
      simp [after,moved,place,Place.shut] at past
    | collect | event | served => cases past
    | _ => exact .inl past
  | poll | leave | broke | drained | dropped => cases past
  | grab at_ =>
    have last := of_decide_eq_true past
    exact .inr ⟨rfl,by rw [at_,last]⟩
  | reply at_ owner =>
    left
    rw [at_]
    exact past
  | look at_ idle =>
    split at past
    · cases past
    · cases past
  | closed at_ => exact .inl (by rw [at_]; rfl)
  | drop | refuse | stamp | retain | link | stop => exact .inl past

theorem shutStep (shut : st.place.shut = true → st.linked = []) (timely : ∀ p, move = .link p → st.place.shut = false)
    (step : Step workers s st move st') (past : st'.place.shut = true) : st'.linked = [] := by
  have before := shutBefore step past
  cases passingStep step with
  | grab none_ all empty => exact empty
  | reply calm owner hand linked => exact linked.trans (shut (before.resolve_right fun grabs => by cases grabs.1))
  | link hand linked =>
    have open_ := timely _ rfl
    simp [open_] at before
  | rest hand linked links handles other => exact linked.trans (shut (before.resolve_right fun grabs => other grabs.1))

end

theorem linesHandedOver (workers : Nat) (s : Server) (st : State) (log : List Move)
    (reached : (service workers s).logged.Reach Timely (st,log)) :
    queuedIn log = handledIn log ++ inHand st ++ st.linked ∧
    (∀ first, first ++ [.grab] <+: log → queuedIn first <+: handledIn log ++ inHand st) ∧
    (∀ first p sent, first ++ [.reply p sent] <+: log → (sent = true ↔ ¬ Parted first p.owner)) ∧
    (st.place = .ended → queuedIn log = handledIn log ∧ (∀ id, listed st.core id = false) ∧
      ((service workers s).Reach Referenced st →
        ∀ id, st.refs id = ((own st.core id).length + (naming id st.retained).length : Nat))) := by
  obtain ⟨passed,shut⟩ : Passed st log ∧ (st.place.shut = true → st.linked = []) := by
    refine System.invariant (P := fun now => Passed now.1 now.2 ∧ (now.1.place.shut = true → now.1.linked = [])) ?_ ?_ reached
    · rintro ⟨st,log⟩ ⟨start,rfl⟩
      exact ⟨passedStart start,fun _ => start.2.2.2.2.2.2.2.2⟩
    · rintro ⟨st,log⟩ move ⟨st',log'⟩ ⟨passed,shut⟩ timely ⟨step,rfl⟩
      exact ⟨passedStep passed step,shutStep shut (fun p link => by rw [link] at timely; exact timely) step⟩
  refine ⟨passed.order,passed.taken,passed.sent,fun past => ?_⟩
  have hand : inHand st = [] := by simp [inHand,past]
  have empty : st.linked = [] := shut (by rw [past]; rfl)
  have deserted := passed.deserted (by rw [past]; rfl)
  refine ⟨by rw [passed.order,hand,empty,List.append_nil,List.append_nil],deserted,fun counted id => ?_⟩
  obtain ⟨held,tally⟩ := tallyReached counted
  rw [tally.count,totalIdle (passed.calm (by rw [past]; rfl)),deserted id,lines,hand,empty]
  simp

def afterwards : List Move × State :=
  plays (fun st move => !(move matches .link _) || !st.place.shut)
    (arriving ++ [.stamp note,.retain,.link,.poll .ready,.core (.collect []),.stop])

theorem linesHandedOverNote : ∃ st log, (service 2 house).logged.Reach Timely (st,log) ∧
    st.place = .ended ∧ queuedIn log = [note] ∧ handledIn log = [note] := by
  have reached : (service 2 house).logged.Reach Timely (afterwards.2,[] ++ afterwards.1) := by
    refine Chooser.playKept (R := fun st log => (service 2 house).logged.Reach Timely (st,log)) ?_ 200 [] _
      (evenStart blankStart) (.start ⟨blankStart,rfl⟩)
    refine fun st log move st' before met moved => .step before ?_ ⟨moved,rfl⟩
    cases move with
    | link p => simpa [Timely] using met
    | _ => trivial
  have facts : afterwards.2.place.isEnded = true ∧ queuedIn afterwards.1 = [note] := by decide +kernel
  generalize afterwards = last at reached facts
  have ended := matchesEnded facts.1
  refine ⟨last.2,last.1,reached,ended,facts.2,?_⟩
  rw [← ((linesHandedOver 2 house last.2 last.1 reached).2.2.2 ended).1]
  exact facts.2

section
variable {workers : Nat} {s : Server} {st : State} {move : Move}

theorem endedStays {st'} (ended : st.place = .ended) (step : Step workers s st move st') : st'.place = .ended := by
  cases step with
  | @core act core fits step =>
    cases act with
    | wake =>
      obtain ⟨point,place,-⟩ := fits
      simp [ended] at place
    | collect ready =>
      have place : st.place = .completing (.round .ready) := fits
      simp [ended] at place
    | event | served =>
      have place : st.place = .serving false := fits
      simp [ended] at place
    | _ => exact ended
  | poll _ at_ | leave at_ | grab at_ | reply at_ | look at_ | broke at_ | drained at_ | drop at_ | dropped at_ | closed at_
  | refuse at_ => simp [ended] at at_
  | stamp | retain | link | stop => exact ended

theorem endedStep {st'} (past : st.place = .ended ∧ p ∈ st.linked) (step : Step workers s st move st') :
    st'.place = .ended ∧ p ∈ st'.linked := by
  obtain ⟨ended,here⟩ := past
  refine ⟨endedStays ended step,?_⟩
  cases passingStep step with
  | grab none_ all empty =>
    cases step with
    | grab at_ => simp [ended] at at_
  | link hand linked =>
    rw [linked]
    exact List.mem_append_left _ here
  | reply calm owner hand linked | rest hand linked links handles other => rwa [linked]

end

/- The client has sent STOU, and a worker has taken the job. -/
def storing : List Hint :=
  arriving ++ [.poll .ready,.core (.collect [.client 0 ⟨false,true,false⟩]),.core (.event [.bytes stored,.wouldBlock]),.core .take]

def late : List Move × State :=
  plays (fun st move => decide (Referenced st move)) (storing ++ [.stamp note,.retain,.stop,.link])

def parts (move : Move) : Bool :=
  match move with
  | .core (.finish 0 c) => !c.connected
  | _ => false

theorem lineForgotten : ∃ st log p job, (service 2 house).logged.Reached (st,log) ∧ (service 2 house).Reach Referenced st ∧
    ⟨p.owner,job⟩ ∈ st.core.running ∧ st.place = .ended ∧ p ∈ queuedIn log ∧ Parted log p.owner ∧ p ∉ handledIn log ∧
    ∀ moves st', (service 2 house).Path st moves st' → p ∈ st'.linked := by
  have reached : (service 2 house).logged.Reached (late.2,late.1) := playsReached _ _
  have reach : (service 2 house).Reach Referenced late.2 := playsReferenced _
  have facts : late.2.core.running.map Flight.owner = [0] ∧ late.2.place.isEnded = true ∧ note ∈ queuedIn late.1 ∧
      late.1.any parts = true ∧ note ∉ handledIn late.1 ∧ note ∈ late.2.linked := by decide +kernel
  generalize late = last at reached reach facts
  obtain ⟨running,ended,queued,parted,forgotten,linked⟩ := facts
  obtain ⟨⟨owner,job⟩,only,rfl⟩ := List.map_eq_singleton_iff.mp running
  have past := matchesEnded ended
  refine ⟨last.2,last.1,note,job,reached,reach,by simp [only,note],past,queued,?_,forgotten,
    fun moves st' later => (later.kept (P := fun st => st.place = .ended ∧ note ∈ st.linked)
      (fun _ _ _ => endedStep) ⟨past,linked⟩).2⟩
  obtain ⟨move,member,parts_⟩ := List.any_eq_true.mp parted
  unfold parts at parts_
  split at parts_
  · exact ⟨_,member,by simpa using parts_⟩
  · cases parts_

end OpenPs3Ftp.Service
