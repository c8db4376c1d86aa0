import OpenPs3Ftp.Reactor.Machine

/-! What the reactor may do for one client at a time, whether it handles an event,
accepts the connection or completes a job. -/
namespace OpenPs3Ftp.Reactor
open Lib Text Fs Session Commands Events Worker Program

/- The jobs of the client as its current task knows them: the one in flight and whether
it is a copy and has been announced, the one created last, and the one whose final
reply is due. Nothing is said to a client that is not live. -/
structure Mind where
  live : Bool
  held : Option JobId
  copying : Bool
  told : Bool
  made : Option JobId
  due : Option Posted

def Mind.note (m : Mind) : (call : Call) → Answer call → Mind
  | .newJob _,answer => { m with made := answer }
  | .dispatch job,answer =>
    if answer then { m with held := some job.id, copying := job.op = .copy, told := false, made := none } else m
  | .send (.accepted _) _,_ => { m with told := true }
  | .send (.finished _) _,_ => { m with due := none }
  | _,_ => m

def Mind.Allows (generation : Nat) (m : Mind) : Call → Prop
  | .dispatch job => m.live = true ∧ m.held = none ∧ m.made = some job.id ∧ job.generation = generation
  | .send (.accepted job) _ => m.live = true ∧ m.held = some job ∧ m.told = false ∧ m.copying = false
  | .send (.finished job) text => m.live = true ∧
      ∃ p, m.due = some p ∧ job = p.job.id ∧ text = replyText p.verdict.1 p.verdict.2
  | .send .. => m.live = true
  | _ => True

def Mind.Leaves (generation : Nat) (m : Mind) (c : Client) : Prop :=
  m.due = none ∧ (m.live = true ∧ c.connected = true ∧ c.job = m.held ∧ c.generation = generation ∨
    c.connected = false ∧ c.job = none ∧ (if m.live then c.generation = generation + 1 else c.generation = generation))

abbrev Minds (generation : Nat) (m : Mind) (p : Handler Client) : Prop :=
  Meets (fun _ _ => True) Mind.note (Mind.Allows generation) (Mind.Leaves generation) m p

def Mind.idle : Mind := ⟨true,none,false,true,none,none⟩
def Mind.holding (job : Option JobId) : Mind := { Mind.idle with held := job }
def Mind.completing (p : Posted) : Mind := { Mind.idle with due := some p }
def Mind.stale : Mind := { Mind.idle with live := false }

theorem acceptMinds (s peer) : Minds (clientNew peer).generation .idle (acceptClient s peer) :=
  acceptMeets peer (fun _ => ⟨rfl,fun _ => rfl⟩) fun _ => ⟨rfl,.inl ⟨rfl,rfl,rfl,rfl⟩⟩

theorem closeMinds {generation m} (p) {k} (next : Minds generation m (k ())) :
    Minds generation m (closeJob p >>= k) := by
  have one : ∀ (fd : Option Fd) (k : Unit → Handler Client), Minds generation m (k ()) →
      Minds generation m (closeSome fd >>= k) := by
    intro fd k next
    cases fd with
    | none => exact next
    | some fd => exact ⟨trivial,fun _ _ => next⟩
  unfold closeJob
  rw [bindAssoc]
  exact one _ _ (one _ _ next)

variable {c : Client}

theorem finishAbortMinds (connected : c.connected = true) :
    Minds c.generation .idle (finishAbort { c with job := none }) := by
  unfold finishAbort
  split
  · exact ⟨rfl,fun _ _ => ⟨rfl,.inl ⟨rfl,connected,rfl,rfl⟩⟩⟩
  · exact ⟨rfl,.inl ⟨rfl,connected,rfl,rfl⟩⟩

theorem completeMinds {p} (connected : c.connected = true) (here : p.job.generation = c.generation) :
    Minds c.generation (.completing p) (datachanComplete p c) := by
  refine closeMinds p ?_
  rw [if_neg (by simpa using here)]
  exact ⟨⟨rfl,p,rfl,rfl,rfl⟩,fun _ _ => finishAbortMinds connected⟩

theorem staleMinds {p} (left : c.connected = false) (free : c.job = none) (other : p.job.generation ≠ c.generation) :
    Minds c.generation .stale (datachanComplete p c) := by
  refine closeMinds p ?_
  rw [if_pos other]
  exact ⟨rfl,.inr ⟨left,free,rfl⟩⟩

variable {s : Server}

theorem Follows.same {d} (follows : Follows s d c) :
    c.connected = d.client.connected ∧ c.generation = d.client.generation := by
  obtain ⟨c',how,same⟩ := follows
  rw [same]
  rcases how with ⟨-,-,rfl⟩ | ⟨command,-,outcome⟩
  · exact ⟨rfl,rfl⟩
  · exact ⟨outcome.same.1,outcome.same.2.1⟩

structure Agrees (generation : Nat) (d : Duty) (m : Mind) : Prop where
  live : m.live = true
  calm : m.due = none
  client : d.client.connected = true ∧ d.client.generation = generation
  held : m.held = d.held
  free : d.work.made ≠ none → d.client.job = none
  made : d.work.flying = none → ∀ job, d.work.made = some job → m.made = some job
  told : d.work.flying ≠ none → d.work.announced = m.told ∧ d.work.copying = m.copying
  quiet : d.work.flying = none → d.work.announced = false

section
variable {s : Server} {generation : Nat} {d : Duty} {m : Mind} (agrees : Agrees generation d m)
include agrees

theorem Agrees.allows {call} (owed : Owed s True d call) : m.Allows generation call := by
  cases call with
  | send about text =>
    cases about with
    | accepted job =>
      obtain ⟨flying,quiet,plain⟩ := owed
      obtain ⟨told,copying⟩ := agrees.told (by simp [flying])
      exact ⟨agrees.live,by simp [agrees.held,Duty.held,flying],told ▸ quiet,copying ▸ plain⟩
    | finished job => exact owed.elim
    | command | abort => exact agrees.live
  | dispatch job =>
    obtain ⟨-,made,grounded,stamp,-⟩ := owed
    refine ⟨agrees.live,?_,agrees.made grounded _ made,stamp.trans agrees.client.2⟩
    simp [agrees.held,Duty.held,grounded,agrees.free (by simp [made])]
  | _ => trivial

theorem Agrees.note {call} (owed : Owed s True d call) (answer) :
    Agrees generation (d.note call answer) (m.note call answer) := by
  cases call with
  | enter name c =>
    obtain ⟨follows,-⟩ := owed
    have same := Follows.same follows
    exact ⟨agrees.live,agrees.calm,⟨same.1.trans agrees.client.1,same.2.trans agrees.client.2⟩,
      agrees.held.trans follows.job.symm,by simp [Duty.note,nothing],by simp [Duty.note,nothing],
      by simp [Duty.note,nothing],fun _ => rfl⟩
  | newJob op =>
    exact ⟨agrees.live,agrees.calm,agrees.client,agrees.held,fun _ => owed.1,fun _ _ made => made,agrees.told,
      agrees.quiet⟩
  | dispatch job =>
    cases answer with
    | false =>
      exact ⟨agrees.live,agrees.calm,agrees.client,agrees.held,agrees.free,agrees.made,agrees.told,agrees.quiet⟩
    | true =>
      exact ⟨agrees.live,agrees.calm,agrees.client,rfl,agrees.free,by simp [Duty.note,progress],
        by simpa [Duty.note,progress,Mind.note] using agrees.quiet owed.2.2.1,
        by simp [Duty.note,progress]⟩
  | send about text =>
    cases about with
    | accepted job =>
      exact ⟨agrees.live,agrees.calm,agrees.client,agrees.held,agrees.free,agrees.made,
        fun flying => ⟨rfl,(agrees.told flying).2⟩,
        fun grounded => absurd (owed.1.symm.trans grounded) (by simp)⟩
    | finished job => exact owed.elim
    | command | abort =>
      exact ⟨agrees.live,agrees.calm,agrees.client,agrees.held,agrees.free,agrees.made,agrees.told,agrees.quiet⟩
  | _ => exact ⟨agrees.live,agrees.calm,agrees.client,agrees.held,agrees.free,agrees.made,agrees.told,agrees.quiet⟩

theorem Agrees.leaves (ended : Ended s d c) : m.Leaves generation c := by
  obtain ⟨c',follows,how⟩ := ended
  have same := Follows.same follows
  refine ⟨agrees.calm,?_⟩
  rcases how with ⟨-,rfl⟩ | ⟨-,rfl⟩
  · exact .inl ⟨agrees.live,same.1.trans agrees.client.1,follows.job.trans agrees.held.symm,
      same.2.trans agrees.client.2⟩
  · refine .inr ⟨rfl,rfl,?_⟩
    rw [agrees.live,if_pos rfl,← agrees.client.2,← same.2]
    rfl

end

theorem eventMinds {revents} (received) (connected : c.connected = true) :
    Minds c.generation (.holding c.job) (handleClientEvents s revents received c) := by
  have start : Agrees c.generation (fresh c) (.holding c.job) :=
    ⟨rfl,rfl,⟨connected,rfl⟩,rfl,by simp [fresh,nothing],by simp [fresh,nothing],by simp [fresh,nothing],
      fun _ => rfl⟩
  exact meetsWeaken (Agrees c.generation) start (fun _ _ _ agrees owed => agrees.allows owed)
    (fun _ _ _ answer agrees owed => agrees.note owed answer) (fun _ _ _ agrees ended => agrees.leaves ended)
    (@eventDutiful s True c revents received fun _ _ => .inr trivial)

theorem runPosts {rounds job trace posted} (run : (transferRun rounds s job).Runs trace (some posted)) :
    posted.job = job := by
  have same : Bounded.Obeys (fun _ _ => True) (fun _ => True) (fun p : Posted => p.job = job)
      (transferRun rounds s job) := by
    have any : ∀ {α : Type} (p : Routine α), Bounded.Obeys (fun _ _ => True) (fun _ => True) (fun _ => True) p :=
      fun p => meetsAny p (fun _ _ => trivial) (fun _ _ _ _ => trivial)
    unfold transferRun
    split
    · exact Bounded.keepsBind (Bounded.keepsMono (fun _ _ _ => Bounded.keepsPure.mpr rfl) (any _))
    refine Bounded.keepsBind (Bounded.keepsMono ?_ (any _))
    rintro _ (⟨fd,e⟩ | fd) -
    · exact Bounded.keepsPure.mpr rfl
    · exact Bounded.keepsBind (Bounded.keepsMono (fun _ _ _ => Bounded.keepsPure.mpr rfl) (any _))
  exact (obeysRuns same run fun _ _ => trivial).1 posted rfl

def Act.launches : Act → List Flight
  | .call id ⟨.dispatch job,answer⟩ => if answer = true then [⟨id,job⟩] else []
  | _ => []

def Act.lands : Act → List Flight
  | .complete d => [d.flight]
  | _ => []

theorem flightsStep {workers s st st' act} (step : Step workers s st act st') :
    (act.lands ++ flights st').Perm (act.launches ++ flights st) := by
  have same : ∀ {l l' : List Flight}, l' = l → ([] ++ l').Perm ([] ++ l) := fun eq => eq ▸ .refl _
  cases step with
  | wake _ at_ | collect _ at_ _ | event _ _ _ at_ _ | accept _ at_ | accepted _ at_ | served _ at_ =>
    exact same (by simp [flights,drained,at_])
  | finish _ => exact same rfl
  | @complete d left c idle at_ owner =>
    simp only [Act.lands,Act.launches,flights,drained,at_,List.map_cons,List.nil_append,List.singleton_append]
    rw [← List.append_assoc,← List.append_assoc]
    exact List.perm_middle.symm
  | @call id call next answer busy possible =>
    cases call with
    | dispatch job =>
      cases answer with
      | false => exact same rfl
      | true =>
        simp only [Act.lands,Act.launches,flights,drained,answered,if_true,List.nil_append,List.append_assoc,
          List.singleton_append]
        exact List.perm_middle
    | newJob op => cases answer <;> exact same rfl
    | _ => exact same rfl
  | @take f rest waiting free =>
    simp only [Act.lands,Act.launches,flights,drained,waiting,List.nil_append]
    exact List.perm_middle.append_right _
  | @post f before after rounds trace posted busy run =>
    have back : (⟨f.owner,posted⟩ : Delivery).flight = f := by simp [Delivery.flight,runPosts run]
    simp only [Act.lands,Act.launches,flights,drained,busy,List.map_cons,back,List.cons_append,List.nil_append]
    refine List.perm_middle.trans ?_
    rw [← List.cons_append]
    refine List.Perm.append_right _ ?_
    rw [← List.append_assoc,← List.append_assoc]
    exact List.perm_middle.symm

end OpenPs3Ftp.Reactor
