import OpenPs3Ftp.Legacy.Conduct
import OpenPs3Ftp.Containment

/-! Who may touch files and open data connections on a legacy server. The core's gate is
opened for every client, so only the checks of the old handlers are left, and the core
handlers that were not replaced have none. -/
namespace OpenPs3Ftp.Legacy
open Lib Text Fs Session Commands Dispatch Events Worker System
open Bounded (Uses Keeps)

def State.authed (st : State) : Prop := ∃ f, st.facade = some f ∧ f.auth = true

def Act.opens : Act → Prop
  | .call _ e => Opens e.1
  | .work _ ⟨.fs _,_⟩ | .work _ ⟨.accept _,_⟩ | .work _ ⟨.socket _,_⟩ | .work _ ⟨.connect ..,_⟩ => True
  | _ => False

def Careful (st : State) : Act → Prop
  | .turn turn => ∀ f, st.facade = some f → f.auth = false → ∀ name ∈ exposed, ¬ Names turn name
  | _ => True

structure Sound (st : State) : Prop where
  task : ∀ p, st.task = some p → ∃ r : Record, (r.known = true → st.authed) ∧ Turned st.core r p
  gate : st.facade = none → st.core.loggedIn = false
  hands : st.executors ≠ [] ∨ st.jobs ≠ [] → st.authed
  steady : ∀ p ∈ st.executors, Uses Steady p

variable {c : Client} {r : Record} {call : Ask}

section Steps
variable {u : Setup} {st st' : State} {who : Thread} {e : Exchange Ask.Answer}

def Grants : Ask → Prop
  | .store (.auth granted) => granted = true
  | _ => True

theorem steadyGrants {call} (steady : Steady call) : Grants call := by
  cases call with
  | store field => cases field <;> first | exact trivial | exact steady.elim
  | _ => exact trivial

theorem conductGrants (conduct : Conduct c r call) : Grants call := by
  cases call with
  | store field => cases field <;> first | exact trivial | exact conduct
  | _ => exact trivial

theorem setGrants {f : Facade} {field} (grants : Grants (.store field)) (granted : f.auth = true) :
    (f.set field).auth = true := by
  cases field <;> first | exact granted | exact grants

theorem changesAuthed (changes : Changes u who st e st') (grants : Grants e.1) (authed : st.authed) : st'.authed := by
  cases changes with
  | store field =>
    obtain ⟨f,here,granted⟩ := authed
    exact ⟨f.set field,by simp [here],setGrants grants granted⟩
  | lock | unlock | dispatch | job | other => exact authed

theorem changesSame (changes : Changes u who st e st') :
    st'.core = st.core ∧ st'.task = st.task ∧ (st'.facade = none ↔ st.facade = none) := by
  cases changes with
  | store field => exact ⟨rfl,rfl,by simp⟩
  | lock | unlock | dispatch | job | other => exact ⟨rfl,rfl,Iff.rfl⟩

theorem changesHands (changes : Changes u who st e st') (owed : Opens e.1 → st.authed) :
    st'.executors ≠ [] ∨ st'.jobs ≠ [] → st.authed ∨ st.executors ≠ [] ∨ st.jobs ≠ [] := by
  cases changes with
  | store | lock | unlock | other => exact .inr
  | dispatch | job => exact fun _ => .inl (owed trivial)

theorem changesSteady (changes : Changes u who st e st') (steady : ∀ p ∈ st.executors, Uses Steady p) :
    ∀ p ∈ st'.executors, Uses Steady p := by
  cases changes with
  | store | lock | unlock | other | job => exact steady
  | dispatch event rounds =>
    exact List.forall_mem_append.mpr ⟨steady,List.forall_mem_singleton.mpr (steadyExecutor rounds event)⟩

theorem conductOpens (conduct : Conduct c r call) (opens : Opens call) :
    r.known = true := by
  cases call with
  | core call => cases call <;> first | exact conduct.1 opens | exact opens.elim
  | connect | accept => exact conduct
  | dispatch => exact conduct.1
  | _ => exact opens.elim

theorem recallAuthed {answer} (possible : Possible st call answer) (before : r.known = true → st.authed) :
    (remember r call answer).known = true → st.authed := by
  cases call with
  | core call => cases call <;> exact before
  | load =>
    intro seen
    rcases Bool.or_eq_true_iff.mp seen with known | granted
    · exact before known
    · exact ⟨answer,possible,granted⟩
  | _ => exact before

variable (sound : Sound st)
include sound

theorem soundTurn {turn} (careful : Careful st (.turn turn)) :
    Sound { st with task := some (turnRun u st.core turn) } := by
  have begun : ∃ r : Record, (r.known = true → st.authed) ∧ Turned st.core r (turnRun u st.core turn) := by
    cases facade : st.facade with
    | none => exact ⟨⟨false,false⟩,nofun,turnTurned (.inr (.inl (sound.gate facade)))⟩
    | some f =>
      cases granted : f.auth with
      | true => exact ⟨⟨true,false⟩,fun _ => ⟨f,facade,granted⟩,turnTurned (.inl rfl)⟩
      | false => exact ⟨⟨false,false⟩,nofun,turnTurned (.inr (.inr (careful f facade granted)))⟩
  refine ⟨fun p same => ?_,sound.gate,sound.hands,sound.steady⟩
  cases Option.some.inj same
  exact begun

theorem soundFinish (ended : st.task = some (.done (some c))) :
    Sound { st with core := c, task := none } := by
  obtain ⟨r,-,turned⟩ := sound.task _ ended
  have same : c.loggedIn = st.core.loggedIn := turned c rfl
  exact ⟨nofun,fun none_ => same.trans (sound.gate none_),sound.hands,sound.steady⟩

theorem soundReactor {next answer} (busy : st.task = some (.ask call next))
    (possible : Possible st call answer)
    (changes : Changes u .reactor { st with task := some (next answer) } ⟨call,answer⟩ st') : Sound st' := by
  obtain ⟨r,seen,conduct,later⟩ := sound.task _ busy
  obtain ⟨core,task,facade⟩ := changesSame changes
  have grown : st.authed → st'.authed := fun authed => changesAuthed changes (conductGrants conduct) authed
  refine ⟨fun p same => ?_,fun none_ => ?_,fun hands => ?_,changesSteady changes sound.steady⟩
  · cases Option.some.inj (task.symm.trans same)
    refine ⟨remember r call answer,fun known => grown (recallAuthed possible seen known),?_⟩
    rw [core]
    exact later answer trivial
  · rw [core]
    exact sound.gate (facade.mp none_)
  · rcases changesHands changes (fun opens => seen (conductOpens conduct opens)) hands with authed | before
    · exact grown authed
    · exact grown (sound.hands before)

theorem soundExecutor {index next answer} (running : st.executors[index]? = some (.ask call next))
    (changes : Changes u (.executor index) { st with executors := st.executors.set index (next answer) }
      ⟨call,answer⟩ st') : Sound st' := by
  have member := List.mem_of_getElem? running
  have authed : st.authed := sound.hands (.inl (List.ne_nil_of_mem member))
  obtain ⟨steady,later⟩ := sound.steady _ member
  obtain ⟨core,task,facade⟩ := changesSame changes
  have after : st'.authed := changesAuthed changes (@steadyGrants call steady) authed
  refine ⟨fun p same => ?_,fun none_ => ?_,fun _ => after,changesSteady changes fun p member => ?_⟩
  · obtain ⟨r,-,turned⟩ := sound.task p (task.symm.trans same)
    refine ⟨r,fun _ => after,?_⟩
    rw [core]
    exact turned
  · rw [core]
    exact sound.gate (facade.mp none_)
  · rcases List.mem_or_eq_of_mem_set member with old | rfl
    · exact sound.steady p old
    · exact later answer trivial

theorem soundStep {act} (careful : Careful st act) (step : Step u st act st') : Sound st' := by
  cases step with
  | turn turn free ready => exact soundTurn sound careful
  | finish ended => exact soundFinish sound ended
  | reactor busy possible changes => exact soundReactor sound busy possible changes
  | executor running possible changes => exact soundExecutor sound running changes
  | work running =>
    exact ⟨sound.task,sound.gate,fun _ => sound.hands (.inr (List.ne_nil_of_mem (List.mem_of_getElem? running))),
      sound.steady⟩

end Steps

theorem connectGate {core facade trace} (run : (shimOnConnect c).Runs trace (some (core,facade)))
    (none_ : facade = none) : core = c := by
  have kept : Keeps (fun _ _ => True) (fun (_ : Unit) _ _ => ()) (fun _ _ => True)
      (fun _ (made : Client × Option Facade) => made.2 = none → made.1 = c) () (shimOnConnect c) := by
    refine Bounded.keepsAsk trivial fun made _ => ?_
    split
    · refine Bounded.keepsThen (Program.meetsAny _ (fun _ _ => trivial) fun _ _ _ _ => trivial) fun _ whole => ?_
      split
      · refine Bounded.keepsAsk trivial fun slot _ => ?_
        split
        · refine Bounded.keepsThen (Program.meetsAny _ (fun _ _ => trivial) fun _ _ _ _ => trivial) fun _ f => ?_
          exact Bounded.keepsThen (Program.meetsAny _ (fun _ _ => trivial) fun _ _ _ _ => trivial) fun _ _ =>
            Bounded.keepsPure.mpr nofun
        · exact Bounded.keepsPure.mpr fun _ => rfl
      · exact Bounded.keepsPure.mpr fun _ => rfl
    · exact Bounded.keepsPure.mpr fun _ => rfl
  exact (Program.meetsRuns kept run fun _ _ => trivial).1 _ rfl none_

theorem soundStart {u st} (start : (shim u).start st) : Sound st := by
  obtain ⟨peer,greeting,c,trace,core,facade,accepted,connected,rfl⟩ := start
  refine ⟨nofun,fun none_ => ?_,fun hands => ?_,nofun⟩
  · rw [connectGate connected none_,acceptRuns accepted]
    rfl
  · simp at hands

theorem soundReached {u st} (reached : (shim u).Reach Careful st) : Sound st :=
  invariant (fun _ => soundStart) (fun _ _ _ sound careful step => soundStep sound careful step) reached

theorem accessAuthed (u : Setup) (st st' : State) (act : Act) (reached : (shim u).Reach Careful st)
    (moved : (shim u).step st act st') (opens : act.opens) : st.authed := by
  have sound := soundReached reached
  cases moved with
  | turn | finish => exact opens.elim
  | reactor busy possible changes =>
    obtain ⟨r,seen,conduct,-⟩ := sound.task _ busy
    exact seen (conductOpens conduct opens)
  | executor running possible changes =>
    exact sound.hands (.inl (List.ne_nil_of_mem (List.mem_of_getElem? running)))
  | work running => exact sound.hands (.inr (List.ne_nil_of_mem (List.mem_of_getElem? running)))

def linux : Setup := ⟨{ house with skipBanner := true },true,4096,255⟩

def plainly : (call : Ask) → call.Answer
  | .core (.socket _) => some 5
  | .core (.bind ..) | .core (.listen _) => true
  | .core call => Containment.refusals call
  | .userdata | .malloc | .slot => true
  | .connect .. => false
  | .load => blank
  | .memory => []
  | .nfds => 0
  | .peerAddr => .unspec
  | .poll .. => .timeout
  | .accept _ => none
  | .dataSend .. => none
  | .dataRecv .. => none
  | .store _ | .lock | .unlock | .shutdown _ | .dispatch _ | .usleep _ => ()

def newcomer : State := ⟨{ visitor with loggedIn := true },some blank,none,none,[],[]⟩

theorem newcomerStart : (shim linux).start newcomer :=
  ⟨.unspec,_,_,_,_,_,Program.playRuns Containment.refusals _,Program.playRuns plainly (shimOnConnect visitor),rfl⟩

def asked (st : State) (text : String) : State :=
  { st with task := some (turnRun linux st.core (.line (ascii text))) }

def State.pending (st : State) : Option Ask :=
  match st.task with
  | some (.ask call _) => some call
  | _ => none

theorem pendingStep {u st call} (pending : st.pending = some call) (free : answerable st call = true) :
    ∃ st', (shim u).step st (.call .reactor ⟨call,answerOf st plainly call⟩) st' := by
  unfold State.pending at pending
  split at pending
  · rename_i next busy
    cases Option.some.inj pending
    exact ⟨_,.reactor busy (answerOfPossible free) (changedChanges u .reactor _ _ _)⟩
  · cases pending

def acquainted : State := (asked newcomer "ACCT").nexts linux plainly 7
def sizing : State := (asked acquainted "SIZE x").nexts linux plainly 3

theorem sizingReached : (shim linux).Reach Careful sizing := by
  have idle : ∀ (st : State) (e : Exchange Ask.Answer), Careful st (.call .reactor e) := fun _ _ => trivial
  refine nextsReach plainly idle (fun _ => trivial) 3 ?_
  have loggedIn : (shim linux).Reach Careful acquainted := by
    refine nextsReach plainly idle (fun _ => trivial) 7 (.step (.start newcomerStart) ?_ (.turn _ rfl ⟨rfl,rfl⟩))
    rintro f here out name listed (rfl : _ = name)
    revert listed
    decide +kernel
  obtain ⟨free,ready⟩ : acquainted.task = none ∧ acquainted.core.connected = true ∧
      acquainted.core.tlsHandshaking = false := by decide +kernel
  refine .step loggedIn ?_ (.turn _ free ready)
  rintro f here out name listed (rfl : _ = name)
  revert listed
  decide +kernel

theorem accessAuthedSize : sizing.pending = some (.core (.fs (.stat (ascii "/x")))) ∧
    (∃ st', (shim linux).step sizing (.call .reactor ⟨.core (.fs (.stat (ascii "/x"))),.error .enoent⟩) st') ∧
    sizing.authed := by
  have pending : sizing.pending = some (.core (.fs (.stat (ascii "/x")))) := by decide +kernel
  obtain ⟨st',step⟩ := @pendingStep linux sizing _ pending rfl
  exact ⟨pending,⟨st',step⟩,accessAuthed linux sizing st' _ sizingReached step trivial⟩

def listening : State := (asked newcomer "EPSV").nexts linux plainly 3

theorem epsvUnchecked : (shim linux).Reach (fun _ _ => True) listening ∧ ¬ listening.authed ∧
    ∃ st', (shim linux).step listening (.call .reactor ⟨.core (.listen 5),true⟩) st' ∧
      Act.opens (.call .reactor ⟨.core (.listen 5),true⟩) := by
  obtain ⟨pending,out⟩ : listening.pending = some (.core (.listen 5)) ∧ listening.facade = some blank := by
    decide +kernel
  obtain ⟨st',step⟩ := @pendingStep linux listening _ pending rfl
  refine ⟨nextsReach plainly (fun _ _ => trivial) (fun _ => trivial) 3
    (.step (.start newcomerStart) trivial (.turn _ rfl ⟨rfl,rfl⟩)),?_,st',step,trivial⟩
  rintro ⟨f,here,granted⟩
  rw [out] at here
  cases here
  cases granted

end OpenPs3Ftp.Legacy
