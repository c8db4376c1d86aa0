import OpenPs3Ftp.Polling
import OpenPs3Ftp.Upgrade

/-! Requests to disconnect a client, from the moment they are made to the next poll. They
are looked at where the events of that client are handled, and nowhere else: one that is
made at another moment waits for the client's next event. -/
namespace OpenPs3Ftp.Leaving
open Lib Text Fs Session Commands Program Events Pollset Loop Polling

/- Requests are made for a client whose events are handled, now or further on in the copy,
and no client is turned away when it is accepted. -/
def Own (s : Server) (st : State) : Act → Prop
  | .request ptr => ptr ∈ pending st.phase
  | .accept .. => s.requireTls = false
  | _ => True

def Ending : Phase → Prop
  | .dropping | .ended => True
  | _ => False

def Asked (st : State) : Prop :=
  Ending st.phase ∨ ∀ e ∈ st.clients, e.client.disconnectRequested = true → e.ptr ∈ pending st.phase

variable {st : State}

theorem Asked.calm (asked : Asked st) (going : ¬ Ending st.phase) (nobody : pending st.phase = []) :
    ∀ e ∈ st.clients, e.client.disconnectRequested = false := by
  intro e here
  by_contra flag
  have waits := asked.resolve_left going e here (by simpa using flag)
  simp [nobody] at waits

variable {e : Entry}

theorem revisedCases {clients ptr client} (here : e ∈ revised clients ptr client) :
    (e.ptr = ptr ∧ e.client = client) ∨ (e.ptr ≠ ptr ∧ e ∈ clients) := by
  obtain ⟨old,there,same⟩ := List.mem_map.mp here
  by_cases mine : old.ptr = ptr
  · rw [if_pos mine] at same
    subst same
    exact .inl ⟨mine,rfl⟩
  · rw [if_neg mine] at same
    subst same
    exact .inr ⟨mine,there⟩

variable {s : Server}

theorem completesKeeps {c c' p} (kind : Completes p.turn) (step : (connection s).step c p c') :
    c'.disconnectRequested = c.disconnectRequested := by
  obtain ⟨root,turn,trace⟩ := p
  cases turn with
  | complete posted => cases completeRuns step.2 <;> rfl
  | _ => cases kind

theorem calmAsked (calm : ∀ e ∈ st.clients, e.client.disconnectRequested = false) : Asked st :=
  .inr fun e here flag => absurd flag (by simp [calm e here])

variable {st' : State}

theorem askedSame (asked : Asked st) (going : ¬ Ending st.phase) (clients : st'.clients = st.clients)
    (still : pending st'.phase = pending st.phase) : Asked st' := by
  right
  rw [clients,still]
  exact asked.resolve_left going

theorem askedStep {act} (good : Good st) (asked : Asked st) (own : Own s st act) (step : Step s st act st') :
    Asked st' := by
  cases step with
  | wait report at_ | collect at_ | served at_ =>
    exact calmAsked (asked.calm (by simp [at_,Ending]) (by simp [at_,pending]))
  | failed at_ | stopped at_ | leave at_ | drop at_ first | close at_ none_ => exact .inl trivial
  | complete at_ here kind moved =>
    rcases at_ with at_ | at_
    · have calm := asked.calm (by simp [at_,Ending]) (by simp [at_,pending])
      refine calmAsked fun other there => ?_
      rcases revisedCases there with ⟨-,same⟩ | ⟨-,there⟩
      · rw [same,completesKeeps kind moved]
        exact calm _ here
      · exact calm other there
    · exact .inl (by simp [at_,Ending])
  | skip at_ quiet | listen at_ heard | accepted at_ | event at_ =>
    exact askedSame asked (by simp [at_,Ending]) rfl (by simp [at_,pending])
  | mod events at_ here => exact askedSame asked (by simp [at_,Ending]) rfl rfl
  | accept at_ fresh run =>
    refine .inr fun other there flag => ?_
    rcases List.mem_cons.mp there with rfl | there
    · have policy : s.requireTls = false := own
      simp [acceptRuns run,policy] at flag
    · exact asked.resolve_left (by simp [at_,Ending]) other there flag
  | turn at_ here kind moved =>
    refine .inr fun other there flag => ?_
    rcases revisedCases there with ⟨same,-⟩ | ⟨-,there⟩
    · simp [at_,pending,same]
    · exact asked.resolve_left (by simp [at_,Ending]) other there flag
  | @settle e left at_ here calm =>
    refine .inr fun other there flag => ?_
    have waits := asked.resolve_left (by simp [at_,Ending]) other there flag
    rw [at_] at waits
    rcases List.mem_cons.mp waits with same | later
    · rw [List.inj_on_of_nodup_map good.once there here same,calm] at flag
      cases flag
    · exact later
  | @disconnect e left at_ here flagged =>
    refine .inr fun other there flag => ?_
    have waits := asked.resolve_left (by simp [at_,Ending]) other (List.eraseP_subset there) flag
    rw [at_] at waits
    rcases List.mem_cons.mp waits with same | later
    · exact absurd same (erasedApart good.once e.ptr other there)
    · exact later
  | @request e here =>
    by_cases ending : Ending st.phase
    · exact .inl ending
    refine .inr fun other there flag => ?_
    rcases revisedCases there with ⟨same,-⟩ | ⟨-,there⟩
    · rw [same]
      exact own
    · exact asked.resolve_left ending other there flag

theorem askedReach (reached : (loop s).Reach (Own s) st) : Asked st := by
  induction reached with
  | start first =>
    obtain ⟨wakeR,listenFd,rfl⟩ := first
    exact calmAsked (by simp)
  | step before own moved asked => exact askedStep (goodReach before) asked own moved

def Remains (e : Entry) (st : State) : Prop :=
  ∃ now ∈ st.clients, identity now = identity e ∧ now.client.disconnectRequested = true

theorem revisedRemains (good : Good st) {other client} (here : e ∈ st.clients) (there : other ∈ st.clients)
    (flag : e.client.disconnectRequested = true)
    (lasts : other.client.disconnectRequested = true → client.disconnectRequested = true) :
    Remains e { st with clients := revised st.clients other.ptr client } := by
  by_cases same : e.ptr = other.ptr
  · obtain rfl := List.inj_on_of_nodup_map good.once here there same
    exact ⟨_,revisedMember here client,rfl,lasts flag⟩
  · exact ⟨e,List.mem_map.mpr ⟨e,here,if_neg same⟩,rfl,flag⟩

theorem erasedRemains {other phase} (here : e ∈ st.clients) (apart : e.ptr ≠ other.ptr)
    (flag : e.client.disconnectRequested = true) : Remains e (removed st other phase) :=
  ⟨e,(List.mem_eraseP_of_neg (by simpa using apart)).mpr here,rfl,flag⟩

theorem stepRemains {act} (good : Good st) (here : e ∈ st.clients) (flag : e.client.disconnectRequested = true)
    (step : Step s st act st') : act = .disconnect e.ptr ∨ act = .drop e.ptr ∨ Remains e st' := by
  cases step with
  | @disconnect other left at_ there flagged =>
    by_cases same : e.ptr = other.ptr
    · exact .inl (by rw [same])
    · exact .inr (.inr (erasedRemains here same flag))
  | @drop other rest at_ first =>
    by_cases same : e.ptr = other.ptr
    · exact .inr (.inl (by rw [same]))
    · exact .inr (.inr (erasedRemains here same flag))
  | complete at_ there kind moved =>
    exact .inr (.inr (revisedRemains good here there flag ((completesKeeps kind moved).trans ·)))
  | turn at_ there kind moved =>
    exact .inr (.inr (revisedRemains good here there flag (Upgrade.stayingLasting moved kind).leaving))
  | request there => exact .inr (.inr (revisedRemains good here there flag fun _ => rfl))
  | accept at_ fresh run => exact .inr (.inr ⟨e,List.mem_cons_of_mem _ here,rfl,flag⟩)
  | _ => exact .inr (.inr ⟨e,here,rfl,flag⟩)

/- No listed client has a request when the reactor enters poll: it stays on the list, with
its request, until it is torn down. -/
theorem tornDownBeforePoll {s : Server} {st : State} (reached : (loop s).Reach (Own s) st) :
    (∀ report st', (loop s).step st (.wait report) st' → ∀ e ∈ st.clients, e.client.disconnectRequested = false) ∧
      ∀ e ∈ st.clients, e.client.disconnectRequested = true → ∀ act st', (loop s).step st act st' →
        act = .disconnect e.ptr ∨ act = .drop e.ptr ∨ Remains e st' := by
  refine ⟨fun report st' step => ?_,fun e here flag act st' step => stepRemains (goodReach reached) here flag step⟩
  cases step with
  | wait _ at_ => exact (askedReach reached).calm (by simp [at_,Ending]) (by simp [at_,pending])

theorem ownReach (n) : (loop house).Reach (Own house) (gathered house n) :=
  gatheredReach n fun st act other => by
    cases act with
    | request ptr => exact absurd rfl (other ptr)
    | accept => exact rfl
    | _ => trivial

/- The second of three clients sends QUIT; the others are still there at the next poll. -/
theorem tornDownBeforePollQuit : (∃ e ∈ asked.clients, e.client.disconnectRequested = true ∧
      ∀ act st', (loop house).step asked act st' → act = .disconnect e.ptr ∨ act = .drop e.ptr ∨ Remains e st') ∧
    parted.clients.map Entry.ptr = [2,0] ∧ ∀ e ∈ parted.clients, e.client.disconnectRequested = false := by
  have here : (loop house).Reach (Own house) asked :=
    (System.Path.cons (Step.wait (fun _ => pollin) rfl) askedPath).reach (by simp [Own,asking]) (ownReach 3)
  have reached := (partedPath.append restedPath).reach (by simp [Own]) here
  exact ⟨⟨leaver,.tail _ (.head _),rfl,(tornDownBeforePoll here).2 leaver (.tail _ (.head _)) rfl⟩,by decide +kernel,
    (tornDownBeforePoll reached).1 (fun _ => 0) _ (.wait _ rfl)⟩

theorem requestLeft :
    (∃ st st' e, (loop { house with requireTls := true }).Reach (fun _ _ => True) st ∧
      (loop { house with requireTls := true }).step st (.wait fun _ => 0) st' ∧ e ∈ st.clients ∧
      e.client.disconnectRequested = true) ∧
    ∃ st st' e, (loop house).Reach (fun _ _ => True) st ∧ (loop house).step st (.wait fun _ => 0) st' ∧
      e ∈ st.clients ∧ e.client.disconnectRequested = true := by
  constructor
  · exact ⟨_,_,_,gatheredReach 1 fun _ _ _ => trivial,.wait _ rfl,List.mem_cons_self,rfl⟩
  have reached : (loop house).Reach (fun _ _ => True) _ :=
    (gatheredReach 1 fun _ _ _ => trivial).step trivial (.request List.mem_cons_self)
  exact ⟨_,_,_,reached,.wait _ rfl,List.mem_cons_self,rfl⟩

end OpenPs3Ftp.Leaving
