import OpenPs3Ftp.Polling

/-! One round of the loop over the clients that `poll` reports. The copy it goes through has
room for `copyMax` slots. -/
namespace OpenPs3Ftp.Fairness
open Lib Text Fs Session Commands Program Events Pollset Loop Polling

def clientsOf (copy : List (Option Ptr × Mask)) : List (Ptr × Mask) := copy.filterMap fun both => both.1.map (·,both.2)
def readySlots (p : Pollset) : List (Option Ptr × Mask) := (p.entries.filter ready).map fun slot => (slot.user,slot.revents)

def heard : Act → Option (Ptr × Mask)
  | .event ptr mask => some (ptr,mask)
  | _ => none

/- From what `poll` reports to the next time it is called, unless the server stops. -/
structure Round (s : Server) (st : State) (report : Nat → Mask) (acts : List Act) (st' : State) : Prop where
  ready : st.phase = .top
  path : (loop s).Path { st with pollset := Pollset.wait st.pollset report, phase := .polled } (acts ++ [.served]) st'
  going : .stopped ∉ acts ∧ .served ∉ acts

def due (st : State) : Option (List (Ptr × Mask)) :=
  match st.phase with
  | .polled => some (clientsOf (Pollset.collect st.pollset copyMax))
  | .serving left | .accepting left | .handling _ left => some (clientsOf left)
  | .top | .dropping | .ended => none

theorem dueStep {s st st' act left} (step : Step s st act st') (here : due st = some left)
    (going : act ≠ .stopped ∧ act ≠ .served) :
    ∃ left', due st' = some left' ∧ left = (heard act).toList ++ left' := by
  cases step with
  | wait _ at_ | failed at_ | leave at_ | drop at_ | close at_ => simp [due,at_] at here
  | complete at_ =>
    rcases at_ with at_ | at_ <;> simp only [due,at_] at here ⊢
    · exact ⟨left,here,rfl⟩
    · cases here
  | collect at_ | listen at_ | accept at_ | accepted at_ | turn at_ | mod _ at_ =>
    simp only [due,at_] at here ⊢
    exact ⟨left,here,rfl⟩
  | skip at_ | event at_ =>
    simp only [due,at_,clientsOf,List.filterMap_cons,Option.map_none,Option.map_some] at here ⊢
    exact ⟨_,rfl,(Option.some.inj here).symm⟩
  | settle at_ | disconnect at_ =>
    simp only [due,at_,removed] at here ⊢
    exact ⟨left,here,rfl⟩
  | stopped => exact absurd rfl going.1
  | served => exact absurd rfl going.2
  | request => exact ⟨left,here,rfl⟩

theorem duePath {s st st' acts left} (path : (loop s).Path st (acts ++ [.served]) st') (here : due st = some left)
    (going : .stopped ∉ acts ∧ .served ∉ acts) : acts.filterMap heard = left := by
  induction acts generalizing st left with
  | nil =>
    cases path with
    | cons last _ =>
      cases last with
      | served at_ => simp only [due,at_] at here; exact Option.some.inj here
  | cons act acts ih =>
    obtain ⟨first,later⟩ : (act ≠ .stopped ∧ act ≠ .served) ∧ (.stopped ∉ acts ∧ .served ∉ acts) := by
      simpa [eq_comm,and_assoc,and_left_comm,not_or] using going
    cases path with
    | cons moved path =>
      obtain ⟨left',next,rfl⟩ := dueStep moved here first
      rw [List.filterMap_cons,ih path next later]
      cases heard act <;> rfl

theorem collectReady (p max) : Pollset.collect p max = (readySlots p).take max := rfl

theorem readyOnce {st} (good : Good st) (report) :
    (clientsOf (readySlots (Pollset.wait st.pollset report))).map (·.1) |>.Nodup := by
  have part := collectUsers (Pollset.wait st.pollset report) (Pollset.wait st.pollset report).entries.length
  rw [collectReady,List.take_of_length_le (by simpa [readySlots] using List.length_filter_le ..),
    usersSame (waitTable _ _)] at part
  have same : (clientsOf (readySlots (Pollset.wait st.pollset report))).map (·.1) =
      (readySlots (Pollset.wait st.pollset report)).filterMap (·.1) := by
    rw [clientsOf,List.map_filterMap]; congr 1; funext both; cases both.1 <;> rfl
  rw [same]
  exact part.nodup (good.users.nodup_iff.mpr good.once)

theorem heardEvent {acts : List Act} {ptr mask} : .event ptr mask ∈ acts ↔ (ptr,mask) ∈ acts.filterMap heard := by
  rw [List.mem_filterMap]
  constructor
  · exact fun member => ⟨_,member,rfl⟩
  rintro ⟨act,member,same⟩
  cases act with
  | event => cases same; exact member
  | _ => cases same

/- Every client that is ready is heard, exactly when no client is ready behind the first slots. -/
theorem readyHeard (s : Server) (st : State) (reached : (loop s).Reach (fun _ _ => True) st) (report : Nat → Mask)
    (acts : List Act) (st' : State) (round : Round s st report acts st') :
    (∀ both ∈ clientsOf (readySlots (Pollset.wait st.pollset report)), .event both.1 both.2 ∈ acts) ↔
      clientsOf ((readySlots (Pollset.wait st.pollset report)).drop copyMax) = [] := by
  have once := readyOnce (goodReach reached) report
  have all : acts.filterMap heard = clientsOf ((readySlots (Pollset.wait st.pollset report)).take copyMax) :=
    duePath round.path rfl round.going
  have parts := congrArg clientsOf (List.take_append_drop copyMax (readySlots (Pollset.wait st.pollset report)))
  rw [clientsOf,List.filterMap_append] at parts
  rw [← parts,List.map_append,List.nodup_append] at once
  constructor
  · intro each
    refine List.eq_nil_iff_forall_not_mem.mpr fun both behind => ?_
    have member := each both (parts ▸ List.mem_append_right _ behind)
    rw [heardEvent,all] at member
    exact once.2.2 _ (List.mem_map_of_mem member) _ (List.mem_map_of_mem behind) rfl
  intro empty both member
  rw [heardEvent,all]
  rw [← parts] at member
  exact (List.mem_append.mp member).resolve_right fun behind => by
    rw [clientsOf] at empty; rw [empty] at behind; cases behind

theorem servedThrough {s st left} (at_ : st.phase = .serving left)
    (calm : ∀ ptr ∈ left.filterMap (·.1), ∃ e ∈ st.clients, e.ptr = ptr ∧ e.client.disconnectRequested = false) :
    ∃ acts st', (loop s).Path st (acts ++ [.served]) st' ∧ .stopped ∉ acts ∧ .served ∉ acts := by
  induction left generalizing st with
  | nil => exact ⟨[],_,.cons (.served at_) (.nil _),by simp,by simp⟩
  | cons both left ih =>
    obtain ⟨user,mask⟩ := both
    cases user with
    | none =>
      obtain ⟨acts,st',path,stop,serve⟩ := @ih { st with phase := .serving left } rfl calm
      by_cases asked : mask &&& pollin = 0
      · exact ⟨.skip :: acts,st',.cons (.skip at_ asked) path,by simpa using stop,by simpa using serve⟩
      · exact ⟨.listen :: .accepted :: acts,st',.cons (.listen at_ asked) (.cons (.accepted rfl) path),by simpa using stop,
          by simpa using serve⟩
    | some ptr =>
      obtain ⟨e,here,rfl,quiet⟩ := calm ptr List.mem_cons_self
      obtain ⟨acts,st',path,stop,serve⟩ := @ih { st with phase := .serving left } rfl
        (fun other member => calm other (List.mem_cons_of_mem _ member))
      exact ⟨.event e.ptr mask :: .settle :: acts,st',.cons (.event at_) (.cons (.settle rfl here quiet) path),by simpa using stop,
        by simpa using serve⟩

theorem crowdRound (n) : ∃ acts st', Round house (gathered house n) (fun _ => pollin) acts st' := by
  have here : (loop house).Reach (fun _ _ => True)
      { gathered house n with pollset := Pollset.wait (gathered house n).pollset fun _ => pollin
                              phase := .serving (Pollset.collect (Pollset.wait (gathered house n).pollset fun _ => pollin) copyMax) } :=
    .step (.step (gatheredReach n fun _ _ _ => trivial) trivial (.wait _ rfl)) trivial (.collect rfl)
  obtain ⟨acts,st',path,stop,serve⟩ := @servedThrough house _ _ rfl fun ptr member => by
    obtain ⟨e,there,rfl⟩ := List.mem_map.mp ((goodReach here).listed ptr member)
    exact ⟨e,there,rfl,((crowdBelow house n).2 e there).2⟩
  exact ⟨.collect :: acts,st',rfl,.cons (.collect rfl) path,by simpa using stop,by simpa using serve⟩

theorem readyHeardQuit : ∃ acts st', Round house (gathered house 3) (fun _ => pollin) acts st' ∧ .disconnect 1 ∈ acts ∧
    ((∀ both ∈ clientsOf (readySlots polled.pollset), .event both.1 both.2 ∈ acts) ↔
      clientsOf ((readySlots polled.pollset).drop copyMax) = []) := by
  have round : Round house (gathered house 3) (fun _ => pollin) (asking ++ [.disconnect 1] ++ [.event 2 pollin,.settle])
      { parted with phase := .top } :=
    ⟨rfl,by rw [List.append_assoc]; exact (askedPath.append partedPath).append restedPath,by simp [asking]⟩
  exact ⟨_,_,round,by simp,readyHeard _ _ (gatheredReach 3 fun _ _ _ => trivial) _ _ _ round⟩

theorem lastUnheard : ∃ acts st', (loop house).Reach (fun _ _ => True) (gathered house 20) ∧
    Round house (gathered house 20) (fun _ => pollin) acts st' ∧
    (19,pollin) ∈ clientsOf (readySlots (Pollset.wait (gathered house 20).pollset fun _ => pollin)) ∧
    .event 19 pollin ∉ acts := by
  obtain ⟨acts,st',round⟩ := crowdRound 20
  refine ⟨acts,st',gatheredReach 20 fun _ _ _ => trivial,round,by decide +kernel,?_⟩
  rw [heardEvent,duePath round.path rfl round.going]
  decide +kernel

end OpenPs3Ftp.Fairness
