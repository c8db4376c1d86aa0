import OpenPs3Ftp.Lifecycle.Keeper

/-! One run at a time. `started` is loaded at the entry of a start or `run_loop` and stored
only after the initialisation, so two calls that load it in between both begin a run. -/
namespace OpenPs3Ftp.Lifecycle
open Lib Fs Program

section
variable {cfg : Config} {st st' : Threading} {label : Doing}

/- A run is in progress: it has been claimed, its loop runs, or a thread is at work on it. -/
def InRun (st : Threading) : Prop :=
  st.shared.started = true ∨ st.shared.active = true ∨ ∃ t, (st.role t).keeps = true

theorem Kept.vacantRun (kept : Kept Fits st none) (off : st.shared.started = false) : ¬ InRun st := by
  have off' : st.shared.running = false := kept.fits.1.symm.trans off
  rintro (on | on | ⟨t,keeps⟩)
  · exact absurd (off.symm.trans on) (by decide)
  · exact absurd (off'.symm.trans (kept.fits.2 on)) (by decide)
  · exact absurd ((kept.sole t).mp keeps) (by simp)

theorem refusedReturns (keeps : (rules cfg).Keeps st) {t} (refused : st.role t = .refused) :
    ∃ entry, st.task t = some (entry,.done (some ealready)) := by
  cases now : st.task t with
  | none => exact absurd (show Role.outside = .refused from (keeps.out now).symm.trans refused) (by decide)
  | some task =>
    obtain ⟨entry,p⟩ := task
    cases p with
    | done value =>
      have returned : Leaves (st.role t) value := keeps.left now
      rw [refused] at returned
      cases returned
      exact ⟨entry,rfl⟩
    | ask op next =>
      have allowed : Permits entry (st.role t) op := keeps.allowed now
      rw [refused] at allowed
      rcases allowed with allowed | ⟨-,disposes⟩
      · cases allowed
      · cases disposes

theorem oneRunAtATime (reached : (threads cfg).system.Reach Exclusive st) (met : Exclusive st label)
    (step : (threads cfg).system.step st label st') :
    (∀ t u, (st.role t).keeps = true → (st.role u).keeps = true → t = u) ∧
    ∀ t answer, st.role t = .calling → label = .call t ⟨.isStarted,answer⟩ →
      (answer = true ↔ InRun st) ∧
      (answer = true → st'.shared = st.shared ∧ ∃ entry, st'.task t = some (entry,.done (some ealready))) := by
  obtain ⟨keeper,kept⟩ := keptReached reached
  have keeps : (rules cfg).Keeps _ := Threads.keepsReach reached
  refine ⟨fun t u here there => ?_,fun t answer calling same => ?_⟩
  · exact Option.some.inj (((kept.sole t).mp here).symm.trans ((kept.sole u).mp there))
  subst same
  have later := Threads.keepsStep keeps step
  have idle : (st.role t).keeps = false := by rw [calling]; rfl
  cases step with
  | call _ busy performed =>
    obtain ⟨can,rfl⟩ := performed
    refine ⟨⟨fun yes => .inl (can.symm.trans yes),fun run => ?_⟩,fun yes => ⟨rfl,?_⟩⟩
    · by_contra no
      obtain rfl := Bool.of_not_eq_true no
      obtain rfl := kept.vacant (fun _ fits => fits) met idle can (.inl ⟨calling,rfl⟩)
      exact kept.vacantRun can.symm run
    · subst yes
      refine refusedReturns later ?_
      simp [calling,threads,Role.note]

end

def refuses (t : Nat) : Doing → Bool
  | .call u ⟨.isStarted,true⟩ => u == t
  | _ => false

theorem refusesCheck {t label} (refused : refuses t label = true) : label = .call t ⟨.isStarted,true⟩ := by
  unfold refuses at refused
  split at refused
  · rw [beq_iff_eq.mp refused]
  · cases refused

theorem oneRunAtATimeRefused : ∃ st label st', (threads small).system.Reach Exclusive st ∧ Exclusive st label ∧
    (threads small).system.step st label st' ∧ st.role 1 = .calling ∧ label = .call 1 ⟨.isStarted,true⟩ ∧ InRun st ∧
    st'.shared = st.shared ∧ ∃ entry, st'.task 1 = some (entry,.done (some ealready)) := by
  have ran : (Threads.play (chooser small) 2 (exclusive 2) (Threads.idle (threads small) created)
      ([.enter 0 .start] ++ moves 21 0 ++ [.enter 1 .runLoop])).bind (fun st =>
        (Threads.advance (chooser small) st (.move 1 false)).map fun next =>
          (st.role 1,exclusive 2 st next.label,refuses 1 next.label)) = some (.calling,true,true) := by decide +kernel
  obtain ⟨st,played,rest⟩ := Option.bind_eq_some_iff.mp ran
  obtain ⟨⟨label,st',step⟩,-,facts⟩ := Option.map_eq_some_iff.mp rest
  obtain ⟨calling,facts⟩ := Prod.mk.inj facts
  obtain ⟨spared,refused⟩ := Prod.mk.inj facts
  obtain ⟨reached,within⟩ := Threads.playReach _ (fun _ _ => exclusiveMet) (Threads.idleWithin _ _) (Threads.idleReach rfl)
    played
  have met := exclusiveMet within spared
  have check := refusesCheck refused
  obtain ⟨run,silent⟩ := (oneRunAtATime reached met (step trivial)).2 1 true calling check
  exact ⟨st,label,st',reached,met,step trivial,calling,check,run.mp rfl,silent rfl⟩

theorem twoRunsAtOnce : ∃ st, (threads small).system.Reached st ∧ st.role 0 = .staffed ∧ st.role 1 = .staffed := by
  have ran : (Threads.play (chooser small) 2 (fun _ _ => true) (Threads.idle (threads small) created)
      ([.enter 0 .start,.enter 1 .runLoop] ++ moves 1 0 ++ moves 1 1 ++ moves 13 0 ++ moves 13 1)).map
      (fun st => (st.role 0,st.role 1)) = some (.staffed,.staffed) := by decide +kernel
  obtain ⟨st,played,facts⟩ := Option.map_eq_some_iff.mp ran
  obtain ⟨here,there⟩ := Prod.mk.inj facts
  exact ⟨st,(Threads.playReach _ (fun _ _ _ _ => trivial) (Threads.idleWithin _ _) (Threads.idleReach rfl) played).1,here,there⟩

end OpenPs3Ftp.Lifecycle
