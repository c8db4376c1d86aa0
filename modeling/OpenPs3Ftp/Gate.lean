import OpenPs3Ftp.Completion

/-! The login gate in front of the handlers. -/
namespace OpenPs3Ftp.Gate
open Lib Text Session Commands Dispatch Program Events

def Gated : Call → Prop
  | .enter name c => c.tlsHandshaking = false ∧ (c.loggedIn = true ∨ preloginCommand name = true)
  | _ => True

instance : DecidablePred Gated := by
  intro call
  cases call <;> simp only [Gated] <;> infer_instance

def Early (m : Moment) : Prop :=
  ∃ revents received, m.happening = .event revents received ∧ revents.pollpri = true ∧
    m.client.tlsHandshaking = false ∧ m.client.loggedIn = false

variable {s : Server}

theorem owedGated {d call} (owed : Owed s False d call) : Gated call := by
  cases call
  case enter name c =>
    obtain ⟨-,plain,gate⟩ := owed
    exact ⟨plain,by simpa using gate⟩
  all_goals exact trivial

variable {c c' : Client} {trace : Trace}

theorem eventGated {revents received} (run : (handleClientEvents s revents received c).Runs trace c')
    (late : revents.pollpri = true → c.tlsHandshaking = false → c.loggedIn = true) : ∀ e ∈ trace, Gated e.1 := by
  have dutiful := @eventDutiful s False c revents received fun pri plain => .inl (late pri plain)
  intro e member
  obtain ⟨first,second,split⟩ := List.append_of_mem member
  exact owedGated ((meetsRuns dutiful run fun _ _ => trivial).2 first e second split)

theorem urgentEnters {revents received} (run : (handleClientEvents s revents received c).Runs trace c')
    (urgent : revents.pollpri = true) (plain : c.tlsHandshaking = false) :
    ∃ rest, trace = ⟨.enter (ascii "ABOR") c,()⟩ :: rest := by
  rw [handleClientEvents,if_neg (by simp [plain]),if_pos urgent] at run
  obtain ⟨first,_,_,rfl,run,_⟩ := runsBind.mp run
  rw [urgentAbort] at run
  obtain ⟨first,_,_,rfl,run,_⟩ := runsBind.mp run
  rw [dispatchCall,lookupAbor] at run
  obtain ⟨⟨⟩,rest,rfl,_⟩ := runsInvoke run
  exact ⟨_,rfl⟩

theorem completionGated {posted} (run : (datachanComplete posted c).Runs trace c') : ∀ e ∈ trace, Gated e.1 := by
  have obeys : (datachanComplete posted c).Obeys (fun _ _ => True) Gated (fun _ => True) := by
    unfold datachanComplete closeJob finishAbort closeSome
    cases posted.dataFd <;> cases posted.job.pasvFd <;> simp [replyAbout,Gated]
  exact (obeysRuns obeys run fun _ _ => trivial).2

theorem momentGated {m} (run : (m.happening.run (m.server s) m.client).Runs m.trace c') :
    (∀ e ∈ m.trace, Gated e.1) ↔ ¬ Early m := by
  constructor
  · rintro gated ⟨revents,received,same,urgent,plain,out⟩
    rw [same] at run
    obtain ⟨rest,entered⟩ := urgentEnters run urgent plain
    have gate := gated ⟨.enter (ascii "ABOR") m.client,()⟩ (by simp [entered])
    rcases gate.2 with logged | free
    · rw [out] at logged
      contradiction
    · exact absurd free (by decide)
  intro late
  cases same : m.happening with
  | completion posted =>
    rw [same] at run
    exact completionGated run
  | event revents received =>
    rw [same] at run
    refine eventGated run fun urgent plain => ?_
    cases logged : m.client.loggedIn with
    | true => rfl
    | false => exact absurd ⟨revents,received,same,urgent,plain,logged⟩ late

theorem handlersGated (s : Server) (c last : Client) (moments : List Moment) (lives : Lives s c moments last) :
    (∀ m ∈ moments, ∀ e ∈ m.trace, Gated e.1) ↔ ∀ m ∈ moments, ¬ Early m := by
  induction lives with
  | rest => simp
  | next _ run later ih =>
    simp only [List.forall_mem_cons,ih,momentGated run]

def urgentByte (s : Server) (c : Client) : Moment where
  root := s.root
  client := c
  happening := .event ⟨true,false,false⟩ []
  trace := [⟨.enter (ascii "ABOR") c,()⟩,abortReply]

theorem urgentByteLives (s) (connected : c.connected = true) (idle : c.job = none) (plain : c.tlsHandshaking = false)
    (staying : c.disconnectRequested = false) : Lives s c [urgentByte s c] c := by
  have calm : finishEvent c = pure c := by simp [finishEvent,staying]
  have run : (handleClientEvents s ⟨true,false,false⟩ [] c).Runs (urgentByte s c).trace c := by
    rw [handleClientEvents,if_neg (by simp [plain]),if_pos rfl]
    refine runsBind.mpr ⟨_,c,[],rfl,urgentIdle s idle,?_⟩
    show (finishEvent c).Runs [] c
    rw [calm]
    exact .done c
  exact .next (m := urgentByte s c) connected run (.rest c)

theorem handlersGatedLoggedIn :
    Lives (serverCreate bareLibc true) { visitor with loggedIn := true }
      [urgentByte (serverCreate bareLibc true) { visitor with loggedIn := true }]
      { visitor with loggedIn := true } ∧
    ∀ e ∈ (urgentByte (serverCreate bareLibc true) { visitor with loggedIn := true }).trace, Gated e.1 := by
  have lives := urgentByteLives (serverCreate bareLibc true) (c := { visitor with loggedIn := true })
    rfl rfl rfl rfl
  refine ⟨lives,(handlersGated (serverCreate bareLibc true) _ _ _ lives).mpr ?_ _ (List.mem_singleton_self _)⟩
  intro m member
  rw [List.mem_singleton.mp member]
  rintro ⟨_,_,_,_,_,out⟩
  exact absurd out (by decide)

theorem urgentUngated : Lives (serverCreate bareLibc true) visitor
      [urgentByte (serverCreate bareLibc true) visitor] visitor ∧
    ∃ e ∈ (urgentByte (serverCreate bareLibc true) visitor).trace, ¬ Gated e.1 :=
  ⟨urgentByteLives _ rfl rfl rfl rfl,_,.head _,by decide⟩

end OpenPs3Ftp.Gate
