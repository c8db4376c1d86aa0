import OpenPs3Ftp.Events

/-! One event as a whole. The record keeps the handler entered last, the session
it was given and what it has done since; every call of the event is owed relative
to that record, and so is the session the event leaves. -/
namespace OpenPs3Ftp.Events
open Lib Text Resolve Fs Session Commands Dispatch Program

structure Duty where
  name : Bytes
  client : Client
  work : Progress

def Duty.note (d : Duty) : (call : Call) → Answer call → Duty
  | .enter name c,_ => ⟨name,c,nothing⟩
  | call,answer => { d with work := progress d.work call answer }

def Duty.held (d : Duty) : Option JobId := d.work.flying.or d.client.job
def fresh (c : Client) : Duty := ⟨[],c,nothing⟩

/- The session as the handler left it: outside the handlers only the read buffer and
the flags for leaving and for TLS change. -/
def Follows (s : Server) (d : Duty) (c : Client) : Prop :=
  ∃ c', (d.name = [] ∧ d.work = nothing ∧ c' = d.client ∨
      ∃ command, (commandsInit s).lookup d.name = some command ∧ Outcome s command d.client d.work c') ∧
    c = { c' with rbuf := c.rbuf, disconnectRequested := c.disconnectRequested, tlsHandshaking := c.tlsHandshaking }

/- `early` holds when urgent data may be handled before login. -/
def Owed (s : Server) (early : Prop) (d : Duty) : Call → Prop
  | .enter name c => Follows s d c ∧ c.tlsHandshaking = false ∧
      (c.loggedIn = true ∨ preloginCommand name = true ∨ early ∧ name = ascii "ABOR")
  | .tlsHandshake => d.name = []
  | .cancel job => d.held = some job
  | .dispatch job => d.name ≠ [] ∧ Permitted s d.client d.work (.dispatch job)
  | call => Permitted s d.client d.work call

def Ended (s : Server) (d : Duty) (c : Client) : Prop :=
  ∃ c', Follows s d c' ∧ (c'.disconnectRequested = false ∧ c = c' ∨ c'.disconnectRequested = true ∧ c = gone c')

abbrev Dutiful {α : Type} (s : Server) (early : Prop) (post : Duty → α → Prop) (d : Duty) (p : Handler α) : Prop :=
  Meets (fun _ _ => True) Duty.note (Owed s early) post d p

theorem lookupNamed {s name command} (found : (commandsInit s).lookup name = some command) : name ≠ [] := by
  simp only [Table.lookup,Option.map_eq_some_iff] at found
  obtain ⟨entry,found,_⟩ := found
  have same : entry.1 = name := by simpa using List.find?_some found
  rw [← same]
  exact ((commandsInit s).named entry (List.mem_of_find?_eq_some found)).1

theorem lookupAbor (s) : (commandsInit s).lookup (ascii "ABOR") = some .abor := by
  rw [Table.lookup,commandsInitEntries]
  cases s.allowStop <;> decide

theorem Follows.job {s d c} (follows : Follows s d c) : c.job = d.held := by
  obtain ⟨c',how,same⟩ := follows
  rw [same]
  rcases how with ⟨-,idle,rfl⟩ | ⟨command,-,outcome⟩
  · simp [Duty.held,idle,nothing]
  have job := outcome.job
  cases flying : d.work.flying with
  | none => simpa [Duty.held,flying] using job
  | some id =>
    rw [flying] at job
    simpa [Duty.held,flying] using job.1

section
variable {s : Server} {early : Prop}

theorem permittedOwed {d call} (entered : d.name ≠ []) (allowed : Permitted s d.client d.work call) :
    Owed s early d call := by
  cases call
  case dispatch => exact ⟨entered,allowed⟩
  case enter | tlsHandshake => exact allowed.elim
  case cancel job =>
    obtain ⟨held,grounded⟩ := allowed
    simpa [Owed,Duty.held,grounded] using held
  all_goals exact allowed

theorem commandDutiful {name command} (found : (commandsInit s).lookup name = some command) (c param) :
    Dutiful s early (fun d c' => Follows s d c' ∧ (command ≠ .auth → c'.tlsHandshaking = c.tlsHandshaking))
      ⟨name,c,nothing⟩ (command.run s c param) := by
  refine meetsWeaken (fun p d => d = ⟨name,c,p⟩) rfl ?_ ?_ ?_ (discipline command s c param)
  · rintro p - call rfl allowed
    exact permittedOwed (lookupNamed found) allowed
  · rintro p - call answer rfl allowed
    cases call
    case enter => exact allowed.elim
    all_goals rfl
  rintro p - c' rfl outcome
  refine ⟨⟨c',.inr ⟨command,found,outcome⟩,rfl⟩,fun plain => ?_⟩
  rcases outcome.tls with kept | auth
  · exact kept.1
  · exact absurd auth plain

theorem urgentDutiful {d c} (follows : Follows s d c) (plain : c.tlsHandshaking = false)
    (gate : c.loggedIn = true ∨ early) :
    Dutiful s early (fun d c => Follows s d c ∧ c.tlsHandshaking = false) d (urgentAbort s c) := by
  unfold urgentAbort
  rw [Dutiful,meetsBind]
  refine dispatchMeets (fun unknown => ?_) fun command found => ⟨⟨follows,plain,?_⟩,?_⟩
  · rw [lookupAbor] at unknown
    exact absurd unknown (by simp)
  · rcases gate with logged | early
    · exact .inl logged
    · exact .inr (.inr ⟨early,rfl⟩)
  · have abor : command = .abor := Option.some.inj (found.symm.trans (lookupAbor s))
    refine meetsMono (fun d' c' h => ⟨h.1,?_⟩) (commandDutiful found c none)
    rw [Option.getD_some,h.2 (by simp [abor]),plain]

theorem finishDutiful {d c} (follows : Follows s d c) : Dutiful s early (Ended s) d (finishEvent c) := by
  have held := follows.job
  have closed : ∀ fd, progress d.work (.closeFd fd) () = d.work := by
    intro fd
    obtain ⟨c',how,-⟩ := follows
    rcases how with ⟨-,idle,-⟩ | ⟨command,-,outcome⟩
    · rw [idle]
      rfl
    have shut : ¬ (d.work.refused ≠ none ∧ d.work.released = []) := by
      rintro ⟨refused,first⟩
      obtain ⟨job,refused⟩ := Option.ne_none_iff_exists'.mp refused
      have undone := (outcome.refusal job refused).1
      simp [first,undoing] at undone
    rw [progress,if_neg shut]
  unfold finishEvent clientDisconnect
  refine meetsIte.mpr ⟨fun leaving => ?_,fun staying => ⟨c,follows,.inl ⟨by simpa using staying,rfl⟩⟩⟩
  have dropped : ∀ d', d'.name = d.name → d'.client = d.client → d'.work = d.work → Ended s d' (gone c) := by
    rintro ⟨name,client,work⟩ rfl rfl rfl
    exact ⟨c,follows,.inr ⟨leaving,rfl⟩⟩
  cases job : c.job with
  | none => cases c.pasvFd <;> simpa [cancelSome,closeSome,Dutiful,Owed,Permitted,Duty.note,closed] using dropped _ rfl rfl rfl
  | some id =>
    have cancelled : progress d.work (.cancel id) () = d.work := rfl
    rw [job] at held
    cases c.pasvFd <;>
      simpa [cancelSome,closeSome,Dutiful,Owed,Permitted,Duty.note,cancelled,closed,← held] using dropped _ rfl rfl rfl

theorem eventDutiful {c revents} (received)
    (urgent : revents.pollpri = true → c.tlsHandshaking = false → c.loggedIn = true ∨ early) :
    Dutiful s early (Ended s) (fresh c) (handleClientEvents s revents received c) := by
  have begin_ : Follows s (fresh c) c := ⟨c,.inl ⟨rfl,rfl,rfl⟩,rfl⟩
  have rule := @eventMeets _ (fun _ _ => True) Duty.note (Owed s early) s (Follows s)
  refine rule ?_ ?_ ?_ begin_ ?_ ?_ fun _ _ => finishDutiful
  · rintro d c rbuf ⟨c',how,same⟩
    exact ⟨c',how,by rw [same]⟩
  · rintro d c ⟨c',how,same⟩
    exact ⟨c',how,by rw [same]⟩
  · intro d c text follows plain
    refine lineMeets text follows (fun _ => ⟨trivial,follows⟩) fun name param command found gate => ?_
    refine ⟨⟨follows,plain,?_⟩,meetsMono (fun _ _ h => h.1) (commandDutiful found c param)⟩
    rcases gate with logged | free
    · exact .inl logged
    · exact .inr (.inl free)
  · intro pri plain
    exact urgentDutiful begin_ plain (urgent pri plain)
  · intro shaking
    refine ⟨rfl,fun result => ⟨begin_,fun _ => ⟨c,.inl ⟨rfl,rfl,rfl⟩,rfl⟩⟩⟩

end
end OpenPs3Ftp.Events
