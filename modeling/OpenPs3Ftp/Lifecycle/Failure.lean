import OpenPs3Ftp.Lifecycle.Release

/-! A start or `run_loop` that fails, on a server without a run and with no other call in
progress. `bind_listener` closes what it has opened; whatever fails after it leaves the
listening socket open, with all else that was created up to there. -/
namespace OpenPs3Ftp.Lifecycle
open Lib Fs Program

structure Vacant (s : Shared) : Prop where
  started : s.started = false
  starting : s.starting = false
  socket : s.socket = false
  listener : s.listener = false
  still : s.Still

section
variable {cfg : Config} {s s' : Shared} {role : Role} {op : Op} {answer : Reply op} {trace : List (Exchange Reply)} {α : Type}

theorem stillQuiet (still : s.Still) {what} : ¬ Happens s what s' := by
  obtain ⟨off,unborn,counted,stray⟩ := still
  intro happens
  cases happens <;> simp_all [Shared.active]

theorem stillCall (still : s.Still) {f : Reply op → Code α} {a}
    (run : (threads cfg).Solo s (call op >>= f) trace s' a) :
    ∃ answer rest, trace = ⟨op,answer⟩ :: rest ∧ Can s op answer ∧ (threads cfg).Solo (effect s op answer) (f answer) rest s' a := by
  cases run with
  | call performed later =>
    obtain ⟨can,rfl⟩ := performed
    exact ⟨_,_,rfl,can,later⟩
  | event happened later => exact absurd happened (stillQuiet still)

theorem buildCall (still : s.Still) (builds : op.builds = true) (other : op ≠ .openPool) {f : Reply op → Code α} {a}
    (run : (threads cfg).Solo s (call op >>= f) trace s' a) : ∃ answer rest, trace = ⟨op,answer⟩ :: rest ∧
      (effect s op answer).Still ∧ (threads cfg).Solo (effect s op answer) (f answer) rest s' a := by
  obtain ⟨answer,rest,rfl,-,run⟩ := stillCall still run
  refine ⟨answer,rest,rfl,?_,run⟩
  cases op <;> first | exact still | exact absurd rfl other | cases builds

theorem stillDone (still : s.Still) {a b : α} (run : (threads cfg).Solo s (return a) trace s' b) :
    trace = [] ∧ s' = s ∧ b = a := by
  cases run with
  | done => exact ⟨rfl,rfl,rfl⟩
  | event happened later => exact absurd happened (stillQuiet still)

def Unkept (trace : List (Exchange Reply)) : Prop := ∀ e ∈ trace, e.1 ≠ .keepSocket

def Bound (s s' : Shared) (trace : List (Exchange Reply)) (rc : Option Errno) : Prop :=
  rc ≠ none ∧ s' = s ∨ rc = none ∧ ¬ Unkept trace

theorem socketClosed (free : s.socket = false) : { s with socket := false } = s := by
  cases s
  cases free
  rfl

theorem familyAlone (still : s.Still) (free : s.socket = false) {family : Family} {rc : Option Errno}
    (run : (threads cfg).Solo s (bindFamily family) trace s' rc) : Bound s s' trace rc := by
  obtain ⟨failed,rest,rfl,open_,run⟩ := buildCall still rfl (by simp) run
  cases failed with
  | some e =>
    obtain ⟨rfl,rfl,rfl⟩ := stillDone open_ run
    exact .inl ⟨by simp,socketClosed free⟩
  | none =>
    obtain ⟨failed,rest,rfl,bound,run⟩ := buildCall open_ rfl (by simp) run
    cases failed with
    | some e =>
      obtain ⟨⟨⟩,rest,rfl,closed,run⟩ := buildCall bound rfl (by simp) run
      obtain ⟨rfl,rfl,rfl⟩ := stillDone closed run
      exact .inl ⟨by simp,socketClosed free⟩
    | none =>
      obtain ⟨failed,rest,rfl,listening,run⟩ := buildCall bound rfl (by simp) run
      cases failed with
      | some e =>
        obtain ⟨⟨⟩,rest,rfl,closed,run⟩ := buildCall listening rfl (by simp) run
        obtain ⟨rfl,rfl,rfl⟩ := stillDone closed run
        exact .inl ⟨by simp,socketClosed free⟩
      | none =>
        obtain ⟨⟨⟩,rest,rfl,kept,run⟩ := buildCall listening rfl (by simp) run
        obtain ⟨rfl,rfl,rfl⟩ := stillDone kept run
        exact .inr ⟨rfl,fun none_ => none_ ⟨.keepSocket,()⟩ (by simp) rfl⟩

theorem bindAlone (still : s.Still) (free : s.socket = false) {rc}
    (run : (threads cfg).Solo s (bindListener cfg) trace s' rc) : Bound s s' trace rc := by
  unfold bindListener at run
  split at run
  · exact familyAlone still free run
  obtain ⟨first,middle,failed,second,rfl,left,right⟩ := Threads.soloBind run
  rcases familyAlone still free left with ⟨unbound,rfl⟩ | ⟨rfl,kept⟩
  · cases failed with
    | none => exact absurd rfl unbound
    | some e =>
      refine (familyAlone still free right).imp_right fun ⟨bound,kept⟩ => ⟨bound,fun none_ => ?_⟩
      exact kept fun e member => none_ e (List.mem_append_right _ member)
  · obtain ⟨rfl,rfl⟩ := Threads.soloDone right
    exact .inr ⟨rfl,by rwa [List.append_nil]⟩

def Role.begun : Role → Bool
  | .spawned | .launched | .leaving | .serving | .closing .loop _ => true
  | _ => false

theorem begunStays (begun : role.begun = true) (allowed : Allows role op) : (role.note op answer).begun = true := by
  cases allowed
  all_goals first | exact absurd (show false = true from begun) (by decide) | exact begun | skip
  case idle w | abandon w | joinWorkers w => cases w <;> first | rfl | cases begun
  case finish w d first past => cases w <;> first | rfl | cases begun

theorem begunLeaves {rc} (begun : role.begun = true) (left : Leaves role rc) : rc = none := by
  cases left <;> first | rfl | cases begun

theorem listenerKept (allowed : Allows role op) (off : s.active = false) :
    (role.note op answer).begun = true ∨ (effect s op answer).active = false ∧
      (s.listener = true ∨ op = .keepSocket → (effect s op answer).listener = true) := by
  cases allowed
  all_goals first | exact .inr ⟨off,fun on => on.resolve_right (by decide)⟩ | exact .inl rfl | skip
  case build builds =>
    cases op
    case keepSocket => exact .inr ⟨off,fun _ => rfl⟩
    all_goals first | exact .inr ⟨off,fun on => on.resolve_right (by simp)⟩ | cases builds
  case create => cases answer <;> exact .inr ⟨off,fun on => on.resolve_right (by decide)⟩
  case spawn =>
    cases answer with
    | true => exact .inl rfl
    | false => exact .inr ⟨off,fun on => on.resolve_right (by decide)⟩

theorem eventListener {what} (off : s.active = false) (happens : Happens s what s') :
    s'.active = false ∧ s'.listener = s.listener := by
  cases happens <;> first | exact ⟨off,rfl⟩ | simp_all [Shared.active]

theorem listenerLeft {p rc} (run : (threads cfg).Solo s p trace s' rc) (abides : Abides Leaves role p)
    (now : role.begun = true ∨ s.active = false ∧ (¬ Unkept trace ∨ s.listener = true)) :
    rc = none ∨ s'.listener = true := by
  induction run generalizing role with
  | done s value =>
    rcases now with begun | ⟨-,kept | on⟩
    · exact .inl (begunLeaves begun abides)
    · exact absurd (fun e member => by cases member) kept
    · exact .inr on
  | @call s op next answer s' trace last value performed later ih =>
    obtain ⟨-,rfl⟩ := performed
    refine ih (abides.2 answer trivial) ?_
    rcases now with begun | ⟨off,now⟩
    · exact .inl (begunStays begun abides.1)
    refine (@listenerKept s role op answer abides.1 off).imp_right fun ⟨off,keeps⟩ => ⟨off,?_⟩
    rcases now with kept | on
    · by_cases here : op = .keepSocket
      · exact .inr (keeps (.inr here))
      refine .inl fun unkept => kept fun e member => ?_
      rcases List.mem_cons.mp member with rfl | member
      · exact here
      · exact unkept e member
    · exact .inr (keeps (.inl on))
  | event happened later ih =>
    refine ih abides (now.imp_right fun ⟨off,now⟩ => ?_)
    obtain ⟨off',same⟩ := eventListener off happened
    exact ⟨off',now.imp_right same.trans⟩

theorem initAlone (still : s.Still) (free : s.socket = false) (unkept : Unkept trace) {rc : Option Errno}
    (run : (threads cfg).Solo s (reactorInit cfg) trace s' rc) : rc ≠ none ∧ s' = s := by
  obtain ⟨first,middle,failed,second,rfl,left,right⟩ := Threads.soloBind run
  rcases bindAlone still free left with ⟨unbound,rfl⟩ | ⟨-,kept⟩
  · cases failed with
    | none => exact absurd rfl unbound
    | some e =>
      obtain ⟨-,rfl,rfl⟩ := stillDone still right
      exact ⟨by simp,rfl⟩
  · exact absurd (fun e member => unkept e (List.mem_append_left _ member)) kept

theorem restoredAlone (vacant : Vacant s) {f : Option Errno → Code (Option Errno)}
    (abort : ∀ e, f (some e) = (do call (.setStarting false); return some e)) (unkept : Unkept trace) {rc : Option Errno}
    (run : (threads cfg).Solo s (call (.setStarting true) >>= fun _ => reactorInit cfg >>= f) trace s' rc) : s' = s := by
  obtain ⟨⟨⟩,rest,rfl,-,run⟩ := stillCall vacant.still run
  have still : (effect s (.setStarting true) ()).Still := vacant.still
  obtain ⟨first,middle,failed,second,rfl,left,right⟩ := Threads.soloBind run
  obtain ⟨failed',rfl⟩ := initAlone still vacant.socket
    (fun e member => unkept e (List.mem_cons_of_mem _ (List.mem_append_left _ member))) left
  cases failed with
  | none => exact absurd rfl failed'
  | some e =>
    rw [abort e] at right
    obtain ⟨⟨⟩,rest,rfl,-,right⟩ := stillCall still right
    obtain ⟨-,rfl,-⟩ := stillDone (show Shared.Still (effect (effect s (.setStarting true) ()) (.setStarting false) ()) from
      vacant.still) right
    obtain ⟨-,starting,-⟩ := vacant
    cases s
    cases starting
    rfl

theorem failedStartRestores {entry : Entry} (begins : entry = .start ∨ entry = .runLoop) {e : Errno} (vacant : Vacant s)
    (run : (threads cfg).Solo s (entry.code cfg) trace s' (some e)) :
    s' = s ↔ ∀ x ∈ trace, x.1 ≠ .keepSocket := by
  constructor
  · rintro rfl
    by_contra kept
    have abides : Abides Leaves .calling (entry.code cfg) := by
      rcases begins with rfl | rfl
      · exact startAbides
      · exact runLoopAbides
    rcases listenerLeft run abides (.inr ⟨vacant.still.1,.inl kept⟩) with none_ | on
    · cases none_
    · exact absurd (vacant.listener.symm.trans on) (by decide)
  intro unkept
  rcases begins with rfl | rfl
  all_goals
    obtain ⟨started,rest,rfl,can,run⟩ := stillCall vacant.still run
    obtain rfl : started = false := can.trans vacant.started
    exact restoredAlone vacant (fun _ => rfl) (fun x member => unkept x (List.mem_cons_of_mem _ member)) run

end

theorem createdVacant : Vacant created := ⟨rfl,rfl,rfl,rfl,rfl,rfl,rfl,rfl⟩

theorem failedStartRestoresUnbound : ∃ trace s', Vacant created ∧
    (threads small).Solo created (serverStart small) trace s' (some .eacces) ∧ (∀ x ∈ trace, x.1 ≠ .keepSocket) ∧
    s' = created := by
  have ran : ((chooser small).solo [false,false,false,true,false,false] created (serverStart small)).map
      (fun out => (out.1.1.all (·.1 != .keepSocket),out.1.2.2)) = some (true,some .eacces) := by decide +kernel
  obtain ⟨⟨⟨trace,s',rc⟩,run⟩,-,facts⟩ := Option.map_eq_some_iff.mp ran
  obtain ⟨unkept,same⟩ := Prod.mk.inj facts
  obtain rfl : rc = some .eacces := same
  have unkept : ∀ x ∈ trace, x.1 ≠ .keepSocket := fun x member => by
    simpa using List.all_eq_true.mp unkept x member
  exact ⟨trace,s',createdVacant,run,unkept,
    (failedStartRestores (.inl (Eq.refl Entry.start)) createdVacant run).mpr unkept⟩

theorem failedStartLeaves : ∃ trace s', Vacant created ∧
    (threads ⟨true,2,10⟩).Solo created (serverStart ⟨true,2,10⟩) trace s' (some .enomem) ∧
    s'.listener = true ∧ s'.queue = true ∧ s'.compl = .live ∧ s'.unborn = 1 := by
  have ran : ((chooser ⟨true,2,10⟩).solo (List.replicate 13 false ++ [true,false,false]) created
      (serverStart ⟨true,2,10⟩)).map (fun out => (out.1.2.2,out.1.2.1.listener,out.1.2.1.queue,out.1.2.1.compl,out.1.2.1.unborn)) =
      some (some .enomem,true,true,.live,1) := by decide +kernel
  obtain ⟨⟨⟨trace,s',rc⟩,run⟩,-,facts⟩ := Option.map_eq_some_iff.mp ran
  simp only [Prod.mk.injEq] at facts
  obtain ⟨rfl,facts⟩ := facts
  exact ⟨trace,s',createdVacant,run,facts⟩

end OpenPs3Ftp.Lifecycle
