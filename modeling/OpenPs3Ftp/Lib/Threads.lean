import Mathlib.Logic.Function.Basic
import OpenPs3Ftp.Lib.Program
import OpenPs3Ftp.Lib.Schedule

/-! Threads that run programs on one shared state. Every call is one step of its thread,
other threads and the environment move in between. Along with its program a thread has
a role, which follows from the calls it has made; a discipline says which calls a role
admits, and a thread keeps to it if its program does. -/
namespace OpenPs3Ftp.Lib

/- `code` are the programs that can be entered, `performs` says what a call may answer
and do, `happens` what else goes on. `first`, `note` and `rest` give the roles. -/
structure Threads (Entry Call : Type) (Answer : Call → Type) (α σ Event ρ : Type) where
  start : σ → Prop
  code : Entry → Program Call Answer α
  performs : σ → (call : Call) → Answer call → σ → Prop
  happens : σ → Event → σ → Prop
  first : Entry → ρ
  note : ρ → (call : Call) → Answer call → ρ
  rest : ρ

namespace Threads
variable {Entry Call : Type} {Answer : Call → Type} {α σ Event ρ : Type}

structure State (Entry Call : Type) (Answer : Call → Type) (α σ ρ : Type) where
  shared : σ
  task : Nat → Option (Entry × Program Call Answer α)
  role : Nat → ρ

inductive Label (Entry Call : Type) (Answer : Call → Type) (α Event : Type) where
  | enter (t : Nat) (entry : Entry)
  | call (t : Nat) (e : Exchange Answer)
  | leave (t : Nat) (value : α)
  | event (what : Event)

inductive Step (th : Threads Entry Call Answer α σ Event ρ) :
    State Entry Call Answer α σ ρ → Label Entry Call Answer α Event → State Entry Call Answer α σ ρ → Prop where
  | enter {st t} (entry) (free : st.task t = none) :
      Step th st (.enter t entry) { st with
        task := Function.update st.task t (some (entry,th.code entry)), role := Function.update st.role t (th.first entry) }
  | call {st t entry call next shared} (answer) (busy : st.task t = some (entry,.ask call next))
      (performed : th.performs st.shared call answer shared) :
      Step th st (.call t ⟨call,answer⟩) ⟨shared,Function.update st.task t (some (entry,next answer)),
        Function.update st.role t (th.note (st.role t) call answer)⟩
  | leave {st t entry value} (busy : st.task t = some (entry,.done value)) :
      Step th st (.leave t value) { st with
        task := Function.update st.task t none, role := Function.update st.role t th.rest }
  | event {st what shared} (happened : th.happens st.shared what shared) :
      Step th st (.event what) { st with shared }

def system (th : Threads Entry Call Answer α σ Event ρ) :
    System (State Entry Call Answer α σ ρ) (Label Entry Call Answer α Event) where
  start st := th.start st.shared ∧ (∀ t, st.task t = none) ∧ ∀ t, st.role t = th.rest
  step := Step th

structure Discipline (th : Threads Entry Call Answer α σ Event ρ) where
  allows : Entry → ρ → Call → Prop
  leaves : ρ → α → Prop
  kept : ∀ entry, Program.Meets (fun _ _ => True) th.note (allows entry) leaves (th.first entry) (th.code entry)

variable {th : Threads Entry Call Answer α σ Event ρ} (rules : Discipline th)

def Discipline.Keeps (st : State Entry Call Answer α σ ρ) : Prop :=
  ∀ t, match st.task t with
    | none => st.role t = th.rest
    | some (entry,p) => Program.Meets (fun _ _ => True) th.note (rules.allows entry) rules.leaves (st.role t) p

variable {rules} {st st' : State Entry Call Answer α σ ρ} {label : Label Entry Call Answer α Event}

theorem Discipline.Keeps.of (keeps : rules.Keeps st) {t entry p} (busy : st.task t = some (entry,p)) :
    Program.Meets (fun _ _ => True) th.note (rules.allows entry) rules.leaves (st.role t) p := by
  have mine := keeps t
  rwa [busy] at mine

theorem Discipline.Keeps.out (keeps : rules.Keeps st) {t} (free : st.task t = none) : st.role t = th.rest := by
  have mine := keeps t
  rwa [free] at mine

theorem Discipline.Keeps.allowed (keeps : rules.Keeps st) {t entry call next}
    (busy : st.task t = some (entry,.ask call next)) : rules.allows entry (st.role t) call := (keeps.of busy).1

theorem Discipline.Keeps.left (keeps : rules.Keeps st) {t entry value} (busy : st.task t = some (entry,.done value)) :
    rules.leaves (st.role t) value := keeps.of busy

theorem keepsStart (start : th.system.start st) : rules.Keeps st := by
  intro t
  rw [start.2.1 t]
  exact start.2.2 t

theorem keepsStep (keeps : rules.Keeps st) (step : th.system.step st label st') : rules.Keeps st' := by
  intro u
  have mine := keeps u
  cases step with
  | @enter t entry free =>
    by_cases same : u = t
    · subst same
      simpa using rules.kept entry
    · simpa [Function.update_of_ne same] using mine
  | @call t entry call next shared answer busy performed =>
    by_cases same : u = t
    · subst same
      rw [busy] at mine
      simpa using mine.2 answer trivial
    · simpa [Function.update_of_ne same] using mine
  | @leave t entry value busy =>
    by_cases same : u = t
    · subst same
      simp
    · simpa [Function.update_of_ne same] using mine
  | event happened => exact mine

theorem keepsReach {ok} (reached : th.system.Reach ok st) : rules.Keeps st := by
  refine System.invariant (P := rules.Keeps) ?_ ?_ reached
  · exact fun st start => keepsStart start
  · exact fun st label st' keeps _ step => keepsStep keeps step

structure Chooser (th : Threads Entry Call Answer α σ Event ρ) (κ : Type) where
  answer : κ → (s : σ) → (call : Call) → Option { out : Answer call × σ // th.performs s call out.1 out.2 }
  fate : (s : σ) → (what : Event) → Option { s' : σ // th.happens s what s' }

inductive Act (Entry Event κ : Type) where
  | enter (t : Nat) (entry : Entry)
  | move (t : Nat) (k : κ)
  | event (what : Event)

variable {κ : Type} (chooser : Chooser th κ)

def advance (st : State Entry Call Answer α σ ρ) : Act Entry Event κ → Option (th.system.Next (fun _ => True) st)
  | .enter t entry =>
    match free : st.task t with
    | some _ => none
    | none => some ⟨.enter t entry,{ st with
        task := Function.update st.task t (some (entry,th.code entry)), role := Function.update st.role t (th.first entry) },
        fun _ => .enter entry free⟩
  | .move t k =>
    match busy : st.task t with
    | none => none
    | some (_,.done value) => some ⟨.leave t value,{ st with
        task := Function.update st.task t none, role := Function.update st.role t th.rest },fun _ => .leave busy⟩
    | some (entry,.ask call next) =>
      (chooser.answer k st.shared call).map fun ⟨(answer,shared),performed⟩ =>
        ⟨.call t ⟨call,answer⟩,⟨shared,Function.update st.task t (some (entry,next answer)),
          Function.update st.role t (th.note (st.role t) call answer)⟩,fun _ => .call answer busy performed⟩
  | .event what => (chooser.fate st.shared what).map fun ⟨shared,happened⟩ =>
      ⟨.event what,{ st with shared },fun _ => .event happened⟩

def Within (th : Threads Entry Call Answer α σ Event ρ) (n : Nat) (st : State Entry Call Answer α σ ρ) : Prop :=
  ∀ t, n ≤ t → st.task t = none ∧ st.role t = th.rest

def Label.within (n : Nat) : Label Entry Call Answer α Event → Bool
  | .enter t _ | .call t _ | .leave t _ => decide (t < n)
  | .event _ => true

theorem withinStep {n} (few : label.within n = true) (within : Within th n st) (step : th.system.step st label st') :
    Within th n st' := by
  intro u above
  have mine := within u above
  have apart : ∀ t, decide (t < n) = true → u ≠ t := by
    rintro t below rfl
    have := of_decide_eq_true below
    omega
  cases step with
  | enter entry free | call answer busy performed | leave busy =>
    simpa [Function.update_of_ne (apart _ few)] using mine
  | event happened => exact mine

def play (n : Nat) (test : State Entry Call Answer α σ ρ → Label Entry Call Answer α Event → Bool) :
    State Entry Call Answer α σ ρ → List (Act Entry Event κ) → Option (State Entry Call Answer α σ ρ)
  | st,[] => some st
  | st,act :: acts =>
    match advance chooser st act with
    | none => none
    | some next => if next.label.within n && test st next.label then play n test next.state acts else none

theorem playReach {ok n test acts} (sound : ∀ st label, Within th n st → test st label = true → ok st label)
    (within : Within th n st) (here : th.system.Reach ok st) (played : play chooser n test st acts = some st') :
    th.system.Reach ok st' ∧ Within th n st' := by
  induction acts generalizing st with
  | nil =>
    cases played
    exact ⟨here,within⟩
  | cons act acts ih =>
    dsimp only [play] at played
    split at played
    · cases played
    rename_i next _
    split at played
    · rename_i passed
      obtain ⟨few,met⟩ := (Bool.and_eq_true _ _).mp passed
      have step := next.step trivial
      exact ih (withinStep few within step) (.step here (sound st next.label within met) step) played
    · cases played

def idle (th : Threads Entry Call Answer α σ Event ρ) (s : σ) : State Entry Call Answer α σ ρ :=
  ⟨s,fun _ => none,fun _ => th.rest⟩

theorem idleWithin (s n) : Within th n (idle th s) := fun _ _ => ⟨rfl,rfl⟩

theorem idleReach {ok s} (first : th.start s) :
    th.system.Reach ok (idle th s) := .start ⟨first,fun _ => rfl,fun _ => rfl⟩

section
variable {β γ : Type}

inductive Solo (th : Threads Entry Call Answer α σ Event ρ) :
    σ → Program Call Answer β → List (Exchange Answer) → σ → β → Prop where
  | done (s value) : Solo th s (.done value) [] s value
  | call {s call next answer s' trace last value} (performed : th.performs s call answer s')
      (later : Solo th s' (next answer) trace last value) : Solo th s (.ask call next) (⟨call,answer⟩ :: trace) last value
  | event {s what s' p trace last value} (happened : th.happens s what s') (later : Solo th s' p trace last value) :
      Solo th s p trace last value

theorem soloDone {s last : σ} {b c : β} {trace : List (Exchange Answer)} (run : th.Solo s (.done b) trace last c) :
    trace = [] ∧ c = b := by
  generalize named : Program.done b = q at run
  induction run with
  | done s value =>
    cases named
    exact ⟨rfl,rfl⟩
  | call => cases named
  | event happened later ih => exact ih named

theorem soloBind {p} {f : β → Program Call Answer γ} {s last} {trace : List (Exchange Answer)} {c}
    (run : th.Solo s (p >>= f) trace last c) : ∃ first middle b second,
      trace = first ++ second ∧ th.Solo s p first middle b ∧ th.Solo middle (f b) second last c := by
  generalize named : (p >>= f) = q at run
  induction run generalizing p with
  | done s value =>
    cases p with
    | done b => exact ⟨[],s,b,[],rfl,.done s b,by rw [show f b = .done value from named]; exact .done s value⟩
    | ask => cases named
  | @call s call next answer s' trace last value performed later ih =>
    cases p with
    | done b => exact ⟨[],s,b,_,rfl,.done s b,by rw [show f b = .ask call next from named]; exact .call performed later⟩
    | ask call' next' =>
      cases named
      obtain ⟨first,middle,b,second,rfl,left,right⟩ := ih rfl
      exact ⟨_ :: first,middle,b,second,rfl,.call performed left,right⟩
  | event happened later ih =>
    obtain ⟨first,middle,b,second,rfl,left,right⟩ := ih named
    exact ⟨first,middle,b,second,rfl,.event happened left,right⟩

def Chooser.solo (chooser : Chooser th κ) : List κ → (s : σ) → (p : Program Call Answer β) →
    Option { out : List (Exchange Answer) × σ × β // th.Solo s p out.1 out.2.1 out.2.2 }
  | _,s,.done value => some ⟨([],s,value),.done s value⟩
  | [],_,.ask _ _ => none
  | k :: ks,s,.ask call next =>
    (chooser.answer k s call).bind fun ⟨(answer,s'),performed⟩ =>
      (chooser.solo ks s' (next answer)).map fun ⟨out,later⟩ => ⟨(⟨call,answer⟩ :: out.1,out.2),.call performed later⟩

end

end Threads
end OpenPs3Ftp.Lib
