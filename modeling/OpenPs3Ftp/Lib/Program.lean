import Mathlib.Logic.Basic
import Mathlib.Data.List.Basic

/-! Sequential code over an interface of calls. A program performs a call, is
told an answer by whatever runs it, and goes on; the answers are not chosen
here. A run records every call with the answer it got, in order. Obligations on
calls and results are read off the program tree, for every possible answer. -/
namespace OpenPs3Ftp.Lib

@[simp] theorem forallExcept {ε α : Type} {P : Except ε α → Prop} :
    (∀ answer, P answer) ↔ (∀ e, P (.error e)) ∧ ∀ value, P (.ok value) := by
  constructor
  · intro h
    exact ⟨fun e => h _,fun value => h _⟩
  · rintro ⟨bad,good⟩ (e | value)
    · exact bad e
    · exact good value

inductive Program (Call : Type) (Answer : Call → Type) (α : Type) where
  | done (value : α)
  | ask (call : Call) (next : Answer call → Program Call Answer α)

namespace Program
variable {Call : Type} {Answer : Call → Type} {α β γ : Type}

def bind (p : Program Call Answer α) (f : α → Program Call Answer β) : Program Call Answer β :=
  match p with
  | .done value => f value
  | .ask call next => .ask call (fun answer => (next answer).bind f)

def perform (call : Call) : Program Call Answer (Answer call) := .ask call .done

instance : Monad (Program Call Answer) where
  pure := .done
  bind := Program.bind

@[simp] theorem pureDone (value) : (pure value : Program Call Answer α) = .done value := rfl
@[simp] theorem doneBind (value) (f : α → Program Call Answer β) : (Program.done value >>= f) = f value := rfl

@[simp] theorem askBind (call) (next : Answer call → Program Call Answer α) (f : α → Program Call Answer β) :
    (Program.ask call next >>= f) = .ask call (fun answer => next answer >>= f) := rfl

@[simp] theorem performBind (call) (f : Answer call → Program Call Answer β) :
    (perform call >>= f) = .ask call f := rfl

theorem bindDone (p : Program Call Answer α) : (p >>= fun a => .done a) = p := by
  induction p with
  | done => rfl
  | ask call next ih => exact congrArg (Program.ask call) (funext ih)

theorem bindAssoc (p) (f : α → Program Call Answer β) (g : β → Program Call Answer γ) :
    ((p >>= f) >>= g) = (p >>= fun a => f a >>= g) := by
  induction p with
  | done value => rfl
  | ask call next ih =>
    simp only [askBind]
    congr 1
    funext answer
    exact ih answer

end Program

abbrev Exchange {Call : Type} (Answer : Call → Type) := (call : Call) × Answer call

inductive Program.Runs {Call : Type} {Answer : Call → Type} {α : Type} :
    Program Call Answer α → List (Exchange Answer) → α → Prop where
  | done (value : α) : Runs (.done value) [] value
  | ask {call next trace value} (answer : Answer call) (rest : Runs (next answer) trace value) :
      Runs (.ask call next) (⟨call,answer⟩ :: trace) value

namespace Program
variable {Call : Type} {Answer : Call → Type} {α β : Type} {p : Program Call Answer α} {f : α → Program Call Answer β}
  {trace : List (Exchange Answer)}

theorem runsDone {value a : α} : (Program.done value).Runs trace a ↔ trace = [] ∧ a = value := by
  constructor
  · intro h
    cases h
    exact ⟨rfl,rfl⟩
  · rintro ⟨rfl,rfl⟩
    exact .done _

theorem runsPair {value a : α} {value' b : β} :
    (Program.done (value,value')).Runs trace (a,b) ↔ trace = [] ∧ a = value ∧ b = value' := by
  rw [runsDone,Prod.mk.injEq]

theorem somePair {o : Option (α × β)} {a a' b b'} (this : o = some (a,b)) (that : o = some (a',b')) :
    a = a' ∧ b = b' :=
  Prod.mk.inj (Option.some.inj (this.symm.trans that))

theorem runsAsk {call} {next : Answer call → Program Call Answer α} {a} :
    (Program.ask call next).Runs trace a ↔
      ∃ answer rest, trace = ⟨call,answer⟩ :: rest ∧ (next answer).Runs rest a := by
  constructor
  · intro h
    cases h with
    | ask answer rest => exact ⟨answer,_,rfl,rest⟩
  · rintro ⟨answer,rest,rfl,h⟩
    exact .ask answer h

theorem runsBind {b : β} :
    (p >>= f).Runs trace b ↔
      ∃ first a second, trace = first ++ second ∧ p.Runs first a ∧ (f a).Runs second b := by
  induction p generalizing trace with
  | done value =>
    simp only [doneBind]
    constructor
    · intro h
      exact ⟨[],value,trace,rfl,.done value,h⟩
    · rintro ⟨first,a,second,rfl,h,rest⟩
      obtain ⟨rfl,rfl⟩ := runsDone.mp h
      simpa using rest
  | ask call next ih =>
    simp only [askBind,runsAsk]
    constructor
    · rintro ⟨answer,rest,rfl,h⟩
      obtain ⟨first,a,second,rfl,left,right⟩ := (ih answer).mp h
      exact ⟨⟨call,answer⟩ :: first,a,second,rfl,⟨answer,first,rfl,left⟩,right⟩
    · rintro ⟨first,a,second,rfl,⟨answer,rest,rfl,left⟩,right⟩
      exact ⟨answer,rest ++ second,rfl,(ih answer).mpr ⟨rest,a,second,rfl,left,right⟩⟩

def play (oracle : (call : Call) → Answer call) : Program Call Answer α → List (Exchange Answer) × α
  | .done value => ([],value)
  | .ask call next =>
    let rest := play oracle (next (oracle call))
    (⟨call,oracle call⟩ :: rest.1,rest.2)

theorem playRuns (oracle) (p : Program Call Answer α) : p.Runs (p.play oracle).1 (p.play oracle).2 := by
  induction p with
  | done value => exact .done value
  | ask call next ih => exact .ask (oracle call) (ih (oracle call))

theorem playAnswers (oracle) (p : Program Call Answer α) : ∀ e ∈ (p.play oracle).1, e.2 = oracle e.1 := by
  induction p with
  | done value => simp [play]
  | ask call next ih =>
    intro e member
    rcases List.mem_cons.mp member with rfl | member
    · rfl
    · exact ih _ e member

def playFrom {σ : Type} (oracle : σ → (call : Call) → Answer call × σ) :
    σ → Program Call Answer α → List (Exchange Answer) × α
  | _,.done value => ([],value)
  | st,.ask call next =>
    let rest := playFrom oracle (oracle st call).2 (next (oracle st call).1)
    (⟨call,(oracle st call).1⟩ :: rest.1,rest.2)

theorem playFromRuns {σ : Type} (oracle : σ → (call : Call) → Answer call × σ) (st) (p : Program Call Answer α) :
    p.Runs (p.playFrom oracle st).1 (p.playFrom oracle st).2 := by
  induction p generalizing st with
  | done value => exact .done value
  | ask call next ih => exact .ask (oracle st call).1 (ih _ _)

/- `world` says which answers can come back, `note` keeps a private record of the
exchanges so far, `guard` is what every call owes and `post` what the result owes. -/
section Obligation
variable {ρ : Type} (world : (call : Call) → Answer call → Prop)
  (note : ρ → (call : Call) → Answer call → ρ) (guard : ρ → Call → Prop)

def Meets (post : ρ → α → Prop) : ρ → Program Call Answer α → Prop
  | record, .done value => post record value
  | record, .ask call next => guard record call ∧
      ∀ answer, world call answer → Meets post (note record call answer) (next answer)

def noted (record : ρ) (trace : List (Exchange Answer)) : ρ :=
  trace.foldl (fun r e => note r e.1 e.2) record

variable {world note guard} {post : ρ → α → Prop} {record : ρ}

@[simp] theorem meetsDone {value} :
    Meets world note guard post record (.done value) ↔ post record value := Iff.rfl

@[simp] theorem meetsAsk {call} {next : Answer call → Program Call Answer α} :
    Meets world note guard post record (.ask call next) ↔ guard record call ∧
      ∀ answer, world call answer → Meets world note guard post (note record call answer) (next answer) :=
  Iff.rfl

theorem meetsBind {post : ρ → β → Prop} :
    Meets world note guard post record (p >>= f) ↔
      Meets world note guard (fun r a => Meets world note guard post r (f a)) record p := by
  induction p generalizing record with
  | done value => rfl
  | ask call next ih =>
    simp only [askBind,meetsAsk]
    exact and_congr_right fun _ => forall_congr' fun answer => imp_congr_right fun _ => ih answer

@[simp] theorem meetsIte {p : Prop} [Decidable p] {yes no} :
    Meets world note guard post record (if p then yes else no) ↔
      (p → Meets world note guard post record yes) ∧ (¬ p → Meets world note guard post record no) := by
  by_cases h : p <;> simp [h]

theorem meetsMono {post' : ρ → α → Prop} (weaker : ∀ r a, post r a → post' r a)
    (h : Meets world note guard post record p) : Meets world note guard post' record p := by
  induction p generalizing record with
  | done value => exact weaker _ _ h
  | ask call next ih => exact ⟨h.1,fun answer possible => ih answer (h.2 answer possible)⟩

theorem meetsGuard {guard' : ρ → Call → Prop} (weaker : ∀ r call, guard r call → guard' r call) (h : Meets world note guard post record p) :
    Meets world note guard' post record p := by
  induction p generalizing record with
  | done value => exact h
  | ask call next ih => exact ⟨weaker _ _ h.1,fun answer possible => ih answer (h.2 answer possible)⟩

theorem meetsWeaken {σ : Type} {note' : σ → (call : Call) → Answer call → σ} {guard' : σ → Call → Prop}
    {post' : σ → α → Prop} {other} (link : ρ → σ → Prop) (linked : link record other)
    (guards : ∀ r o call, link r o → guard r call → guard' o call)
    (notes : ∀ r o call answer, link r o → guard r call → link (note r call answer) (note' o call answer))
    (posts : ∀ r o a, link r o → post r a → post' o a) (h : Meets world note guard post record p) :
    Meets world note' guard' post' other p := by
  induction p generalizing record other with
  | done value => exact posts _ _ _ linked h
  | ask call next ih =>
    exact ⟨guards _ _ _ linked h.1,fun answer possible =>
      ih answer (notes _ _ _ _ linked h.1) (h.2 answer possible)⟩

theorem meetsAny (p) (free : ∀ r call, guard r call) (loose : ∀ r a, post r a) :
    Meets world note guard post record p := by
  induction p generalizing record with
  | done value => exact loose _ _
  | ask call next ih => exact ⟨free _ _,fun answer _ => ih answer⟩

/- The obligation is about executions: along any run whose answers are possible,
each call was owed what the record then says and so is the result. -/
theorem meetsRuns {a} (h : Meets world note guard post record p)
    (run : p.Runs trace a) (possible : ∀ e ∈ trace, world e.1 e.2) :
    post (noted note record trace) a ∧
      ∀ first e second, trace = first ++ e :: second → guard (noted note record first) e.1 := by
  induction run generalizing record with
  | done value => exact ⟨h,by simp⟩
  | @ask call next trace value answer rest ih =>
    obtain ⟨owed,later⟩ := h
    have tail := ih (later answer (possible ⟨call,answer⟩ (by simp)))
      (fun e member => possible e (by simp [member]))
    refine ⟨tail.1,?_⟩
    intro first e second split
    cases first with
    | nil =>
      obtain ⟨rfl,rfl⟩ := List.cons.inj split
      exact owed
    | cons head first =>
      obtain ⟨rfl,same⟩ := List.cons.inj split
      exact tail.2 first e second same

end Obligation

abbrev Obeys (world : (call : Call) → Answer call → Prop) (guard : Call → Prop) (post : α → Prop)
    (p : Program Call Answer α) : Prop :=
  Meets world (fun (_ : Unit) _ _ => ()) (fun _ => guard) (fun _ => post) () p

theorem obeysRuns {world guard post a} (h : p.Obeys world guard post)
    (run : p.Runs trace a) (possible : ∀ e ∈ trace, world e.1 e.2) : post a ∧ ∀ e ∈ trace, guard e.1 := by
  have all := meetsRuns h run possible
  refine ⟨all.1,?_⟩
  intro e member
  obtain ⟨first,second,split⟩ := List.append_of_mem member
  exact all.2 first e second split

theorem obeysBind {world : (call : Call) → Answer call → Prop} {guard : Call → Prop} {post : β → Prop}
    (h : p.Obeys world guard (fun a => (f a).Obeys world guard post)) : (p >>= f).Obeys world guard post :=
  meetsBind.mpr (meetsMono (fun _ _ next => next) h)

theorem obeysAnd {world guard guard' post post'} (left : p.Obeys world guard post)
    (right : p.Obeys world guard' post') :
    p.Obeys world (fun call => guard call ∧ guard' call) (fun a => post a ∧ post' a) := by
  induction p with
  | done value => exact ⟨left,right⟩
  | ask call next ih =>
    exact ⟨⟨left.1,right.1⟩,fun answer possible => ih answer (left.2 answer possible) (right.2 answer possible)⟩

/- Conversely a call that every run owes its guard is owed by the program, when
no call can be left without an answer. -/
theorem runsObey {world guard} (answered : ∀ call, ∃ answer, world call answer)
    (all : ∀ trace a, p.Runs trace a → (∀ e ∈ trace, world e.1 e.2) → ∀ e ∈ trace, guard e.1) :
    p.Obeys world guard (fun _ => True) := by
  have finish : ∀ q : Program Call Answer α, ∃ trace a, q.Runs trace a ∧ ∀ e ∈ trace, world e.1 e.2 := by
    intro q
    induction q with
    | done value => exact ⟨[],value,.done value,by simp⟩
    | ask call next ih =>
      obtain ⟨answer,possible⟩ := answered call
      obtain ⟨trace,a,run,rest⟩ := ih answer
      exact ⟨_,a,.ask answer run,by simpa using ⟨possible,rest⟩⟩
  induction p with
  | done value => exact trivial
  | ask call next ih =>
    constructor
    · obtain ⟨answer,possible⟩ := answered call
      obtain ⟨trace,a,run,rest⟩ := finish (next answer)
      exact all _ a (.ask answer run) (by simpa using ⟨possible,rest⟩) ⟨call,answer⟩ (by simp)
    · intro answer possible
      exact ih answer fun trace a run rest e member =>
        all _ a (.ask answer run) (by simpa using ⟨possible,rest⟩) e (by simp [member])

end Program
end OpenPs3Ftp.Lib
