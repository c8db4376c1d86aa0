import OpenPs3Ftp.Lib.Program

/-! Programs with loops. A loop makes at most a given number of rounds and yields
nothing once they are used up: a result is always that of loops which ended by
themselves, and every beginning of an endless loop is a run within some bound. -/
namespace OpenPs3Ftp.Lib

def Bounded (Call : Type) (Answer : Call → Type) (α : Type) := Program Call Answer (Option α)

namespace Bounded
variable {Call : Type} {Answer : Call → Type} {α β σ : Type}

def bind (p : Bounded Call Answer α) (f : α → Bounded Call Answer β) : Bounded Call Answer β :=
  Program.bind p fun
    | none => .done none
    | some a => f a

instance : Monad (Bounded Call Answer) where
  pure a := Program.done (some a)
  bind := Bounded.bind

def perform (call : Call) : Bounded Call Answer (Answer call) := Program.ask call fun answer => .done (some answer)

def loop (round : σ → Bounded Call Answer (σ ⊕ β)) : Nat → σ → Bounded Call Answer β
  | 0,_ => Program.done none
  | rounds + 1,s => do
    match ← round s with
    | .inl s => loop round rounds s
    | .inr b => return b

variable {f : α → Bounded Call Answer β} {round : σ → Bounded Call Answer (σ ⊕ β)} {call : Call}
  {k : Answer call → Bounded Call Answer β}

/-! Obligations, as far as the program gets. -/
section Obligation
variable {ρ : Type} (world : (call : Call) → Answer call → Prop) (note : ρ → (call : Call) → Answer call → ρ)
  (guard : ρ → Call → Prop)

def Keeps (post : ρ → α → Prop) (record : ρ) (p : Bounded Call Answer α) : Prop :=
  Program.Meets world note guard (fun r o => ∀ a, o = some a → post r a) record p

variable {world note guard} {post : ρ → β → Prop} {record : ρ}

theorem keepsPure {b} : Keeps world note guard post record (pure b) ↔ post record b := by
  constructor
  · exact fun h => h b rfl
  · intro h a same
    cases same
    exact h

theorem keepsBind {p} (h : Keeps world note guard (fun r a => Keeps world note guard post r (f a)) record p) :
    Keeps world note guard post record (p >>= f) := by
  refine Program.meetsBind.mpr (Program.meetsMono ?_ h)
  intro r o next
  cases o with
  | none => exact fun a impossible => by cases impossible
  | some a => exact next a rfl

theorem keepsAsk (owed : guard record call)
    (next : ∀ answer, world call answer → Keeps world note guard post (note record call answer) (k answer)) :
    Keeps world note guard post record (perform call >>= k) := ⟨owed,next⟩

theorem keepsMono {post post' : ρ → α → Prop} {p} (weaker : ∀ r a, post r a → post' r a)
    (h : Keeps world note guard post record p) : Keeps world note guard post' record p :=
  Program.meetsMono (fun r _ all a same => weaker r a (all a same)) h

theorem keepsThen {p} (first : Keeps world note guard (fun _ _ => True) record p) (next : ∀ r a, Keeps world note guard post r (f a)) :
    Keeps world note guard post record (p >>= f) :=
  keepsBind (keepsMono (fun r a _ => next r a) first)

theorem keepsLoop (Inv : ρ → σ → Prop)
    (step : ∀ r s, Inv r s →
      Keeps world note guard (fun r next => Sum.elim (Inv r) (post r) next) r (round s)) (rounds : Nat) {s}
    (first : Inv record s) : Keeps world note guard post record (loop round rounds s) := by
  induction rounds generalizing record s with
  | zero => exact fun a impossible => by cases impossible
  | succ rounds ih =>
    refine keepsBind (keepsMono ?_ (step record s first))
    rintro r (s' | b) next
    · exact ih next
    · exact keepsPure.mpr next

def Round (Inv : ρ → σ → Prop) (post : ρ → Option β → Prop) (r : ρ) : Option (σ ⊕ β) → Prop
  | none => post r none
  | some (.inl s) => Inv r s
  | some (.inr b) => post r (some b)

theorem meetsLoop {Inv : ρ → σ → Prop} {post : ρ → Option β → Prop}
    (spent : ∀ r s, Inv r s → post r none)
    (step : ∀ r s, Inv r s → Program.Meets world note guard (Round Inv post) r (round s)) (rounds : Nat) {s}
    (first : Inv record s) : Program.Meets world note guard post record (loop round rounds s) := by
  induction rounds generalizing record s with
  | zero => exact spent record s first
  | succ rounds ih =>
    refine Program.meetsBind.mpr (Program.meetsMono ?_ (step record s first))
    rintro r (_ | s' | b) next
    · exact next
    · exact ih next
    · exact next

end Obligation

/-! What can be said of programs from a state on, by its rules alone: of a program that
yields nothing, `low`. -/
structure Logic (Call : Type) (Answer : Call → Type) (σ : Type) where
  low : σ → Prop
  Ends : {α : Type} → σ → Bounded Call Answer α → (α → σ → Prop) → Prop
  pure : ∀ {α : Type} {a : α} {st post}, post a st → Ends st (pure a) post
  bind : ∀ {α β : Type} {p : Bounded Call Answer α} {f : α → Bounded Call Answer β} {st post},
    Ends st p (fun a st => Ends st (f a) post) → Ends st (p >>= f) post
  mono : ∀ {α : Type} {p : Bounded Call Answer α} {st post post'},
    (∀ a st, post a st → post' a st) → Ends st p post → Ends st p post'
  loop : ∀ {τ β : Type} {round : τ → Bounded Call Answer (τ ⊕ β)} (Inv : τ → σ → Prop) {post : β → σ → Prop},
    (∀ s st, Inv s st → low st) →
    (∀ s st, Inv s st → Ends st (round s) fun next st => Sum.elim (Inv · st) (post · st) next) →
    ∀ rounds {s st}, Inv s st → Ends st (loop round rounds s) post

theorem Logic.then_ {L : Logic Call Answer σ} {p : Bounded Call Answer α} {st mid post} (first : L.Ends st p mid)
    (next : ∀ a st, mid a st → L.Ends st (f a) post) : L.Ends st (p >>= f) post := L.bind (L.mono next first)

def keeping {ρ : Type} (world : (call : Call) → Answer call → Prop) (note : ρ → (call : Call) → Answer call → ρ)
    (guard : ρ → Call → Prop) : Logic Call Answer ρ where
  low _ := True
  Ends r p post := Keeps world note guard (fun r a => post a r) r p
  pure held := keepsPure.mpr held
  bind := keepsBind
  mono weaker := keepsMono fun r a => weaker a r
  loop Inv _ _ step rounds _ _ first := keepsLoop (fun r s => Inv s r) (fun r s => step s r) rounds first

abbrev Obeys (world : (call : Call) → Answer call → Prop) (guard : Call → Prop) (post : α → Prop)
    (p : Bounded Call Answer α) : Prop :=
  Keeps world (fun (_ : Unit) _ _ => ()) (fun _ => guard) (fun _ => post) () p

abbrev Uses (g : Call → Prop) (p : Bounded Call Answer α) : Prop :=
  Obeys (fun _ _ => True) g (fun _ => True) p

section Rules
variable {g : Call → Prop}

theorem usesPure (b) : Uses g (pure b : Bounded Call Answer β) := keepsPure.mpr trivial

theorem usesAsk (owed : g call) (next : ∀ answer, Uses g (k answer)) :
    Uses g (perform call >>= k) := ⟨owed,fun answer _ => next answer⟩

theorem usesOne (owed : g call) : Uses g (perform call : Bounded Call Answer (Answer call)) :=
  ⟨owed,fun _ _ _ _ => trivial⟩

theorem usesBind {p} (first : Uses g p) (next : ∀ a, Uses g (f a)) :
    Uses g (p >>= f) := keepsBind (keepsMono (fun _ a _ => next a) first)

theorem usesLoop (step : ∀ s, Uses g (round s)) (rounds : Nat) (s) :
    Uses g (loop round rounds s) := by
  refine keepsLoop (fun _ _ => True) (fun _ s _ => keepsMono ?_ (step s)) rounds trivial
  rintro _ (_ | _) _ <;> exact trivial

theorem usesObeys {world : (call : Call) → Answer call → Prop} {p : Bounded Call Answer α} (uses : Uses g p) :
    Obeys world g (fun _ => True) p := by
  induction p with
  | done value => exact fun _ _ => trivial
  | ask call next ih => exact ⟨uses.1,fun answer _ => ih answer (uses.2 answer trivial)⟩

theorem usesKeeps {ρ : Type} {note : ρ → (call : Call) → Answer call → ρ} {guard : ρ → Call → Prop} {Inv : ρ → Prop}
    {p : Bounded Call Answer α} {r : ρ} (uses : Uses g p)
    (steady : ∀ r call, Inv r → g call → guard r call ∧ ∀ answer, Inv (note r call answer)) (first : Inv r) :
    Keeps (fun _ _ => True) note guard (fun r _ => Inv r) r p :=
  Program.meetsWeaken (fun _ r => Inv r) first (fun _ r call inv owed => (steady r call inv owed).1)
    (fun _ r call answer inv owed => (steady r call inv owed).2 answer) (fun _ _ _ inv _ _ _ => inv) uses

end Rules

/-! Rounds are used up only by making calls: a program that has made fewer of them than
its loops have rounds comes to a result. -/
section Rounds
variable {n : Nat}

def Lasts (n : Nat) (p : Bounded Call Answer α) : Prop := ∀ trace, Program.Runs p trace none → n ≤ trace.length
def Spends (p : Bounded Call Answer (σ ⊕ β)) : Prop := ∀ trace s, Program.Runs p trace (some (.inl s)) → trace ≠ []

theorem runsThen {p} {trace : List (Exchange Answer)} {o : Option β}
    (run : Program.Runs (p >>= f : Bounded Call Answer β) trace o) :
    (Program.Runs p trace none ∧ o = none) ∨
      ∃ first a second, trace = first ++ second ∧ Program.Runs p first (some a) ∧ Program.Runs (f a) second o := by
  obtain ⟨first,out,second,rfl,left,right⟩ := Program.runsBind.mp run
  cases out with
  | none =>
    obtain ⟨rfl,rfl⟩ := Program.runsDone.mp right
    exact .inl ⟨by rwa [List.append_nil],rfl⟩
  | some a => exact .inr ⟨first,a,second,rfl,left,right⟩

theorem lastsPure (b) : Lasts n (pure b : Bounded Call Answer β) := by
  intro trace run
  cases (Program.runsDone.mp run).2

theorem lastsAsk (next : ∀ answer, Lasts n (k answer)) : Lasts n (perform call >>= k) := by
  intro trace run
  obtain ⟨answer,rest,rfl,later⟩ := Program.runsAsk.mp run
  exact Nat.le_succ_of_le (next answer rest later)

theorem lastsOne (call) : Lasts n (perform call : Bounded Call Answer (Answer call)) := by
  intro trace run
  obtain ⟨answer,rest,rfl,later⟩ := Program.runsAsk.mp run
  cases (Program.runsDone.mp later).2

theorem lastsBind {p} (first : Lasts n p) (next : ∀ a, Lasts n (f a)) : Lasts n (p >>= f) := by
  intro trace run
  rcases runsThen run with ⟨left,-⟩ | ⟨one,a,two,rfl,-,right⟩
  · exact first trace left
  · rw [List.length_append]
    exact Nat.le_add_left_of_le (next a two right)

theorem spendsAsk (k : Answer call → Bounded Call Answer (σ ⊕ β)) : Spends (perform call >>= k) := by
  intro trace s run
  obtain ⟨answer,rest,rfl,-⟩ := Program.runsAsk.mp run
  exact List.cons_ne_nil _ _

theorem spendsDone (b) : Spends (pure (.inr b) : Bounded Call Answer (σ ⊕ β)) := by
  intro trace s run
  cases (Program.runsDone.mp run).2

theorem lastsLoop (each : ∀ s, Lasts n (round s))
    (costs : ∀ s, Spends (round s)) (s) : Lasts n (loop round n s) := by
  have most : ∀ rounds s trace, Program.Runs (loop round rounds s) trace none → rounds ≤ trace.length ∨ n ≤ trace.length := by
    intro rounds
    induction rounds with
    | zero => exact fun s trace _ => .inl (Nat.zero_le _)
    | succ rounds ih =>
      intro s trace run
      rcases runsThen run with ⟨left,-⟩ | ⟨one,next,two,rfl,left,right⟩
      · exact .inr (each s trace left)
      cases next with
      | inr b => cases (Program.runsDone.mp right).2
      | inl s' =>
        have some_ := List.length_pos_iff.mpr (costs s one s' left)
        rw [List.length_append]
        rcases ih s' two right with enough | enough
        · exact .inl (by omega)
        · exact .inr (by omega)
  intro trace run
  exact (most n s trace run).elim id id

def Makes (g : Call → Prop) (n : Nat) (p : Bounded Call Answer α) : Prop := Uses g p ∧ Lasts n p

variable {g : Call → Prop}

theorem makesPure (b) : Makes g n (pure b : Bounded Call Answer β) := ⟨usesPure b,lastsPure b⟩

theorem makesAsk (owed : g call) (next : ∀ answer, Makes g n (k answer)) : Makes g n (perform call >>= k) :=
  ⟨usesAsk owed fun answer => (next answer).1,lastsAsk fun answer => (next answer).2⟩

theorem makesOne (owed : g call) : Makes g n (perform call : Bounded Call Answer (Answer call)) :=
  ⟨usesOne owed,lastsOne call⟩

theorem makesBind {p} (first : Makes g n p) (next : ∀ a, Makes g n (f a)) :
    Makes g n (p >>= f) :=
  ⟨usesBind first.1 fun a => (next a).1,lastsBind first.2 fun a => (next a).2⟩

theorem makesLoop (step : ∀ s, Makes g n (round s))
    (costs : ∀ s, Spends (round s)) (s) : Makes g n (loop round n s) :=
  ⟨usesLoop (fun s => (step s).1) n s,lastsLoop (fun s => (step s).2) costs s⟩

end Rounds

end Bounded
end OpenPs3Ftp.Lib
