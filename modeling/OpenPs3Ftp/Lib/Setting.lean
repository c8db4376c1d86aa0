import OpenPs3Ftp.Lib.Bounded

/-! Programs in a setting. What can come back from a call depends on the exchanges
before it, as with a file that is read piece by piece, and every exchange leaves the
setting in a new state. -/
namespace OpenPs3Ftp.Lib

structure Setting (Call : Type) (Answer : Call → Type) (σ : Type) where
  can : σ → (call : Call) → Answer call → Prop
  next : σ → (call : Call) → Answer call → σ

namespace Setting
variable {Call : Type} {Answer : Call → Type} {σ τ α β : Type} (w : Setting Call Answer σ)

def Genuine : σ → List (Exchange Answer) → Prop
  | _,[] => True
  | st,e :: rest => w.can st e.1 e.2 ∧ Genuine (w.next st e.1 e.2) rest

instance decidableGenuine [decide_ : ∀ st call answer, Decidable (w.can st call answer)] (st : σ)
    (trace : List (Exchange Answer)) : Decidable (w.Genuine st trace) :=
  match trace with
  | [] => isTrue trivial
  | e :: rest => @instDecidableAnd _ _ (decide_ st e.1 e.2) (decidableGenuine (w.next st e.1 e.2) rest)

def after (st : σ) (trace : List (Exchange Answer)) : σ := trace.foldl (fun st e => w.next st e.1 e.2) st

def Yields (post : σ → α → Prop) : σ → Program Call Answer α → Prop
  | st,.done a => post st a
  | st,.ask call next => ∀ answer, w.can st call answer → Yields post (w.next st call answer) (next answer)

def Outcome (spent : σ → Prop) (post : σ → α → Prop) (st : σ) : Option α → Prop
  | none => spent st
  | some a => post st a

def Leaves (spent : σ → Prop) (post : σ → α → Prop) (st : σ) (p : Bounded Call Answer α) : Prop :=
  w.Yields (Outcome spent post) st p

variable {w} {post : σ → β → Prop} {f : α → Bounded Call Answer β} {round : τ → Bounded Call Answer (τ ⊕ β)} {st : σ}

/- What every exchange only adds to is at every moment part of what it is in the end. -/
theorem afterGrows {R : σ → σ → Prop} (same : ∀ st, R st st) (chain : ∀ {a b c}, R a b → R b c → R a c)
    (grows : ∀ st call answer, R st (w.next st call answer)) {before trace : List (Exchange Answer)}
    (part : before <+: trace) (st) : R (w.after st before) (w.after st trace) := by
  obtain ⟨rest,rfl⟩ := part
  rw [after,after,List.foldl_append]
  generalize List.foldl (fun st (e : Exchange Answer) => w.next st e.1 e.2) st before = middle
  induction rest generalizing middle with
  | nil => exact same middle
  | cons e rest ih => exact chain (grows middle e.1 e.2) (ih _)

theorem yieldsRuns {post st} {p : Program Call Answer α} {trace a} (h : w.Yields post st p) (run : p.Runs trace a)
    (genuine : w.Genuine st trace) : post (w.after st trace) a := by
  induction run generalizing st with
  | done value => exact h
  | ask answer rest ih => exact ih (h answer genuine.1) genuine.2

theorem yieldsMono {post post' : σ → α → Prop} {p} (weaker : ∀ st a, post st a → post' st a)
    (h : w.Yields post st p) : w.Yields post' st p := by
  induction p generalizing st with
  | done value => exact weaker st value h
  | ask call next ih => exact fun answer possible => ih answer (h answer possible)

theorem yieldsBind {p} {f : α → Program Call Answer β}
    (h : w.Yields (fun st a => w.Yields post st (f a)) st p) : w.Yields post st (p >>= f) := by
  induction p generalizing st with
  | done value => exact h
  | ask call next ih => exact fun answer possible => ih answer (h answer possible)

section Loops
variable {spent : σ → Prop}

theorem leavesPure {post a} (h : post st a) : w.Leaves spent post st (pure a : Bounded Call Answer α) := h

theorem leavesAsk {call} {k : Answer call → Bounded Call Answer β}
    (next : ∀ answer, w.can st call answer → w.Leaves spent post (w.next st call answer) (k answer)) :
    w.Leaves spent post st (Bounded.perform call >>= k) := next

theorem leavesOne {call post} (next : ∀ answer, w.can st call answer → post (w.next st call answer) answer) :
    w.Leaves spent post st (Bounded.perform call : Bounded Call Answer (Answer call)) := next

theorem leavesBind {p} (h : w.Leaves spent (fun st a => w.Leaves spent post st (f a)) st p) : w.Leaves spent post st (p >>= f) := by
  refine yieldsBind (yieldsMono ?_ h)
  intro st o next
  cases o with
  | none | some a => exact next

theorem leavesMono {spent' : σ → Prop} {post post' : σ → α → Prop} {p} (less : ∀ st, spent st → spent' st)
    (weaker : ∀ st a, post st a → post' st a) (h : w.Leaves spent post st p) : w.Leaves spent' post' st p := by
  refine yieldsMono ?_ h
  intro st o held
  cases o with
  | none => exact less st held
  | some a => exact weaker st a held

theorem leavesPost {post post' : σ → α → Prop} {p} (weaker : ∀ st a, post st a → post' st a)
    (h : w.Leaves spent post st p) : w.Leaves spent post' st p := leavesMono (fun _ held => held) weaker h

theorem leavesThen {first : σ → α → Prop} {p} (h : w.Leaves spent first st p)
    (next : ∀ st a, first st a → w.Leaves spent post st (f a)) :
    w.Leaves spent post st (p >>= f) :=
  leavesBind (leavesPost next h)

theorem leavesVia (first : σ → α → Prop) {p} (h : w.Leaves spent first st p)
    (next : ∀ st a, first st a → w.Leaves spent post st (f a)) :
    w.Leaves spent post st (p >>= f) := leavesThen h next

theorem leavesLoop (Inv : σ → τ → Prop) (low : ∀ st s, Inv st s → spent st)
    (step : ∀ st s, Inv st s → w.Leaves spent (fun st next => Sum.elim (Inv st) (post st) next) st (round s))
    (rounds : Nat) {s} (first : Inv st s) : w.Leaves spent post st (Bounded.loop round rounds s) := by
  induction rounds generalizing st s with
  | zero => exact low st s first
  | succ rounds ih =>
    refine leavesThen (step st s first) ?_
    intro st' next held
    cases next with
    | inl s' => exact ih held
    | inr b => exact leavesPure held

/- A loop that has `n` rounds left to go, by its invariant, does not run out of rounds. Where it
need not end, `ends` is false. -/
theorem leavesWithin {ends : Prop} (Inv : Nat → σ → τ → Prop)
    (step : ∀ n st s, Inv n st s → w.Leaves (fun _ => ¬ ends) (fun st' next =>
      Sum.elim (fun s' => ∃ n', Inv n' st' s' ∧ (ends → n' < n)) (post st') next) st (round s)) (rounds : Nat)
    {n : Nat} {s} (first : Inv n st s) (enough : ends → n < rounds) :
    w.Leaves (fun _ => ¬ ends) post st (Bounded.loop round rounds s) := by
  induction rounds generalizing st s n with
  | zero => exact fun yes => absurd (enough yes) (Nat.not_lt_zero _)
  | succ rounds ih =>
    refine leavesThen (step n st s first) ?_
    intro st' next held
    cases next with
    | inl s' =>
      obtain ⟨n',inv,less⟩ := held
      refine ih inv fun yes => ?_
      have lower := less yes
      have room := enough yes
      omega
    | inr b => exact leavesPure held

theorem leavesDown {ends : Prop} (Inv : σ → τ → Prop) (measure : σ → τ → Nat)
    (step : ∀ st s, Inv st s → w.Leaves (fun _ => ¬ ends) (fun st' next =>
      Sum.elim (fun s' => Inv st' s' ∧ (ends → measure st' s' < measure st s)) (post st') next) st (round s))
    (rounds : Nat) {s} (first : Inv st s) (enough : ends → measure st s < rounds) :
    w.Leaves (fun _ => ¬ ends) post st (Bounded.loop round rounds s) := by
  refine leavesWithin (fun n st s => Inv st s ∧ measure st s = n) ?_ rounds ⟨first,rfl⟩ enough
  rintro n st s ⟨inv,rfl⟩
  refine leavesPost ?_ (step st s inv)
  intro st' next held
  cases next with
  | inl s' => exact ⟨_,⟨held.1,rfl⟩,held.2⟩
  | inr b => exact held

def leaving (w : Setting Call Answer σ) (spent : σ → Prop) : Bounded.Logic Call Answer σ where
  low := spent
  Ends st p post := w.Leaves spent (fun st a => post a st) st p
  pure held := held
  bind := leavesBind
  mono weaker := leavesPost fun st a => weaker a st
  loop Inv _ low step rounds _ _ first :=
    leavesLoop (fun st s => Inv s st) (fun st s => low s st) (fun st s => step s st) rounds first

theorem leavesUses {g : Call → Prop} {Inv : σ → Prop} {p : Bounded Call Answer α} (uses : Bounded.Uses g p)
    (low : ∀ st, Inv st → spent st)
    (steady : ∀ st call answer, Inv st → g call → w.can st call answer → Inv (w.next st call answer)) (first : Inv st) :
    w.Leaves spent (fun st _ => Inv st) st p := by
  induction p generalizing st with
  | done value =>
    cases value with
    | none => exact low st first
    | some a => exact first
  | ask call next ih => exact fun answer possible => ih answer (uses.2 answer trivial) (steady st call answer first uses.1 possible)

theorem leavesMade {g : Call → Prop} {Inv : σ → Prop} {p : Bounded Call Answer α} (makes : ∀ n, Bounded.Makes g n p)
    (steady : ∀ st call answer, Inv st → g call → Inv (w.next st call answer)) (first : Inv st) :
    w.Leaves spent (fun st _ => Inv st) st p := by
  induction p generalizing st with
  | done value =>
    cases value with
    | none => exact absurd ((makes 1).2 [] (.done none)) (Nat.not_succ_le_zero 0)
    | some a => exact first
  | ask call next ih =>
    refine fun answer _ => ih answer (fun n => ⟨(makes n).1.2 answer trivial,fun trace run => ?_⟩)
      (steady st call answer first (makes 0).1.1)
    exact Nat.le_of_succ_le_succ ((makes (n + 1)).2 _ (.ask answer run))

end Loops

section Beside
variable {ρ : Type}

def beside (w : Setting Call Answer σ) (note : ρ → (call : Call) → Answer call → ρ) : Setting Call Answer (σ × ρ) where
  can st := w.can st.1
  next st call answer := (w.next st.1 call answer,note st.2 call answer)

variable {note : ρ → (call : Call) → Answer call → ρ}

theorem besideGenuine {st r trace} : (w.beside note).Genuine (st,r) trace ↔ w.Genuine st trace := by
  induction trace generalizing st r with
  | nil => rfl
  | cons e rest ih => exact and_congr_right fun _ => ih

theorem besideAfter (st r trace) :
    (w.beside note).after (st,r) trace = (w.after st trace,Program.noted note r trace) := by
  induction trace generalizing st r with
  | nil => rfl
  | cons e rest ih => exact ih _ _

theorem besideRuns {spent : σ × ρ → Prop} {post : σ × ρ → α → Prop} {p st r} {trace : List (Exchange Answer)}
    {result : Option α} (h : (w.beside note).Leaves spent post (st,r) p) (run : Program.Runs p trace result)
    (genuine : w.Genuine st trace) : Outcome spent post (w.after st trace,Program.noted note r trace) result := by
  rw [← besideAfter]
  exact yieldsRuns h run (besideGenuine.mpr genuine)

end Beside

section Possible

def May (w : Setting Call Answer σ) (post : σ → α → Prop) (st : σ) (p : Bounded Call Answer α) : Prop :=
  ∃ trace a, Program.Runs p trace (some a) ∧ w.Genuine st trace ∧ post (w.after st trace) a

theorem genuineAppend {first second} :
    w.Genuine st (first ++ second) ↔ w.Genuine st first ∧ w.Genuine (w.after st first) second := by
  induction first generalizing st with
  | nil => exact iff_of_eq (true_and _).symm
  | cons e rest ih => exact (and_congr_right fun _ => ih).trans and_assoc.symm

theorem afterAppend (st first second) :
    w.after st (first ++ second) = w.after (w.after st first) second := List.foldl_append

theorem mayMono {post' p} (weaker : ∀ st b, post st b → post' st b) (h : w.May post st p) : w.May post' st p := by
  obtain ⟨trace,b,run,genuine,held⟩ := h
  exact ⟨trace,b,run,genuine,weaker _ b held⟩

theorem mayPure {a} (held : post st a) : w.May post st (pure a : Bounded Call Answer β) :=
  ⟨[],a,.done _,trivial,held⟩

theorem mayAsk {call k} (answer) (possible : w.can st call answer)
    (next : w.May post (w.next st call answer) (k answer)) : w.May post st (Bounded.perform call >>= k) := by
  obtain ⟨trace,b,run,genuine,held⟩ := next
  exact ⟨⟨call,answer⟩ :: trace,b,.ask answer run,⟨possible,genuine⟩,held⟩

theorem mayThen (first : σ → α → Prop) {p} (h : w.May first st p)
    (next : ∀ st a, first st a → w.May post st (f a)) : w.May post st (p >>= f) := by
  obtain ⟨trace,a,run,genuine,held⟩ := h
  obtain ⟨more,b,run',genuine',held'⟩ := next _ a held
  refine ⟨trace ++ more,b,Program.runsBind.mpr ⟨trace,some a,more,rfl,run,run'⟩,genuineAppend.mpr ⟨genuine,genuine'⟩,?_⟩
  rw [afterAppend]
  exact held'

theorem mayLoop {rounds : Nat} {s}
    (step : w.May (fun st next => Sum.elim (fun s' => w.May post st (Bounded.loop round rounds s')) (post st) next) st (round s)) :
    w.May post st (Bounded.loop round (rounds + 1) s) := by
  refine mayThen _ step fun st' next held => ?_
  cases next with
  | inl s' => exact held
  | inr b => exact mayPure held

end Possible

section Watched
variable {Q : σ → Prop} {p : Prop}

def watched (w : Setting Call Answer σ) (Q : σ → Prop) : Setting Call Answer (σ × Prop) where
  can st := w.can st.1
  next st call answer := (w.next st.1 call answer,st.2 ∧ Q (w.next st.1 call answer))

theorem watchedGenuine {trace} : (w.watched Q).Genuine (st,p) trace ↔ w.Genuine st trace := by
  induction trace generalizing st p with
  | nil => rfl
  | cons e rest ih => exact and_congr_right fun _ => ih

theorem watchedHeld {trace} (held : ((w.watched Q).after (st,p) trace).2) : p := by
  induction trace generalizing st p with
  | nil => exact held
  | cons e rest ih => exact (ih held).1

theorem watchedEach {trace before} (held : ((w.watched Q).after (st,p) trace).2) (first : Q st)
    (part : before <+: trace) : Q (w.after st before) := by
  induction trace generalizing st p before with
  | nil =>
    rw [List.prefix_nil.mp part]
    exact first
  | cons e rest ih =>
    cases before with
    | nil => exact first
    | cons head before =>
      obtain ⟨rfl,later⟩ := List.cons_prefix_cons.mp part
      have rest : ((w.watched Q).after (w.next st head.1 head.2,p ∧ Q (w.next st head.1 head.2)) rest).2 := held
      show Q (w.after (w.next st head.1 head.2) before)
      exact ih rest (watchedHeld rest).2 later

end Watched
end Setting
end OpenPs3Ftp.Lib
