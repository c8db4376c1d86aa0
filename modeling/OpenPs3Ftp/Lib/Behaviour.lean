import Mathlib.Order.Basic
import Mathlib.Data.Nat.Init
import OpenPs3Ftp.Lib.Transition

/-! Endless runs of a transition system. Fairness is weak: an actor that can move
from some time on does move. That one condition leads to another is shown from the
next move of an actor, along a condition that stays, or by a well-founded descent. -/
namespace OpenPs3Ftp.Lib.System
variable {State Label : Type} {sys : System State Label}

abbrev Reached (sys : System State Label) : State → Prop := sys.Reach fun _ _ => True

def Enabled (sys : System State Label) (who : Label → Prop) (s : State) : Prop :=
  ∃ label s', who label ∧ sys.step s label s'

structure Behaviour (sys : System State Label) where
  state : Nat → State
  label : Nat → Label
  first : sys.start (state 0)
  next : ∀ n, sys.step (state n) (label n) (state (n + 1))

variable {s t : State} {labels : List Label}

theorem Path.goesOn (path : sys.Path s labels t) (state : Nat → State)
    (label : Nat → Label) (here : state 0 = t) (next : ∀ n, sys.step (state n) (label n) (state (n + 1))) :
    ∃ (state' : Nat → State) (label' : Nat → Label), state' 0 = s ∧
      (∀ n, sys.step (state' n) (label' n) (state' (n + 1))) ∧
      ∀ n, state' (labels.length + n) = state n ∧ label' (labels.length + n) = label n := by
  induction path with
  | nil s => exact ⟨state,label,here,next,fun n => by simp⟩
  | @cons s first s' labels last moved later ih =>
    obtain ⟨state',label',zero,steps,rest⟩ := ih here
    refine ⟨fun n => n.casesOn s state',fun n => n.casesOn first label',rfl,fun n => ?_,fun n => ?_⟩
    · cases n with
      | zero =>
        rw [← zero] at moved
        exact moved
      | succ n => exact steps n
    · rw [List.length_cons,Nat.add_right_comm]
      exact rest n

theorem Path.reached (path : sys.Path s labels t) (here : sys.Reached s) :
    sys.Reached t := by
  induction path with
  | nil => exact here
  | cons moved later ih => exact ih (.step here trivial moved)

theorem Path.logged (path : sys.Path s labels t) (log) : sys.logged.Path (s,log) labels (t,log ++ labels) := by
  induction path generalizing log with
  | nil s =>
    rw [List.append_nil]
    exact .nil _
  | @cons s first s' labels last moved later ih =>
    have rest := ih (log ++ [first])
    rw [List.append_assoc] at rest
    exact .cons ⟨moved,rfl⟩ rest

namespace Behaviour
variable {b : Behaviour sys} {who : Label → Prop} {P Q R S : State → Prop}

def Fair (b : Behaviour sys) (who : Label → Prop) : Prop :=
  ∀ n, (∀ m, n ≤ m → sys.Enabled who (b.state m)) → ∃ m, n ≤ m ∧ who (b.label m)

def Leads (b : Behaviour sys) (P Q : State → Prop) : Prop :=
  ∀ n, P (b.state n) → ∃ m, n ≤ m ∧ Q (b.state m)

theorem reached (b : Behaviour sys) (n) : sys.Reached (b.state n) := by
  induction n with
  | zero => exact .start b.first
  | succ n ih => exact .step ih trivial (b.next n)

theorem Leads.refl (weaker : ∀ s, sys.Reached s → P s → Q s) : b.Leads P Q :=
  fun n now => ⟨n,Nat.le_refl n,weaker _ (b.reached n) now⟩

theorem Leads.trans (first : b.Leads P Q) (second : b.Leads Q R) : b.Leads P R := by
  intro n now
  obtain ⟨m,later,then_⟩ := first n now
  obtain ⟨k,last,finally_⟩ := second m then_
  exact ⟨k,Nat.le_trans later last,finally_⟩

theorem Leads.or (left : b.Leads P R) (right : b.Leads Q R) : b.Leads (fun s => P s ∨ Q s) R := by
  rintro n (now | now)
  · exact left n now
  · exact right n now

theorem lasts (kept : ∀ s label s', sys.Reached s → P s → sys.step s label s' → P s' ∨ Q s') {n m}
    (now : P (b.state n)) (later : n ≤ m) : P (b.state m) ∨ ∃ k, n ≤ k ∧ k ≤ m ∧ Q (b.state k) := by
  induction m, later using Nat.le_induction with
  | base => exact .inl now
  | succ m later ih =>
    rcases ih with still | ⟨k,after,before,other⟩
    · rcases kept _ _ _ (b.reached m) still (b.next m) with next | next
      · exact .inl next
      · exact .inr ⟨m + 1,by omega,Nat.le_refl _,next⟩
    · exact .inr ⟨k,after,by omega,other⟩

theorem Fair.leads (fair : b.Fair who) (enabled : ∀ s, sys.Reached s → P s → sys.Enabled who s)
    (moves : ∀ s label s', sys.Reached s → P s → sys.step s label s' → P s' ∧ ¬ who label ∨ Q s') : b.Leads P Q := by
  have kept : ∀ s label s', sys.Reached s → P s → sys.step s label s' → P s' ∨ Q s' := fun s label s' reached here step =>
    (moves s label s' reached here step).imp_left (·.1)
  intro n now
  by_contra never
  have still : ∀ m, n ≤ m → P (b.state m) := by
    intro m later
    rcases lasts kept now later with here | ⟨k,after,-,other⟩
    · exact here
    · exact absurd ⟨k,after,other⟩ never
  obtain ⟨m,later,moved⟩ := fair n fun m later => enabled _ (b.reached m) (still m later)
  exact never ⟨m + 1,by omega,(moves _ _ _ (b.reached m) (still m later) (b.next m)).resolve_left (·.2 moved)⟩

theorem Leads.along (leads : b.Leads P Q)
    (kept : ∀ s label s', sys.Reached s → R s → sys.step s label s' → R s' ∨ S s') :
    b.Leads (fun s => P s ∧ R s) (fun s => Q s ∧ R s ∨ S s) := by
  rintro n ⟨now,here⟩
  obtain ⟨m,later,then_⟩ := leads n now
  rcases lasts kept here later with still | ⟨k,after,-,other⟩
  · exact ⟨m,later,.inl ⟨then_,still⟩⟩
  · exact ⟨k,after,.inr other⟩

theorem Leads.descend {ι : Type} {less : ι → ι → Prop} (founded : WellFounded less) {P : ι → State → Prop}
    (down : ∀ i, b.Leads (P i) fun s => Q s ∨ ∃ j, less j i ∧ P j s) (i) : b.Leads (P i) Q := by
  induction i using founded.induction with
  | _ i ih =>
    intro n now
    obtain ⟨m,later,done | ⟨j,smaller,next⟩⟩ := down i n now
    · exact ⟨m,later,done⟩
    · obtain ⟨k,last,finally_⟩ := ih j smaller m next
      exact ⟨k,Nat.le_trans later last,finally_⟩

end Behaviour
end OpenPs3Ftp.Lib.System
