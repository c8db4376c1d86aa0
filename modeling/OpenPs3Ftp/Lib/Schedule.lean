import OpenPs3Ftp.Lib.Transition

/-! Runs that can be computed: what is due happens first, otherwise a script goes on, and
a run stops where neither can or a step fails the test. -/
namespace OpenPs3Ftp.Lib.System
variable {State Label : Type} {sys : System State Label} {ok : State → Label → Prop}

/- A step out of `s`, which is there if `s` is sane. -/
structure Next (sys : System State Label) (Sane : State → Prop) (s : State) where
  label : Label
  state : State
  step : Sane s → sys.step s label state

structure Chooser (sys : System State Label) (Hint : Type) where
  Sane : State → Prop
  sane : ∀ {s label s'}, Sane s → sys.step s label s' → Sane s'
  due : (s : State) → Option (sys.Next Sane s)
  pick : Hint → (s : State) → Option (sys.Next Sane s)

namespace Chooser
variable {Hint : Type} (chooser : Chooser sys Hint)

def next (s : State) (hints : List Hint) : Option (sys.Next chooser.Sane s × List Hint) :=
  match chooser.due s,hints with
  | some next,hints => some (next,hints)
  | none,[] => none
  | none,hint :: later => (chooser.pick hint s).map (·,later)

def play (test : State → Label → Bool) : Nat → State → List Hint → List Label × State
  | 0,s,_ => ([],s)
  | fuel + 1,s,hints =>
    match chooser.next s hints with
    | none => ([],s)
    | some (next,later) =>
      if test s next.label then
        let rest := play test fuel next.state later
        (next.label :: rest.1,rest.2)
      else ([],s)

variable {chooser}

theorem playKept {test : State → Label → Bool} {R : State → List Label → Prop}
    (kept : ∀ s log label s', R s log → test s label = true → sys.step s label s' → R s' (log ++ [label]))
    (fuel : Nat) {s} (log : List Label) (hints : List Hint) (sane : chooser.Sane s) (here : R s log) :
    R (chooser.play test fuel s hints).2 (log ++ (chooser.play test fuel s hints).1) := by
  induction fuel generalizing s log hints with
  | zero => rwa [play,List.append_nil]
  | succ fuel ih =>
    unfold play
    split
    · rwa [List.append_nil]
    rename_i next later _
    split
    · rename_i passed
      have step := next.step sane
      have rest := ih _ later (chooser.sane sane step) (kept _ _ _ _ here passed step)
      rwa [List.append_assoc] at rest
    · rwa [List.append_nil]

theorem playPath {test : State → Label → Bool} (fuel : Nat) {s} (hints : List Hint) (sane : chooser.Sane s) :
    sys.Path s (chooser.play test fuel s hints).1 (chooser.play test fuel s hints).2 :=
  playKept (R := fun t log => sys.Path s log t)
    (fun _ _ _ _ path _ moved => path.append (.cons moved (.nil _))) fuel [] hints sane (.nil s)

theorem playReach {test : State → Label → Bool} (met : ∀ s label, test s label = true → ok s label) (fuel : Nat) {s}
    (hints : List Hint) (sane : chooser.Sane s) (here : sys.Reach ok s) :
    sys.Reach ok (chooser.play test fuel s hints).2 :=
  playKept (R := fun t _ => sys.Reach ok t) (fun _ _ _ _ before passed moved => .step before (met _ _ passed) moved)
    fuel [] hints sane here

theorem playTested {test : State → Label → Bool} (fuel : Nat) {s} (hints : List Hint) (sane : chooser.Sane s) :
    ∀ label ∈ (chooser.play test fuel s hints).1, ∃ s, test s label = true :=
  playKept (R := fun _ log => ∀ label ∈ log, ∃ s, test s label = true)
    (fun s _ _ _ before passed _ _ member => (List.mem_append.mp member).elim (before _)
      fun last => ⟨s,List.mem_singleton.mp last ▸ passed⟩) fuel [] hints sane (by simp)

end Chooser

end OpenPs3Ftp.Lib.System
