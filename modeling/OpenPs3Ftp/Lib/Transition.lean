import Mathlib.Logic.Basic

/-! Labelled transition systems: the paths they take, the states they reach through
steps that all meet a condition, and history variables that watch the steps. -/
namespace OpenPs3Ftp.Lib

structure System (State Label : Type) where
  start : State → Prop
  step : State → Label → State → Prop

namespace System
variable {State Label : Type} {sys : System State Label} {ok : State → Label → Prop}

inductive Reach (sys : System State Label) (ok : State → Label → Prop) : State → Prop where
  | start {s} (first : sys.start s) : Reach sys ok s
  | step {s label s'} (before : Reach sys ok s) (met : ok s label) (moved : sys.step s label s') :
      Reach sys ok s'

theorem invariant {P : State → Prop} (first : ∀ s, sys.start s → P s)
    (kept : ∀ s label s', P s → ok s label → sys.step s label s' → P s') {s} (reached : sys.Reach ok s) : P s := by
  induction reached with
  | start h => exact first _ h
  | step _ met moved ih => exact kept _ _ _ ih met moved

inductive Path (sys : System State Label) : State → List Label → State → Prop where
  | nil (s) : Path sys s [] s
  | cons {s label s' labels last} (moved : sys.step s label s') (later : Path sys s' labels last) :
      Path sys s (label :: labels) last

theorem Path.append {s t u first second} (left : sys.Path s first t) (right : sys.Path t second u) :
    sys.Path s (first ++ second) u := by
  induction left with
  | nil => exact right
  | cons moved later ih => exact .cons moved (ih right)

theorem Path.kept {P : State → Prop} (kept : ∀ s label s', P s → sys.step s label s' → P s') {s t}
    {labels : List Label} (path : sys.Path s labels t) (first : P s) : P t := by
  induction path with
  | nil => exact first
  | cons moved later ih => exact ih (kept _ _ _ first moved)

theorem Path.reachIn {P : State → Prop} {s t} {labels : List Label} (path : sys.Path s labels t)
    (kept : ∀ label ∈ labels, ∀ s s', P s → sys.step s label s' → P s')
    (met : ∀ label ∈ labels, ∀ s, P s → ok s label) (first : P s) (here : sys.Reach ok s) : sys.Reach ok t := by
  induction path with
  | nil => exact here
  | cons moved later ih =>
    exact ih (fun label member => kept label (List.mem_cons_of_mem _ member))
      (fun label member => met label (List.mem_cons_of_mem _ member)) (kept _ List.mem_cons_self _ _ first moved)
      (.step here (met _ List.mem_cons_self _ first) moved)

theorem Path.reach {s t} {labels : List Label} (path : sys.Path s labels t) (met : ∀ label ∈ labels, ∀ s, ok s label)
    (here : sys.Reach ok s) : sys.Reach ok t :=
  path.reachIn (P := fun _ => True) (fun _ _ _ _ _ _ => trivial) (fun label member s _ => met label member s) trivial here

theorem Path.split {s u first second} (path : sys.Path s (first ++ second) u) :
    ∃ t, sys.Path s first t ∧ sys.Path t second u := by
  induction first generalizing s with
  | nil => exact ⟨s,.nil s,path⟩
  | cons label first ih =>
    cases path with
    | cons moved later =>
      obtain ⟨t,left,right⟩ := ih later
      exact ⟨t,.cons moved left,right⟩

def watched {Record : Type} (sys : System State Label) (record : Record)
    (note : Record → State → Label → Record) : System (State × Record) Label where
  start s := sys.start s.1 ∧ s.2 = record
  step s label s' := sys.step s.1 label s'.1 ∧ s'.2 = note s.2 s.1 label

def logged (sys : System State Label) : System (State × List Label) Label :=
  sys.watched [] fun log _ label => log ++ [label]

end System
end OpenPs3Ftp.Lib
