import OpenPs3Ftp.Resolve

/-! Paths with more components than the resolver's stack has room for, on a server rooted
at `/`. A component that finds the stack full is dropped without a word, and a later `..`
then takes one that was meant to stay. -/
namespace OpenPs3Ftp.Overflow
open Lib Text Resolve

variable (comps : List Bytes) (arg : Bytes)

/- What the argument is applied to, and the path that is meant: the components folded over
a stack without a bound. -/
def start : List Bytes := if arg.head? = some slash then [] else comps

def folded : List Bytes := walk (start comps arg) ((fields slash arg).map move)

def Exact : Prop :=
  ∀ text flag, pathResolve [slash] (absolute comps) arg maxPath = some (text,flag) → text = absolute (folded comps arg)

/- The components that the stack is short of in the end: those that met a full stack, but
for those that a later `..` at the empty stack makes up for. -/
def lost : Nat :=
  missing stackCap (start comps arg).length 0 ((fields slash arg).map move)

def kept : List Bytes :=
  walkCapped stackCap (start comps arg) ((fields slash arg).map move)

section
variable {comps : List Bytes} {arg : Bytes}

variable (valid : ∀ c ∈ comps, Component c)
include valid

theorem baseStart (cwdFits : (absolute comps).length < maxPath) :
    baseStack [slash] (baseText (absolute comps) arg) = start comps arg := by
  have none_ : splitComponents [slash] maxPath rootCap = [] := by decide
  unfold baseText start
  split
  · decide
  · rw [baseStack,absoluteHead,none_,splitAll cwdFits,fieldsAbsolute valid]
    simp

theorem stackKept (cwdFits : (absolute comps).length < maxPath)
    (argFits : arg.length < maxPath) : resolvedStack [slash] (absolute comps) arg = kept comps arg := by
  rw [resolvedStack,baseStart valid cwdFits,argMoves,splitAll argFits]
  rfl

omit valid in
theorem rootedTop (comps) : rooted [slash] comps = absolute comps := by
  have top_ : top [slash] = [slash] := by decide
  unfold rooted absolute
  rw [top_]
  split <;> rfl

theorem resolvesKept (cwdFits : (absolute comps).length < maxPath)
    (argFits : arg.length < maxPath) :
    pathResolve [slash] (absolute comps) arg maxPath =
      if (absolute (kept comps arg)).length < maxPath then
        some (absolute (kept comps arg),decide (arg.getLast? = some slash)) else none := by
  have base : ¬ (baseText (absolute comps) arg).length ≥ maxPath := by
    unfold baseText
    split
    · decide
    · omega
  rw [pathResolveEq le_rfl (by decide),if_neg base,stackKept valid cwdFits argFits,rootedTop]

omit valid in
theorem walkValid (cap) (valid : ∀ c ∈ comps, Component c) :
    ∀ c ∈ walkCapped cap (start comps arg) ((fields slash arg).map move), Component c := by
  refine walkCappedKeeps (fun c member => ?_) (fun c member => ?_)
  · unfold start at member
    split at member
    · simp at member
    · exact valid c member
  · obtain ⟨d,found,same⟩ := List.mem_map.mp member
    obtain ⟨rfl,-⟩ := moveInto same
    exact fieldValid found

theorem foldedValid : ∀ c ∈ folded comps arg, Component c := by
  have room := walkCappedRoom (@hasRoomShort _ _ (start comps arg).length ((fields slash arg).map move) le_rfl)
  rw [folded,← room]
  exact walkValid _ valid

end

theorem resolvesExactly (comps : List Bytes) (arg : Bytes) (clean : ∀ c ∈ comps, Clean c)
    (cwdFits : (absolute comps).length < maxPath) (argFits : arg.length < maxPath) :
    Exact comps arg ↔ lost comps arg = 0 ∨ maxPath ≤ (absolute (kept comps arg)).length := by
  have valid : ∀ c ∈ comps, Component c := fun c member => (clean c member).1
  rw [Exact,resolvesKept valid cwdFits argFits]
  constructor
  · intro exact_
    by_cases long : maxPath ≤ (absolute (kept comps arg)).length
    · exact .inr long
    have same := exact_ _ _ (if_pos (by omega))
    have keptValid : ∀ c ∈ kept comps arg, Component c := walkValid stackCap valid
    have level := congrArg (fields slash) same
    rw [fieldsAbsolute keptValid,fieldsAbsolute (foldedValid valid)] at level
    exact .inl (walkCappedExact.mp level)
  rintro (none_ | long) text flag result
  · have level : kept comps arg = folded comps arg := walkCappedExact.mpr none_
    rw [level] at result
    split at result
    · cases result
      rfl
    · cases result
  · rw [if_neg (by omega)] at result
    cases result

theorem resolvesExactlyNested : Exact [ascii "a"] (ascii "b/../c") ↔
    lost [ascii "a"] (ascii "b/../c") = 0 ∨ maxPath ≤ (absolute (kept [ascii "a"] (ascii "b/../c"))).length :=
  resolvesExactly [ascii "a"] (ascii "b/../c") (by decide) (by decide) (by decide)

def deep : List Bytes := List.replicate 511 (ascii "a")

theorem componentDropped : (∀ c ∈ deep, Clean c) ∧ (absolute deep).length < maxPath ∧
    pathResolve [slash] (absolute deep) (ascii "b/b/../..") maxPath = some (absolute (deep.take 510),false) ∧
    ¬ Exact deep (ascii "b/b/../..") := by
  have facts : (∀ c ∈ deep, Clean c) ∧ (absolute deep).length < maxPath ∧
      pathResolve [slash] (absolute deep) (ascii "b/b/../..") maxPath = some (absolute (deep.take 510),false) ∧
      absolute (deep.take 510) ≠ absolute (folded deep (ascii "b/b/../..")) := by decide +kernel
  obtain ⟨clean,fits,result,differs⟩ := facts
  exact ⟨clean,fits,result,fun exact_ => differs (exact_ _ _ result)⟩

end OpenPs3Ftp.Overflow
