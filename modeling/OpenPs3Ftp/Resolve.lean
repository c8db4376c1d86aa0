import Mathlib.Data.List.DropRight
import OpenPs3Ftp.Lib.Fields
import OpenPs3Ftp.Lib.Lexical
import OpenPs3Ftp.Text

/-! Core path resolution: the tokenizer, the resolver and the parent function of
`resolve.c`, and what they compute on components. No link is followed here. -/
namespace OpenPs3Ftp.Resolve
open Lib Text

def maxPath : Nat := 1024
def stackCap : Nat := 512
def rootCap : Nat := 64

def splitComponents (path : Bytes) (bufsz stackcap : Nat) : List Bytes :=
  if path.length + 1 > bufsz then [] else (fields slash path).take stackcap

def move (component : Bytes) : Move Bytes :=
  if component = ascii "." then .stay else if component = ascii ".." then .up else .into component

def slashed (result : Bytes) : Option Bytes :=
  if result = [slash] then some result
  else if result.getLast? ≠ some slash then
    if result.length + 1 ≥ 2 * maxPath then none else some (result ++ [slash])
  else some result

def appendComponent (result component : Bytes) : Option Bytes := do
  let result ← slashed result
  if result.length + component.length + 1 > 2 * maxPath then none else some (result ++ component)

/- The components the argument is applied to. An absolute base loses as many
components as the root has, which is right only when it starts with the root. -/
def baseStack (root base : Bytes) : List Bytes :=
  let stack := splitComponents base maxPath stackCap
  if base.head? = some slash then
    let rn := (splitComponents root maxPath rootCap).length
    if rn ≤ stack.length then stack.drop rn else stack
  else stack

def argMoves (arg : Bytes) : List (Move Bytes) := (splitComponents arg maxPath stackCap).map move
def top (root : Bytes) : Bytes := if 1 < root.length then root else [slash]

/- An empty argument means the working directory, like a relative one. -/
def baseText (cwd arg : Bytes) : Bytes := if arg.head? = some slash then [slash] else cwd

def resolvedStack (root cwd arg : Bytes) : List Bytes :=
  walkCapped stackCap (baseStack root (baseText cwd arg)) (argMoves arg)

/- `opftp_path_resolve`: the text put in `out` and the trailing-slash flag. -/
def pathResolve (root cwd arg : Bytes) (outsz : Nat) : Option (Bytes × Bool) :=
  if (baseText cwd arg).length ≥ maxPath then none else
  if 1 < root.length ∧ root.length + 1 > 2 * maxPath then none else
  match (resolvedStack root cwd arg).foldlM appendComponent (top root) with
  | none => none
  | some result =>
    let result := if result = [] then [slash] else result
    if result.length + 1 > outsz then none else some (result,decide (arg.getLast? = some slash))

def trimSlashes (text : Bytes) : Bytes :=
  if text.rdropWhile (· = slash) = [] then text.take 1 else text.rdropWhile (· = slash)

def pathParent (path : Bytes) (outsz : Nat) : Option Bytes :=
  if path.length ≤ 1 then (if outsz < 1 then none else some []) else
  let lead := (trimSlashes path).rdropWhile (· ≠ slash)
  if lead = [] then (if outsz < 1 then none else some []) else
  let plen := if lead.length - 1 = 0 then 1 else lead.length - 1
  if plen + 1 > outsz then none else some (path.take plen)

def Component (c : Bytes) : Prop := Word slash c
def Clean (c : Bytes) : Prop := Word slash c ∧ c ≠ ascii "." ∧ c ≠ ascii ".."
instance (c : Bytes) : Decidable (Component c) := by unfold Component; infer_instance
instance (c : Bytes) : Decidable (Clean c) := by unfold Clean; infer_instance

def absolute (comps : List Bytes) : Bytes := if comps = [] then [slash] else separated slash comps

theorem fieldsAbsolute {comps} (valid : ∀ c ∈ comps, Component c) : fields slash (absolute comps) = comps := by
  unfold absolute
  split
  · simp_all
  · simpa using fieldsSeparated [] valid

theorem absoluteHead (comps) : (absolute comps).head? = some slash := by
  unfold absolute
  cases comps <;> simp

/- A path below a directory. -/
def relText (names : List Bytes) : Bytes := (separated slash names).drop 1

section
variable {names : List Bytes}

theorem relNil (words : ∀ name ∈ names, Word slash name) : relText names = [] ↔ names = [] := by
  cases names with
  | nil => simp [relText]
  | cons name rest => simp [relText,(words name (by simp)).1]

theorem relSlash (some_ : names ≠ []) : slash :: relText names = separated slash names := by
  cases names with
  | nil => exact absurd rfl some_
  | cons name rest => simp [relText]

theorem relChild (words : ∀ name ∈ names, Word slash name) (name) :
    (if relText names = [] then name else relText names ++ slash :: name) = relText (names ++ [name]) := by
  by_cases empty : names = []
  · simp [empty,relText]
  rw [if_neg (fun none_ => empty ((relNil words).mp none_))]
  have tail : slash :: (relText names ++ slash :: name) = slash :: relText (names ++ [name]) := by
    rw [relSlash (by simp),← List.cons_append,relSlash empty,separatedAppend]
    simp
  exact (List.cons.inj tail).2

end

theorem splitAll {path} (short : path.length < maxPath) :
    splitComponents path maxPath stackCap = fields slash path := by
  have count := fieldsCount slash path
  unfold splitComponents
  rw [if_neg (by omega),List.take_of_length_le (by unfold maxPath at short; unfold stackCap; omega)]

theorem splitValid {path bufsz cap c} (member : c ∈ splitComponents path bufsz cap) : Component c := by
  unfold splitComponents at member
  split at member
  · simp at member
  · exact fieldValid (List.mem_of_mem_take member)

theorem moveInto {c d} (h : move c = .into d) : c = d ∧ c ≠ ascii "." ∧ c ≠ ascii ".." := by
  unfold move at h
  split at h
  · contradiction
  · split at h
    · contradiction
    · exact ⟨Move.into.inj h,‹_›,‹_›⟩

theorem argClean {arg c} (member : Move.into c ∈ argMoves arg) : c ∈ fields slash arg ∧ Clean c := by
  obtain ⟨d,found,same⟩ := List.mem_map.mp member
  obtain ⟨rfl,notDot,notUp⟩ := moveInto same
  refine ⟨?_,splitValid found,notDot,notUp⟩
  unfold splitComponents at found
  split at found
  · simp at found
  · exact List.mem_of_mem_take found

theorem moveClean {c} (clean : Clean c) : move c = .into c := by
  simp [move,clean.2.1,clean.2.2]

theorem baseStackSub {root base c} (member : c ∈ baseStack root base) :
    c ∈ splitComponents base maxPath stackCap := by
  simp only [baseStack] at member
  split at member
  · split at member
    · exact List.mem_of_mem_drop member
    · exact member
  · exact member

def chop (text : Bytes) : Bytes := if text.getLast? = some slash then text.dropLast else text

def rooted (root : Bytes) (comps : List Bytes) : Bytes :=
  if comps = [] then top root else chop (top root) ++ separated slash comps

theorem topNonempty (root) : top root ≠ [] := by
  unfold top
  split
  · rename_i long
    intro empty
    simp [empty] at long
  · simp

theorem chopAppend (text) {c} (valid : Component c) : chop (text ++ c) = text ++ c := by
  obtain ⟨nonempty,free⟩ := valid
  have last : (text ++ c).getLast? = c.getLast? := by
    rw [List.getLast?_append,List.getLast?_eq_some_getLast nonempty]
    rfl
  unfold chop
  rw [if_neg]
  intro ends
  rw [last] at ends
  exact free (List.mem_of_getLast? ends)

theorem chopSlash (text) (ends : text.getLast? = some slash) : chop text ++ [slash] = text := by
  obtain ⟨front,rfl⟩ := List.getLast?_eq_some_iff.mp ends
  simp [chop]

theorem slashedEq (result) : slashed result =
    if result.getLast? = some slash then some (chop result ++ [slash])
    else if result.length + 1 ≥ 2 * maxPath then none else some (chop result ++ [slash]) := by
  by_cases ends : result.getLast? = some slash
  · simp only [if_pos ends,chopSlash result ends]
    unfold slashed
    split
    · rfl
    · rw [if_neg (by simp [ends])]
  have notTop : result ≠ [slash] := by
    rintro rfl
    exact ends rfl
  simp [slashed,notTop,ends,chop]

theorem appendComponentEq {result c} (valid : Component c) :
    appendComponent result c =
      if (chop result).length + c.length + 2 > 2 * maxPath then none else some (chop result ++ slash :: c) := by
  have size : 0 < c.length := List.length_pos_iff.mpr valid.1
  have added : (if (chop result ++ [slash]).length + c.length + 1 > 2 * maxPath then none
      else some (chop result ++ [slash] ++ c)) =
      if (chop result).length + c.length + 2 > 2 * maxPath then none else some (chop result ++ slash :: c) := by
    simp only [List.length_append,List.length_singleton,List.append_assoc,List.singleton_append]
    congr 1
    simp only [gt_iff_lt,eq_iff_iff]
    omega
  simp only [appendComponent,slashedEq]
  by_cases ends : result.getLast? = some slash
  · rw [if_pos ends]
    exact added
  rw [if_neg ends]
  by_cases full : result.length + 1 ≥ 2 * maxPath
  · have keep : chop result = result := by simp [chop,ends]
    rw [if_pos full,if_pos (by rw [keep]; omega)]
    rfl
  · rw [if_neg full]
    exact added

theorem rebuildEq {start comps} (valid : ∀ c ∈ comps, Component c) (short : start.length < 2 * maxPath) :
    comps.foldlM appendComponent start =
      let text := if comps = [] then start else chop start ++ separated slash comps
      if text.length < 2 * maxPath then some text else none := by
  induction comps generalizing start with
  | nil => simp [short]
  | cons c comps ih =>
    have validC := valid c (by simp)
    have rest : ∀ d ∈ comps, Component d := fun d member => valid d (by simp [member])
    simp only [List.foldlM_cons,appendComponentEq validC,bind]
    have keep : chop (chop start ++ slash :: c) = chop start ++ slash :: c := by
      simpa using chopAppend (chop start ++ [slash]) validC
    by_cases full : (chop start).length + c.length + 2 > 2 * maxPath
    · rw [if_pos full]
      simp only [Option.bind,reduceCtorEq,if_false]
      rw [if_neg]
      simp only [separatedCons,List.length_append,List.length_cons]
      omega
    rw [if_neg full]
    simp only [Option.bind]
    rw [ih rest (by simp only [List.length_append,List.length_cons]; omega),keep]
    cases comps with
    | nil | cons d comps => simp

theorem resolvedKeeps {P : Bytes → Prop} (root cwd arg : Bytes) (new : ∀ c ∈ fields slash arg, Clean c → P c)
    (old : ∀ c ∈ fields slash cwd, P c) : ∀ c ∈ resolvedStack root cwd arg, P c := by
  refine walkCappedKeeps (fun c member => ?_) (fun c member => new c (argClean member).1 (argClean member).2)
  have listed := baseStackSub member
  unfold splitComponents baseText at listed
  split at listed
  · simp at listed
  · split at listed
    · simp at listed
    · exact old c (List.mem_of_mem_take listed)

theorem rootedNonempty (root comps) : rooted root comps ≠ [] := by
  unfold rooted
  split
  · exact topNonempty root
  · rename_i full
    simp [separatedEmpty,full]

theorem pathResolveEq {root cwd arg : Bytes} {outsz : Nat} (small : outsz ≤ maxPath)
    (rootFits : root.length < maxPath) :
    pathResolve root cwd arg outsz =
      if (baseText cwd arg).length ≥ maxPath then none else
      if (rooted root (resolvedStack root cwd arg)).length < outsz then
        some (rooted root (resolvedStack root cwd arg),decide (arg.getLast? = some slash)) else none := by
  unfold pathResolve
  split
  · rfl
  have shortTop : (top root).length < 2 * maxPath := by
    unfold top
    split
    · omega
    · simp [maxPath]
  have rebuilt := rebuildEq
    (resolvedKeeps root cwd arg (fun c _ clean => clean.1) (fun c member => fieldValid member)) shortTop
  have full := rootedNonempty root (resolvedStack root cwd arg)
  rw [if_neg (by omega),rebuilt]
  change (match (if (rooted root (resolvedStack root cwd arg)).length < 2 * maxPath then
      some (rooted root (resolvedStack root cwd arg)) else none) with
    | none => none
    | some result => _) = _
  by_cases fits : (rooted root (resolvedStack root cwd arg)).length < 2 * maxPath
  · simp only [if_pos fits,if_neg full]
    split <;> split <;> first | rfl | omega
  · rw [if_neg fits,if_neg (by omega)]

end OpenPs3Ftp.Resolve
