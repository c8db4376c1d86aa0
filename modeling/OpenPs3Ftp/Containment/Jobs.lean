import OpenPs3Ftp.Containment.Paths
import OpenPs3Ftp.Worker.Calls

/-! The paths a worker names: those of its job, and below them what a tree copy
finds in directories, however long the loops run. -/
namespace OpenPs3Ftp.Containment
open Lib Text Resolve Fs Session Worker
open Bounded (keepsPure keepsBind keepsMono usesObeys)

def Within : Work → Prop
  | .fs call => ∀ path ∈ call.paths, Canonical path
  | _ => True

def Listed : (call : Work) → call.Answer → Prop
  | .fs (.readdir _),.ok (some de) => Component de.name.text
  | _,_ => True

abbrev Walks {α : Type} (post : α → Prop) (p : Routine α) : Prop := Bounded.Obeys Listed Within post p

def Below (rel : Bytes) : Prop := ∃ comps, rel = relText comps ∧ ∀ c ∈ comps, Clean c

theorem joinCanonical {root rel joined} (canonical : Canonical root) (below : Below rel)
    (made : copyJoin root rel = some joined) : Canonical joined := by
  obtain ⟨comps,rfl,clean⟩ := below
  obtain ⟨names,rfl,valid⟩ := canonical
  cases fittedSome made
  simp only [relNil fun c member => (clean c member).1]
  by_cases top : comps = []
  · rw [if_pos top]
    exact ⟨names,rfl,valid⟩
  rw [if_neg top,relSlash top]
  split
  · exact ⟨comps,by rw [absolute,if_neg top],clean⟩
  rename_i notRoot
  have full : names ≠ [] := fun empty => notRoot (by simp [absolute,empty])
  refine ⟨names ++ comps,?_,List.forall_mem_append.mpr ⟨valid,clean⟩⟩
  rw [absolute,absolute,if_neg full,if_neg (by simp [full]),separatedAppend]

theorem childBelow {rel name child} (below : Below rel) (component : Component name) (proper : dots name = false)
    (made : copyChild rel name = some child) : Below child := by
  have cleanName : Clean name := by
    simp only [dots,Bool.decide_or,Bool.or_eq_false_iff,decide_eq_false_iff_not] at proper
    exact ⟨component,proper⟩
  obtain ⟨comps,rfl,clean⟩ := below
  exact ⟨comps ++ [name],(fittedSome made).symm.trans (relChild (fun c member => (clean c member).1) name),
    List.forall_mem_append.mpr ⟨clean,List.forall_mem_singleton.mpr cleanName⟩⟩

section Transfers
variable {rounds : Nat} {s : Server} {j : Job}

theorem nearWithin (call) (near : Near Canonical call) : Within call := by
  cases call <;> first | exact near | exact trivial

theorem walksCopy (source : Canonical j.path.text) (target : Canonical j.dst.text) :
    Walks (fun _ => True) (transferCopy rounds j) :=
  obeysCopy nearWithin (fun _ _ below made => joinCanonical source below made)
    (fun _ _ below made => joinCanonical target below made)
    (fun _ _ _ _ listed proper below made => childBelow below listed proper made) rounds ⟨[],rfl,by simp⟩ source target

theorem walksRun (source : Canonical j.path.text) (target : j.op = .copy → Canonical j.dst.text) :
    Walks (fun _ => True) (transferRun rounds s j) := by
  unfold transferRun
  split
  · exact keepsBind (keepsMono (fun _ _ _ => keepsPure.mpr trivial) (walksCopy source (target ‹_›)))
  rename_i data
  refine keepsBind (keepsMono (fun _ connected _ => ?_) (usesObeys (usesConnect trivial (fun _ _ _ => trivial)
    (fun _ => trivial) (fun _ => trivial) (fun _ _ => trivial) (fun _ => trivial) s j)))
  split
  · exact keepsPure.mpr trivial
  · refine keepsBind (keepsMono (fun _ _ _ => keepsPure.mpr trivial) (usesObeys (makesOver nearWithin (fun _ _ => trivial)
      (fun tls call moves => ?_) (fun _ => trivial) trivial trivial trivial source data s).1))
    cases call <;> first | exact trivial | exact moves.elim

end Transfers

end OpenPs3Ftp.Containment
