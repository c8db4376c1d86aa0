import Mathlib.Data.List.Basic

/-! Freeing the in-memory filesystem. Nodes wait on a stack of 512; a child that finds it
full is freed there and then, with its buffer, and nothing under it is visited. -/
namespace OpenPs3Ftp.Destroy

/-- A node pointer: its identity stands for the node and its buffer, freed together. -/
inductive Mnode where
  | null
  | node (id : Nat) (children next : Mnode)

def Mnode.ids : Mnode → List Nat
  | .null => []
  | .node id children next => id :: (children.ids ++ next.ids)

def Mnode.mkdir (siblings : Mnode) (id : Nat) : Mnode := .node id .null siblings

def stackSize : Nat := 512

abbrev Stack := List (Nat × Mnode)

def push : Mnode → Stack → List Nat → Stack × List Nat
  | .null,stack,freed => (stack,freed)
  | .node id children next,stack,freed =>
    if stack.length < stackSize then push next ((id,children) :: stack) freed else push next stack (freed ++ [id])

def fsMemDestroy : Nat → Stack → List Nat → Option (List Nat)
  | _,[],freed => some freed
  | 0,_ :: _,_ => none
  | fuel + 1,(id,children) :: stack,freed =>
    let (stack,freed) := push children stack freed
    fsMemDestroy fuel stack (freed ++ [id])

-- siblings are popped in the reverse order, so a child is visited over those before it
def leaked : Nat → Mnode → List Nat
  | _,.null => []
  | depth,.node _ children next =>
    if depth < stackSize then leaked depth children ++ leaked (depth + 1) next else children.ids ++ leaked depth next

def pending (stack : Stack) : List Nat := stack.flatMap fun entry => entry.1 :: entry.2.ids

def leaks : Stack → List Nat
  | [] => []
  | (_,children) :: stack => leaked stack.length children ++ leaks stack

theorem pushCounts (a children stack freed) :
    (push children stack freed).2.count a + (pending (push children stack freed).1).count a +
        (leaked stack.length children).count a + (leaks stack).count a =
      freed.count a + children.ids.count a + (pending stack).count a + (leaks (push children stack freed).1).count a := by
  induction children generalizing stack freed with
  | null => simp [push,leaked,Mnode.ids]
  | node id children next _ later =>
    unfold push leaked
    split
    · have rest := later ((id,children) :: stack) freed
      simp [leaks,pending,Mnode.ids,List.count_cons] at rest ⊢
      omega
    · have rest := later stack (freed ++ [id])
      simp [Mnode.ids,List.count_cons] at rest ⊢
      omega

theorem pushShrinks (children stack freed) :
    (pending (push children stack freed).1).length ≤ children.ids.length + (pending stack).length := by
  induction children generalizing stack freed with
  | null => simp [push]
  | node id children next _ later =>
    unfold push
    split
    · have rest := later ((id,children) :: stack) freed
      simp [pending,Mnode.ids] at rest ⊢
      omega
    · have rest := later stack (freed ++ [id])
      simp [Mnode.ids] at rest ⊢
      omega

theorem destroyCounts {fuel stack} (freed) (enough : (pending stack).length ≤ fuel) :
    ∃ out, fsMemDestroy fuel stack freed = some out ∧
      ∀ a, out.count a + (leaks stack).count a = freed.count a + (pending stack).count a := by
  induction fuel generalizing stack freed with
  | zero =>
    cases stack with
    | nil => exact ⟨freed,rfl,fun _ => rfl⟩
    | cons entry stack => simp [pending] at enough
  | succ fuel ih =>
    cases stack with
    | nil => exact ⟨freed,rfl,fun _ => rfl⟩
    | cons entry stack =>
      obtain ⟨id,children⟩ := entry
      have shrinks := pushShrinks children stack freed
      simp [pending] at enough shrinks
      obtain ⟨out,returns,counts⟩ := @ih (push children stack freed).1 ((push children stack freed).2 ++ [id])
        (by simp [pending]; omega)
      refine ⟨out,returns,fun a => ?_⟩
      have pushed := pushCounts a children stack freed
      have rest := counts a
      simp [leaks,pending,List.count_cons] at pushed rest ⊢
      omega

theorem destroyFrees (root : Nat) (children : Mnode) :
    ∃ freed, fsMemDestroy (root :: children.ids).length [(root,children)] [] = some freed ∧
      (freed.Perm (root :: children.ids) ↔ leaked 0 children = []) := by
  obtain ⟨freed,returns,counts⟩ := @destroyCounts (root :: children.ids).length [(root,children)] [] (by simp [pending])
  simp [leaks,pending] at counts
  refine ⟨freed,returns,fun same => ?_,fun none => ?_⟩
  · refine List.eq_nil_iff_forall_not_mem.mpr fun a member => ?_
    have twice := counts a
    rw [same.count_eq] at twice
    have positive := List.count_pos_iff.mpr member
    omega
  · refine List.perm_iff_count.mpr fun a => ?_
    simpa [none] using counts a

/-- A directory with one of its own, made first, and 512 more made beside it. -/
def crowded : Mnode := (List.range 512).foldl (fun made k => made.mkdir (k + 3)) (.node 1 (.mkdir .null 2) .null)

theorem nodeLeaks : 2 ∈ crowded.ids ∧
    (fsMemDestroy (0 :: crowded.ids).length [(0,crowded)] []).map (decide <| 2 ∈ ·) = some false := by
  decide +kernel

end OpenPs3Ftp.Destroy
