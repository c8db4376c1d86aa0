import Mathlib.Data.Set.Card
import Mathlib.Data.Finset.Card
import Mathlib.Data.List.Infix

/-! Trees of directories and files. A place is the list of names that leads to it; what is
there has a directory above it. Nothing is linked from two places. -/
namespace OpenPs3Ftp.Lib

inductive Entry (γ : Type) where
  | dir
  | file (content : γ)
  | other
  deriving DecidableEq, Repr

inductive Kind where | dir | file | other
  deriving DecidableEq, Repr

def Entry.kind {γ : Type} : Entry γ → Kind
  | .dir => .dir
  | .file _ => .file
  | .other => .other

@[ext] structure Hierarchy (α γ : Type) (Valid : α → Prop) where
  node : List α → Option (Entry γ)
  root : node [] = some .dir
  nested : ∀ place name, node (place ++ [name]) ≠ none → node place = some .dir
  named : ∀ place name, node (place ++ [name]) ≠ none → Valid name
  finite : {place | node place ≠ none}.Finite

namespace Hierarchy
variable {α γ : Type} {Valid : α → Prop} {t : Hierarchy α γ Valid} {p q : List α}

theorem above {rest} (there : t.node (p ++ rest) ≠ none) (deeper : rest ≠ []) : t.node p = some .dir := by
  induction rest using List.reverseRecOn with
  | nil => exact absurd rfl deeper
  | append_singleton front name ih =>
    rw [← List.append_assoc] at there
    have last := t.nested _ _ there
    by_cases empty : front = []
    · simpa [empty] using last
    · exact ih (by simp [last]) empty

theorem upward (rest) (there : t.node (p ++ rest) ≠ none) : t.node p ≠ none := by
  by_cases empty : rest = []
  · rwa [empty,List.append_nil] at there
  · rw [above there empty]
    exact nofun

theorem validAll (there : t.node p ≠ none) : ∀ name ∈ p, Valid name := by
  induction p using List.reverseRecOn with
  | nil => simp
  | append_singleton front name ih =>
    have parent := t.nested _ _ there
    intro other member
    rcases List.mem_append.mp member with member | member
    · exact ih (by simp [parent]) other member
    · rw [List.mem_singleton.mp member]
      exact t.named _ _ there

def bare [DecidableEq α] : Hierarchy α γ Valid where
  node place := if place = [] then some .dir else none
  root := if_pos rfl
  nested place name there := absurd (if_neg (by simp)) there
  named place name there := absurd (if_neg (by simp)) there
  finite := by
    refine (Set.finite_singleton []).subset fun place there => ?_
    exact Decidable.by_contra fun deeper => there (if_neg deeper)

def dirs [DecidableEq α] (p : List α) (valid : ∀ name ∈ p, Valid name) : Hierarchy α γ Valid where
  node place := if place <+: p then some .dir else none
  root := if_pos List.nil_prefix
  nested place name there := by
    have inside : place ++ [name] <+: p := Decidable.by_contra fun outside => there (if_neg outside)
    exact if_pos ((List.prefix_append place [name]).trans inside)
  named place name there := by
    have inside : place ++ [name] <+: p := Decidable.by_contra fun outside => there (if_neg outside)
    exact valid name (inside.subset (by simp))
  finite := by
    refine (List.finite_toSet p.inits).subset fun place there => ?_
    exact (List.mem_inits place p).mpr (Decidable.by_contra fun outside => there (if_neg outside))

def Free (t : Hierarchy α γ Valid) (p : List α) : Prop := t.node p = none ∧ t.node p.dropLast = some .dir ∧ ∀ name ∈ p.getLast?, Valid name

instance [DecidableEq γ] [DecidablePred Valid] (p : List α) : Decidable (t.Free p) := by
  unfold Free
  infer_instance

theorem Free.split (free : t.Free p) :
    ∃ front name, p = front ++ [name] ∧ t.node front = some .dir ∧ Valid name := by
  obtain ⟨absent,parent,valid⟩ := free
  rcases p.eq_nil_or_concat with rfl | ⟨front,name,rfl⟩
  · rw [t.root] at absent
    contradiction
  · exact ⟨front,name,by simp,by simpa using parent,valid name (by simp)⟩

theorem freeOf {front name} (absent : t.node (front ++ [name]) = none) (parent : t.node front = some .dir)
    (valid : Valid name) : t.Free (front ++ [name]) :=
  ⟨absent,by simpa using parent,by simpa using valid⟩

def IsFile (t : Hierarchy α γ Valid) (p : List α) : Prop := (t.node p).map Entry.kind = some .file

instance (t : Hierarchy α γ Valid) (p : List α) : Decidable (t.IsFile p) := by unfold IsFile; infer_instance

theorem isFile : t.IsFile p ↔ ∃ content, t.node p = some (.file content) := by
  unfold IsFile
  cases t.node p with
  | none => simp
  | some e => cases e <;> simp [Entry.kind]

theorem IsFile.leaf (file : t.IsFile p) : t.node p ≠ some .dir := by
  obtain ⟨content,same⟩ := isFile.mp file
  simp [same]

theorem leafTop (leaf : t.node p ≠ some .dir) : p ≠ [] := fun top => leaf (top ▸ t.root)

theorem Free.leaf (free : t.Free p) : t.node p ≠ some .dir := by simp [free.1]

theorem placed (there : t.node p ≠ none) (top : p ≠ []) :
    t.node p.dropLast = some .dir ∧ ∀ name ∈ p.getLast?, Valid name := by
  rcases p.eq_nil_or_concat with rfl | ⟨front,name,rfl⟩
  · exact absurd rfl top
  · exact ⟨by simpa using t.nested _ _ (by simpa using there),by simpa using t.named _ _ (by simpa using there)⟩

theorem IsFile.placed (file : t.IsFile p) : t.node p.dropLast = some .dir ∧ ∀ name ∈ p.getLast?, Valid name := by
  obtain ⟨content,same⟩ := isFile.mp file
  exact Hierarchy.placed (by simp [same]) (leafTop file.leaf)

section Change
variable [DecidableEq α]

def change (t : Hierarchy α γ Valid) (p : List α) (e : Option (Entry γ)) (leaf : t.node p ≠ some .dir)
    (valid : e ≠ none → t.node p.dropLast = some .dir ∧ ∀ name ∈ p.getLast?, Valid name) : Hierarchy α γ Valid where
  node := Function.update t.node p e
  root := by rw [Function.update_of_ne (leafTop leaf).symm,t.root]
  nested place name there := by
    by_cases here : place ++ [name] = p
    · rw [here,Function.update_self] at there
      have parent := (valid there).1
      rw [← here,List.dropLast_concat] at parent
      rwa [Function.update_of_ne (by simp [← here])]
    rw [Function.update_of_ne here] at there
    have parent := t.nested place name there
    have apart : place ≠ p := by
      rintro rfl
      exact leaf parent
    rw [Function.update_of_ne apart,parent]
  named place name there := by
    by_cases here : place ++ [name] = p
    · rw [here,Function.update_self] at there
      exact (valid there).2 name (by simp [← here])
    · rw [Function.update_of_ne here] at there
      exact t.named place name there
  finite := by
    refine (t.finite.insert p).subset fun place there => ?_
    by_cases here : place = p
    · exact .inl here
    · refine .inr fun gone => there ?_
      rw [Function.update_of_ne here,gone]

def fill (t : Hierarchy α γ Valid) (p : List α) (content : γ) : Hierarchy α γ Valid :=
  if file : t.IsFile p then t.change p (some (.file content)) file.leaf fun _ => file.placed else t

theorem nodeFill (t : Hierarchy α γ Valid) (p content q) :
    (t.fill p content).node q = if t.IsFile p ∧ q = p then some (.file content) else t.node q := by
  unfold fill
  by_cases there : t.IsFile p
  · simp only [there,true_and,dif_pos]
    by_cases here : q = p
    · rw [if_pos here,here]
      exact Function.update_self ..
    · rw [if_neg here]
      exact Function.update_of_ne here ..
  · simp [there]

theorem isFileFill (t : Hierarchy α γ Valid) (p content q) : (t.fill p content).IsFile q ↔ t.IsFile q := by
  unfold IsFile
  rw [nodeFill]
  split
  · rename_i both
    obtain ⟨there,rfl⟩ := both
    exact iff_of_true rfl there
  · rfl

theorem fillFill (t : Hierarchy α γ Valid) (p first second) : (t.fill p first).fill p second = t.fill p second := by
  ext1
  funext q
  rw [nodeFill,nodeFill,nodeFill]
  simp only [isFileFill]
  split <;> rfl

theorem fillNot (other : ¬ t.IsFile p) (content) : t.fill p content = t := dif_neg other

theorem fillSame {content} (same : t.IsFile p → t.node p = some (.file content)) : t.fill p content = t := by
  ext1
  funext q
  rw [nodeFill]
  split
  · rename_i both
    rw [both.2,same both.1]
  · rfl

variable [DecidableEq γ]

def remove (t : Hierarchy α γ Valid) (p : List α) : Hierarchy α γ Valid :=
  if leaf : t.node p ≠ some .dir then t.change p none leaf fun some_ => absurd rfl some_ else t

theorem nodeRemove (t : Hierarchy α γ Valid) (p q) :
    (t.remove p).node q = if t.node p ≠ some .dir ∧ q = p then none else t.node q := by
  unfold remove
  by_cases leaf : t.node p ≠ some .dir
  · rw [dif_pos leaf]
    by_cases here : q = p
    · rw [if_pos ⟨leaf,here⟩,here]
      exact Function.update_self ..
    · rw [if_neg (fun both => here both.2)]
      exact Function.update_of_ne here ..
  · rw [dif_neg leaf,if_neg (fun both => leaf both.1)]

variable [DecidablePred Valid]

def make (t : Hierarchy α γ Valid) (p : List α) (e : Entry γ) : Hierarchy α γ Valid :=
  if free : t.Free p then t.change p (some e) free.leaf fun _ => free.2 else t

theorem nodeMake (t : Hierarchy α γ Valid) (p e q) :
    (t.make p e).node q = if t.Free p ∧ q = p then some e else t.node q := by
  unfold make
  by_cases free : t.Free p
  · simp only [free,true_and,dif_pos]
    by_cases here : q = p
    · rw [if_pos here,here]
      exact Function.update_self ..
    · rw [if_neg here]
      exact Function.update_of_ne here ..
  · simp [free]

theorem makeThere {e} (there : (t.make p e).node q ≠ none) : q = p ∨ t.node q ≠ none := by
  rw [nodeMake] at there
  split at there
  · rename_i here
    exact .inl here.2
  · exact .inr there

omit [DecidableEq γ] [DecidablePred Valid] in
theorem bareThere (there : (bare : Hierarchy α γ Valid).node q ≠ none) : q = [] :=
  Decidable.by_contra fun deeper => there (if_neg deeper)

end Change

def kindAt (t : Hierarchy α γ Valid) (p : List α) : Option Kind := (t.node p).map Entry.kind

theorem kindNone : t.kindAt p = none ↔ t.node p = none := Option.map_eq_none_iff

theorem kindDir : t.kindAt p = some .dir ↔ t.node p = some .dir := by
  unfold kindAt
  cases t.node p with
  | none => simp
  | some e => cases e <;> simp [Entry.kind]

theorem kindOther : t.kindAt p = some .other ↔ t.node p = some .other := by
  unfold kindAt
  cases t.node p with
  | none => simp
  | some e => cases e <;> simp [Entry.kind]

theorem kindFile : t.kindAt p = some .file ↔ ∃ content, t.node p = some (.file content) := isFile

/-! The number of entries at and under a place, and of those whose first name is new. -/

def within (t : Hierarchy α γ Valid) (p : List α) : Set (List α) := {q | t.node (p ++ q) ≠ none}

def beyond (t : Hierarchy α γ Valid) (p seen : List α) : Set (List α) :=
  {q | q ∈ t.within p ∧ ∃ name rest, q = name :: rest ∧ name ∉ seen}

noncomputable def size (t : Hierarchy α γ Valid) (p : List α) : Nat := (t.within p).ncard
noncomputable def left (t : Hierarchy α γ Valid) (p seen : List α) : Nat := (t.beyond p seen).ncard

theorem withinFinite (t : Hierarchy α γ Valid) (p) : (t.within p).Finite :=
  t.finite.preimage (List.append_right_injective p).injOn

theorem beyondWithin (t : Hierarchy α γ Valid) (p seen) : t.beyond p seen ⊆ t.within p := fun _ member => member.1

theorem beyondFinite (t : Hierarchy α γ Valid) (p seen) : (t.beyond p seen).Finite :=
  (t.withinFinite p).subset (t.beyondWithin p seen)

theorem sizeTop (t : Hierarchy α γ Valid) (p) : t.size p ≤ t.size [] :=
  Set.ncard_le_ncard_of_injOn (p ++ ·) (fun _ there => there) (List.append_right_injective p).injOn (t.withinFinite [])

theorem leftSize (t : Hierarchy α γ Valid) (p seen) : t.left p seen ≤ t.size p :=
  Set.ncard_le_ncard (t.beyondWithin p seen) (t.withinFinite p)

theorem sizePos (there : t.node p ≠ none) : 0 < t.size p := by
  refine (Set.ncard_pos (t.withinFinite p)).mpr ⟨[],?_⟩
  show t.node (p ++ []) ≠ none
  rwa [List.append_nil]

theorem leftFirst (there : t.node p ≠ none) : t.left p [] + 1 ≤ t.size p := by
  have fresh : [] ∉ t.beyond p [] := by
    rintro ⟨_,name,rest,same,_⟩
    contradiction
  rw [left,← Set.ncard_insert_of_notMem fresh (t.beyondFinite p [])]
  refine Set.ncard_le_ncard (Set.insert_subset ?_ (t.beyondWithin p [])) (t.withinFinite p)
  show t.node (p ++ []) ≠ none
  rwa [List.append_nil]

theorem leftSeen (t : Hierarchy α γ Valid) (p) {name seen} (new : name ∉ seen) :
    t.size (p ++ [name]) + t.left p (name :: seen) ≤ t.left p seen := by
  have apart : Disjoint ((name :: ·) '' t.within (p ++ [name])) (t.beyond p (name :: seen)) := by
    refine Set.disjoint_left.mpr ?_
    rintro _ ⟨q,_,rfl⟩ ⟨_,other,rest,same,unseen⟩
    cases same
    exact unseen List.mem_cons_self
  have count : t.size (p ++ [name]) = ((name :: ·) '' t.within (p ++ [name])).ncard :=
    (Set.ncard_image_of_injective _ (List.cons_injective)).symm
  rw [count,left,← Set.ncard_union_eq apart ((t.withinFinite _).image _) (t.beyondFinite p _)]
  refine Set.ncard_le_ncard (Set.union_subset ?_ ?_) (t.beyondFinite p seen)
  · rintro _ ⟨q,there,rfl⟩
    refine ⟨?_,name,q,rfl,new⟩
    show t.node (p ++ name :: q) ≠ none
    rwa [List.append_cons]
  · rintro q ⟨there,other,rest,same,unseen⟩
    exact ⟨there,other,rest,same,fun member => unseen (List.mem_cons_of_mem _ member)⟩

end Hierarchy
end OpenPs3Ftp.Lib
