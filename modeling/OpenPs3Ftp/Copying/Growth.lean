import OpenPs3Ftp.Copying.File

/-! How the destination of a tree copy grows. Every step puts one entry at a place under the
destination root, of the kind that the source has at the same relative path. Source and
destination may overlap; where they are apart, the source stays as it is. -/
namespace OpenPs3Ftp.Copying
open Lib Text Resolve Fs Session Worker
open Hierarchy (kindNone kindDir kindAt nodeFill kindFile isFileFill isFile)

def Apart (s d : Place) : Prop := ¬ s <+: d ∧ ¬ d <+: s

instance (s d : Place) : Decidable (Apart s d) := by unfold Apart; infer_instance

theorem Apart.places {s d} (apart : Apart s d) (r r') : s ++ r ≠ d ++ r' := by
  intro same
  rcases List.prefix_or_prefix_of_prefix (List.prefix_append s r) (same ▸ List.prefix_append d r') with under | under
  · exact apart.1 under
  · exact apart.2 under

variable {p rel : Place} {k : Kind}

section Growth
variable {T t t' : Tree} {s d : Place}

structure Placed (t : Tree) (p : Place) (k : Kind) (t' : Tree) : Prop where
  here : t'.kindAt p = some ((t.kindAt p).getD k)
  elsewhere : ∀ q, q ≠ p → t'.node q = t.node q

theorem Placed.onward (placed : Placed t p k t') {q k'} (there : t.kindAt q = some k') : t'.kindAt q = some k' := by
  by_cases same : q = p
  · rw [same] at there ⊢
    rw [placed.here,there,Option.getD_some]
  · rw [kindAt,placed.elsewhere q same]
    exact there

theorem madePlaced (free : t.Free p) : Placed t p .dir (t.make p .dir) where
  here := by
    rw [kindNone.mpr free.1,Option.getD_none,kindDir,t.nodeMake,if_pos ⟨free,rfl⟩]
  elsewhere q other := by rw [t.nodeMake,if_neg (fun both => other both.2)]

theorem keptPlaced (opens : Opens t p copyFlags) (w) :
    Placed t p .file ((opened t p copyFlags).fill p w) where
  here := by
    by_cases missing : t.node p = none
    · have made : (opened t p copyFlags).node p = some (.file []) := by
        rw [openedMissing missing,t.nodeMake,if_pos ⟨opensFree opens missing,rfl⟩]
      rw [kindNone.mpr missing,Option.getD_none]
      exact (isFileFill _ p w p).mpr (isFile.mpr ⟨_,made⟩)
    rw [openedThere missing,Hierarchy.fillFill]
    by_cases file : t.IsFile p
    · have same : t.kindAt p = some .file := file
      rw [same,Option.getD_some]
      exact (isFileFill t p w p).mpr file
    rw [Hierarchy.fillNot file]
    cases there : t.kindAt p with
    | none => exact absurd (kindNone.mp there) missing
    | some k => rfl
  elsewhere q other := by
    rw [nodeFill,if_neg (fun both => other both.2),openedElse t p copyFlags other]

/- What is left of the tree `T` in the tree `t` of a copy from `s` to `d`. -/
structure Grown (T : Tree) (s d : Place) (t : Tree) : Prop where
  kinds : ∀ q k, T.kindAt q = some k → t.kindAt q = some k
  fresh : ∀ rel k k', T.kindAt (s ++ rel) = some k → T.kindAt (d ++ rel) = none → t.kindAt (d ++ rel) = some k' → k' = k
  frame : Apart s d → ∀ q, (∀ rel, q = d ++ rel → T.kindAt (s ++ rel) = none ∨ T.kindAt (s ++ rel) = some .other) →
    t.node q = T.node q

theorem grownSame (T s d) : Grown T s d T := by
  refine ⟨fun _ _ there => there,fun rel k k' _ absent there => ?_,fun _ _ _ => rfl⟩
  rw [absent] at there
  contradiction

theorem Grown.source (grown : Grown T s d t) (apart : Apart s d) (rel) : t.node (s ++ rel) = T.node (s ++ rel) :=
  grown.frame apart _ fun rel' same => absurd same (apart.places rel rel')

theorem Grown.there (grown : Grown T s d t) {q} (there : T.node q ≠ none) : t.kindAt q = T.kindAt q := by
  cases kind : T.kindAt q with
  | none => exact absurd (kindNone.mp kind) there
  | some k => exact grown.kinds q k kind

theorem Grown.placed (grown : Grown T s d t) (source : t.kindAt (s ++ rel) = some k)
    (plain : k ≠ .other) (placed : Placed t (d ++ rel) k t') : Grown T s d t' where
  kinds q k' there := placed.onward (grown.kinds q k' there)
  fresh rel' k' k'' there absent now := by
    by_cases same : rel' = rel
    · rw [same] at there absent now
      have agree : k = k' := Option.some.inj (source.symm.trans (grown.kinds _ _ there))
      rw [placed.here] at now
      cases before : t.kindAt (d ++ rel) with
      | none =>
        rw [before] at now
        rw [← agree]
        exact (Option.some.inj now).symm
      | some old =>
        rw [before] at now
        rw [← Option.some.inj now]
        exact grown.fresh rel k' old there absent before
    · have other : d ++ rel' ≠ d ++ rel := fun both => same (List.append_cancel_left both)
      rw [kindAt,placed.elsewhere _ other] at now
      exact grown.fresh rel' k' k'' there absent now
  frame apart q unnamed := by
    have other : q ≠ d ++ rel := by
      intro same
      have kept : T.kindAt (s ++ rel) = some k := by
        rw [kindAt,← grown.source apart rel]
        exact source
      rcases unnamed rel same with absent | special
      · rw [kept] at absent
        contradiction
      · exact plain (Option.some.inj (kept.symm.trans special))
    rw [placed.elsewhere q other,grown.frame apart q unnamed]

structure Done (T : Tree) (s d : Place) (t : Tree) (rel : Place) : Prop where
  dir : T.node (s ++ rel) = some .dir → t.node (d ++ rel) ≠ none ∧ rel.length < copyMaxDepth
  file : ∀ whole, T.node (s ++ rel) = some (.file whole) →
    t.node (d ++ rel) = some .other ∨ ∃ c, t.node (d ++ rel) = some (.file c) ∧ (Apart s d → c = whole)

theorem Done.placed {rel'} (done : Done T s d t rel) (now : Done T s d t' rel')
    (elsewhere : ∀ q, q ≠ d ++ rel' → t'.node q = t.node q) : Done T s d t' rel := by
  by_cases same : rel = rel'
  · rw [same]
    exact now
  have other : t'.node (d ++ rel) = t.node (d ++ rel) := elsewhere _ fun both => same (List.append_cancel_left both)
  refine ⟨fun dir => ?_,fun whole file => ?_⟩
  · rw [other]
    exact done.dir dir
  · rw [other]
    exact done.file whole file

theorem dirDone (grown : Grown T s d t) (dir : t.kindAt (s ++ rel) = some .dir)
    (there : t'.node (d ++ rel) ≠ none) (shallow : rel.length < copyMaxDepth) : Done T s d t' rel := by
  refine ⟨fun _ => ⟨there,shallow⟩,fun whole file => ?_⟩
  have kind : t.kindAt (s ++ rel) = some .file := grown.kinds _ _ (kindFile.mpr ⟨whole,file⟩)
  rw [dir] at kind
  contradiction

theorem fileDone {w} (grown : Grown T s d t) (file : t.kindAt (s ++ rel) = some .file)
    (opens : Opens t (d ++ rel) copyFlags) (whole : Whole t (s ++ rel) (d ++ rel) w) :
    Done T s d ((opened t (d ++ rel) copyFlags).fill (d ++ rel) w) rel := by
  refine ⟨fun dir => ?_,fun all same => ?_⟩
  · have kind := grown.kinds _ _ (kindDir.mpr dir)
    rw [file] at kind
    contradiction
  have placed := keptPlaced opens w
  have known : ∀ c, ((opened t (d ++ rel) copyFlags).fill (d ++ rel) w).node (d ++ rel) = some (.file c) → c = w := by
    intro c there
    rw [nodeFill] at there
    split at there
    · cases there
      rfl
    · rename_i other
      have is : (opened t (d ++ rel) copyFlags).IsFile (d ++ rel) := isFile.mpr ⟨c,there⟩
      exact absurd ⟨is,rfl⟩ other
  cases there : ((opened t (d ++ rel) copyFlags).fill (d ++ rel) w).node (d ++ rel) with
  | none =>
    have here := placed.here
    rw [kindNone.mpr there] at here
    contradiction
  | some entry =>
    cases entry with
    | other => exact .inl rfl
    | file c =>
      refine .inr ⟨c,rfl,fun apart => ?_⟩
      rw [known c there]
      exact whole (apart.places rel rel) all ((grown.source apart rel).trans same)
    | dir =>
      have here := placed.here
      rw [kindDir.mpr there] at here
      cases before : t.kindAt (d ++ rel) with
      | none =>
        rw [before] at here
        contradiction
      | some k =>
        rw [before,Option.getD_some] at here
        exact absurd (kindDir.mp (before.trans here.symm)) (opensLeaf opens)

theorem otherDone (grown : Grown T s d t) (other : t.kindAt (s ++ rel) = some .other) : Done T s d t rel := by
  refine ⟨fun dir => ?_,fun whole file => ?_⟩
  · have kind := grown.kinds _ _ (kindDir.mpr dir)
    rw [other] at kind
    contradiction
  · have kind := grown.kinds _ _ (kindFile.mpr ⟨whole,file⟩)
    rw [other] at kind
    contradiction

def Unread (cur : Place) (given : List Bytes) (rel : Place) : Prop := ∃ name tail, rel = cur ++ name :: tail ∧ name ∉ given

/- A walk with the directories `rels` to visit: everything of the source is done, or lies under
one of these, or is among the rest. -/
structure Walks (T : Tree) (s d : Place) (t : Tree) (rels : List Place) (rest : Place → Prop) : Prop where
  grown : Grown T s d t
  stack : ∀ r ∈ rels, t.kindAt (s ++ r) = some .dir ∧ r.length < copyMaxDepth
  covers : ∀ rel, T.node (s ++ rel) ≠ none → Done T s d t rel ∨ (∃ r ∈ rels, r <+: rel) ∨ rest rel

section Walks
variable {rels : List Place} {rest : Place → Prop} {cur : Place} {given : List Bytes} {name : Bytes}

theorem walksFirst (dir : T.node s = some .dir) : Walks T s d T [[]] fun _ => False := by
  refine ⟨grownSame T s d,?_,fun rel _ => .inr (.inl ⟨[],List.mem_singleton_self _,List.nil_prefix⟩)⟩
  intro r member
  rw [List.mem_singleton.mp member,List.append_nil]
  exact ⟨kindDir.mpr dir,by decide⟩

theorem Walks.placed (walks : Walks T s d t rels rest) (source : t.kindAt (s ++ rel) = some k)
    (plain : k ≠ .other) (placed : Placed t (d ++ rel) k t') (now : Done T s d t' rel) : Walks T s d t' rels rest where
  grown := walks.grown.placed source plain placed
  stack r member := ⟨placed.onward (walks.stack r member).1,(walks.stack r member).2⟩
  covers rel' there := (walks.covers rel' there).imp (·.placed now placed.elsewhere) id

theorem Walks.opens (walks : Walks T s d t (cur :: rels) fun _ => False) (done : Done T s d t cur) :
    Walks T s d t rels (Unread cur []) where
  grown := walks.grown
  stack r member := walks.stack r (List.mem_cons_of_mem _ member)
  covers rel there := by
    rcases walks.covers rel there with old | ⟨r,member,below⟩ | impossible
    · exact .inl old
    · rcases List.mem_cons.mp member with rfl | member
      · obtain ⟨tail,rfl⟩ := below
        cases tail with
        | nil =>
          rw [List.append_nil]
          exact .inl done
        | cons name tail => exact .inr (.inr ⟨name,tail,rfl,List.not_mem_nil⟩)
      · exact .inr (.inl ⟨r,member,below⟩)
    · exact impossible.elim

variable (walks : Walks T s d t rels (Unread cur given))
include walks

theorem Walks.reads {rels'}
    (stack : ∀ r ∈ rels', t.kindAt (s ++ r) = some .dir ∧ r.length < copyMaxDepth) (keeps : ∀ r ∈ rels, r ∈ rels')
    (read : ∀ tail, T.node (s ++ (cur ++ name :: tail)) ≠ none →
      Done T s d t (cur ++ name :: tail) ∨ ∃ r ∈ rels', r <+: cur ++ name :: tail) :
    Walks T s d t rels' (Unread cur (name :: given)) where
  grown := walks.grown
  stack := stack
  covers rel there := by
    rcases walks.covers rel there with old | ⟨r,member,below⟩ | ⟨other,tail,rfl,unseen⟩
    · exact .inl old
    · exact .inr (.inl ⟨r,keeps r member,below⟩)
    by_cases same : other = name
    · rw [same] at there ⊢
      exact (read tail there).imp id .inl
    · refine .inr (.inr ⟨other,tail,rfl,fun member => ?_⟩)
      exact (List.mem_cons.mp member).elim same unseen

theorem Walks.dot (dot : ¬ Named name) :
    Walks T s d t rels (Unread cur (name :: given)) := by
  refine walks.reads walks.stack (fun _ member => member) fun tail there => ?_
  exact absurd (Hierarchy.validAll there name (by simp)) dot

theorem Walks.push (dir : t.kindAt (s ++ (cur ++ [name])) = some .dir)
    (shallow : (cur ++ [name]).length < copyMaxDepth) : Walks T s d t ((cur ++ [name]) :: rels) (Unread cur (name :: given)) := by
  refine walks.reads ?_ (fun _ member => List.mem_cons_of_mem _ member) fun tail _ => ?_
  · intro r member
    rcases List.mem_cons.mp member with rfl | member
    · exact ⟨dir,shallow⟩
    · exact walks.stack r member
  · refine .inr ⟨_,List.mem_cons_self,tail,?_⟩
    rw [List.append_assoc]
    rfl

theorem Walks.leaf (kind : t.kindAt (s ++ (cur ++ [name])) = some k)
    (leaf : k ≠ .dir) (done : Done T s d t (cur ++ [name])) : Walks T s d t rels (Unread cur (name :: given)) := by
  refine walks.reads walks.stack (fun _ member => member) fun tail there => .inl ?_
  cases tail with
  | nil => exact done
  | cons next tail =>
    have above : T.node (s ++ (cur ++ [name])) = some .dir := by
      refine Hierarchy.above ?_ (List.cons_ne_nil next tail)
      simpa using there
    have dir := walks.grown.kinds _ _ (kindDir.mpr above)
    rw [kind] at dir
    exact absurd (Option.some.inj dir) leaf

theorem Walks.closes {start : Tree} (begun : Grown T s d start)
    (all : Exhausted t ⟨s ++ cur,given,start⟩) : Walks T s d t rels fun _ => False where
  grown := walks.grown
  stack := walks.stack
  covers rel there := by
    rcases walks.covers rel there with old | waiting | ⟨name,tail,rfl,unseen⟩
    · exact .inl old
    · exact .inr (.inl waiting)
    have child : T.node (s ++ cur ++ [name]) ≠ none := by
      refine Hierarchy.upward tail ?_
      simpa using there
    have still : ∀ {t : Tree}, Grown T s d t → t.node (s ++ cur ++ [name]) ≠ none := by
      intro t grown absent
      rw [← kindNone,grown.there child,kindNone] at absent
      exact child absent
    exact absurd (all name (still begun) (still walks.grown)) unseen

end Walks
end Growth
end OpenPs3Ftp.Copying
