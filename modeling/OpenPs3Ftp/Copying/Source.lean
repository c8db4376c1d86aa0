import OpenPs3Ftp.Copying.Walk
import OpenPs3Ftp.Worker.Calls

/-! The source of a copy. It is written to where source and destination overlap, as with a
destination above the source that has the source's own name in it once more. -/
namespace OpenPs3Ftp.Copying
open Lib Text Resolve Fs Session Worker
open Setting (leavesPure leavesAsk leavesOne leavesThen leavesVia leavesUses leavesPost)
open Hierarchy (validAll kindDir kindNone above)

def Kept (T : Tree) (s : Place) (t : Tree) : Prop := ∀ q, s <+: q → t.node q = T.node q
def watching (T : Tree) (s : Place) : Setting Work Work.Answer (Disk × Prop) := filesystem.watched fun disk => Kept T s disk.tree
def Fine (T : Tree) (s : Place) (st : Disk × Prop) : Prop := st.2 ∧ Kept T s st.1.tree

variable {p : Place} {st : Disk × Prop} {src dst : Bytes}

section Source
variable {T t t' : Tree} {s : Place} {rounds : Nat}

theorem Kept.beyond (kept : Kept T s t) (outside : ¬ s <+: p) (elsewhere : ∀ q, q ≠ p → t'.node q = t.node q) :
    Kept T s t' := by
  intro q under
  rw [elsewhere q fun same => outside (same ▸ under),kept q under]

theorem wroteElse (t h bytes) {q} (other : q ≠ h.place) : (wrote t h bytes).node q = t.node q := by
  rw [wrote,t.nodeFill,if_neg (fun both => other both.2)]

theorem removedElse (t : Tree) (p) {q} (other : q ≠ p) : (t.remove p).node q = t.node q := by
  rw [t.nodeRemove,if_neg (fun both => other both.2)]

theorem fineNext (call answer) (fine : Fine T s st) (kept : Kept T s (filesystem.next st.1 call answer).tree) :
    Fine T s ((watching T s).next st call answer) :=
  ⟨⟨fine.1,kept⟩,kept⟩

theorem writtenAt {disk : Disk} {output} (bytes n) (writes : ∀ h, disk.files output = some h → h.place = p) :
    (∀ q, q ≠ p → (disk.after (.write output bytes) (.ok n)).tree.node q = disk.tree.node q) ∧
      ∀ h, (disk.after (.write output bytes) (.ok n)).files output = some h → h.place = p := by
  cases handle : disk.files output with
  | none =>
    have after : disk.after (.write output bytes) (.ok n) = disk := by simp only [Disk.after,handle]
    rw [after]
    exact ⟨fun _ _ => rfl,writes⟩
  | some h =>
    have after : disk.after (.write output bytes) (.ok n) =
        { disk with tree := wrote disk.tree h (bytes.take n) }.setFile output (some { h with pos := h.pos + n }) := by
      simp only [Disk.after,handle]
    have here := writes h handle
    rw [after]
    refine ⟨fun q other => wroteElse disk.tree h _ (here ▸ other),fun h' found => ?_⟩
    have found : Function.update disk.files output (some { h with pos := h.pos + n }) output = some h' := found
    rw [Function.update_self] at found
    cases found
    exact here

theorem bytesKeep {input output moved} (fine : Fine T s st) (outside : ¬ s <+: p)
    (writes : ∀ h, st.1.files output = some h → h.place = p) :
    (watching T s).Leaves (fun st' => st'.2) (fun st' _ => Fine T s st') st (copyBytes rounds input output moved) := by
  have uses : Bounded.Uses (fun call => match call with
      | .fs (.write fd _) => fd = output
      | .fs (.read ..) | .fs (.close _) | .cancelled | .malloc | .progress _ => True
      | _ => False) (copyBytes rounds input output moved) :=
    usesCopyBytes trivial trivial (fun _ => trivial) (fun _ => trivial) (fun _ => rfl) (fun _ => trivial) rounds moved
  suffices kept : (watching T s).Leaves (fun st' => st'.2) (fun st' _ => Fine T s st' ∧
      ∀ h, st'.1.files output = some h → h.place = p) st (copyBytes rounds input output moved) from
    leavesPost (fun st _ held => held.1) kept
  refine leavesUses uses (fun _ held => held.1.1) ?_ ⟨fine,writes⟩
  rintro ⟨disk,sofar⟩ call answer ⟨fine,writes⟩ used _
  match call,answer,used with
  | .cancelled,answer,_ | .malloc,answer,_ | .progress _,answer,_ => exact ⟨fineNext _ answer fine fine.2,writes⟩
  | .fs (.close fd),answer,_ =>
    refine ⟨fineNext (.fs (.close fd)) answer fine fine.2,fun h found => ?_⟩
    have found : Function.update disk.files fd none output = some h := found
    by_cases here : output = fd
    · rw [here,Function.update_self] at found
      contradiction
    · rw [Function.update_of_ne here] at found
      exact writes h found
  | .fs (.read fd size),.error e,_ => exact ⟨fineNext (.fs (.read fd size)) (.error e) fine fine.2,writes⟩
  | .fs (.read fd size),.ok bytes,_ =>
    refine ⟨fineNext (.fs (.read fd size)) (.ok bytes) fine fine.2,fun h found => ?_⟩
    have found : Function.update disk.files fd ((disk.files fd).map fun h => { h with pos := h.pos + bytes.length }) output =
      some h := found
    by_cases here : output = fd
    · rw [here,Function.update_self] at found
      obtain ⟨old,was,rfl⟩ := Option.map_eq_some_iff.mp found
      exact writes old (here ▸ was)
    · rw [Function.update_of_ne here] at found
      exact writes h found
  | .fs (.write fd bytes),.error e,_ => exact ⟨fineNext (.fs (.write fd bytes)) (.error e) fine fine.2,writes⟩
  | .fs (.write fd bytes),.ok n,here =>
    have here : fd = output := here
    subst here
    obtain ⟨elsewhere,writes'⟩ := writtenAt bytes n writes
    exact ⟨fineNext (.fs (.write fd bytes)) (.ok n) fine (fine.2.beyond outside elsewhere),writes'⟩

theorem fileKeeps {moved} (fine : Fine T s st)
    (clear : ∀ t, Kept T s t → Opens t (locate dst) copyFlags → ¬ s <+: locate dst) :
    (watching T s).Leaves (fun st' => st'.2) (fun st' _ => Fine T s st') st (copyFile rounds src dst moved) := by
  refine leavesAsk fun first _ => ?_
  match first with
  | .error e => exact leavesPure (fineNext (.fs (.openFile src readonly 0)) (.error e) fine fine.2)
  | .ok input =>
    have kept : Kept T s (opened st.1.tree (locate src) readonly) := by
      rw [openedRead]
      exact fine.2
    have fine := fineNext (.fs (.openFile src readonly 0)) (.ok input) fine kept
    refine leavesAsk fun there _ => ?_
    have fine := fineNext (.fs (.stat dst)) there fine kept
    refine leavesAsk fun second possible => ?_
    match second,possible with
    | .error e,_ =>
      have fine := fineNext (.fs (.openFile dst copyFlags 0o644)) (.error e) fine kept
      exact leavesAsk fun closed _ => leavesPure (fineNext (.fs (.close input)) closed fine kept)
    | .ok output,possible =>
      have outside := clear _ kept possible.2
      have fine := fineNext (.fs (.openFile dst copyFlags 0o644)) (.ok output) fine
        (kept.beyond outside fun q other => openedElse _ (locate dst) copyFlags other)
      refine leavesThen (bytesKeep fine outside ?_) ?_
      · intro h found
        have found : Function.update (Function.update st.1.files input _) output (some ⟨locate dst,0,_⟩) output = some h := found
        rw [Function.update_self] at found
        cases found
        rfl
      rintro st' ⟨moved',rc⟩ fine
      refine leavesVia (fun st' _ => Fine T s st') ?_ fun st' _ held => leavesPure held
      unfold removeNew
      split
      · refine leavesAsk fun gone _ => leavesPure ?_
        match gone with
        | .error e => exact fineNext (.fs (.unlink dst)) (.error e) fine fine.2
        | .ok () =>
          exact fineNext (.fs (.unlink dst)) (.ok ()) fine (fine.2.beyond outside fun q other => removedElse _ _ other)
      · exact leavesPure fine

theorem ensureKeeps (fine : Fine T s st) (clear : ∀ t, Kept T s t → t.Free (locate dst) → ¬ s <+: locate dst) :
    (watching T s).Leaves (fun st' => st'.2) (fun st' _ => Fine T s st') st (ensureDir dst) := by
  refine leavesAsk fun there _ => ?_
  have fine := fineNext (.fs (.stat dst)) there fine fine.2
  match there with
  | .ok stat => exact leavesPure fine
  | .error e =>
    refine leavesAsk fun made possible => ?_
    match made,possible with
    | .error e,_ => exact leavesPure (fineNext (.fs (.mkdir dst 0o755)) (.error e) fine fine.2)
    | .ok (),possible =>
      refine leavesPure (fineNext (.fs (.mkdir dst 0o755)) (.ok ()) fine ?_)
      exact fine.2.beyond (clear _ fine.2 possible) (madePlaced possible).elsewhere

end Source

def Fits (root : Bytes) (r : Place) : Prop := (copyJoin root (relText (r ++ [ascii "x"]))).isSome = true

def Overlaps (j : Job) : Prop :=
  (∀ name ∈ locate j.path.text ++ locate j.dst.text, Named name) ∧
    ((locate j.path.text = locate j.dst.text ∧ locate j.path.text ≠ []) ∨
     (locate j.path.text <+: locate j.dst.text ∧ locate j.path.text ≠ locate j.dst.text) ∨
     ∃ r, locate j.path.text = locate j.dst.text ++ r ∧ r.length < copyMaxDepth ∧ Fits j.path.text r ∧ Fits j.dst.text r)

def joinLength (root : Bytes) (names : List Bytes) : Nat :=
  (if root = [slash] then 0 else root.length) + (separated slash names).length

theorem joinFits {root names} (words : ∀ name ∈ names, Word slash name) (some_ : names ≠ []) :
    (copyJoin root (relText names)).isSome = true ↔ joinLength root names < maxPath := by
  have filled : relText names ≠ [] := fun empty => some_ ((relNil words).mp empty)
  have length : (separated slash names).length = (relText names).length + 1 := by
    rw [← relSlash some_,List.length_cons]
  unfold copyJoin fitted joinLength
  rw [if_neg filled,length]
  by_cases top : root = [slash]
  · rw [if_pos top,if_pos top]
    split <;> simp_all
  · rw [if_neg top,if_neg top]
    split <;> simp_all

theorem separatedLong {names} (words : ∀ name ∈ names, Word slash name) (some_ : names ≠ []) :
    2 ≤ (separated slash names).length := by
  cases names with
  | nil => exact absurd rfl some_
  | cons name rest =>
    have letter := List.length_pos_of_ne_nil (words name List.mem_cons_self).1
    simp only [separatedCons,List.length_cons,List.length_append]
    omega

theorem fitsAbove {root path r x} (words : ∀ name ∈ r ++ x, Word slash name) (below : x ≠ [])
    (made : copyJoin root (relText (r ++ x)) = some path) : Fits root r := by
  have short : joinLength root (r ++ x) < maxPath := by
    refine (joinFits words (by simp [below])).mp ?_
    rw [made]
    rfl
  have long := separatedLong (fun name member => words name (List.mem_append_right _ member)) below
  refine (joinFits ?_ (by simp)).mpr ?_
  · exact List.forall_mem_append.mpr
      ⟨fun name member => words name (List.mem_append_left _ member),List.forall_mem_singleton.mpr (by decide)⟩
  unfold joinLength at short ⊢
  rw [separatedAppend,List.length_append] at short ⊢
  have one : (separated slash [ascii "x"]).length = 2 := by decide
  omega

variable {t : Tree}

section Overlap
variable {j : Job}

theorem overlapsAt {rel} (below : origin j <+: target j ++ rel)
    (strict : target j ++ rel ≠ origin j) (named : ∀ name ∈ target j ++ rel, Named name)
    (short : rel.length ≤ copyMaxDepth) (leaves : copyJoin j.path.text (relText rel) = some src)
    (leads : copyJoin j.dst.text (relText rel) = some dst) : Overlaps j := by
  have words : ∀ name ∈ rel, Word slash name := namedWords fun name member => named name (List.mem_append_right _ member)
  refine ⟨?_,?_⟩
  · exact List.forall_mem_append.mpr
      ⟨fun name member => named name (below.subset member),fun name member => named name (List.mem_append_left _ member)⟩
  rcases List.prefix_or_prefix_of_prefix below (List.prefix_append _ rel) with inside | outside
  · by_cases same : origin j = target j
    · have some_ : rel ≠ [] := by
        rintro rfl
        exact strict (by rw [List.append_nil,same])
      refine .inr (.inr ⟨[],same.trans (List.append_nil _).symm,by decide,?_,?_⟩)
      · exact fitsAbove (r := []) words some_ leaves
      · exact fitsAbove (r := []) words some_ leads
    · exact .inr (.inl ⟨inside,same⟩)
  obtain ⟨r,split⟩ := outside
  rw [← split] at below strict
  obtain ⟨x,rfl⟩ := (List.prefix_append_right_inj _).mp below
  have some_ : x ≠ [] := by
    rintro rfl
    exact strict (by rw [List.append_nil])
  refine .inr (.inr ⟨r,split.symm,?_,fitsAbove words some_ leaves,fitsAbove words some_ leads⟩)
  have letter := List.length_pos_of_ne_nil some_
  rw [List.length_append] at short
  omega

theorem freeNamed (free : t.Free p) : ∀ name ∈ p, Named name := by
  obtain ⟨front,last,rfl,dir,valid⟩ := free.split
  intro name member
  rcases List.mem_append.mp member with member | member
  · refine validAll (t := t) ?_ name member
    rw [dir]
    exact nofun
  · rwa [List.mem_singleton.mp member]

theorem opensNamed (opens : Opens t p copyFlags) : ∀ name ∈ p, Named name := by
  by_cases missing : t.node p = none
  · exact freeNamed (opensFree opens missing)
  · exact validAll missing

variable {T : Tree}

theorem dirAbove {r} (dir : t.node (p ++ r) = some .dir) : t.node p = some .dir := by
  by_cases empty : r = []
  · rwa [empty,List.append_nil] at dir
  · refine above ?_ empty
    rw [dir]
    exact nofun

/- Whatever a copy can make or open to write there lies outside its source. -/
def Clear (T : Tree) (j : Job) (path : Bytes) : Prop :=
  ∀ t, Kept T (origin j) t → t.Free (locate path) ∨ Opens t (locate path) copyFlags → ¬ origin j <+: locate path

def Met (T : Tree) (j : Job) (d : CopyDir) : Prop :=
  T.node (origin j) = some .dir ∧ ∃ names, d = item names ∧ ∀ name ∈ names, Named name

theorem clearBelow (free : ¬ Overlaps j) {d} (met : Met T j d) (short : d.depth ≤ copyMaxDepth)
    (leaves : copyJoin j.path.text d.rel = some src) (leads : copyJoin j.dst.text d.rel = some dst) : Clear T j dst := by
  obtain ⟨folder,rel,rfl,named⟩ := met
  intro t kept opens below
  rw [joinLocates named leads] at opens below
  refine free (overlapsAt below (fun same => ?_) (opens.elim freeNamed opensNamed) short leaves leads)
  have here : t.node (target j ++ rel) = some .dir := by
    rw [show target j ++ rel = origin j from same,kept _ (List.prefix_refl _),folder]
  rcases opens with new | opens
  · exact absurd (here.symm.trans new.1) nofun
  · exact opensLeaf opens here

theorem clearSingle (free : ¬ Overlaps j) (there : T.node (origin j) ≠ none) (single : T.node (origin j) ≠ some .dir) :
    Clear T j j.dst.text := by
  rintro t kept opens ⟨x,split⟩
  have split : origin j ++ x = target j := split
  by_cases empty : x = []
  · rw [empty,List.append_nil] at split
    refine free ⟨?_,.inl ⟨split,Hierarchy.leafTop single⟩⟩
    intro name member
    change name ∈ origin j ++ target j at member
    rw [← split] at member
    exact validAll there name ((List.mem_append.mp member).elim id id)
  rw [← kept _ (List.prefix_refl _)] at single
  by_cases missing : t.node (origin j ++ x) = none
  · have new : t.Free (target j) := opens.elim id fun opens => opensFree opens (split ▸ missing)
    have parent := new.2.1
    rw [← split,List.dropLast_append_of_ne_nil empty] at parent
    exact single (dirAbove parent)
  · exact single (above missing empty)

end Overlap

section Following
variable {T : Tree} {j : Job}

def Told (T : Tree) (j : Job) : (call : Work) → call.Answer → Prop
  | .fs (.stat path),.ok stat => path = j.path.text → T.kindAt (origin j) = some (shown stat.mode)
  | .fs (.readdir _),.ok (some de) => dots de.name.text = false → Named de.name.text
  | _,_ => True

theorem looksKeep {call} (look : Looks (fun _ => True) call) (fine : Fine T (origin j) st) :
    (watching T (origin j)).Leaves (fun st' => st'.2) (fun st' answer => Fine T (origin j) st' ∧ Told T j call answer) st
      (Bounded.perform call : Routine call.Answer) := by
  refine leavesOne fun answer possible => ?_
  match call,answer,look,possible with
  | .cancelled,answer,_,_ | .malloc,answer,_,_ | .total _,answer,_,_ => exact ⟨fineNext _ answer fine fine.2,trivial⟩
  | .fs (.opendir path),answer,_,_ => cases answer <;> exact ⟨fineNext (.fs (.opendir path)) _ fine fine.2,trivial⟩
  | .fs (.stat path),.error e,_,_ => exact ⟨fineNext (.fs (.stat path)) (.error e) fine fine.2,trivial⟩
  | .fs (.stat path),.ok stat,_,shows =>
    refine ⟨fineNext (.fs (.stat path)) (.ok stat) fine fine.2,fun same => ?_⟩
    subst same
    rw [Hierarchy.kindAt,← fine.2 _ (List.prefix_refl _)]
    exact shows
  | .fs (.readdir dir),.error e,_,_ => exact ⟨fineNext (.fs (.readdir dir)) (.error e) fine fine.2,trivial⟩
  | .fs (.readdir dir),.ok none,_,_ => exact ⟨fineNext (.fs (.readdir dir)) (.ok none) fine fine.2,trivial⟩
  | .fs (.readdir dir),.ok (some de),_,possible =>
    obtain ⟨scan,-,-,there⟩ := possible
    refine ⟨fineNext (.fs (.readdir dir)) (.ok (some de)) fine fine.2,fun word => ?_⟩
    have shows : st.1.tree.kindAt (scan.place ++ [de.name.text]) = some (shown de.mode) :=
      there.resolve_left (by simp [word])
    refine validAll (t := st.1.tree) (p := scan.place ++ [de.name.text]) ?_ _ (by simp)
    rw [ne_eq,← kindNone,shows]
    exact Option.some_ne_none _

theorem transferKeeps (rounds st) (free : ¬ Overlaps j) (held : st.2) :
    (watching st.1.tree (origin j)).Leaves (fun st' => st'.2) (fun st' _ => st'.2) st (transferCopy rounds j) := by
  have follow : Copying ((watching st.1.tree (origin j)).leaving fun st' => st'.2) (Told st.1.tree j) j (fun _ => True)
      (Clear st.1.tree j) (Met st.1.tree j) (Fine st.1.tree (origin j)) fun _ => Fine st.1.tree (origin j) := {
    low := fun _ fine => fine.1
    well := fun _ => Iff.rfl
    failed := fun _ _ fine => fine
    source := trivial
    top := fun stat told => ?_
    child := fun _ de d path told word met made => ?_
    joins := fun d src dst met short leaves leads => ⟨trivial,clearBelow free met short leaves leads⟩
    looks := fun _ _ look fine => looksKeep look fine
    closes := fun dir _ _ fine => leavesOne fun answer _ => fineNext (.fs (.closedir dir)) answer fine fine.2
    ensures := fun _ _ clear fine => ensureKeeps fine fun t kept new => clear t kept (.inl new)
    copies := fun _ _ _ _ _ _ clear fine => fileKeeps fine fun t kept opens => clear t kept (.inr opens) }
  · exact leavesPost (fun _ _ fine => fine.1) (follow.whole rounds ⟨held,fun _ _ => rfl⟩)
  · have shows := told rfl
    split
    · rename_i dir
      exact ⟨kindDir.mp (by rw [shows,shown,if_pos dir]),[],rfl,List.forall_mem_nil _⟩
    · rename_i leaf
      refine clearSingle free ?_ ?_
      · rw [ne_eq,← kindNone,shows]
        exact Option.some_ne_none _
      · rw [ne_eq,← kindDir,shows,shown,if_neg leaf]
        split <;> decide
  · obtain ⟨folder,names,rfl,named⟩ := met
    refine ⟨folder,names ++ [de.name.text],?_,?_⟩
    · simp [item,childLocates named made]
    · exact List.forall_mem_append.mpr ⟨named,List.forall_mem_singleton.mpr (told word)⟩

end Following
end OpenPs3Ftp.Copying
