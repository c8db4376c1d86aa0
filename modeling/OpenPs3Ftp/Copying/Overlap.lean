import OpenPs3Ftp.Copying.Source
import OpenPs3Ftp.Verdict

/-! Copies that write to their source. -/
namespace OpenPs3Ftp.Copying
open Lib Text Resolve Fs Session Worker
open Setting (mayPure mayAsk mayMono mayThen mayLoop watchedEach watchedGenuine)
open Hierarchy (dirs nodeMake nodeFill kindFile kindDir isFile freeOf)

def Passes (j : Job) : Prop := j.path.text ≠ j.dst.text ∧ pathIsUnder j.dst.text j.path.text = false

/- CPFR and CPTO accept: the source is also a file or a directory, and the destination has a parent. -/
def Accepted (j : Job) (t : Tree) : Prop :=
  Passes j ∧ (t.kindAt (locate j.path.text) = some .file ∨ t.kindAt (locate j.path.text) = some .dir) ∧
    t.node (locate j.dst.text).dropLast = some .dir

def SourceKept (j : Job) : Prop :=
  ∀ disk, Accepted j disk.tree → ∀ rounds trace out, Program.Runs (transferCopy rounds j) trace out →
    filesystem.Genuine disk trace → ∀ before, before <+: trace →
    Kept disk.tree (locate j.path.text) (filesystem.after disk before).tree

def Spoils (j : Job) : Prop :=
  ∃ T, Accepted j T ∧ ∃ rounds, filesystem.May (fun st _ => ¬ Kept T (locate j.path.text) st.tree) (resting T) (transferCopy rounds j)

theorem spoilsKept {j} (spoils : Spoils j) : ¬ SourceKept j := by
  obtain ⟨T,accepted,rounds,trace,rc,run,genuine,bad⟩ := spoils
  exact fun kept => bad (kept (resting T) accepted rounds trace (some rc) run genuine trace (List.prefix_refl _))

theorem freeKept {j} (free : ¬ Overlaps j) : SourceKept j := by
  intro disk _ rounds trace out run genuine before part
  have held := Setting.yieldsRuns (transferKeeps rounds (disk,True) free trivial) run (watchedGenuine.mpr genuine)
  refine watchedEach (Q := fun now : Disk => Kept disk.tree (locate j.path.text) now.tree) (p := True) ?_ (fun _ _ => rfl) part
  cases out with
  | none | some rc => exact held

variable {rounds moved : Nat} {src dst root name : Bytes} {names cur : Place}

section Spoiling
variable {j : Job} {T : Tree}

theorem fileSpoils {st} (reads : Opens st.tree (locate src) readonly) (writes : Opens st.tree (locate dst) copyFlags)
    (unused : st.files = fun _ => none) :
    filesystem.May (fun st' result => st'.tree = opened st.tree (locate dst) copyFlags ∧ result.2 = some .enomem) st
      (copyFile rounds src dst moved) := by
  refine mayAsk (.ok 3) ⟨by rw [unused],reads⟩ ?_
  refine mayAsk (.error .enoent) trivial ?_
  refine mayAsk (.ok 4) ⟨?_,?_⟩ ?_
  · show Function.update st.files 3 (some ⟨locate src,0,false⟩) 4 = none
    rw [Function.update_of_ne (by decide),unused]
  · show Opens (opened st.tree (locate src) readonly) (locate dst) copyFlags
    rw [openedRead]
    exact writes
  refine mayThen (fun (st' : Disk) (result : Nat × Rc) => st'.tree = opened st.tree (locate dst) copyFlags ∧ result.2 = some .enomem) ?_ ?_
  · refine mayThen (fun (st' : Disk) (result : Nat × Rc) => st'.tree = opened st.tree (locate dst) copyFlags ∧ result.2 = some .enomem) ?_ ?_
    · refine mayAsk false trivial (mayPure ⟨?_,rfl⟩)
      show opened (opened st.tree (locate src) readonly) (locate dst) copyFlags = _
      rw [openedRead]
    · intro st' result held
      exact mayAsk (.ok ()) trivial (mayAsk (.ok ()) trivial (mayPure held))
  rintro st' ⟨moved',rc⟩ ⟨tree,code⟩
  dsimp only at code
  subst code
  exact mayThen _ (mayAsk (.error .eio) trivial (mayPure tree)) fun st'' _ held => mayPure ⟨held,rfl⟩

def chain (front : Place) (last : Bytes) (valid : ∀ name ∈ front, Named name) : Tree :=
  Hierarchy.make (dirs front valid) (front ++ [last]) (.file [1])

section Chain
variable {front : Place} {last : Bytes} {valid : ∀ name ∈ front, Named name}

theorem chainFree (named : Named last) : (dirs front valid : Tree).Free (front ++ [last]) := by
  refine freeOf (if_neg fun long => ?_) (if_pos (List.prefix_refl _)) named
  have length := long.length_le
  simp at length

theorem chainLast (named : Named last) : (chain front last valid).node (front ++ [last]) = some (.file [1]) := by
  rw [chain,nodeMake,if_pos ⟨chainFree named,rfl⟩]

theorem chainAbove {q} (above : q <+: front) : (chain front last valid).node q = some .dir := by
  have other : q ≠ front ++ [last] := by
    rintro rfl
    have length := above.length_le
    simp at length
  rw [chain,nodeMake,if_neg (fun both => other both.2)]
  exact if_pos above

theorem chainOnly {q} (there : (chain front last valid).node q ≠ none) : q <+: front ++ [last] := by
  rcases Hierarchy.makeThere there with rfl | there
  · exact List.prefix_refl _
  · have above : q <+: front := Decidable.by_contra fun outside => there (if_neg outside)
    exact above.trans (List.prefix_append _ _)

end Chain

theorem spoilsSame (passes : Passes j) (named : ∀ name ∈ locate j.path.text, Named name)
    (same : locate j.path.text = locate j.dst.text) (deeper : locate j.path.text ≠ []) : Spoils j := by
  obtain ⟨front,last,split⟩ := (List.eq_nil_or_concat' (locate j.path.text)).resolve_left deeper
  have valid : ∀ name ∈ front, Named name := fun name member => named name (by simp [split,member])
  have file : (chain front last valid).node (front ++ [last]) = some (.file [1]) := chainLast (named last (by simp [split]))
  refine ⟨chain front last valid,⟨passes,.inl ?_,?_⟩,0,?_⟩
  · rw [split]
    exact kindFile.mpr ⟨_,file⟩
  · rw [← same,split,List.dropLast_concat]
    exact chainAbove (List.prefix_refl _)
  rw [transferCopy,if_neg (fun equal => passes.1 (congrArg Buffer.text equal))]
  refine mayAsk (.ok plainFile) ?_ ?_
  · show Shows (chain front last valid) (locate j.path.text) plainFile.mode
    rw [Shows,split,file]
    rfl
  have reads : Opens (chain front last valid) (locate j.path.text) readonly := by
    rw [Opens,split,file]
    trivial
  have writes : Opens (chain front last valid) (locate j.dst.text) copyFlags := by
    rw [Opens,← same,split,file]
    trivial
  refine mayAsk () trivial (mayThen _ (fileSpoils reads writes rfl) fun st' result held => mayPure fun kept => ?_)
  have now := kept (front ++ [last]) (split ▸ List.prefix_refl _)
  rw [held.1,← same,split,file] at now
  have there : (chain front last valid).node (front ++ [last]) ≠ none := by
    rw [file]
    exact Option.some_ne_none _
  have emptied : (opened (chain front last valid) (front ++ [last]) copyFlags).node (front ++ [last]) = some (.file []) := by
    rw [openedThere there,nodeFill,if_pos ⟨isFile.mpr ⟨_,file⟩,rfl⟩]
  cases emptied.symm.trans now

theorem joinRoot (short : root.length < maxPath) : copyJoin root [] = some root := by
  rw [copyJoin,if_pos rfl,fitted,if_neg (Nat.not_le.mpr short)]

theorem spoilsInside (passes : Passes j) (named : ∀ name ∈ locate j.dst.text, Named name)
    (inside : locate j.path.text <+: locate j.dst.text) (other : locate j.path.text ≠ locate j.dst.text) : Spoils j := by
  obtain ⟨x,split⟩ := inside
  have some_ : x ≠ [] := by
    rintro rfl
    exact other (by rw [← split,List.append_nil])
  have parent : (locate j.dst.text).dropLast = locate j.path.text ++ x.dropLast := by
    rw [← split,List.dropLast_append_of_ne_nil some_]
  have valid : ∀ name ∈ (locate j.dst.text).dropLast, Named name := fun name member => named name (List.mem_of_mem_dropLast member)
  have folder : (dirs _ valid : Tree).node (locate j.path.text) = some .dir :=
    if_pos (parent ▸ List.prefix_append _ _)
  have missing : (dirs _ valid : Tree).node (locate j.dst.text) = none := by
    refine if_neg fun long => ?_
    have length := long.length_le
    have letter := List.length_pos_of_ne_nil some_
    rw [parent,← split,List.length_append,List.length_append,List.length_dropLast] at length
    omega
  have free : (dirs _ valid : Tree).Free (locate j.dst.text) := by
    refine ⟨missing,if_pos (List.prefix_refl _),fun name last => named name ?_⟩
    exact List.mem_of_getLast? last
  refine ⟨dirs _ valid,⟨passes,.inr (kindDir.mpr folder),if_pos (List.prefix_refl _)⟩,1,?_⟩
  rw [transferCopy,if_neg (fun equal => passes.1 (congrArg Buffer.text equal))]
  refine mayAsk (.ok directory) ?_ ?_
  · show Shows (dirs _ valid) (locate j.path.text) directory.mode
    rw [Shows,folder]
    rfl
  refine mayAsk true trivial (mayThen (fun st' _ => ¬ Kept (dirs _ valid) (locate j.path.text) st'.tree)
    (mayLoop ?_) fun st' w held => mayPure held)
  refine mayAsk false trivial ?_
  dsimp only
  rw [if_neg Bool.false_ne_true,joinRoot j.path.fits,joinRoot j.dst.fits]
  refine mayThen (fun st' rc => rc = none ∧ ¬ Kept (dirs _ valid) (locate j.path.text) st'.tree) ?_ ?_
  · refine mayAsk (.error .enoent) trivial (mayAsk (.ok ()) free (mayPure ⟨rfl,fun kept => ?_⟩))
    have now := kept (locate j.dst.text) (split ▸ List.prefix_append _ _)
    rw [missing] at now
    have made : ((dirs _ valid : Tree).make (locate j.dst.text) .dir).node (locate j.dst.text) = some .dir := by
      rw [nodeMake,if_pos ⟨free,rfl⟩]
    cases made.symm.trans now
  · rintro st' rc ⟨rfl,bad⟩
    exact mayAsk (.error .eio) trivial (mayPure bad)

theorem joinLess {r} (fits : Fits root r) (words : ∀ name ∈ r, Word slash name)
    (less : (separated slash names).length ≤ (separated slash r).length + 2) : joinLength root names < maxPath := by
  have top : joinLength root (r ++ [ascii "x"]) < maxPath := by
    refine (joinFits ?_ (by simp)).mp fits
    exact List.forall_mem_append.mpr ⟨words,List.forall_mem_singleton.mpr (by decide)⟩
  have one : (separated slash [ascii "x"]).length = 2 := by decide
  unfold joinLength at top ⊢
  rw [separatedAppend,List.length_append] at top
  omega

theorem joinSome (words : ∀ name ∈ names, Word slash name) (short : root.length < maxPath)
    (less : joinLength root names < maxPath) : ∃ path, copyJoin root (relText names) = some path := by
  by_cases empty : names = []
  · rw [empty]
    exact ⟨root,joinRoot short⟩
  · exact Option.isSome_iff_exists.mp ((joinFits words empty).mpr less)

theorem childSome (words : ∀ name ∈ names, Word slash name)
    (less : joinLength root (names ++ [name]) < maxPath) : copyChild (relText names) name = some (relText (names ++ [name])) := by
  have length : (separated slash (names ++ [name])).length = (relText (names ++ [name])).length + 1 := by
    rw [← relSlash (by simp),List.length_cons]
  unfold joinLength at less
  rw [copyChild,relChild words,fitted,if_neg (by omega)]

def listed (name : Bytes) (short : name.length < 256) (mode : Mode) : Dirent := ⟨⟨name,short⟩,mode,0,0,0,0⟩

theorem scanClosed (T scan given) :
    (((resting T).setScan 0 (some scan)).setScan 0 (some { scan with given })).setScan 0 none = resting T := by
  unfold Disk.setScan
  dsimp only
  rw [Function.update_idem,Function.update_idem]
  have same : Function.update (resting T).scans 0 none = (resting T).scans := Function.update_eq_self 0 _
  rw [same]

theorem undotted (named : Named name) : ¬ dots name = true := by
  intro dot
  rcases of_decide_eq_true dot with same | same
  · exact named.1.2.1 same
  · exact named.1.2.2 same

theorem roundDown (named : Named name)
    (words : ∀ name ∈ cur, Word slash name) (leaves : copyJoin j.path.text (relText cur) = some src)
    (leads : copyJoin j.dst.text (relText cur) = some dst) (less : joinLength j.path.text (cur ++ [name]) < maxPath)
    (shallow : cur.length + 1 < copyMaxDepth) (here : T.node (locate src) = some .dir) (there : T.node (locate dst) = some .dir)
    (child : T.node (locate src ++ [name]) = some .dir)
    (only : ∀ other, T.node (locate src ++ [other]) ≠ none → other = name) :
    filesystem.May (fun st next => st = resting T ∧ next = .inl ⟨[item (cur ++ [name])],moved,none⟩) (resting T)
      (copyTreeRound (rounds + 2) j ⟨[item cur],moved,none⟩) := by
  have short : name.length < 256 := named.2
  refine mayAsk false trivial ?_
  dsimp only [item]
  rw [if_neg Bool.false_ne_true,leaves,leads]
  refine mayThen (fun st rc => rc = none ∧ st = resting T) ?_ ?_
  · refine mayAsk (.ok directory) ?_ (mayPure ⟨rfl,rfl⟩)
    show Shows T (locate dst) directory.mode
    rw [Shows,there]
    rfl
  rintro st rc ⟨rfl,rfl⟩
  refine mayAsk (.ok 0) ⟨rfl,here⟩ ?_
  refine mayThen (fun st w => w = ⟨[item (cur ++ [name])],moved,none⟩ ∧
    st.setScan 0 none = resting T) ?_ ?_
  · refine mayLoop (mayAsk false trivial (mayAsk (.ok (some (listed name short directory.mode))) ?_ ?_))
    · refine ⟨_,rfl,List.not_mem_nil,.inr ?_⟩
      show Shows T (locate src ++ [name]) directory.mode
      rw [Shows,child]
      rfl
    dsimp only [listed]
    rw [if_neg (undotted named),copyEntry]
    dsimp only
    rw [childSome words less]
    dsimp only
    rw [if_pos (show isDir directory.mode = true from rfl),if_neg (Nat.not_le.mpr shallow)]
    refine mayAsk true trivial (mayPure ?_)
    rw [Sum.elim_inl]
    refine mayLoop (mayAsk false trivial (mayAsk (.ok none) ⟨_,rfl,?_⟩ (mayPure ⟨?_,?_⟩)))
    · intro other start _
      rw [only other start]
      exact List.mem_cons_self
    · simp [item]
    · exact scanClosed T _ [name]
  · rintro st w ⟨rfl,closed⟩
    exact mayAsk () trivial (mayPure ⟨closed,rfl⟩)

theorem roundFile {src' dst'} (named : Named name) (words : ∀ name ∈ cur, Word slash name)
    (leaves : copyJoin j.path.text (relText cur) = some src) (leads : copyJoin j.dst.text (relText cur) = some dst)
    (less : joinLength j.path.text (cur ++ [name]) < maxPath)
    (leaves' : copyJoin j.path.text (relText (cur ++ [name])) = some src')
    (leads' : copyJoin j.dst.text (relText (cur ++ [name])) = some dst') (here : T.node (locate src) = some .dir)
    (there : T.node (locate dst) = some .dir) (child : T.kindAt (locate src ++ [name]) = some .file)
    (reads : Opens T (locate src') readonly) (writes : Opens T (locate dst') copyFlags) :
    filesystem.May (fun st next => st.tree = opened T (locate dst') copyFlags ∧ ∃ w, next = .inr w) (resting T)
      (copyTreeRound (rounds + 2) j ⟨[item cur],moved,none⟩) := by
  have short : name.length < 256 := named.2
  refine mayAsk false trivial ?_
  dsimp only [item]
  rw [if_neg Bool.false_ne_true,leaves,leads]
  refine mayThen (fun st rc => rc = none ∧ st = resting T) ?_ ?_
  · refine mayAsk (.ok directory) ?_ (mayPure ⟨rfl,rfl⟩)
    show Shows T (locate dst) directory.mode
    rw [Shows,there]
    rfl
  rintro st rc ⟨rfl,rfl⟩
  refine mayAsk (.ok 0) ⟨rfl,here⟩ ?_
  refine mayThen (fun st w => w.rc = some .enomem ∧ st.tree = opened T (locate dst') copyFlags) ?_ ?_
  · refine mayLoop (mayAsk false trivial (mayAsk (.ok (some (listed name short plainFile.mode))) ⟨_,rfl,List.not_mem_nil,.inr ?_⟩ ?_))
    · show T.kindAt (locate src ++ [name]) = some (shown plainFile.mode)
      rw [child]
      rfl
    dsimp only [listed]
    rw [if_neg (undotted named),copyEntry]
    dsimp only
    rw [childSome words less]
    dsimp only
    rw [if_neg (by decide : ¬ isDir plainFile.mode = true),if_pos (show isReg plainFile.mode = true from rfl),leaves',leads']
    refine mayThen _ (fileSpoils reads writes rfl) ?_
    rintro st ⟨moved',rc⟩ ⟨tree,code⟩
    dsimp only at code
    subst code
    exact mayPure ⟨rfl,tree⟩
  rintro st ⟨stack,moved',rc⟩ ⟨code,tree⟩
  dsimp only at code
  subst code
  exact mayAsk () trivial (mayPure ⟨tree,_,rfl⟩)

section Above
variable {r : Place} {last : Bytes}

theorem aboveSpoils (all : ∀ name ∈ locate j.path.text ++ r, Named name) (valid : Named last) (new : r.head? ≠ some last) :
    Opens (chain (locate j.path.text ++ r) last all) (locate j.path.text ++ [last]) copyFlags ∧
      ∀ t, t = opened (chain (locate j.path.text ++ r) last all) (locate j.path.text ++ [last]) copyFlags →
        ¬ Kept (chain (locate j.path.text ++ r) last all) (locate j.path.text) t := by
  have under : locate j.path.text <+: locate j.path.text ++ [last] := List.prefix_append _ _
  cases r with
  | nil =>
    have file : (chain (locate j.path.text ++ []) last all).node (locate j.path.text ++ [last]) = some (.file [1]) := by
      rw [show locate j.path.text ++ [last] = locate j.path.text ++ [] ++ [last] by rw [List.append_nil]]
      exact chainLast valid
    have there : (chain (locate j.path.text ++ []) last all).node (locate j.path.text ++ [last]) ≠ none := by
      rw [file]
      exact nofun
    refine ⟨by rw [Opens,file]; trivial,?_⟩
    rintro t rfl kept
    have now := kept _ under
    rw [openedThere there,nodeFill,if_pos ⟨isFile.mpr ⟨_,file⟩,rfl⟩,file] at now
    cases now
  | cons first rest =>
    have missing : (chain (locate j.path.text ++ first :: rest) last all).node (locate j.path.text ++ [last]) = none := by
      by_contra there
      have inside := chainOnly there
      rw [List.append_assoc] at inside
      have start := (List.prefix_append_right_inj _).mp inside
      exact new (congrArg some (List.cons_prefix_cons.mp start).1.symm)
    have free := freeOf missing (chainAbove (List.prefix_append _ _)) valid
    refine ⟨by rw [Opens,missing]; exact ⟨rfl,free⟩,?_⟩
    rintro t rfl kept
    have now := kept _ under
    rw [openedMissing missing,nodeMake,if_pos ⟨free,rfl⟩,missing] at now
    cases now

theorem walkSpoils (all : ∀ name ∈ locate j.path.text ++ r, Named name) (valid : Named last)
    (letter : last.length = 1) (new : r.head? ≠ some last) (above : locate j.path.text = locate j.dst.text ++ r)
    (shallow : r.length < copyMaxDepth) (fits : Fits j.path.text r) (fits' : Fits j.dst.text r) (rounds) {tail}
    (split : cur ++ tail = r) {m} (enough : tail.length < m) :
    filesystem.May (fun st _ => ¬ Kept (chain (locate j.path.text ++ r) last all) (locate j.path.text) st.tree)
      (resting (chain (locate j.path.text ++ r) last all)) (Bounded.loop (copyTreeRound (rounds + 2) j) m ⟨[item cur],0,none⟩) := by
  have inner : ∀ name ∈ r, Named name := fun name member => all name (List.mem_append_right _ member)
  have words := namedWords inner
  induction tail generalizing cur m with
  | nil =>
    rw [List.append_nil] at split
    subst split
    obtain ⟨m,rfl⟩ := Nat.exists_eq_add_of_lt enough
    have longer : (separated slash (cur ++ [last])).length = (separated slash cur).length + 2 := by
      simp [separatedAppend,letter]
    have named' : ∀ name ∈ cur ++ [last], Named name :=
      List.forall_mem_append.mpr ⟨inner,List.forall_mem_singleton.mpr valid⟩
    obtain ⟨src,leaves⟩ := joinSome words j.path.fits (joinLess fits words (Nat.le_add_right _ _))
    obtain ⟨dst,leads⟩ := joinSome words j.dst.fits (joinLess fits' words (Nat.le_add_right _ _))
    obtain ⟨src',leaves'⟩ := joinSome (namedWords named') j.path.fits (joinLess fits words longer.le)
    obtain ⟨dst',leads'⟩ := joinSome (namedWords named') j.dst.fits (joinLess fits' words longer.le)
    have from_ := joinLocates inner leaves
    have to_ := joinLocates inner leads
    have from' := joinLocates named' leaves'
    have to' : locate dst' = locate j.path.text ++ [last] := by rw [joinLocates named' leads',above,List.append_assoc]
    have file : (chain (locate j.path.text ++ cur) last all).node (locate j.path.text ++ cur ++ [last]) = some (.file [1]) :=
      chainLast valid
    obtain ⟨opens,spoils⟩ := aboveSpoils all valid new
    refine mayLoop (mayMono ?_ (roundFile valid words leaves leads (joinLess fits words longer.le) leaves' leads' ?_ ?_ ?_ ?_ ?_))
    · rintro st next ⟨tree,w,rfl⟩
      exact spoils _ (to' ▸ tree)
    · rw [from_]
      exact chainAbove (List.prefix_refl _)
    · rw [to_,← above]
      exact chainAbove (List.prefix_append _ _)
    · rw [from_]
      exact kindFile.mpr ⟨_,file⟩
    · rw [from',← List.append_assoc,Opens,file]
      trivial
    · rw [to']
      exact opens
  | cons name tail ih =>
    obtain ⟨m,rfl⟩ : ∃ k, m = k + 1 := Nat.exists_eq_succ_of_ne_zero (by omega)
    have part : cur <+: r := ⟨name :: tail,split⟩
    have part' : cur ++ [name] <+: r := ⟨tail,by rw [List.append_assoc]; exact split⟩
    have words' : ∀ name ∈ cur, Word slash name := fun name member => words name (part.subset member)
    have named' : ∀ name ∈ cur, Named name := fun name member => inner name (part.subset member)
    have longer : ∀ {names : Place}, names <+: r → (separated slash names).length ≤ (separated slash r).length + 2 := by
      rintro names ⟨rest,rfl⟩
      rw [separatedAppend,List.length_append]
      omega
    obtain ⟨src,leaves⟩ := joinSome words' j.path.fits (joinLess fits words (longer part))
    obtain ⟨dst,leads⟩ := joinSome words' j.dst.fits (joinLess fits' words (longer part))
    have from_ := joinLocates named' leaves
    have to_ := joinLocates named' leads
    have deep := part'.length_le
    rw [List.length_append] at deep
    refine mayLoop (mayMono ?_ (roundDown (inner name (part'.subset (by simp))) words' leaves leads
      (joinLess fits words (longer part')) (Nat.lt_of_le_of_lt deep shallow) ?_ ?_ ?_ ?_))
    · rintro st next ⟨rfl,rfl⟩
      refine ih ?_ ?_
      · rw [List.append_assoc]
        exact split
      · rw [List.length_cons] at enough
        omega
    · rw [from_]
      exact chainAbove ((List.prefix_append_right_inj _).mpr part)
    · rw [to_]
      refine chainAbove (List.IsPrefix.trans ?_ (List.prefix_append _ _))
      rw [above]
      exact (List.prefix_append_right_inj _).mpr part
    · rw [from_,List.append_assoc]
      exact chainAbove ((List.prefix_append_right_inj _).mpr part')
    intro other there
    rw [from_] at there
    have inside := chainOnly there
    rw [List.append_assoc,List.append_assoc,← split,List.append_assoc] at inside
    have start := (List.prefix_append_right_inj _).mp ((List.prefix_append_right_inj _).mp inside)
    exact (List.cons_prefix_cons.mp start).1

end Above

theorem spoilsAbove {r} (passes : Passes j) (named : ∀ name ∈ locate j.path.text, Named name)
    (above : locate j.path.text = locate j.dst.text ++ r) (shallow : r.length < copyMaxDepth)
    (fits : Fits j.path.text r) (fits' : Fits j.dst.text r) : Spoils j := by
  obtain ⟨last,valid,letter,new⟩ : ∃ last : Bytes, Named last ∧ last.length = 1 ∧ r.head? ≠ some last := by
    by_cases first : r.head? = some (ascii "x")
    · exact ⟨ascii "y",by decide,by decide,by rw [first]; decide⟩
    · exact ⟨ascii "x",by decide,by decide,first⟩
  have all : ∀ name ∈ locate j.path.text ++ r, Named name := by
    intro name member
    refine (List.mem_append.mp member).elim (named name) fun member => named name ?_
    rw [above]
    exact List.mem_append_right _ member
  have folder : (chain (locate j.path.text ++ r) last all).node (locate j.path.text) = some .dir := chainAbove (List.prefix_append _ _)
  refine ⟨chain (locate j.path.text ++ r) last all,⟨passes,.inr (kindDir.mpr folder),?_⟩,r.length + 2,?_⟩
  · refine chainAbove ((List.dropLast_prefix _).trans ?_)
    rw [above,List.append_assoc]
    exact List.prefix_append _ _
  rw [transferCopy,if_neg (fun equal => passes.1 (congrArg Buffer.text equal))]
  refine mayAsk (.ok directory) ?_ ?_
  · show Shows (chain (locate j.path.text ++ r) last all) (locate j.path.text) directory.mode
    rw [Shows,folder]
    rfl
  · refine mayAsk true trivial (mayThen _ (walkSpoils all valid letter new above shallow fits fits' r.length
      (List.nil_append r) (by omega)) fun st' w held => mayPure held)

theorem overlapsSpoil (passes : Passes j) (overlaps : Overlaps j) : Spoils j := by
  obtain ⟨named,same | inside | ⟨r,above,shallow,fits,fits'⟩⟩ := overlaps
  · exact spoilsSame passes (fun name member => named name (List.mem_append_left _ member)) same.1 same.2
  · exact spoilsInside passes (fun name member => named name (List.mem_append_right _ member)) inside.1 inside.2
  · exact spoilsAbove passes (fun name member => named name (List.mem_append_left _ member)) above shallow fits fits'

end Spoiling

/- A copy leaves its source alone, whatever becomes of it, unless source and destination overlap. -/
theorem sourceKept (j : Job) : SourceKept j ↔ ¬ (Passes j ∧ Overlaps j) := by
  constructor
  · rintro kept ⟨passes,overlaps⟩
    exact spoilsKept (overlapsSpoil passes overlaps) kept
  · intro free disk accepted
    exact freeKept (fun overlaps => free ⟨accepted.1,overlaps⟩) disk accepted

def upward : Job := { smallJob with op := .copy, path := ⟨ascii "/a/b",by decide⟩, dst := ⟨ascii "/a",by decide⟩ }
def nested : Tree := chain [ascii "a",ascii "b",ascii "b"] (ascii "f") (by decide)

def climb : Work.Trace :=
  [⟨.fs (.stat (ascii "/a/b")),.ok directory⟩,⟨.malloc,true⟩,
   ⟨.cancelled,false⟩,⟨.fs (.stat (ascii "/a")),.ok directory⟩,⟨.fs (.opendir (ascii "/a/b")),.ok 6⟩,⟨.cancelled,false⟩,
   ⟨.fs (.readdir 6),.ok (some (listed (ascii "b") (by decide) directory.mode))⟩,⟨.malloc,true⟩,⟨.cancelled,false⟩,
   ⟨.fs (.readdir 6),.ok none⟩,⟨.fs (.closedir 6),()⟩,
   ⟨.cancelled,false⟩,⟨.fs (.stat (ascii "/a/b")),.ok directory⟩,⟨.fs (.opendir (ascii "/a/b/b")),.ok 6⟩,⟨.cancelled,false⟩,
   ⟨.fs (.readdir 6),.ok (some (listed (ascii "f") (by decide) plainFile.mode))⟩,
   ⟨.fs (.openFile (ascii "/a/b/b/f") readonly 0),.ok 3⟩,⟨.fs (.stat (ascii "/a/b/f")),.error .enoent⟩,
   ⟨.fs (.openFile (ascii "/a/b/f") copyFlags 0o644),.ok 4⟩,⟨.malloc,true⟩,⟨.cancelled,false⟩,
   ⟨.fs (.read 3 transferBuf),.ok [1]⟩,⟨.fs (.write 4 [1]),.ok 1⟩,⟨.progress 1,()⟩,⟨.cancelled,false⟩,
   ⟨.fs (.read 3 transferBuf),.ok []⟩,⟨.fs (.close 3),.ok ()⟩,⟨.fs (.close 4),.ok ()⟩,⟨.cancelled,false⟩,
   ⟨.fs (.readdir 6),.ok none⟩,⟨.fs (.closedir 6),()⟩]

theorem climbRuns : Program.Runs (transferCopy 9 upward) climb (some none) := by
  unfold climb
  repeat' first | exact .done _ | refine .ask _ ?_

theorem nestedOnly {front other} (there : nested.node (front ++ [other]) ≠ none) (name)
    (inside : front ++ [name] <+: [ascii "a",ascii "b",ascii "b",ascii "f"]) : other = name := by
  have both := List.prefix_of_prefix_length_le (chainOnly there) inside (by simp)
  have same := both.eq_of_length (by simp)
  exact List.singleton_inj.mp (List.append_cancel_left same)

theorem climbGenuine : filesystem.Genuine (resting nested) climb := by
  refine ⟨?_,trivial,trivial,?_,⟨rfl,?_⟩,trivial,⟨_,rfl,?_,.inr ?_⟩,trivial,trivial,⟨_,rfl,?_⟩,trivial,
    trivial,?_,⟨rfl,?_⟩,trivial,⟨_,rfl,?_,.inr ?_⟩,⟨rfl,?_⟩,trivial,⟨rfl,?_⟩,trivial,trivial,⟨_,rfl,?_⟩,
    ⟨Nat.le_refl _,_,rfl,rfl⟩,trivial,trivial,⟨_,rfl,?_⟩,trivial,trivial,trivial,⟨_,rfl,?_⟩,trivial,trivial⟩
  · show Shows nested (locate (ascii "/a/b")) directory.mode
    decide
  · show Shows nested (locate (ascii "/a")) directory.mode
    decide
  · decide
  · decide
  · decide
  · intro other there _
    rw [nestedOnly there (ascii "b") (by decide)]
    exact List.mem_cons_self
  · show Shows nested (locate (ascii "/a/b")) directory.mode
    decide
  · decide
  · decide
  · decide
  · decide
  · decide
  · decide
  · decide
  · intro other there _
    rw [nestedOnly there (ascii "f") (by decide)]
    exact List.mem_cons_self

/- The copy reports success, and there is a new file in its source. -/
theorem upwardSpoils : Accepted upward nested ∧ Program.Runs (transferCopy 9 upward) climb (some none) ∧
    filesystem.Genuine (resting nested) climb ∧ nested.node (locate upward.path.text ++ [ascii "f"]) = none ∧
    (filesystem.after (resting nested) climb).tree.node (locate upward.path.text ++ [ascii "f"]) = some (.file [1]) := by
  refine ⟨⟨⟨by decide,by decide⟩,.inr ?_,?_⟩,climbRuns,climbGenuine,?_,?_⟩
  · decide
  · decide
  · decide
  · decide

end OpenPs3Ftp.Copying
