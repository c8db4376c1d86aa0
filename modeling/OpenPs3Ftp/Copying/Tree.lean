import OpenPs3Ftp.Copying.Walk
import OpenPs3Ftp.Verdict
import Mathlib.Data.Set.Finite.Lattice

/-! What a tree copy leaves in its destination. A directory over something that is no
directory, and a file over a special file, go unnoticed. -/
namespace OpenPs3Ftp.Copying
open Lib Text Resolve Fs Session Commands Events Worker
open Setting (leavesPure leavesThen besideRuns)
open Hierarchy (makeThere kindDir kindNone kindFile kindOther bareThere)

section Tree
variable {T t : Tree} {s d : Place}

def Mirrored (T : Tree) (s d : Place) (t : Tree) : Prop :=
  ∀ rel k, T.kindAt (s ++ rel) = some k → k ≠ .other → t.kindAt (d ++ rel) = some k

def Agrees (T : Tree) (s d : Place) : Prop :=
  ∀ rel k, T.kindAt (s ++ rel) = some k → k ≠ .other → T.kindAt (d ++ rel) = none ∨ T.kindAt (d ++ rel) = some k

variable (walks : Walks T s d t [] fun _ => False)
include walks

theorem walkedDone (rel) (there : T.node (s ++ rel) ≠ none) :
    Done T s d t rel := by
  rcases walks.covers rel there with done | ⟨r,member,_⟩ | impossible
  · exact done
  · exact absurd member List.not_mem_nil
  · exact impossible.elim

theorem walkedThere {rel k} (kind : T.kindAt (s ++ rel) = some k)
    (plain : k ≠ .other) : t.node (d ++ rel) ≠ none := by
  have there : T.node (s ++ rel) ≠ none := by
    rw [ne_eq,← kindNone,kind]
    exact nofun
  have done := walkedDone walks rel there
  cases k with
  | dir => exact (done.dir (kindDir.mp kind)).1
  | file =>
    obtain ⟨whole,same⟩ := kindFile.mp kind
    rcases done.file whole same with special | ⟨c,file,_⟩
    · simp [special]
    · simp [file]
  | other => exact absurd rfl plain

theorem walkedMirrors : Mirrored T s d t ↔ Agrees T s d := by
  constructor
  · intro mirrored rel k kind plain
    cases before : T.kindAt (d ++ rel) with
    | none => exact .inl rfl
    | some k' =>
      have after := walks.grown.kinds _ _ before
      rw [mirrored rel k kind plain] at after
      exact .inr after.symm
  intro agrees rel k kind plain
  have there := walkedThere walks kind plain
  rcases agrees rel k kind plain with absent | same
  · cases after : t.kindAt (d ++ rel) with
    | none => exact absurd (kindNone.mp after) there
    | some k' => rw [walks.grown.fresh rel k k' kind absent after]
  · exact walks.grown.kinds _ _ same

/- The tree `T` with what lies under `s` laid over what lies under `d`. -/
def overlaid (T : Tree) (s d q : Place) : Option (Entry Bytes) :=
  if d <+: q then
    match T.node (s ++ q.drop d.length) with
    | some .dir => some .dir
    | some (.file whole) => some (.file whole)
    | _ => T.node q
  else T.node q

def Compatible (T : Tree) (s d : Place) : Prop :=
  ∀ rel a b, T.node (s ++ rel) = some a → T.node (d ++ rel) = some b → (a = .dir ↔ b = .dir)

def Ordinary (T : Tree) (s d : Place) : Prop :=
  ∀ rel whole, T.node (s ++ rel) = some (.file whole) → T.node (d ++ rel) ≠ some .other

omit walks in
theorem compatibleAgrees (compatible : Compatible T s d) (ordinary : Ordinary T s d) : Agrees T s d := by
  intro rel k kind plain
  cases there : T.node (d ++ rel) with
  | none => exact .inl (kindNone.mpr there)
  | some b =>
    refine .inr ?_
    cases k with
    | dir =>
      have same := (compatible rel .dir b (kindDir.mp kind) there).mp rfl
      rw [kindDir,there,same]
    | file =>
      obtain ⟨whole,file⟩ := kindFile.mp kind
      cases b with
      | dir => exact absurd ((compatible rel _ _ file there).mpr rfl) nofun
      | file c => exact kindFile.mpr ⟨c,there⟩
      | other => exact absurd there (ordinary rel whole file)
    | other => exact absurd rfl plain

theorem walkedOverlaid (apart : Apart s d) (agrees : Agrees T s d) (q) :
    t.node q = overlaid T s d q := by
  have mirrored := (walkedMirrors walks).mpr agrees
  unfold overlaid
  split
  · rename_i under
    obtain ⟨rel,rfl⟩ := under
    rw [List.drop_left]
    have unnamed : (T.kindAt (s ++ rel) = none ∨ T.kindAt (s ++ rel) = some .other) → t.node (d ++ rel) = T.node (d ++ rel) := by
      intro skipped
      refine walks.grown.frame apart _ fun rel' same => ?_
      rwa [← List.append_cancel_left same]
    cases source : T.node (s ++ rel) with
    | none => exact unnamed (.inl (kindNone.mpr source))
    | some entry =>
      cases entry with
      | dir => exact kindDir.mp (mirrored rel .dir (kindDir.mpr source) nofun)
      | other => exact unnamed (.inr (kindOther.mpr source))
      | file whole =>
        have kind := mirrored rel .file (kindFile.mpr ⟨whole,source⟩) nofun
        rcases (walkedDone walks rel (by simp [source])).file whole source with special | ⟨c,file,same⟩
        · rw [kindOther.mpr special] at kind
          contradiction
        · rw [file,same apart]
  · rename_i outside
    exact walks.grown.frame apart q fun rel same => absurd ⟨rel,same.symm⟩ outside

end Tree

theorem enoughRounds (T) : ∃ n, ∀ rounds, n ≤ rounds → Enough rounds T := by
  have bounded : BddAbove ((fun p => (content T p).length) '' {p | T.node p ≠ none}) := (T.finite.image _).bddAbove
  obtain ⟨top,above⟩ := bounded
  refine ⟨transferBuf + top + (T.size [] + 2) + 1,fun rounds most => ⟨by omega,fun p whole file => ?_,by omega⟩⟩
  have length := above ⟨p,by simp [file],rfl⟩
  simp only [content,file] at length
  omega

/- A tree copy that reports success leaves the destination overlaid with the source; it ends, and
fails for the depth of the source only and always if that is the first thing to fail. -/
def CopiesTree (j : Job) (disk : Disk) : Prop :=
  (∃ n, ∀ rounds, n ≤ rounds → ∀ trace result, Program.Runs (transferCopy rounds j) trace result →
    filesystem.Genuine disk trace → result ≠ none) ∧
  ∀ rounds trace rc, Program.Runs (transferCopy rounds j) trace (some rc) → filesystem.Genuine disk trace →
    (rc = none → ∀ q, (filesystem.after disk trace).tree.node q =
      overlaid disk.tree (locate j.path.text) (locate j.dst.text) q) ∧
    (rc = some .eloop ∧ ¬ Faulty j.path.text trace ↔
      Deep disk.tree (locate j.path.text) ∧ rc ≠ some .enametoolong ∧ ¬ Faulty j.path.text trace)

theorem sourceFits : (ascii "/a").length < 1024 := by decide
theorem targetFits : (ascii "/b").length < 1024 := by decide
theorem entryFits : (ascii "f").length < 256 := by decide

def small : Job :=
  { smallJob with op := .copy, path := ⟨ascii "/a",sourceFits⟩, dst := ⟨ascii "/b",targetFits⟩ }

def folder : Tree := Hierarchy.bare.make [ascii "a"] .dir
def blocked : Tree := folder.make [ascii "b"] (.file [2])
def loaded : Tree := (folder.make [ascii "b"] .dir).make [ascii "a",ascii "f"] (.file [1])
def device : Tree := loaded.make [ascii "b",ascii "f"] .other

theorem loadedOnly {rel} (there : loaded.node ([ascii "a"] ++ rel) ≠ none) : rel = [] ∨ rel = [ascii "f"] := by
  rcases makeThere there with same | there
  · exact .inr (List.append_cancel_left same)
  rcases makeThere there with same | there
  · cases same
  rcases makeThere there with same | there
  · exact .inl (List.append_cancel_left same)
  · exact absurd (bareThere there) (List.cons_ne_nil _ _)

def special : Stat := ⟨0o020644,0,0,0,0⟩
def entry : Dirent := ⟨⟨ascii "f",entryFits⟩,0o100644,1,0,0,0⟩

def load (there : Except Errno Stat) : Work.Trace :=
  [⟨.fs (.stat (ascii "/a")),.ok directory⟩,⟨.malloc,true⟩,⟨.cancelled,false⟩,⟨.fs (.stat (ascii "/b")),.ok directory⟩,
   ⟨.fs (.opendir (ascii "/a")),.ok 6⟩,⟨.cancelled,false⟩,⟨.fs (.readdir 6),.ok (some entry)⟩,
   ⟨.fs (.openFile (ascii "/a/f") readonly 0),.ok 3⟩,⟨.fs (.stat (ascii "/b/f")),there⟩,
   ⟨.fs (.openFile (ascii "/b/f") copyFlags 0o644),.ok 4⟩,⟨.malloc,true⟩,⟨.cancelled,false⟩,
   ⟨.fs (.read 3 transferBuf),.ok [1]⟩,⟨.fs (.write 4 [1]),.ok 1⟩,⟨.progress 1,()⟩,⟨.cancelled,false⟩,
   ⟨.fs (.read 3 transferBuf),.ok []⟩,⟨.fs (.close 3),.ok ()⟩,⟨.fs (.close 4),.ok ()⟩,⟨.cancelled,false⟩,
   ⟨.fs (.readdir 6),.ok none⟩,⟨.fs (.closedir 6),()⟩]

def swallow : Work.Trace := load (.ok special)
def arrive : Work.Trace := load (.error .enoent)

theorem swallowRuns : Program.Runs (transferCopy 9 small) swallow (some none) := by
  unfold swallow load
  repeat' first | exact .done _ | refine .ask _ ?_

theorem deviceOnly {rel} (there : device.node ([ascii "a"] ++ rel) ≠ none) : rel = [] ∨ rel = [ascii "f"] := by
  rcases makeThere there with same | there
  · cases same
  · exact loadedOnly there

theorem loadGenuine {t there} (either : t = device ∧ there = .ok special ∨ t = loaded ∧ there = .error .enoent) :
    filesystem.Genuine (resting t) (load there) := by
  refine ⟨?_,trivial,trivial,?_,⟨rfl,?_⟩,trivial,⟨_,rfl,?_,.inr ?_⟩,⟨rfl,?_⟩,?_,⟨rfl,?_⟩,trivial,trivial,⟨_,rfl,?_⟩,
    ⟨Nat.le_refl _,_,rfl,rfl⟩,trivial,trivial,⟨_,rfl,?_⟩,trivial,trivial,trivial,⟨_,rfl,?_⟩,trivial,trivial⟩
  · show Shows t (locate (ascii "/a")) directory.mode
    rcases either with ⟨rfl,rfl⟩ | ⟨rfl,rfl⟩ <;> decide
  · show Shows t (locate (ascii "/b")) directory.mode
    rcases either with ⟨rfl,rfl⟩ | ⟨rfl,rfl⟩ <;> decide
  rotate_left 4
  · rcases either with ⟨rfl,rfl⟩ | ⟨rfl,rfl⟩
    · show Shows device (locate (ascii "/b/f")) special.mode
      decide
    · trivial
  rotate_left 3
  · intro name there _
    have source : locate (ascii "/a") = [ascii "a"] := by decide
    rcases either with ⟨rfl,rfl⟩ | ⟨rfl,rfl⟩
    · have there : device.node (locate (ascii "/a") ++ [name]) ≠ none := there
      rw [source] at there
      rcases deviceOnly there with same | same
      · cases same
      · cases same
        exact List.mem_cons_self
    · have there : loaded.node (locate (ascii "/a") ++ [name]) ≠ none := there
      rw [source] at there
      rcases loadedOnly there with same | same
      · cases same
      · cases same
        exact List.mem_cons_self
  all_goals rcases either with ⟨rfl,rfl⟩ | ⟨rfl,rfl⟩ <;> decide

theorem runWalks (rounds s) {j} (copies : j.op = .copy) (st)
    (folder : st.1.tree.node (origin j) = some .dir) :
    (keeping j.path.text).Leaves (fun _ => ¬ False) (fun st' p => Ends st.1.tree (origin j) (target j)
      (Walks st.1.tree (origin j) (target j) st'.1.tree [] fun _ => False) st' p.result) st
      (transferRun rounds s j) := by
  rw [transferRun,if_pos copies]
  exact leavesThen (transferWalks False rounds st folder nofun) fun st' rc held => leavesPure held

/- When the client is told that a tree was copied, directories and files are where they should be
exactly if nothing of another kind was in their place. -/
theorem copiedMirrors (rounds : Nat) (s : Server) (j : Job) (copies : j.op = .copy) (disk : Disk)
    (folder : disk.tree.node (locate j.path.text) = some .dir) (trace : List (Exchange Work.Answer)) (p : Posted)
    (run : Program.Runs (transferRun rounds s j) trace (some p)) (genuine : filesystem.Genuine disk trace)
    (c c' : Client) (here : p.job.generation = c.generation) (calls : List (Exchange Answer))
    (ended : (datachanComplete p c).Runs calls c') (success : Verdict.Tells p.job calls 250) :
    Mirrored disk.tree (locate j.path.text) (locate j.dst.text) (filesystem.after disk trace).tree ↔
      Agrees disk.tree (locate j.path.text) (locate j.dst.text) := by
  have code := (Verdict.tellsVerdict ended here (by decide)).mp success
  have held := besideRuns (runWalks rounds s copies (disk,Log.blank) folder) run genuine
  exact walkedMirrors (held.1 (verdictDone (.inr code)).1)

def copied : Posted := ⟨small,none,false,none⟩

theorem copiedReplies : (datachanComplete copied visitor).Runs [copied.reply] visitor := by
  have closes : (closeJob copied).Runs [] () := .done ()
  refine Program.runsBind.mpr ⟨[],(),_,rfl,closes,?_⟩
  rw [if_neg (fun away => away rfl)]
  exact invokeRuns (.send (.finished copied.job.id) _) () (.done visitor)

theorem copiedTells : Verdict.Tells copied.job [copied.reply] 250 := ⟨_,List.mem_cons_self⟩

theorem arriveRuns : Program.Runs (transferRun 9 house small) arrive (some copied) := by
  unfold arrive load
  repeat' first | exact .done _ | refine .ask _ ?_

theorem copiedMirrorsLoaded :
    Mirrored loaded (locate small.path.text) (locate small.dst.text) (filesystem.after (resting loaded) arrive).tree ↔
      Agrees loaded (locate small.path.text) (locate small.dst.text) :=
  copiedMirrors 9 house small rfl (resting loaded) (by decide) _ copied arriveRuns (loadGenuine (.inr ⟨rfl,rfl⟩))
    visitor _ rfl _ copiedReplies copiedTells

def merge : Work.Trace :=
  [⟨.fs (.stat (ascii "/a")),.ok directory⟩,⟨.malloc,true⟩,⟨.cancelled,false⟩,⟨.fs (.stat (ascii "/b")),.ok plainFile⟩,
   ⟨.fs (.opendir (ascii "/a")),.ok 6⟩,⟨.cancelled,false⟩,⟨.fs (.readdir 6),.ok none⟩,⟨.fs (.closedir 6),()⟩]

theorem mergeRuns : Program.Runs (transferRun 9 house small) merge (some copied) := by
  unfold merge
  repeat' first | exact .done _ | refine .ask _ ?_

theorem mergeGenuine : filesystem.Genuine (resting blocked) merge := by
  refine ⟨?_,trivial,trivial,?_,⟨rfl,?_⟩,trivial,⟨_,rfl,fun name there => ?_⟩,trivial,trivial⟩
  · show Shows blocked (locate (ascii "/a")) directory.mode
    decide
  · show Shows blocked (locate (ascii "/b")) plainFile.mode
    decide
  · show blocked.node (locate (ascii "/a")) = some .dir
    decide
  have source : locate (ascii "/a") = [ascii "a"] := by decide
  have there : blocked.node (locate (ascii "/a") ++ [name]) ≠ none := there
  rw [source] at there
  rcases makeThere there with same | there
  · cases same
  · rcases makeThere there with same | there
    · cases same
    · exact absurd (bareThere there) (List.cons_ne_nil _ _)

theorem copiedOverFile : ∃ p calls c', Program.Runs (transferRun 9 house small) merge (some p) ∧
    filesystem.Genuine (resting blocked) merge ∧ blocked.node (locate small.path.text) = some .dir ∧
    p.job.generation = visitor.generation ∧ (datachanComplete p visitor).Runs calls c' ∧
    Verdict.Tells p.job calls 250 ∧
    (filesystem.after (resting blocked) merge).tree.node (locate small.dst.text) = some (.file [2]) :=
  ⟨copied,_,_,mergeRuns,mergeGenuine,by decide,rfl,copiedReplies,copiedTells,by decide⟩

end OpenPs3Ftp.Copying
