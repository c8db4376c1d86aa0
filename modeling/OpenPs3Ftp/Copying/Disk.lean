import OpenPs3Ftp.Lib.Hierarchy
import OpenPs3Ftp.Lib.Setting
import OpenPs3Ftp.Lib.Splice
import OpenPs3Ftp.Worker.Transfer

/-! The filesystem behind a copy: a tree without links that nobody else changes, open files
and open directories. Every call may fail, and changes nothing then. Calls that a copy never
makes can only fail here. -/
namespace OpenPs3Ftp.Copying
open Lib Text Resolve Fs Session Worker

/- Names that a directory holds and `readdir` reports in full. -/
def Named (name : Bytes) : Prop := Clean name ∧ name.length < 256

instance : DecidablePred Named := fun name => by unfold Named; infer_instance

abbrev Place := List Bytes
abbrev Tree := Hierarchy Bytes Bytes Named

def locate (path : Bytes) : Place := walk [] ((fields slash path).map move)

abbrev origin (j : Job) : Place := locate j.path.text
abbrev target (j : Job) : Place := locate j.dst.text

def shown (mode : Mode) : Kind := if isDir mode then .dir else if isReg mode then .file else .other

structure Handle where
  place : Place
  pos : Nat
  writable : Bool
  deriving DecidableEq

/- An open directory, with the names given so far and the tree at its opening. -/
structure Scan where
  place : Place
  given : List Bytes
  start : Tree

structure Disk where
  tree : Tree
  files : Fd → Option Handle
  scans : Fd → Option Scan

variable (t : Tree) (place : Place) (flags : OpenFlags)

def Shows (mode : Mode) : Prop := (t.node place).map Entry.kind = some (shown mode)

instance (t : Tree) (place : Place) (mode : Mode) : Decidable (Shows t place mode) := by unfold Shows; infer_instance

def Opens : Prop :=
  match t.node place with
  | none => flags.creat = true ∧ t.Free place
  | some .dir => flags = readonly
  | some _ => True

instance (t : Tree) (place : Place) (flags : OpenFlags) : Decidable (Opens t place flags) :=
  match here : t.node place with
  | none => decidable_of_iff (flags.creat = true ∧ t.Free place) (by rw [Opens,here])
  | some .dir => decidable_of_iff (flags = readonly) (by rw [Opens,here])
  | some (.file _) | some .other => isTrue (by rw [Opens,here]; trivial)

def opened : Tree :=
  if flags.creat ∧ t.node place = none then t.make place (.file [])
  else if flags.trunc then t.fill place [] else t

/- A file is read in order and to its end; what a special file holds is not known. -/
def Reads (h : Handle) (size : Nat) (bytes : Bytes) : Prop :=
  bytes.length ≤ size ∧
    match t.node h.place with
    | some (.file content) => bytes <+: content.drop h.pos ∧ (bytes = [] → content.drop h.pos = [])
    | some .dir => False
    | _ => True

instance (t : Tree) (h : Handle) (size : Nat) (bytes : Bytes) : Decidable (Reads t h size bytes) :=
  match here : t.node h.place with
  | some (.file content) => decidable_of_iff (bytes.length ≤ size ∧ bytes <+: content.drop h.pos ∧
      (bytes = [] → content.drop h.pos = [])) (by rw [Reads,here])
  | some .dir => isFalse (by rw [Reads,here]; exact fun reads => reads.2)
  | some .other | none => decidable_of_iff (bytes.length ≤ size) (by rw [Reads,here]; exact iff_of_eq (and_true _).symm)

def content : Bytes :=
  match t.node place with
  | some (.file bytes) => bytes
  | _ => []

def wrote (h : Handle) (bytes : Bytes) : Tree := t.fill h.place (splice 0 (content t h.place) h.pos bytes)

def Gives (s : Scan) (de : Dirent) : Prop :=
  de.name.text ∉ s.given ∧ (dots de.name.text = true ∨ Shows t (s.place ++ [de.name.text]) de.mode)

def Exhausted (s : Scan) : Prop :=
  ∀ name, s.start.node (s.place ++ [name]) ≠ none → t.node (s.place ++ [name]) ≠ none → name ∈ s.given

def Disk.Allows (d : Disk) : (call : FsCall) → call.Answer → Prop
  | .stat path,.ok st => Shows d.tree (locate path) st.mode
  | .fstat fd,.ok st => ∃ h, d.files fd = some h ∧ Shows d.tree h.place st.mode
  | .openFile path flags _,.ok fd => d.files fd = none ∧ Opens d.tree (locate path) flags
  | .read fd size,.ok bytes => ∃ h, d.files fd = some h ∧ Reads d.tree h size bytes
  | .write fd bytes,.ok n => n ≤ bytes.length ∧ ∃ h, d.files fd = some h ∧ h.writable = true
  | .seek fd _,.ok _ => d.files fd ≠ none
  | .opendir path,.ok dir => d.scans dir = none ∧ d.tree.node (locate path) = some .dir
  | .readdir dir,.ok (some de) => ∃ s, d.scans dir = some s ∧ Gives d.tree s de
  | .readdir dir,.ok none => ∃ s, d.scans dir = some s ∧ Exhausted d.tree s
  | .mkdir path _,.ok _ => d.tree.Free (locate path)
  | .unlink path,.ok _ => d.tree.node (locate path) ≠ none ∧ d.tree.node (locate path) ≠ some .dir
  | .rmdir _,.ok _ | .rename ..,.ok _ | .chmod ..,.ok _ | .utimes ..,.ok _ => False
  | _,_ => True

def Disk.setFile (d : Disk) (fd : Fd) (h : Option Handle) : Disk := { d with files := Function.update d.files fd h }
def Disk.setScan (d : Disk) (dir : Fd) (s : Option Scan) : Disk := { d with scans := Function.update d.scans dir s }

def Disk.after (d : Disk) : (call : FsCall) → call.Answer → Disk
  | .openFile path flags _,.ok fd =>
    { d with tree := opened d.tree (locate path) flags }.setFile fd (some ⟨locate path,0,decide (flags.access ≠ Access.rdonly)⟩)
  | .close fd,_ => d.setFile fd none
  | .read fd _,.ok bytes => d.setFile fd ((d.files fd).map fun h => { h with pos := h.pos + bytes.length })
  | .write fd bytes,.ok n =>
    match d.files fd with
    | none => d
    | some h => { d with tree := wrote d.tree h (bytes.take n) }.setFile fd (some { h with pos := h.pos + n })
  | .seek fd offset,.ok _ => d.setFile fd ((d.files fd).map fun h => { h with pos := offset })
  | .opendir path,.ok dir => d.setScan dir (some ⟨locate path,[],d.tree⟩)
  | .readdir dir,.ok (some de) => d.setScan dir ((d.scans dir).map fun s => { s with given := de.name.text :: s.given })
  | .closedir dir,_ => d.setScan dir none
  | .mkdir path _,.ok _ => { d with tree := d.tree.make (locate path) .dir }
  | .unlink path,.ok _ => { d with tree := d.tree.remove (locate path) }
  | _,_ => d

def filesystem : Setting Work Work.Answer Disk where
  can d
    | .fs call,answer => d.Allows call answer
    | _,_ => True
  next d
    | .fs call,answer => d.after call answer
    | _,_ => d

variable {names : List Bytes}

variable (named : ∀ name ∈ names, Named name)
include named

theorem namedWords : ∀ name ∈ names, Word slash name :=
  fun name member => (named name member).1.1

theorem locateJoined (root) :
    locate (root ++ separated slash names) = locate root ++ names := by
  have into : names.map move = names.map Move.into := by
    refine List.map_congr_left fun name member => ?_
    exact moveClean (named name member).1
  unfold locate
  rw [fieldsSeparated root (namedWords named),List.map_append,into]
  rw [walkAppend,walkNames]

theorem joinLocates {root path}
    (made : copyJoin root (relText names) = some path) : locate path = locate root ++ names := by
  have text := fittedSome made
  rw [← text]
  split
  · rename_i empty
    rw [(relNil (namedWords named)).mp empty,List.append_nil]
  rename_i some_
  have filled : names ≠ [] := fun empty => some_ (by simp [empty,relText])
  split
  · rename_i top
    rw [relSlash filled,top,show [slash] = ([] : Bytes) ++ [slash] from rfl]
    have joined := locateJoined named []
    simpa [locate,fields] using joined
  · rw [relSlash filled]
    exact locateJoined named root

theorem childLocates {name child}
    (made : copyChild (relText names) name = some child) : child = relText (names ++ [name]) :=
  (fittedSome made).symm.trans (relChild (namedWords named) name)

end OpenPs3Ftp.Copying
