import OpenPs3Ftp.Resolve

/-! The backend interface of `openps3ftp.h` and the per-server rooted wrapper of
`fs_rooted.c`. A call returns an error number or its result; which one is up to
the backend. The link check of the wrapper is a parameter here. -/
namespace OpenPs3Ftp.Fs
open Text Resolve

inductive Errno where
  | enoent | eacces | eperm | enotdir | eisdir | einval | enametoolong | eloop | ecanceled | epipe
  | econnreset | etimedout | eagain | eio | enomem | enotsup | enotconn | eexist | eoverflow
  | other (code : Nat)
  deriving DecidableEq, Repr, Inhabited

/- `st_mode`; the type is the `S_IFMT` field. -/
abbrev Mode := UInt16
def typeMask : Mode := 0o170000
def isDir (mode : Mode) : Bool := mode &&& typeMask = 0o040000
def isReg (mode : Mode) : Bool := mode &&& typeMask = 0o100000

structure Stat where
  mode : Mode
  size : UInt64
  mtime : Int
  uid : UInt32
  gid : UInt32
  deriving DecidableEq, Repr

def plainFile : Stat := ⟨0o100644,1,0,0,0⟩
def directory : Stat := ⟨0o040755,0,0,0,0⟩

structure Dirent where
  name : Buffer 256
  mode : Mode
  size : UInt64
  mtime : Int
  uid : UInt32
  gid : UInt32
  deriving DecidableEq, Repr

inductive Access where | rdonly | wronly | rdwr
  deriving DecidableEq, Repr

structure OpenFlags where
  access : Access
  creat : Bool
  trunc : Bool
  append : Bool
  deriving DecidableEq, Repr

abbrev Fd := Nat

inductive FsCall where
  | openFile (path : Bytes) (flags : OpenFlags) (mode : Mode)
  | close (fd : Fd)
  | read (fd : Fd) (size : Nat)
  | write (fd : Fd) (bytes : Bytes)
  | seek (fd : Fd) (offset : Nat)
  | fstat (fd : Fd)
  | stat (path : Bytes)
  | opendir (path : Bytes)
  | readdir (dir : Fd)
  | closedir (dir : Fd)
  | mkdir (path : Bytes) (mode : Mode)
  | rmdir (path : Bytes)
  | unlink (path : Bytes)
  | rename (old new : Bytes)
  | chmod (path : Bytes) (mode : Mode)
  | utimes (path : Bytes) (mtime : Int)
  deriving DecidableEq, Repr

abbrev FsCall.Answer : FsCall → Type
  | .openFile .. => Except Errno Fd
  | .close _ => Except Errno Unit
  | .read .. => Except Errno Bytes
  | .write .. => Except Errno Nat
  | .seek .. => Except Errno Nat
  | .fstat _ => Except Errno Stat
  | .stat _ => Except Errno Stat
  | .opendir _ => Except Errno Fd
  | .readdir _ => Except Errno (Option Dirent)
  | .closedir _ => Unit
  | .mkdir .. => Except Errno Unit
  | .rmdir _ => Except Errno Unit
  | .unlink _ => Except Errno Unit
  | .rename .. => Except Errno Unit
  | .chmod .. => Except Errno Unit
  | .utimes .. => Except Errno Unit

def errorOf {α : Type} : Except Errno α → Option Errno
  | .error e => some e
  | .ok _ => none

def FsCall.error : (call : FsCall) → call.Answer → Option Errno
  | .openFile ..,answer | .close _,answer | .read ..,answer | .write ..,answer | .seek ..,answer | .fstat _,answer
  | .stat _,answer | .opendir _,answer | .readdir _,answer | .mkdir ..,answer | .rmdir _,answer | .unlink _,answer
  | .rename ..,answer | .chmod ..,answer | .utimes ..,answer => errorOf answer
  | .closedir _,_ => none

def FsCall.paths : FsCall → List Bytes
  | .openFile path _ _ | .stat path | .opendir path | .mkdir path _ | .rmdir path | .unlink path
  | .chmod path _ | .utimes path _ => [path]
  | .rename old new => [old,new]
  | .close _ | .read .. | .write .. | .seek .. | .fstat _ | .readdir _ | .closedir _ => []

structure Rooted where
  root : Buffer 1024
  checkRealpath : Bool
  deriving DecidableEq

theorem trimLength (text) : (trimSlashes text).length ≤ text.length := by
  unfold trimSlashes
  split
  · simp only [List.length_take]
    omega
  · exact (List.rdropWhile_prefix _ text).length_le

/- `opftp_fs_rooted` over the POSIX backend or another one. -/
def fsRooted (posix : Bool) (root : Bytes) : Option Rooted :=
  if root.head? ≠ some slash then none else
    let kept := Buffer.print 1023 root
    some ⟨⟨trimSlashes kept.text,Nat.lt_of_le_of_lt (trimLength _) kept.fits⟩,posix⟩

def underRoot (root path : Bytes) : Bool :=
  if path.take root.length ≠ root then false
  else if root.length = 1 then path.head? = some slash
  else (path.drop root.length).head? = none ∨ (path.drop root.length).head? = some slash

/- `check`; `contained` stands for `realpath_contained`, `stale` for the errno it leaves. -/
def check (r : Rooted) (contained : Bytes → Bool) (stale : Errno) (path : Bytes) : Except Errno Unit :=
  if ¬ underRoot r.root.text path then .error .eacces
  else if r.checkRealpath ∧ ¬ contained path then .error (if stale = .enoent then .enoent else .eacces)
  else .ok ()

def checkAll (r : Rooted) (contained : Bytes → Bool) (stale : Errno) : List Bytes → Except Errno Unit
  | [] => .ok ()
  | path :: rest =>
    match check r contained stale path with
    | .error e => .error e
    | .ok () => checkAll r contained stale rest

/- Every wrapper operation checks its paths and passes the call on unchanged;
`r_rename` alone hides which errno the check left. -/
def forward (r : Rooted) (contained : Bytes → Bool) (stale : Errno) (call : FsCall) : Except Errno FsCall :=
  match checkAll r contained stale call.paths with
  | .ok () => .ok call
  | .error e =>
    match call with
    | .rename .. => .error .eacces
    | _ => .error e

theorem checkUnder {r contained stale path} (passed : check r contained stale path = .ok ()) :
    underRoot r.root.text path = true := by
  unfold check at passed
  split at passed
  · contradiction
  · simp_all

theorem checkAllUnder {r contained stale paths} (passed : checkAll r contained stale paths = .ok ()) :
    ∀ path ∈ paths, underRoot r.root.text path = true := by
  induction paths with
  | nil => simp
  | cons path rest ih =>
    unfold checkAll at passed
    split at passed
    · contradiction
    rename_i first
    intro other member
    rcases List.mem_cons.mp member with rfl | member
    · exact checkUnder first
    · exact ih passed other member

theorem forwardUnder {r contained stale call passed} (ok : forward r contained stale call = .ok passed) :
    passed = call ∧ ∀ path ∈ call.paths, underRoot r.root.text path = true := by
  unfold forward at ok
  split at ok
  · rename_i all
    exact ⟨(Except.ok.inj ok).symm,checkAllUnder all⟩
  · split at ok <;> contradiction

end OpenPs3Ftp.Fs
