import OpenPs3Ftp.Fs
import OpenPs3Ftp.Lib.Slots

/-! `pollset.c` of a POSIX build, where every allocation succeeds: an array of slots of
which the first is the wake pipe's. A removed slot is marked and used again. -/
namespace OpenPs3Ftp.Pollset
open Lib Fs

abbrev Mask := UInt16

def pollin : Mask := 1
def pollpri : Mask := 2
def pollout : Mask := 4
def pollerr : Mask := 8

abbrev Ptr := Nat

/- One element of `fds` with the one of `users`; no descriptor is -1. -/
structure Slot where
  fd : Option Fd
  events : Mask
  revents : Mask
  user : Option Ptr
  deriving DecidableEq

/- `entries` are the slots from 1 on, up to `count`. -/
structure Pollset where
  cap : Nat
  wake : Slot
  entries : List Slot
  room : entries.length + 1 ≤ cap

def create (wakeR : Fd) : Pollset := ⟨8,⟨some wakeR,pollin,0,none⟩,[],by decide⟩
def ensureCap (cap need : Nat) : Nat := if need ≤ cap then cap else cap * 2

theorem ensureCapRoom {cap count} (room : count + 1 ≤ cap) : count + 2 ≤ ensureCap cap (count + 2) := by
  unfold ensureCap
  split <;> omega

variable (p : Pollset) (handle : Nat)

def add (fd : Fd) (events : Mask) (user : Option Ptr) : Nat × Pollset :=
  match p.entries.findIdx? (·.fd.isNone) with
  | some free =>
    (free + 1,{ p with entries := p.entries.set free ⟨some fd,events,0,user⟩
                       room := by rw [List.length_set]; exact p.room })
  | none =>
    (p.entries.length + 1,
      { p with cap := ensureCap p.cap (p.entries.length + 2)
               entries := p.entries ++ [⟨some fd,events,0,user⟩]
               room := by rw [List.length_append]; exact ensureCapRoom p.room })

def at_ (change : Slot → Slot) : Pollset :=
  match handle with
  | 0 => p
  | index + 1 => { p with entries := p.entries.modify index change
                          room := by rw [List.length_modify]; exact p.room }

def mod (events : Mask) : Pollset := at_ p handle fun slot => { slot with events }

def remove : Pollset :=
  at_ p handle fun slot => { slot with fd := none, revents := 0, user := none }

/- `poll` stores a report for every slot that has a descriptor, and the wake pipe is
drained at once. -/
def reported (report : Nat → Mask) (handle : Nat) (slot : Slot) : Slot :=
  { slot with revents := if slot.fd.isSome then report handle else 0 }

def drained (slot : Slot) : Slot :=
  if slot.revents &&& (pollin ||| pollerr) = 0 then slot else { slot with revents := 0 }

def wait (report : Nat → Mask) : Pollset :=
  { p with wake := drained (reported report 0 p.wake)
           entries := p.entries.mapIdx fun index slot => reported report (index + 1) slot
           room := by rw [List.length_mapIdx]; exact p.room }

def ready (slot : Slot) : Bool := slot.fd.isSome ∧ slot.revents ≠ 0

def collect (max : Nat) : List (Option Ptr × Mask) :=
  ((p.entries.filter ready).map fun slot => (slot.user,slot.revents)).take max

def Slot.live (slot : Slot) : Option (Fd × Option Ptr) := slot.fd.map fun fd => (fd,slot.user)
def table : List (Option (Fd × Option Ptr)) := p.entries.map Slot.live

def view : Nat → Option (Fd × Option Ptr)
  | 0 => none
  | index + 1 => Slots.look (table p) index

def users : List Ptr := (table p).reduceOption.filterMap (·.2)

theorem liveNone (slot : Slot) : slot.live.isNone = slot.fd.isNone := by
  unfold Slot.live
  cases slot.fd <;> rfl

theorem addTable (p fd events user) :
    (add p fd events user).1 = (Slots.insert (table p) (fd,user)).1 + 1 ∧
      table (add p fd events user).2 = (Slots.insert (table p) (fd,user)).2 := by
  have same : (table p).findIdx? Option.isNone = p.entries.findIdx? (·.fd.isNone) := by
    rw [table,List.findIdx?_map]
    exact congrArg (fun q => p.entries.findIdx? q) (funext liveNone)
  unfold add Slots.insert
  rw [same]
  cases p.entries.findIdx? (·.fd.isNone) with
  | some free => exact ⟨rfl,by simp [table,Slot.live]⟩
  | none => exact ⟨by simp [table],by simp [table,Slot.live]⟩

theorem removeTable (p index) : table (remove p (index + 1)) = Slots.erase (table p) index := by
  simp only [table,remove,at_,Slots.erase]
  refine List.ext_getElem? fun other => ?_
  rw [List.getElem?_map,List.getElem?_modify,List.getElem?_set,List.getElem?_map]
  by_cases same : index = other
  · subst same
    cases found : p.entries[index]? with
    | none => simp [List.getElem?_eq_none_iff.mp found]
    | some slot => simp [(List.getElem?_eq_some_iff.mp found).1,Slot.live]
  · simp [same]

theorem modTable (p handle events) : table (mod p handle events) = table p := by
  cases handle with
  | zero => rfl
  | succ index =>
    simp only [table,mod,at_]
    refine List.ext_getElem? fun other => ?_
    rw [List.getElem?_map,List.getElem?_modify,List.getElem?_map]
    by_cases same : index = other
    · cases p.entries[other]? <;> simp [same,Slot.live]
    · simp [same]

theorem waitTable (p report) : table (wait p report) = table p := by
  simp only [table,wait]
  refine List.ext_getElem? fun other => ?_
  rw [List.getElem?_map,List.getElem?_mapIdx,List.getElem?_map]
  cases p.entries[other]? <;> simp [reported,Slot.live]

theorem viewAdd (p fd events user) :
    (add p fd events user).1 ≠ 0 ∧ view p (add p fd events user).1 = none ∧
      view (add p fd events user).2 = Function.update (view p) (add p fd events user).1 (some (fd,user)) := by
  obtain ⟨handle,now⟩ := addTable p fd events user
  obtain ⟨free,found⟩ := Slots.lookInsert (table p) (fd,user)
  rw [handle]
  refine ⟨Nat.succ_ne_zero _,free,funext fun other => ?_⟩
  cases other with
  | zero => rfl
  | succ index =>
    rw [view,now,found]
    simp [Function.update_apply,view]

theorem viewRemove (p handle) : view (remove p handle) = Function.update (view p) handle none := by
  funext other
  cases handle with
  | zero => cases other <;> simp [remove,at_,view]
  | succ index =>
    cases other with
    | zero => rfl
    | succ other =>
      rw [view,removeTable,Slots.lookErase]
      simp [Function.update_apply,view]

variable {p : Pollset}

theorem viewSame {q} (same : table q = table p) : view q = view p := by
  funext handle
  cases handle with
  | zero => rfl
  | succ index => rw [view,same,view]

theorem usersAdd (p fd events ptr) : (users (add p fd events (some ptr)).2).Perm (ptr :: users p) := by
  rw [users,(addTable p fd events (some ptr)).2]
  exact (Slots.insertMembers (table p) (fd,some ptr)).filterMap _

variable {handle : Nat} {fd : Fd} {ptr : Ptr}

theorem usersRemove (found : view p handle = some (fd,some ptr)) :
    (users p).Perm (ptr :: users (remove p handle)) := by
  cases handle with
  | zero => cases found
  | succ index =>
    rw [users,users,removeTable]
    exact (Slots.eraseMembers found).filterMap _

theorem usersSame {q} (same : table q = table p) : users q = users p := by rw [users,users,same]

theorem viewMember (found : view p handle = some (fd,some ptr)) :
    ptr ∈ users p := by
  cases handle with
  | zero => cases found
  | succ index => exact List.mem_filterMap.mpr ⟨_,Slots.lookMember found,rfl⟩

theorem viewOnce (once : (users p).Nodup) {other fd'} (left : view p handle = some (fd,some ptr))
    (right : view p other = some (fd',some ptr)) : handle = other := by
  cases handle with
  | zero => cases left
  | succ index =>
    cases other with
    | zero => cases right
    | succ index' => exact congrArg Nat.succ (Slots.lookOnce once left right rfl rfl)

theorem collectUsers (p max) : (collect p max).filterMap (·.1) |>.Sublist (users p) := by
  have all : ((p.entries.filter ready).filterMap Slot.user).Sublist (users p) := by
    unfold users table
    induction p.entries with
    | nil => exact .slnil
    | cons slot entries ih =>
      cases fd : slot.fd with
      | none =>
        have unready : ready slot = false := by simp [ready,fd]
        simpa [unready,Slot.live,fd] using ih
      | some number =>
        have live : slot.live = some (number,slot.user) := by simp [Slot.live,fd]
        have more : ∀ list, (List.filterMap Slot.user (slot :: list)).Sublist (slot.user.toList ++ List.filterMap Slot.user list) := by
          intro list
          cases user : slot.user <;> simp [user]
        have grown : (List.filterMap (fun x => x.2) (List.map Slot.live (slot :: entries)).reduceOption) =
            slot.user.toList ++ List.filterMap (fun x => x.2) (List.map Slot.live entries).reduceOption := by
          cases user : slot.user <;> simp [live,user]
        rw [grown]
        cases here : ready slot with
        | true =>
          rw [List.filter_cons_of_pos here]
          exact (more _).trans (ih.append_left _)
        | false =>
          rw [List.filter_cons_of_neg (by simp [here])]
          exact ih.trans (List.sublist_append_right _ _)
  have taken := (List.take_sublist max ((p.entries.filter ready).map fun slot => (slot.user,slot.revents))).filterMap (·.1)
  rw [List.filterMap_map] at taken
  exact taken.trans all

end OpenPs3Ftp.Pollset
