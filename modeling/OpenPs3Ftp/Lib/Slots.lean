import Mathlib.Data.List.ReduceOption
import Mathlib.Data.List.Perm.Basic

/-! Tables with stable handles. A new entry goes to the first free slot, or to the end
when there is none, and stays there until it is removed. -/
namespace OpenPs3Ftp.Lib.Slots
variable {α β : Type}

def look (slots : List (Option α)) (handle : Nat) : Option α := (slots[handle]?).join

def insert (slots : List (Option α)) (a : α) : Nat × List (Option α) :=
  match slots.findIdx? Option.isNone with
  | some free => (free,slots.set free (some a))
  | none => (slots.length,slots ++ [some a])

def erase (slots : List (Option α)) (handle : Nat) : List (Option α) := slots.set handle none

theorem lookErase (slots : List (Option α)) (handle other : Nat) :
    look (erase slots handle) other = if other = handle then none else look slots other := by
  unfold look erase
  rw [List.getElem?_set]
  by_cases same : other = handle
  · subst same
    by_cases inside : other < slots.length <;> simp [inside]
  · simp [same,Ne.symm same]

theorem lookInsert (slots : List (Option α)) (a) :
    look slots (insert slots a).1 = none ∧
      ∀ handle, look (insert slots a).2 handle = if handle = (insert slots a).1 then some a else look slots handle := by
  unfold insert
  cases found : slots.findIdx? Option.isNone with
  | some free =>
    obtain ⟨inside,empty,-⟩ := List.findIdx?_eq_some_iff_getElem.mp found
    have none_ : slots[free]? = some none := by
      rw [List.getElem?_eq_getElem inside]
      exact congrArg some (Option.isNone_iff_eq_none.mp empty)
    refine ⟨by simp [look,none_],fun handle => ?_⟩
    unfold look
    rw [List.getElem?_set]
    by_cases same : handle = free
    · subst same
      simp [inside]
    · simp [same,Ne.symm same]
  | none =>
    refine ⟨by simp [look],fun handle => ?_⟩
    unfold look
    rcases Nat.lt_trichotomy handle slots.length with less | same | more
    · rw [List.getElem?_append_left less,if_neg (Nat.ne_of_lt less)]
    · subst same
      simp
    · rw [if_neg (Nat.ne_of_gt more),List.getElem?_eq_none (by simp; omega),List.getElem?_eq_none (Nat.le_of_lt more)]

variable {slots : List (Option α)} {handle : Nat} {a : α}

theorem lookMember (found : look slots handle = some a) :
    a ∈ slots.reduceOption := by
  rw [look,Option.join_eq_some_iff] at found
  exact List.reduceOption_mem_iff.mpr (List.mem_of_getElem? found)

theorem eraseMembers (found : look slots handle = some a) :
    slots.reduceOption.Perm (a :: (erase slots handle).reduceOption) := by
  induction slots generalizing handle with
  | nil => simp [look] at found
  | cons first rest ih =>
    cases handle with
    | zero =>
      have is : first = some a := by simpa [look] using found
      subst is
      simp [erase]
    | succ handle =>
      have later : look rest handle = some a := by simpa [look] using found
      have rest_ := ih later
      cases first with
      | none => simpa [erase] using rest_
      | some b => simpa [erase] using (rest_.cons b).trans (List.Perm.swap a b _)

theorem insertMembers (slots : List (Option α)) (a) :
    (insert slots a).2.reduceOption.Perm (a :: slots.reduceOption) := by
  obtain ⟨free,now⟩ := lookInsert slots a
  have added := eraseMembers (show look (insert slots a).2 (insert slots a).1 = some a by rw [now,if_pos rfl])
  refine added.trans (List.Perm.cons a (List.Perm.of_eq ?_))
  unfold insert
  cases found : slots.findIdx? Option.isNone with
  | some free =>
    obtain ⟨inside,empty,-⟩ := List.findIdx?_eq_some_iff_getElem.mp found
    have same : slots.set free none = slots := by
      rw [← Option.isNone_iff_eq_none.mp empty,List.set_getElem_self]
    simp [erase,same]
  | none => simp [erase,List.reduceOption_append]

theorem lookOnce {key : α → Option β} (once : (slots.reduceOption.filterMap key).Nodup) {other : Nat} {b k}
    (left : look slots handle = some a) (right : look slots other = some b) (keyA : key a = some k)
    (keyB : key b = some k) : handle = other := by
  by_contra apart
  have rest : look (erase slots handle) other = some b := by rw [lookErase,if_neg (Ne.symm apart),right]
  have twice : (k :: (erase slots handle).reduceOption.filterMap key).Nodup := by
    have all := ((eraseMembers left).filterMap key).nodup_iff.mp once
    rwa [List.filterMap_cons_some keyA] at all
  exact (List.nodup_cons.mp twice).1 (List.mem_filterMap.mpr ⟨b,lookMember rest,keyB⟩)

end OpenPs3Ftp.Lib.Slots
