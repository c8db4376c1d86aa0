import Mathlib.Data.Nat.ModEq
import Mathlib.Data.List.Basic

/-! Circular buffers: an array of cells, the index of the oldest item, the index of the
next free cell and a count. A ring stands for the list of its items, oldest first;
pushing appends to that list and popping takes its head. -/
namespace OpenPs3Ftp.Lib

structure RingBuffer (α : Type) where
  cells : List (Option α)
  head : Nat
  tail : Nat
  count : Nat
  deriving DecidableEq

namespace RingBuffer
variable {α : Type} {size : Nat} {r : RingBuffer α} {items : List α} {a : α}

def make (α : Type) (size : Nat) : RingBuffer α := ⟨List.replicate size none,0,0,0⟩

def push (r : RingBuffer α) (a : α) : Option (RingBuffer α) :=
  if r.count ≥ r.cells.length then none
  else some ⟨r.cells.set r.tail (some a),r.head,(r.tail + 1) % r.cells.length,r.count + 1⟩

def pop (r : RingBuffer α) : Option α × RingBuffer α :=
  (r.cells.getD r.head none,{ r with head := (r.head + 1) % r.cells.length, count := r.count - 1 })

structure Holds (size : Nat) (r : RingBuffer α) (items : List α) : Prop where
  cells : r.cells.length = size
  head : r.head < size
  tail : r.tail = (r.head + r.count) % size
  count : r.count = items.length
  few : r.count ≤ size
  item : ∀ i a, items[i]? = some a → r.cells[(r.head + i) % size]? = some (some a)

theorem holdsMake (positive : 0 < size) : Holds size (make α size) [] where
  cells := List.length_replicate
  head := positive
  tail := by simp [make]
  count := rfl
  few := Nat.zero_le _
  item := by simp

theorem offsetsApart {head i j} (less : i < j) (bound : j < size) : (head + i) % size ≠ (head + j) % size := by
  intro same
  have cong : i ≡ j [MOD size] := Nat.ModEq.add_left_cancel' head same
  rw [Nat.ModEq,Nat.mod_eq_of_lt (by omega),Nat.mod_eq_of_lt bound] at cong
  omega

theorem Holds.pushNone (holds : Holds size r items) : r.push a = none ↔ items.length = size := by
  have few := holds.few
  rw [push,holds.cells,holds.count]
  rw [holds.count] at few
  split <;> simp <;> omega

theorem Holds.push {r'} (holds : Holds size r items) (pushed : r.push a = some r') :
    Holds size r' (items ++ [a]) := by
  unfold RingBuffer.push at pushed
  split at pushed
  · cases pushed
  rename_i room
  obtain rfl := Option.some.inj pushed
  have positive : 0 < size := Nat.lt_of_le_of_lt (Nat.zero_le _) holds.head
  have less : r.count < size := by
    rw [holds.cells] at room
    omega
  refine ⟨?_,holds.head,?_,?_,less,?_⟩
  · rw [List.length_set,holds.cells]
  · rw [holds.cells,holds.tail,Nat.mod_add_mod,Nat.add_assoc]
  · rw [List.length_append,List.length_singleton,holds.count]
  intro i b found
  rcases Nat.lt_trichotomy i items.length with before | rfl | after
  · have apart := @offsetsApart size r.head i r.count (by rw [holds.count]; exact before) less
    rw [List.getElem?_append_left before] at found
    rw [List.getElem?_set_ne (by rw [holds.tail]; exact apart.symm)]
    exact holds.item i b found
  · obtain rfl : a = b := by simpa using found
    rw [holds.tail,holds.count,List.getElem?_set_self]
    rw [holds.cells]
    exact Nat.mod_lt _ positive
  · rw [List.getElem?_eq_none (by simp; omega)] at found
    cases found

theorem Holds.pop (holds : Holds size r (a :: items)) : r.pop.1 = some a ∧ Holds size r.pop.2 items := by
  have positive : 0 < size := Nat.lt_of_le_of_lt (Nat.zero_le _) holds.head
  have count : r.count = items.length + 1 := holds.count
  have few := holds.few
  refine ⟨?_,holds.cells,?_,?_,?_,?_,?_⟩
  · have first := holds.item 0 a rfl
    rw [Nat.add_zero,Nat.mod_eq_of_lt holds.head] at first
    rw [RingBuffer.pop,List.getD_eq_getElem?_getD,first]
    rfl
  · rw [RingBuffer.pop,holds.cells]
    exact Nat.mod_lt _ positive
  · simp only [RingBuffer.pop,holds.cells,holds.tail,count,Nat.mod_add_mod,Nat.add_sub_cancel]
    rw [Nat.add_right_comm,Nat.add_assoc]
  · rw [RingBuffer.pop,count]
    rfl
  · rw [RingBuffer.pop]
    exact Nat.le_trans (Nat.sub_le _ _) few
  intro i b found
  have next := holds.item (i + 1) b (by simpa using found)
  rw [RingBuffer.pop,holds.cells,Nat.mod_add_mod,Nat.add_right_comm]
  exact next

end RingBuffer
end OpenPs3Ftp.Lib
