import Mathlib.Data.List.Basic

/-! Writing into a sequence at a position. What lies between its end and a position
beyond it is filled up; writing nothing changes nothing. -/
namespace OpenPs3Ftp.Lib
variable {α : Type} (fill : α)

def splice (old : List α) (pos : Nat) (new : List α) : List α :=
  if new.isEmpty then old
  else (old ++ List.replicate (pos - old.length) fill).take pos ++ new ++ old.drop (pos + new.length)

variable {fill}

@[simp] theorem spliceNone (old pos) : splice fill old pos [] = old := rfl

theorem spliceSome {old new} (pos) (some_ : new ≠ []) : splice fill old pos new =
    (old ++ List.replicate (pos - old.length) fill).take pos ++ new ++ old.drop (pos + new.length) := by
  cases new with
  | nil => exact absurd rfl some_
  | cons head tail => rfl

theorem spliceEnd (old new) : splice fill old old.length new = old ++ new := by
  cases new with
  | nil => simp
  | cons head tail => simp [splice]

theorem spliceAppend (old first second pos) :
    splice fill (splice fill old pos first) (pos + first.length) second = splice fill old pos (first ++ second) := by
  by_cases empty : first = []
  · simp [empty]
  by_cases none_ : second = []
  · simp [none_]
  have front : ((old ++ List.replicate (pos - old.length) fill).take pos).length = pos := by
    simp only [List.length_take,List.length_append,List.length_replicate]
    omega
  have written : ((old ++ List.replicate (pos - old.length) fill).take pos ++ first).length = pos + first.length := by
    rw [List.length_append,front]
  have both : first ++ second ≠ [] := by simp [empty]
  rw [spliceSome pos empty,spliceSome _ none_,spliceSome pos both]
  generalize (old ++ List.replicate (pos - old.length) fill).take pos = head at front written ⊢
  have room : pos + first.length - (head ++ first ++ old.drop (pos + first.length)).length = 0 := by
    rw [List.length_append,written]
    omega
  have begun : (head ++ first ++ old.drop (pos + first.length)).take (pos + first.length) = head ++ first := by
    rw [← written,List.take_left]
  have rest : (head ++ first ++ old.drop (pos + first.length)).drop (pos + first.length + second.length) =
      old.drop (pos + (first ++ second).length) := by
    rw [← List.drop_drop,← written,List.drop_left,written,List.drop_drop,List.length_append,Nat.add_assoc]
  rw [room,List.replicate_zero,List.append_nil,begun,rest,List.append_assoc head first second]

end OpenPs3Ftp.Lib
