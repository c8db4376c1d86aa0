import Mathlib.Data.List.Basic

/-! Lines of facts and a name. Each fact is a name, `=` and a value, and a semicolon closes it;
then a space, and the name up to the end of the line. -/
namespace OpenPs3Ftp.Lib.Facts

abbrev Fact := List UInt8 × List UInt8

def text (fact : Fact) : List UInt8 := fact.1 ++ 61 :: fact.2
def joined (facts : List Fact) : List UInt8 := facts.flatMap fun fact => text fact ++ [59]
def write (facts : List Fact) (name : List UInt8) : List UInt8 := joined facts ++ 32 :: (name ++ [13,10])
def factOf (text : List UInt8) : Fact := (text.takeWhile (· ≠ 61),(text.dropWhile (· ≠ 61)).drop 1)
def factsOf (line : List UInt8) : List Fact := ((line.takeWhile (· ≠ 32)).splitOnP (· = 59)).dropLast.map factOf

def untilCrlf : List UInt8 → List UInt8
  | 13 :: 10 :: _ => []
  | b :: rest => b :: untilCrlf rest
  | [] => []

def nameOf (line : List UInt8) : List UInt8 := untilCrlf ((line.dropWhile (· ≠ 32)).drop 1)
def Plain (fact : Fact) : Prop := 61 ∉ fact.1 ∧ 59 ∉ text fact ∧ 32 ∉ text fact

theorem cutAt {front : List UInt8} {b} (absent : b ∉ front) (back : List UInt8) :
    (front ++ b :: back).takeWhile (· ≠ b) = front ∧ (front ++ b :: back).dropWhile (· ≠ b) = b :: back := by
  have before : ∀ c ∈ front, decide (c ≠ b) = true := fun c member => by simpa using ne_of_mem_of_not_mem member absent
  rw [List.takeWhile_append_of_pos before,List.dropWhile_append_of_pos before]
  simp

theorem lineName {name} (bare : 13 ∉ name) : untilCrlf (name ++ [13,10]) = name := by
  induction name with
  | nil => rfl
  | cons b name ih =>
    obtain ⟨other,later⟩ := List.ne_and_not_mem_of_not_mem_cons bare
    rw [List.cons_append,untilCrlf,ih later]
    rintro rest rfl; exact absurd rfl other

section
variable {facts : List Fact} {name : List UInt8}

theorem splitJoined (plain : ∀ fact ∈ facts, Plain fact) :
    (joined facts).splitOnP (· = 59) = facts.map text ++ [[]] ∧ 32 ∉ joined facts := by
  induction facts with
  | nil => exact ⟨rfl,by simp [joined]⟩
  | cons fact facts ih =>
    obtain ⟨⟨-,closed,solid⟩,later⟩ := List.forall_mem_cons.mp plain
    obtain ⟨split,spaceless⟩ := ih later
    rw [joined,List.flatMap_cons,List.append_assoc,List.singleton_append]
    change List.splitOnP _ (_ ++ 59 :: joined facts) = _ ∧ 32 ∉ text fact ++ 59 :: joined facts
    refine ⟨?_,by simp [solid,spaceless]⟩
    rw [List.splitOnP_append_cons_of_forall_mem (fun b member => by simpa using ne_of_mem_of_not_mem member closed) _ (by simp)]
    exact congrArg (text fact :: ·) split

theorem factsWritten (plain : ∀ fact ∈ facts, Plain fact) (name : List UInt8) : factsOf (write facts name) = facts := by
  obtain ⟨split,spaceless⟩ := splitJoined plain
  rw [factsOf,write,(cutAt spaceless _).1,split,List.dropLast_concat,List.map_map]
  refine (List.map_congr_left fun fact member => ?_).trans (List.map_id facts)
  have cut := cutAt (plain fact member).1 fact.2
  exact Prod.ext cut.1 (congrArg (List.drop 1) cut.2)

theorem nameWritten (plain : ∀ fact ∈ facts, Plain fact) (bare : 13 ∉ name) : nameOf (write facts name) = name := by
  rw [nameOf,write,(cutAt (splitJoined plain).2 _).2]
  exact lineName bare

end
end OpenPs3Ftp.Lib.Facts
