import Mathlib.Data.List.Basic

/-! Lexical walking of a stack: stay, pop and clamp at the bottom, or push. The
result from any starting stack is the result from the empty one put on what is
left of the start, and what is left depends only on how far the walk climbs. -/
namespace OpenPs3Ftp.Lib
variable {α : Type}

inductive Move (α : Type) where
  | stay
  | up
  | into (name : α)
  deriving DecidableEq, Repr

def walk (stack : List α) : List (Move α) → List α
  | [] => stack
  | .stay :: moves => walk stack moves
  | .up :: moves => walk stack.dropLast moves
  | .into name :: moves => walk (stack ++ [name]) moves

/- How many entries of the start are popped, `own` being those pushed since. -/
def climb : Nat → List (Move α) → Nat
  | _, [] => 0
  | own, .stay :: moves => climb own moves
  | 0, .up :: moves => climb 0 moves + 1
  | own + 1, .up :: moves => climb own moves
  | own, .into _ :: moves => climb (own + 1) moves

theorem walkOver (start own : List α) (moves) :
    walk (start ++ own) moves = start.take (start.length - climb own.length moves) ++ walk own moves := by
  induction moves generalizing start own with
  | nil => simp [walk,climb]
  | cons move moves ih =>
    cases move with
    | stay => simpa [walk,climb] using ih start own
    | into name => simpa [walk,climb] using ih start (own ++ [name])
    | up =>
      rcases own.eq_nil_or_concat with rfl | ⟨rest,last,rfl⟩
      · have shorter := ih start.dropLast []
        simp only [List.append_nil,List.length_nil] at shorter
        simp only [walk,climb,List.append_nil,List.length_nil,List.dropLast_nil,shorter]
        rw [List.dropLast_eq_take,List.take_take,List.length_take]
        congr 2
        omega
      · have shorter := ih start rest
        simpa [walk,climb,← List.append_assoc] using shorter

theorem walkFrom (start : List α) (moves) :
    walk start moves = start.take (start.length - climb 0 moves) ++ walk [] moves := by
  simpa using walkOver start [] moves

/- Two starts that the walk climbs out of lead to the same place. -/
theorem walkForgets {start other : List α} {moves} (out : start.length ≤ climb 0 moves)
    (outToo : other.length ≤ climb 0 moves) : walk start moves = walk other moves := by
  rw [walkFrom start,walkFrom other,Nat.sub_eq_zero_of_le out,Nat.sub_eq_zero_of_le outToo]
  simp

theorem walkAppend (start : List α) (first second : List (Move α)) :
    walk start (first ++ second) = walk (walk start first) second := by
  induction first generalizing start with
  | nil => rfl
  | cons move first ih => cases move <;> simpa [walk] using ih _

theorem walkNames (start) (names : List α) : walk start (names.map Move.into) = start ++ names := by
  induction names generalizing start with
  | nil => simp [walk]
  | cons name names ih => simpa [walk] using ih (start ++ [name])

/- The same walk on a stack with room for `cap` entries: a push on a full stack is lost. -/
def walkCapped (cap : Nat) (stack : List α) : List (Move α) → List α
  | [] => stack
  | .stay :: moves => walkCapped cap stack moves
  | .up :: moves => walkCapped cap stack.dropLast moves
  | .into name :: moves => walkCapped cap (if stack.length < cap then stack ++ [name] else stack) moves

def HasRoom (cap : Nat) : Nat → List (Move α) → Prop
  | _, [] => True
  | height, .stay :: moves => HasRoom cap height moves
  | height, .up :: moves => HasRoom cap (height - 1) moves
  | height, .into _ :: moves => height < cap ∧ HasRoom cap (height + 1) moves

instance HasRoom.decide (cap : Nat) : (height : Nat) → (moves : List (Move α)) →
    Decidable (HasRoom cap height moves)
  | _, [] => isTrue trivial
  | height, .stay :: moves => HasRoom.decide cap height moves
  | height, .up :: moves => HasRoom.decide cap (height - 1) moves
  | height, .into _ :: moves =>
    have := HasRoom.decide cap (height + 1) moves
    inferInstanceAs (Decidable (height < cap ∧ HasRoom cap (height + 1) moves))

theorem hasRoomShort {cap height} {moves : List (Move α)} (short : height + moves.length ≤ cap) :
    HasRoom cap height moves := by
  induction moves generalizing height with
  | nil => trivial
  | cons move moves ih =>
    simp only [List.length_cons] at short
    cases move with
    | stay | up => exact ih (by omega)
    | into name => exact ⟨by omega,ih (by omega)⟩

theorem walkCappedRoom {cap} {stack : List α} {moves} (room : HasRoom cap stack.length moves) :
    walkCapped cap stack moves = walk stack moves := by
  induction moves generalizing stack with
  | nil => rfl
  | cons move moves ih =>
    cases move with
    | stay => exact ih room
    | up => exact ih (by simpa [HasRoom] using room)
    | into name =>
      simp only [walkCapped,walk,if_pos room.1]
      exact ih (by simpa using room.2)

/- How many entries the capped walk is short of in the end. A lost push makes it one more,
and going up from the empty stack makes up for one. -/
def missing (cap : Nat) : Nat → Nat → List (Move α) → Nat
  | _, short, [] => short
  | height, short, .stay :: moves => missing cap height short moves
  | 0, short, .up :: moves => missing cap 0 (short - 1) moves
  | height + 1, short, .up :: moves => missing cap height short moves
  | height, short, .into _ :: moves =>
    if height < cap then missing cap (height + 1) short moves else missing cap height (short + 1) moves

theorem missingKeeps {cap short} {full stack : List α} {moves} (behind : full.length = stack.length + short)
    (level : short = 0 → full = stack) :
    (walk full moves).length = (walkCapped cap stack moves).length + missing cap stack.length short moves ∧
      (missing cap stack.length short moves = 0 → walkCapped cap stack moves = walk full moves) := by
  induction moves generalizing full stack short with
  | nil => exact ⟨behind,fun none_ => (level none_).symm⟩
  | cons move moves ih =>
    cases move with
    | stay => exact ih behind level
    | up =>
      cases stack with
      | nil =>
        refine ih (by simp [behind]) fun caught => List.eq_nil_of_length_eq_zero ?_
        simp only [List.length_dropLast,behind,List.length_nil]
        omega
      | cons name stack =>
        have shorter := @ih short full.dropLast (name :: stack).dropLast (by simp [behind]) fun caught =>
          congrArg List.dropLast (level caught)
        simpa [walk,walkCapped,missing] using shorter
    | into name =>
      by_cases room : stack.length < cap
      · have longer := @ih short (full ++ [name]) (stack ++ [name]) (by simp [behind]; omega) fun caught => by rw [level caught]
        simpa [walk,walkCapped,missing,room] using longer
      · have lost := @ih (short + 1) (full ++ [name]) stack (by simp [behind]; omega) fun caught => by omega
        simpa [walk,walkCapped,missing,room] using lost

theorem walkCappedExact {cap} {stack : List α} {moves} :
    walkCapped cap stack moves = walk stack moves ↔ missing cap stack.length 0 moves = 0 := by
  obtain ⟨length,exact_⟩ := @missingKeeps _ cap 0 stack stack moves rfl fun _ => rfl
  refine ⟨fun same => ?_,exact_⟩
  rw [same] at length
  omega

theorem walkCappedKeeps {P : α → Prop} {cap : Nat} {start : List α} {moves : List (Move α)}
    (old : ∀ name ∈ start, P name) (new : ∀ name, Move.into name ∈ moves → P name) :
    ∀ name ∈ walkCapped cap start moves, P name := by
  induction moves generalizing start with
  | nil => simpa [walkCapped] using old
  | cons move moves ih =>
    have later : ∀ name, Move.into name ∈ moves → P name := fun name member => new name (by simp [member])
    cases move with
    | stay => exact ih old later
    | up => exact ih (fun name member => old name (List.dropLast_subset start member)) later
    | into name =>
      refine ih (fun other member => ?_) later
      split at member
      · rcases List.mem_append.mp member with member | member
        · exact old other member
        · exact new other (by simp_all)
      · exact old other member

end OpenPs3Ftp.Lib
