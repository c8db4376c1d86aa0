import OpenPs3Ftp.Text

/-! The text walkers of the terminal UI (`tui.c`). They step by what a lead byte promises,
and nothing is where a step leaves the string and its terminator behind. -/
namespace OpenPs3Ftp.Tui
open Text

def charLen (b : UInt8) : Nat := if b < 0x80 then 1 else if b < 0xE0 then 2 else if b < 0xF0 then 3 else 4

-- the characters gone over and what is left, until `limit` of them or no `room` at the offset
def walk (room : Nat → Bool) : Nat → Nat → Bytes → Option (List Bytes × Bytes)
  | 0,_,text => some ([],text)
  | _ + 1,_,[] => some ([],[])
  | limit + 1,o,b :: text =>
    if room o then
      if charLen b ≤ text.length + 1 then do
        let (cells,rest) ← walk room limit (o + charLen b) ((b :: text).drop (charLen b))
        return ((b :: text).take (charLen b) :: cells,rest)
      else none
    else some ([],b :: text)

def uw (text : Bytes) : Option Nat := do
  let (cells,_) ← walk (fun _ => true) text.length 0 text
  return cells.length

def put (space : Nat) (text : Bytes) : Option (List Bytes) := do
  let (cells,_) ← walk (fun _ => true) space 0 text
  return cells

def ellipsis : Bytes := [0xE2,0x80,0xA6]

def tTrunc (n : Nat) (maxchars : Int) (text : Bytes) : Option Bytes := do
  let (cells,rest) ← walk (· + 8 ≤ n) (max maxchars 1).toNat 0 text
  return if rest ≠ [] ∧ cells.flatten.length + 4 < n then cells.flatten ++ ellipsis else cells.flatten

inductive Framed : Bytes → Prop where
  | nil : Framed []
  | char {b text} (whole : charLen b ≤ text.length + 1) (later : Framed ((b :: text).drop (charLen b))) : Framed (b :: text)

theorem charLenBounds (b) : 1 ≤ charLen b ∧ charLen b ≤ 4 := by
  unfold charLen
  split_ifs <;> decide

section
variable {room : Nat → Bool} {limit o : Nat} {text rest : Bytes} {cells : List Bytes}

theorem walkReturns (limit o) (framed : Framed text) : ∃ result, walk room limit o text = some result := by
  induction limit generalizing o text with
  | zero => exact ⟨_,rfl⟩
  | succ limit ih =>
    cases framed with
    | nil => exact ⟨_,rfl⟩
    | @char b text whole later =>
      obtain ⟨result,found⟩ := ih (o + charLen b) later
      simp only [walk,if_pos whole,found]
      split <;> exact ⟨_,rfl⟩

theorem walkFrames {result} (enough : text.length ≤ limit) (found : walk (fun _ => true) limit o text = some result) :
    Framed text := by
  induction limit generalizing o text result with
  | zero =>
    rw [List.eq_nil_of_length_eq_zero (Nat.le_zero.mp enough)]
    exact .nil
  | succ limit ih =>
    cases text with
    | nil => exact .nil
    | cons b text =>
      simp only [walk,if_true] at found
      split at found
      · rename_i whole
        obtain ⟨later,inner,-⟩ := Option.bind_eq_some_iff.mp found
        refine .char whole (ih ?_ inner)
        have step := (charLenBounds b).1
        simp at enough ⊢
        omega
      · cases found

theorem walkBounds (found : walk room limit o text = some (cells,rest)) :
    cells.length ≤ limit ∧ (∀ ch ∈ cells, ch.length ≤ 4) ∧
      ∀ cap, (∀ o, room o → o + 4 ≤ cap) → o + cells.flatten.length ≤ max o cap := by
  induction limit generalizing o text cells with
  | zero =>
    cases found
    simp
  | succ limit ih =>
    cases text with
    | nil =>
      cases found
      simp
    | cons b text =>
      simp only [walk] at found
      split at found
      · split at found
        · obtain ⟨⟨later,_⟩,inner,same⟩ := Option.bind_eq_some_iff.mp found
          cases same
          obtain ⟨few,small,short⟩ := ih inner
          have step := (charLenBounds b).2
          refine ⟨Nat.succ_le_succ few,List.forall_mem_cons.mpr ⟨by simp; omega,small⟩,fun cap fits => ?_⟩
          have near := fits o ‹_›
          have short := short cap fits
          simp at short ⊢
          omega
        · cases found
      · cases found
        simp

end

end OpenPs3Ftp.Tui
