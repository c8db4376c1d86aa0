import Mathlib.Algebra.Group.Action.Defs
import Mathlib.Algebra.Order.BigOperators.Group.List
import Mathlib.Tactic.IntervalCases
import Mathlib.Tactic.Ring
import OpenPs3Ftp.Tui

/-! The frame of the terminal UI (`frame_emit`). It is allocated with 26 bytes for a cell,
and a cell that changes both colours takes 49 with the reset of its pen. -/
namespace OpenPs3Ftp.Frame
open Text Tui

structure Cell where
  fg : UInt32
  bg : UInt32
  s : Buffer 8
  deriving DecidableEq

/- What the renderer writes of its own, and what it copies out of a cell. -/
inductive Piece where
  | code (bytes : Bytes)
  | text (bytes : Bytes)

def Piece.bytes : Piece → Bytes
  | .code bytes | .text bytes => bytes

def written (pieces : List Piece) : Bytes := pieces.flatMap Piece.bytes
def esc (s : String) : Bytes := 27 :: ascii s

def rgb (c : UInt32) : Bytes :=
  decimal (c.toNat / 65536 % 256) ++ 59 :: (decimal (c.toNat / 256 % 256) ++ 59 :: decimal (c.toNat % 256))

def switch (fg bg : UInt32) : Bytes :=
  esc "[" ++ (if fg = 0 then ascii "39m" else ascii "38;2;" ++ rgb fg ++ ascii "m") ++
    if bg = 0 then [] else esc "[48;2;" ++ rgb bg ++ ascii "m"

structure Pen where
  fg : UInt32
  bg : UInt32
  open_ : Bool
  cur : Nat

def reset (open_ : Bool) : List Piece := if open_ then [.code (esc "[0m")] else []

def Pen.gap (p : Pen) (c : Nat) : List Piece × Pen :=
  if p.cur < c then
    (reset p.open_ ++ [.code (List.replicate (c - p.cur) space)],if p.open_ then ⟨0,0,false,c⟩ else p)
  else ([],p)

def Pen.change (p : Pen) (cell : Cell) : List Piece × Bool :=
  if cell.fg ≠ p.fg ∨ cell.bg ≠ p.bg then (reset p.open_ ++ [.code (switch cell.fg cell.bg)],true) else ([],p.open_)

-- `uw` counts one for a cell's first character, and `more` for what it finds behind that
def row (more : Cell → Nat) : Pen → Nat → List Cell → List Piece
  | p,_,[] => reset p.open_ ++ [.code (esc "[K")]
  | p,c,cell :: cells =>
    if cell.s.text = [] then row more p (c + 1) cells
    else
      let (gap,p) := p.gap c
      let (change,open_) := p.change cell
      gap ++ (change ++ .text cell.s.text :: row more ⟨cell.fg,cell.bg,open_,c + (more cell + 1)⟩ (c + 1) cells)

def frame (more : Cell → Nat) (canvas : List (List Cell)) : List Piece :=
  .code (esc "[H") :: [.code [10]].intercalate (canvas.map (row more ⟨0,0,false,0⟩ 0)) ++ [.code (esc "[J")]

def need (rows cols : Nat) : Nat := rows * (cols * 26 + 16) + 32

variable {more : Cell → Nat}

theorem writtenAppend (a b) : (written (a ++ b)).length = (written a).length + (written b).length := by
  simp [written]

theorem writtenCons (a b) : (written (a :: b)).length = a.bytes.length + (written b).length := by
  simp [written]

theorem resetLength (open_) : (written (reset open_)).length = 4 * open_.toNat := by cases open_ <;> rfl

theorem switchLength (fg bg) : (switch fg bg).length ≤ 38 := by
  have each : ∀ c, (rgb c).length ≤ 11 := fun c => by
    have component : ∀ n, (decimal (n % 256)).length ≤ 3 := fun n => decimalLength (by decide) (by omega)
    have high := component (c.toNat / 65536)
    have middle := component (c.toNat / 256)
    have low := component c.toNat
    simp [rgb]
    omega
  have front := each fg
  have back := each bg
  have fixed : ((esc "[").length = 2 ∧ (ascii "39m").length = 3) ∧ ((ascii "38;2;").length = 5 ∧ (ascii "m").length = 1) ∧
    (esc "[48;2;").length = 7 := by decide
  unfold switch
  split <;> split <;> simp only [List.length_append,List.length_nil,fixed] <;> omega

theorem gapLength (p : Pen) (c) :
    (written (p.gap c).1).length + 4 * (p.gap c).2.open_.toNat ≤ c - p.cur + 4 * p.open_.toNat := by
  unfold Pen.gap
  split
  · simp only [writtenAppend,resetLength]
    cases open_ : p.open_ <;> simp [written,Piece.bytes,open_,Nat.add_comm]
  · simp [written]

theorem changeLength (p : Pen) (cell) : (written (p.change cell).1).length ≤ 4 * p.open_.toNat + 38 := by
  unfold Pen.change
  split
  · have colours := switchLength cell.fg cell.bg
    rw [writtenAppend,resetLength]
    simpa [written,Piece.bytes] using colours
  · simp [written]

theorem rowLength (p c cells) :
    (written (row more p c cells)).length ≤ 49 * cells.length + (c - p.cur) + 4 * p.open_.toNat + 3 := by
  induction cells generalizing p c with
  | nil =>
    rw [row,writtenAppend,resetLength,show (written [.code (esc "[K")]).length = 3 by decide]
    omega
  | cons cell cells ih =>
    unfold row
    split
    · have rest := ih p (c + 1)
      rw [List.length_cons]
      omega
    have gap := gapLength p c
    have change := changeLength (p.gap c).2 cell
    have rest := ih ⟨cell.fg,cell.bg,((p.gap c).2.change cell).2,c + (more cell + 1)⟩ (c + 1)
    have open_ := Bool.toNat_le ((p.gap c).2.change cell).2
    have few := cell.s.fits
    simp only [writtenAppend,writtenCons,Piece.bytes,List.length_cons] at rest ⊢
    omega

theorem frameLength (more canvas) : (written (frame more canvas)).length =
    6 + ((canvas.map fun line => (written (row more ⟨0,0,false,0⟩ 0 line)).length).sum + (canvas.length - 1)) := by
  have ends : (esc "[H").length = 3 ∧ (written [.code (esc "[J")]).length = 3 := by decide
  have lines : ∀ rows : List (List Piece), (written ([.code [10]].intercalate rows)).length =
      (rows.map fun line => (written line).length).sum + (rows.length - 1) := by
    intro rows
    induction rows with
    | nil => rfl
    | cons first rows ih =>
      cases rows with
      | nil => simp
      | cons second rows =>
        rw [List.intercalate_cons_cons,writtenAppend,writtenAppend,ih]
        simp [written,Piece.bytes]
        omega
  rw [frame,List.cons_append,writtenCons,writtenAppend,lines,Piece.bytes,ends.1,ends.2]
  simp [Function.comp_def]
  omega

def paint (b : Bool) : Cell :=
  if b then ⟨0x646464,0x646464,Buffer.print 7 (ascii "1234567")⟩ else ⟨0xC8C8C8,0xC8C8C8,Buffer.print 7 (ascii "1234567")⟩

def stripes : Bool → Nat → List Cell
  | _,0 => []
  | b,n + 1 => paint b :: stripes (!b) n

theorem stripesLength (more) {c} (b n p) (other : (paint b).fg ≠ p.fg) (ahead : c ≤ p.cur) : (stripes b n).length = n ∧
    (written (row more p c (stripes b n))).length = 49 * n + 4 * p.open_.toNat + 3 := by
  induction n generalizing b p c with
  | zero =>
    rw [stripes,row,writtenAppend,resetLength,show (written [.code (esc "[K")]).length = 3 by decide]
    exact ⟨rfl,by omega⟩
  | succ n ih =>
    have facts : ∀ b, (paint b).s.text.length = 7 ∧ (switch (paint b).fg (paint b).bg).length = 38 ∧
      (paint !b).fg ≠ (paint b).fg := by decide
    obtain ⟨seven,pen,next⟩ := facts b
    obtain ⟨long,rest⟩ := @ih (c + 1) (!b) ⟨(paint b).fg,(paint b).bg,true,c + (more (paint b) + 1)⟩ next (by simp)
    have shown : (paint b).s.text ≠ [] := fun empty => by simp [empty] at seven
    refine ⟨by rw [stripes,List.length_cons,long],?_⟩
    simp only [stripes,row,if_neg shown,Pen.gap,if_neg (Nat.not_lt.mpr ahead),Pen.change,if_pos (Or.inl other),writtenAppend,
      writtenCons,resetLength,Piece.bytes,seven,pen]
    simp [written] at rest ⊢
    omega

/- However many columns `uw` finds in the cells. -/
theorem frameFits (more : Cell → Nat) (rows cols : Nat) :
    (∀ canvas, canvas.length = rows → (∀ line ∈ canvas, line.length = cols) →
      (written (frame more canvas)).length ≤ need rows cols) ↔ rows = 0 ∨ cols = 0 ∨ cols = 1 ∧ rows ≤ 2 := by
  have full : rows * (49 * cols + 3) = 49 * (rows * cols) + 3 * rows := by ring
  have room : need rows cols = 26 * (rows * cols) + 16 * rows + 32 := by rw [need]; ring
  constructor
  · intro all
    obtain ⟨long,line⟩ := stripesLength more true cols ⟨0,0,false,0⟩ (by decide) (Nat.le_refl 0)
    have worst := all (List.replicate rows (stripes true cols)) List.length_replicate fun line member => by
      rw [List.eq_of_mem_replicate member,long]
    rw [frameLength,List.map_replicate,List.sum_replicate,line,List.length_replicate,smul_eq_mul,room] at worst
    simp only [Bool.toNat_false,Nat.mul_zero,Nat.add_zero,full] at worst
    by_cases wide : 2 ≤ cols
    · have grown := Nat.mul_le_mul_left rows wide
      omega
    · interval_cases cols <;> omega
  · rintro small canvas rfl lines
    have each : ∀ n ∈ canvas.map fun line => (written (row more ⟨0,0,false,0⟩ 0 line)).length, n ≤ 49 * cols + 3 := by
      intro n member
      obtain ⟨line,here,rfl⟩ := List.mem_map.mp member
      simpa [lines line here] using @rowLength more ⟨0,0,false,0⟩ 0 line
    have total := List.sum_le_card_nsmul _ _ each
    rw [List.length_map,smul_eq_mul,full] at total
    rw [frameLength,room]
    rcases small with none | rfl | ⟨rfl,few⟩
    · rw [none,Nat.zero_mul] at total ⊢
      omega
    · omega
    · omega

theorem frameOverrun : need 1 2 < (written (frame (fun _ => 0) [stripes true 2])).length := by decide +kernel

end OpenPs3Ftp.Frame
