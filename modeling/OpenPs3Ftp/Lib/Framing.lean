import Mathlib.Data.List.Basic

/-! Framing a stream into lines, one symbol at a time. A line that reaches the limit, a
last line and the end of the stream all shut the ear; nothing is heard after that. -/
namespace OpenPs3Ftp.Lib

structure Framing (α β : Type) where
  stop : α
  limit : Nat
  frame : List α → β
  last : β → Bool

structure Ear (α β : Type) where
  tail : List α
  lines : List β
  shut : Bool

namespace Framing
variable {α β : Type} [DecidableEq α] (f : Framing α β)

def hear (e : Ear α β) : Option α → Ear α β
  | none => { e with shut := true }
  | some a =>
    if e.shut then e
    else if a = f.stop then ⟨[],e.lines ++ [f.frame e.tail],f.last (f.frame e.tail)⟩
    else ⟨e.tail ++ [a],e.lines,f.limit ≤ e.tail.length + 1⟩

def hears (e : Ear α β) (stream : List (Option α)) : Ear α β := stream.foldl f.hear e
def begun (lines : List β) : Ear α β := ⟨[],lines,false⟩

variable {f} {e : Ear α β}

@[simp] theorem hearsNil : f.hears e [] = e := rfl
@[simp] theorem hearsCons (signal stream) : f.hears e (signal :: stream) = f.hears (f.hear e signal) stream := rfl

theorem hearsAppend (first second) :
    f.hears e (first ++ second) = f.hears (f.hears e first) second := List.foldl_append

theorem hearsShut (shut : e.shut = true) (stream) : f.hears e stream = e := by
  induction stream with
  | nil => rfl
  | cons signal stream ih =>
    have same : f.hear e signal = e := by
      cases signal with
      | none =>
        obtain ⟨tail,lines,_⟩ := e
        cases shut
        rfl
      | some a => simp [hear,shut]
    rw [hearsCons,same,ih]

theorem hearsBeyond {first} (shut : (f.hears e first).shut = true) (rest) :
    f.hears e (first ++ rest) = f.hears e first := by
  rw [hearsAppend,hearsShut shut]

theorem hearsPart {part} (within : f.stop ∉ part) (short : e.tail.length + part.length ≤ f.limit)
    (open_ : e.shut = decide (f.limit ≤ e.tail.length)) :
    f.hears e (part.map some) = ⟨e.tail ++ part,e.lines,decide (f.limit ≤ (e.tail ++ part).length)⟩ := by
  induction part generalizing e with
  | nil =>
    obtain ⟨tail,lines,shut⟩ := e
    simpa using open_
  | cons a part ih =>
    rw [List.length_cons] at short
    rw [List.mem_cons,not_or] at within
    have going : e.shut = false := by
      rw [open_]
      exact decide_eq_false (by omega)
    have step : f.hear e (some a) = ⟨e.tail ++ [a],e.lines,f.limit ≤ e.tail.length + 1⟩ := by
      simp [hear,going,Ne.symm within.1]
    rw [List.map_cons,hearsCons,step,ih within.2]
    · simp
    · simp
      omega
    · simp

theorem hearsLine {raw lines} (within : f.stop ∉ raw) (short : raw.length < f.limit) :
    f.hears (begun lines) (raw.map some ++ [some f.stop]) =
      ⟨[],lines ++ [f.frame raw],f.last (f.frame raw)⟩ := by
  have open_ : (begun lines : Ear α β).shut = decide (f.limit ≤ (begun lines : Ear α β).tail.length) := by
    simp [begun]
    omega
  rw [hearsAppend,hearsPart within (by simp [begun]; omega) open_]
  simp [hear,begun,Nat.not_le.mpr short]

theorem hearsEnded {front lines} (some_ : front ≠ []) (heard : f.hears e front = begun lines) :
    front.getLast? = some (some f.stop) := by
  obtain ⟨first,signal,rfl⟩ := List.eq_nil_or_concat front |>.resolve_left some_
  rw [List.concat_eq_append,hearsAppend,hearsCons,hearsNil] at heard
  rw [List.concat_eq_append,List.getLast?_append,List.getLast?_singleton,Option.some_or]
  cases signal with
  | none => exact absurd (congrArg Ear.shut heard) (by simp [hear,begun])
  | some a =>
    simp only [hear] at heard
    split at heard
    · rename_i shut
      rw [heard] at shut
      cases shut
    · split at heard
      · rw [‹a = f.stop›]
      · exact absurd (congrArg Ear.tail heard) (by simp [begun])

theorem hearsOpen {stream} (open_ : (f.hears e stream).shut = false) : stream = (stream.filterMap id).map some := by
  induction stream generalizing e with
  | nil => rfl
  | cons signal stream ih =>
    cases signal with
    | none =>
      rw [hearsCons,hearsShut (e := f.hear e none) rfl] at open_
      cases open_
    | some a => exact congrArg (some a :: ·) (ih open_)

theorem hearsOver (stream ends) (only : ∀ signal ∈ ends, signal = none) :
    (f.hears e (stream ++ ends)).lines = (f.hears e stream).lines := by
  rw [hearsAppend]
  generalize f.hears e stream = heard
  induction ends generalizing heard with
  | nil => rfl
  | cons signal ends ih =>
    rw [hearsCons,ih (fun signal member => only signal (List.mem_cons_of_mem _ member)),only signal List.mem_cons_self]
    rfl

end Framing
end OpenPs3Ftp.Lib
