import Mathlib.Logic.Function.Basic

/-! Registers of numbered things, each with one owner, against a relation that says from
elsewhere who has what. Numbers are used again once they are free. -/
namespace OpenPs3Ftp.Lib
variable {Key Owner : Type}

def Registers (table : Key → Option Owner) (has : Owner → Key → Prop) : Prop :=
  ∀ key owner, table key = some owner ↔ has owner key

namespace Registers
variable {table : Key → Option Owner} {has has' : Owner → Key → Prop} {key : Key} {owner other : Owner}

variable (registers : Registers table has)
include registers

theorem alone (one : has owner key) (two : has other key) : owner = other :=
  Option.some.inj (((registers key owner).mpr one).symm.trans ((registers key other).mpr two))

theorem same (still : ∀ owner key, has' owner key ↔ has owner key) :
    Registers table has' := fun key owner => (registers key owner).trans (still owner key).symm

variable [DecidableEq Key]

theorem updating {value} (others : ∀ other, other ≠ owner → ∀ k, has' other k ↔ has other k)
    (mine : ∀ k, k ≠ key → (has' owner k ↔ has owner k)) (here : ∀ o, value = some o ↔ has' o key) :
    Registers (Function.update table key value) has' := by
  intro k o
  by_cases same : k = key
  · rw [same,Function.update_self]
    exact here o
  rw [Function.update_of_ne same,registers]
  by_cases who : o = owner
  · rw [who,mine k same]
  · rw [others o who]

theorem opening (free : table key = none)
    (others : ∀ other, other ≠ owner → ∀ k, has' other k ↔ has other k)
    (mine : ∀ k, has' owner k ↔ has owner k ∨ k = key) :
    Registers (Function.update table key (some owner)) has' := by
  refine registers.updating others (fun k apart => by simp [mine,apart]) fun o => ?_
  by_cases who : o = owner
  · simp [who,mine]
  · rw [others o who,← registers key o,free]
    simp [Ne.symm who]

theorem closing (held : has owner key)
    (others : ∀ other, other ≠ owner → ∀ k, has' other k ↔ has other k)
    (mine : ∀ k, has' owner k ↔ has owner k ∧ k ≠ key) : Registers (Function.update table key none) has' := by
  refine registers.updating others (fun k apart => by simp [mine,apart]) fun o => ?_
  by_cases who : o = owner
  · simp [who,mine]
  · rw [others o who]
    exact ⟨nofun,fun two => absurd (registers.alone two held) who⟩

theorem moving {taker} (held : has owner key) (apart : owner ≠ taker)
    (others : ∀ other, other ≠ owner → other ≠ taker → ∀ k, has' other k ↔ has other k)
    (mine : ∀ k, has' owner k ↔ has owner k ∧ k ≠ key) (theirs : ∀ k, has' taker k ↔ has taker k ∨ k = key) :
    Registers (Function.update table key (some taker)) has' := by
  have without : Registers (Function.update table key none) fun o k => has o k ∧ ¬ (o = owner ∧ k = key) :=
    registers.closing held (fun o who k => by simp [who]) (fun k => by simp)
  have again : Registers (Function.update (Function.update table key none) key (some taker)) has' := by
    refine without.opening (Function.update_self ..) (fun o who k => ?_) (fun k => ?_)
    · by_cases old : o = owner
      · subst old
        simp [mine]
      · simp [others o old who,old]
    · simp [theirs,apart.symm]
  rwa [Function.update_idem] at again

end Registers
end OpenPs3Ftp.Lib
