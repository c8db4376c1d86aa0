import Mathlib.Data.List.Induction
import OpenPs3Ftp.Text

/-! Decimal numbers as they are printed and read back. -/
namespace OpenPs3Ftp.Text

def value (digits : Bytes) : Nat := digits.foldl (fun n b => n * 10 + digitValue b) 0

theorem valueSnoc (digits b) : value (digits ++ [b]) = value digits * 10 + digitValue b := by
  simp [value]

theorem digitByte {b} (digit : isdigit b = true) :
    digitValue b < 10 ∧ UInt8.ofNat (digitValue b).digitChar.toNat = b := by
  have every : ∀ n : Fin 256, isdigit (.ofNat n.val) = true →
      digitValue (.ofNat n.val) < 10 ∧ UInt8.ofNat (digitValue (.ofNat n.val)).digitChar.toNat = .ofNat n.val := by decide +kernel
  have here := every ⟨b.toNat,b.toNat_lt⟩
  rw [UInt8.ofNat_toNat] at here
  exact here digit

theorem byteDigit {n} (small : n < 10) : isdigit (UInt8.ofNat n.digitChar.toNat) = true ∧
    digitValue (UInt8.ofNat n.digitChar.toNat) = n := by
  revert n; decide

theorem decimalSmall {n} (small : n < 10) : decimal n = [UInt8.ofNat n.digitChar.toNat] := by
  rw [decimal,Nat.toDigits_of_lt_base small]; rfl

theorem decimalLarge {n} (large : 10 ≤ n) :
    decimal n = decimal (n / 10) ++ [UInt8.ofNat (n % 10).digitChar.toNat] := by
  rw [decimal,Nat.toDigits_of_base_le (by decide) large,List.map_append]; rfl

theorem decimalRead (n) : decimal n ≠ [] ∧ (∀ b ∈ decimal n, isdigit b = true) ∧ value (decimal n) = n := by
  induction n using Nat.strong_induction_on with
  | _ n ih =>
    by_cases small : n < 10
    · rw [decimalSmall small]
      exact ⟨by simp,by simpa using (byteDigit small).1,by simpa [value] using (byteDigit small).2⟩
    obtain ⟨-,digits,same⟩ := ih (n / 10) (by omega)
    obtain ⟨digit,last⟩ := @byteDigit (n % 10) (by omega)
    rw [decimalLarge (Nat.le_of_not_lt small),valueSnoc,same,last]
    exact ⟨by simp,List.forall_mem_append.mpr ⟨digits,List.forall_mem_singleton.mpr digit⟩,by omega⟩

theorem valueBound {digits} (all : ∀ b ∈ digits, isdigit b = true) : value digits < 10 ^ digits.length := by
  induction digits using List.reverseRecOn with
  | nil => decide
  | append_singleton digits b ih =>
    have front := ih fun c member => all c (List.mem_append_left _ member)
    have last := (digitByte (all b (by simp))).1
    rw [valueSnoc,List.length_append,List.length_singleton,pow_succ]
    omega

theorem padValue {digits} (all : ∀ b ∈ digits, isdigit b = true) (some_ : digits ≠ []) :
    padLeft digits.length 48 (decimal (value digits)) = digits := by
  induction digits using List.reverseRecOn with
  | nil => exact absurd rfl some_
  | append_singleton digits b ih =>
    obtain ⟨small,same⟩ := digitByte (all b (by simp))
    rw [valueSnoc,List.length_append,List.length_singleton]
    by_cases only : digits = []
    · subst only
      simp only [value,List.foldl_nil,Nat.zero_mul,Nat.zero_add]
      rw [decimalSmall small,same]; rfl
    have front := ih (fun c member => all c (List.mem_append_left _ member)) only
    by_cases zero : value digits = 0
    · have zeros : digits = List.replicate digits.length 48 := by
        rw [zero,decimalSmall (by decide),padLeft] at front
        rw [List.eq_replicate_iff]
        refine ⟨rfl,fun c member => ?_⟩
        rw [← front] at member
        rcases List.mem_append.mp member with member | member
        · exact List.eq_of_mem_replicate member
        · exact List.mem_singleton.mp member
      rw [zero,Nat.zero_mul,Nat.zero_add,decimalSmall small,same,padLeft]
      conv_rhs => rw [zeros]
      rfl
    have split : decimal (value digits * 10 + digitValue b) = decimal (value digits) ++ [b] := by
      rw [decimalLarge (by omega)]
      rw [show (value digits * 10 + digitValue b) / 10 = value digits by omega,
        show (value digits * 10 + digitValue b) % 10 = digitValue b by omega,same]
    rw [split,padLeft,List.length_append,List.length_singleton,Nat.add_sub_add_right,← List.append_assoc]
    exact congrArg (· ++ [b]) front

end OpenPs3Ftp.Text
