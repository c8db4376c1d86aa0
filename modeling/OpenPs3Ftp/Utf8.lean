import Mathlib.Data.List.Induction
import Mathlib.Tactic.SplitIfs
import OpenPs3Ftp.Text

/-! `opftp_utf8_valid` (`utf8.c`) against RFC 3629. A pointer is the memory from it up to
the terminating byte, and nothing is what a read beyond that gives. -/
namespace OpenPs3Ftp.Utf8
open Text

def lead (c : UInt8) : Option (Nat × Nat) :=
  if c &&& 0xE0 = 0xC0 then
    let cp := (c &&& 0x1F).toNat
    if cp = 0 then none else some (cp,1)
  else if c &&& 0xF0 = 0xE0 then some ((c &&& 0x0F).toNat,2)
  else if c &&& 0xF8 = 0xF0 then some ((c &&& 0x07).toNat,3)
  else none

/- The inner loop; `some none` is `return false`. -/
def continuation : Nat → Nat → Bytes → Option (Option (Nat × Bytes))
  | 0,cp,p => some (some (cp,p))
  | need + 1,cp,p => do
    let c ← p.head?
    if c &&& 0xC0 ≠ 0x80 then return none
    continuation need (cp <<< 6 ||| (c &&& 0x3F).toNat) p.tail

def rejected (need cp : Nat) : Bool :=
  (need = 1 ∧ cp < 0x80) ∨ (need = 2 ∧ cp < 0x800) ∨ (need = 3 ∧ cp < 0x10000) ∨ (0xD800 ≤ cp ∧ cp ≤ 0xDFFF) ∨ 0x10FFFF < cp

def utf8Round (c : UInt8) (p : Bytes) : Option (Option Bytes) :=
  if c < 0x80 then some (some p) else
    match lead c with
    | none => some none
    | some (cp,need) =>
      (continuation need cp p).map fun read => read.bind fun (cp,p) => if rejected need cp then none else some p

theorem continuationShrinks {need cp cp' p p'} (read : continuation need cp p = some (some (cp',p'))) :
    p'.length ≤ p.length := by
  induction need generalizing cp p with
  | zero =>
    cases read
    exact le_rfl
  | succ need ih =>
    cases p with
    | nil => cases read
    | cons c p =>
      simp only [continuation,List.head?_cons,Option.bind_eq_bind,Option.bind_some] at read
      split at read
      · cases read
      · exact (ih read).trans (Nat.le_succ _)

theorem roundShrinks {c p p'} (read : utf8Round c p = some (some p')) : p'.length ≤ p.length := by
  unfold utf8Round at read
  split at read
  · cases read
    exact le_rfl
  split at read
  · cases read
  simp only [Option.map_eq_some_iff,Option.bind_eq_some_iff] at read
  obtain ⟨_,found,⟨cp',q⟩,rfl,kept⟩ := read
  split at kept
  · cases kept
  · cases kept
    exact continuationShrinks found

def utf8Valid (p : Bytes) : Option Bool :=
  match p with
  | [] => none
  | c :: p =>
    if c = 0 then some true else
      match _ : utf8Round c p with
      | none => none
      | some none => some false
      | some (some p') => utf8Valid p'
termination_by p.length
decreasing_by exact Nat.lt_succ_of_le (roundShrinks ‹_›)

def Scalar (cp : Nat) : Prop := 1 ≤ cp ∧ cp ≤ 0x10FFFF ∧ ¬ (0xD800 ≤ cp ∧ cp ≤ 0xDFFF)
def trailing (n : Nat) : UInt8 := .ofNat (0x80 + n % 64)

def encode (cp : Nat) : Bytes :=
  if cp < 0x80 then [.ofNat cp]
  else if cp < 0x800 then [.ofNat (0xC0 + cp / 64),trailing cp]
  else if cp < 0x10000 then [.ofNat (0xE0 + cp / 4096),trailing (cp / 64),trailing cp]
  else [.ofNat (0xF0 + cp / 262144),trailing (cp / 4096),trailing (cp / 64),trailing cp]

inductive WellFormed : Bytes → Prop where
  | nil : WellFormed []
  | cons {cp text} (scalar : Scalar cp) (rest : WellFormed text) : WellFormed (encode cp ++ text)

theorem everyByte {P : UInt8 → Prop} (each : ∀ n : Fin 256, P (.ofNat n.val)) (c) : P c := by
  have here := each ⟨c.toNat,c.toNat_lt⟩
  rwa [UInt8.ofNat_toNat] at here

theorem leadRange (c : UInt8) : lead c =
    if c.toNat ≤ 0xC0 then none
    else if c.toNat < 0xE0 then some (c.toNat - 0xC0,1)
    else if c.toNat < 0xF0 then some (c.toNat - 0xE0,2)
    else if c.toNat < 0xF8 then some (c.toNat - 0xF0,3)
    else none := by
  revert c
  exact everyByte (by decide +kernel)

theorem tailRange (c : UInt8) : (c &&& 0xC0 = 0x80 ↔ 0x80 ≤ c.toNat ∧ c.toNat < 0xC0) ∧
    (c &&& 0x3F).toNat = c.toNat % 64 := by
  revert c
  exact everyByte (by decide +kernel)

theorem shifted (cp) (c : UInt8) : cp <<< 6 ||| (c &&& 0x3F).toNat = cp * 64 + c.toNat % 64 := by
  rw [(tailRange c).2,← Nat.shiftLeft_add_eq_or_of_lt (by omega),Nat.shiftLeft_eq]

def Tail (c : UInt8) : Prop := 0x80 ≤ c.toNat ∧ c.toNat < 0xC0

theorem continuationRead {need cp cp' p q} : continuation need cp p = some (some (cp',q)) ↔
    ∃ tails : Bytes, tails.length = need ∧ (∀ c ∈ tails, Tail c) ∧ p = tails ++ q ∧
      cp' = tails.foldl (fun n c => n * 64 + c.toNat % 64) cp := by
  induction need generalizing cp p with
  | zero => simp [continuation,eq_comm,and_comm]
  | succ need ih =>
    cases p with
    | nil =>
      refine iff_of_false nofun ?_
      rintro ⟨tails,long,-,empty,-⟩
      simp [(List.append_eq_nil_iff.mp empty.symm).1] at long
    | cons c p =>
      simp only [continuation,List.head?_cons,Option.bind_eq_bind,Option.bind_some,List.tail_cons,(tailRange c).1.not,shifted]
      split
      · rename_i other
        refine iff_of_false nofun ?_
        rintro ⟨_ | ⟨d,tails⟩,long,all,same,-⟩
        · cases long
        · exact other ((List.cons.inj same).1 ▸ all d List.mem_cons_self)
      rename_i here
      rw [ih]
      constructor
      · rintro ⟨tails,rfl,all,rfl,rfl⟩
        exact ⟨c :: tails,rfl,List.forall_mem_cons.mpr ⟨not_not.mp here,all⟩,rfl,rfl⟩
      rintro ⟨_ | ⟨d,tails⟩,long,all,same,rfl⟩
      · cases long
      · obtain ⟨rfl,rfl⟩ := List.cons.inj same
        exact ⟨tails,Nat.succ.inj long,fun c member => all c (List.mem_cons_of_mem _ member),rfl,rfl⟩

theorem continuationStops (need cp text) : continuation need cp (text ++ [0]) ≠ none := by
  induction need generalizing cp text with
  | zero => exact nofun
  | succ need ih =>
    cases text with
    | nil => exact nofun
    | cons c text =>
      simp only [continuation,List.cons_append,List.head?_cons,Option.bind_eq_bind,Option.bind_some,List.tail_cons]
      split
      · exact nofun
      · exact ih _ _

theorem byteIs {n c} (same : n = c.toNat) : UInt8.ofNat n = c := by rw [same,UInt8.ofNat_toNat]

theorem byteNat {n} (small : n < 256) : (UInt8.ofNat n).toNat = n := by
  rw [UInt8.toNat_ofNat']
  exact Nat.mod_eq_of_lt small

theorem trailingTail (n) : Tail (trailing n) ∧ (trailing n).toNat % 64 = n % 64 := by
  rw [Tail,trailing,byteNat (by omega)]
  omega

theorem trailingIs {n c} (tail : Tail c) (same : n % 64 = c.toNat % 64) : trailing n = c := by
  obtain ⟨low,high⟩ := tail
  exact byteIs (by omega)

theorem leadIs {c n need} : lead c = some (n,need) ↔
    (need = 1 ∧ c.toNat = 0xC0 + n ∧ 1 ≤ n ∧ n < 32) ∨ (need = 2 ∧ c.toNat = 0xE0 + n ∧ n < 16) ∨
      (need = 3 ∧ c.toNat = 0xF0 + n ∧ n < 8) := by
  rw [leadRange]
  split_ifs <;> simp <;> omega

theorem keptIs {need cp} : rejected need cp = false ↔ (need = 1 → 0x80 ≤ cp) ∧ (need = 2 → 0x800 ≤ cp) ∧
    (need = 3 → 0x10000 ≤ cp) ∧ ¬ (0xD800 ≤ cp ∧ cp ≤ 0xDFFF) ∧ cp ≤ 0x10FFFF := by
  simp only [rejected,decide_eq_false_iff_not,not_or,not_and,not_lt]

theorem roundLong {c p q} (high : ¬ c < 0x80) : utf8Round c p = some (some q) ↔
    ∃ n need, lead c = some (n,need) ∧ ∃ cp, continuation need n p = some (some (cp,q)) ∧ rejected need cp = false := by
  unfold utf8Round
  rw [if_neg high]
  cases lead c with
  | none => simp
  | some both =>
    obtain ⟨n,need⟩ := both
    simp [Option.bind_eq_some_iff]

theorem encodeLow {cp} (low : cp < 0x80) : encode cp = [.ofNat cp] := if_pos low

theorem encodeHigh {cp} (scalar : Scalar cp) (high : 0x80 ≤ cp) : ∃ c n need tails, encode cp = c :: tails ∧
    0x80 ≤ c.toNat ∧ lead c = some (n,need) ∧ rejected need cp = false ∧ tails.length = need ∧ (∀ d ∈ tails, Tail d) ∧
      cp = tails.foldl (fun n d => n * 64 + d.toNat % 64) n := by
  obtain ⟨_,bound,apart⟩ := scalar
  have last := trailingTail cp
  have middle := trailingTail (cp / 64)
  have first := trailingTail (cp / 4096)
  by_cases two : cp < 0x800
  · have start : (UInt8.ofNat (0xC0 + cp / 64)).toNat = 0xC0 + cp / 64 := byteNat (by omega)
    refine ⟨_,cp / 64,1,[trailing cp],by rw [encode,if_neg (by omega),if_pos two],by omega,
      leadIs.mpr (.inl ⟨rfl,start,by omega,by omega⟩),keptIs.mpr ⟨fun _ => high,nofun,nofun,apart,bound⟩,rfl,by simp [last],?_⟩
    simp only [List.foldl_cons,List.foldl_nil,last]
    omega
  by_cases three : cp < 0x10000
  · have start : (UInt8.ofNat (0xE0 + cp / 4096)).toNat = 0xE0 + cp / 4096 := byteNat (by omega)
    refine ⟨_,cp / 4096,2,[trailing (cp / 64),trailing cp],by rw [encode,if_neg (by omega),if_neg two,if_pos three],by omega,
      leadIs.mpr (.inr (.inl ⟨rfl,start,by omega⟩)),keptIs.mpr ⟨nofun,fun _ => by omega,nofun,apart,bound⟩,rfl,
      by simp [last,middle],?_⟩
    simp only [List.foldl_cons,List.foldl_nil,last,middle]
    omega
  have start : (UInt8.ofNat (0xF0 + cp / 262144)).toNat = 0xF0 + cp / 262144 := byteNat (by omega)
  refine ⟨_,cp / 262144,3,[trailing (cp / 4096),trailing (cp / 64),trailing cp],
    by rw [encode,if_neg (by omega),if_neg two,if_neg three],by omega,leadIs.mpr (.inr (.inr ⟨rfl,start,by omega⟩)),
    keptIs.mpr ⟨nofun,nofun,fun _ => by omega,apart,bound⟩,rfl,by simp [last,middle,first],?_⟩
  simp only [List.foldl_cons,List.foldl_nil,last,middle,first]
  omega

theorem roundTakes {c p q} (going : c ≠ 0) :
    utf8Round c p = some (some q) ↔ ∃ cp, Scalar cp ∧ c :: p = encode cp ++ q := by
  have some_ : c.toNat ≠ 0 := fun zero => going (UInt8.toNat_inj.mp zero)
  by_cases low : c < 0x80
  · have small : c.toNat < 0x80 := low
    unfold utf8Round
    rw [if_pos low]
    constructor
    · intro same
      cases same
      refine ⟨c.toNat,⟨by omega,by omega,by omega⟩,?_⟩
      rw [encodeLow small,UInt8.ofNat_toNat]
      rfl
    rintro ⟨cp,scalar,same⟩
    by_cases high : 0x80 ≤ cp
    · obtain ⟨d,n,need,tails,form,long,-⟩ := encodeHigh scalar high
      rw [form] at same
      have first := congrArg UInt8.toNat (List.cons.inj same).1
      omega
    · rw [encodeLow (Nat.lt_of_not_le high)] at same
      rw [(List.cons.inj same).2]
      rfl
  have large : 0x80 ≤ c.toNat := Nat.le_of_not_lt low
  rw [roundLong low]
  constructor
  · rintro ⟨n,need,first,cp,read,kept⟩
    obtain ⟨tails,long,all,rfl,total⟩ := continuationRead.mp read
    obtain ⟨two,three,four,apart,high⟩ := keptIs.mp kept
    rcases leadIs.mp first with ⟨rfl,start,_⟩ | ⟨rfl,start,_⟩ | ⟨rfl,start,_⟩
    · have least := two rfl
      obtain ⟨d,rfl⟩ := List.length_eq_one_iff.mp long
      simp only [List.foldl_cons,List.foldl_nil] at total
      refine ⟨cp,⟨by omega,high,apart⟩,?_⟩
      rw [encode,if_neg (by omega),if_pos (by omega),byteIs (c := c) (by omega),trailingIs (all d (by simp)) (by omega)]
      rfl
    · have least := three rfl
      obtain ⟨d,e,rfl⟩ := List.length_eq_two.mp long
      simp only [List.foldl_cons,List.foldl_nil] at total
      refine ⟨cp,⟨by omega,high,apart⟩,?_⟩
      rw [encode,if_neg (by omega),if_neg (by omega),if_pos (by omega),byteIs (c := c) (by omega),
        trailingIs (all d (by simp)) (by omega),trailingIs (all e (by simp)) (by omega)]
      rfl
    have least := four rfl
    obtain ⟨d,e,f,rfl⟩ := List.length_eq_three.mp long
    simp only [List.foldl_cons,List.foldl_nil] at total
    refine ⟨cp,⟨by omega,high,apart⟩,?_⟩
    rw [encode,if_neg (by omega),if_neg (by omega),if_neg (by omega),byteIs (c := c) (by omega),
      trailingIs (all d (by simp)) (by omega),trailingIs (all e (by simp)) (by omega),trailingIs (all f (by simp)) (by omega)]
    rfl
  rintro ⟨cp,scalar,same⟩
  by_cases high : 0x80 ≤ cp
  · obtain ⟨d,n,need,tails,form,-,first,kept,long,all,total⟩ := encodeHigh scalar high
    rw [form] at same
    obtain ⟨rfl,rfl⟩ := List.cons.inj same
    exact ⟨n,need,first,cp,continuationRead.mpr ⟨tails,long,all,rfl,total⟩,kept⟩
  rw [encodeLow (Nat.lt_of_not_le high)] at same
  have first : c.toNat = cp := by
    rw [(List.cons.inj same).1]
    exact byteNat (by omega)
  omega

theorem roundStops (c text) : utf8Round c (text ++ [0]) ≠ none := by
  unfold utf8Round
  split
  · exact nofun
  · split
    · exact nofun
    · simpa using continuationStops _ _ text

theorem encodeWhole {cp} (scalar : Scalar cp) : encode cp ≠ [] ∧ 0 ∉ encode cp := by
  by_cases high : 0x80 ≤ cp
  · obtain ⟨c,n,need,tails,form,long,-,-,-,all,-⟩ := encodeHigh scalar high
    rw [form]
    refine ⟨List.cons_ne_nil _ _,fun member => ?_⟩
    rcases List.mem_cons.mp member with rfl | member
    · exact absurd long (by decide)
    · exact absurd (all 0 member).1 (by decide)
  have low := Nat.lt_of_not_le high
  rw [encodeLow low]
  refine ⟨List.cons_ne_nil _ _,fun member => ?_⟩
  have zero := congrArg UInt8.toNat (List.mem_singleton.mp member)
  rw [byteNat (by omega)] at zero
  exact absurd scalar.1 (by rw [← zero]; decide)

theorem roundLeaves {c text q} (whole : 0 ∉ c :: text) (read : utf8Round c (text ++ [0]) = some (some q)) :
    ∃ cp rest, Scalar cp ∧ c :: text = encode cp ++ rest ∧ q = rest ++ [0] := by
  obtain ⟨cp,scalar,same⟩ := (roundTakes (fun zero => whole (zero ▸ List.mem_cons_self))).mp read
  cases q using List.reverseRecOn with
  | nil =>
    refine absurd ?_ (encodeWhole scalar).2
    rw [List.append_nil] at same
    rw [← same]
    simp
  | append_singleton rest last =>
    have whole : (c :: text) ++ [0] = (encode cp ++ rest) ++ [last] := same.trans (List.append_assoc ..).symm
    obtain ⟨front,back⟩ := List.append_inj' whole rfl
    exact ⟨cp,rest,scalar,front,by rw [← back]⟩

theorem wellFormedRound {c text} (going : c ≠ 0) (formed : WellFormed (c :: text)) :
    ∃ rest, utf8Round c (text ++ [0]) = some (some (rest ++ [0])) ∧ WellFormed rest := by
  generalize same : c :: text = whole at formed
  cases formed with
  | nil => cases same
  | @cons cp rest scalar formed =>
    refine ⟨rest,(roundTakes going).mpr ⟨cp,scalar,?_⟩,formed⟩
    rw [← List.append_assoc,← same]
    rfl

/- The answer is the right one, and every byte that is read is there. -/
theorem validExactly (text : Bytes) (whole : 0 ∉ text) :
    ∃ valid, utf8Valid (text ++ [0]) = some valid ∧ (valid = true ↔ WellFormed text) := by
  induction long : text.length using Nat.strong_induction_on generalizing text with
  | _ n ih =>
    cases text with
    | nil => exact ⟨true,by rw [List.nil_append,utf8Valid,if_pos rfl],iff_of_true rfl .nil⟩
    | cons c text =>
      have going : c ≠ 0 := fun zero => whole (zero ▸ List.mem_cons_self)
      rw [List.cons_append,utf8Valid,if_neg going]
      split
      · exact absurd ‹_› (roundStops c text)
      · rename_i read
        refine ⟨false,rfl,iff_of_false nofun fun formed => ?_⟩
        obtain ⟨rest,taken,-⟩ := wellFormedRound going formed
        rw [read] at taken
        cases taken
      rename_i read
      obtain ⟨cp,rest,scalar,same,rfl⟩ := roundLeaves whole read
      obtain ⟨some_,-⟩ := encodeWhole scalar
      rw [same] at long whole ⊢
      have shorter : rest.length < n := by
        rw [← long,List.length_append]
        exact Nat.lt_add_of_pos_left (List.length_pos_of_ne_nil some_)
      obtain ⟨valid,found,iff⟩ := ih _ shorter rest (fun zero => whole (List.mem_append_right _ zero)) rfl
      refine ⟨valid,found,iff.trans ⟨.cons scalar,fun formed => ?_⟩⟩
      rw [← same] at formed
      obtain ⟨rest',taken,formed⟩ := wellFormedRound going formed
      rw [read] at taken
      have equal : rest ++ [0] = rest' ++ [0] := by simpa using taken
      rwa [List.append_cancel_right equal]

theorem validExactlyEuro : (0 : UInt8) ∉ [0xE2,0x82,0xAC] ∧
    ∃ valid, utf8Valid ([0xE2,0x82,0xAC] ++ [0]) = some valid ∧ (valid = true ↔ WellFormed [0xE2,0x82,0xAC]) :=
  ⟨by decide,validExactly [0xE2,0x82,0xAC] (by decide)⟩

end OpenPs3Ftp.Utf8
