import OpenPs3Ftp.Lib.Facts
import OpenPs3Ftp.Stamps

/-! Machine listings of `listing.c`, read by the rule of facts up to the first space and
then the name. -/
namespace OpenPs3Ftp.Mlsd
open Lib Facts Calendar Text Fs Session Listing Stamps

def modifyOf (libc : Libc) (t : Int) : Bytes :=
  match libc.gmtime t with
  | some tm => snprintf 16 (timeStamp tm)
  | none => ascii "19700101000000"

def factsFor (libc : Libc) (de : Dirent) : List Fact :=
  [(ascii "type",if isDir de.mode then ascii "dir" else ascii "file"),
   (ascii "size",decimal (if isDir de.mode then 0 else de.size.toNat)),
   (ascii "modify",modifyOf libc de.mtime),
   (ascii "perm",if isDir de.mode then ascii "eladfmp" else ascii "adfrw")]

theorem mlsdWritten (libc de) : mlsdLine libc de = write (factsFor libc de) de.name.text := by
  have parts : ascii "type=" = ascii "type" ++ [61] ∧ ascii ";size=" = 59 :: (ascii "size" ++ [61]) ∧
      ascii ";modify=" = 59 :: (ascii "modify" ++ [61]) ∧ ascii ";perm=" = 59 :: (ascii "perm" ++ [61]) ∧
      ascii "; " = [59,32] := by decide
  unfold mlsdLine
  rw [parts.1,parts.2.1,parts.2.2.1,parts.2.2.2.1,parts.2.2.2.2]
  cases told : libc.gmtime de.mtime <;> simp [write,joined,factsFor,text,crlf,modifyOf,told]

structure Entry where
  dir : Bool
  size : Nat
  mtime : Int
  name : Bytes
  deriving DecidableEq

def entryOf (de : Dirent) : Entry := ⟨isDir de.mode,if isDir de.mode then 0 else de.size.toNat,de.mtime,de.name.text⟩

def readLine (line : Bytes) : Option Entry := do
  let facts := factsOf line
  let kind ← facts.lookup (ascii "type")
  let size ← facts.lookup (ascii "size")
  let modify ← facts.lookup (ascii "modify")
  return ⟨kind = ascii "dir",value size,moment modify,nameOf line⟩

theorem plainDigits {key digits} (named : 61 ∉ key ∧ 59 ∉ key ∧ 32 ∉ key) (all : ∀ b ∈ digits, isdigit b = true) :
    Plain (key,digits) := by
  have absent : ∀ c, isdigit c = false → c ∉ digits := fun c other member => by simp [all c member] at other
  refine ⟨named.1,?_,?_⟩ <;> simp [text,named,absent 59 (by decide),absent 32 (by decide)]

theorem plainFacts {libc de} (digits : ∀ b ∈ modifyOf libc de.mtime, isdigit b = true) :
    ∀ fact ∈ factsFor libc de, Plain fact := by
  intro fact member
  simp only [factsFor,List.mem_cons,List.not_mem_nil,or_false] at member
  rcases member with rfl | rfl | rfl | rfl
  · unfold Plain; split <;> decide
  · exact plainDigits (by decide) (decimalRead _).2.1
  · exact plainDigits (by decide) digits
  · unfold Plain; split <;> decide

theorem modifyRead {libc} (calendar : Gregorian libc) {t} (low : seconds 1 1 1 0 0 0 ≤ t)
    (high : t < seconds 10000 1 1 0 0 0) :
    (∀ b ∈ modifyOf libc t, isdigit b = true) ∧ moment (modifyOf libc t) = t := by
  obtain ⟨y,m,d,hh,mi,ss,years,valid,time,same⟩ := timeExists low high
  have long : monthLength (leap y) m ≤ 31 := monthShort _ _
  obtain ⟨first,last,low,high⟩ := id valid
  let tm : Tm := ⟨y,⟨m - 1,by omega⟩,⟨d,by omega⟩,⟨hh,time.1⟩,⟨mi,time.2.1⟩,⟨ss,by omega⟩,by omega⟩
  have months : tm.mon.val + 1 = m := Nat.sub_add_cancel first
  have proper : Proper tm := ⟨months ▸ valid,time.2.2⟩
  have whole : tmSeconds tm = t := by unfold tmSeconds; rw [months]; exact same
  obtain ⟨got,found⟩ := Option.ne_none_iff_exists'.mp (calendar.total tm proper (show 0 ≤ y by omega) (show y ≤ 9999 by omega))
  rw [whole] at found
  obtain ⟨is,equal⟩ := calendar.broken _ _ found
  have once := secondsOnce is.1 valid ⟨got.hour.isLt,got.min.isLt,is.2⟩ time (equal.trans same.symm)
  obtain ⟨stamp,-,back⟩ := printedRead is (by omega) (by omega)
  have text : modifyOf libc t = timeStamp got := by
    rw [modifyOf,found]; exact snprintfShort (by rw [stamp.1]; decide)
  rw [text]
  exact ⟨stamp.2,back.trans equal⟩

structure Listable (de : Dirent) : Prop where
  bare : 13 ∉ de.name.text ∧ 10 ∉ de.name.text
  low : seconds 1 1 1 0 0 0 ≤ de.mtime
  high : de.mtime < seconds 10000 1 1 0 0 0

theorem lineRead {libc} (calendar : Gregorian libc) {de} (listable : Listable de) :
    readLine (mlsdFormat libc 1024 de) = some (entryOf de) := by
  obtain ⟨digits,back⟩ := modifyRead calendar listable.low listable.high
  have plain := plainFacts digits
  rw [mlsdFormat,snprintfShort (mlsdLength libc de).1,mlsdWritten]
  unfold readLine
  rw [factsWritten plain,nameWritten plain listable.bare.1]
  have kind : (factsFor libc de).lookup (ascii "type") = some (if isDir de.mode then ascii "dir" else ascii "file") := rfl
  have size : (factsFor libc de).lookup (ascii "size") = some (decimal (if isDir de.mode then 0 else de.size.toNat)) := rfl
  have modify : (factsFor libc de).lookup (ascii "modify") = some (modifyOf libc de.mtime) := rfl
  have type : decide ((if isDir de.mode then ascii "dir" else ascii "file") = ascii "dir") = isDir de.mode := by
    cases isDir de.mode <;> decide
  simp only [kind,size,modify,Option.bind_eq_bind,Option.bind_some,(decimalRead _).2.2,back,type]
  rfl

theorem lineRecovers {libc : Libc} (calendar : Gregorian libc) {de : Dirent} (listable : Listable de) :
    readLine (mlsdFormat libc 1024 de) = some (entryOf de) ∧ (mlsdLine libc de).length < 1024 ∧
      (∃ front, mlsdFormat libc 1024 de = front ++ crlf) ∧
      ∀ de', Listable de' → entryOf de' ≠ entryOf de → mlsdFormat libc 1024 de' ≠ mlsdFormat libc 1024 de := by
  refine ⟨lineRead calendar listable,(mlsdLength libc de).1,?_,fun de' also differ same => ?_⟩
  · rw [mlsdFormat,snprintfShort (mlsdLength libc de).1]
    exact ⟨_,rfl⟩
  · have here := lineRead calendar listable
    rw [← same,lineRead calendar also] at here
    exact differ (Option.some.inj here)

section Examples
open Classical

noncomputable def civilLibc : Libc :=
  { bareLibc with
    gmtime := fun t => if found : ∃ tm, Proper tm ∧ tmSeconds tm = t then some found.choose else none
    timegm := fun y m d hh mi ss => some (seconds y m d hh mi ss) }

theorem civilGregorian : Gregorian civilLibc where
  counts _ _ _ _ _ _ _ _ _ := rfl
  broken t tm same := by
    simp only [civilLibc] at same
    split at same
    · rename_i found; cases same; exact found.choose_spec
    · cases same
  total tm proper _ _ := by
    have found : ∃ tm', Proper tm' ∧ tmSeconds tm' = tmSeconds tm := ⟨tm,proper,rfl⟩
    simp [civilLibc,found]
end Examples

def plainEntry : Dirent := ⟨Buffer.print 255 (ascii "a; b=c"),0o100644,5,951868800,0,0⟩
def deviceEntry : Dirent := { plainEntry with mode := 0o020644 }

theorem lineRecoversPlain : Gregorian civilLibc ∧ Listable plainEntry ∧
    readLine (mlsdFormat civilLibc 1024 plainEntry) = some ⟨false,5,951868800,ascii "a; b=c"⟩ :=
  ⟨civilGregorian,⟨by decide,by decide,by decide⟩,(lineRecovers civilGregorian ⟨by decide,by decide,by decide⟩).1⟩

theorem deviceSameLine : Listable plainEntry ∧ Listable deviceEntry ∧ isReg plainEntry.mode = true ∧ isReg deviceEntry.mode = false ∧
    mlsdFormat civilLibc 1024 deviceEntry = mlsdFormat civilLibc 1024 plainEntry :=
  ⟨⟨by decide,by decide,by decide⟩,⟨by decide,by decide,by decide⟩,by decide,by decide,rfl⟩

end OpenPs3Ftp.Mlsd
