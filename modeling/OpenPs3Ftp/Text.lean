import Mathlib.Algebra.Order.Ring.Int
import Mathlib.Data.List.Basic
import Mathlib.Data.List.TakeDrop

/-! C text as byte lists without their terminator, fixed-size buffers as the code
declares them, and the printing and scanning functions of the C library that the
handlers call. Locale-dependent behaviour is that of the C locale. -/
namespace OpenPs3Ftp.Text

abbrev Bytes := List UInt8

def ascii (s : String) : Bytes := s.toList.map (fun ch => UInt8.ofNat ch.toNat)

def slash : UInt8 := 47
def space : UInt8 := 32
def crlf : Bytes := [13,10]

/- What a function taking a `char*` reads of the bytes it is given. -/
def cstr (raw : Bytes) : Bytes := raw.takeWhile (· ≠ 0)

/- `char name[n]` holding a string: the terminator takes one of the n bytes. -/
@[ext] structure Buffer (n : Nat) where
  text : Bytes
  fits : text.length < n
  deriving DecidableEq

theorem emptyName : ([] : Bytes).length < 256 := by decide

theorem emptyPath : ([] : Bytes).length < 1024 := by decide

instance (n : Nat) : Repr (Buffer n) := ⟨fun b p => reprPrec b.text p⟩

def snprintf (size : Nat) (text : Bytes) : Bytes := text.take (size - 1)

def Buffer.print (n : Nat) (text : Bytes) : Buffer (n + 1) :=
  ⟨snprintf (n + 1) text,by simp only [snprintf,List.length_take]; omega⟩

theorem snprintfShort {size text} (short : text.length < size) :
    snprintf size text = text := List.take_of_length_le (by omega)

theorem snprintfLength (size text) : (snprintf size text).length ≤ size - 1 := by
  simp only [snprintf,List.length_take]
  omega

theorem Buffer.printShort {n text} (short : text.length ≤ n) :
    (Buffer.print n text).text = text := snprintfShort (by omega)

theorem Buffer.printSelf {n} (b) : Buffer.print n b.text = b :=
  Buffer.ext (snprintfShort b.fits)

def decimal (n : Nat) : Bytes := (Nat.toDigits 10 n).map (fun ch => UInt8.ofNat ch.toNat)

def padLeft (width : Nat) (fill : UInt8) (text : Bytes) : Bytes :=
  List.replicate (width - text.length) fill ++ text

def zeroPadded (width : Nat) (n : Int) : Bytes :=
  if n < 0 then 45 :: padLeft (width - 1) 48 (decimal n.natAbs) else padLeft width 48 (decimal n.natAbs)

theorem decimalLength {n k} (positive : 0 < k) (bound : n < 10 ^ k) : (decimal n).length ≤ k := by
  simpa [decimal] using (Nat.length_toDigits_le_iff (by decide) positive).mpr bound

theorem padLeftLength (width fill text) : (padLeft width fill text).length = max width text.length := by
  simp only [padLeft,List.length_append,List.length_replicate]
  omega

def toupper (b : UInt8) : UInt8 := if 97 ≤ b ∧ b ≤ 122 then b - 32 else b
def isdigit (b : UInt8) : Bool := 48 ≤ b ∧ b ≤ 57
def isspace (b : UInt8) : Bool := b = 32 ∨ (9 ≤ b ∧ b ≤ 13)
def skipSpaces (text : Bytes) : Bytes := text.dropWhile (· = space)

/- `strncasecmp(text,word,strlen(word)) == 0` for an upper-case word. -/
def startsFold (word text : Bytes) : Bool := (text.take word.length).map toupper = word

def sameFold (word text : Bytes) : Bool := text.map toupper = word
def digitValue (b : UInt8) : Nat := b.toNat - 48

structure Number where
  negative : Bool
  magnitude : Nat
  rest : Bytes
  deriving DecidableEq, Repr

/- The common part of the strto* family: white space, a sign, digits of the base
(at most ten). Nothing is returned when no digit was found. -/
def scanNumber (base : Nat) (text : Bytes) : Option Number :=
  let start := text.dropWhile isspace
  let signed := start.head? = some 45
  let body := if start.head? = some 45 ∨ start.head? = some 43 then start.drop 1 else start
  let digits := body.takeWhile (fun b => isdigit b ∧ digitValue b < base)
  if digits = [] then none else
    some ⟨signed,digits.foldl (fun n b => n * base + digitValue b) 0,body.drop digits.length⟩

/- 64-bit `long`: out-of-range values are clamped. -/
def strtol (base : Nat) (text : Bytes) : Option (Int × Bytes) :=
  (scanNumber base text).map fun n =>
    (if n.negative then max (-2 ^ 63) (-(n.magnitude : Int)) else min (2 ^ 63 - 1) (n.magnitude : Int),n.rest)

/- 64-bit unsigned: a sign negates modulo 2^64, overflow is the largest value. -/
def strtoull (text : Bytes) : Option (Nat × Bytes) :=
  (scanNumber 10 text).map fun n =>
    (if 2 ^ 64 ≤ n.magnitude then 2 ^ 64 - 1
      else if n.negative then (2 ^ 64 - n.magnitude) % 2 ^ 64 else n.magnitude,n.rest)

/- `(int) strtol(text,NULL,10)`. -/
def atoi (text : Bytes) : Int :=
  ((strtol 10 text).map fun n => (n.1 + 2 ^ 31) % 2 ^ 32 - 2 ^ 31).getD 0

/- What `strrchr(path,'/') + 1` points at, or the whole text when there is no slash. -/
def baseName (path : Bytes) : Bytes := (path.reverse.takeWhile (· ≠ slash)).reverse

example : strtol 8 (ascii "0755 a") = some (493,ascii " a") := by decide
example : strtoull (ascii "-1") = some (2 ^ 64 - 1,[]) := by decide

end OpenPs3Ftp.Text
