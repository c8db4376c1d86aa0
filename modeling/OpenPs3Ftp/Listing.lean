import OpenPs3Ftp.Session

/-! LIST and MLSD lines of `listing.c`, and the time stamps handlers print and parse. -/
namespace OpenPs3Ftp.Listing
open Text Fs Session

def modeStr (mode : Mode) : Bytes :=
  (if isDir mode then 100 else 45) ::
    (ascii "rwxrwxrwx").zipIdx.map fun (letter,i) =>
      if mode &&& ((0o400 : Mode) >>> UInt16.ofNat i) ≠ 0 then letter else 45

def months : List Bytes :=
  [ascii "Jan",ascii "Feb",ascii "Mar",ascii "Apr",ascii "May",ascii "Jun",
   ascii "Jul",ascii "Aug",ascii "Sep",ascii "Oct",ascii "Nov",ascii "Dec"]

def zeroTm : Tm := ⟨1900,0,1,0,0,0,by decide⟩

variable (libc : Libc) (n : Nat) (de : Dirent) (displayName : Option Bytes)

def two : Bytes := zeroPadded 2 n

/- `opftp_listing_format` before it is cut to its buffer. -/
def listingLine : Bytes :=
  let tm := (libc.localtime de.mtime).getD zeroTm
  let uid := if de.uid = 0 ∧ de.gid = 0 then 1 else de.uid
  let gid := if de.uid = 0 ∧ de.gid = 0 then 1 else de.gid
  modeStr de.mode ++ ascii " 1 " ++ decimal uid.toNat ++ [space] ++ decimal gid.toNat ++ [space] ++
    padLeft 12 space (decimal de.size.toNat) ++ [space] ++ months.getD tm.mon.val [] ++ [space] ++
    two tm.mday.val ++ [space] ++ two tm.hour.val ++ ascii ":" ++ two tm.min.val ++ [space] ++
    displayName.getD de.name.text ++ crlf

def listingFormat : Bytes :=
  snprintf n (listingLine libc de displayName)

def timeStamp (tm : Tm) : Bytes :=
  zeroPadded 4 tm.year ++ two (tm.mon.val + 1) ++ two tm.mday.val ++ two tm.hour.val ++ two tm.min.val ++
    two tm.sec.val

def mlsdLine : Bytes :=
  let dir := isDir de.mode
  let modify := match libc.gmtime de.mtime with
    | some tm => snprintf 16 (timeStamp tm)
    | none => ascii "19700101000000"
  ascii "type=" ++ (if dir then ascii "dir" else ascii "file") ++ ascii ";size=" ++
    decimal (if dir then 0 else de.size.toNat) ++ ascii ";modify=" ++ modify ++ ascii ";perm=" ++
    (if dir then ascii "eladfmp" else ascii "adfrw") ++ ascii "; " ++ de.name.text ++ crlf

def mlsdFormat : Bytes := snprintf n (mlsdLine libc de)

theorem mlsdLength (libc de) :
    (mlsdLine libc de).length < 1024 ∧ de.name.text.length + 2 < (mlsdLine libc de).length := by
  have name := de.name.fits
  have size : (decimal (if isDir de.mode then 0 else de.size.toNat)).length ≤ 20 := by
    refine decimalLength (by decide) ?_
    split
    · decide
    · exact Nat.lt_of_lt_of_le de.size.toNat_lt (by decide)
  have kind : (if isDir de.mode then ascii "dir" else ascii "file").length ≤ 4 := by split <;> decide
  have perm : (if isDir de.mode then ascii "eladfmp" else ascii "adfrw").length ≤ 7 := by split <;> decide
  have first : (ascii "type=").length = 5 := by decide
  have second : (ascii ";size=").length = 6 := by decide
  have third : (ascii ";modify=").length = 8 := by decide
  have fourth : (ascii ";perm=").length = 6 := by decide
  have last : (ascii "; ").length = 2 := by decide
  have newline : crlf.length = 2 := by decide
  unfold mlsdLine
  split
  · rename_i tm _
    have stamp := snprintfLength 16 (timeStamp tm)
    simp only [List.length_append,first,second,third,fourth,last,newline]
    constructor <;> omega
  · have stamp : (ascii "19700101000000").length = 14 := by decide
    simp only [List.length_append,first,second,third,fourth,last,newline,stamp]
    constructor <;> omega

/- The entry shown for a single path: its last component with its own metadata. -/
def direntOf (path : Bytes) (st : Stat) : Dirent :=
  ⟨Buffer.print 255 (baseName path),st.mode,st.size,st.mtime,st.uid,st.gid⟩

/- `parse_ftp_time`: the first 14 bytes, whatever follows. -/
def parseFtpTime (text : Bytes) : Option Int :=
  if (text.take 14).length < 14 ∨ ¬ (text.take 14).all isdigit then none else
    let field (i n : Nat) : Nat := ((text.drop i).take n).foldl (fun v b => v * 10 + digitValue b) 0
    let mm := field 4 2
    let dd := field 6 2
    if mm < 1 ∨ mm > 12 ∨ dd < 1 ∨ dd > 31 ∨ field 8 2 > 23 ∨ field 10 2 > 59 ∨ field 12 2 > 59 then none
    else (libc.timegm (field 0 4) mm dd (field 8 2) (field 10 2) (field 12 2)).filter (· ≠ -1)

example : modeStr 0o040755 = ascii "drwxr-xr-x" := by decide
example : modeStr 0o100644 = ascii "-rw-r--r--" := by decide

end OpenPs3Ftp.Listing
