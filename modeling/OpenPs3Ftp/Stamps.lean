import OpenPs3Ftp.Lib.Calendar
import OpenPs3Ftp.Digits
import OpenPs3Ftp.Listing

/-! Time stamps of fourteen digits: what they denote, what `parse_ftp_time` takes them for
and how they are printed. -/
namespace OpenPs3Ftp.Stamps
open Lib Calendar Text Fs Session Listing

def tmSeconds (tm : Tm) : Int := seconds tm.year (tm.mon.val + 1) tm.mday.val tm.hour.val tm.min.val tm.sec.val
def Proper (tm : Tm) : Prop := ValidDate tm.year (tm.mon.val + 1) tm.mday.val ∧ tm.sec.val < 60

structure Gregorian (libc : Libc) : Prop where
  counts : ∀ y m d hh mi ss : Nat, y ≤ 9999 → 1 ≤ m → m ≤ 12 → libc.timegm y m d hh mi ss = some (seconds y m d hh mi ss)
  broken : ∀ t tm, libc.gmtime t = some tm → Proper tm ∧ tmSeconds tm = t
  total : ∀ tm, Proper tm → 0 ≤ tm.year → tm.year ≤ 9999 → libc.gmtime (tmSeconds tm) ≠ none

variable (text : Bytes)

def Stamp : Prop := text.length = 14 ∧ ∀ b ∈ text, isdigit b = true

instance (text : Bytes) : Decidable (Stamp text) := inferInstanceAs (Decidable (_ ∧ _))

def part (i n : Nat) : Nat := value ((text.drop i).take n)

def year : Nat := part text 0 4
def month : Nat := part text 4 2
def day : Nat := part text 6 2
def Clock : Prop := part text 8 2 ≤ 23 ∧ part text 10 2 ≤ 59 ∧ part text 12 2 ≤ 59

instance (text : Bytes) : Decidable (Clock text) := inferInstanceAs (Decidable (_ ∧ _))

def Denotes : Prop := ValidDate (year text) (month text) (day text) ∧ Clock text

instance (text : Bytes) : Decidable (Denotes text) := inferInstanceAs (Decidable (_ ∧ _))

def moment : Int :=
  seconds (year text) (month text) (day text) (part text 8 2) (part text 10 2) (part text 12 2)

section Parsing
variable {libc : Libc} {text rest : Bytes}

theorem partBound (stamp : Stamp text) (i n) : part text i n < 10 ^ n := by
  have all : ∀ b ∈ (text.drop i).take n, isdigit b = true := fun b member =>
    stamp.2 b (List.mem_of_mem_drop (List.mem_of_mem_take member))
  exact (valueBound all).trans_le (Nat.pow_le_pow_right (by decide) (List.length_take_le _ _))

theorem partAppend (long : text.length = 14) {i n} (within : i + n ≤ 14) (rest) :
    part (text ++ rest) i n = part text i n := by
  rw [part,List.drop_append_of_le_length (by omega),List.take_append_of_le_length (by rw [List.length_drop]; omega),part]

theorem parseStamp (calendar : Gregorian libc) (stamp : Stamp text) (rest) : parseFtpTime libc (text ++ rest) =
    if (1 ≤ month text ∧ month text ≤ 12 ∧ 1 ≤ day text ∧ day text ≤ 31) ∧ Clock text then
      if moment text = -1 then none else some (moment text)
    else none := by
  have taken : (text ++ rest).take 14 = text := List.take_left' stamp.1
  have small : year text ≤ 9999 := Nat.le_pred_of_lt (partBound stamp 0 4)
  have same : ∀ i n, i + n ≤ 14 → (((text ++ rest).drop i).take n).foldl (fun v b => v * 10 + digitValue b) 0 = part text i n :=
    fun i n within => partAppend stamp.1 within rest
  unfold parseFtpTime
  rw [taken,if_neg (by simpa [stamp.1] using stamp.2)]
  simp only [same 0 4 (by decide),same 4 2 (by decide),same 6 2 (by decide),same 8 2 (by decide),same 10 2 (by decide),
    same 12 2 (by decide)]
  by_cases range : (1 ≤ month text ∧ month text ≤ 12 ∧ 1 ≤ day text ∧ day text ≤ 31) ∧ Clock text
  · obtain ⟨⟨first,last,low,high⟩,hours,minutes,ends⟩ := range
    rw [if_neg (by unfold month day at *; omega),if_pos ⟨⟨first,last,low,high⟩,hours,minutes,ends⟩]
    rw [calendar.counts (part text 0 4) (part text 4 2) _ _ _ _ small first last,Option.filter_some]
    change (if decide (moment text ≠ -1) = true then some (moment text) else none) = _
    by_cases before : moment text = -1 <;> simp [before]
  · rw [if_pos (by unfold Clock month day at range; omega),if_neg range]

end Parsing

section Printing
variable {text : Bytes}

theorem slice (stamp : Stamp text) {i n} (within : i + n ≤ 14) (some_ : 0 < n) :
    zeroPadded n (part text i n) = (text.drop i).take n := by
  have long : ((text.drop i).take n).length = n := by rw [List.length_take,List.length_drop,stamp.1]; omega
  have digits : ∀ b ∈ (text.drop i).take n, isdigit b = true := fun b member =>
    stamp.2 b (List.mem_of_mem_drop (List.mem_of_mem_take member))
  have same := padValue digits (List.ne_nil_of_length_pos (by omega))
  rw [long] at same
  rwa [zeroPadded,if_neg (by omega),Int.natAbs_natCast]

theorem stampPrinted (stamp : Stamp text) {tm : Tm} (date : tm.year = year text ∧ tm.mon.val + 1 = month text ∧ tm.mday.val = day text)
    (time : tm.hour.val = part text 8 2 ∧ tm.min.val = part text 10 2 ∧ tm.sec.val = part text 12 2) : timeStamp tm = text := by
  obtain ⟨years,months,days⟩ := date
  obtain ⟨hours,minutes,ends⟩ := time
  unfold timeStamp two
  rw [years,months,days,hours,minutes,ends]
  unfold year month day
  rw [slice stamp (by decide) (by decide),slice stamp (by decide) (by decide),slice stamp (by decide) (by decide),
    slice stamp (by decide) (by decide),slice stamp (by decide) (by decide),slice stamp (by decide) (by decide),
    List.drop_zero,← List.take_add,← List.take_add,← List.take_add,← List.take_add,← List.take_add]
  exact List.take_of_length_le stamp.1.le

theorem stampRead {libc} (calendar : Gregorian libc) (stamp : Stamp text) (real : Denotes text) :
    ∃ tm, libc.gmtime (moment text) = some tm ∧ timeStamp tm = text := by
  obtain ⟨valid,hours,minutes,ends⟩ := real
  have small : year text < 10 ^ 4 := partBound stamp 0 4
  have long : monthLength (leap (year text)) (month text) ≤ 31 := monthShort _ _
  obtain ⟨first,last,low,high⟩ := id valid
  let tm : Tm := ⟨year text,⟨month text - 1,by omega⟩,⟨day text,by omega⟩,⟨part text 8 2,by omega⟩,⟨part text 10 2,by omega⟩,
    ⟨part text 12 2,by omega⟩,by omega⟩
  have months : tm.mon.val + 1 = month text := Nat.sub_add_cancel first
  have proper : Proper tm := ⟨months ▸ valid,Nat.lt_succ_of_le ends⟩
  have same : tmSeconds tm = moment text := by unfold tmSeconds moment; rw [months]
  obtain ⟨got,found⟩ := Option.ne_none_iff_exists'.mp (calendar.total tm proper (by simp [tm]) (by simp [tm]; omega))
  rw [same] at found
  obtain ⟨date,sec⟩ := (calendar.broken _ _ found).1
  have once := secondsOnce date valid ⟨got.hour.isLt,got.min.isLt,sec⟩ ⟨by omega,by omega,by omega⟩ (calendar.broken _ _ found).2
  exact ⟨got,found,stampPrinted stamp once.1 once.2⟩

theorem zerosValue (k digits) : value (List.replicate k 48 ++ digits) = value digits := by
  induction k with
  | zero => rfl
  | succ k ih => exact ih

theorem paddedRead {n w : Nat} (some_ : 0 < w) (small : n < 10 ^ w) :
    (zeroPadded w n).length = w ∧ (∀ b ∈ zeroPadded w n, isdigit b = true) ∧ value (zeroPadded w n) = n := by
  obtain ⟨-,digits,same⟩ := decimalRead n
  have short := decimalLength some_ small
  rw [zeroPadded,if_neg (by omega),Int.natAbs_natCast]
  refine ⟨by rw [padLeftLength]; omega,fun b member => ?_,(zerosValue _ _).trans same⟩
  rcases List.mem_append.mp member with member | member
  · rw [List.eq_of_mem_replicate member]; rfl
  · exact digits b member

theorem partMid (front mid back) {i n} (start : front.length = i) (long : mid.length = n) :
    part (front ++ mid ++ back) i n = value mid := by
  subst start long
  rw [part,List.append_assoc,List.drop_left,List.take_left]

theorem printedRead {tm : Tm} (proper : Proper tm) (positive : 0 ≤ tm.year) (small : tm.year ≤ 9999) :
    Stamp (timeStamp tm) ∧ Denotes (timeStamp tm) ∧ moment (timeStamp tm) = tmSeconds tm := by
  obtain ⟨y,years⟩ := Int.eq_ofNat_of_zero_le positive
  obtain ⟨long,digits,value0⟩ := @paddedRead y 4 (by decide) (by omega)
  have pair : ∀ n, n < 100 → (two n).length = 2 ∧ (∀ b ∈ two n, isdigit b = true) ∧ value (two n) = n :=
    fun n small => paddedRead (by decide) small
  obtain ⟨long1,digits1,value1⟩ := pair (tm.mon.val + 1) (by omega)
  obtain ⟨long2,digits2,value2⟩ := pair tm.mday.val (by omega)
  obtain ⟨long3,digits3,value3⟩ := pair tm.hour.val (by omega)
  obtain ⟨long4,digits4,value4⟩ := pair tm.min.val (by omega)
  obtain ⟨long5,digits5,value5⟩ := pair tm.sec.val (by omega)
  have shape : timeStamp tm = zeroPadded 4 y ++ two (tm.mon.val + 1) ++ two tm.mday.val ++ two tm.hour.val ++
      two tm.min.val ++ two tm.sec.val := by rw [timeStamp,years]
  generalize zeroPadded 4 (y : Int) = a at *
  generalize two (tm.mon.val + 1) = b at *
  generalize two tm.mday.val = c at *
  generalize two tm.hour.val = d at *
  generalize two tm.min.val = e at *
  generalize two tm.sec.val = f at *
  have years' : year (timeStamp tm) = y := by
    rw [shape,← value0]; simpa [year] using partMid [] a (b ++ (c ++ (d ++ (e ++ f)))) rfl long
  have months : month (timeStamp tm) = tm.mon.val + 1 := by
    rw [shape,← value1]; simpa [month] using partMid a b (c ++ (d ++ (e ++ f))) long long1
  have days : day (timeStamp tm) = tm.mday.val := by
    rw [shape,← value2]; simpa [day] using partMid (a ++ b) c (d ++ (e ++ f)) (by simp [*]) long2
  have hours : part (timeStamp tm) 8 2 = tm.hour.val := by
    rw [shape,← value3]; simpa using partMid (a ++ (b ++ c)) d (e ++ f) (by simp [*]) long3
  have minutes : part (timeStamp tm) 10 2 = tm.min.val := by
    rw [shape,← value4]; simpa using partMid (a ++ (b ++ (c ++ d))) e f (by simp [*]) long4
  have ends : part (timeStamp tm) 12 2 = tm.sec.val := by
    rw [shape,← value5]; simpa using partMid (a ++ (b ++ (c ++ (d ++ e)))) f [] (by simp [*]) long5
  refine ⟨⟨by simp [*],?_⟩,⟨?_,?_⟩,?_⟩
  · intro x member
    simp only [shape,List.mem_append] at member
    rcases member with ((((member | member) | member) | member) | member) | member
    exacts [digits x member,digits1 x member,digits2 x member,digits3 x member,digits4 x member,digits5 x member]
  · rw [years',months,days]; exact years ▸ proper.1
  · have := proper.2
    rw [Clock,hours,minutes,ends]; omega
  · rw [moment,years',months,days,hours,minutes,ends,tmSeconds,years]

end Printing
end OpenPs3Ftp.Stamps
