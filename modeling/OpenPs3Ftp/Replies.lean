import OpenPs3Ftp.Dispatch

/-! Replies as lines. Texts are cut to their buffers twice, by the handler that
words them and by the function that ends the line, and only the second cut can
take the end of the line away. -/
namespace OpenPs3Ftp.Replies
open Lib Text Resolve Fs Session Listing Commands Dispatch Program

def Complete (text : Bytes) : Prop := ∃ body, text = body ++ crlf ∧ 10 ∉ body

variable {n : Nat}

theorem completeCut {body} (bare : 10 ∉ body) : Complete (snprintf n (body ++ crlf)) ↔ body.length + 2 < n := by
  constructor
  · rintro ⟨front,same,_⟩
    by_contra long
    have ends : (10 : UInt8) ∈ snprintf n (body ++ crlf) := by rw [same]; simp [crlf]
    have cut : snprintf n (body ++ crlf) = (body ++ [13]).take (n - 1) := by
      rw [snprintf,crlf,show ([13,10] : Bytes) = [13] ++ [10] from rfl,← List.append_assoc,
        List.take_append_of_le_length (by simp; omega)]
    rw [cut] at ends
    have member := List.mem_of_mem_take ends
    simp only [List.mem_append,List.mem_singleton] at member
    rcases member with member | odd
    · exact bare member
    · exact absurd odd (by decide)
  · intro short
    rw [snprintfShort (by simp [crlf]; omega)]
    exact ⟨body,rfl,bare⟩

theorem decimalBare (n) : 10 ∉ decimal n := by
  intro member
  obtain ⟨ch,digit,same⟩ := List.mem_map.mp member
  have range := Nat.isDigit_of_mem_toDigits (by decide) (by decide) digit
  simp only [Char.isDigit,Bool.and_eq_true,decide_eq_true_eq] at range
  obtain ⟨low,high⟩ := range
  have value : ch.toNat % 256 = 10 := by simpa using congrArg UInt8.toNat same
  have low' : 48 ≤ ch.toNat := low
  have high' : ch.toNat ≤ 57 := high
  omega

variable {msg : Bytes}

theorem completeReply {code} (three : (decimal code).length = 3) (bare : 10 ∉ msg) :
    Complete (replyText code msg) ↔ msg.length ≤ 1017 := by
  have free : 10 ∉ decimal code ++ space :: msg := by
    simp only [List.mem_append,List.mem_cons,not_or]
    exact ⟨decimalBare code,by decide,bare⟩
  rw [replyText,completeCut free]
  simp only [List.length_append,List.length_cons,three]
  omega

theorem completeSend (bare : 10 ∉ msg) : Complete (sendText msg) ↔ msg.length ≤ 1021 := by
  rw [sendText,completeCut bare]
  omega

variable {text : Bytes}

theorem snprintfBare (bare : 10 ∉ text) : 10 ∉ snprintf n text :=
  fun member => bare (List.mem_of_mem_take member)

theorem padLeftBare {width fill} (plain : fill ≠ 10) (bare : 10 ∉ text) : 10 ∉ padLeft width fill text := by
  simp only [padLeft,List.mem_append,List.mem_replicate,not_or]
  exact ⟨fun h => plain h.2.symm,bare⟩

theorem zeroPaddedBare (width n) : 10 ∉ zeroPadded width n := by
  unfold zeroPadded
  split
  · simp only [List.mem_cons,not_or]
    exact ⟨by decide,padLeftBare (by decide) (decimalBare _)⟩
  · exact padLeftBare (by decide) (decimalBare _)

theorem baseNameBare {path} (bare : 10 ∉ path) : 10 ∉ baseName path := by
  unfold baseName
  rw [List.mem_reverse]
  exact fun member => bare (List.mem_reverse.mp (List.takeWhile_subset _ member))

theorem rootedBare {root comps} (bare : 10 ∉ root) (free : ∀ c ∈ comps, 10 ∉ c) : 10 ∉ rooted root comps := by
  have head : 10 ∉ top root := by
    unfold top
    split
    · exact bare
    · decide
  unfold rooted
  split
  · exact head
  simp only [List.mem_append,not_or]
  constructor
  · unfold chop
    split
    · exact fun member => head (List.dropLast_subset _ member)
    · exact head
  · simp only [separated,List.mem_flatMap,List.mem_cons,not_exists,not_and,not_or]
    exact fun c member => ⟨by decide,free c member⟩

structure Bare (s : Server) (c : Client) (param : Option Bytes) : Prop where
  root : 10 ∉ s.root.text
  cwd : 10 ∉ c.cwd.text
  user : 10 ∉ c.user.text
  param : ∀ arg, param = some arg → 10 ∉ arg

theorem resolvedBare {s c param path} (bare : Bare s c param) (resolved : resolveArg s c param = some path) :
    10 ∉ path := by
  rw [resolveArgEq] at resolved
  split at resolved
  · cases Option.some.inj resolved
    have arg : 10 ∉ argText c param := by
      unfold argText
      cases present : given param with
      | none => exact bare.cwd
      | some arg => exact bare.param arg (Option.filter_eq_some_iff.mp present).1
    refine rootedBare bare.root (resolvedKeeps _ _ _ (fun comp member _ inside => ?_) fun comp member inside => ?_)
    · exact arg ((fieldWithin member).2 inside)
    · exact bare.cwd ((fieldWithin member).2 inside)
  · contradiction

def Short (n : Nat) (text : Bytes) : Prop := text.length ≤ n ∧ 10 ∉ text
instance (n : Nat) (text : Bytes) : Decidable (Short n text) := by unfold Short; infer_instance

variable {m : Nat}

theorem Short.append {left right} (first : Short m left) (second : Short n right) :
    Short (m + n) (left ++ right) := by
  refine ⟨?_,by simpa using ⟨first.2,second.2⟩⟩
  rw [List.length_append]
  exact Nat.add_le_add first.1 second.1

theorem Short.mono (short : Short m text) (le : m ≤ n) : Short n text :=
  ⟨Nat.le_trans short.1 le,short.2⟩

theorem shortCut (bare : 10 ∉ text) : Short (n - 1) (snprintf n text) :=
  ⟨snprintfLength n text,snprintfBare bare⟩

theorem shortPrint (bare : 10 ∉ text) (few : n - 1 ≤ 1017) : Short 1017 (snprintf n text) := (shortCut bare).mono few

class Terse (code : Nat) (msg : Bytes) : Prop where
  three : (decimal code).length = 3
  short : Short 1017 msg

theorem shortDecimal {k} (positive : 0 < k) (bound : n < 10 ^ k) : Short k (decimal n) :=
  ⟨decimalLength positive bound,decimalBare n⟩

theorem shortTwo (n : Fin 62) : Short 2 (two n.val) := by
  revert n
  decide

theorem shortMode (mode) : Short 10 (modeStr mode) := by
  refine ⟨by simp [modeStr,ascii],?_⟩
  unfold modeStr
  simp only [List.mem_cons,List.mem_map,Prod.exists,not_or,not_exists,not_and]
  constructor
  · split <;> decide
  intro letter i member
  have plain : letter ≠ 10 := by
    have all : ∀ pair ∈ (ascii "rwxrwxrwx").zipIdx, pair.1 ≠ 10 := by decide
    exact all _ member
  split
  · exact plain
  · decide

theorem shortMonth (mon : Fin 12) : Short 3 (months.getD mon.val []) := by
  revert mon
  decide

theorem shortReply {code} (three : (decimal code).length = 3) (short : Short 1017 msg) :
    Complete (replyText code msg) := (completeReply three short.2).mpr short.1

theorem shortSend (short : Short 1021 msg) : Complete (sendText msg) :=
  (completeSend short.2).mpr short.1

theorem shortLine {body} (short : Short m body) (fits : m + 2 < n) :
    Complete (snprintf n (body ++ crlf)) := (completeCut short.2).mpr (by have := short.1; omega)

variable {de : Dirent}

theorem listingComplete (libc) (bare : 10 ∉ de.name.text) : Complete (listingFormat libc 1024 de none) := by
  have id32 : ∀ v : UInt32, Short 10 (decimal v.toNat) := fun v =>
    shortDecimal (by decide) (Nat.lt_of_lt_of_le v.toNat_lt (by decide))
  have size : Short 20 (padLeft 12 space (decimal de.size.toNat)) := by
    have digits : Short 20 (decimal de.size.toNat) :=
      shortDecimal (by decide) (Nat.lt_of_lt_of_le de.size.toNat_lt (by decide))
    exact ⟨by rw [padLeftLength]; exact Nat.max_le.mpr ⟨by decide,digits.1⟩,padLeftBare (by decide) digits.2⟩
  have small : ∀ {n : Nat} (v : Fin n), n ≤ 62 → Short 2 (two v.val) := fun v le => shortTwo ⟨v.val,by omega⟩
  have gap : Short 1 [space] := by decide
  have colon : Short 1 (ascii ":") := by decide
  have links : Short 3 (ascii " 1 ") := by decide
  have name : Short 255 de.name.text := ⟨Nat.le_of_lt_succ de.name.fits,bare⟩
  let tm := (libc.localtime de.mtime).getD zeroTm
  let uid := if de.uid = 0 ∧ de.gid = 0 then 1 else de.uid
  let gid := if de.uid = 0 ∧ de.gid = 0 then 1 else de.gid
  have owner := ((((shortMode de.mode).append links).append (id32 uid)).append gap).append (id32 gid)
  have body := ((((((owner.append gap).append size).append gap).append (shortMonth tm.mon)).append gap).append
    (small tm.mday (by decide))).append gap
  exact shortLine (((((body.append (small tm.hour (by decide))).append colon).append
    (small tm.min (by decide))).append gap).append name) (by decide)

theorem stampBare (tm) : 10 ∉ timeStamp tm := by
  simp [timeStamp,two,zeroPaddedBare]

theorem mlsdShort (libc) (bare : 10 ∉ de.name.text) : ∃ body, mlsdLine libc de = body ++ crlf ∧ Short 400 body := by
  have name : Short 255 de.name.text := ⟨Nat.le_of_lt_succ de.name.fits,bare⟩
  have size : Short 20 (decimal (if isDir de.mode then 0 else de.size.toNat)) := by
    refine shortDecimal (by decide) ?_
    split
    · decide
    · exact Nat.lt_of_lt_of_le de.size.toNat_lt (by decide)
  have kind : Short 4 (if isDir de.mode then ascii "dir" else ascii "file") := by split <;> decide
  have perm : Short 7 (if isDir de.mode then ascii "eladfmp" else ascii "adfrw") := by split <;> decide
  have whole : ∀ stamp, Short 15 stamp → Short 400 (ascii "type=" ++
      (if isDir de.mode then ascii "dir" else ascii "file") ++ ascii ";size=" ++
      decimal (if isDir de.mode then 0 else de.size.toNat) ++ ascii ";modify=" ++ stamp ++ ascii ";perm=" ++
      (if isDir de.mode then ascii "eladfmp" else ascii "adfrw") ++ ascii "; " ++ de.name.text) := by
    intro stamp modify
    have first := (((by decide : Short 5 (ascii "type=")).append kind).append
      (by decide : Short 6 (ascii ";size="))).append size
    have second := ((first.append (by decide : Short 8 (ascii ";modify="))).append modify).append
      (by decide : Short 6 (ascii ";perm="))
    exact (((second.append perm).append (by decide : Short 2 (ascii "; "))).append name).mono (by decide)
  unfold mlsdLine
  split
  · exact ⟨_,rfl,whole _ (shortCut (stampBare _))⟩
  · exact ⟨_,rfl,whole _ (by decide)⟩

theorem mlstComplete (libc) (bare : 10 ∉ de.name.text) :
    Complete (snprintf 1025 (space :: mlsdFormat libc 1024 de)) := by
  obtain ⟨body,line,short⟩ := mlsdShort libc bare
  have whole : mlsdFormat libc 1024 de = body ++ crlf := by
    have size := short.1
    rw [mlsdFormat,line,snprintfShort]
    simp only [List.length_append,crlf,List.length_cons,List.length_nil]
    omega
  rw [whole]
  exact shortLine ((by decide : Short 1 [space]).append short) (by decide)

end OpenPs3Ftp.Replies
