import OpenPs3Ftp.Commands.Paths
import OpenPs3Ftp.Mlsd

/-! Setting times with MFMT and SITE UTIME, and reading them back. -/
namespace OpenPs3Ftp.Touch
open Lib Facts Calendar Text Fs Session Listing Commands Stamps Mlsd

section Words
variable {front last : Bytes}

theorem lastWord (solid : ∀ b ∈ last, b ≠ space) : (front ++ space :: last).rtakeWhile (· ≠ space) = last ∧
    (front ++ space :: last).rdropWhile (· ≠ space) = front ++ [space] := by
  have before : ∀ b ∈ last.reverse, decide (b ≠ space) = true := fun b member => by simpa using solid b (List.mem_reverse.mp member)
  have turned : (front ++ space :: last).reverse = last.reverse ++ space :: front.reverse := by simp
  rw [List.rtakeWhile,List.rdropWhile,turned,List.takeWhile_append_of_pos before,List.dropWhile_append_of_pos before]
  simp

theorem onlyWord (solid : ∀ b ∈ last, b ≠ space) : last.rdropWhile (· ≠ space) = [] ∧ last.rtakeWhile (· ≠ space) = last :=
  ⟨List.rdropWhile_eq_nil_iff.mpr (by simpa using solid),List.rtakeWhile_eq_self_iff.mpr (by simpa using solid)⟩

theorem solidEnd (solid : ∀ b ∈ last, b ≠ space) (some_ : last ≠ []) (front) :
    (front ++ last).rdropWhile (· = space) = front ++ last ∧ (front ++ last).rtakeWhile (· = space) = [] := by
  obtain ⟨init,b,rfl⟩ := (List.eq_nil_or_concat' last).resolve_left some_
  have other : b ≠ space := solid b (by simp)
  rw [← List.append_assoc,List.rdropWhile_concat,List.rtakeWhile_concat]
  simp [other]

end Words

section Site
variable {s : Server} {c : Client} {front token : Bytes}

theorem skipBefore (solid : ∀ b ∈ token, b ≠ space) (some_ : token ≠ []) : skipSpaces (front ++ space :: token) =
    if skipSpaces front = [] then token else skipSpaces front ++ space :: token := by
  obtain ⟨b,rest,rfl⟩ := List.exists_cons_of_ne_nil some_
  have other : b ≠ space := solid b (by simp)
  unfold skipSpaces
  rw [List.dropWhile_append]
  by_cases blank : front.dropWhile (· = space) = [] <;> simp [blank,other]

theorem utimeWord (solid : ∀ b ∈ token, b ≠ space) (some_ : token ≠ []) : siteUtime s c (front ++ space :: token) =
    if skipSpaces front = [] ∨ token.length < 14 ∨ ¬ (token.take 14).all isdigit then answering 501 r501 c
    else if ((skipSpaces front).rdropWhile (· = space)).length ≥ Resolve.maxPath then answering 501 r501 c
    else match parseFtpTime s.libc token with
      | none => answering 501 r501 c
      | some t => touching s c ((skipSpaces front).rdropWhile (· = space)) t (answering 200 r200 c) := by
  unfold siteUtime
  rw [skipBefore solid some_]
  by_cases blank : skipSpaces front = []
  · obtain ⟨ends,none_⟩ := solidEnd solid some_ []
    rw [List.nil_append] at ends none_
    simp only [ends,(onlyWord solid).1,true_or,if_true,blank]
  have shape : skipSpaces front ++ space :: token = (skipSpaces front ++ [space]) ++ token := by simp
  obtain ⟨ends,none_⟩ := solidEnd solid some_ (skipSpaces front ++ [space])
  rw [← shape] at ends none_
  have path : (skipSpaces front ++ [space]).rdropWhile (· = space) = (skipSpaces front).rdropWhile (· = space) := by
    rw [List.rdropWhile_concat]; simp
  rw [if_neg blank]
  cases parsed : parseFtpTime s.libc token <;> simp only [ends,none_,lastWord solid,List.append_nil,path,blank,false_or,
    List.append_eq_nil_iff,List.cons_ne_nil,and_false,parsed]

theorem siteWord (body) : cmdSite s c (some (ascii "UTIME" ++ body)) = siteUtime s c body := rfl

/- What a run of one of these commands asks the backend, apart from `stat` failing. -/
def Silent (e : Exchange Answer) : Prop := (∀ path st, e ≠ ⟨.fs (.stat path),.ok st⟩) ∧ ∀ path t told, e ≠ ⟨.fs (.utimes path t),told⟩

theorem answeringSilent {code msg trace c'} (run : (answering code msg c).Runs trace c') : ∀ e ∈ trace, Silent e := by
  obtain ⟨rfl,-⟩ := runsAnswering run
  simp [Silent]

theorem failingSilent {failure trace c'} (run : (failing failure c).Runs trace c') :
    ∀ e ∈ trace, Silent e := fun e member => by
  rcases (runsFailing run).2 e member with told | ⟨msg,told⟩ <;>
    exact ⟨(by rintro _ _ rfl; cases told),by rintro _ _ _ rfl; cases told⟩

theorem runsStatting {param k trace c'} (run : (statting s c param k).Runs trace c') :
    (∀ e ∈ trace, Silent e) ∨ ∃ path st rest, trace = ⟨.fs (.stat path),.ok st⟩ :: rest ∧ (k path st).Runs rest c' := by
  unfold statting at run
  split at run
  · exact .inl (answeringSilent run)
  obtain ⟨answer,rest,rfl,after⟩ := runsInvoke run
  cases answer with
  | ok st => exact .inr ⟨_,st,rest,rfl,after⟩
  | error e => exact .inl (List.forall_mem_cons.mpr ⟨⟨nofun,nofun⟩,failingSilent after⟩)

theorem touchingTime {arg t k trace c'} (quiet : ∀ trace c', k.Runs trace c' → ∀ e ∈ trace, Silent e)
    (run : (touching s c arg t k).Runs trace c') {path t' told} (member : ⟨.fs (.utimes path t'),told⟩ ∈ trace) :
    t' = t ∧ (told = .ok () → ∃ rest, rest ⊆ trace ∧ k.Runs rest c') := by
  rcases runsStatting run with neither | ⟨path',st,rest,rfl,after⟩
  · exact absurd rfl ((neither _ member).2 path t' told)
  obtain ⟨answer,rest,rfl,ended⟩ := runsInvoke after
  have silent : ∀ e ∈ rest, Silent e := by
    cases answer with
    | ok _ => exact quiet _ _ ended
    | error e => exact failingSilent ended
  rcases List.mem_cons.mp member with same | member
  · cases same
  rcases List.mem_cons.mp member with same | member
  · cases same
    refine ⟨rfl,?_⟩
    rintro rfl
    exact ⟨rest,fun e inside => .tail _ (.tail _ inside),ended⟩
  · exact absurd rfl ((silent _ member).2 path t' told)

end Site

def Sets (s : Server) (text : Bytes) (t : Int) : Prop := ∃ c param trace c' path told,
  ((∃ arg, param = text ++ space :: arg ∧ (cmdMfmt s c (some param)).Runs trace c') ∨
    ∃ front, param = ascii "UTIME" ++ (front ++ space :: text) ∧ (cmdSite s c (some param)).Runs trace c') ∧
  (⟨.fs (.utimes path t),told⟩ : Exchange Answer) ∈ trace

structure ReadsBack (s : Server) (text : Bytes) (t : Int) : Prop where
  mdtm : ∀ c param trace c' path st, (cmdMdtm s c param).Runs trace c' → ⟨.fs (.stat path),.ok st⟩ ∈ trace → st.mtime = t →
    Replied trace (replyText 213 text)
  mfmt : ∀ c arg trace c' path, (cmdMfmt s c (some (text ++ space :: arg))).Runs trace c' →
    ⟨.fs (.utimes path t),.ok ()⟩ ∈ trace → Replied trace (replyText 213 (ascii "Modify=" ++ text))
  mlsd : ∀ de, de.mtime = t → (factsOf (mlsdFormat s.libc 1024 de)).lookup (ascii "modify") = some text

def Overlong (text : Bytes) : Prop := 1 ≤ month text ∧ month text ≤ 12 ∧
  monthLength (leap (year text)) (month text) < day text ∧ day text ≤ 31 ∧ Clock text

def epochEve : Bytes := ascii "19691231235959"

def RoundTrips (s : Server) (text : Bytes) : Prop := (parseFtpTime s.libc text ≠ none ↔ Denotes text) ∧
  (parseFtpTime s.libc text ≠ none → ∀ t, Sets s text t → ReadsBack s text t)

section Trips
variable {s : Server} {text : Bytes}

theorem stampOnce {text'} (stamp : Stamp text) (stamp' : Stamp text') (real : Denotes text) (real' : Denotes text')
    (same : moment text = moment text') : text = text' := by
  obtain ⟨tm,found,printed⟩ := stampRead civilGregorian stamp real
  obtain ⟨tm',found',printed'⟩ := stampRead civilGregorian stamp' real'
  rw [same,found'] at found
  cases found
  exact printed.symm.trans printed'

theorem overlongLater (long : Overlong text) : moment text ≠ -1 := by
  obtain ⟨first,last,late,bound,clock⟩ := long
  obtain ⟨valid,same⟩ := dayOver first last late bound
  intro before
  have whole : seconds (year text) (month text + 1) (day text - monthLength (leap (year text)) (month text)) (part text 8 2)
      (part text 10 2) (part text 12 2) = seconds 1969 12 31 23 59 59 := by
    rw [seconds,← same]; exact before.trans (by decide)
  have once := secondsOnce valid (by decide) (by unfold Clock at clock; omega) (by decide) whole
  have := monthLong (leap (year text)) (month text)
  omega

variable (calendar : Gregorian s.libc)
include calendar

theorem parseAccepts (stamp : Stamp text) (rest) :
    parseFtpTime s.libc (text ++ rest) ≠ none ↔ (Denotes text ∧ text ≠ epochEve) ∨ Overlong text := by
  have short := monthShort (leap (year text)) (month text)
  rw [parseStamp calendar stamp]
  constructor
  · intro accepted
    split at accepted
    · rename_i range
      obtain ⟨⟨first,last,low,high⟩,clock⟩ := range
      by_cases late : monthLength (leap (year text)) (month text) < day text
      · exact .inr ⟨first,last,late,high,clock⟩
      · refine .inl ⟨⟨⟨first,last,low,Nat.le_of_not_lt late⟩,clock⟩,?_⟩
        rintro rfl
        exact accepted (if_pos (by decide))
    · exact absurd rfl accepted
  rintro (⟨⟨⟨first,last,low,high⟩,clock⟩,other⟩ | long)
  · rw [if_pos ⟨⟨first,last,low,high.trans short⟩,clock⟩,if_neg]
    · simp
    · exact fun before => other (stampOnce stamp (by decide +kernel) ⟨⟨first,last,low,high⟩,clock⟩ (by decide +kernel) (before.trans (by decide +kernel)))
  have later := overlongLater long
  obtain ⟨first,last,late,bound,clock⟩ := long
  rw [if_pos ⟨⟨first,last,by have := monthLong (leap (year text)) (month text); omega,bound⟩,clock⟩,if_neg later]
  simp

theorem parseMoment (stamp : Stamp text) (rest) {t}
    (parsed : parseFtpTime s.libc (text ++ rest) = some t) : t = moment text := by
  rw [parseStamp calendar stamp] at parsed
  split at parsed
  · split at parsed
    · cases parsed
    · exact (Option.some.inj parsed).symm
  · cases parsed

omit calendar in
theorem mfmtWord {c} (stamp : Stamp text) (arg) : cmdMfmt s c (some (text ++ space :: arg)) =
    match parseFtpTime s.libc (text ++ space :: arg) with
    | none => answering 501 r501 c
    | some t => touching s c (skipSpaces arg) t (match s.libc.gmtime t with
      | none => failing (.known .eoverflow) c
      | some tm => answering 213 (snprintf 64 (ascii "Modify=" ++ timeStamp tm)) c) := by
  have rest : (text ++ space :: arg).drop 14 = space :: arg := List.drop_left' stamp.1
  have later : (text ++ space :: arg).drop 15 = arg := by rw [← List.drop_drop (i := 1),rest]; rfl
  unfold cmdMfmt
  rw [Option.filter_some,if_pos (by simp [rest,stamp.1]; omega)]
  dsimp only
  generalize (text ++ space :: arg).drop 15 = back at later ⊢
  subst later
  rfl

omit calendar in
theorem stampedQuiet {c t} (trace c') (run : Program.Runs (match s.libc.gmtime t with
      | none => failing (.known .eoverflow) c
      | some tm => answering 213 (snprintf 64 (ascii "Modify=" ++ timeStamp tm)) c) trace c') :
    ∀ e ∈ trace, Silent e := by
  split at run
  · exact failingSilent run
  · exact answeringSilent run

theorem setsMoment (stamp : Stamp text) {t} (sets : Sets s text t) :
    t = moment text := by
  obtain ⟨c,param,trace,c',path,told,⟨arg,rfl,run⟩ | ⟨front,rfl,run⟩,member⟩ := sets
  · rw [mfmtWord stamp] at run
    split at run
    · exact absurd rfl ((answeringSilent run _ member).2 path t told)
    · rename_i parsed
      exact (touchingTime stampedQuiet run member).1.trans (parseMoment calendar stamp _ parsed)
  have solid : ∀ b ∈ text, b ≠ space := fun b inside => by rintro rfl; exact absurd (stamp.2 _ inside) (by decide)
  rw [siteWord,utimeWord solid (List.ne_nil_of_length_pos (by rw [stamp.1]; decide))] at run
  have refused : ∀ {trace c'}, (answering 501 r501 c).Runs trace c' → ⟨.fs (.utimes path t),told⟩ ∉ trace :=
    fun run member => absurd rfl ((answeringSilent run _ member).2 path t told)
  split at run
  · exact absurd member (refused run)
  split at run
  · exact absurd member (refused run)
  split at run
  · exact absurd member (refused run)
  rename_i parsed
  exact (touchingTime (fun _ _ => answeringSilent) run member).1.trans
    (parseMoment calendar stamp [] (by rwa [List.append_nil]))

theorem readsBack (stamp : Stamp text) (real : Denotes text) : ReadsBack s text (moment text) := by
  obtain ⟨tm,found,printed⟩ := stampRead calendar stamp real
  refine ⟨?_,?_,?_⟩
  · intro c param trace c' path st run member same
    rcases runsStatting run with neither | ⟨path',st',rest,rfl,after⟩
    · exact absurd rfl ((neither _ member).1 path st)
    rcases List.mem_cons.mp member with equal | member
    · cases equal
      rw [same,found] at after
      obtain ⟨rfl,-⟩ := runsAnswering after
      rw [printed,snprintfShort (by rw [stamp.1]; decide)]
      exact ⟨_,.tail _ (.head _),rfl⟩
    · split at after
      · exact absurd rfl ((failingSilent after _ member).1 path st)
      · exact absurd rfl ((answeringSilent after _ member).1 path st)
  · intro c arg trace c' path run member
    rw [mfmtWord stamp] at run
    split at run
    · exact absurd rfl ((answeringSilent run _ member).2 path _ _)
    rename_i t parsed
    obtain ⟨same,told⟩ := touchingTime stampedQuiet run member
    obtain ⟨rest,inside,after⟩ := told rfl
    rw [← same,found] at after
    obtain ⟨rfl,-⟩ := runsAnswering after
    rw [printed,snprintfShort (by rw [List.length_append,stamp.1]; decide)] at inside
    exact ⟨_,inside (.head _),rfl⟩
  intro de same
  have modify : modifyOf s.libc de.mtime = text := by
    rw [modifyOf,same,found]; exact (snprintfShort (by rw [printed,stamp.1]; decide)).trans printed
  rw [mlsdFormat,snprintfShort (mlsdLength s.libc de).1,mlsdWritten,factsWritten (plainFacts (by rw [modify]; exact stamp.2))]
  exact congrArg some modify

theorem tripsExactly (stamp : Stamp text) :
    RoundTrips s text ↔ ¬ Overlong text ∧ text ≠ epochEve := by
  have accepts := parseAccepts calendar stamp []
  rw [List.append_nil] at accepts
  constructor
  · rintro ⟨exactly,-⟩
    refine ⟨fun long => ?_,?_⟩
    · have real := exactly.mp (accepts.mpr (.inr long))
      exact absurd real.1.2.2.2 (Nat.not_le_of_lt long.2.2.1)
    rintro rfl
    rcases accepts.mp (exactly.mpr (by decide)) with ⟨-,other⟩ | long
    · exact other rfl
    · exact absurd long.2.2.1 (by decide)
  rintro ⟨short,other⟩
  have same : parseFtpTime s.libc text ≠ none ↔ Denotes text :=
    accepts.trans ⟨fun | .inl real => real.1 | .inr long => absurd long short,fun real => .inl ⟨real,other⟩⟩
  exact ⟨same,fun accepted t sets => setsMoment calendar stamp sets ▸ readsBack calendar stamp (same.mp accepted)⟩

end Trips

noncomputable def house : Server := serverCreate civilLibc false

theorem tripsLeapDay : Gregorian house.libc ∧ Stamp (ascii "20240229120000") ∧
    RoundTrips house (ascii "20240229120000") :=
  ⟨civilGregorian,by decide +kernel,(tripsExactly civilGregorian (by decide +kernel)).mpr
    ⟨by unfold Overlong; decide +kernel,by decide +kernel⟩⟩

theorem februaryRolls : ¬ RoundTrips house (ascii "20230231000000") := fun trips => by
  have accepted : parseFtpTime house.libc (ascii "20230231000000") = some 1677801600 := rfl
  exact absurd (trips.1.mp (by rw [accepted]; nofun)) (by decide)

theorem printedSets {s : Server} (calendar : Gregorian s.libc) {tm : Tm} (proper : Proper tm) (early : 0 ≤ tm.year)
    (late : tm.year ≤ 9999) : (parseFtpTime s.libc (timeStamp tm) = none ↔ tmSeconds tm = -1) ∧
      ∀ t, Sets s (timeStamp tm) t → t = tmSeconds tm := by
  obtain ⟨stamp,⟨⟨first,last,low,high⟩,clock⟩,same⟩ := printedRead proper early late
  have parsed := parseStamp calendar stamp []
  have short := monthShort (leap (Stamps.year (timeStamp tm))) (month (timeStamp tm))
  rw [List.append_nil,if_pos ⟨⟨first,last,low,by omega⟩,clock⟩,same] at parsed
  exact ⟨by rw [parsed]; simp,fun t sets => (setsMoment calendar stamp sets).trans same⟩

theorem printedSetsFebruary : Gregorian house.libc ∧
    ∀ t, Sets house (timeStamp ⟨2023,1,28,23,59,58,by decide⟩) t → t = 1677628798 :=
  ⟨civilGregorian,(@printedSets house civilGregorian _ ⟨by decide,by decide⟩ (by decide) (by decide)).2⟩

structure Utime where
  lead : Nat
  path : Bytes
  gap : Nat
  time : Bytes
  frac : Option Bytes
  gmt : Option Nat

def spaces (n : Nat) : Bytes := List.replicate n space

namespace Utime

def stamp (u : Utime) : Bytes := u.time ++ (u.frac.map (46 :: ·)).getD []
def ending (u : Utime) : Bytes := (u.gmt.map fun n => spaces (n + 1) ++ ascii "GMT").getD []

def text (u : Utime) : Bytes :=
  ascii "UTIME" ++ (spaces (u.lead + 1) ++ u.path ++ spaces (u.gap + 1) ++ u.stamp ++ u.ending)

structure Fair (u : Utime) : Prop where
  path : u.path.head? ≠ some space ∧ u.path.getLast? ≠ some space
  time : Stamp u.time ∧ Denotes u.time
  frac : ∀ digits ∈ u.frac, ∀ b ∈ digits, isdigit b = true

end Utime

/- `stat` and `utimes` on one path, and their replies. -/
def timed (c : Client) (path : Bytes) (t : Int) : Handler Client := do
  match ← invoke (.fs (.stat path)) with
  | .error e => failing (.known e) c
  | .ok _ =>
    match ← invoke (.fs (.utimes path t)) with
    | .error e => failing (.known e) c
    | .ok () => answering 200 r200 c

def SetsPath (s : Server) (c : Client) (u : Utime) : Prop := ∃ target, resolveArg s c (some u.path) = some target ∧
  cmdSite s c (some u.text) = timed c target (moment u.time)

section
variable {s : Server} {c : Client} {u : Utime} {path : Bytes}

theorem spacesAll (n) : ∀ b ∈ spaces n, decide (b = space) = true := fun b member => by
  simpa using List.eq_of_mem_replicate member

theorem skipped (starts : path.head? ≠ some space) (lead gap) :
    skipSpaces (spaces lead ++ path ++ spaces gap) = if path = [] then [] else path ++ spaces gap := by
  rw [skipSpaces,List.append_assoc,List.dropWhile_append_of_pos (spacesAll lead)]
  cases path with
  | nil => simpa using fun b member => by simpa using spacesAll gap b member
  | cons b rest =>
    have other : b ≠ space := by simpa using starts
    simp [other]

theorem trimmed (ends : path.getLast? ≠ some space) (gap) : (path ++ spaces gap).rdropWhile (· = space) = path := by
  induction gap with
  | zero =>
    rw [spaces,List.replicate_zero,List.append_nil,List.rdropWhile_eq_self_iff]
    intro some_ last
    rw [List.getLast?_eq_getLast_of_ne_nil some_] at ends
    simp_all
  | succ gap ih =>
    rw [spaces,List.replicate_succ',← List.append_assoc,List.rdropWhile_concat]
    simpa [spaces] using ih

theorem stampSolid (fair : u.Fair) : ∀ b ∈ u.stamp, b ≠ space := by
  have digit : ∀ {b}, isdigit b = true → b ≠ space := by rintro b digit rfl; exact absurd digit (by decide)
  intro b member
  rcases List.mem_append.mp member with member | member
  · exact digit (fair.time.1.2 b member)
  cases frac : u.frac with
  | none => simp [frac] at member
  | some digits =>
    rw [frac] at member
    rcases List.mem_cons.mp member with rfl | member
    · decide
    · exact digit (fair.frac digits frac b member)

theorem stampLong (fair : u.Fair) : 14 ≤ u.stamp.length ∧ (u.stamp.take 14).all isdigit = true := by
  have long := fair.time.1.1
  rw [Utime.stamp,List.take_left' long,List.length_append,long]
  exact ⟨Nat.le_add_right _ _,List.all_eq_true.mpr fair.time.1.2⟩

theorem parseDenoted (calendar : Gregorian s.libc) (fair : u.Fair) :
    parseFtpTime s.libc u.stamp = if u.time = epochEve then none else some (moment u.time) := by
  obtain ⟨stamp,real⟩ := fair.time
  have accepts := parseAccepts calendar stamp ((u.frac.map (46 :: ·)).getD [])
  have short : ¬ Overlong u.time := fun long => absurd real.1.2.2.2 (Nat.not_le_of_lt long.2.2.1)
  cases parsed : parseFtpTime s.libc u.stamp with
  | none =>
    rw [if_pos]
    by_contra other
    exact accepts.mpr (.inl ⟨real,other⟩) parsed
  | some t =>
    have other := (accepts.mp (by rw [Utime.stamp] at parsed; rw [parsed]; nofun)).resolve_right short
    rw [if_neg other.2,parseMoment calendar stamp _ parsed]

theorem utimeTold (calendar : Gregorian s.libc) (fair : u.Fair) (plain : u.gmt = none) : cmdSite s c (some u.text) =
    if u.path = [] ∨ Resolve.maxPath ≤ u.path.length ∨ u.time = epochEve then answering 501 r501 c
    else touching s c u.path (moment u.time) (answering 200 r200 c) := by
  have shape : u.text = ascii "UTIME" ++ ((spaces (u.lead + 1) ++ u.path ++ spaces u.gap) ++ space :: u.stamp) := by
    simp [Utime.text,Utime.ending,plain,spaces,List.replicate_succ']
  obtain ⟨long,digits⟩ := stampLong fair
  rw [shape,siteWord,utimeWord (stampSolid fair) (List.ne_nil_of_length_pos (by omega)),skipped fair.path.1,parseDenoted calendar fair]
  by_cases none_ : u.path = []
  · rw [if_pos (by simp [none_]),if_pos (.inl none_)]
  rw [if_neg none_,if_neg (by simp [none_,digits]; omega),trimmed fair.path.2]
  by_cases large : Resolve.maxPath ≤ u.path.length
  · rw [if_pos large,if_pos (.inr (.inl large))]
  rw [if_neg large]
  by_cases eve : u.time = epochEve
  · rw [if_pos eve,if_pos (.inr (.inr eve))]
  · rw [if_neg eve,if_neg (by simp [none_,large,eve])]

theorem utimeZoned {n} (zone : u.gmt = some n) :
    cmdSite s c (some u.text) = answering 501 r501 c := by
  have shape : u.text = ascii "UTIME" ++
      ((spaces (u.lead + 1) ++ u.path ++ spaces (u.gap + 1) ++ u.stamp ++ spaces n) ++ space :: ascii "GMT") := by
    simp [Utime.text,Utime.ending,zone,spaces,List.replicate_succ']
  rw [shape,siteWord,utimeWord (by decide +kernel) (by decide),if_pos (.inr (.inl (by decide)))]

theorem utimeExactly (calendar : Gregorian s.libc) (fair : u.Fair) : SetsPath s c u ↔
    (u.path ≠ [] ∧ u.path.length < Resolve.maxPath ∧ resolveArg s c (some u.path) ≠ none) ∧ u.gmt = none ∧ u.time ≠ epochEve := by
  have refused : cmdSite s c (some u.text) = answering 501 r501 c → ¬ SetsPath s c u := by
    rintro told ⟨target,-,same⟩; rw [told] at same; cases same
  cases zone : u.gmt with
  | some n => exact ⟨fun sets => absurd sets (refused (utimeZoned zone)),nofun⟩
  | none =>
    have told := @utimeTold s c u calendar fair zone
    by_cases bad : u.path = [] ∨ Resolve.maxPath ≤ u.path.length ∨ u.time = epochEve
    · rw [if_pos bad] at told
      refine ⟨fun sets => absurd sets (refused told),?_⟩
      rintro ⟨⟨some_,short,-⟩,-,other⟩
      rcases bad with none_ | large | eve
      exacts [absurd none_ some_,absurd short (Nat.not_lt_of_le large),absurd eve other]
    rw [if_neg bad] at told
    push Not at bad
    constructor
    · rintro ⟨target,resolved,-⟩
      exact ⟨⟨bad.1,bad.2.1,by rw [resolved]; nofun⟩,rfl,bad.2.2⟩
    rintro ⟨⟨-,-,resolves⟩,-⟩
    obtain ⟨target,resolved⟩ := Option.ne_none_iff_exists'.mp resolves
    refine ⟨target,resolved,told.trans ?_⟩
    rw [touching,statting,resolved]
    unfold timed; dsimp only
    congr 1; funext answer; rcases answer with e | st
    · rfl
    · change (invoke _ >>= _) = (invoke _ >>= _)
      congr 1; funext told; rcases told with e | ⟨⟩ <;> rfl

end

def spacedUtime (gmt : Option Nat) : Utime := ⟨0,ascii "a 20200101000000 b",2,ascii "20240229120000",some (ascii "25"),gmt⟩

theorem spacedFair (gmt) : (spacedUtime gmt).Fair where
  path := by change (ascii "a 20200101000000 b").head? ≠ _ ∧ (ascii "a 20200101000000 b").getLast? ≠ _; decide +kernel
  time := by change Stamp (ascii "20240229120000") ∧ Denotes (ascii "20240229120000"); decide +kernel
  frac := by rintro _ ⟨⟩; decide +kernel

theorem utimeSpaced : Gregorian house.libc ∧ (spacedUtime none).Fair ∧
    SetsPath house visitor (spacedUtime none) :=
  ⟨civilGregorian,spacedFair none,(utimeExactly civilGregorian (spacedFair none)).mpr ⟨⟨by decide,by decide,by decide⟩,rfl,by decide⟩⟩

theorem zonedRefused : (spacedUtime (some 0)).Fair ∧ ¬ SetsPath house visitor (spacedUtime (some 0)) := by
  refine ⟨spacedFair _,?_⟩
  rintro ⟨target,-,same⟩
  rw [utimeZoned rfl] at same
  cases same

end OpenPs3Ftp.Touch
