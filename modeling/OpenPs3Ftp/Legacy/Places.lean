import OpenPs3Ftp.Legacy.Access
import OpenPs3Ftp.Lib.Setting

/-! The working directory of a legacy client. Its components are stored as they were sent, dots and
all, and CDUP takes the last one away; the directory itself is followed beside it. What is stored reads
back as it was sent, but for slashes. -/
namespace OpenPs3Ftp.Legacy
open Lib Text Session
open Resolve (move)
open Setting (leavesPure leavesAsk mayPure mayAsk)

/- The variables that only handlers write. -/
structure Agrees (g f : Facade) : Prop where
  cwd : g.cwd = f.cwd
  auth : g.auth = f.auth
  lastcmd : g.lastcmd = f.lastcmd
  rnfr : g.rnfr = f.rnfr

def facing : Setting Ask Ask.Answer Facade where
  can f
    | .load,g => Agrees g f
    | .userdata,known => known = true
    | _,_ => True
  next f
    | .store field,_ => f.set field
    | _,_ => f

inductive Change where
  | cwd (params : Bytes)
  | cdup
  deriving DecidableEq

def Change.run (u : Setup) : Change → Routine Unit
  | .cwd params => cmdCwd u params
  | .cdup => cmdCdup

/- Where the filesystem takes one from a directory, in a tree without links. -/
def Change.leads (place : List Bytes) : Change → List Bytes
  | .cwd params => walk (if params.head? = some slash then [] else place) ((fields slash params).map move)
  | .cdup => place.dropLast

/- The levels that are stored then, where that is known. -/
def Change.levels (u : Setup) (cwd : List Bytes) : Change → Option (List Bytes)
  | .cwd params => setWorkingDirectory u.maxName (getAbsolutePath (getWorkingDirectory u.maxPath cwd) params)
  | .cdup => some cwd.dropLast

def accepts (seen : Bool) : (call : Ask) → call.Answer → Bool
  | .store (.cwd _),_ => true
  | _,_ => seen

def accepted (trace : List (Exchange Ask.Answer)) : Bool := Program.noted accepts false trace

def changes (u : Setup) : System (Facade × List Bytes) (Change × List (Exchange Ask.Answer)) where
  start st := st.1.cwd = [] ∧ st.2 = []
  step st label st' := (label.1.run u).Runs label.2 (some ()) ∧ facing.Genuine st.1 label.2 ∧
    st' = (facing.after st.1 label.2,if accepted label.2 then label.1.leads st.2 else st.2)

def denotes (levels : List Bytes) : List Bytes := walk [] (levels.map move)

/- CDUP takes a name away; a path has names that go into a slot, and is joined to the whole
directory if it is relative. -/
def Change.Lexical (u : Setup) (cwd : List Bytes) : Change → Prop
  | .cwd params => (params.head? = some slash ∨ getWorkingDirectory u.maxPath cwd = Resolve.absolute cwd) ∧
      ∀ name ∈ fields slash params, name.length < u.maxName
  | .cdup => ∀ last ∈ cwd.getLast?, last ≠ ascii "." ∧ last ≠ ascii ".."

theorem codeLeaves {σ : Type} {w : Setting Ask Ask.Answer σ} {spent post st code msg} (other : code ≠ 150)
    (sent : post (w.next st (.core (.send .command (replyText code msg))) ()) ()) :
    w.Leaves spent post st (sendCode code msg) := by
  unfold sendCode
  rw [if_neg other]
  exact fun _ _ => sent

theorem turns (u f) (change : Change) : (facing.beside accepts).Leaves (fun _ => True)
    (fun st _ => if st.2 then ∀ levels, change.levels u f.cwd = some levels → st.1.cwd = levels else st.1.cwd = f.cwd)
    (f,false) (change.run u) := by
  cases change with
  | cwd params =>
    refine leavesAsk fun g same => ?_
    split
    · unfold argued
      split
      · exact codeLeaves (by decide) rfl
      refine leavesAsk fun found _ => ?_
      split
      · exact codeLeaves (by decide) rfl
      split
      · have levels : setWorkingDirectory u.maxName (absolute u g params) = (Change.cwd params).levels u f.cwd := by
          rw [absolute,(show Agrees g f from same).cwd]
          rfl
        rw [levels]
        cases (Change.cwd params).levels u f.cwd with
        | some levels => exact leavesAsk fun _ _ => codeLeaves (by decide) fun _ => Option.some.inj
        | none => exact leavesAsk fun _ _ => leavesAsk fun _ _ => codeLeaves (by decide) nofun
      · exact codeLeaves (by decide) rfl
    · exact codeLeaves (by decide) rfl
  | cdup =>
    refine leavesAsk fun g same => ?_
    split
    · refine leavesAsk fun _ _ => codeLeaves (by decide) fun levels stored => ?_
      show g.cwd.dropLast = levels
      rw [(show Agrees g f from same).cwd]
      exact Option.some.inj stored
    · exact codeLeaves (by decide) rfl

theorem fieldsTrail {text} (ends : text.getLast? = some slash) : fields slash text.dropLast = fields slash text := by
  have split := fieldsAppendSep slash text.dropLast []
  rw [List.dropLast_append_getLast? slash ends] at split
  simpa using split.symm

theorem joinedFields {new} (relative : new.head? ≠ some slash) (old) :
    fields slash (getAbsolutePath old new) = fields slash old ++ fields slash new := by
  have joined : fields slash ((if old.getLast? = some slash then old else old ++ [slash]) ++ new) =
      fields slash old ++ fields slash new := by
    split
    · rename_i ends
      have split := fieldsAppendSep slash old.dropLast new
      rwa [← List.singleton_append,← List.append_assoc,List.dropLast_append_getLast? slash ends,fieldsTrail ends] at split
    · rw [List.append_assoc,List.singleton_append,fieldsAppendSep]
  unfold getAbsolutePath
  rw [if_neg relative]
  generalize (if old.getLast? = some slash then old else old ++ [slash]) ++ new = whole at joined
  show fields slash (if whole.getLast? = some slash then whole.dropLast else whole) = _
  split
  · rename_i ends
    rw [fieldsTrail ends,joined]
  · exact joined

variable {u : Setup} {cwd : List Bytes} {change : Change}

def Stored (u : Setup) (cwd : List Bytes) : Prop := ∀ c ∈ cwd, Resolve.Component c ∧ c.length < u.maxName

theorem levelsLead (stored : Stored u cwd) (met : change.Lexical u cwd) : ∃ levels, change.levels u cwd = some levels ∧
    Stored u levels ∧ denotes levels = change.leads (denotes cwd) := by
  cases change with
  | cwd params =>
    obtain ⟨whole,short⟩ := met
    let base := if params.head? = some slash then [] else cwd
    have names : fields slash (getAbsolutePath (getWorkingDirectory u.maxPath cwd) params) = base ++ fields slash params := by
      by_cases top : params.head? = some slash
      · simp [getAbsolutePath,base,top]
      · rw [joinedFields top,whole.resolve_left top,Resolve.fieldsAbsolute fun c member => (stored c member).1]
        simp [base,top]
    have fits : Stored u (base ++ fields slash params) := by
      intro c member
      rcases List.mem_append.mp member with old | new
      · refine stored c ?_
        dsimp only [base] at old
        split at old
        · cases old
        · exact old
      · exact ⟨fieldValid new,short c new⟩
    refine ⟨base ++ fields slash params,?_,fits,?_⟩
    · rw [Change.levels,setWorkingDirectory,names]
      exact if_pos fun c member => (fits c member).2
    · rw [denotes,List.map_append,walkAppend,Change.leads]
      dsimp only [base]
      split <;> rfl
  | cdup =>
    refine ⟨cwd.dropLast,rfl,fun c member => stored c ((List.dropLast_sublist _).subset member),?_⟩
    rcases cwd.eq_nil_or_concat with rfl | ⟨front,last,rfl⟩
    · rfl
    · obtain ⟨dot,dots⟩ := met last (by simp)
      simp [Change.leads,denotes,walkAppend,walk,move,dot,dots]

theorem directoryReached {st} (reached : (changes u).Reach (fun st label => label.1.Lexical u st.1.cwd) st) :
    denotes st.1.cwd = st.2 := by
  refine ((changes u).invariant (P := fun st => Stored u st.1.cwd ∧ denotes st.1.cwd = st.2) ?_ ?_ reached).2
  · rintro ⟨f,_⟩ ⟨first,rfl⟩
    rw [show f.cwd = [] from first]
    exact ⟨nofun,rfl⟩
  · rintro ⟨f,place⟩ ⟨change,trace⟩ _ ⟨stored,here⟩ met ⟨run,genuine,rfl⟩
    obtain rfl : denotes f.cwd = place := here
    have turned := Setting.besideRuns (turns u f change) run genuine
    change if accepted trace then ∀ levels, change.levels u f.cwd = some levels → (facing.after f trace).cwd = levels
      else (facing.after f trace).cwd = f.cwd at turned
    dsimp only
    cases took : accepted trace with
    | false =>
      rw [took] at turned
      rw [show (facing.after f trace).cwd = f.cwd from turned]
      exact ⟨stored,rfl⟩
    | true =>
      rw [took] at turned
      obtain ⟨levels,known,fits,leads⟩ := levelsLead stored met
      rw [show (facing.after f trace).cwd = levels from turned levels known]
      exact ⟨fits,leads⟩

theorem changeReach {ok f place levels} (reached : (changes u).Reach ok (f,place)) (granted : f.auth = true)
    (given : change ≠ .cwd []) (known : change.levels u f.cwd = some levels) (met : ∀ trace, ok (f,place) (change,trace)) :
    (changes u).Reach ok (f.set (.cwd levels),change.leads place) := by
  have may : (facing.beside accepts).May (fun st _ => st = (f.set (.cwd levels),true)) (f,false) (change.run u) := by
    cases change with
    | cwd params =>
      refine mayAsk f ⟨rfl,rfl,rfl,rfl⟩ ?_
      rw [if_pos granted]
      dsimp only [argued]
      rw [if_neg fun empty : params = [] => given (by rw [empty])]
      refine mayAsk (.ok Fs.directory) trivial ?_
      dsimp only
      rw [if_pos (by decide),show setWorkingDirectory u.maxName (absolute u f params) = some levels from known]
      exact mayAsk () trivial (mayAsk () trivial (mayPure rfl))
    | cdup =>
      refine mayAsk f ⟨rfl,rfl,rfl,rfl⟩ ?_
      rw [if_pos granted]
      cases known
      exact mayAsk () trivial (mayAsk () trivial (mayPure rfl))
  obtain ⟨trace,_,run,genuine,after⟩ := may
  obtain ⟨same,took⟩ := Prod.mk.inj ((Setting.besideAfter _ _ _).symm.trans after)
  refine .step reached (met trace) ⟨run,Setting.besideGenuine.mp genuine,?_⟩
  dsimp only
  rw [same,show accepted trace = true from took,if_pos rfl]

def outset : Facade × List Bytes := ({ blank with auth := true },[])

/- CWD a, CWD .. and CDUP: the client is at the root, and a is stored. -/
theorem cdupAstray : ∃ st, (changes linux).Reach (fun _ _ => True) st ∧ denotes st.1.cwd = [ascii "a"] ∧ st.2 = [] := by
  have first : (changes linux).Reach (fun _ _ => True) outset := .start ⟨rfl,rfl⟩
  have second := @changeReach linux (.cwd (ascii "a")) _ _ _ [ascii "a"] first rfl (by decide) rfl fun _ => trivial
  have third := @changeReach linux (.cwd (ascii "..")) _ _ _ [ascii "a",ascii ".."] second rfl (by decide) rfl fun _ => trivial
  exact ⟨_,@changeReach linux .cdup _ _ _ [ascii "a"] third rfl (by decide) rfl fun _ => trivial,by decide,by decide⟩

theorem directoryReachedBack : ∃ st, (changes linux).Reach (fun st label => label.1.Lexical linux st.1.cwd) st ∧
    st.1.cwd = [ascii "b",ascii ".",ascii "c"] ∧ denotes st.1.cwd = st.2 := by
  have first : (changes linux).Reach (fun st label => label.1.Lexical linux st.1.cwd) outset := .start ⟨rfl,rfl⟩
  have second := @changeReach linux (.cwd (ascii "a//b")) _ _ _ [ascii "a",ascii "b"] first rfl (by decide) rfl
    fun _ => ⟨.inr (by decide),by decide⟩
  have third := @changeReach linux .cdup _ _ _ [ascii "a"] second rfl (by decide) rfl fun _ => by rintro _ ⟨⟩; decide
  have fourth := @changeReach linux (.cwd (ascii "/b/./c")) _ _ _ [ascii "b",ascii ".",ascii "c"] third rfl (by decide) rfl
    fun _ => ⟨.inl (by decide),by decide⟩
  exact ⟨_,fourth,rfl,directoryReached fourth⟩

/- A path without the slashes that another one follows, and without one at its end. -/
def squeezed : Bytes → Bytes
  | [] => []
  | b :: rest => if b = slash ∧ (rest = [] ∨ rest.head? = some slash) then squeezed rest else b :: squeezed rest

def tidy (path : Bytes) : Bytes := if squeezed path = [] then [slash] else squeezed path

theorem squeezedFields (text : Bytes) :
    (if text = [] ∨ text.head? = some slash then squeezed text else slash :: squeezed text) =
      separated slash (fields slash text) := by
  induction text with
  | nil => rfl
  | cons b rest ih =>
    by_cases is : b = slash
    · subst is
      rw [if_pos (.inr rfl),fieldsSep,← ih,squeezed]
      simp only [true_and]
    rw [if_neg (by simpa using is),squeezed,if_neg fun both => is both.1]
    cases rest with
    | nil => simp [fields,is,squeezed]
    | cons c rest =>
      by_cases next : c = slash
      · rw [if_pos (.inr (congrArg some next))] at ih
        rw [ih,fields.eq_def slash (b :: c :: rest)]
        simp [is,next]
      · rw [if_neg (by simpa using next)] at ih
        rw [fields.eq_def slash (b :: c :: rest)]
        simp only [if_neg is,if_neg next]
        cases words : fields slash (c :: rest) with
        | nil => exact absurd words (fieldsOpen _ next)
        | cons word words' =>
          rw [words,separatedCons] at ih
          simpa using ih

theorem squeezedShort (text : Bytes) : (squeezed text).length ≤ text.length := by
  induction text with
  | nil => exact le_rfl
  | cons b rest ih =>
    rw [squeezed]
    split
    · exact Nat.le_succ_of_le ih
    · exact Nat.succ_le_succ ih

theorem joinedWhole {maxPath} (levels : List Bytes) (len : Nat) (fits : len + (separated slash levels).length ≤ maxPath + 1) :
    levels ≠ [] → slash :: joinLevels maxPath len levels = separated slash levels := by
  induction levels generalizing len with
  | nil => exact fun no => absurd rfl no
  | cons name rest ih =>
    intro _
    simp only [separatedCons,List.length_cons,List.length_append] at fits
    rw [joinLevels,if_neg (by omega),separatedCons]
    cases rest with
    | nil => simp
    | cons more rest => rw [if_neg (List.cons_ne_nil _ _),ih _ (by omega) (List.cons_ne_nil _ _)]

section
variable {maxPath maxName : Nat} {path : Bytes}

theorem storedWhole (small : ∀ name ∈ fields slash path, name.length < maxName) :
    setWorkingDirectory maxName path = some (fields slash path) := if_pos small

theorem readBack (top : path.head? = some slash) (short : path.length < maxPath) :
    getWorkingDirectory maxPath (fields slash path) = tidy path := by
  have same := squeezedFields path
  rw [if_pos (.inr top)] at same
  rw [getWorkingDirectory,tidy,same]
  by_cases empty : fields slash path = []
  · simp [empty,joinLevels]
  · have fits := squeezedShort path
    rw [same] at fits
    rw [if_neg fun no => empty (separatedEmpty.mp no),joinedWhole _ 1 (by omega) empty]

theorem directoryTidied (top : path.head? = some slash) (short : path.length < maxPath)
    (small : ∀ name ∈ fields slash path, name.length < maxName) :
    (setWorkingDirectory maxName path).map (getWorkingDirectory maxPath) = some (tidy path) ∧
      (setWorkingDirectory maxName (tidy path)).map (getWorkingDirectory maxPath) = some (tidy path) := by
  have same := squeezedFields path
  rw [if_pos (.inr top)] at same
  have again : fields slash (tidy path) = fields slash path := by
    rw [tidy,same]
    exact (congrArg _ (if_congr separatedEmpty rfl rfl)).trans (Resolve.fieldsAbsolute fun _ member => fieldValid member)
  rw [storedWhole small,storedWhole (by rwa [again]),again,Option.map_some,readBack top short]
  exact ⟨rfl,rfl⟩

end

theorem directoryTidiedTwice :
    (setWorkingDirectory 255 (ascii "//a///b/")).map (getWorkingDirectory 1056) = some (ascii "/a/b") ∧
      (setWorkingDirectory 255 (ascii "/a/b")).map (getWorkingDirectory 1056) = some (ascii "/a/b") :=
  @directoryTidied 1056 255 (ascii "//a///b/") (by decide) (by decide) (by decide)

end OpenPs3Ftp.Legacy
