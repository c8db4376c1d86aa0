import OpenPs3Ftp.Dispatch

/-! Command lines against the names that were registered. -/
namespace OpenPs3Ftp.Registered
open Lib Text Session Dispatch

section Registry
variable {Handle : Type}

def registerEach (table : Table Handle) : List (Bytes × Handle) → Table Handle
  | [] => table
  | (name,handle) :: rest => registerEach ((table.register name handle).getD table) rest

def successes (table : Table Handle) : List (Bytes × Handle) → List (Bytes × Handle)
  | [] => []
  | (name,handle) :: rest =>
    match table.register name handle with
    | none => successes table rest
    | some table => (name,handle) :: successes table rest

def latest (word : Bytes) : List (Bytes × Handle) → Option Handle
  | [] => none
  | (name,handle) :: later => (latest word later).or (if name.map toupper = word.map toupper then some handle else none)

theorem findReplaced (up name handle) (entries : List (Bytes × Handle)) :
    ((Table.replaced up handle entries).find? (·.1 = name)).map (·.2) =
      if up ∈ entries.map (·.1) ∧ up = name then some handle else (entries.find? (·.1 = name)).map (·.2) := by
  induction entries with
  | nil => simp [Table.replaced]
  | cons entry entries ih =>
    obtain ⟨key,old⟩ := entry
    have tail : Table.replaced up handle ((key,old) :: entries) =
        (if key = up then (up,handle) else (key,old)) :: Table.replaced up handle entries := rfl
    rw [tail]
    by_cases here : key = up
    · subst here; by_cases mine : key = name <;> simp [mine,ih]
    have away : up ≠ key := Ne.symm here
    by_cases found : key = name
    · subst found; simp [here,away]
    · have more : up ∈ ((key,old) :: entries).map (·.1) ↔ up ∈ entries.map (·.1) := by simp [away]
      simp only [more]; simpa [here,found] using ih

theorem registerLookup {table table' : Table Handle} {name : Bytes} {handle}
    (registered : table.register name handle = some table') (word) :
    (name ≠ [] ∧ name.length < nameSize) ∧
      table'.lookup word = if name.map toupper = word then some handle else table.lookup word := by
  simp only [Table.register] at registered
  split at registered
  · rename_i fits
    refine ⟨by simpa using fits,?_⟩
    split at registered
    · rename_i known
      cases registered
      simp only [Table.lookup]
      rw [findReplaced]
      simp [known]
    rename_i unknown
    split at registered
    · cases registered
      simp only [Table.lookup,List.find?_append]
      by_cases mine : name.map toupper = word
      · have absent : table.entries.find? (·.1 = word) = none := by
          rw [List.find?_eq_none]
          intro entry member found
          exact unknown (List.mem_map.mpr ⟨entry,member,by simpa [mine] using found⟩)
        simp [absent,mine]
      · simp [mine]
    · cases registered
  · cases registered

theorem lookupEach (table : Table Handle) (word : Bytes) (regs) :
    (registerEach table regs).lookup (word.map toupper) =
      (latest word (successes table regs)).or (table.lookup (word.map toupper)) := by
  induction regs generalizing table with
  | nil => rfl
  | cons reg regs ih =>
    obtain ⟨name,handle⟩ := reg
    rw [registerEach,successes,ih]
    cases registered : table.register name handle with
    | none => rfl
    | some table' =>
      rw [Option.getD_some,(registerLookup registered _).2,latest,Option.or_assoc]
      split <;> rfl

theorem latestShort {table} {word : Bytes} {handle} {regs : List (Bytes × Handle)}
    (found : latest word (successes table regs) = some handle) : word.length < nameSize := by
  induction regs generalizing table with
  | nil => cases found
  | cons reg regs ih =>
    obtain ⟨name,handle'⟩ := reg
    rw [successes] at found
    cases registered : table.register name handle' with
    | none =>
      rw [registered] at found
      exact ih found
    | some table' =>
      rw [registered] at found
      rcases Option.or_eq_some_iff.mp found with later | ⟨-,mine⟩
      · exact ih later
      split at mine
      · rename_i equal
        have length : name.length = word.length := by simpa using congrArg List.length equal
        exact length ▸ (registerLookup registered []).1.2
      · cases mine

end Registry

def firstWord (line : Bytes) : Bytes := (skipSpaces line).takeWhile (· ≠ space)
def argument (line : Bytes) : Bytes := skipSpaces ((skipSpaces line).drop (firstWord line).length)

section Lines
variable {σ Handle : Type} (run : Handle → σ → Option Bytes → Handler σ) (view : σ → Client)

/- What a line is to do: nothing if there is nothing in it, and otherwise what its first word asks
for. Before the login only the names of `prelogin_command` are looked up. -/
def lineSpec (done : List (Bytes × Handle)) (st : σ) (line : Bytes) : Handler σ :=
  if line = [] then return st
  else if ¬ (view st).loggedIn ∧ ¬ preloginCommand ((firstWord line).map toupper) then do
    reply 530 (ascii "Not logged in.")
    return st
  else match latest (firstWord line) done with
    | some handle => do
      invoke (.enter ((firstWord line).map toupper) (view st))
      run handle st (some (argument line))
    | none => do
      reply 502 (ascii "Command not implemented.")
      return st

/- Only spaces, or a registered name of seven letters and more letters behind it. -/
def Mistaken (done : List (Bytes × Handle)) (c : Client) (line : Bytes) : Prop :=
  (line ≠ [] ∧ firstWord line = []) ∨
    (nameSize ≤ (firstWord line).length ∧ c.loggedIn = true ∧
      (latest ((firstWord line).take (nameSize - 1)) done).isSome = true)

theorem wordShort {line} (short : (firstWord line).length < nameSize) :
    commandName line = firstWord line ∧ lineParam line = argument line := by
  have whole : commandName line = firstWord line := List.take_of_length_le (Nat.le_pred_of_lt short)
  exact ⟨whole,by rw [lineParam,whole,argument]⟩

theorem preloginShort {name} (early : preloginCommand name = true) : name.length < nameSize - 1 := by
  have all : ∀ name ∈ preloginNames, name.length < nameSize - 1 := by decide
  exact all name (by simpa [preloginCommand] using early)

theorem lineProcessed (table st) {line} (named : commandName line ≠ []) :
    processLine table run view st line =
      if ¬ (view st).loggedIn ∧ ¬ preloginCommand ((commandName line).map toupper) then do
        reply 530 (ascii "Not logged in.")
        return st
      else match table.lookup ((commandName line).map toupper) with
        | some handle => do
          invoke (.enter ((commandName line).map toupper) (view st))
          run handle st (some (lineParam line))
        | none => do
          reply 502 (ascii "Command not implemented.")
          return st := by
  unfold processLine dispatchCall
  dsimp only
  rw [if_neg (by simpa using named)]
  split
  · rfl
  cases table.lookup ((commandName line).map toupper) with
  | none => rfl
  | some handle => exact congrArg (Program.ask _) (funext fun _ =>
    (Program.bindAssoc (run handle st (some (lineParam line))) _ _).trans (Program.bindDone _))

/- Lines are handled by the word in them, but for those that are mistaken. -/
theorem lineDispatched (regs : List (Bytes × Handle)) (st : σ) (line : Bytes) :
    processLine (registerEach .empty regs) run view st line = lineSpec run view (successes .empty regs) st line ↔
      ¬ Mistaken (successes .empty regs) (view st) line := by
  have found : ∀ name : Bytes, (registerEach .empty regs).lookup (name.map toupper) = latest name (successes .empty regs) :=
    fun name => (lookupEach .empty name regs).trans Option.or_none
  by_cases nothing : line = []
  · subst nothing; exact iff_of_true rfl (by rintro (⟨some_,-⟩ | ⟨long,-⟩) <;> [exact some_ rfl; exact absurd long (by decide)])
  by_cases blank : firstWord line = []
  · have named : commandName line = [] := congrArg (List.take 7) blank
    have silent : processLine (registerEach .empty regs) run view st line = .done st := by
      unfold processLine; rw [named]; rfl
    refine iff_of_false (fun same => ?_) (fun right => right (.inl ⟨nothing,blank⟩))
    rw [silent,lineSpec,if_neg nothing] at same
    split at same <;> [cases same; (split at same <;> cases same)]
  have named : commandName line ≠ [] := by simpa [commandName,firstWord,nameSize] using blank
  rw [lineProcessed _ _ _ _ named,found,lineSpec,if_neg nothing]
  by_cases short : (firstWord line).length < nameSize
  · obtain ⟨name,param⟩ := wordShort short
    rw [name,param]
    exact iff_of_true rfl (by rintro (⟨-,empty⟩ | ⟨long,-⟩) <;> [exact blank empty; omega])
  have unknown : latest (firstWord line) (successes .empty regs) = none :=
    Option.eq_none_iff_forall_ne_some.mpr fun handle found => short (latestShort found)
  have late : ∀ name : Bytes, nameSize - 1 ≤ name.length → preloginCommand name = false := fun name long =>
    Bool.eq_false_iff.mpr fun early => absurd (preloginShort early) (by omega)
  have seven : (commandName line).length = nameSize - 1 := by
    rw [commandName,List.length_take]; exact Nat.min_eq_left (by unfold firstWord at short; omega)
  rw [late _ (by simp [seven]),late _ (by simp; omega),unknown]
  cases login : (view st).loggedIn with
  | false => exact iff_of_true rfl (by rintro (⟨-,empty⟩ | ⟨-,yes,-⟩) <;> [exact blank empty; simp [login] at yes])
  | true =>
    have taken : commandName line = (firstWord line).take (nameSize - 1) := rfl
    rw [taken]
    cases here : latest ((firstWord line).take (nameSize - 1)) (successes .empty regs) with
    | none =>
      refine iff_of_true rfl ?_
      rintro (⟨-,empty⟩ | ⟨-,-,registered⟩)
      · exact blank empty
      · rw [here] at registered; cases registered
    | some handle =>
      refine iff_of_false (fun same => ?_) (fun right => right (.inr ⟨Nat.le_of_not_lt short,login,by rw [here]; rfl⟩))
      cases same

end Lines

def known : Client := { visitor with loggedIn := true }
def echo (_ : Unit) (c : Client) (param : Option Bytes) : Handler Client := do
  reply 200 (param.getD [])
  return c

theorem longWordRuns :
    processLine (registerEach .empty [(ascii "release",())]) echo id known (ascii "RELEASEX now") =
      (do invoke (.enter (ascii "RELEASE") known); echo () known (some (ascii "X now"))) ∧
    lineSpec echo id (successes .empty [(ascii "release",())]) known (ascii "RELEASEX now") =
      (do reply 502 (ascii "Command not implemented."); return known) ∧
    processLine (registerEach .empty [(ascii "release",())]) echo id known (ascii "RELEASEX now") ≠
      lineSpec echo id (successes .empty [(ascii "release",())]) known (ascii "RELEASEX now") := by
  have first : processLine (registerEach .empty [(ascii "release",())]) echo id known (ascii "RELEASEX now") =
      (do invoke (.enter (ascii "RELEASE") known); echo () known (some (ascii "X now"))) := by
    rw [lineProcessed _ _ _ _ (by decide)]; rfl
  have second : lineSpec echo id (successes .empty [(ascii "release",())]) known (ascii "RELEASEX now") =
      (do reply 502 (ascii "Command not implemented."); return known) := rfl
  exact ⟨first,second,by rw [first,second]; nofun⟩

end OpenPs3Ftp.Registered
