import OpenPs3Ftp.Commands.Aim
import OpenPs3Ftp.Containment
import OpenPs3Ftp.Hearing

/-! What a command acts on, against what the client sent. A line passes the read buffer,
the line buffer, the fields of the session and the fields of a job. -/
namespace OpenPs3Ftp.Arguments
open Lib Text Resolve Fs Session Commands Dispatch Program Events Hearing
open Containment (srv)

def sentLine (raw : Bytes) : Bytes := if raw.getLast? = some 13 then raw.dropLast else raw
def argument (line : Bytes) : Bytes := skipSpaces ((skipSpaces line).dropWhile (· ≠ space))

theorem lineOfPrefix (raw) : ∃ lost, sentLine raw = lineOf raw ++ lost ∧
    (lost = [] ↔ (sentLine raw).length ≤ 1023 ∧ 0 ∉ sentLine raw) := by
  have front : lineOf raw = cstr ((sentLine raw).take 1023) := rfl
  have cut : (sentLine raw).take 1023 = lineOf raw ++ ((sentLine raw).take 1023).dropWhile (· ≠ 0) := by
    rw [front,cstr,List.takeWhile_append_dropWhile]
  refine ⟨((sentLine raw).take 1023).dropWhile (· ≠ 0) ++ (sentLine raw).drop 1023,?_,?_⟩
  · rw [← List.append_assoc,← cut,List.take_append_drop]
  rw [List.append_eq_nil_iff,List.drop_eq_nil_iff,List.dropWhile_eq_nil_iff]
  constructor
  · rintro ⟨free,short⟩
    rw [List.take_of_length_le short] at free
    exact ⟨short,fun nul => by simpa using free 0 nul⟩
  · rintro ⟨short,free⟩
    rw [List.take_of_length_le short]
    exact ⟨fun b member => decide_eq_true fun same => free (same ▸ member),short⟩

theorem argumentAppend {line lost} (some_ : skipSpaces line ≠ []) :
    argument line = [] ∨ argument (line ++ lost) = argument line ++ lost := by
  have first : skipSpaces (line ++ lost) = skipSpaces line ++ lost := by
    rw [skipSpaces,List.dropWhile_append,if_neg (by simpa [skipSpaces] using some_)]
    rfl
  by_cases word : (skipSpaces line).dropWhile (· ≠ space) = []
  · left
    rw [argument,word]
    rfl
  by_cases gap : argument line = []
  · exact .inl gap
  right
  rw [argument,first,List.dropWhile_append,if_neg (by simpa using word),skipSpaces,List.dropWhile_append,
    if_neg (by simpa [argument,skipSpaces] using gap)]
  rfl

theorem argumentKept {line lost} (some_ : skipSpaces line ≠ []) :
    argument line = argument (line ++ lost) ↔ lost = [] ∨ argument (line ++ lost) = [] := by
  constructor
  · intro same
    rcases @argumentAppend line lost some_ with none | longer
    · exact .inr (same ▸ none)
    · rw [longer] at same
      exact .inl (List.self_eq_append_right.mp same)
  rintro (rfl | none)
  · rw [List.append_nil]
  rcases @argumentAppend line lost some_ with blank | longer
  · rw [blank,none]
  rw [longer] at none
  rw [(List.append_eq_nil_iff.mp none).1,longer,(List.append_eq_nil_iff.mp none).1,
    (List.append_eq_nil_iff.mp none).2]
  rfl

theorem lineParamWhole {s text command}
    (found : (commandsInit s).lookup ((commandName text).map toupper) = some command) :
    lineParam text = argument text ∧ skipSpaces text ≠ [] := by
  have names : ∀ allowStop, ∀ entry ∈ builtin allowStop, 0 < (ascii entry.1).length ∧ (ascii entry.1).length < 7 := by
    decide
  obtain ⟨entry,member,name,-⟩ := lookupBuiltin found
  have size : (commandName text).length = (ascii entry.1).length := by rw [← name,List.length_map]
  obtain ⟨positive,small⟩ := names s.allowStop entry member
  have whole : commandName text = (skipSpaces text).takeWhile (· ≠ space) := by
    refine List.take_of_length_le ?_
    rw [commandName,List.length_take,nameSize] at size
    unfold nameSize
    omega
  constructor
  · have split := @List.takeWhile_append_dropWhile _ (fun b => decide (b ≠ space)) (skipSpaces text)
    have after := congrArg (List.drop ((skipSpaces text).takeWhile (· ≠ space)).length) split
    rw [List.drop_left] at after
    rw [lineParam,argument,whole,after]
  intro blank
  rw [whole,blank] at size
  simp at size
  omega

def unchanged : (call : FsCall) → call.Answer → Bool
  | .stat _,_ => true
  | .mkdir ..,.error _ | .rmdir _,.error _ | .unlink _,.error _ | .rename ..,.error _ | .chmod ..,.error _
  | .utimes ..,.error _ => true
  | _,_ => false

def Vain : (call : Call) → Answer call → Prop
  | .enter ..,_ | .errno,_ => True
  | .newJob _,answer => answer = none
  | .fs call,answer => unchanged call answer = true
  | .send about text,_ => about = .command ∧ ∃ code msg, 400 ≤ code ∧ text = replyText code msg
  | _,_ => False

def Refused (c : Client) (trace : Trace) (c' : Client) : Prop :=
  c' = c ∧ (∀ e ∈ trace, Vain e.1 e.2) ∧ ∃ text, ⟨.send .command text,()⟩ ∈ trace

/- The command works on the argument as it was sent: it is what the handler is given, and
nothing of it is missing in what is stored, named in a call or handed to a worker. -/
structure Kept (s : Server) (c : Client) (raw : Bytes) (command : Command) (trace : Trace)
    (c' : Client) : Prop where
  handed : lineParam (lineOf raw) = argument (sentLine raw)
  user : command = .user → argument (sentLine raw) ≠ [] → c'.user.text = argument (sentLine raw)
  path : takesPath command = true → Settled s c (aim command (argument (sentLine raw))) c' ∧
    ∀ e ∈ trace, Aims s c (aim command (argument (sentLine raw))) e.1

def Fit (raw : Bytes) (command : Command) : Prop :=
  ((sentLine raw).length ≤ 1023 ∧ 0 ∉ sentLine raw ∨ argument (sentLine raw) = []) ∧
    (command = .user → (argument (sentLine raw)).length ≤ 255)

theorem userRuns {c c' arg trace} (some_ : arg ≠ []) (run : (cmdUser c (some arg)).Runs trace c') :
    c'.user.text = arg.take 255 := by
  rw [cmdUser,givenSome,if_neg some_] at run
  obtain ⟨⟨⟩,rfl,rfl⟩ := runsOnce run
  rfl

theorem keptFit {s c c' raw command trace}
    (found : (commandsInit s).lookup ((commandName (lineOf raw)).map toupper) = some command)
    (run : (command.run s c (some (lineParam (lineOf raw)))).Runs trace c') :
    Kept s c raw command trace c' ↔ Fit raw command := by
  obtain ⟨given_,some_⟩ := lineParamWhole found
  obtain ⟨lost,whole,complete⟩ := lineOfPrefix raw
  have same : lineParam (lineOf raw) = argument (sentLine raw) ↔
      ((sentLine raw).length ≤ 1023 ∧ 0 ∉ sentLine raw ∨ argument (sentLine raw) = []) := by
    rw [given_,← complete,whole]
    exact argumentKept some_
  constructor
  · rintro ⟨handed,user,-⟩
    refine ⟨same.mp handed,?_⟩
    rintro rfl
    by_cases blank : argument (sentLine raw) = []
    · simp [blank]
    rw [handed] at run
    have stored := userRuns blank run
    rw [user rfl blank] at stored
    have cut := congrArg List.length stored
    rw [List.length_take] at cut
    omega
  rintro ⟨fits,short⟩
  have handed := same.mpr fits
  rw [handed] at run
  refine ⟨handed,?_,fun paths => ?_⟩
  · rintro rfl blank
    rw [userRuns blank run,List.take_of_length_le (short rfl)]
  · exact obeysRuns (aimedRun paths _) run fun _ _ => trivial

theorem refusedReply {c code msg} (bad : 400 ≤ code) : Refused c [⟨.send .command (replyText code msg),()⟩] c := by
  refine ⟨rfl,fun e member => ?_,_,List.mem_singleton_self _⟩
  rw [List.mem_singleton.mp member]
  exact ⟨rfl,code,msg,bad,rfl⟩

/- Any buffered line: it is blank, refused before a handler is called, or a handler is
called, and then on the argument that was sent exactly if the buffers could hold it. -/
theorem argumentsWhole (s : Server) (c c' : Client) (raw text left rest : Bytes) (trace : List (Exchange Answer))
    (ended : 10 ∉ raw) (taken : getline (raw ++ 10 :: rest) = some (text,left))
    (run : (processLine (commandsInit s) (Command.run s) id c text).Runs trace c') :
    left = rest ∧ ((trace = [] ∧ c' = c) ∨ Refused c trace c' ∨
      ∃ command name tail, (commandsInit s).lookup name = some command ∧ trace = ⟨.enter name c,()⟩ :: tail ∧
        (Kept s c raw command tail c' ∨ Refused c tail c' ↔ Fit raw command ∨ Refused c tail c')) := by
  rw [getlineSome ended] at taken
  cases Option.some.inj taken
  refine ⟨rfl,?_⟩
  cases lineRuns run with
  | empty blank => exact .inl ⟨rfl,rfl⟩
  | shut out late | unknown missing => exact .inr (.inl (refusedReply (by decide)))
  | entered found gate run => exact .inr (.inr ⟨_,_,_,found,rfl,or_congr_left (keptFit found run)⟩)

def deletes : (call : Call) → Answer call
  | .fs (.unlink _) => .ok ()
  | call => Containment.refusals call

def member : Client := { visitor with loggedIn := true }

def handled (raw : Bytes) : Trace × Client :=
  (processLine (commandsInit srv) (Command.run srv) id member (lineOf raw)).play deletes

def Shortened (raw : Bytes) (command : Command) : Prop :=
  10 ∉ raw ∧ raw.length ≤ 4095 ∧
    (commandsInit srv).lookup ((commandName (lineOf raw)).map toupper) = some command ∧
    (processLine (commandsInit srv) (Command.run srv) id member (lineOf raw)).Runs
      (handled raw).1 (handled raw).2 ∧
    ¬ Kept srv member raw command (handled raw).1.tail (handled raw).2 ∧
    ¬ Refused member (handled raw).1.tail (handled raw).2

def longPath : Bytes := ascii "DELE " ++ List.replicate 1100 97
def splitPath : Bytes := ascii "DELE a" ++ 0 :: ascii "b"
def longUser : Bytes := ascii "USER " ++ List.replicate 300 97

def removed (path : Bytes) : Exchange Answer → Bool
  | ⟨.fs (.unlink name),.ok ()⟩ => name = path
  | _ => false

theorem removedKept {c c' path trace} (gone : ∃ e ∈ trace, removed path e = true) : ¬ Refused c trace c' := by
  rintro ⟨-,vain,-⟩
  obtain ⟨e,found,gone⟩ := gone
  unfold removed at gone
  split at gone
  · exact Bool.false_ne_true (vain _ found)
  · contradiction

theorem argumentsCut : Shortened longPath .dele ∧ Shortened splitPath .dele ∧ Shortened longUser .user := by
  have named : (commandsInit srv).lookup (ascii "DELE") = some .dele ∧
      (commandsInit srv).lookup (ascii "USER") = some .user := by decide +kernel
  have names : (commandName (lineOf longPath)).map toupper = ascii "DELE" ∧
      (commandName (lineOf splitPath)).map toupper = ascii "DELE" ∧
      (commandName (lineOf longUser)).map toupper = ascii "USER" := by decide +kernel
  refine ⟨⟨by decide +kernel,by decide +kernel,names.1 ▸ named.1,playRuns _ _,?_,?_⟩,
    ⟨by decide +kernel,by decide +kernel,names.2.1 ▸ named.1,playRuns _ _,?_,?_⟩,
    ⟨by decide +kernel,by decide +kernel,names.2.2 ▸ named.2,playRuns _ _,?_,?_⟩⟩
  · exact fun kept => absurd kept.handed (by decide +kernel)
  · exact @removedKept _ _ (ascii "/srv/" ++ List.replicate 1018 97) _ (by decide +kernel)
  · exact fun kept => absurd kept.handed (by decide +kernel)
  · exact @removedKept _ _ (ascii "/srv/a") _ (by decide +kernel)
  · exact fun kept => absurd (kept.user rfl (by decide +kernel)) (by decide +kernel)
  · exact fun refused => absurd (congrArg Client.user refused.1) (by decide +kernel)

def shortPath : Bytes := ascii "DELE a\r"

theorem argumentsWholeDelete : (∃ e ∈ (handled shortPath).1, removed (ascii "/srv/a") e = true) ∧
    ∃ command name tail, (handled shortPath).1 = ⟨.enter name member,()⟩ :: tail ∧
      Kept srv member shortPath command tail (handled shortPath).2 := by
  have gone : (∃ e ∈ (handled shortPath).1, removed (ascii "/srv/a") e = true) := by decide +kernel
  have whole := (argumentsWhole srv member _ shortPath (lineOf shortPath) (ascii "QUIT") (ascii "QUIT") _
    (by decide) (getlineSome (by decide)) (playRuns deletes _)).2
  refine ⟨gone,?_⟩
  rcases whole with ⟨none,-⟩ | refused | ⟨command,name,tail,-,split,same⟩
  · obtain ⟨e,found,-⟩ := gone
    exact absurd none (List.ne_nil_of_mem found)
  · exact absurd refused (removedKept gone)
  refine ⟨command,name,tail,split,(same.mpr (.inl ⟨.inl ⟨by decide,by decide⟩,fun _ => by decide⟩)).resolve_right ?_⟩
  have split : (handled shortPath).1 = ⟨.enter name member,()⟩ :: tail := split
  obtain ⟨e,found,gone⟩ := gone
  rw [split] at found
  refine removedKept ⟨e,(List.mem_cons.mp found).resolve_left ?_,gone⟩
  rintro rfl
  exact Bool.false_ne_true gone

end OpenPs3Ftp.Arguments
