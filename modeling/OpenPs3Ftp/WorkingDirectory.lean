import OpenPs3Ftp.Lib.Transition
import OpenPs3Ftp.Commands.Discipline

/-! The working directory over a session. The session stores a text; here the
directory itself is followed as a list of components, the one the last accepted
CWD or CDUP moved to, and compared with what the text makes of later arguments. -/
namespace OpenPs3Ftp.WorkingDirectory
open Lib Text Resolve Fs Session Commands Dispatch Program

def target (dir : List Bytes) (param : Option Bytes) : List Bytes :=
  match given param with
  | none => dir
  | some arg => walk (if arg.head? = some slash then [] else dir) ((fields slash arg).map move)

def kept (root : Bytes) (dir : List Bytes) : List Bytes :=
  if (splitComponents root maxPath rootCap).length ≤ dir.length then
    dir.drop (splitComponents root maxPath rootCap).length else dir

/- Parameters that resolve as they should: the directory is kept or climbed out of
anyway, and the argument and the component stack fit their buffers. -/
def Safe (root : Bytes) (dir : List Bytes) (param : Option Bytes) : Prop :=
  match given param with
  | none => True
  | some arg => arg.length < maxPath ∧ (arg.head? = some slash ∨
      (kept root dir = dir ∨ dir.length ≤ climb 0 (argMoves arg)) ∧
        HasRoom stackCap (kept root dir).length (argMoves arg))

instance (root dir param) : Decidable (Safe root dir param) := by
  unfold Safe
  split <;> infer_instance

def Tidy (root : Bytes) (dir : List Bytes) : Prop :=
  dir = [] ∨ root.length ≤ 1 ∨ root.getLast? ≠ some slash

instance (root dir) : Decidable (Tidy root dir) := by unfold Tidy; infer_instance

structure Place where
  client : Client
  dir : List Bytes

structure Request where
  command : Command
  param : Option Bytes
  trace : Trace

def Request.goes (r : Request) : Option (Option Bytes) :=
  match r.command with
  | .cwd => some r.param
  | .cdup => some (some (ascii ".."))
  | _ => none

/- Sessions of one server: any commands with any answers, the directory moving with
each accepted change. -/
def session (s : Server) : System Place Request where
  start place := place.dir = [] ∧ ∃ peer, place.client = clientNew peer
  step place r place' :=
    (r.command.run s place.client r.param).Runs r.trace place'.client ∧
    match r.goes with
    | some param => (Replied r.trace (replyText 250 r250) → place'.dir = target place.dir param) ∧
        (¬ Replied r.trace (replyText 250 r250) → place'.dir = place.dir)
    | none => place'.dir = place.dir

/- Every change of directory is asked for safely and leads to a tidy directory. -/
def Careful (root : Bytes) (place : Place) (r : Request) : Prop :=
  ∀ param, r.goes = some param →
    Safe root place.dir param ∧ (Replied r.trace (replyText 250 r250) → Tidy root (target place.dir param))

variable {arg : Bytes}

theorem argMovesAll (short : arg.length < maxPath) :
    argMoves arg = (fields slash arg).map move := by
  rw [argMoves,splitAll short]

variable {root : Bytes}

theorem stackAbsolute {cwd} (head : arg.head? = some slash) (short : arg.length < maxPath) :
    resolvedStack root cwd arg = walk [] ((fields slash arg).map move) := by
  have bare : baseStack root [slash] = [] := by
    have none_ : splitComponents [slash] maxPath stackCap = [] := by decide
    simp [baseStack,none_]
  have count := fieldsCount slash arg
  rw [resolvedStack,baseText,if_pos head,bare,argMovesAll short]
  refine walkCappedRoom (hasRoomShort ?_)
  simp only [List.length_nil,List.length_map]
  unfold maxPath at short
  unfold stackCap
  omega

variable {dir : List Bytes}

theorem stackRelative (clean : ∀ name ∈ dir, Clean name)
    (fits : (absolute dir).length < maxPath) (relative : arg.head? ≠ some slash) (short : arg.length < maxPath)
    (keeps : kept root dir = dir ∨ dir.length ≤ climb 0 (argMoves arg))
    (room : HasRoom stackCap (kept root dir).length (argMoves arg)) :
    resolvedStack root (absolute dir) arg = walk dir ((fields slash arg).map move) := by
  have base : baseStack root (absolute dir) = kept root dir := by
    have split := splitAll fits
    rw [fieldsAbsolute fun name member => (clean name member).1] at split
    simp only [baseStack,absoluteHead,if_true,split,kept]
  rw [resolvedStack,baseText,if_neg relative,base,walkCappedRoom room,← argMovesAll short]
  rcases keeps with same | out
  · rw [same]
  refine walkForgets (Nat.le_trans ?_ out) out
  unfold kept
  split
  · simp
  · exact Nat.le_refl _

theorem movesClean (clean : ∀ name ∈ dir, Clean name) : dir.map move = dir.map Move.into :=
  List.map_congr_left fun name member => moveClean (clean name member)

variable {c : Client} {param : Option Bytes}

theorem stackTarget
    (stored : c.cwd.text = absolute dir) (clean : ∀ name ∈ dir, Clean name) (safe : Safe root dir param) :
    resolvedStack root c.cwd.text (argText c param) = target dir param := by
  have fits : (absolute dir).length < maxPath := stored ▸ c.cwd.fits
  unfold Safe at safe
  unfold target argText
  split at safe
  · rename_i empty
    rw [empty,Option.getD_none,stored,stackAbsolute (absoluteHead dir) fits,
      fieldsAbsolute fun name member => (clean name member).1,movesClean clean,walkNames,List.nil_append]
  rename_i arg present
  obtain ⟨short,fine⟩ := safe
  simp only [present,Option.getD_some]
  by_cases head : arg.head? = some slash
  · rw [if_pos head,stackAbsolute head short]
  · obtain ⟨keeps,room⟩ := fine.resolve_left head
    rw [if_neg head,stored,stackRelative clean fits head short keeps room]

theorem targetClean
    (stored : c.cwd.text = absolute dir) (clean : ∀ name ∈ dir, Clean name) (safe : Safe root dir param) :
    ∀ name ∈ target dir param, Clean name := by
  rw [← stackTarget stored clean safe]
  refine resolvedKeeps _ _ _ (fun _ _ h => h) ?_
  rw [stored,fieldsAbsolute fun name member => (clean name member).1]
  exact clean

theorem topAccepted (accepted : root.head? = some slash) : top root = root := by
  unfold top
  split
  · rfl
  rename_i short
  match root,accepted with
  | [b],same => exact congrArg (fun x => [x]) (Option.some.inj same).symm
  | b :: d :: rest,_ => simp at short

theorem visibleRooted (accepted : root.head? = some slash)
    (clean : ∀ name ∈ dir, Clean name) (tidy : Tidy root dir) : visible root (rooted root dir) = absolute dir := by
  rw [rooted,topAccepted accepted]
  cases dir with
  | nil => simp [visible,absolute]
  | cons name rest =>
    have nonempty : name ≠ [] := (clean name (by simp)).1.1
    rw [if_neg (by simp),absolute,if_neg (by simp)]
    by_cases long : 1 < root.length
    · have ends : root.getLast? ≠ some slash := by
        rcases tidy with empty | short | ends
        · contradiction
        · omega
        · exact ends
      rw [chop,if_neg ends,visible,if_neg (by simp),if_pos long,List.drop_left]
    · have single : root = [slash] := by rw [← topAccepted accepted,top,if_neg long]
      rw [single,visible,if_neg (by simp [chop,nonempty]),if_neg (by simp)]
      simp [chop]

theorem notAccepted {text code} (msg) (three : (decimal code).length = 3) (other : decimal code ≠ decimal 250)
    (same : text = replyText code msg) : text ≠ replyText 250 r250 := by
  intro accepted
  have codes := congrArg (List.take 3) (same.symm.trans accepted)
  rw [replyTextCode msg three,replyTextCode r250 (by decide)] at codes
  exact other codes

theorem cwdRuns {s c param trace c'} (run : (cmdCwd s c param).Runs trace c') :
    (c' = c ∧ ¬ Replied trace (replyText 250 r250)) ∨
    ∃ path, resolveArg s c param = some path ∧ Replied trace (replyText 250 r250) ∧
      c' = { c with cwd := Buffer.print 1023 (visible s.root.text path) } := by
  unfold cmdCwd at run
  split at run
  · obtain ⟨rfl,rfl⟩ := runsAnswering run
    refine .inl ⟨rfl,?_⟩
    rintro ⟨e,member,text⟩
    rw [List.mem_singleton.mp member] at text
    exact notAccepted r501 (by decide) (by decide) rfl (Call.send.inj text).2
  rename_i path resolved
  obtain ⟨answer,rest,rfl,told⟩ := runsInvoke run
  have failed : ∀ failure, (failing failure c).Runs rest c' →
      c' = c ∧ ¬ Replied (⟨.fs (.stat path),answer⟩ :: rest) (replyText 250 r250) := by
    intro failure ended
    obtain ⟨same,only⟩ := runsFailing ended
    refine ⟨same,?_⟩
    rintro ⟨e,member,text⟩
    rcases List.mem_cons.mp member with rfl | member
    · contradiction
    · rcases only e member with other | ⟨msg,other⟩
      · simp [other] at text
      · exact notAccepted msg (by decide) (by decide) (Call.send.inj (text.symm.trans other)).2 rfl
  rcases answer with e | st
  · exact .inl (failed _ told)
  simp only at told
  split at told
  · obtain ⟨_,after,rfl,ended⟩ := runsInvoke told
    obtain ⟨rfl,rfl⟩ := runsDone.mp ended
    exact .inr ⟨path,resolved,⟨_,.tail _ (.head _),rfl⟩,rfl⟩
  · exact .inl (failed _ told)

variable {s : Server}

theorem cwdAccepts {path} (st) (resolved : resolveArg s c param = some path) (dir : isDir st.mode = true) :
    (cmdCwd s c param).Runs [⟨.fs (.stat path),.ok st⟩,⟨.send .command (replyText 250 r250),()⟩]
      { c with cwd := Buffer.print 1023 (visible s.root.text path) } := by
  unfold cmdCwd
  rw [resolved]
  refine invokeRuns (.fs (.stat path)) (.ok st) ?_
  simp only [if_pos dir]
  exact invokeRuns (.send .command (replyText 250 r250)) () (.done _)

structure Agrees (place : Place) : Prop where
  stored : place.client.cwd.text = absolute place.dir
  clean : ∀ name ∈ place.dir, Clean name

theorem agreesMove {place path} (accepted : s.root.text.head? = some slash) (agrees : Agrees place)
    (safe : Safe s.root.text place.dir param) (tidy : Tidy s.root.text (target place.dir param))
    (resolved : resolveArg s place.client param = some path) :
    Agrees ⟨{ place.client with cwd := Buffer.print 1023 (visible s.root.text path) },target place.dir param⟩ := by
  have clean := targetClean agrees.stored agrees.clean safe
  rw [resolveArgEq,stackTarget agrees.stored agrees.clean safe] at resolved
  split at resolved
  · rename_i fits
    cases Option.some.inj resolved
    have shown := visibleRooted accepted clean tidy
    have short : (visible s.root.text (rooted s.root.text (target place.dir param))).length ≤ 1023 := by
      unfold visible
      unfold maxPath at fits
      split
      · simp
      split
      · simp only [List.length_drop]
        omega
      · omega
    exact ⟨(Buffer.printShort short).trans shown,clean⟩
  · contradiction

theorem sessionAgrees (accepted : s.root.text.head? = some slash) {place}
    (reached : (session s).Reach (Careful s.root.text) place) : Agrees place := by
  refine System.invariant ?_ ?_ reached
  · rintro ⟨c,dir⟩ ⟨rfl,peer,rfl⟩
    exact ⟨by simp [clientNew,absolute],by simp⟩
  rintro place ⟨command,param,trace⟩ place' agrees careful ⟨run,moved⟩
  have going : ∀ param', Request.goes ⟨command,param,trace⟩ = some param' →
      (cmdCwd s place.client param').Runs trace place'.client → Agrees place' := by
    intro param' goes changed
    obtain ⟨safe,tidy⟩ := careful param' goes
    simp only [goes] at moved
    rcases cwdRuns changed with ⟨same,refused⟩ | ⟨path,resolved,granted,same⟩
    · have here : place' = place := by
        cases place; cases place'
        simp_all
      exact here ▸ agrees
    · have there := agreesMove accepted agrees safe (tidy granted) resolved
      rw [← same,← moved.1 granted] at there
      exact there
  have other : command ≠ .cwd → command ≠ .cdup → Agrees place' := by
    intro notCwd notCdup
    have goes : Request.goes ⟨command,param,trace⟩ = none := by cases command <;> simp_all [Request.goes]
    simp only [goes] at moved
    have outcome := (meetsRuns (discipline command s place.client param) run (fun _ _ => trivial)).1
    have same : place'.client.cwd = place.client.cwd := by
      rcases outcome.place with same | ⟨moving,_⟩
      · exact same
      · exact absurd moving (by simp [notCwd,notCdup])
    exact ⟨by rw [same,moved]; exact agrees.stored,by rw [moved]; exact agrees.clean⟩
  by_cases isCwd : command = .cwd
  · subst isCwd
    exact going param rfl run
  by_cases isCdup : command = .cdup
  · subst isCdup
    exact going _ rfl run
  · exact other isCwd isCdup

/- In a careful session every safe argument reaches the filesystem as the root
followed by the place it means in the directory last moved to, PWD prints that
directory, and an argument without a safe path is one too long for the buffer. -/
theorem directoryFollowed (libc : Libc) (auth : Bool) (root : Bytes) (accepted : root.head? = some slash)
    (short : root.length < maxPath) (place : Place)
    (reached : (session ((serverCreate libc auth).setRoot root)).Reach (Careful root) place) :
    (∀ param, Safe root place.dir param →
      resolveArg ((serverCreate libc auth).setRoot root) place.client param =
        if (rooted root (target place.dir param)).length < maxPath then
          some (rooted root (target place.dir param)) else none) ∧
    cmdPwd place.client = answering 257 (quoted (absolute place.dir)) place.client := by
  have stored : ((serverCreate libc auth).setRoot root).root.text = root := by
    simp only [Server.setRoot,accepted,ne_eq,not_true_eq_false,if_false]
    exact Buffer.printShort (Nat.le_of_lt_succ short)
  have agrees := sessionAgrees (by rw [stored]; exact accepted) (by rw [stored]; exact reached)
  constructor
  · intro param safe
    rw [resolveArgEq,stored,stackTarget agrees.stored agrees.clean safe]
  · rw [cmdPwd,agrees.stored]
    rfl

def inside : Place :=
  ⟨{ visitor with cwd := Buffer.print 1023 (ascii "/a") },[ascii "a"]⟩

def enterA (root : Bytes) : Request :=
  ⟨.cwd,some (ascii "a"),[⟨.fs (.stat (root ++ ascii "/a")),.ok ⟨0o040755,0,0,0,0⟩⟩,
    ⟨.send .command (replyText 250 r250),()⟩]⟩

theorem entersA (root) {ok}
    (resolved : resolveArg s visitor (some (ascii "a")) = some (root ++ ascii "/a"))
    (shown : Buffer.print 1023 (visible s.root.text (root ++ ascii "/a")) = Buffer.print 1023 (ascii "/a"))
    (met : ok ⟨visitor,[]⟩ (enterA root)) : (session s).Reach ok inside := by
  have run := cwdAccepts ⟨0o040755,0,0,0,0⟩ resolved (by decide)
  rw [shown] at run
  refine .step (.start ⟨rfl,.unspec,rfl⟩) met ⟨run,fun _ => show [ascii "a"] = target [] (some (ascii "a")) by decide,fun refused => ?_⟩
  exact absurd ⟨_,.tail _ (.head _),rfl⟩ refused

theorem directoryFollowedBelowTwo :
    resolveArg ((serverCreate bareLibc true).setRoot (ascii "/srv/www")) inside.client
      (some (ascii "b")) = some (ascii "/srv/www/a/b") := by
  have followed := directoryFollowed bareLibc true (ascii "/srv/www") (by decide) (by decide)
    inside (entersA (ascii "/srv/www") (by decide) (by decide) (fun param goes => by
      cases Option.some.inj goes
      exact ⟨by decide,fun _ => by decide⟩))
  exact (followed.1 _ (by decide)).trans (by decide)

theorem directoryForgotten :
    (session ((serverCreate bareLibc true).setRoot (ascii "/srv"))).Reach (fun _ _ => True) inside ∧
    inside.dir = [ascii "a"] ∧
    resolveArg ((serverCreate bareLibc true).setRoot (ascii "/srv")) inside.client
      (some (ascii "b")) = some (ascii "/srv/b") ∧
    rooted (ascii "/srv") (target inside.dir (some (ascii "b"))) = ascii "/srv/a/b" :=
  ⟨entersA (ascii "/srv") (by decide) (by decide) trivial,rfl,by decide,by decide⟩

end OpenPs3Ftp.WorkingDirectory
