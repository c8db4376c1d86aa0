import OpenPs3Ftp.Conversation

/-! Who is logged in. A ledger beside the session keeps the last login the callback
accepted and whether the last PASS was refused; it is read off the calls, not off
the session. -/
namespace OpenPs3Ftp.Authentication
open Lib Text Session Commands Dispatch Program Events

def verdict : Exchange Answer → Option (Bytes × Bytes × Bool)
  | ⟨.auth user pass,answer⟩ => some (user,pass,answer)
  | _ => none

def verdicts (trace : Trace) : List (Bytes × Bytes × Bool) := trace.filterMap verdict

structure Ledger where
  granted : Option (Bytes × Bytes)
  refused : Bool
  deriving DecidableEq

def lastGrant (trace : Trace) : Option (Bytes × Bytes) :=
  ((verdicts trace).filter (·.2.2)).getLast?.map fun v => (v.1,v.2.1)

def Ledger.note (l : Ledger) (_ : Client) (p : Played) : Ledger where
  granted := (lastGrant p.trace).or l.granted
  refused := if Names p.turn (ascii "PASS") then Replied p.trace (replyText 530 r530) else l.refused

def logins (s : Server) : System (Client × Ledger) Played := (connection s).watched ⟨none,false⟩ Ledger.note

/- A session that is logged in is so as the user it stores, by the last accepted
login, and not after a refusal. -/
def Sound (st : Client × Ledger) : Prop :=
  (st.1.loggedIn = true → ∃ pass, st.2.granted = some (st.1.user.text,pass)) ∧
  (st.2.refused = true → st.1.loggedIn = false)

def Renames (c : Client) (turn : Turn) : Prop :=
  match turn with
  | .line text => (commandName text).map toupper = ascii "USER" ∧ lineParam text ≠ [] ∧
      Buffer.print 255 (lineParam text) ≠ c.user
  | _ => False

def Refuses (trace : Trace) : Prop := ∃ v ∈ verdicts trace, v.2.2 = false

def Careful (st : Client × Ledger) (p : Played) : Prop :=
  st.1.loggedIn = true → ¬ Renames st.1 p.turn ∧ ¬ Refuses p.trace

theorem verdictsNoted (trace p) : (noted progress p trace).verdicts = p.verdicts ++ verdicts trace := by
  induction trace generalizing p with
  | nil => simp [noted,verdicts]
  | cons e trace ih =>
    have step : (progress p e.1 e.2).verdicts = p.verdicts ++ (verdict e).toList := by
      obtain ⟨call,answer⟩ := e
      cases call
      case send about text => cases about <;> simp [progress,verdict]
      case dispatch job => cases answer <;> simp [progress,verdict]
      all_goals simp [progress,verdict]
    have rest := ih (progress p e.1 e.2)
    rw [step] at rest
    simp only [noted,List.foldl_cons] at rest ⊢
    rw [rest]
    cases h : verdict e <;> simp [verdicts,h]

variable {s : Server}

theorem lookupLogin {name command} (found : (commandsInit s).lookup name = some command) :
    (command = .user ↔ name = ascii "USER") ∧ (command = .pass ↔ name = ascii "PASS") := by
  have all : ∀ allowStop, ∀ entry ∈ builtin allowStop, (entry.2 = .user ↔ ascii entry.1 = ascii "USER") ∧
      (entry.2 = .pass ↔ ascii entry.1 = ascii "PASS") := by decide
  obtain ⟨entry,member,rfl,rfl⟩ := lookupBuiltin found
  exact all _ entry member

theorem lookupPresent (s) : (commandsInit s).lookup (ascii "USER") = some .user ∧
    (commandsInit s).lookup (ascii "PASS") = some .pass := by
  rw [Table.lookup,Table.lookup,commandsInitEntries]
  cases s.allowStop <;> decide

variable {c c' : Client} {param : Option Bytes} {trace : Trace}

theorem userRuns (run : (cmdUser c param).Runs trace c') :
    verdicts trace = [] ∧ c' = { c with user := (given param).elim c.user (Buffer.print 255) } := by
  unfold cmdUser at run
  split at run
  · rename_i missing
    obtain ⟨⟨⟩,rfl,rfl⟩ := runsOnce run
    exact ⟨rfl,by simp [missing]⟩
  rename_i name present
  obtain ⟨⟨⟩,rfl,rfl⟩ := runsOnce run
  exact ⟨rfl,by simp [present]⟩

inductive Passed (c : Client) (pass : Bytes) : Trace → Client → Prop where
  | nobody : Passed c pass [⟨.send .command (replyText 503 r503),()⟩] c
  | granted (text : Bytes) : Passed c pass [⟨.auth c.user.text pass,true⟩,⟨.send .command (replyText 230 text),()⟩]
      { c with loggedIn := true }
  | refused : Passed c pass [⟨.auth c.user.text pass,false⟩,⟨.send .command (replyText 530 r530),()⟩]
      { c with user := ⟨[],emptyName⟩ }

theorem passRuns
    (auth : s.auth = true) (run : (cmdPass s c param).Runs trace c') : Passed c (param.getD []) trace c' := by
  unfold cmdPass at run
  split at run
  · obtain ⟨⟨⟩,rfl,rfl⟩ := runsOnce run
    exact .nobody
  obtain ⟨ok,rest,rfl,next⟩ := runsInvoke run
  cases ok with
  | true =>
    obtain ⟨⟨⟩,rfl,rfl⟩ := runsOnce next
    exact .granted _
  | false =>
    obtain ⟨⟨⟩,rfl,rfl⟩ := runsOnce next
    exact .refused

theorem notRefusal {code} (msg) (three : (decimal code).length = 3) (other : decimal code ≠ decimal 530) :
    replyText code msg ≠ replyText 530 r530 := by
  intro same
  have front := congrArg (List.take 3) same
  rw [replyTextCode msg three,replyTextCode r530 (by decide)] at front
  exact other front

def Steady (c : Client) (trace : Trace) (c' : Client) : Prop :=
  verdicts trace = [] ∧ c'.user = c.user ∧ c'.loggedIn = c.loggedIn

theorem commandSteady {command : Command} (run : (command.run s c param).Runs trace c') (notUser : command ≠ .user)
    (notPass : command ≠ .pass) : Steady c trace c' := by
  rcases (outcomeRuns run).login with ⟨silent,user,login⟩ | is | is
  · rw [verdictsNoted] at silent
    exact ⟨by simpa [nothing] using silent,user,login⟩
  · exact absurd is notUser
  · exact absurd is notPass

inductive Effect (c : Client) (p : Played) (c' : Client) : Prop where
  | steady (notUser : ¬ Names p.turn (ascii "USER")) (notPass : ¬ Names p.turn (ascii "PASS"))
      (same : Steady c p.trace c') : Effect c p c'
  | user {text} (line : p.turn = .line text) (name : (commandName text).map toupper = ascii "USER")
      (silent : verdicts p.trace = [])
      (stored : c'.user = (given (some (lineParam text))).elim c.user (Buffer.print 255))
      (login : c'.loggedIn = c.loggedIn) : Effect c p c'
  | pass {word trace} (name : Names p.turn (ascii "PASS"))
      (entered : p.trace = ⟨.enter (ascii "PASS") c,()⟩ :: trace) (passed : Passed c word trace c') : Effect c p c'

theorem lineEffect {s : Server} {c c' text root trace} (auth : s.auth = true) (lined : Lined s c text trace c') :
    Effect c ⟨root,.line text,trace⟩ c' := by
  obtain ⟨user,pass⟩ := lookupPresent s
  have idle : ((commandsInit s).lookup ((commandName text).map toupper) = none ∨
      preloginCommand ((commandName text).map toupper) = false ∨ (commandName text).map toupper = []) →
      Steady c trace c' → Effect c ⟨root,.line text,trace⟩ c' := by
    intro unheard same
    refine .steady (fun is => ?_) (fun is => ?_) same
    · have name : (commandName text).map toupper = ascii "USER" := is
      rw [name,user] at unheard
      exact absurd unheard (by decide)
    · have name : (commandName text).map toupper = ascii "PASS" := is
      rw [name,pass] at unheard
      exact absurd unheard (by decide)
  cases lined with
  | empty blank => exact idle (.inr (.inr blank)) ⟨rfl,rfl,rfl⟩
  | shut _ late => exact idle (.inr (.inl late)) ⟨rfl,rfl,rfl⟩
  | unknown missing => exact idle (.inl missing) ⟨rfl,rfl,rfl⟩
  | @entered command trace _ found gate run =>
    obtain ⟨isUser,isPass⟩ := lookupLogin found
    by_cases first : command = .user
    · subst first
      obtain ⟨silent,rfl⟩ := userRuns run
      exact .user rfl (isUser.mp rfl) (by simpa [verdicts,verdict] using silent) rfl rfl
    by_cases second : command = .pass
    · subst second
      have name := isPass.mp rfl
      exact .pass name (by rw [name]) (passRuns auth run)
    · obtain ⟨silent,same⟩ := commandSteady run first second
      exact .steady (fun is => first (isUser.mpr is)) (fun is => second (isPass.mpr is))
        ⟨by simpa [verdicts,verdict] using silent,same⟩

theorem turnEffect {p} (auth : s.auth = true) (step : (connection s).step c p c') : Effect c p c' := by
  obtain ⟨root,turn,trace⟩ := p
  obtain ⟨-,run⟩ := step
  cases turn with
  | line text => exact @lineEffect { s with root } _ _ _ _ _ auth (lineRuns run)
  | urgent =>
    obtain ⟨rest,rfl,abort⟩ := urgentRuns run
    refine .steady id id ?_
    cases abortRuns abort <;> exact ⟨rfl,rfl,rfl⟩
  | buffer rbuf | leave =>
    obtain ⟨rfl,rfl⟩ := runsDone.mp run
    exact .steady id id ⟨rfl,rfl,rfl⟩
  | shake =>
    obtain ⟨result,rfl,rfl⟩ := runsOnce run
    refine .steady id id ⟨rfl,?_⟩
    cases result <;> exact ⟨rfl,rfl⟩
  | drop =>
    obtain ⟨rfl,rfl⟩ := disconnectRuns run
    refine .steady id id ⟨?_,rfl,rfl⟩
    cases c.job <;> cases c.pasvFd <;> rfl
  | complete posted =>
    have silent : ∀ rest, verdicts (posted.closes ++ rest) = verdicts rest := by
      intro rest
      unfold Posted.closes
      cases posted.dataFd <;> cases posted.job.pasvFd <;> rfl
    refine .steady id id ?_
    cases completeRuns run with
    | stale =>
      have quiet := silent []
      rw [List.append_nil] at quiet
      exact ⟨quiet,rfl,rfl⟩
    | plain => exact ⟨silent [_],rfl,rfl⟩
    | aborted => exact ⟨silent [_,_],rfl,rfl⟩

theorem grantNone (silent : verdicts trace = []) (l : Ledger) :
    (lastGrant trace).or l.granted = l.granted := by simp [lastGrant,silent]

section Effects
variable {c c' : Client} {l : Ledger} {p : Played} (sound : Sound (c,l))
include sound

theorem steadySound (notUser : ¬ Names p.turn (ascii "USER")) (notPass : ¬ Names p.turn (ascii "PASS"))
    (same : Steady c p.trace c') : Sound (c',l.note c p) ∧ Careful (c,l) p := by
  obtain ⟨silent,user,login⟩ := same
  constructor
  · have kept : l.note c p = l := by simp [Ledger.note,grantNone silent,notPass]
    rw [kept]
    exact ⟨fun logged => by rw [user]; exact sound.1 (login ▸ logged),fun refused => login.trans (sound.2 refused)⟩
  refine fun _ => ⟨fun renames => notUser ?_,by simp [Refuses,silent]⟩
  unfold Renames at renames
  split at renames
  · rename_i text line
    rw [line]
    exact renames.1
  · contradiction

theorem userSound {text} (line : p.turn = .line text) (name : (commandName text).map toupper = ascii "USER")
    (silent : verdicts p.trace = [])
    (stored : c'.user = (given (some (lineParam text))).elim c.user (Buffer.print 255))
    (login : c'.loggedIn = c.loggedIn) : Sound (c',l.note c p) ↔ Careful (c,l) p := by
  have notPass : ¬ Names p.turn (ascii "PASS") := by
    rw [line]
    intro is
    exact absurd (name.symm.trans is) (by decide)
  have kept : l.note c p = l := by simp [Ledger.note,grantNone silent,notPass]
  have calm : ¬ Refuses p.trace := by simp [Refuses,silent]
  have renames : Renames c p.turn ↔ c'.user ≠ c.user := by
    rw [line,stored]
    by_cases blank : lineParam text = []
    · simp [Renames,givenSome,blank]
    · simp [Renames,name,givenSome,blank]
  rw [kept]
  constructor
  · rintro ⟨known,-⟩ logged
    obtain ⟨pass,granted⟩ := sound.1 logged
    obtain ⟨other,again⟩ := known (login.trans logged)
    have same : c.user.text = c'.user.text := congrArg Prod.fst (Option.some.inj (granted.symm.trans again))
    exact ⟨fun changed => renames.mp changed (Buffer.ext same.symm),calm⟩
  intro careful
  refine ⟨fun logged => ?_,fun refused => login.trans (sound.2 refused)⟩
  have logged : c.loggedIn = true := login.symm.trans logged
  have same : c'.user = c.user := not_not.mp fun changed => (careful logged).1 (renames.mpr changed)
  rw [same]
  exact sound.1 logged

theorem passSound {word} (name : Names p.turn (ascii "PASS"))
    (entered : p.trace = ⟨.enter (ascii "PASS") c,()⟩ :: trace) (passed : Passed c word trace c') :
    Sound (c',l.note c p) ↔ Careful (c,l) p := by
  have renames : ¬ Renames c p.turn := by
    unfold Renames
    split
    · rename_i text line
      rw [line] at name
      rintro ⟨is,-⟩
      exact absurd (is.symm.trans name) (by decide)
    · exact id
  have noted : l.note c p =
      ⟨(lastGrant (⟨.enter (ascii "PASS") c,()⟩ :: trace)).or l.granted,
        decide (Replied (⟨.enter (ascii "PASS") c,()⟩ :: trace) (replyText 530 r530))⟩ := by
    simp [Ledger.note,name,entered]
  rw [noted,Careful,entered]
  cases passed with
  | nobody =>
    have other : ¬ Replied [⟨.enter (ascii "PASS") c,()⟩,⟨.send .command (replyText 503 r503),()⟩]
        (replyText 530 r530) := by
      simpa [Replied] using notRefusal r503 (by decide) (by decide)
    rw [decide_eq_false other]
    exact ⟨fun _ _ => ⟨renames,by rintro ⟨v,⟨⟩,_⟩⟩,fun _ => ⟨sound.1,by simp⟩⟩
  | granted text =>
    have other : ¬ Replied [⟨.enter (ascii "PASS") c,()⟩,⟨.auth c.user.text word,true⟩,
        ⟨.send .command (replyText 230 text),()⟩] (replyText 530 r530) := by
      simpa [Replied] using notRefusal text (by decide) (by decide)
    rw [decide_eq_false other]
    refine ⟨fun _ _ => ⟨renames,?_⟩,fun _ => ⟨fun _ => ⟨word,rfl⟩,by simp⟩⟩
    rintro ⟨v,member,refused⟩
    rw [List.mem_singleton.mp (show v ∈ [(c.user.text,word,true)] from member)] at refused
    contradiction
  | refused =>
    have told : Replied [⟨.enter (ascii "PASS") c,()⟩,⟨.auth c.user.text word,false⟩,
        ⟨.send .command (replyText 530 r530),()⟩] (replyText 530 r530) := ⟨_,.tail _ (.tail _ (.head _)),rfl⟩
    rw [decide_eq_true told]
    constructor
    · intro good logged
      have out : c.loggedIn = false := good.2 rfl
      rw [out] at logged
      contradiction
    intro careful
    have out : c.loggedIn = false := by
      cases logged : c.loggedIn with
      | false => rfl
      | true => exact absurd ⟨(c.user.text,word,false),.head _,rfl⟩ (careful logged).2
    exact ⟨fun logged => absurd (out.symm.trans logged) (by decide),fun _ => out⟩

end Effects

theorem stepSound {st st' p} (auth : s.auth = true) (sound : Sound st) (step : (logins s).step st p st') :
    Sound st' ↔ Careful st p := by
  obtain ⟨c,l⟩ := st
  obtain ⟨c',l'⟩ := st'
  obtain ⟨moved,noted⟩ := step
  obtain rfl : l' = l.note c p := noted
  cases turnEffect auth moved with
  | steady notUser notPass same =>
    obtain ⟨left,right⟩ := steadySound sound notUser notPass same
    exact ⟨fun _ => right,fun _ => left⟩
  | user line name silent stored login => exact userSound sound line name silent stored login
  | pass name entered passed => exact passSound sound name entered passed

theorem loginSound (s : Server) (auth : s.auth = true) (st : Client × Ledger)
    (reached : (logins s).Reach Careful st) :
    Sound st ∧ ∀ p st', (logins s).step st p st' → (Sound st' ↔ Careful st p) := by
  have sound : Sound st := by
    refine System.invariant ?_ (fun st p st' sound careful step => (stepSound auth sound step).mpr careful) reached
    rintro ⟨c,l⟩ ⟨⟨peer,greeting,run⟩,fresh⟩
    obtain rfl : c = _ := acceptRuns run
    obtain rfl : l = _ := fresh
    exact ⟨by simp [clientNew],by simp⟩
  exact ⟨sound,fun p st' step => stepSound auth sound step⟩

def guarded : Server := serverCreate bareLibc true
def entering : List Utterance := words (.error .enoent) ["USER alice","PASS secret"]
def rename : Utterance := ⟨"USER mallory",obliging (.error .enoent)⟩
def aliceIn : Client × Ledger := converse guarded Ledger.note (visitor,⟨none,false⟩) entering

theorem loginSoundAlice : aliceIn.1.loggedIn = true ∧ Sound aliceIn := by
  have out {st p} (not : st.1.loggedIn = false) : Careful st p := fun logged => by
    rw [not] at logged
    contradiction
  have agreed : Agreed guarded Ledger.note Careful (visitor,⟨none,false⟩) entering :=
    ⟨⟨rfl,rfl⟩,out rfl,by decide +kernel,out (by decide +kernel),trivial⟩
  exact ⟨by decide +kernel,(loginSound guarded rfl aliceIn (converseReach (newcomerReach .unspec rfl) agreed)).1⟩

theorem loginRenamed : ∃ p st', (logins guarded).Reach (fun _ _ => True) st' ∧
    (logins guarded).step aliceIn p st' ∧ st'.1.loggedIn = true ∧ st'.1.user.text = ascii "mallory" ∧
    st'.2 = ⟨some (ascii "alice",ascii "secret"),false⟩ ∧ ¬ Sound st' := by
  have agreed : Agreed guarded Ledger.note (fun _ _ => True) (visitor,⟨none,false⟩) entering := by decide +kernel
  let last := conversed guarded Ledger.note aliceIn rename
  obtain ⟨open_,in_,user,ledger⟩ : (aliceIn.1.connected = true ∧ aliceIn.1.tlsHandshaking = false) ∧
      last.1.loggedIn = true ∧ last.1.user.text = ascii "mallory" ∧
      last.2 = ⟨some (ascii "alice",ascii "secret"),false⟩ := by decide +kernel
  have step : (logins guarded).step aliceIn (rename.played guarded aliceIn.1) last := saidStep open_
  refine ⟨_,last,.step (converseReach (newcomerReach .unspec rfl) agreed) trivial step,step,in_,user,ledger,?_⟩
  rintro ⟨known,-⟩
  obtain ⟨pass,granted⟩ := known in_
  rw [user,ledger] at granted
  have same : ascii "alice" = ascii "mallory" := congrArg Prod.fst (Option.some.inj granted)
  exact absurd same (by decide)

end OpenPs3Ftp.Authentication
