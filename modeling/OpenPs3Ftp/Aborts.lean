import OpenPs3Ftp.Authentication

/-! ABOR and its replies. A tally beside the session counts the aborts the client
sent and the replies to them. Urgent data is also delivered inline, so an urgent
abort comes back as a line; until then it is owed, and further urgent signals are
the same one. -/
namespace OpenPs3Ftp.Aborts
open Lib Text Session Commands Dispatch Program Events

def abortSaid : About × Bytes := (.abort,replyText 226 (ascii "Abort successful."))

structure Tally where
  sent : Nat
  owed : Bool
  answered : Nat
  deriving DecidableEq

def Abort (turn : Turn) : Prop :=
  match turn with
  | .urgent => True
  | turn => Names turn (ascii "ABOR")

instance : DecidablePred Abort := by
  intro turn
  unfold Abort
  split <;> infer_instance

def Tally.note (t : Tally) (_ : Client) (p : Played) : Tally where
  sent := if Abort p.turn ∧ t.owed = false then t.sent + 1 else t.sent
  owed := match p.turn with
    | .urgent => true
    | turn => if Names turn (ascii "ABOR") then false else t.owed
  answered := t.answered + (sends p.trace).countP (·.1 = .abort)

def aborts (s : Server) : System (Client × Tally) Played := (connection s).watched ⟨0,false,0⟩ Tally.note

def Settled (st : Client × Tally) : Prop :=
  st.1.connected = true → st.2.answered + (if st.1.aborPending then 1 else 0) = st.2.sent ∧
    (st.1.aborPending = true → st.1.job ≠ none)

/- What a turn says about aborts: at once and alone when no transfer is active, and
otherwise right after the final reply of the client's own transfer. -/
def Proper (c : Client) (p : Played) : Prop :=
  (Abort p.turn → sends p.trace = if c.job = none then [abortSaid] else []) ∧
  (¬ Abort p.turn → ∀ first rest text, sends p.trace = first ++ (.abort,text) :: rest →
    ∃ job final, c.job = some job ∧ c.aborPending = true ∧ first.getLast? = some (.finished job,final))

def Orderly (st : Client × Tally) (p : Played) : Prop :=
  Abort p.turn → (p.turn = .urgent ∨ st.1.loggedIn = true) ∧
    if st.1.job = none then st.2.owed = false else st.1.aborPending = st.2.owed

theorem abortsNoted (trace p) : (noted progress p trace).aborts = p.aborts + (sends trace).countP (·.1 = .abort) := by
  induction trace generalizing p with
  | nil => simp [noted,sends]
  | cons e trace ih =>
    have step : (progress p e.1 e.2).aborts = p.aborts + (said e).toList.countP (·.1 = .abort) := by
      obtain ⟨call,answer⟩ := e
      cases call
      case send about text => cases about <;> simp [progress,said]
      case dispatch job => cases answer <;> simp [progress,said]
      all_goals simp [progress,said]
    have rest := ih (progress p e.1 e.2)
    simp only [noted,List.foldl_cons] at rest ⊢
    rw [rest,step]
    cases h : said e <;> simp [sends,h,List.countP_cons]
    omega

variable {s : Server}

theorem lookupAbort {name command} (found : (commandsInit s).lookup name = some command) :
    command = .abor ↔ name = ascii "ABOR" := by
  have all : ∀ allowStop, ∀ entry ∈ builtin allowStop, entry.2 = .abor ↔ ascii entry.1 = ascii "ABOR" := by decide
  obtain ⟨entry,member,rfl,rfl⟩ := lookupBuiltin found
  exact all _ entry member

inductive Aside (c : Client) (p : Played) (c' : Client) : Prop where
  | calm (silent : (sends p.trace).countP (·.1 = .abort) = 0) (pending : c'.aborPending = c.aborPending)
      (busy : c.aborPending = true → c.job ≠ none → c'.job ≠ none) : Aside c p c'
  | gone (silent : (sends p.trace).countP (·.1 = .abort) = 0) (away : c'.connected = false) : Aside c p c'
  | ended {job final} (own : c.job = some job) (pending : c.aborPending = true)
      (told : sends p.trace = [(.finished job,final),abortSaid]) (calm : c'.aborPending = false) : Aside c p c'

variable {c c' : Client}

theorem commandAside {command : Command} {param trace} (run : (command.run s c param).Runs trace c')
    (other : command ≠ .abor) :
    (sends trace).countP (·.1 = .abort) = 0 ∧ c'.aborPending = c.aborPending ∧ (c.job ≠ none → c'.job ≠ none) := by
  have outcome := outcomeRuns run
  obtain ⟨silent,pending⟩ := (if_neg other).mp outcome.abort
  rw [abortsNoted] at silent
  refine ⟨by simpa [nothing] using silent,pending,fun busy => ?_⟩
  have job := outcome.job
  split at job
  · rw [job]
    exact busy
  · rw [job.1]
    simp

theorem lineAside {s c c' text root trace} (other : (commandName text).map toupper ≠ ascii "ABOR")
    (lined : Lined s c text trace c') : Aside c ⟨root,.line text,trace⟩ c' := by
  cases lined with
  | empty | shut | unknown => exact .calm rfl rfl fun _ busy => busy
  | entered found gate run =>
    obtain ⟨silent,pending,busy⟩ := commandAside run fun is => other ((lookupAbort found).mp is)
    exact .calm (by simpa [sends,said] using silent) pending fun _ => busy

theorem sendsCloses (posted : Posted) (rest) : sends (posted.closes ++ rest) = sends rest := by
  unfold Posted.closes
  cases posted.dataFd <;> cases posted.job.pasvFd <;> rfl

theorem completeAside {posted : Posted} {root trace}
    (own : posted.job.generation = c.generation → c.job = some posted.job.id)
    (run : (datachanComplete posted c).Runs trace c') : Aside c ⟨root,.complete posted,trace⟩ c' := by
  cases completeRuns run with
  | stale =>
    have silent := sendsCloses posted []
    rw [List.append_nil] at silent
    exact .calm (by rw [silent]; rfl) rfl fun _ busy => busy
  | plain here calm => exact .calm (by rw [sendsCloses]; rfl) rfl fun pending => absurd (calm.symm.trans pending) (by decide)
  | aborted here pending => exact .ended (own here) pending (sendsCloses posted _) rfl

variable {p : Played}

theorem turnAside (other : ¬ Abort p.turn) (step : (connection s).step c p c') : Aside c p c' := by
  obtain ⟨root,turn,trace⟩ := p
  obtain ⟨ready,run⟩ := step
  cases turn with
  | line text => exact @lineAside { s with root } _ _ _ _ _ other (lineRuns run)
  | urgent => exact absurd trivial other
  | buffer rbuf | leave =>
    obtain ⟨rfl,rfl⟩ := runsDone.mp run
    exact .calm rfl rfl fun _ busy => busy
  | shake =>
    obtain ⟨result,rfl,rfl⟩ := runsOnce run
    refine .calm rfl ?_ ?_ <;> cases result <;> simp [shaken]
  | drop =>
    obtain ⟨rfl,rfl⟩ := disconnectRuns run
    refine .gone ?_ rfl
    cases c.job <;> cases c.pasvFd <;> rfl
  | complete posted => exact completeAside ready.2 run

variable {t : Tally}

theorem asideKept (other : ¬ Abort p.turn) :
    (t.note c p).sent = t.sent := by
  simp [Tally.note,other]

theorem asideSettled (connected : c.connected = true)
    (settled : Settled (c,t)) (other : ¬ Abort p.turn) (aside : Aside c p c') :
    Proper c p ∧ Settled (c',t.note c p) := by
  obtain ⟨count,busy⟩ := settled connected
  have quiet : (sends p.trace).countP (·.1 = .abort) = 0 → Proper c p := by
    intro silent
    refine ⟨fun is => absurd is other,fun _ first rest text split => ?_⟩
    rw [split] at silent
    simp [List.countP_append] at silent
  cases aside with
  | calm silent pending still =>
    refine ⟨quiet silent,fun _ => ?_⟩
    simp only [asideKept other]
    rw [Tally.note]
    simp only [silent,pending,Nat.add_zero]
    exact ⟨count,fun waiting => still waiting (busy waiting)⟩
  | gone silent away =>
    exact ⟨quiet silent,fun here => absurd (away.symm.trans here) (by decide)⟩
  | @ended job final own pending told calm =>
    refine ⟨⟨fun is => absurd is other,fun _ first rest text split => ⟨job,final,own,pending,?_⟩⟩,fun _ => ?_⟩
    · rw [told] at split
      match first with
      | [] => simp at split
      | [_] =>
        simp only [List.cons_append,List.nil_append,List.cons.injEq] at split
        rw [split.1]
        rfl
      | _ :: _ :: _ => simp at split
    simp only [asideKept other,calm]
    rw [Tally.note]
    simp only [told]
    rw [if_pos pending] at count
    exact ⟨count,by simp⟩

theorem abortSettled {name rest} (connected : c.connected = true) (settled : Settled (c,t)) (abort : Abort p.turn)
    (entered : p.trace = ⟨.enter name c,()⟩ :: rest) (aborted : Aborted c rest c') :
    Proper c p ∧ Settled (c',t.note c p) ↔ if c.job = none then t.owed = false else c.aborPending = t.owed := by
  obtain ⟨count,busy⟩ := settled connected
  have sent : (t.note c p).sent = if t.owed = false then t.sent + 1 else t.sent := by simp [Tally.note,abort]
  cases aborted with
  | @active job held =>
    have told : sends p.trace = [] := by rw [entered]; rfl
    have answered : (t.note c p).answered = t.answered := by simp [Tally.note,told]
    have proper : Proper c p := ⟨fun _ => by simp [told,held],fun not => absurd abort not⟩
    simp only [proper,true_and,Settled,connected,true_implies,sent,answered,held]
    cases t.owed <;> cases h : c.aborPending <;> simp [h] at count ⊢ <;> omega
  | idle free =>
    have told : sends p.trace = [abortSaid] := by rw [entered]; rfl
    have answered : (t.note c p).answered = t.answered + 1 := by simp [Tally.note,told,abortSaid]
    have proper : Proper c p := ⟨fun _ => by simp [told,free],fun not => absurd abort not⟩
    have calm : c.aborPending = false := by
      cases h : c.aborPending with
      | false => rfl
      | true => exact absurd free (busy h)
    simp only [proper,true_and,Settled,connected,true_implies,sent,answered,free,calm]
    rw [calm] at count
    cases t.owed <;> simp at count ⊢ <;> omega

theorem stepSettled {st st'} (settled : Settled st) (step : (aborts s).step st p st') :
    Proper st.1 p ∧ Settled st' ↔ Orderly st p := by
  obtain ⟨c,t⟩ := st
  obtain ⟨c',t'⟩ := st'
  obtain ⟨moved,noted⟩ := step
  obtain rfl : t' = t.note c p := noted
  have connected : c.connected = true := by
    obtain ⟨root,turn,trace⟩ := p
    obtain ⟨ready,-⟩ := moved
    cases turn <;> first | exact ready.1 | exact ready
  by_cases abort : Abort p.turn
  · obtain ⟨root,turn,trace⟩ := p
    obtain ⟨ready,run⟩ := moved
    cases turn with
    | urgent =>
      obtain ⟨rest,entered,handled⟩ := urgentRuns run
      rw [abortSettled connected settled abort entered (abortRuns handled)]
      simp [Orderly,Abort]
    | line text =>
      have name : (commandName text).map toupper = ascii "ABOR" := abort
      cases lineRuns run with
      | empty blank => exact absurd (name.symm.trans blank) (by decide)
      | unknown missing =>
        rw [name,lookupAbor] at missing
        contradiction
      | shut out late =>
        constructor
        · rintro ⟨⟨proper,-⟩,-⟩
          have told : [(About.command,replyText 530 (ascii "Not logged in."))] = if c.job = none then [abortSaid] else [] :=
            proper abort
          split at told <;> simp [abortSaid] at told
        intro orderly
        obtain ⟨early,-⟩ := orderly abort
        have out : c.loggedIn = false := out
        simp [out] at early
      | entered found gate handled =>
        have is := (lookupAbort found).mpr name
        subst is
        have logged : c.loggedIn = true := by
          rw [name] at gate
          exact gate.resolve_right (by decide)
        rw [abortSettled connected settled abort rfl (abortRuns handled)]
        simp [Orderly,abort,logged]
    | buffer | leave | shake | drop | complete => exact abort.elim
  · have aside := asideSettled connected settled abort (turnAside abort moved)
    exact ⟨fun _ is => absurd is abort,fun _ => aside⟩

theorem abortsAnswered (s : Server) (st : Client × Tally) (reached : (aborts s).Reach Orderly st) :
    Settled st ∧ ∀ p st', (aborts s).step st p st' → (Proper st.1 p ∧ Settled st' ↔ Orderly st p) := by
  have settled : Settled st := by
    refine System.invariant ?_ (fun st p st' settled orderly step => ((stepSettled settled step).mpr orderly).2) reached
    rintro ⟨c,t⟩ ⟨⟨peer,greeting,run⟩,none_⟩
    obtain rfl : c = _ := acceptRuns run
    obtain rfl : t = _ := none_
    exact fun _ => ⟨rfl,by simp [clientNew]⟩
  exact ⟨settled,fun p st' step => stepSettled settled step⟩

open Authentication (guarded entering)

def aborting : Utterance := ⟨"ABOR",obliging (.error .enoent)⟩
def aliceIdle : Client × Tally := converse guarded Tally.note (visitor,⟨0,false,0⟩) entering
def aborted : Client × Tally := conversed guarded Tally.note aliceIdle aborting
def urgentSignal (c : Client) : Played := ⟨guarded.root,.urgent,[⟨.enter (ascii "ABOR") c,()⟩,abortReply]⟩
def signalled (st : Client × Tally) : Client × Tally := (st.1,st.2.note st.1 (urgentSignal st.1))

theorem signalStep {st} (open_ : st.1.connected = true ∧ st.1.tlsHandshaking = false) (idle : st.1.job = none) :
    (aborts guarded).step st (urgentSignal st.1) (signalled st) :=
  ⟨⟨open_,urgentIdle guarded idle⟩,rfl⟩

theorem abortsAnsweredInBand : aborted.2 = ⟨1,false,1⟩ ∧ Settled aborted := by
  have calm {st p} (not : ¬ Abort p.turn) : Orderly st p := fun is => absurd is not
  have agreed : Agreed guarded Tally.note Orderly (visitor,⟨0,false,0⟩) (entering ++ [aborting]) :=
    ⟨⟨rfl,rfl⟩,calm (by decide),by decide +kernel,calm (by decide),by decide +kernel,
      fun _ => ⟨.inr (by decide +kernel),by decide +kernel⟩,trivial⟩
  exact ⟨by decide +kernel,(abortsAnswered guarded _ (converseReach (newcomerReach .unspec rfl) agreed)).1⟩

theorem urgentTwice : ∃ st, (aborts guarded).Reach (fun _ _ => True) st ∧ st.2 = ⟨1,false,2⟩ ∧ ¬ Settled st := by
  have agreed : Agreed guarded Tally.note (fun _ _ => True) (visitor,⟨0,false,0⟩) entering := by decide +kernel
  have signal := @signalStep aliceIdle (by decide +kernel) (by decide +kernel)
  have there := System.Reach.step (converseReach (newcomerReach .unspec rfl) agreed) trivial signal
  refine ⟨conversed guarded Tally.note (signalled aliceIdle) aborting,.step there trivial (saidStep (by decide +kernel)),
    by decide +kernel,fun settled => ?_⟩
  exact absurd (settled (by decide +kernel)).1 (by decide +kernel)

end OpenPs3Ftp.Aborts
