import OpenPs3Ftp.Dispatch

/-! What a session keeps from one command for a later one: the data channel that was
set up, the restart offset and the sources of a rename and a copy. The commands that
write or use it are taken apart here; all others leave it alone. -/
namespace OpenPs3Ftp.Commands
open Lib Text Resolve Fs Session Dispatch Program

structure Memory where
  pasvFd : Option Fd
  dataPeer : SockAddr
  haveDataPeer : Bool
  rest : Nat
  rnfr : Buffer 1024
  haveRnfr : Bool
  cpfr : Buffer 1024
  haveCpfr : Bool
  deriving DecidableEq

def memory (c : Client) : Memory where
  pasvFd := c.pasvFd
  dataPeer := c.dataPeer
  haveDataPeer := c.haveDataPeer
  rest := c.rest
  rnfr := c.rnfr
  haveRnfr := c.haveRnfr
  cpfr := c.cpfr
  haveCpfr := c.haveCpfr

def memorable : List (String × Command) :=
  [("PASV",.pasv),("EPSV",.epsv),("PORT",.port),("EPRT",.eprt),("REST",.rest),("LIST",.list),("NLST",.nlst),
   ("MLSD",.mlsd),("RETR",.retr),("STOR",.stor),("APPE",.appe),("STOU",.stou),("RNFR",.rnfr),("RNTO",.rnto),
   ("CPFR",.cpfr),("CPTO",.cpto)]

variable {s : Server}

theorem lookupMemorable {name command} (found : (commandsInit s).lookup name = some command) :
    ∀ e ∈ memorable, command = e.2 ↔ name = ascii e.1 := by
  have all : ∀ allowStop, ∀ entry ∈ builtin allowStop, ∀ e ∈ memorable,
      (entry.2 = e.2 ↔ ascii entry.1 = ascii e.1) := by decide +kernel
  obtain ⟨entry,member,rfl,rfl⟩ := lookupBuiltin found
  exact all _ entry member

theorem lookupKept (s) : ∀ e ∈ memorable, (commandsInit s).lookup (ascii e.1) = some e.2 := by
  simp only [Table.lookup,commandsInitEntries]
  cases s.allowStop <;> decide +kernel

/-! What is read off a trace: the calls made with what was kept, the codes of the
replies and the sockets whose port was asked for. -/

def deed : Call → Bool
  | .dispatch _ | .fs (.rename _ _) => true
  | _ => false

def deeds (trace : Trace) : Trace := trace.filter fun e => deed e.1
def codes (trace : Trace) : List Bytes := (sends trace).map fun r => r.2.take 3

def bound : Exchange Answer → Option Fd
  | ⟨.boundPort fd,_⟩ => some fd
  | _ => none

def listeners (trace : Trace) : List Fd := trace.filterMap bound

def quiet : Call → Bool
  | .dispatch _ | .fs (.rename _ _) | .send .. | .boundPort _ => false
  | _ => true

theorem quietCons {call answer} (silent : quiet call = true) (trace) :
    deeds (⟨call,answer⟩ :: trace) = deeds trace ∧ codes (⟨call,answer⟩ :: trace) = codes trace ∧
      listeners (⟨call,answer⟩ :: trace) = listeners trace := by
  cases call
  case send | dispatch | boundPort => contradiction
  case fs fsCall =>
    cases fsCall
    case rename => contradiction
    all_goals exact ⟨rfl,rfl,rfl⟩
  all_goals exact ⟨rfl,rfl,rfl⟩

theorem quietAppend {first} (silent : ∀ e ∈ first, quiet e.1 = true) (second) :
    deeds (first ++ second) = deeds second ∧
      codes (first ++ second) = codes second ∧ listeners (first ++ second) = listeners second := by
  induction first with
  | nil => exact ⟨rfl,rfl,rfl⟩
  | cons e first ih =>
    obtain ⟨sameDeeds,sameCodes,sameListeners⟩ := ih fun e member => silent e (List.mem_cons_of_mem _ member)
    obtain ⟨one,two,three⟩ := @quietCons e.1 e.2 (silent e List.mem_cons_self) (first ++ second)
    exact ⟨one.trans sameDeeds,two.trans sameCodes,three.trans sameListeners⟩

/-! Parts that make only such calls. -/

abbrev Mute {α : Type} (p : Handler α) : Prop := p.Obeys (fun _ _ => True) (fun call => quiet call = true) (fun _ => True)

variable {trace : Trace}

section Mute
variable {α β : Type}

theorem muteDone (a : α) : Mute (.done a) := trivial

theorem muteCall {call} {k : Answer call → Handler α} (silent : quiet call = true) (next : ∀ answer, Mute (k answer)) :
    Mute (invoke call >>= k) := ⟨silent,fun answer _ => next answer⟩

theorem muteThen {p} {f : α → Handler β} (first : Mute p) (next : ∀ a, Mute (f a)) : Mute (p >>= f) :=
  obeysBind (meetsMono (fun _ a _ => next a) first)

theorem muteRuns {p : Handler α} {a} (mute : Mute p) (run : p.Runs trace a) :
    ∀ e ∈ trace, quiet e.1 = true := (obeysRuns mute run fun _ _ => trivial).2

theorem muteParent (path : Bytes) : Mute (parentIsDir path) := by
  unfold parentIsDir
  split
  · exact muteDone _
  · exact muteDone _
  refine muteCall rfl fun found => ?_
  cases found with
  | error e | ok st => exact muteDone _

theorem muteTarget (s : Server) (c : Client) (param : Option Bytes) : Mute (resolveTarget s c param) := by
  unfold resolveTarget
  split
  · exact muteDone _
  refine muteThen (muteParent _) fun failure => ?_
  cases failure with
  | none | some failure => exact muteDone _

theorem muteUnique (s : Server) (c : Client) (tries : Nat) : Mute (uniqueName s c tries) := by
  induction tries with
  | zero => exact muteDone _
  | succ tries ih =>
    refine muteCall rfl fun seq => ?_
    split
    · exact muteDone _
    refine muteCall rfl fun found => ?_
    split
    · exact muteDone _
    · exact ih

theorem muteBind (fd : Fd) (ports : List Nat) : Mute (bindFirst fd ports) := by
  induction ports with
  | nil => exact muteDone _
  | cons port ports ih =>
    refine muteCall rfl fun bound => ?_
    cases bound with
    | true => exact muteDone _
    | false => exact ih

theorem muteListener (s : Server) (fd : Fd) : Mute (openListener s fd) := by
  have shut : Mute (invoke (.closeFd fd) >>= fun _ => pure false) := muteCall rfl fun _ => muteDone _
  refine muteThen (muteBind fd _) fun bound => ?_
  cases bound with
  | false => exact shut
  | true =>
    refine muteCall rfl fun listening => ?_
    cases listening with
    | false => exact shut
    | true => exact muteDone _

end Mute

def errorCodes : List Bytes := [decimal 425,decimal 450,decimal 451,decimal 501,decimal 502,decimal 503,decimal 522,
  decimal 530,decimal 550,decimal 554]

structure Turnedown (trace : Trace) : Prop where
  idle : deeds trace = []
  code : ∃ code ∈ errorCodes, codes trace = [code]

theorem Turnedown.after {first second} (silent : ∀ e ∈ first, quiet e.1 = true) (no : Turnedown second) :
    Turnedown (first ++ second) := by
  obtain ⟨sameDeeds,sameCodes,-⟩ := quietAppend silent second
  exact ⟨sameDeeds.trans no.idle,by rw [sameCodes]; exact no.code⟩

theorem Turnedown.cons {call answer trace} (silent : quiet call = true) (no : Turnedown trace) :
    Turnedown (⟨call,answer⟩ :: trace) := by
  obtain ⟨sameDeeds,sameCodes,-⟩ := @quietCons call answer silent trace
  exact ⟨sameDeeds.trans no.idle,by rw [sameCodes]; exact no.code⟩

theorem errorLength : ∀ code ∈ errorCodes, code.length = 3 := by decide

theorem turnedownReply {code} (about msg) (bad : decimal code ∈ errorCodes) :
    Turnedown [⟨.send about (replyText code msg),()⟩] :=
  ⟨rfl,decimal code,bad,congrArg (fun text => [text]) (replyTextCode msg (errorLength _ bad))⟩

theorem turnedownAnswering {code msg c c' trace} (bad : decimal code ∈ errorCodes)
    (run : (answering code msg c).Runs trace c') : Turnedown trace ∧ c' = c := by
  obtain ⟨rfl,rfl⟩ := runsAnswering run
  exact ⟨turnedownReply _ msg bad,rfl⟩

variable {c c' : Client}

theorem turnedownFailing {failure} (run : (failing failure c).Runs trace c') : Turnedown trace ∧ c' = c := by
  cases failure with
  | known e => exact @turnedownAnswering 550 _ _ _ _ (by decide) run
  | stale =>
    obtain ⟨e,rest,rfl,told⟩ := runsAsk.mp run
    obtain ⟨no,rfl⟩ := @turnedownAnswering 550 _ _ _ _ (by decide) told
    exact ⟨no.cons rfl,rfl⟩

theorem unaccepted (no : Turnedown trace) : codes trace ≠ [decimal 350] := by
  intro good
  obtain ⟨code,bad,only⟩ := no.code
  have other : decimal 350 ∉ errorCodes := by decide
  rw [only] at good
  exact other ((List.cons.inj good).1 ▸ bad)

variable {param : Option Bytes}

theorem stattingRuns {k} (run : (statting s c param k).Runs trace c') :
    (Turnedown trace ∧ c' = c) ∨ ∃ path st rest, resolveArg s c param = some path ∧
      trace = ⟨.fs (.stat path),.ok st⟩ :: rest ∧ (k path st).Runs rest c' := by
  unfold statting at run
  split at run
  · exact .inl (turnedownAnswering (by decide) run)
  rename_i path resolved
  obtain ⟨found,rest,rfl,next⟩ := runsInvoke run
  cases found with
  | error e =>
    obtain ⟨no,same⟩ := turnedownFailing next
    exact .inl ⟨no.cons rfl,same⟩
  | ok st => exact .inr ⟨path,st,rest,resolved,rfl,next⟩

/- What became of PASV or EPSV: refused before a socket was asked for, the old listener
closed and none made, or a new one announced. -/
inductive Listens (c : Client) (good : Nat) (trace : Trace) : Client → Prop where
  | refused (no : Turnedown trace) (unasked : ∀ family answer, ⟨.socket family,answer⟩ ∉ trace) : Listens c good trace c
  | lost (no : Turnedown trace) {family answer} (asked : ⟨.socket family,answer⟩ ∈ trace) :
      Listens c good trace { c with pasvFd := none }
  | made {fd} (idle : deeds trace = []) (code : codes trace = [decimal good]) (announced : listeners trace = [fd]) :
      Listens c good trace { c with pasvFd := some fd, haveDataPeer := false }

theorem closeListenerRuns (run : (closeListener c).Runs trace c') :
    trace = closing c.pasvFd ∧ c' = { c with pasvFd := none } := by
  obtain ⟨connected,generation,peer,rbuf,loggedIn,disconnectRequested,user,cwd,job,aborPending,rest,rnfr,haveRnfr,cpfr,
    haveCpfr,tls,tlsHandshaking,tlsProt,pasvFd,dataPeer,haveDataPeer⟩ := c
  cases pasvFd with
  | none => exact runsDone.mp run
  | some fd =>
    obtain ⟨⟨⟩,rfl,rfl⟩ := runsOnce run
    exact ⟨rfl,rfl⟩

theorem closingQuiet (fd) : ∀ e ∈ closing fd, quiet e.1 = true := by
  cases fd with
  | none => simp [closing]
  | some fd => simp [closing,quiet]

theorem announceRuns {s c c' good text fd before trace} (three : (decimal good).length = 3)
    (silent : ∀ e ∈ before, quiet e.1 = true) {family answer}
    (asked : (⟨.socket family,answer⟩ : Exchange Answer) ∈ before)
    (run : (announceListener s { c with pasvFd := none } good text fd).Runs trace c') :
    Listens c good (before ++ trace) c' := by
  have lost : Turnedown trace ∧ c' = { c with pasvFd := none } → Listens c good (before ++ trace) c' := by
    rintro ⟨no,rfl⟩
    exact .lost (no.after silent) (List.mem_append_left _ asked)
  cases fd with
  | none => exact lost (turnedownAnswering (by decide) run)
  | some fd =>
    obtain ⟨first,opened,rest,rfl,opening,next⟩ := runsBind.mp run
    have still := muteRuns (muteListener s fd) opening
    cases opened with
    | false =>
      obtain ⟨no,same⟩ := @turnedownAnswering 425 _ _ _ _ (by decide) next
      exact lost ⟨no.after still,same⟩
    | true =>
      obtain ⟨port,rest,rfl,told⟩ := runsInvoke next
      obtain ⟨⟨⟩,rfl,rfl⟩ := runsOnce told
      rw [← List.append_assoc]
      have all : ∀ e ∈ before ++ first, quiet e.1 = true := by
        intro e member
        exact (List.mem_append.mp member).elim (silent e) (still e)
      obtain ⟨sameDeeds,sameCodes,sameListeners⟩ := quietAppend all
        [⟨.boundPort fd,port⟩,⟨.send .command (replyText good (text port)),()⟩]
      refine .made sameDeeds (sameCodes.trans ?_) sameListeners
      exact congrArg (fun code => [code]) (replyTextCode (text port) three)

theorem pasvRuns (run : (cmdPasv s c).Runs trace c') :
    Listens c 227 trace c' := by
  obtain ⟨address,rest,rfl,next⟩ := runsInvoke run
  split at next
  · obtain ⟨no,rfl⟩ := @turnedownAnswering 522 _ _ _ _ (by decide) next
    obtain ⟨rfl,-⟩ := runsAnswering next
    exact .refused (no.cons rfl) (by simp)
  · obtain ⟨no,rfl⟩ := @turnedownAnswering 425 _ _ _ _ (by decide) next
    obtain ⟨rfl,-⟩ := runsAnswering next
    exact .refused (no.cons rfl) (by simp)
  obtain ⟨first,d,rest,rfl,closed,next⟩ := runsBind.mp next
  obtain ⟨rfl,rfl⟩ := closeListenerRuns closed
  obtain ⟨fd,rest,rfl,last⟩ := runsInvoke next
  have listens := @announceRuns s c c' 227 _ fd (⟨.localAddr,address⟩ :: closing c.pasvFd ++ [⟨.socket .inet,fd⟩]) rest
    (by decide) ?_ .inet fd (by simp) last
  · simpa using listens
  exact List.forall_mem_append.mpr ⟨List.forall_mem_cons.mpr ⟨rfl,closingQuiet _⟩,List.forall_mem_singleton.mpr rfl⟩

theorem epsvRuns (run : (cmdEpsv s c param).Runs trace c') : Listens c 229 trace c' := by
  unfold cmdEpsv at run
  split at run
  · obtain ⟨no,rfl⟩ := @turnedownAnswering 522 _ _ _ _ (by decide) run
    obtain ⟨rfl,-⟩ := runsAnswering run
    exact .refused no (by simp)
  obtain ⟨first,d,rest,rfl,closed,next⟩ := runsBind.mp run
  obtain ⟨rfl,rfl⟩ := closeListenerRuns closed
  obtain ⟨middle,fd,rest,rfl,made,last⟩ := runsBind.mp next
  have asked : ∃ answer, (⟨.socket .inet6,answer⟩ : Exchange Answer) ∈ middle ∧ ∀ e ∈ middle, quiet e.1 = true := by
    obtain ⟨six,rest,rfl,other⟩ := runsInvoke made
    refine ⟨six,List.mem_cons_self,?_⟩
    cases six with
    | some fd =>
      obtain ⟨rfl,-⟩ := runsDone.mp other
      simp [quiet]
    | none =>
      obtain ⟨four,rest,rfl,ended⟩ := runsAsk.mp other
      obtain ⟨rfl,-⟩ := runsDone.mp ended
      simp [quiet]
  obtain ⟨answer,member,silent⟩ := asked
  rw [← List.append_assoc]
  refine @announceRuns s c c' 229 _ fd _ rest (by decide) ?_ .inet6 answer (List.mem_append_right _ member) last
  intro e inside
  exact (List.mem_append.mp inside).elim (closingQuiet _ e) (silent e)

def portTarget (param : Option Bytes) : Option SockAddr :=
  match param.bind (scanTuple 6) with
  | some [h1,h2,h3,h4,p1,p2] =>
    if [h1,h2,h3,h4,p1,p2].all (· ≤ 255) then
      some (.inet ⟨UInt8.ofNat h1,UInt8.ofNat h2,UInt8.ofNat h3,UInt8.ofNat h4⟩ (UInt16.ofNat (p1 * 256 + p2)))
    else none
  | _ => none

/- The target EPRT writes, if it gets that far, and whether it stands. -/
def eprtWrites (s : Server) (param : Option Bytes) : Option (SockAddr × Option (Nat × Bytes)) :=
  match param.bind scanEprt with
  | none => none
  | some (proto,addr,port) =>
    let pnum := ((strtol 10 port).map (·.1)).getD 0
    if pnum < 1 ∨ pnum > 65535 then none else some (eprtTarget s (atoi proto) addr (UInt16.ofNat pnum.toNat))

inductive Targets (c : Client) (written : Option (SockAddr × Option (Nat × Bytes))) (trace : Trace) :
    Client → Prop where
  | refused (unwritten : written = none) (no : Turnedown trace) : Targets c written trace c
  | spoilt {dst refusal} (bad : written = some (dst,some refusal)) (no : Turnedown trace) :
      Targets c written trace { c with dataPeer := dst }
  | taken {dst} (good : written = some (dst,none)) (idle : deeds trace = []) (code : codes trace = [decimal 200]) :
      Targets c written trace { c with dataPeer := dst, haveDataPeer := true, pasvFd := none }

theorem targetTaken {dst written} (good : written = some (dst,none))
    (run : (closeListener { c with dataPeer := dst, haveDataPeer := true } >>= fun d => answering 200 r200 d).Runs
      trace c') : Targets c written trace c' := by
  obtain ⟨first,d,rest,rfl,closed,last⟩ := runsBind.mp run
  obtain ⟨rfl,rfl⟩ := closeListenerRuns closed
  obtain ⟨rfl,rfl⟩ := runsAnswering last
  obtain ⟨sameDeeds,sameCodes,-⟩ := quietAppend (closingQuiet c.pasvFd) [⟨.send .command (replyText 200 r200),()⟩]
  exact .taken good sameDeeds (sameCodes.trans (congrArg (fun code => [code]) (replyTextCode r200 (by decide))))

theorem portRuns
    (run : (cmdPort c param).Runs trace c') : Targets c ((portTarget param).map fun dst => (dst,none)) trace c' := by
  unfold cmdPort at run
  split at run
  · rename_i numbers
    split at run
    · rename_i small
      exact targetTaken (by rw [portTarget,numbers]; simp only [if_pos small]; rfl) run
    · rename_i big
      obtain ⟨no,rfl⟩ := @turnedownAnswering 501 _ _ _ _ (by decide) run
      exact .refused (by rw [portTarget,numbers]; simp only [if_neg big]; rfl) no
  rename_i other
  obtain ⟨no,rfl⟩ := @turnedownAnswering 501 _ _ _ _ (by decide) run
  refine .refused ?_ no
  unfold portTarget
  split
  · rename_i numbers
    exact absurd numbers (other _ _ _ _ _ _)
  · rfl

theorem eprtCode {proto addr port dst refusal} (bad : eprtTarget s proto addr port = (dst,some refusal)) :
    decimal refusal.1 ∈ errorCodes := by
  unfold eprtTarget at bad
  split at bad
  · split at bad
    · cases bad
    · cases bad
      decide
  split at bad
  · split at bad
    · cases bad
    · cases bad
      decide
  · cases bad
    decide

theorem eprtRuns (run : (cmdEprt s c param).Runs trace c') : Targets c (eprtWrites s param) trace c' := by
  unfold cmdEprt at run
  split at run
  · rename_i none_
    obtain ⟨no,rfl⟩ := @turnedownAnswering 501 _ _ _ _ (by decide) run
    exact .refused (by rw [eprtWrites,none_]) no
  rename_i proto addr port fields
  simp only at run
  split at run
  · rename_i outside
    obtain ⟨no,rfl⟩ := @turnedownAnswering 501 _ _ _ _ (by decide) run
    exact .refused (by simp only [eprtWrites,fields,if_pos outside]) no
  rename_i inside
  split at run
  · rename_i dst code msg bad
    obtain ⟨no,rfl⟩ := turnedownAnswering (eprtCode bad) run
    exact .spoilt (by simp only [eprtWrites,fields,if_neg inside]; rw [bad]) no
  · rename_i dst good
    exact targetTaken (by simp only [eprtWrites,fields,if_neg inside]; rw [good]) run

def Carries (c : Client) (job : Job) : Prop :=
  (c.pasvFd ≠ none ∨ c.haveDataPeer = true) ∧
    ∃ op path nlst mlsd id, op ≠ .copy ∧ job = transferJob c op path nlst mlsd id

/- What became of a transfer command: refused with nothing changed, refused by the pool
or taken by it. -/
inductive Starts (c : Client) (trace : Trace) : Client → Prop where
  | refused (no : Turnedown trace) : Starts c trace c
  | unsent {job} (own : Carries c job) (sent : deeds trace = [⟨.dispatch job,false⟩])
      (code : ∃ code ∈ errorCodes, codes trace = [code]) : Starts c trace { c with pasvFd := none, haveDataPeer := false }
  | sent {job} (own : Carries c job) (sent : deeds trace = [⟨.dispatch job,true⟩]) :
      Starts c trace { c with pasvFd := none, haveDataPeer := false, job := some job.id, rest := 0 }

theorem Starts.after {c c' first second} (silent : ∀ e ∈ first, quiet e.1 = true) (starts : Starts c second c') :
    Starts c (first ++ second) c' := by
  obtain ⟨sameDeeds,sameCodes,-⟩ := quietAppend silent second
  cases starts with
  | refused no => exact .refused (no.after silent)
  | unsent own sent code => exact .unsent own (sameDeeds.trans sent) (by rw [sameCodes]; exact code)
  | sent own sent => exact .sent own (sameDeeds.trans sent)

theorem Starts.cons {c c' call answer trace} (silent : quiet call = true) (starts : Starts c trace c') :
    Starts c (⟨call,answer⟩ :: trace) c' :=
  @Starts.after c c' [⟨call,answer⟩] trace (by simpa using silent) starts

theorem Starts.down (no : Turnedown trace ∧ c' = c) :
    Starts c trace c' := by
  obtain ⟨no,rfl⟩ := no
  exact .refused no

theorem transferRuns {op path nlst mlsd reply150} (data : op ≠ .copy)
    (run : (startTransfer s c op path nlst mlsd reply150).Runs trace c') : Starts c trace c' := by
  unfold startTransfer at run
  split at run
  · exact .down (turnedownAnswering (by decide) run)
  split at run
  · exact .down (turnedownAnswering (by decide) run)
  split at run
  · exact .down (turnedownAnswering (by decide) run)
  rename_i busy foreign unset
  obtain ⟨made,rest,rfl,next⟩ := runsInvoke run
  cases made with
  | none => exact (Starts.down (turnedownAnswering (by decide) next)).cons rfl
  | some id =>
    have own : Carries c (transferJob c op path nlst mlsd id) := by
      refine ⟨?_,op,path,nlst,mlsd,id,data,rfl⟩
      by_contra neither
      simp only [not_or,not_not,Bool.not_eq_true] at neither
      exact unset ⟨neither.1,by simp [neither.2]⟩
    obtain ⟨sent,rest,rfl,after⟩ := runsInvoke next
    cases sent with
    | true =>
      obtain ⟨⟨⟩,rfl,rfl⟩ := runsOnce after
      exact .sent own rfl
    | false =>
      obtain ⟨first,⟨⟩,rest,rfl,freed,told⟩ := runsBind.mp after
      obtain ⟨one,⟨⟩,two,rfl,closed,gave⟩ := runsBind.mp freed
      obtain ⟨⟨⟩,last,rfl,ended⟩ := runsAsk.mp gave
      obtain ⟨rfl,-⟩ := runsDone.mp ended
      rw [closeSomeRuns closed]
      obtain ⟨no,rfl⟩ := @turnedownAnswering 425 _ _ _ _ (by decide) told
      have silent : ∀ e ∈ closing (transferJob c op path nlst mlsd id).pasvFd ++
          [(⟨.freeJob (transferJob c op path nlst mlsd id).id,()⟩ : Exchange Answer)], quiet e.1 = true :=
        List.forall_mem_append.mpr ⟨closingQuiet _,List.forall_mem_singleton.mpr rfl⟩
      have rest_ := no.after silent
      refine .unsent own ?_ rest_.code
      exact congrArg (fun later => ⟨.dispatch (transferJob c op path nlst mlsd id),false⟩ :: later) rest_.idle

theorem listingRuns {nlst mlsd} (run : (startListing s c param nlst mlsd).Runs trace c') : Starts c trace c' := by
  rcases stattingRuns run with no | ⟨path,st,rest,-,rfl,next⟩
  · exact .down no
  · exact (transferRuns (by decide) next).cons rfl

theorem retrRuns (run : (cmdRetr s c param).Runs trace c') : Starts c trace c' := by
  rcases stattingRuns run with no | ⟨path,st,rest,-,rfl,next⟩
  · exact .down no
  refine Starts.cons rfl ?_
  split at next
  · exact transferRuns (by decide) next
  · exact .down (turnedownFailing next)

theorem storingRuns {op} (data : op ≠ .copy) (run : (storing op s c param).Runs trace c') : Starts c trace c' := by
  unfold storing at run
  split at run
  · exact .down (turnedownAnswering (by decide) run)
  obtain ⟨first,failure,rest,rfl,looked,next⟩ := runsBind.mp run
  refine Starts.after (muteRuns (muteParent _) looked) ?_
  cases failure with
  | some failure => exact .down (turnedownFailing next)
  | none => exact transferRuns data next

theorem stouRuns (run : (cmdStou s c).Runs trace c') :
    Starts c trace c' := by
  obtain ⟨first,found,rest,rfl,searched,next⟩ := runsBind.mp run
  refine Starts.after (muteRuns (muteUnique s c 10) searched) ?_
  match found,next with
  | none,next | some none,next => exact .down (turnedownAnswering (by decide) next)
  | some (some name),next => exact transferRuns (by decide) next

def restOffset (param : Option Bytes) : Option Nat :=
  match (given param).bind strtoull with
  | some (v,[]) => some v
  | _ => none

theorem restRuns
    (run : (cmdRest c param).Runs trace c') : (restOffset param = none ∧ Turnedown trace ∧ c' = c) ∨
      ∃ v, restOffset param = some v ∧ deeds trace = [] ∧ codes trace = [decimal 350] ∧ c' = { c with rest := v } := by
  unfold cmdRest at run
  split at run
  · rename_i missing
    exact .inl ⟨by rw [restOffset,missing]; rfl,turnedownAnswering (by decide) run⟩
  rename_i text present
  split at run
  · rename_i v number
    obtain ⟨⟨⟩,rfl,rfl⟩ := runsOnce run
    refine .inr ⟨v,by rw [restOffset,present]; simp [number],rfl,?_,rfl⟩
    exact congrArg (fun code => [code]) (replyTextCode _ (by decide))
  rename_i other
  refine .inl ⟨?_,turnedownAnswering (by decide) run⟩
  rw [restOffset,present]
  simp only [Option.bind_some]

theorem rnfrRuns (run : (cmdRnfr s c param).Runs trace c') : (Turnedown trace ∧ c' = c) ∨
      ∃ path, resolveArg s c param = some path ∧ deeds trace = [] ∧ codes trace = [decimal 350] ∧
        c' = { c with rnfr := Buffer.print 1023 path, haveRnfr := true } := by
  rcases stattingRuns run with no | ⟨path,st,rest,resolved,rfl,next⟩
  · exact .inl no
  · obtain ⟨⟨⟩,rfl,rfl⟩ := runsOnce next
    exact .inr ⟨path,resolved,rfl,congrArg (fun code => [code]) (replyTextCode _ (by decide)),rfl⟩

theorem cpfrRuns (run : (cmdCpfr s c param).Runs trace c') : (Turnedown trace ∧ c' = c) ∨
      ∃ path, resolveArg s c param = some path ∧ deeds trace = [] ∧ codes trace = [decimal 350] ∧
        c' = { c with cpfr := Buffer.print 1023 path, haveCpfr := true } := by
  rcases stattingRuns run with no | ⟨path,st,rest,resolved,rfl,next⟩
  · exact .inl no
  split at next
  · obtain ⟨⟨⟩,rfl,rfl⟩ := runsOnce next
    exact .inr ⟨path,resolved,rfl,congrArg (fun code => [code]) (replyTextCode _ (by decide)),rfl⟩
  · obtain ⟨no,rfl⟩ := turnedownFailing next
    exact .inl ⟨no.cons rfl,rfl⟩

inductive Renames (c : Client) : Trace → Client → Prop where
  | unnamed (missing : c.haveRnfr = false) : Renames c [⟨.send .command (replyText 503 r503),()⟩] c
  | refused {trace : _} (pending : c.haveRnfr = true) (no : Turnedown trace) : Renames c trace { c with haveRnfr := false }
  | asked {trace : _} {path answer} (pending : c.haveRnfr = true)
      (only : deeds trace = [⟨.fs (.rename c.rnfr.text path),answer⟩]) : Renames c trace { c with haveRnfr := false }

theorem rntoRuns (run : (cmdRnto s c param).Runs trace c') : Renames c trace c' := by
  unfold cmdRnto at run
  split at run
  · rename_i missing
    obtain ⟨rfl,rfl⟩ := runsAnswering run
    exact .unnamed (by simpa using missing)
  rename_i pending
  have pending : c.haveRnfr = true := by simpa using pending
  obtain ⟨first,target,rest,rfl,looked,next⟩ := runsBind.mp run
  have silent := muteRuns (muteTarget s c param) looked
  cases target with
  | error failure =>
    obtain ⟨no,rfl⟩ := turnedownFailing next
    exact .refused pending (no.after silent)
  | ok path =>
    obtain ⟨answer,rest,rfl,told⟩ := runsInvoke next
    have ended : deeds rest = [] ∧ c' = { c with haveRnfr := false } := by
      cases answer with
      | error e =>
        obtain ⟨no,same⟩ := turnedownFailing told
        exact ⟨no.idle,same⟩
      | ok =>
        obtain ⟨rfl,same⟩ := runsAnswering told
        exact ⟨rfl,same⟩
    obtain ⟨idle,rfl⟩ := ended
    refine @Renames.asked c _ path answer pending ((quietAppend silent _).1.trans ?_)
    exact congrArg (fun later => ⟨.fs (.rename c.rnfr.text path),answer⟩ :: later) idle

inductive Copies (c : Client) : Trace → Client → Prop where
  | unnamed (missing : c.haveCpfr = false) : Copies c [⟨.send .command (replyText 503 r503),()⟩] c
  | busy {trace : _} (pending : c.haveCpfr = true) (job : c.job ≠ none) (no : Turnedown trace) : Copies c trace c
  | refused {trace : _} (pending : c.haveCpfr = true) (free : c.job = none) (no : Turnedown trace) :
      Copies c trace { c with haveCpfr := false }
  | unsent {trace : _} {path id} (pending : c.haveCpfr = true) (free : c.job = none)
      (only : deeds trace = [⟨.dispatch (copyJob { c with haveCpfr := false } path id),false⟩]) :
      Copies c trace { c with haveCpfr := false }
  | sent {trace : _} {path id} (pending : c.haveCpfr = true) (free : c.job = none)
      (only : deeds trace = [⟨.dispatch (copyJob { c with haveCpfr := false } path id),true⟩]) :
      Copies c trace { c with haveCpfr := false, job := some id }

theorem cptoRuns (run : (cmdCpto s c param).Runs trace c') : Copies c trace c' := by
  unfold cmdCpto at run
  split at run
  · rename_i missing
    obtain ⟨rfl,rfl⟩ := runsAnswering run
    exact .unnamed (by simpa using missing)
  rename_i pending
  have pending : c.haveCpfr = true := by simpa using pending
  split at run
  · rename_i busy
    obtain ⟨no,rfl⟩ := @turnedownAnswering 450 _ _ _ _ (by decide) run
    exact .busy pending (by simpa [Option.isSome_iff_ne_none] using busy) no
  rename_i free
  have free : c.job = none := by simpa using free
  obtain ⟨first,target,rest,rfl,looked,next⟩ := runsBind.mp run
  have silent := muteRuns (muteTarget s c param) looked
  have down : ∀ trace, Turnedown trace ∧ c' = { c with haveCpfr := false } → Copies c (first ++ trace) c' := by
    rintro trace ⟨no,rfl⟩
    exact .refused pending free (no.after silent)
  cases target with
  | error failure => exact down _ (turnedownFailing next)
  | ok path =>
    simp only at next
    split at next
    · exact down _ (turnedownAnswering (by decide) next)
    split at next
    · exact down _ (turnedownAnswering (by decide) next)
    obtain ⟨made,rest,rfl,later⟩ := runsInvoke next
    cases made with
    | none =>
      obtain ⟨no,same⟩ := @turnedownAnswering 451 _ _ _ _ (by decide) later
      exact down _ ⟨no.cons rfl,same⟩
    | some id =>
      obtain ⟨sent,rest,rfl,after⟩ := runsInvoke later
      cases sent with
      | true =>
        obtain ⟨rfl,rfl⟩ := runsDone.mp after
        exact .sent pending free (quietAppend silent _).1
      | false =>
        obtain ⟨front,⟨⟩,rest,rfl,freed,told⟩ := runsBind.mp after
        obtain ⟨⟨⟩,last,rfl,ended⟩ := runsAsk.mp freed
        obtain ⟨rfl,-⟩ := runsDone.mp ended
        obtain ⟨rfl,rfl⟩ := runsAnswering told
        exact .unsent pending free (quietAppend silent _).1

end OpenPs3Ftp.Commands
