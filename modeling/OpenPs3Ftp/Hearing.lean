import OpenPs3Ftp.Lib.Framing
import OpenPs3Ftp.Turns

/-! What is executed of a control stream. The event code is run with a log of the lines
it hands to `process_line` and of the urgent bytes it takes for an ABOR; a byte at a
time, an ear hears the same lines, whatever the pieces the bytes came in. -/
namespace OpenPs3Ftp.Hearing
open Lib Text Resolve Fs Session Commands Dispatch Program Events Framing

def lineOf (raw : Bytes) : Bytes :=
  cstr ((if raw.getLast? = some 13 then raw.dropLast else raw).take (lineBuffer - 1))

theorem getlineNone {buffer} (within : 10 ∉ buffer) : getline buffer = none := by
  have all : buffer.takeWhile (· ≠ 10) = buffer := by
    rw [List.takeWhile_eq_self_iff]
    intro b member
    exact decide_eq_true fun same => within (same ▸ member)
  simp only [getline,all,List.drop_length]

theorem getlineSome {raw rest} (within : 10 ∉ raw) : getline (raw ++ 10 :: rest) = some (lineOf raw,rest) := by
  have all : (raw ++ 10 :: rest).takeWhile (· ≠ 10) = raw := by
    rw [List.takeWhile_append_of_pos]
    · simp
    · intro b member
      exact decide_eq_true fun same => within (same ▸ member)
  simp only [getline,all,List.drop_left]
  rfl

def quits (line : Bytes) : Bool := (commandName line).map toupper = ascii "QUIT"
def control : Framing UInt8 Bytes := ⟨10,readBuffer,lineOf,quits⟩

inductive Order where
  | line (text : Bytes)
  | urgent
  deriving DecidableEq, Repr

def lineLog (s : Server) : Nat → Client → Handler (List Bytes × Client)
  | 0,c => return ([],c)
  | fuel + 1,c =>
    match getline c.rbuf with
    | none => return ([],c)
    | some (line,rest) => do
      let c ← processLine (commandsInit s) (Command.run s) id { c with rbuf := rest } line
      if c.disconnectRequested ∨ c.tlsHandshaking then return ([line],c)
      else do
        let (lines,c) ← lineLog s fuel c
        return (line :: lines,c)

def readLog (s : Server) : List Received → Client → Handler (List Bytes × Client)
  | [],c => return ([],if c.rbuf.length ≥ readBuffer then { c with disconnectRequested := true } else c)
  | received :: more,c =>
    if c.rbuf.length ≥ readBuffer then return ([],{ c with disconnectRequested := true })
    else
      match received with
      | .wouldBlock => return ([],c)
      | .failed | .bytes [] => return ([],{ c with disconnectRequested := true })
      | .bytes chunk => do
        let rbuf := c.rbuf ++ chunk.take (readBuffer - c.rbuf.length)
        let (lines,c) ← lineLog s rbuf.length { c with rbuf }
        if c.disconnectRequested ∨ c.tlsHandshaking then return (lines,c)
        else do
          let (later,c) ← readLog s more c
          return (lines ++ later,c)

def eventLog (s : Server) (revents : Revents) (received : List Received) (c : Client) : Handler (List Order × Client) :=
  if c.tlsHandshaking then do
    let c ← handleClientEvents s revents received c
    return ([],c)
  else do
    let c ← (if revents.pollpri then urgentAbort s c else pure c)
    let (lines,c) ← (if revents.pollin then readLog s received c else pure ([],c))
    let c ← finishEvent (if revents.hangup then { c with disconnectRequested := true } else c)
    return ((if revents.pollpri then [.urgent] else []) ++ lines.map .line,c)

section Erasure
variable {s : Server}

theorem lineLogErased (fuel c) : (lineLog s fuel c >>= fun r => pure r.2) = lineLoop s fuel c := by
  induction fuel generalizing c with
  | zero => rfl
  | succ fuel ih =>
    rw [lineLog,lineLoop]
    cases getline c.rbuf with
    | none => rfl
    | some taken =>
      simp [bindAssoc]
      congr 1
      funext c
      split
      · rfl
      · rw [← ih,bindAssoc]
        rfl

theorem readLogErased (received c) : (readLog s received c >>= fun r => pure r.2) = readLoop s received c := by
  induction received generalizing c with
  | nil => rfl
  | cons first more ih =>
    unfold readLog readLoop
    split
    · rfl
    cases first with
    | wouldBlock | failed => rfl
    | bytes chunk =>
      cases chunk with
      | nil => rfl
      | cons b chunk =>
        dsimp only
        rw [← lineLogErased,bindAssoc,bindAssoc]
        congr 1
        funext r
        simp [pureDone,doneBind]
        split
        · rfl
        · rw [← ih,bindAssoc]
          rfl

theorem eventLogErased (revents received c) :
    (eventLog s revents received c >>= fun r => pure r.2) = handleClientEvents s revents received c := by
  unfold eventLog
  split
  · simp [bindAssoc,pureDone,doneBind,bindDone]
  rename_i plain
  rw [handleClientEvents,if_neg plain]
  simp [bindAssoc,pureDone,doneBind,bindDone]
  congr 1
  funext c
  split
  · rw [← readLogErased]
    simp [bindAssoc,pureDone,doneBind]
  · rfl

end Erasure

def created : Exchange Answer → Option (Bytes × Bool)
  | ⟨.tlsCreate pending,made⟩ => some (pending,made)
  | _ => none

def sessions (trace : Trace) : List (Bytes × Bool) := trace.filterMap created

theorem toldLater {session first second} (told : session ∈ sessions second) :
    session ∈ sessions (first ++ second) := by
  rw [sessions,List.filterMap_append]
  exact List.mem_append_right _ told

theorem toldBefore {session first second} (told : session ∈ sessions first) :
    session ∈ sessions (first ++ second) := by
  rw [sessions,List.filterMap_append]
  exact List.mem_append_left _ told

structure Upgraded (c c' : Client) : Prop where
  before : c.tls = false
  buffer : c'.rbuf = []
  tls : c'.tls = true
  shaking : c'.tlsHandshaking = true
  leaving : c'.disconnectRequested = c.disconnectRequested

inductive Judged (c : Client) (text : Bytes) (trace : Trace) (c' : Client) : Prop where
  | calm (plain : c'.tlsHandshaking = c.tlsHandshaking ∧ c'.tls = c.tls ∧ c'.rbuf = c.rbuf)
      (leaving : c'.disconnectRequested = (c.disconnectRequested || quits text))
  | upgraded (name : (commandName text).map toupper = ascii "AUTH") (asked : sessions trace = [(c.rbuf,true)])
      (after : Upgraded c c')
  | refused (name : (commandName text).map toupper = ascii "AUTH") (before : c.tls = false)
      (asked : sessions trace = [(c.rbuf,false)]) (plain : c'.tlsHandshaking = c.tlsHandshaking)
      (leaving : c'.disconnectRequested = true)

theorem judgedSame {c text trace} (other : (commandName text).map toupper ≠ ascii "QUIT") : Judged c text trace c :=
  .calm ⟨rfl,rfl,rfl⟩ (by simp [quits,other])

theorem answeringRuns {code msg c c' trace} (run : (answering code msg c).Runs trace c') :
    c' = c ∧ sessions trace = [] := by
  obtain ⟨⟨⟩,rfl,rfl⟩ := runsOnce run
  exact ⟨rfl,rfl⟩

theorem authJudged {s c c' text param trace} (name : (commandName text).map toupper = ascii "AUTH")
    (plain : c.tlsHandshaking = false) (run : (cmdAuth s c param).Runs trace c') : Judged c text trace c' := by
  have same : ∀ {code msg} {trace : Trace}, (answering code msg c).Runs trace c' →
      Judged c text trace c' := by
    intro code msg trace run
    obtain ⟨rfl,-⟩ := answeringRuns run
    exact judgedSame (by rw [name]; decide)
  unfold cmdAuth at run
  split at run
  · exact same run
  split at run
  · exact same run
  split at run
  · exact same run
  rename_i able free
  have free : c.tls = false := by simpa using free
  have able : s.tls = true := by simpa using able
  obtain ⟨first,started,rest,rfl,start,later⟩ := runsBind.mp run
  rw [clientStartTls,if_neg (by simp [able,free,plain])] at start
  obtain ⟨made,last,rfl,done⟩ := runsInvoke start
  cases made with
  | true =>
    obtain ⟨rfl,rfl⟩ := runsDone.mp done
    obtain ⟨rfl,silent⟩ := answeringRuns later
    refine .upgraded name ?_ ⟨free,rfl,rfl,rfl,rfl⟩
    simp [sessions,created] at silent ⊢
    exact silent
  | false =>
    obtain ⟨rfl,rfl⟩ := runsDone.mp done
    obtain ⟨⟨⟩,rfl,rfl⟩ := runsOnce later
    exact .refused name free rfl rfl rfl

theorem lookupAlone {s name command} (found : (commandsInit s).lookup name = some command) :
    (command = .quit ↔ name = ascii "QUIT") ∧ (command = .auth → name = ascii "AUTH") := by
  have all : ∀ allowStop, ∀ entry ∈ builtin allowStop, (entry.2 = .quit ↔ ascii entry.1 = ascii "QUIT") ∧
      (entry.2 = .auth → ascii entry.1 = ascii "AUTH") := by decide
  obtain ⟨entry,member,rfl,rfl⟩ := lookupBuiltin found
  exact all _ entry member

theorem lineJudged {s c c' text trace} (plain : c.tlsHandshaking = false) (lined : Lined s c text trace c') :
    Judged c text trace c' := by
  cases lined with
  | empty blank => exact judgedSame (by rw [blank]; decide)
  | shut out late =>
    refine judgedSame fun same => ?_
    rw [same] at late
    exact absurd late (by decide)
  | unknown missing =>
    refine judgedSame fun same => ?_
    rw [same,Table.lookup,commandsInitEntries] at missing
    cases stop : s.allowStop <;> rw [stop] at missing <;> exact absurd missing (by decide)
  | @entered command trace c' found gate run =>
    obtain ⟨quit,auth⟩ := lookupAlone found
    by_cases isAuth : command = .auth
    · subst isAuth
      have judged := authJudged (auth rfl) plain run
      cases judged with
      | calm plain leaving => exact .calm plain leaving
      | upgraded name asked after => exact .upgraded name asked after
      | refused name before asked plain leaving => exact .refused name before asked plain leaving
    have outcome := outcomeRuns run
    refine .calm (outcome.tls.resolve_right isAuth) ?_
    by_cases isQuit : command = .quit
    · subst isQuit
      obtain ⟨⟨⟩,rfl,rfl⟩ := runsOnce run
      simp [quits,quit.mp rfl]
    · have other : (commandName text).map toupper ≠ ascii "QUIT" := fun same => isQuit (quit.mpr same)
      rw [(outcome.leaving.resolve_right (by simp [isQuit,isAuth]))]
      simp [quits,other]

structure Tuned (e : Ear UInt8 Bytes) (c : Client) : Prop where
  tail : c.rbuf = e.tail
  within : 10 ∉ e.tail
  short : e.tail.length ≤ readBuffer
  open_ : e.shut = decide (readBuffer ≤ e.tail.length)
  plain : c.tlsHandshaking = false
  staying : c.disconnectRequested = false

def Asking (lines : List Bytes) : Prop :=
  ∃ first text, lines = first ++ [text] ∧ (commandName text).map toupper = ascii "AUTH"

theorem askingLater (lines) {later} (asking : Asking later) : Asking (lines ++ later) := by
  obtain ⟨first,text,rfl,name⟩ := asking
  exact ⟨lines ++ first,text,(List.append_assoc _ _ _).symm,name⟩

inductive Listened (e : Ear UInt8 Bytes) (stream : List (Option UInt8)) (lines : List Bytes)
    (trace : Trace) (tls : Bool) (c' : Client) : Prop where
  | tuned (tuned : Tuned (control.hears e stream) c') (same : c'.tls = tls)
      (heard : (control.hears e stream).lines = e.lines ++ lines)
  | left (plain : c'.tlsHandshaking = false) (leaving : c'.disconnectRequested = true)
      (shut : (control.hears e stream).shut = true) (heard : (control.hears e stream).lines = e.lines ++ lines)
  | upgraded {front pending rest} (split : stream = front ++ (pending.map some ++ rest)) (ended : some 10 ∈ front)
      (heard : control.hears e front = begun (e.lines ++ lines)) (asked : (pending,true) ∈ sessions trace)
      (asking : Asking lines) (before : tls = false)
      (after : c'.rbuf = [] ∧ c'.tls = true ∧ c'.tlsHandshaking = true ∧ c'.disconnectRequested = false)
  | refused {front pending rest} (split : stream = front ++ (pending.map some ++ rest)) (ended : some 10 ∈ front)
      (heard : control.hears e front = begun (e.lines ++ lines)) (asked : (pending,false) ∈ sessions trace)
      (before : tls = false) (plain : c'.tlsHandshaking = false) (leaving : c'.disconnectRequested = true)

section Simulation
variable {s : Server} {e e₁ : Ear UInt8 Bytes} {c c₁ c' : Client} {tls : Bool} {lines later : List Bytes}
  {stream first : List (Option UInt8)} {trace before : Trace}

theorem Listened.after (step : control.hears e first = e₁) (known : e₁.lines = e.lines ++ lines)
    (rest : Listened e₁ stream later trace tls c') :
    Listened e (first ++ stream) (lines ++ later) (before ++ trace) tls c' := by
  have whole : control.hears e (first ++ stream) = control.hears e₁ stream := by rw [hearsAppend,step]
  have joined : e₁.lines ++ later = e.lines ++ (lines ++ later) := by rw [known,List.append_assoc]
  cases rest with
  | tuned tuned still heard => exact .tuned (whole ▸ tuned) still (by rw [whole,heard,joined])
  | left plain leaving shut heard => exact .left plain leaving (whole ▸ shut) (by rw [whole,heard,joined])
  | @upgraded front pending rest split ended heard asked asking free after =>
    refine @Listened.upgraded _ _ _ _ _ _ (first ++ front) pending rest (by rw [split,List.append_assoc])
      (List.mem_append_right _ ended) ?_ (toldLater asked) (askingLater lines asking) free after
    rw [hearsAppend,step,heard,joined]
  | @refused front pending rest split ended heard asked free plain leaving =>
    refine @Listened.refused _ _ _ _ _ _ (first ++ front) pending rest (by rw [split,List.append_assoc])
      (List.mem_append_right _ ended) ?_ (toldLater asked) free plain leaving
    rw [hearsAppend,step,heard,joined]

theorem lineHeard {raw} (known) (within : 10 ∉ raw) (short : raw.length < readBuffer) :
    control.hears (begun known) (raw.map some ++ [some 10]) = ⟨[],known ++ [lineOf raw],quits (lineOf raw)⟩ :=
  hearsLine within short

theorem partHeard {part} (known) (within : 10 ∉ part) (short : part.length ≤ readBuffer) :
    control.hears (begun known) (part.map some) = ⟨part,known,decide (readBuffer ≤ part.length)⟩ :=
  hearsPart (e := begun known) within (by simpa [begun,control] using short) rfl

theorem lineListened {raw rest} (known) (within : 10 ∉ raw) (short : raw.length < readBuffer)
    (plain : c.tlsHandshaking = false) (staying : c.disconnectRequested = false)
    (judged : Judged { c with rbuf := rest } (lineOf raw) trace c₁) :
    (c₁.disconnectRequested = true ∨ c₁.tlsHandshaking = true) ∧
      Listened (begun known) ((raw.map some ++ [some 10]) ++ rest.map some) [lineOf raw] trace c.tls c₁ ∨
    c₁.disconnectRequested = false ∧ c₁.tlsHandshaking = false ∧ c₁.rbuf = rest ∧ c₁.tls = c.tls ∧
      control.hears (begun known) (raw.map some ++ [some 10]) = begun (known ++ [lineOf raw]) := by
  have heard := lineHeard known within short
  have going : (commandName (lineOf raw)).map toupper = ascii "AUTH" →
      control.hears (begun known) (raw.map some ++ [some 10]) = begun (known ++ [lineOf raw]) := by
    intro name
    refine heard.trans (congrArg (Ear.mk [] _) ?_)
    simp [quits,name,show ascii "AUTH" ≠ ascii "QUIT" by decide]
  cases judged with
  | calm same leaving =>
    obtain ⟨shaking,tls,remains⟩ := same
    rw [staying,Bool.false_or] at leaving
    cases last : quits (lineOf raw) with
    | true =>
      have whole := hearsBeyond (f := control) (by rw [heard]; exact last) (rest.map some)
      refine .inl ⟨.inl (leaving.trans last),.left (shaking.trans plain) (leaving.trans last) ?_ ?_⟩
      · rw [whole,heard]
        exact last
      · rw [whole,heard]
        rfl
    | false =>
      refine .inr ⟨leaving.trans last,shaking.trans plain,remains,tls,heard.trans ?_⟩
      exact congrArg (Ear.mk [] _) last
  | upgraded name asked after =>
    refine .inl ⟨.inr after.shaking,@Listened.upgraded _ _ _ _ _ _ (raw.map some ++ [some 10]) rest [] (by simp) (by simp)
      (going name) (by simp [asked]) ⟨[],_,rfl,name⟩ after.before ⟨after.buffer,after.tls,after.shaking,after.leaving.trans staying⟩⟩
  | refused name before asked still leaving =>
    exact .inl ⟨.inl leaving,@Listened.refused _ _ _ _ _ _ (raw.map some ++ [some 10]) rest [] (by simp) (by simp)
      (going name) (by simp [asked]) before (still.trans plain) leaving⟩

theorem unfinishedListened (known) (within : 10 ∉ c.rbuf) (short : c.rbuf.length ≤ readBuffer)
    (plain : c.tlsHandshaking = false) (staying : c.disconnectRequested = false) :
    Listened (begun known) (c.rbuf.map some) [] trace c.tls c := by
  have heard := partHeard known within short
  refine .tuned ?_ rfl ?_
  · rw [heard]
    exact ⟨rfl,within,short,rfl,plain,staying⟩
  · rw [heard]
    exact (List.append_nil _).symm

theorem linesListened (fuel known) (enough : c.rbuf.length ≤ fuel) (short : c.rbuf.length ≤ readBuffer)
    (plain : c.tlsHandshaking = false) (staying : c.disconnectRequested = false)
    (run : (lineLog s fuel c).Runs trace (lines,c')) :
    Listened (begun known) (c.rbuf.map some) lines trace c.tls c' := by
  induction fuel generalizing c trace lines known with
  | zero =>
    obtain ⟨rfl,rfl,rfl⟩ := runsPair.mp run
    have empty : c'.rbuf = [] := List.length_eq_zero_iff.mp (Nat.le_zero.mp enough)
    exact unfinishedListened known (by simp [empty]) short plain staying
  | succ fuel ih =>
    unfold lineLog at run
    by_cases complete : 10 ∈ c.rbuf
    · obtain ⟨raw,rest,buffer,within⟩ := List.eq_append_cons_of_mem complete
      rw [buffer,getlineSome within] at run
      obtain ⟨first,c₁,second,rfl,line,next⟩ := runsBind.mp run
      have size : c.rbuf.length = raw.length + (rest.length + 1) := by simp [buffer]
      have stream : c.rbuf.map some = (raw.map some ++ [some 10]) ++ rest.map some := by simp [buffer]
      rw [stream]
      rcases lineListened known within (by omega) plain staying
        (lineJudged (by exact plain) (lineRuns line)) with ⟨stops,listened⟩ | ⟨on,still,remains,tls,heard⟩
      · rw [if_pos stops] at next
        obtain ⟨rfl,rfl,rfl⟩ := runsPair.mp next
        rwa [List.append_nil]
      rw [if_neg (by simp [on,still])] at next
      obtain ⟨middle,⟨more,c₂⟩,last,rfl,rest_,final⟩ := runsBind.mp next
      obtain ⟨rfl,rfl,rfl⟩ := runsPair.mp final
      have recursed := ih (known ++ [lineOf raw]) (by rw [remains]; omega) (by rw [remains]; omega) still on rest_
      rw [remains,tls] at recursed
      rw [List.append_nil]
      exact Listened.after heard rfl recursed
    rw [getlineNone complete] at run
    obtain ⟨rfl,rfl,rfl⟩ := runsPair.mp run
    exact unfinishedListened known complete short plain staying

theorem Tuned.retuned (tuned : Tuned e c) : control.hears (begun e.lines) (e.tail.map some) = e := by
  obtain ⟨tail,known,shut⟩ := e
  rw [partHeard _ tuned.within tuned.short,← tuned.open_]

theorem Tuned.listened (tuned : Tuned e c)
    (listened : Listened (begun e.lines) (e.tail.map some ++ stream) lines trace tls c') :
    Listened e stream lines trace tls c' := by
  have whole : control.hears (begun e.lines) (e.tail.map some ++ stream) = control.hears e stream := by
    rw [hearsAppend,tuned.retuned]
  have later : ∀ {front back : List (Option UInt8)}, e.tail.map some ++ stream = front ++ back → some 10 ∈ front →
      ∃ front', front = e.tail.map some ++ front' ∧ stream = front' ++ back ∧ some 10 ∈ front' := by
    intro front back split ended
    rcases List.append_eq_append_iff.mp split with ⟨front',rfl,rfl⟩ | ⟨more,same,-⟩
    · refine ⟨front',rfl,rfl,(List.mem_append.mp ended).resolve_left fun member => ?_⟩
      exact tuned.within (by simpa using member)
    · refine absurd ?_ tuned.within
      have member : some 10 ∈ e.tail.map some := same ▸ List.mem_append_left _ ended
      simpa using member
  cases listened with
  | tuned next same heard => exact .tuned (whole ▸ next) same (whole ▸ heard)
  | left plain leaving shut heard => exact .left plain leaving (whole ▸ shut) (whole ▸ heard)
  | upgraded split ended heard asked asking before after =>
    obtain ⟨front,rfl,rest,member⟩ := later split ended
    rw [hearsAppend,tuned.retuned] at heard
    exact .upgraded rest member heard asked asking before after
  | refused split ended heard asked before plain leaving =>
    obtain ⟨front,rfl,rest,member⟩ := later split ended
    rw [hearsAppend,tuned.retuned] at heard
    exact .refused rest member heard asked before plain leaving

def signals : List Received → List (Option UInt8)
  | .bytes [] :: _ | .failed :: _ => [none]
  | .bytes chunk :: more => chunk.map some ++ signals more
  | .wouldBlock :: _ | [] => []

def Fits (e : Ear UInt8 Bytes) : List Received → Prop
  | .bytes chunk :: more =>
    (e.shut = true ∨ e.tail.length + chunk.length ≤ readBuffer) ∧ Fits (control.hears e (chunk.map some)) more
  | _ => True

theorem leaveListened (tuned : Tuned e c) (shut : (control.hears e stream).shut = true)
    (heard : (control.hears e stream).lines = e.lines) :
    Listened e stream [] trace c.tls { c with disconnectRequested := true } :=
  .left tuned.plain rfl shut (by simp [heard])

theorem Listened.beyond (listened : Listened e stream lines trace tls c')
    (stops : c'.disconnectRequested = true ∨ c'.tlsHandshaking = true) (rest) :
    Listened e (stream ++ rest) lines trace tls c' := by
  cases listened with
  | tuned tuned => simp [tuned.staying,tuned.plain] at stops
  | left plain leaving shut heard =>
    have whole := hearsBeyond shut rest
    exact .left plain leaving (whole ▸ shut) (whole ▸ heard)
  | upgraded split ended heard asked asking before after =>
    exact .upgraded (by rw [split,List.append_assoc,List.append_assoc]) ended heard asked asking before after
  | refused split ended heard asked before plain leaving =>
    exact .refused (by rw [split,List.append_assoc,List.append_assoc]) ended heard asked before plain leaving

def Awake (e : Ear UInt8 Bytes) (c : Client) : Prop :=
  c.disconnectRequested = false → c.tlsHandshaking = false → e.shut = false

theorem Tuned.full (tuned : Tuned e c) (long : c.rbuf.length ≥ readBuffer) (stream) :
    Listened e stream [] trace c.tls { c with disconnectRequested := true } := by
  have shut : e.shut = true := by
    rw [tuned.open_]
    exact decide_eq_true (tuned.tail ▸ long)
  have same := hearsShut (f := control) shut stream
  exact leaveListened tuned (by rw [same,shut]) (by rw [same])

theorem Tuned.open (tuned : Tuned e c) (short : ¬ c.rbuf.length ≥ readBuffer) : e.shut = false := by
  rw [tuned.open_]
  exact decide_eq_false (tuned.tail ▸ short)

theorem Tuned.stays (tuned : Tuned e c) : Listened e [] [] trace c.tls c :=
  .tuned tuned rfl (List.append_nil _).symm

theorem Tuned.ended (tuned : Tuned e c) : Listened e [none] [] trace c.tls { c with disconnectRequested := true } :=
  leaveListened tuned rfl rfl

theorem awakeLeft {e} (leaving : c.disconnectRequested = true) : Awake e c :=
  fun staying => by simp [leaving] at staying

theorem chunkListened {chunk : Bytes} (tuned : Tuned e c) (room : e.tail.length + chunk.length ≤ readBuffer)
    (run : (lineLog s (c.rbuf ++ chunk.take (readBuffer - c.rbuf.length)).length
      { c with rbuf := c.rbuf ++ chunk.take (readBuffer - c.rbuf.length) }).Runs trace (lines,c')) :
    Listened e (chunk.map some) lines trace c.tls c' := by
  have all : chunk.take (readBuffer - c.rbuf.length) = chunk := by
    rw [tuned.tail]
    exact List.take_of_length_le (by omega)
  rw [all] at run
  have short : (c.rbuf ++ chunk).length ≤ readBuffer := by rwa [List.length_append,tuned.tail]
  have listened := @linesListened s { c with rbuf := c.rbuf ++ chunk } c' lines trace _ e.lines (Nat.le_refl _) short
    tuned.plain tuned.staying run
  refine tuned.listened ?_
  rwa [List.map_append,tuned.tail] at listened

theorem readsListened (received) (tuned : Tuned e c) (fits : Fits e received)
    (run : (readLog s received c).Runs trace (lines,c')) :
    Listened e (signals received) lines trace c.tls c' ∧ Awake (control.hears e (signals received)) c' := by
  induction received generalizing e c trace lines with
  | nil =>
    obtain ⟨rfl,rfl,rfl⟩ := runsPair.mp run
    split
    · exact ⟨tuned.full ‹_› _,awakeLeft rfl⟩
    · exact ⟨tuned.stays,fun _ _ => tuned.open ‹_›⟩
  | cons first more ih =>
    unfold readLog at run
    split at run
    · obtain ⟨rfl,rfl,rfl⟩ := runsPair.mp run
      exact ⟨tuned.full ‹_› _,awakeLeft rfl⟩
    rename_i short
    have going := tuned.open short
    cases first with
    | wouldBlock =>
      obtain ⟨rfl,rfl,rfl⟩ := runsPair.mp run
      exact ⟨tuned.stays,fun _ _ => going⟩
    | failed =>
      obtain ⟨rfl,rfl,rfl⟩ := runsPair.mp run
      exact ⟨tuned.ended,awakeLeft rfl⟩
    | bytes chunk =>
      cases chunk with
      | nil =>
        obtain ⟨rfl,rfl,rfl⟩ := runsPair.mp run
        exact ⟨tuned.ended,awakeLeft rfl⟩
      | cons b chunk =>
        obtain ⟨room,rest⟩ := fits
        obtain ⟨front,⟨taken,c₁⟩,back,rfl,linesRun,next⟩ := runsBind.mp run
        have listened := chunkListened tuned (room.resolve_left (by simp [going])) linesRun
        dsimp only at next
        by_cases stops : c₁.disconnectRequested = true ∨ c₁.tlsHandshaking = true
        · rw [if_pos stops] at next
          obtain ⟨rfl,rfl,rfl⟩ := runsPair.mp next
          rw [List.append_nil]
          refine ⟨listened.beyond stops _,fun on still => ?_⟩
          simp [on,still] at stops
        rw [if_neg stops] at next
        obtain ⟨middle,⟨later,c₂⟩,last,rfl,reads,final⟩ := runsBind.mp next
        obtain ⟨rfl,rfl,rfl⟩ := runsPair.mp final
        cases listened with
        | tuned tuned' same heard =>
          obtain ⟨then_,awake⟩ := ih tuned' rest reads
          rw [same] at then_
          rw [List.append_nil]
          have step := @hearsAppend _ _ _ control e ((b :: chunk).map some) (signals more)
          exact ⟨Listened.after rfl heard then_,step ▸ awake⟩
        | left _ leaving | refused _ _ _ _ _ _ leaving => exact absurd (.inl leaving) stops
        | upgraded _ _ _ _ _ _ after => exact absurd (.inr after.2.2.1) stops

def eventSignals (revents : Revents) (received : List Received) : List (Option UInt8) :=
  (if revents.pollin then signals received else []) ++ if revents.hangup then [none] else []

inductive Passed (e : Ear UInt8 Bytes) (stream : List (Option UInt8)) (lines : List Bytes)
    (trace : Trace) (tls : Bool) (c' : Client) : Prop where
  | stays (tuned : Tuned (control.hears e stream) c') (open_ : (control.hears e stream).shut = false)
      (connected : c'.connected = true) (same : c'.tls = tls)
      (heard : (control.hears e stream).lines = e.lines ++ lines)
  | drops (gone : c'.connected = false) (shut : (control.hears e stream).shut = true)
      (heard : (control.hears e stream).lines = e.lines ++ lines)
  | upgraded {front pending rest} (split : stream = front ++ (pending.map some ++ rest)) (ended : some 10 ∈ front)
      (heard : control.hears e front = begun (e.lines ++ lines)) (asked : (pending,true) ∈ sessions trace)
      (asking : Asking lines) (before : tls = false) (connected : c'.connected = true)
      (after : c'.rbuf = [] ∧ c'.tls = true ∧ c'.tlsHandshaking = true ∧ c'.disconnectRequested = false)
  /- The session could not be created, or the connection hung up meanwhile. -/
  | cut {front pending rest made} (split : stream = front ++ (pending.map some ++ rest)) (ended : some 10 ∈ front)
      (heard : control.hears e front = begun (e.lines ++ lines)) (asked : (pending,made) ∈ sessions trace)
      (before : tls = false) (gone : c'.connected = false)

theorem finishRuns (run : (finishEvent c).Runs trace c') :
    c.disconnectRequested = true ∧ c'.connected = false ∨ c.disconnectRequested = false ∧ c' = c ∧ trace = [] := by
  unfold finishEvent at run
  split at run
  · exact .inl ⟨‹_›,by rw [(disconnectRuns run).2]; rfl⟩
  · rename_i staying
    obtain ⟨rfl,rfl⟩ := runsDone.mp run
    exact .inr ⟨by simpa using staying,rfl,rfl⟩

theorem Listened.finish (listened : Listened e stream lines before tls c) (awake : Awake (control.hears e stream) c)
    (connected : c.connected = true) (run : (finishEvent c).Runs trace c') :
    Passed e stream lines (before ++ trace) tls c' := by
  rcases finishRuns run with ⟨leaving,gone⟩ | ⟨staying,rfl,-⟩
  · cases listened with
    | tuned tuned => simp [tuned.staying] at leaving
    | left _ _ shut heard => exact .drops gone shut heard
    | upgraded _ _ _ _ _ _ after => simp [after.2.2.2] at leaving
    | refused split ended heard asked free => exact .cut split ended heard (toldBefore asked) free gone
  cases listened with
  | tuned tuned same heard => exact .stays tuned (awake staying tuned.plain) connected same heard
  | left _ leaving | refused _ _ _ _ _ _ leaving => simp [staying] at leaving
  | upgraded split ended heard asked asking free after =>
    exact .upgraded split ended heard (toldBefore asked) asking free connected after

theorem Listened.hangup (listened : Listened e stream lines before tls c)
    (run : (finishEvent { c with disconnectRequested := true }).Runs trace c') :
    Passed e (stream ++ [none]) lines (before ++ trace) tls c' := by
  have whole : control.hears e (stream ++ [none]) = { control.hears e stream with shut := true } := hearsAppend _ _
  have gone : c'.connected = false := by
    rcases finishRuns run with ⟨-,gone⟩ | ⟨staying,-⟩
    · exact gone
    · cases staying
  cases listened with
  | tuned _ _ heard | left _ _ _ heard => exact .drops gone (by rw [whole]) (by rw [whole]; exact heard)
  | upgraded split ended heard asked _ free | refused split ended heard asked free =>
    exact .cut (by rw [split,List.append_assoc,List.append_assoc]) ended heard (toldBefore asked) free gone

theorem urgentTuned (tuned : Tuned e c) (run : (urgentAbort s c).Runs trace c') :
    Tuned e c' ∧ c'.connected = c.connected ∧ c'.tls = c.tls := by
  obtain ⟨rest,-,abort⟩ := urgentRuns run
  obtain ⟨tail,within,short,open_,plain,staying⟩ := tuned
  cases abortRuns abort <;> exact ⟨⟨tail,within,short,open_,plain,staying⟩,rfl,rfl⟩

theorem readConnected {received} (connected : c.connected = true) (plain : c.tlsHandshaking = false)
    (run : (readLog s received c).Runs trace (lines,c')) : c'.connected = true := by
  have erased : (readLoop s received c).Runs trace c' := by
    rw [← readLogErased]
    exact runsBind.mpr ⟨trace,_,[],(List.append_nil _).symm,run,.done _⟩
  exact (readsParted received connected plain erased).2

theorem eventPassed {revents received orders} (tuned : Tuned e c) (open_ : e.shut = false)
    (connected : c.connected = true) (fits : revents.pollin = true → Fits e received)
    (run : (eventLog s revents received c).Runs trace (orders,c')) :
    ∃ lines, orders = (if revents.pollpri then [.urgent] else []) ++ lines.map .line ∧
      Passed e (eventSignals revents received) lines trace c.tls c' := by
  unfold eventLog at run
  rw [if_neg (by simp [tuned.plain])] at run
  obtain ⟨first,c₁,second,rfl,urgent,next⟩ := runsBind.mp run
  obtain ⟨third,⟨lines,c₂⟩,fourth,rfl,reading,last⟩ := runsBind.mp next
  obtain ⟨fifth,c₃,sixth,rfl,finish,final⟩ := runsBind.mp last
  obtain ⟨rfl,rfl,rfl⟩ := runsPair.mp final
  have began : Tuned e c₁ ∧ c₁.connected = c.connected ∧ c₁.tls = c.tls := by
    split at urgent
    · exact urgentTuned tuned urgent
    · obtain ⟨rfl,rfl⟩ := runsDone.mp urgent
      exact ⟨tuned,rfl,rfl⟩
  obtain ⟨tuned₁,here,tls⟩ := began
  have listened : (Listened e (if revents.pollin then signals received else []) lines third c₁.tls c₂ ∧
      Awake (control.hears e (if revents.pollin then signals received else [])) c₂) ∧ c₂.connected = true := by
    split at reading
    · rename_i pollin
      rw [if_pos pollin]
      exact ⟨readsListened received tuned₁ (fits pollin) reading,readConnected (here.trans connected) tuned₁.plain reading⟩
    rename_i idle
    rw [if_neg idle]
    obtain ⟨rfl,rfl,rfl⟩ := runsPair.mp reading
    exact ⟨⟨tuned₁.stays,fun _ _ => open_⟩,here.trans connected⟩
  obtain ⟨⟨listened,awake⟩,connected₂⟩ := listened
  rw [tls] at listened
  refine ⟨lines,rfl,?_⟩
  rw [List.append_nil,← List.append_assoc]
  have whole := @Listened.after e e c₂ c.tls [] lines _ [] third first rfl (List.append_nil _).symm listened
  unfold eventSignals
  split at finish
  · rename_i hangup
    rw [if_pos hangup]
    exact whole.hangup finish
  · rename_i held
    rw [if_neg held,List.append_nil]
    exact whole.finish awake connected₂ finish

end Simulation

def happeningLog (s : Server) (c : Client) : Happening → Handler (List Order × Client)
  | .event revents received => eventLog s revents received c
  | .completion posted => do
    let c ← datachanComplete posted c
    return ([],c)

inductive Heard (s : Server) : Client → List Moment → List Order → Client → Prop where
  | rest (c) : Heard s c [] [] c
  | next {m orders c' moments more last} (ready : m.happening.Ready m.client)
      (run : (happeningLog (m.server s) m.client m.happening).Runs m.trace (orders,c'))
      (later : Heard s c' moments more last) : Heard s m.client (m :: moments) (orders ++ more) last

theorem eventRan {s c c' revents received orders trace} (run : (eventLog s revents received c).Runs trace (orders,c')) :
    (handleClientEvents s revents received c).Runs trace c' := by
  rw [← eventLogErased]
  exact runsBind.mpr ⟨_,_,[],(List.append_nil _).symm,run,.done _⟩

theorem happeningLogErased (s c h) : (happeningLog s c h >>= fun r => pure r.2) = h.run s c := by
  cases h with
  | event revents received => exact eventLogErased revents received c
  | completion posted =>
    unfold happeningLog
    simp [bindAssoc,pureDone,doneBind,bindDone]
    rfl

theorem livesHeard {s c last moments} : Lives s c moments last ↔ ∃ orders, Heard s c moments orders last := by
  constructor
  · intro lives
    induction lives with
    | rest c => exact ⟨[],.rest c⟩
    | @next m c' moments last ready run later ih =>
      obtain ⟨more,heard⟩ := ih
      rw [← happeningLogErased] at run
      obtain ⟨first,⟨orders,d⟩,second,whole,logged,done⟩ := runsBind.mp run
      obtain ⟨rfl,rfl⟩ := runsDone.mp done
      rw [List.append_nil] at whole
      exact ⟨_,.next ready (whole ▸ logged) heard⟩
  rintro ⟨orders,heard⟩
  induction heard with
  | rest c => exact .rest c
  | @next m orders c' moments more last ready run later ih =>
    refine .next ready ?_ ih
    rw [← happeningLogErased]
    exact runsBind.mpr ⟨m.trace,_,[],(List.append_nil _).symm,run,.done _⟩

def momentSignals (m : Moment) : List (Option UInt8) :=
  match m.happening with
  | .event revents received => if m.client.tlsHandshaking then [] else eventSignals revents received
  | .completion _ => []

def stream (moments : List Moment) : List (Option UInt8) := (moments.map momentSignals).flatten

def MomentFits (e : Ear UInt8 Bytes) (m : Moment) : Prop :=
  match m.happening with
  | .event revents received => m.client.tlsHandshaking = false → revents.pollin = true → Fits e received
  | .completion _ => True

def Fitting (e : Ear UInt8 Bytes) : List Moment → Prop
  | [] => True
  | m :: moments => MomentFits e m ∧ Fitting (control.hears e (momentSignals m)) moments

def Order.text : Order → Option Bytes
  | .line text => some text
  | .urgent => none

def spoken (orders : List Order) : List Bytes := orders.filterMap Order.text

theorem spokenLines (lines : List Bytes) (urgent : Bool) :
    spoken ((if urgent then [.urgent] else []) ++ lines.map .line) = lines := by
  have all : (lines.map Order.line).filterMap Order.text = lines := by
    rw [List.filterMap_map]
    exact List.filterMap_some
  rw [spoken,List.filterMap_append,all]
  cases urgent <;> rfl

section History
variable {s : Server} {e : Ear UInt8 Bytes} {c c' last : Client} {m : Moment} {moments : List Moment} {orders : List Order}

theorem hearsNext (e : Ear UInt8 Bytes) (m : Moment) (moments : List Moment) :
    control.hears e (stream (m :: moments)) = control.hears (control.hears e (momentSignals m)) (stream moments) := by
  simp [stream,hearsAppend]

theorem heardGone (gone : c.connected = false) (heard : Heard s c moments orders last) :
    moments = [] ∧ orders = [] ∧ last = c := by
  cases heard with
  | rest => exact ⟨rfl,rfl,rfl⟩
  | @next m orders c' moments more last ready run later =>
    have connected : m.client.connected = true := by
      cases same : m.happening with
      | event revents received =>
        rw [same] at ready
        exact ready
      | completion posted =>
        rw [same] at ready
        exact ready.1
    simp [gone] at connected

theorem completionTuned {p trace} (tuned : Tuned e c) (run : (datachanComplete p c).Runs trace c') :
    Tuned e c' ∧ c'.connected = c.connected ∧ c'.tls = c.tls := by
  obtain ⟨tail,within,short,open_,plain,staying⟩ := tuned
  cases completeRuns run <;> exact ⟨⟨tail,within,short,open_,plain,staying⟩,rfl,rfl⟩

theorem momentPassed (tuned : Tuned e m.client) (open_ : e.shut = false) (ready : m.happening.Ready m.client)
    (fits : MomentFits e m) (run : (happeningLog (m.server s) m.client m.happening).Runs m.trace (orders,c')) :
    Passed e (momentSignals m) (spoken orders) m.trace m.client.tls c' := by
  unfold momentSignals
  unfold MomentFits at fits
  cases same : m.happening with
  | event revents received =>
    rw [same] at ready run fits
    obtain ⟨lines,rfl,passed⟩ := eventPassed tuned open_ ready (fits tuned.plain) run
    rw [spokenLines]
    simpa [tuned.plain] using passed
  | completion posted =>
    rw [same] at ready run
    obtain ⟨first,c₁,second,whole,completed,done⟩ := runsBind.mp run
    obtain ⟨rfl,rfl,rfl⟩ := runsPair.mp done
    obtain ⟨tuned',connected,tls⟩ := completionTuned tuned completed
    exact .stays tuned' open_ (connected.trans ready.1) tls (List.append_nil _).symm

end History

instance (e : Ear UInt8 Bytes) (received : List Received) : Decidable (Fits e received) := by
  induction received generalizing e with
  | nil => exact isTrue trivial
  | cons first more ih =>
    cases first with
    | bytes chunk =>
      have := ih (control.hears e (chunk.map some))
      exact inferInstanceAs (Decidable (_ ∧ _))
    | wouldBlock | failed => exact isTrue trivial

instance (e : Ear UInt8 Bytes) (m : Moment) : Decidable (MomentFits e m) := by
  unfold MomentFits
  split <;> infer_instance

instance (e : Ear UInt8 Bytes) (moments : List Moment) : Decidable (Fitting e moments) := by
  induction moments generalizing e with
  | nil => exact isTrue trivial
  | cons m moments ih =>
    have := ih (control.hears e (momentSignals m))
    exact inferInstanceAs (Decidable (_ ∧ _))

section Attending
variable (s : Server) (oracle : (call : Call) → Answer call)

def waking (received : List Received) (c : Client) : Trace × List Order × Client :=
  (eventLog s ⟨false,true,false⟩ received c).play oracle

def attend : Client → List (List Received) → List Moment × List Order × Client
  | c,[] => ([],[],c)
  | c,received :: more =>
    if c.connected then
      let now := waking s oracle received c
      let rest := attend now.2.2 more
      (⟨s.root,c,.event ⟨false,true,false⟩ received,now.1⟩ :: rest.1,now.2.1 ++ rest.2.1,rest.2.2)
    else ([],[],c)

theorem attendHeard (c pieces) :
    Heard s c (attend s oracle c pieces).1 (attend s oracle c pieces).2.1 (attend s oracle c pieces).2.2 := by
  induction pieces generalizing c with
  | nil => exact .rest c
  | cons received more ih =>
    unfold attend
    split
    · rename_i connected
      exact .next (m := ⟨s.root,c,.event ⟨false,true,false⟩ received,_⟩) connected (playRuns oracle _) (ih _)
    · exact .rest c

end Attending

end OpenPs3Ftp.Hearing
