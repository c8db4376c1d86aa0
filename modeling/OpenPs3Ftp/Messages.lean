import OpenPs3Ftp.Lib.Setting
import OpenPs3Ftp.Containment
import OpenPs3Ftp.Recollection

/-! The 550 texts that are chosen by errno. A handler that refuses without a failed call
of its own reads what some earlier call left there, of this session or another. -/
namespace OpenPs3Ftp.Messages
open Lib Text Resolve Fs Session Listing Commands Dispatch Program

def fails : Exchange Answer → Option Errno
  | ⟨.fs call,answer⟩ => call.error answer
  | _ => none

def errnoKept : Setting Call Answer Errno where
  can e
    | .errno,answer => answer = e
    | _,_ => True
  next e call answer := (fails ⟨call,answer⟩).getD e

def left (history : Trace) : Errno := errnoKept.after (.other 0) history

def met (e : Exchange Answer) : Bool :=
  match e.1 with
  | .errno | .send .. => false
  | _ => true

def outcomes (trace : Trace) : Trace := trace.filter met

def Own (trace : Trace) : Prop :=
  ∀ front e back, trace = front ++ ⟨.errno,e⟩ :: back → ∃ x ∈ front, fails x ≠ none

variable {call : Call} {front back : Trace}

section Same
variable {α : Type} {p : Handler α} {a a' : α} {g g' : Errno} {trace trace' : Trace}

theorem sameTold (run : p.Runs trace a) (run' : p.Runs trace' a') (reads : errnoKept.Genuine g trace)
    (reads' : errnoKept.Genuine g' trace') (same : outcomes trace = outcomes trace')
    (own : ∀ front e back, trace = front ++ ⟨.errno,e⟩ :: back → g = g' ∨ ∃ x ∈ front, fails x ≠ none) :
    trace = trace' := by
  induction run generalizing trace' g g' with
  | done value => exact (runsDone.mp run').1.symm
  | @ask call next trace a answer rest ih =>
    obtain ⟨answer',rest',rfl,later⟩ := runsAsk.mp run'
    have heads : answer = answer' ∧ outcomes trace = outcomes rest' := by
      cases call
      case errno =>
        rcases own [] answer trace rfl with level | ⟨x,member,-⟩
        · exact ⟨reads.1.trans (level.trans reads'.1.symm),same⟩
        · cases member
      case send => exact ⟨rfl,same⟩
      all_goals
        obtain ⟨head,tail⟩ := List.cons.inj same
        cases head
        exact ⟨rfl,tail⟩
    obtain ⟨rfl,tails⟩ := heads
    refine congrArg _ (ih later reads.2 reads'.2 tails fun front e back split => ?_)
    rcases own (⟨call,answer⟩ :: front) e back (by rw [split]; rfl) with level | ⟨x,member,failed⟩
    · exact .inl (by rw [level])
    rcases List.mem_cons.mp member with rfl | member
    · obtain ⟨e,failed⟩ := Option.ne_none_iff_exists'.mp failed
      exact .inl (by simp [errnoKept,failed])
    · exact .inr ⟨x,member,failed⟩

theorem runsAgain {answer} (run : p.Runs (front ++ ⟨call,answer⟩ :: back) a) :
    ∃ next : Answer call → Handler α, ∀ answer rest b, (next answer).Runs rest b →
      p.Runs (front ++ ⟨call,answer⟩ :: rest) b := by
  induction front generalizing p with
  | nil =>
    cases run with
    | @ask _ next _ _ _ later => exact ⟨next,fun answer rest b more => .ask answer more⟩
  | cons x front ih =>
    cases run with
    | ask answer later =>
      obtain ⟨next,again⟩ := ih later
      exact ⟨next,fun other rest b more => .ask answer (again other rest b more)⟩

end Same

inductive Look where
  | fresh
  | read (e : Errno)
  | told

def Look.note : Look → (call : Call) → Answer call → Look
  | _,.errno,e => .read e
  | .read _,_,_ => .told
  | look,_,_ => look

def Look.Allows : Look → Call → Prop
  | .fresh,_ => True
  | .read e,call => call = .send .command (replyText 550 (fsErrorText e))
  | .told,_ => False

def Look.Ends : Look → Prop
  | .read _ => False
  | _ => True

abbrev Consults {α : Type} (p : Handler α) : Prop :=
  Meets (fun _ _ => True) Look.note Look.Allows (fun look _ => look.Ends) .fresh p

def looks : Call → Bool
  | .errno => true
  | _ => false

abbrev Blind {α : Type} (p : Handler α) : Prop := p.Obeys (fun _ _ => True) (fun call => looks call = false) fun _ => True

section Rules
variable {α β : Type}

theorem freshNote (other : looks call = false) (answer) : Look.note .fresh call answer = .fresh := by
  cases call
  case errno => contradiction
  all_goals rfl

theorem consultsCall {k : Answer call → Handler α} (other : looks call = false)
    (next : ∀ answer, Consults (k answer)) : Consults (invoke call >>= k) :=
  ⟨trivial,fun answer _ => (freshNote other answer).symm ▸ next answer⟩

theorem blindOne (other : looks call = false) : Blind (invoke call) := ⟨other,fun _ _ => trivial⟩

theorem blindThen {p} {f : β → Handler α} (first : Blind p) (next : ∀ b, Blind (f b)) : Blind (p >>= f) :=
  obeysBind (meetsMono (fun _ b _ => next b) first)

theorem consultsThen {p} {f : β → Handler α} (first : Blind p) (next : ∀ b, Consults (f b)) : Consults (p >>= f) := by
  rw [Consults,meetsBind]
  refine meetsWeaken (fun _ look => look = Look.fresh) rfl (fun _ look call fresh _ => ?_) ?_ ?_ first
  · rw [fresh]
    trivial
  · rintro _ _ call answer rfl other
    exact freshNote other answer
  · rintro _ _ b rfl -
    exact next b

end Rules

section Parts
variable {s : Server} {c : Client}

theorem consultsAnswering (code : Nat) (msg : Bytes) (c) : Consults (answering code msg c) :=
  consultsCall rfl fun _ => trivial

theorem consultsFailing (failure c) : Consults (failing failure c) := by
  cases failure with
  | known e => exact consultsCall rfl fun _ => trivial
  | stale => exact ⟨trivial,fun e _ => ⟨rfl,fun _ _ => trivial⟩⟩

theorem blindClose (fd) : Blind (closeSome fd) := by
  cases fd with
  | none => exact trivial
  | some fd => exact blindOne rfl

theorem blindFree (job) : Blind (jobFree job) := blindThen (blindClose _) fun _ => blindOne rfl

theorem consultsTransfer (s c op) (path : Bytes) (nlst mlsd) (reply150 : Option Bytes) :
    Consults (startTransfer s c op path nlst mlsd reply150) := by
  refine transferMeets (r := Look.fresh) rfl (consultsAnswering _ _ c) (consultsAnswering _ _ c) fun _ _ => ⟨trivial,consultsAnswering _ _ c,?_⟩
  rintro id job _ - rfl
  exact ⟨trivial,consultsCall rfl fun _ => trivial,consultsThen (blindFree job) fun _ => consultsAnswering _ _ _⟩

theorem consultsPass (s c) (param : Option Bytes) : Consults (cmdPass s c param) := by
  refine passMeets (r := Look.fresh) rfl (consultsAnswering _ _ c) trivial ?_
  rintro _ (rfl | ⟨ok,rfl⟩) <;> exact ⟨consultsAnswering _ _ _,consultsAnswering _ _ _⟩

theorem consultsCopy (c) (path : Bytes) : Consults (startCopy c path) := by
  refine copyMeets (r := Look.fresh) rfl trivial (consultsAnswering _ _ c) ?_
  rintro id job _ - rfl
  exact ⟨trivial,trivial,consultsThen (blindFree job) fun _ => consultsAnswering _ _ _⟩

theorem commandConsults (s c) (param : Option Bytes) (command : Command) : Consults (command.run s c param) := by
  have blind : ∀ {call}, Ordinary s c command param call → looks call = false := by
    intro call fine
    cases call
    case errno => cases fine
    all_goals rfl
  refine course { done := fun _ _ => trivial, failing := fun failure d _ => consultsFailing failure d,
                  ask := fun call k fine next => consultsCall (blind fine) next, pass := fun _ => consultsPass s c param,
                  abor := fun _ => ?_, stop := fun _ => consultsCall rfl fun _ => consultsCall rfl fun _ => trivial,
                  transfer := fun _ op path nlst mlsd reply150 _ _ _ => consultsTransfer s c op path nlst mlsd reply150,
                  copy := fun _ _ _ path _ => consultsCopy _ path }
  unfold cmdAbor
  split <;> exact consultsCall rfl fun _ => trivial

end Parts

theorem readNoted (e front) : noted Look.note .fresh (front ++ [⟨.errno,e⟩]) = .read e := by
  rw [noted,List.foldl_append]
  generalize List.foldl (fun r (e : Exchange Answer) => Look.note r e.1 e.2) .fresh front = look
  cases look <;> rfl

theorem toldNoted (e text front) :
    noted Look.note .fresh (front ++ [⟨.errno,e⟩,⟨.send .command text,()⟩]) = .told := by
  have read := readNoted e front
  rw [List.append_cons,noted,List.foldl_append]
  rw [noted] at read
  rw [read]
  rfl

theorem consultsLast {α : Type} {p : Handler α} {a e} (consults : Consults p)
    (run : p.Runs (front ++ ⟨.errno,e⟩ :: back) a) :
    back = [⟨.send .command (replyText 550 (fsErrorText e)),()⟩] := by
  obtain ⟨ends,guards⟩ := meetsRuns consults run fun _ _ => trivial
  cases back with
  | nil =>
    rw [readNoted] at ends
    exact ends.elim
  | cons first back =>
    have allowed := guards (front ++ [⟨.errno,e⟩]) first back (by simp)
    rw [readNoted] at allowed
    obtain ⟨call,answer⟩ := first
    obtain rfl : call = .send .command (replyText 550 (fsErrorText e)) := allowed
    cases back with
    | nil => rfl
    | cons second back =>
      have more := guards (front ++ [⟨.errno,e⟩,⟨.send .command (replyText 550 (fsErrorText e)),()⟩]) second back
        (by simp)
      rw [toldNoted] at more
      exact more.elim

def fsReply (e : Errno) : Bytes := replyText 550 (fsErrorText e)

theorem otherReply (e) : ∃ e', fsReply e' ≠ fsReply e := by
  by_cases absent : fsReply e = fsReply .enoent
  · exact ⟨.eacces,by rw [absent]; decide⟩
  · exact ⟨.enoent,Ne.symm absent⟩

theorem keptGenuine {g} (calm : ∀ x ∈ front, fails x = none) (blind : ∀ x ∈ front, looks x.1 = false) :
    errnoKept.Genuine g (front ++ back) ↔ errnoKept.Genuine g back := by
  induction front with
  | nil => exact Iff.rfl
  | cons x front ih =>
    obtain ⟨call,answer⟩ := x
    have still : errnoKept.next g call answer = g := by
      simp [errnoKept,calm ⟨call,answer⟩ (by simp)]
    have free : errnoKept.can g call answer := by
      have other := blind ⟨call,answer⟩ (by simp)
      cases call
      case errno => cases other
      all_goals trivial
    rw [List.cons_append,Setting.Genuine,still]
    rw [ih (fun x member => calm x (by simp [member])) (fun x member => blind x (by simp [member]))]
    exact and_iff_right free

theorem otherTold {p : Handler Client} {c e} (consults : Consults p) (run : p.Runs (front ++ ⟨.errno,e⟩ :: back) c)
    (calm : ∀ x ∈ front, fails x = none) :
    ∃ history trace c', p.Runs trace c' ∧ errnoKept.Genuine (left history) trace ∧
      outcomes trace = outcomes (front ++ ⟨.errno,e⟩ :: back) ∧ sends trace ≠ sends (front ++ ⟨.errno,e⟩ :: back) := by
  have blind : ∀ x ∈ front, looks x.1 = false := by
    rintro ⟨call,answer⟩ member
    obtain ⟨first,second,rfl⟩ := List.append_of_mem member
    cases call
    case errno =>
      rw [List.append_assoc,List.cons_append] at run
      have last := consultsLast consults run
      simp [List.append_eq_singleton_iff] at last
    all_goals rfl
  obtain ⟨e',differs⟩ := otherReply e
  obtain ⟨next,again⟩ := runsAgain run
  have other := again e' _ _ (playRuns Containment.refusals (next e'))
  have mine := consultsLast consults run
  have last := consultsLast consults other
  rw [last] at other
  rw [mine]
  refine ⟨[⟨.fs (.stat []),.error e'⟩],_,_,other,?_,?_,?_⟩
  · rw [keptGenuine calm blind]
    exact ⟨rfl,trivial,trivial⟩
  · simp [outcomes,met]
  intro same
  rw [sends,sends,List.filterMap_append,List.filterMap_append] at same
  have tails : [(About.command,fsReply e')] = [(About.command,fsReply e)] := List.append_cancel_left same
  exact differs (by simpa using tails)

section Refusals
variable {s : Server} {c c' : Client} {param : Option Bytes} {command : Command} {front back : Trace}

/- The types that these commands take. -/
def typed : List (Command × (Mode → Bool)) :=
  [(.cwd,isDir),(.size,isReg),(.retr,isReg),(.cpfr,fun mode => isReg mode || isDir mode)]

/- A target that does not resolve, or whose parent is not a directory. -/
inductive Unplaced (s : Server) (c : Client) (param : Option Bytes) : Trace → Prop where
  | unresolved (none_ : resolveArg s c param = none) : Unplaced s c param []
  | orphan {path parent st} (resolved : resolveArg s c param = some path) (above : pathParent path maxPath = some parent)
      (some_ : parent ≠ []) (wrong : isDir st.mode = false) : Unplaced s c param [⟨.fs (.stat parent),.ok st⟩]

/- The refusals before which every call succeeds. -/
inductive Refuses (s : Server) (c : Client) (param : Option Bytes) : Command → Trace → Prop where
  | wrongType {command : Command} {fits path} {st : Stat} (which : (command,fits) ∈ typed) (resolved : resolveArg s c param = some path)
      (wrong : fits st.mode = false) : Refuses s c param command [⟨.fs (.stat path),.ok st⟩]
  | mkd {front : Trace} (named : given param ≠ none) (unplaced : Unplaced s c param front) : Refuses s c param .mkd front
  | rnto {front : Trace} (source : c.haveRnfr = true) (unplaced : Unplaced s c param front) : Refuses s c param .rnto front
  | cpto {front : Trace} (source : c.haveCpfr = true) (free : c.job = none) (unplaced : Unplaced s c param front) :
      Refuses s c param .cpto front
  | stor {command : Command} {front : Trace} (which : command ∈ [Command.stor,.appe]) (resolved : resolveArg s c param ≠ none)
      (unplaced : Unplaced s c param front) : Refuses s c param command front

theorem parentRefused {k : Option Failure → Handler Client} {path parent st} (above : pathParent path maxPath = some parent)
    (some_ : parent ≠ []) (wrong : isDir st.mode = false)
    (run : (parentIsDir path >>= k).Runs (⟨.fs (.stat parent),.ok st⟩ :: back) c') : (k (some .stale)).Runs back c' := by
  obtain ⟨b,rest,rfl⟩ := List.exists_cons_of_ne_nil some_
  rw [parentIsDir,above] at run
  obtain ⟨answer,trace,same,run⟩ := runsAsk.mp run
  cases same
  change (k (if isDir st.mode then none else some .stale)).Runs back c' at run
  rwa [if_neg (by simp [wrong])] at run

theorem targetRefused {k : Except Failure Bytes → Handler Client} (unplaced : Unplaced s c param front)
    (run : (resolveTarget s c param >>= k).Runs (front ++ back) c') : (k (.error .stale)).Runs back c' := by
  unfold resolveTarget at run
  cases unplaced with
  | unresolved none_ =>
    rw [none_] at run
    exact run
  | orphan resolved above some_ wrong =>
    rw [resolved] at run
    rw [bindAssoc] at run
    exact parentRefused above some_ wrong run

theorem typedRefused {path} {st : Stat} {k : Bytes → Stat → Handler Client} (resolved : resolveArg s c param = some path)
    (run : (statting s c param k).Runs (⟨.fs (.stat path),.ok st⟩ :: back) c') : (k path st).Runs back c' := by
  rw [statting,resolved] at run
  obtain ⟨answer,trace,same,run⟩ := runsAsk.mp run
  cases same
  exact run

theorem refusesStale (refuses : Refuses s c param command front) (run : (command.run s c param).Runs (front ++ back) c') :
    ∃ d, (failing .stale d).Runs back c' := by
  cases refuses with
  | wrongType which resolved wrong =>
    simp only [typed,List.mem_cons,Prod.mk.injEq,List.not_mem_nil,or_false] at which
    rcases which with ⟨rfl,rfl⟩ | ⟨rfl,rfl⟩ | ⟨rfl,rfl⟩ | ⟨rfl,rfl⟩
    · exact ⟨c,by simpa [wrong] using typedRefused (k := fun path st => if isDir st.mode then _ else _) resolved run⟩
    · exact ⟨c,by simpa [wrong] using typedRefused resolved run⟩
    · exact ⟨c,by simpa [wrong] using typedRefused resolved run⟩
    · exact ⟨c,by simpa [Bool.or_eq_false_iff.mp wrong] using typedRefused resolved run⟩
  | mkd named unplaced =>
    rw [Command.run,cmdMkd,if_neg named] at run
    exact ⟨c,targetRefused unplaced run⟩
  | rnto source unplaced =>
    rw [Command.run,cmdRnto,if_neg (by simp [source])] at run
    exact ⟨_,targetRefused unplaced run⟩
  | cpto source free unplaced =>
    rw [Command.run,cmdCpto,if_neg (by simp [source]),if_neg (by simp [free])] at run
    exact ⟨_,targetRefused unplaced run⟩
  | stor which resolved unplaced =>
    cases unplaced with
    | unresolved none_ => exact absurd none_ resolved
    | orphan resolved above some_ wrong =>
      have store : ∃ op, command.run s c param = storing op s c param := by
        simp only [List.mem_cons,List.not_mem_nil,or_false] at which
        rcases which with rfl | rfl <;> exact ⟨_,rfl⟩
      obtain ⟨op,same⟩ := store
      rw [same,storing,resolved] at run
      exact ⟨c,parentRefused above some_ wrong run⟩

theorem unplacedCalm (unplaced : Unplaced s c param front) : ∀ x ∈ front, fails x = none := by
  cases unplaced <;> simp [fails,FsCall.error,errorOf]

theorem refusesUnowned (refuses : Refuses s c param command front)
    (run : (command.run s c param).Runs (front ++ back) c') : ¬ Own (front ++ back) := by
  have calm : ∀ x ∈ front, fails x = none := by
    cases refuses with
    | wrongType => simp [fails,FsCall.error,errorOf]
    | mkd _ unplaced | rnto _ unplaced | cpto _ _ unplaced | stor _ _ unplaced => exact unplacedCalm unplaced
  obtain ⟨d,stale⟩ := refusesStale refuses run
  obtain ⟨e,rest,rfl,-⟩ := runsAsk.mp stale
  intro own
  obtain ⟨x,member,failed⟩ := own front e rest rfl
  exact failed (calm x member)

end Refusals

theorem messageOwn (s : Server) (command : Command) (c c' : Client) (param : Option Bytes)
    (history trace : List (Exchange Answer)) (run : (command.run s c param).Runs trace c')
    (reads : errnoKept.Genuine (left history) trace) :
    (∀ history' trace' c'', (command.run s c param).Runs trace' c'' → errnoKept.Genuine (left history') trace' →
      outcomes trace' = outcomes trace → sends trace' = sends trace) ↔ Own trace := by
  constructor
  · intro same front e back split
    by_contra none_
    have calm : ∀ x ∈ front, fails x = none := fun x member => by_contra fun failed => none_ ⟨x,member,failed⟩
    rw [split] at run
    obtain ⟨history',trace',c'',run',reads',met_,told⟩ := otherTold (commandConsults s c param command) run calm
    rw [← split] at met_ told
    exact told (same history' trace' c'' run' reads' met_)
  · intro own history' trace' c'' run' reads' met_
    rw [sameTold run run' reads reads' met_.symm fun front e back split => .inr (own front e back split)]

def refusing (e g : Errno) : (call : Call) → Answer call
  | .fs (.stat path) => if path = ascii "/x" then .error e else .ok directory
  | .errno => g
  | call => Containment.refusals call

def going (e : Errno) : Trace × Client :=
  ((Command.cwd.run house visitor (some (ascii "/x"))).play (refusing e (.other 0)))

def asking (e : Errno) : Trace × Client :=
  ((Command.size.run house visitor (some (ascii "/d"))).play (refusing e e))

theorem messageOwnFailed : (∀ history' trace' c'', (Command.cwd.run house visitor (some (ascii "/x"))).Runs trace' c'' →
      errnoKept.Genuine (left history') trace' → outcomes trace' = outcomes (going .enoent).1 →
      sends trace' = sends (going .enoent).1) ↔ Own (going .enoent).1 :=
  messageOwn house .cwd visitor (going .enoent).2 (some (ascii "/x")) [] (going .enoent).1 (playRuns _ _)
    ⟨trivial,trivial,trivial⟩

theorem errnoLeftOver : ∃ history₁ history₂ trace₁ trace₂ c₁ c₂,
    (Command.cwd.run house visitor (some (ascii "/x"))).Runs history₁ visitor ∧
    (Command.cwd.run house visitor (some (ascii "/x"))).Runs history₂ visitor ∧
    (Command.size.run house visitor (some (ascii "/d"))).Runs trace₁ c₁ ∧ errnoKept.Genuine (left history₁) trace₁ ∧
    (Command.size.run house visitor (some (ascii "/d"))).Runs trace₂ c₂ ∧ errnoKept.Genuine (left history₂) trace₂ ∧
    outcomes trace₁ = outcomes trace₂ ∧ Replied trace₁ (replyText 550 (ascii "No such file or directory.")) ∧
    Replied trace₂ (replyText 550 (ascii "Permission denied.")) := by
  have first : (going .enoent).2 = visitor ∧ (going .eacces).2 = visitor := by decide +kernel
  refine ⟨(going .enoent).1,(going .eacces).1,(asking .enoent).1,(asking .eacces).1,(asking .enoent).2,(asking .eacces).2,
    ?_,?_,playRuns _ _,?_,playRuns _ _,?_,?_,?_,?_⟩
  · have run := playRuns (refusing .enoent (.other 0)) (Command.cwd.run house visitor (some (ascii "/x")))
    exact first.1 ▸ run
  · have run := playRuns (refusing .eacces (.other 0)) (Command.cwd.run house visitor (some (ascii "/x")))
    exact first.2 ▸ run
  · exact ⟨trivial,rfl,trivial,trivial⟩
  · exact ⟨trivial,rfl,trivial,trivial⟩
  · rfl
  · decide +kernel
  · decide +kernel

end OpenPs3Ftp.Messages
