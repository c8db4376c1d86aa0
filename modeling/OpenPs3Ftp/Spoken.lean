import OpenPs3Ftp.Turns

/-! Every handler speaks in complete lines, up to the paths that three of them print
in full. -/
namespace OpenPs3Ftp.Replies
open Lib Text Resolve Fs Session Listing Commands Dispatch Program Events

def Speaks : Call → Prop
  | .send _ text => Complete text
  | _ => True

def Sane : (call : Call) → Answer call → Prop
  | .entries _,des => ∀ de ∈ des, 10 ∉ de.name.text
  | _,_ => True

abbrev Spoken {α : Type} (p : Handler α) : Prop := p.Obeys Sane Speaks (fun _ => True)

variable {code : Nat} {msg path : Bytes}

section Combinators
variable {α β : Type} {s : Server} {c : Client} {param : Option Bytes}

theorem spokenBind {p} {f : α → Handler β} (first : Spoken p) (next : ∀ a, Spoken (f a)) : Spoken (p >>= f) := by
  rw [Spoken,Obeys,meetsBind]
  exact meetsMono (fun _ a _ => next a) first

theorem spokenInvoke {call} {k : Answer call → Handler α} (quiet : Speaks call)
    (next : ∀ answer, Sane call answer → Spoken (k answer)) : Spoken (invoke call >>= k) := ⟨quiet,next⟩

theorem spokenOne {call} (quiet : Speaks call) : Spoken (invoke call) := ⟨quiet,fun _ _ => trivial⟩

theorem spokenAnswering (three : (decimal code).length = 3) (short : Short 1017 msg) :
    Spoken (answering code msg c) := ⟨shortReply three short,fun _ _ => trivial⟩

theorem spokenReply {k : Unit → Handler α} (three : (decimal code).length = 3)
    (short : Short 1017 msg) (next : Spoken (k ())) : Spoken (reply code msg >>= k) :=
  ⟨shortReply three short,fun _ _ => next⟩

theorem spokenSend {k : Unit → Handler α} (short : Short 1021 msg) (next : Spoken (k ())) :
    Spoken (clientSend msg >>= k) := ⟨shortSend short,fun _ _ => next⟩

theorem spokenFailing (failure c) : Spoken (failing failure c) := by
  have short : ∀ e, Short 1017 (fsErrorText e) := by
    intro e
    unfold fsErrorText
    split <;> decide
  cases failure with
  | known e => exact ⟨shortReply (by decide) (short e),fun _ _ => trivial⟩
  | stale => exact ⟨trivial,fun e _ => ⟨shortReply (by decide) (short e),fun _ _ => trivial⟩⟩

theorem spokenStatting {k : Bytes → Stat → Handler Client}
    (next : ∀ path st, resolveArg s c param = some path → Spoken (k path st)) : Spoken (statting s c param k) := by
  unfold statting
  split
  · exact spokenAnswering (by decide) (by decide)
  rename_i path resolved
  refine spokenInvoke trivial ?_
  rintro (e | st) -
  · exact spokenFailing _ _
  · exact next path st resolved

theorem spokenEntries (libc) {des} (bare : ∀ de ∈ des, 10 ∉ de.name.text) : Spoken (sendEntries libc des) := by
  induction des with
  | nil => exact trivial
  | cons de des ih =>
    exact ⟨listingComplete libc (bare de (by simp)),fun _ _ => ih fun d member => bare d (by simp [member])⟩

theorem spokenCloseSome (fd) : Spoken (closeSome fd) := by
  cases fd with
  | none => exact trivial
  | some fd => exact spokenOne trivial

theorem spokenFree (job) : Spoken (jobFree job) :=
  spokenBind (spokenCloseSome _) fun _ => spokenOne trivial

theorem spokenTransfer {op nlst mlsd} {reply150 : Option Bytes} (short : Short 1017 (reply150.getD r150)) :
    Spoken (startTransfer s c op path nlst mlsd reply150) := by
  have refuse : ∀ c, Spoken (answering 425 r425 c) := fun c => spokenAnswering (by decide) (by decide)
  exact transferMeets (r := ()) rfl (spokenAnswering (by decide) (by decide)) (refuse c) fun _ _ => ⟨trivial,refuse c,fun id job _ _ _ =>
    ⟨trivial,⟨shortReply (by decide) short,fun _ _ => trivial⟩,spokenBind (spokenFree job) fun _ => refuse _⟩⟩

end Combinators

/- The paths that are printed in full leave room for the rest of their line. -/
def Fits (s : Server) (command : Command) (c : Client) (param : Option Bytes) : Prop :=
  match command with
  | .pwd => c.cwd.text.length ≤ 1015
  | .mkd => given param ≠ none → ∀ path, resolveArg s c param = some path → path.length ≤ 1015
  | .stat =>
    if given param = none then c.cwd.text.length ≤ 995
    else ∀ path, resolveArg s c param = some path → path.length ≤ 1006
  | _ => True

variable {text : Bytes}

section Handlers
variable {s : Server} {c : Client} {param : Option Bytes} (bare : Bare s c param)

theorem quotedComplete (free : 10 ∉ text) :
    Complete (replyText 257 (quoted text)) ↔ text.length ≤ 1015 := by
  have plain : 10 ∉ quoted text := snprintfBare (by simpa using free)
  rw [completeReply (by decide) plain]
  simp only [quoted,snprintf,List.length_take,List.length_append,List.length_cons,List.length_nil]
  omega

theorem statusComplete {cwd : Buffer 1024} (free : 10 ∉ cwd.text) :
    Complete (sendText (snprintf 1088 (ascii "211-Status of server: cwd=" ++ cwd.text))) ↔
      cwd.text.length ≤ 995 := by
  have size : (ascii "211-Status of server: cwd=").length = 26 := by decide
  have plain : 10 ∉ ascii "211-Status of server: cwd=" ++ cwd.text := by
    simp only [List.mem_append,not_or]
    exact ⟨by decide,free⟩
  have fits := cwd.fits
  rw [completeSend (snprintfBare plain)]
  simp only [snprintf,List.length_take,List.length_append,size]
  omega

theorem titleComplete (free : 10 ∉ path) :
    Complete (sendText (snprintf 1024 (ascii "211-Status of " ++ path ++ ascii ":"))) ↔ path.length ≤ 1006 := by
  have size : (ascii "211-Status of ").length = 14 ∧ (ascii ":").length = 1 := by decide
  have plain : 10 ∉ ascii "211-Status of " ++ path ++ ascii ":" := by
    simp only [List.mem_append,not_or]
    exact ⟨⟨by decide,free⟩,by decide⟩
  rw [completeSend (snprintfBare plain)]
  simp only [snprintf,List.length_take,List.length_append,size]
  omega

include bare

theorem spokenStat (fits : Fits s .stat c param) : Spoken (cmdStat s c param) := by
  have last : Spoken (do clientSend (ascii "211 End"); return c) := spokenSend (by decide) trivial
  unfold Fits at fits
  unfold cmdStat
  split
  · rename_i missing
    rw [if_pos missing] at fits
    exact ⟨(statusComplete bare.cwd).mpr fits,fun _ _ => last⟩
  rename_i present
  rw [if_neg present] at fits
  refine spokenStatting fun path st resolved => ?_
  have free := resolvedBare bare resolved
  refine ⟨(titleComplete free).mpr (fits path resolved),fun _ _ => ?_⟩
  refine @spokenBind _ _ (statLines s path st) _ ?_ fun _ => last
  unfold statLines
  split
  · refine spokenInvoke trivial ?_
    rintro (e | dir) -
    · exact trivial
    · exact spokenInvoke trivial fun des sane => spokenBind (spokenEntries _ sane) fun _ => spokenOne trivial
  · exact ⟨listingComplete _ (snprintfBare (baseNameBare free)),fun _ _ => trivial⟩

theorem spokenPass : Spoken (cmdPass s c param) := by
  have text : 10 ∉ ascii "Successfully logged in as " ++ c.user.text ++ ascii "." := by
    simp only [List.mem_append,not_or]
    exact ⟨⟨by decide,bare.user⟩,by decide⟩
  exact passMeets (r := ()) rfl (spokenAnswering (by decide) (by decide)) trivial fun _ _ =>
    ⟨spokenAnswering (by decide) ((shortCut text).mono (by decide)),spokenAnswering (by decide) (by decide)⟩

theorem stouBare (meant : Meant s c .stou param path) : 10 ∉ path := by
  obtain ⟨seq,resolved⟩ := meant
  refine resolvedBare ⟨bare.root,bare.cwd,bare.user,?_⟩ resolved
  rintro arg same
  cases Option.some.inj same
  refine snprintfBare ?_
  simp only [List.mem_append,not_or]
  exact ⟨by decide,padLeftBare (by decide) (decimalBare _)⟩

omit bare in
theorem meantGiven {command} (plain : command = .mkd ∨ command = .mlst) (meant : Meant s c command param path) :
    resolveArg s c param = some path := by
  rcases plain with rfl | rfl <;> cases param <;> exact meant

theorem uttersComplete {command} (other : command ≠ .stat) (fits : Fits s command c param)
    (utters : Utters s c param command text) : Complete text := by
  cases utters with
  | reply three short => exact shortReply three short
  | line short => exact shortSend short
  | stat => exact absurd rfl other
  | pwd => exact (quotedComplete bare.cwd).mpr fits
  | mkd present meant =>
    have resolved := meantGiven (.inl rfl) meant
    exact (quotedComplete (resolvedBare bare resolved)).mpr (fits present _ resolved)
  | mlst meant => exact mlstComplete _ (snprintfBare (baseNameBare (resolvedBare bare (meantGiven (.inr rfl) meant))))
  | user present =>
    refine shortReply (by decide) (shortPrint ?_ (by decide))
    simp only [List.mem_append,not_or]
    exact ⟨⟨by decide,snprintfBare (bare.param _ (Option.filter_eq_some_iff.mp present).1)⟩,by decide⟩

omit bare

theorem spokenAbor : Spoken (cmdAbor c) := by
  unfold cmdAbor
  split
  · exact ⟨trivial,fun _ _ => trivial⟩
  · exact ⟨shortReply (by decide) (by decide),fun _ _ => trivial⟩

theorem spokenCopy (path : Bytes) : Spoken (startCopy c path) := by
  have refuse : Spoken (answering 451 r451 c) := spokenAnswering (by decide) (by decide)
  exact copyMeets (r := ()) rfl trivial refuse fun id job _ _ _ => ⟨trivial,trivial,spokenBind (spokenFree job) fun _ => refuse⟩

theorem spokenCommand (command : Command) (bare : Bare s c param) (fits : Fits s command c param) :
    Spoken (command.run s c param) := by
  by_cases stat : command = .stat
  · subst stat
    exact spokenStat bare fits
  refine course { done := fun _ _ => trivial, failing := fun failure d _ => spokenFailing failure d, ask := fun call k fine next => ?_,
                  pass := fun _ => spokenPass bare, abor := fun _ => spokenAbor,
                  stop := fun _ => spokenReply (by decide) (by decide) (spokenInvoke trivial fun _ _ => trivial),
                  transfer := fun _ op path nlst mlsd reply150 _ meant said => ?_, copy := fun _ _ _ path _ => spokenCopy path }
  · refine ⟨?_,fun answer _ => next answer⟩
    cases call with
    | send about text =>
      cases about with
      | command => exact uttersComplete bare stat fits fine
      | _ => cases fine
    | _ => trivial
  refine spokenTransfer ?_
  rcases said with rfl | ⟨rfl,rfl⟩
  · decide
  · refine shortPrint ?_ (by decide)
    simp only [List.mem_append,not_or]
    exact ⟨by decide,baseNameBare (stouBare bare meant)⟩

end Handlers


section Exact
variable {α : Type} {s : Server} {c : Client} {param : Option Bytes}

theorem parentGiven {k : Option Failure → Handler α} (short : path.length < 1024)
    (spoken : Spoken (parentIsDir path >>= k)) : Spoken (k none) := by
  have parent : pathParent path maxPath ≠ none := by
    have trimmed : (trimSlashes path).length ≤ path.length := by
      unfold trimSlashes
      split
      · simp
      · exact ( List.rdropWhile_prefix _ _).length_le
    have lead := ( List.rdropWhile_prefix (· ≠ slash) (trimSlashes path)).length_le
    unfold pathParent
    simp only [maxPath]
    split
    · simp
    · split
      · simp
      · split <;> rw [if_neg (by omega)] <;> simp
  unfold parentIsDir at spoken
  split at spoken
  · exact absurd ‹_› parent
  · exact spoken
  · exact spoken.2 (.ok directory) trivial

theorem fitsMkd (bare : Bare s c param) (spoken : Spoken (cmdMkd s c param)) : Fits s .mkd c param := by
  intro present path resolved
  rw [cmdMkd,if_neg present,resolveTarget,resolved] at spoken
  simp only [bindAssoc] at spoken
  have made := parentGiven (resolveArgShort resolved) spoken
  exact (quotedComplete (resolvedBare bare resolved)).mp (made.2 (.ok ()) trivial).1

theorem fitsStat (bare : Bare s c param) (spoken : Spoken (cmdStat s c param)) : Fits s .stat c param := by
  simp only [Fits]
  unfold cmdStat at spoken
  split
  · rename_i missing
    rw [if_pos missing] at spoken
    exact (statusComplete bare.cwd).mp spoken.1
  rename_i present
  intro path resolved
  rw [if_neg present,statting,resolved] at spoken
  exact (titleComplete (resolvedBare bare resolved)).mp (spoken.2 (.ok directory) trivial).1

theorem spokenExactly (command) (bare : Bare s c param) :
    Spoken (command.run s c param) ↔ Fits s command c param := by
  refine ⟨fun spoken => ?_,spokenCommand command bare⟩
  cases command
  case pwd => exact (quotedComplete bare.cwd).mp spoken.1
  case mkd => exact fitsMkd bare spoken
  case stat => exact fitsStat bare spoken
  all_goals exact trivial

end Exact

def Tells {α : Type} (p : Handler α) : Prop :=
  ∀ trace a, p.Runs trace a → (∀ e ∈ trace, Sane e.1 e.2) → ∀ e ∈ trace, Speaks e.1

theorem tellsSpoken {α : Type} (p : Handler α) : Tells p ↔ Spoken p := by
  constructor
  · refine fun tells => runsObey (fun call => ?_) tells
    cases call
    case entries => exact ⟨[],by simp [Sane]⟩
    case fs call => cases call <;> first | exact ⟨(),trivial⟩ | exact ⟨.error .enoent,trivial⟩
    case localAddr => exact ⟨.unspec,trivial⟩
    case tlsHandshake => exact ⟨.failed,trivial⟩
    all_goals exact ⟨default,trivial⟩
  · exact fun spoken trace a run sane => (obeysRuns spoken run sane).2

theorem spokenAccept (s peer) : Spoken (acceptClient s peer) := by
  refine spokenBind ?_ fun _ => ?_
  · split
    · exact trivial
    · exact ⟨shortReply (by decide) (by decide),fun _ _ => trivial⟩
  · split
    · exact spokenReply (by decide) (by decide) trivial
    · exact trivial

theorem spokenDisconnect (c) : Spoken (clientDisconnect c) := by
  refine spokenBind ?_ fun _ => spokenBind (spokenCloseSome _) fun _ => trivial
  cases c.job with
  | none => exact trivial
  | some job => exact spokenOne trivial

theorem verdictShort (p : Posted) : (decimal p.verdict.1).length = 3 ∧ Short 1017 p.verdict.2 := by
  unfold Posted.verdict
  split
  · split <;> decide
  · split
    · split <;> decide
    all_goals decide

theorem spokenCompletion (p c) : Spoken (datachanComplete p c) := by
  refine spokenBind (spokenBind (spokenCloseSome _) fun _ => spokenCloseSome _) fun _ => ?_
  split
  · exact trivial
  refine ⟨shortReply (verdictShort p).1 (verdictShort p).2,fun _ _ => ?_⟩
  show Spoken (finishAbort _)
  unfold finishAbort
  split
  · exact ⟨shortReply (by decide) (by decide),fun _ _ => trivial⟩
  · exact trivial

theorem spokenUrgent (s c) : Spoken (urgentAbort s c) := by
  refine spokenBind ?_ fun _ => trivial
  rw [dispatchCall,lookupAbor]
  exact spokenInvoke trivial fun _ _ => spokenBind spokenAbor fun _ => trivial

def heard : Turn → Option Bytes
  | .line text => some text
  | _ => none

def TurnFits (s : Server) (c : Client) : Turn → Prop
  | .line text => ∀ command, (commandsInit s).lookup ((commandName text).map toupper) = some command →
      (c.loggedIn = true ∨ preloginCommand ((commandName text).map toupper) = true) →
      Fits s command c (some (lineParam text))
  | _ => True

theorem lineParamBare (bare : 10 ∉ text) : 10 ∉ lineParam text := fun member =>
  bare (List.dropWhile_subset _ (List.mem_of_mem_drop (List.dropWhile_subset _ member)))

theorem tellsLine {s : Server} {c : Client} (bare : Bare s c (some text)) :
    Tells (processLine (commandsInit s) (Command.run s) id c text) ↔ TurnFits s c (.line text) := by
  have param : Bare s c (some (lineParam text)) :=
    ⟨bare.root,bare.cwd,bare.user,fun arg same => Option.some.inj same ▸ lineParamBare (bare.param text rfl)⟩
  constructor
  · intro tells command found gate
    refine (spokenExactly command param).mp ((tellsSpoken _).mp fun trace c' run sane e member => ?_)
    exact tells _ c' (enteredRuns found gate run) (by simpa [Sane] using sane) e (by simp [member])
  intro fits trace c' run sane
  cases lineRuns run with
  | empty => simp
  | shut | unknown =>
    rintro e (_ | ⟨_,⟨⟩⟩)
    exact shortReply (by decide) (by decide)
  | entered found gate inner =>
    have spoken := (spokenExactly _ param).mpr (fits _ found gate)
    rintro e (_ | ⟨_,member⟩)
    · exact trivial
    · exact (obeysRuns spoken inner fun e member => sane e (by simp [member])).2 e member

theorem repliesComplete (s : Server) (c : Client) (turn : Turn) (bare : Bare s c (heard turn)) :
    (∀ peer, Tells (acceptClient s peer)) ∧ (Tells (turn.run s c) ↔ TurnFits s c turn) := by
  refine ⟨fun peer => (tellsSpoken _).mpr (spokenAccept s peer),?_⟩
  have always : ∀ {p : Handler Client}, Spoken p → (Tells p ↔ True) := fun spoken =>
    iff_true_intro ((tellsSpoken _).mpr spoken)
  cases turn with
  | line text => exact tellsLine bare
  | urgent => exact always (spokenUrgent s c)
  | buffer | leave => exact always trivial
  | shake => exact always ⟨trivial,fun _ _ => trivial⟩
  | drop => exact always (spokenDisconnect c)
  | complete posted => exact always (spokenCompletion posted c)

def within (n : Nat) (fits : n < 1023) : Client :=
  { visitor with
    loggedIn := true, cwd := ⟨slash :: List.replicate n 97,by rw [List.length_cons,List.length_replicate]; omega⟩ }

theorem withinBare {n fits} : 10 ∉ (within n fits).cwd.text := by simp [within,slash]

theorem withinLength {n fits} : (within n fits).cwd.text.length = n + 1 := by simp [within]

theorem lookupPwd : (commandsInit house).lookup
    ((commandName (ascii "PWD")).map toupper) = some .pwd := by
  rw [Table.lookup,commandsInitEntries]
  decide

theorem repliesCompleteShort :
    Tells ((Turn.line (ascii "PWD")).run house (within 1014 (by decide))) := by
  have bare : Bare house (within 1014 (by decide)) (some (ascii "PWD")) :=
    ⟨by decide,withinBare,List.not_mem_nil,fun arg same => Option.some.inj same ▸ by decide⟩
  refine (repliesComplete _ _ (.line (ascii "PWD")) bare).2.mpr ?_
  intro command found _
  cases Option.some.inj (lookupPwd.symm.trans found)
  exact Nat.le_of_eq withinLength

theorem pwdRuns {c} (logged : c.loggedIn = true) :
    ((Turn.line (ascii "PWD")).run house c).Runs
      [⟨.enter ((commandName (ascii "PWD")).map toupper) c,()⟩,⟨.send .command (replyText 257 (quoted c.cwd.text)),()⟩] c :=
  enteredRuns lookupPwd (.inl logged) (invokeRuns (.send .command _) () (.done c))

theorem pwdCutShort : ∃ trace c',
    ((Turn.line (ascii "PWD")).run house (within 1015 (by decide))).Runs trace c' ∧
      ∃ text, Replied trace text ∧ ¬ Complete text := by
  have long : ¬ Complete (replyText 257 (quoted (within 1015 (by decide)).cwd.text)) := by
    rw [quotedComplete withinBare,withinLength]
    decide
  exact ⟨_,_,pwdRuns rfl,_,⟨_,.tail _ (.head _),rfl⟩,long⟩

end OpenPs3Ftp.Replies
