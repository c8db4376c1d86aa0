import OpenPs3Ftp.Conversation
import OpenPs3Ftp.Digits

/-! Commands that create their target, and the check of its parent before they do. -/
namespace OpenPs3Ftp.Creation
open Lib Text Resolve Fs Session Commands Dispatch Events
open Program (runsDone runsBind playRuns runsAsk)

def creates : Exchange Answer → Option Bytes
  | ⟨.fs (.mkdir path _),_⟩ => some path
  | ⟨.fs (.rename _ path),_⟩ => some path
  | ⟨.dispatch job,true⟩ =>
    match job.op with
    | .stor | .appe => some job.path.text
    | .copy => some job.dst.text
    | _ => none
  | _ => none

/- The parent was found to be a directory; the empty parent is the root's. -/
def Found (trace : Trace) (target : Bytes) : Prop := ∃ parent, pathParent target maxPath = some parent ∧
  (parent = [] ∨ ∃ st, ⟨.fs (.stat parent),.ok st⟩ ∈ trace ∧ isDir st.mode = true)

/- STOU aims at the name it found to be free, the others at their argument. -/
def Aims (s : Server) (c : Client) (param : Option Bytes) (trace : Trace) (target : Bytes) : Command → Prop
  | .stou => ⟨.fs (.stat target),.error .enoent⟩ ∈ trace
  | _ => resolveArg s c param = some target

def Failed (trace : Trace) : Prop := ∃ code msg, 400 ≤ code ∧ Replied trace (replyText code msg)

structure Checked (s : Server) (c : Client) (command : Command) (param : Option Bytes) (trace : Trace) : Prop where
  guarded : ∀ before e rest target, trace = before ++ e :: rest → creates e = some target →
    Aims s c param trace target command ∧ Found before target
  otherwise : (∀ target, Aims s c param trace target command → ¬ Found trace target) →
    Failed trace ∧ ∀ e ∈ trace, creates e = none

def creating : List Command := [.mkd,.rnto,.cpto,.stor,.appe,.stou]

section Runs
variable {s : Server} {c c' : Client} {param : Option Bytes} {trace : Trace} {target : Bytes}

theorem Found.mono {more} (found : Found trace target) (sub : trace ⊆ more) : Found more target := by
  obtain ⟨parent,is,rest⟩ := found
  exact ⟨parent,is,rest.imp_right fun ⟨st,member,dir⟩ => ⟨st,sub member,dir⟩⟩

theorem answeringFails {code msg} (error : 400 ≤ code) (run : (answering code msg c).Runs trace c') :
    Failed trace ∧ ∀ e ∈ trace, creates e = none := by
  obtain ⟨rfl,-⟩ := runsAnswering run
  exact ⟨⟨code,msg,error,_,.head _,rfl⟩,by simp [creates]⟩

theorem failingFails {failure} (run : (failing failure c).Runs trace c') :
    Failed trace ∧ ∀ e ∈ trace, creates e = none := by
  cases failure with
  | known e => exact answeringFails (by decide) (run : (answering 550 (fsErrorText e) c).Runs trace c')
  | stale =>
    obtain ⟨e,rest,rfl,told⟩ := runsAsk.mp run
    obtain ⟨⟨code,msg,error,x,member,same⟩,none_⟩ := answeringFails (by decide) (told : (answering 550 (fsErrorText e) c).Runs rest c')
    exact ⟨⟨code,msg,error,x,.tail _ member,same⟩,List.forall_mem_cons.mpr ⟨rfl,none_⟩⟩

theorem parentRuns {result} (run : (parentIsDir target).Runs trace result) :
    (result = none → Found trace target) ∧ ∀ e ∈ trace, creates e = none := by
  unfold parentIsDir at run
  split at run
  · obtain ⟨rfl,rfl⟩ := runsDone.mp run
    exact ⟨nofun,List.forall_mem_nil _⟩
  · obtain ⟨rfl,rfl⟩ := runsDone.mp run
    exact ⟨fun _ => ⟨[],‹_›,.inl rfl⟩,List.forall_mem_nil _⟩
  rename_i parent _ is
  obtain ⟨answer,rest,rfl,ended⟩ := runsInvoke run
  cases answer with
  | error e =>
    obtain ⟨rfl,rfl⟩ := runsDone.mp ended
    exact ⟨nofun,by simp [creates]⟩
  | ok st =>
    obtain ⟨rfl,same⟩ := runsDone.mp ended
    refine ⟨fun none_ => ⟨parent,is,.inr ⟨st,.head _,?_⟩⟩,by simp [creates]⟩
    by_contra other
    simp [none_,other] at same

theorem creationLater {first rest before later e} (none_ : ∀ e ∈ first, creates e = none)
    (split : first ++ rest = before ++ e :: later) (creation : creates e = some target) :
    ∃ more, before = first ++ more ∧ rest = more ++ e :: later := by
  rcases List.append_eq_append_iff.mp split with ⟨more,rfl,same⟩ | ⟨more,rfl,same⟩
  · exact ⟨more,rfl,same⟩
  cases more with
  | nil => exact ⟨[],by simp,same.symm⟩
  | cons x more =>
    obtain ⟨rfl,-⟩ := List.cons.inj same
    rw [none_ e (by simp)] at creation
    cases creation

theorem checkedAfter {command first rest} (aims : Aims s c param (first ++ rest) target command)
    (found : Found first target) (none_ : ∀ e ∈ first, creates e = none)
    (only : ∀ e ∈ rest, ∀ made, creates e = some made → made = target) :
    Checked s c command param (first ++ rest) := by
  refine ⟨fun before e later made split creation => ?_,fun missing => absurd (found.mono (List.subset_append_left _ _)) (missing target aims)⟩
  obtain ⟨more,rfl,rfl⟩ := creationLater none_ split creation
  obtain rfl := only e (by simp) made creation
  exact ⟨aims,found.mono (List.subset_append_left _ _)⟩

theorem aimsAt {command} (other : command ≠ .stou) (resolved : resolveArg s c param = some target) :
    Aims s c param trace target command := by
  cases command <;> first | exact resolved | exact absurd rfl other

theorem checkedFailed {command} (failed : Failed trace ∧ ∀ e ∈ trace, creates e = none) :
    Checked s c command param trace := by
  refine ⟨fun before e later made split creation => ?_,fun _ => failed⟩
  rw [failed.2 e (by simp [split])] at creation
  cases creation

def Mild (target : Bytes) (e : Exchange Answer) : Prop :=
  (∀ made, creates e = some made → made = target) ∧ ∀ path, e.1 ≠ .fs (.stat path)

theorem Failed.mono {more} (failed : Failed trace) (sub : trace ⊆ more) : Failed more := by
  obtain ⟨code,msg,error,e,member,same⟩ := failed
  exact ⟨code,msg,error,e,sub member,same⟩

theorem answeringMild {code msg} (run : (answering code msg c).Runs trace c') : ∀ e ∈ trace, Mild target e := by
  obtain ⟨rfl,-⟩ := runsAnswering run
  exact List.forall_mem_singleton.mpr ⟨nofun,nofun⟩

theorem freeMild {job x} (run : (jobFree job).Runs trace x) : ∀ e ∈ trace, Mild target e := by
  obtain ⟨first,⟨⟩,rest,rfl,closed,freed⟩ := runsBind.mp run
  obtain ⟨⟨⟩,rest,rfl,ended⟩ := runsAsk.mp freed
  obtain ⟨rfl,-⟩ := runsDone.mp ended
  rw [closeSomeRuns closed]
  refine List.forall_mem_append.mpr ⟨fun e member => ?_,List.forall_mem_singleton.mpr ⟨nofun,nofun⟩⟩
  obtain ⟨fd,-,rfl⟩ := List.mem_map.mp member
  exact ⟨nofun,nofun⟩

theorem transferRuns {op nlst mlsd reply150} (store : op = .stor ∨ op = .appe) (short : target.length < 1024)
    (run : (startTransfer s c op target nlst mlsd reply150).Runs trace c') :
    (∀ e ∈ trace, Mild target e) ∧ ((∃ e ∈ trace, creates e ≠ none) ∨ Failed trace) := by
  unfold startTransfer at run
  split at run
  · exact ⟨answeringMild run,.inr (answeringFails (by decide) run).1⟩
  split at run
  · exact ⟨answeringMild run,.inr (answeringFails (by decide) run).1⟩
  split at run
  · exact ⟨answeringMild run,.inr (answeringFails (by decide) run).1⟩
  obtain ⟨id,rest,rfl,later⟩ := runsInvoke run
  rw [List.forall_mem_cons]
  cases id with
  | none => exact ⟨⟨⟨nofun,nofun⟩,answeringMild later⟩,.inr ((answeringFails (by decide) later).1.mono (List.subset_cons_self _ _))⟩
  | some id =>
    obtain ⟨taken,rest,rfl,last⟩ := runsInvoke later
    rw [List.forall_mem_cons]
    cases taken with
    | true =>
      have made : creates ⟨.dispatch (transferJob c op target nlst mlsd id),true⟩ = some target := by
        rcases store with rfl | rfl <;> exact congrArg some (Buffer.printShort (by omega))
      obtain ⟨⟨⟩,rest,rfl,ended⟩ := runsInvoke last
      obtain ⟨rfl,-⟩ := runsDone.mp ended
      refine ⟨⟨⟨nofun,nofun⟩,⟨fun other same => ?_,nofun⟩,List.forall_mem_singleton.mpr ⟨nofun,nofun⟩⟩,
        .inl ⟨_,.tail _ (.head _),by rw [made]; nofun⟩⟩
      rw [made] at same; exact (Option.some.inj same).symm
    | false =>
      obtain ⟨first,⟨⟩,rest,rfl,freed,told⟩ := runsBind.mp last
      refine ⟨⟨⟨nofun,nofun⟩,⟨nofun,nofun⟩,List.forall_mem_append.mpr ⟨freeMild freed,answeringMild told⟩⟩,.inr ?_⟩
      exact (answeringFails (by decide) told).1.mono fun e member => .tail _ (.tail _ (List.mem_append_right _ member))

theorem targetRuns {result} (run : (resolveTarget s c param).Runs trace result) :
    (∀ path, result = .ok path → resolveArg s c param = some path ∧ Found trace path) ∧ ∀ e ∈ trace, creates e = none := by
  unfold resolveTarget at run
  split at run
  · obtain ⟨rfl,rfl⟩ := runsDone.mp run
    refine ⟨?_,List.forall_mem_nil _⟩
    rintro _ ⟨⟩
  rename_i path resolved
  obtain ⟨first,answer,rest,rfl,looked,ended⟩ := runsBind.mp run
  obtain ⟨found,none_⟩ := parentRuns looked
  cases answer <;> obtain ⟨rfl,rfl⟩ := runsDone.mp ended <;> rw [List.append_nil]
  · exact ⟨by rintro _ ⟨⟩; exact ⟨resolved,found rfl⟩,none_⟩
  · exact ⟨by rintro _ ⟨⟩,none_⟩

theorem failedAfter {first rest} (none_ : ∀ e ∈ first, creates e = none)
    (failed : Failed rest ∧ ∀ e ∈ rest, creates e = none) :
    Failed (first ++ rest) ∧ ∀ e ∈ first ++ rest, creates e = none :=
  ⟨failed.1.mono (List.subset_append_right _ _),List.forall_mem_append.mpr ⟨none_,failed.2⟩⟩

def Only (target : Bytes) (trace : Trace) : Prop := ∀ e ∈ trace, ∀ made, creates e = some made → made = target

theorem onlyNone (none_ : ∀ e ∈ trace, creates e = none) : Only target trace := fun e member made creation => by
  rw [none_ e member] at creation; cases creation

theorem targetChecked {command k} (other : command ≠ .stou) (run : (resolveTarget s c param >>= k).Runs trace c')
    (refuses : ∀ failure, ∃ d, k (.error failure) = failing failure d)
    (only : ∀ path rest, path.length < 1024 → (k (.ok path)).Runs rest c' → Only path rest) :
    Checked s c command param trace := by
  obtain ⟨first,answer,rest,rfl,looked,later⟩ := runsBind.mp run
  obtain ⟨good,none_⟩ := targetRuns looked
  cases answer with
  | error failure =>
    obtain ⟨d,same⟩ := refuses failure
    rw [same] at later
    exact checkedFailed (failedAfter none_ (failingFails later))
  | ok path =>
    obtain ⟨resolved,found⟩ := good path rfl
    exact checkedAfter (aimsAt other resolved) found none_ (only path rest (resolveArgShort resolved) later)

theorem requestOnly {call k} (mine : ∀ answer made, creates ⟨.fs call,answer⟩ = some made → made = target)
    (ends : ∀ answer, (∃ failure d, k answer = failing failure d) ∨ ∃ code msg d, k answer = answering code msg d)
    (run : (invoke (.fs call) >>= k).Runs trace c') : Only target trace := by
  obtain ⟨answer,rest,rfl,ended⟩ := runsInvoke run
  refine List.forall_mem_cons.mpr ⟨mine answer,onlyNone ?_⟩
  rcases ends answer with ⟨failure,d,same⟩ | ⟨code,msg,d,same⟩ <;> rw [same] at ended
  · exact (failingFails ended).2
  · obtain ⟨rfl,-⟩ := runsAnswering ended; simp [creates]

theorem mkdChecked (run : (cmdMkd s c param).Runs trace c') : Checked s c .mkd param trace := by
  unfold cmdMkd at run
  split at run
  · exact checkedFailed (answeringFails (by decide) run)
  refine targetChecked nofun run (fun failure => ⟨c,rfl⟩) fun path rest _ later => requestOnly (by rintro _ _ ⟨⟩; rfl) ?_ later
  rintro (e | ⟨⟩)
  exacts [.inl ⟨_,_,rfl⟩,.inr ⟨_,_,_,rfl⟩]

theorem rntoChecked (run : (cmdRnto s c param).Runs trace c') : Checked s c .rnto param trace := by
  unfold cmdRnto at run
  split at run
  · exact checkedFailed (answeringFails (by decide) run)
  refine targetChecked nofun run (fun failure => ⟨_,rfl⟩) fun path rest _ later => requestOnly (by rintro _ _ ⟨⟩; rfl) ?_ later
  rintro (e | ⟨⟩)
  exacts [.inl ⟨_,_,rfl⟩,.inr ⟨_,_,_,rfl⟩]

theorem cptoChecked (run : (cmdCpto s c param).Runs trace c') : Checked s c .cpto param trace := by
  unfold cmdCpto at run
  split at run
  · exact checkedFailed (answeringFails (by decide) run)
  split at run
  · exact checkedFailed (answeringFails (by decide) run)
  refine targetChecked nofun run (fun failure => ⟨_,rfl⟩) fun path rest short later => ?_
  dsimp only at later
  split at later
  · exact onlyNone (answeringFails (by decide) later).2
  split at later
  · exact onlyNone (answeringFails (by decide) later).2
  obtain ⟨id,rest,rfl,had⟩ := runsInvoke later
  refine List.forall_mem_cons.mpr ⟨nofun,?_⟩
  cases id with
  | none => exact onlyNone (answeringFails (by decide) had).2
  | some id =>
    obtain ⟨taken,rest,rfl,ended⟩ := runsInvoke had
    refine List.forall_mem_cons.mpr ⟨?_,?_⟩ <;> cases taken
    · exact nofun
    · rintro _ ⟨⟩; exact Buffer.printShort (by omega)
    · obtain ⟨first,⟨⟩,rest,rfl,freed,told⟩ := runsBind.mp ended
      exact List.forall_mem_append.mpr ⟨fun e member => (freeMild freed e member).1,onlyNone (answeringFails (by decide) told).2⟩
    · obtain ⟨rfl,-⟩ := runsDone.mp ended
      exact List.forall_mem_nil _

theorem storingChecked {op command} (store : op = .stor ∨ op = .appe) (other : command ≠ .stou)
    (run : (storing op s c param).Runs trace c') : Checked s c command param trace := by
  unfold storing at run
  split at run
  · exact checkedFailed (answeringFails (by decide) run)
  rename_i path resolved
  obtain ⟨first,answer,rest,rfl,looked,later⟩ := runsBind.mp run
  obtain ⟨good,none_⟩ := parentRuns looked
  cases answer with
  | some failure => exact checkedFailed (failedAfter none_ (failingFails later))
  | none =>
    exact checkedAfter (aimsAt other resolved) (good rfl) none_ fun e member =>
      ((transferRuns store (resolveArgShort resolved) later).1 e member).1

def folder (s : Server) (c : Client) : Bytes :=
  chop (top s.root.text) ++ separated slash (baseStack s.root.text c.cwd.text)

theorem separatedSize {words} (valid : ∀ word ∈ words, Component word) :
    2 * words.length ≤ (separated slash words).length := by
  induction words with
  | nil => rfl
  | cons word words ih =>
    have size := List.length_pos_iff.mpr (valid word (by simp)).1
    have rest := ih fun w member => valid w (by simp [member])
    simp only [separatedCons,List.length_cons,List.length_append]
    omega

theorem nameIn {name} (clean : Clean name) (small : name.length < 1023)
    (resolved : resolveArg s c (some name) = some target) : target = folder s c ++ slash :: name := by
  have relative : name.head? ≠ some slash := fun starts => clean.1.2 (List.mem_of_mem_head? starts)
  have text : argText c (some name) = name := by simp [argText,givenSome,clean.1.1]
  have moves : argMoves name = [.into name] := by
    rw [argMoves,splitAll (by unfold maxPath; omega),fieldsWord clean.1,List.map_singleton,moveClean clean]
  have stack : resolvedStack s.root.text c.cwd.text name = if (baseStack s.root.text c.cwd.text).length < stackCap then
      baseStack s.root.text c.cwd.text ++ [name] else baseStack s.root.text c.cwd.text := by
    rw [resolvedStack,baseText,if_neg relative,moves]; rfl
  rw [resolveArgEq,text,stack] at resolved
  have valid : ∀ word ∈ baseStack s.root.text c.cwd.text, Component word := fun word member => splitValid (baseStackSub member)
  have text : ∀ {comps}, comps ≠ [] → rooted s.root.text comps = chop (top s.root.text) ++ separated slash comps :=
    fun some_ => if_neg some_
  by_cases room : (baseStack s.root.text c.cwd.text).length < stackCap
  · rw [if_pos room,text (by simp),separatedAppend,← List.append_assoc] at resolved
    split at resolved
    · cases Option.some.inj resolved; simp [folder]
    · cases resolved
  -- a full stack alone is longer than a path can be
  have size := separatedSize valid
  unfold stackCap at room
  rw [stackCap,if_neg room,text (by rintro empty; simp [empty] at room),if_neg] at resolved
  · cases resolved
  · rw [List.length_append,maxPath]; omega

theorem parentShort {front name parent} (valid : Component name)
    (is : pathParent (front ++ slash :: name) maxPath = some parent) :
    parent ≠ [] ∧ parent.length ≤ front.length + 1 := by
  have size := List.length_pos_iff.mpr valid.1
  have whole : (front ++ slash :: name).rdropWhile (· = slash) = front ++ slash :: name := by
    rw [List.rdropWhile_eq_self_iff]
    intro nonempty ends
    rw [List.getLast_append_of_ne_nil _ (List.cons_ne_nil _ _),List.getLast_cons valid.1] at ends
    exact valid.2 (of_decide_eq_true ends ▸ List.getLast_mem valid.1)
  have lead : (trimSlashes (front ++ slash :: name)).rdropWhile (· ≠ slash) = front ++ [slash] := by
    rw [trimSlashes,whole,if_neg (by simp),Containment.leadAppend front valid.2]
  unfold pathParent at is
  rw [lead,if_neg (by simp; omega)] at is
  simp only [List.append_eq_nil_iff,List.cons_ne_self,and_false,if_false,List.length_append,List.length_singleton,
    Nat.add_sub_cancel] at is
  generalize upTo : (if front.length = 0 then 1 else front.length) = plen at is
  have bounds : 1 ≤ plen ∧ plen ≤ front.length + 1 := by split at upTo <;> omega
  split at is
  · cases is
  · cases Option.some.inj is
    refine ⟨List.ne_nil_of_length_pos ?_,?_⟩ <;> rw [List.length_take,List.length_append,List.length_cons] <;> omega

def stouName (seq : UInt32) : Bytes := snprintf 32 (ascii "ftp" ++ padLeft 6 48 (decimal seq.toNat))

theorem stouClean (seq) : Clean (stouName seq) ∧ (stouName seq).length < 32 ∧ 3 ≤ (stouName seq).length := by
  have shape : stouName seq = 102 :: 116 :: 112 :: (padLeft 6 48 (decimal seq.toNat)).take 28 := rfl
  have short := snprintfLength 32 (ascii "ftp" ++ padLeft 6 48 (decimal seq.toNat))
  have free : slash ∉ (padLeft 6 48 (decimal seq.toNat)).take 28 := fun member => by
    rcases List.mem_append.mp (List.mem_of_mem_take member) with zeros | digits
    · exact absurd (List.eq_of_mem_replicate zeros) (by decide)
    · exact absurd ((decimalRead _).2.1 _ digits) (by decide)
  refine ⟨⟨⟨by simp [shape],?_⟩,?_,?_⟩,Nat.lt_succ_of_le short,by simp [shape]⟩
  · rw [shape]; simpa [slash] using free
  · rw [shape]; nofun
  · rw [shape]; nofun

theorem uniqueRuns {tries result} (run : (uniqueName s c tries).Runs trace result) :
    (∀ e ∈ trace, creates e = none ∧ ∀ path, e.1 = .fs (.stat path) → (folder s c).length + 2 ≤ path.length) ∧
      ∀ name, result = some (some name) → name.length < 1024 ∧ ⟨.fs (.stat name),.error .enoent⟩ ∈ trace ∧
        ∃ seq, name = folder s c ++ slash :: stouName seq := by
  induction tries generalizing trace with
  | zero =>
    obtain ⟨rfl,rfl⟩ := runsDone.mp run
    exact ⟨List.forall_mem_nil _,by rintro _ ⟨⟩⟩
  | succ tries ih =>
    obtain ⟨seq,rest,rfl,later⟩ := runsInvoke run
    obtain ⟨clean,small,large⟩ := stouClean seq
    have unasked : ∀ path, (⟨.stouSeq,seq⟩ : Exchange Answer).1 = .fs (.stat path) → (folder s c).length + 2 ≤ path.length := by
      rintro _ ⟨⟩
    rw [← stouName] at later
    cases resolved : resolveArg s c (some (stouName seq)) with
    | none =>
      rw [resolved] at later
      obtain ⟨rfl,rfl⟩ := runsDone.mp later
      exact ⟨List.forall_mem_singleton.mpr ⟨rfl,unasked⟩,by rintro _ ⟨⟩⟩
    | some name =>
      rw [resolved] at later
      have inside := nameIn clean (by omega) resolved
      obtain ⟨answer,rest,rfl,ended⟩ := runsInvoke later
      have here : creates ⟨.fs (.stat name),answer⟩ = none ∧
          ∀ path, Call.fs (.stat name) = .fs (.stat path) → (folder s c).length + 2 ≤ path.length := by
        refine ⟨rfl,?_⟩
        rintro _ ⟨⟩
        rw [inside,List.length_append,List.length_cons]; omega
      simp only [List.forall_mem_cons]
      split at ended
      · obtain ⟨rfl,rfl⟩ := runsDone.mp ended
        refine ⟨⟨⟨rfl,unasked⟩,here,List.forall_mem_nil _⟩,?_⟩
        rintro _ ⟨⟩
        exact ⟨resolveArgShort resolved,.tail _ (.head _),seq,inside⟩
      obtain ⟨all,found⟩ := ih ended
      refine ⟨⟨⟨rfl,unasked⟩,here,all⟩,fun other same => ?_⟩
      obtain ⟨short,member,is⟩ := found other same
      exact ⟨short,.tail _ (.tail _ member),is⟩

theorem stouRuns (run : (cmdStou s c).Runs trace c') :
    ((∀ e ∈ trace, creates e = none) → Failed trace) ∧
      ∀ before e rest target, trace = before ++ e :: rest → creates e = some target → ¬ Found before target := by
  obtain ⟨first,result,rest,rfl,searched,later⟩ := runsBind.mp run
  obtain ⟨all,found⟩ := uniqueRuns searched
  have refused : Failed rest ∧ (∀ e ∈ rest, creates e = none) →
      ((∀ e ∈ first ++ rest, creates e = none) → Failed (first ++ rest)) ∧
      ∀ before e later target, first ++ rest = before ++ e :: later → creates e = some target → ¬ Found before target := by
    intro failed
    have none_ := (failedAfter (fun e member => (all e member).1) failed)
    refine ⟨fun _ => none_.1,fun before e later target split creation => ?_⟩
    rw [none_.2 e (by simp [split])] at creation
    cases creation
  rcases result with _ | _ | name
  · exact refused (answeringFails (by decide) later)
  · exact refused (answeringFails (by decide) later)
  obtain ⟨short,member,seq,is⟩ := found name rfl
  obtain ⟨mild,ends⟩ := transferRuns (.inl rfl) short later
  refine ⟨fun none_ => ?_,fun before e tail target split creation => ?_⟩
  · rcases ends with ⟨e,member,made⟩ | failed
    · exact absurd (none_ e (List.mem_append_right _ member)) made
    · exact failed.mono (List.subset_append_right _ _)
  obtain ⟨more,rfl,rfl⟩ := creationLater (fun e member => (all e member).1) split creation
  obtain rfl := (mild e (by simp)).1 target creation
  rintro ⟨parent,parents,looked⟩
  obtain ⟨some_,small⟩ := parentShort (stouClean seq).1.1 (is ▸ parents)
  obtain ⟨st,looked,-⟩ := looked.resolve_left some_
  rcases List.mem_append.mp looked with early | late
  · have := (all _ early).2 parent rfl; omega
  · exact (mild _ (List.mem_append_left _ late)).2 parent rfl

/- Every creating command but STOU checks its parent; STOU does so only in that it creates nothing. -/
theorem creationChecked {command : Command} (creates_ : command ∈ creating) (run : (command.run s c param).Runs trace c') :
    Checked s c command param trace ↔ ¬ (command = .stou ∧ ∃ e ∈ trace, creates e ≠ none) := by
  by_cases stou : command = .stou
  · subst stou
    obtain ⟨failed,unseen⟩ := stouRuns run
    constructor
    · rintro ⟨guarded,-⟩ ⟨-,e,member,made⟩
      obtain ⟨before,rest,split⟩ := List.append_of_mem member
      obtain ⟨target,creation⟩ := Option.ne_none_iff_exists'.mp made
      exact unseen before e rest target split creation (guarded before e rest target split creation).2
    · intro idle
      have none_ : ∀ e ∈ trace, creates e = none := fun e member => by_contra fun made => idle ⟨rfl,e,member,made⟩
      exact checkedFailed ⟨failed none_,none_⟩
  refine iff_of_true ?_ fun both => stou both.1
  simp only [creating,List.mem_cons,List.not_mem_nil,or_false] at creates_
  rcases creates_ with rfl | rfl | rfl | rfl | rfl | rfl
  exacts [mkdChecked run,rntoChecked run,cptoChecked run,storingChecked (.inl rfl) nofun run,
    storingChecked (.inr rfl) nofun run,absurd rfl stou]

end Runs

def passiveClient : Client := { visitor with pasvFd := some 3 }

theorem storChecked : ∃ trace c', (Command.stor.run house passiveClient (some (ascii "a/b"))).Runs trace c' ∧
    (∃ e ∈ trace, creates e ≠ none) ∧ Checked house passiveClient .stor (some (ascii "a/b")) trace :=
  ⟨_,_,playRuns (obliging (.ok ⟨0o40755,0,0,0,0⟩)) _,by decide +kernel,
    (creationChecked (by decide) (playRuns _ _)).mpr fun both => by cases both.1⟩

theorem stouUnchecked : ∃ trace c', (Command.stou.run house passiveClient none).Runs trace c' ∧
    ¬ Checked house passiveClient .stou none trace := by
  refine ⟨_,_,playRuns (obliging (.error .enoent)) _,fun checked => ?_⟩
  have made : ∃ e ∈ ((Command.stou.run house passiveClient none).play (obliging (.error .enoent))).1, creates e ≠ none := by
    decide +kernel
  obtain ⟨e,member,made⟩ := made
  obtain ⟨before,rest,split⟩ := List.append_of_mem member
  obtain ⟨target,creation⟩ := Option.ne_none_iff_exists'.mp made
  exact (stouRuns (playRuns _ _)).2 before e rest target split creation (checked.guarded before e rest target split creation).2

end OpenPs3Ftp.Creation
