import OpenPs3Ftp.Legacy.Shim

/-! What the reactor's programs on a legacy server do to the outside: files, listeners
and connections only for a client they have seen logged in, a data executor only for one
whose data channel is clear, and no data of their own. -/
namespace OpenPs3Ftp.Legacy
open Lib Text Fs Session Commands Dispatch Events Worker
open Bounded (Uses Keeps usesPure usesAsk usesOne usesBind usesLoop usesKeeps keepsPure keepsAsk keepsBind keepsMono keepsThen)
open Program (meetsIte meetsWeaken meetsBind)

def Touches : Call → Prop
  | .fs _ | .entries _ | .socket _ | .bind .. | .listen _ | .dispatch _ => True
  | _ => False

def Enters : Call → Prop
  | .enter .. => True
  | _ => False

def Hands (c : Client) : Call → Prop
  | .dispatch job => job.op = .copy ∨ job.needTls = c.tlsProt
  | _ => True

def Opens : Ask → Prop
  | .core call => Touches call
  | .connect .. | .accept _ | .dispatch _ => True
  | _ => False

structure Record where
  known : Bool
  entered : Bool

def remember (r : Record) : (call : Ask) → call.Answer → Record
  | .load,f => { r with known := r.known || f.auth }
  | .core (.enter ..),_ => { r with entered := true }
  | _,_ => r

def Conduct (c : Client) (r : Record) : Ask → Prop
  | .core (.enter _ d) => d = c
  | .core call => (Touches call → r.known = true) ∧ Hands c call
  | .connect .. | .accept _ => r.known = true
  | .dispatch _ => r.known = true ∧ r.entered = true ∧ c.tlsProt = false
  | .store (.auth granted) => granted = true
  | .dataSend .. | .dataRecv .. => False
  | _ => True

def Quiet : Ask → Prop
  | .core call => ¬ Touches call ∧ ¬ Enters call
  | .store (.auth _) | .connect .. | .accept _ | .dispatch _ | .dataSend .. | .dataRecv .. => False
  | _ => True

def Busy : Ask → Prop
  | .core (.enter ..) | .core (.dispatch _) => False
  | .core _ => True
  | .store (.auth _) | .dispatch _ | .dataSend .. | .dataRecv .. => False
  | _ => True

theorem quietBusy (call) (quiet : Quiet call) : Busy call := by
  cases call with
  | core call => cases call <;> first | exact trivial | exact absurd trivial quiet.1 | exact absurd trivial quiet.2
  | store field => cases field <;> exact quiet
  | connect | accept => exact quiet.elim
  | _ => exact quiet

variable {c : Client} {r : Record}

theorem quietConduct (call) (quiet : Quiet call) : Conduct c r call := by
  cases call with
  | core call =>
    cases call <;> first | exact ⟨fun touches => absurd touches quiet.1,trivial⟩ | exact absurd trivial quiet.1 |
      exact absurd trivial quiet.2
  | store field => cases field <;> first | exact trivial | exact quiet.elim
  | connect | accept | dispatch | dataSend | dataRecv => exact quiet.elim
  | _ => exact trivial

theorem busyConduct (seen : r.known = true) (call) (busy : Busy call) : Conduct c r call := by
  cases call with
  | core call => cases call <;> first | exact ⟨fun _ => seen,trivial⟩ | exact busy.elim
  | store field => cases field <;> first | exact trivial | exact busy.elim
  | connect | accept => exact seen
  | dispatch | dataSend | dataRecv => exact busy.elim
  | _ => exact trivial

section Quiet
variable {g : Ask → Prop} (quiet : ∀ call, Quiet call → g call)
include quiet

theorem usesLocked {α : Type} {body : Routine α} (inner : Uses g body) : Uses g (locked body) :=
  usesAsk (quiet .lock trivial) fun _ => usesBind inner fun _ => usesAsk (quiet .unlock trivial) fun _ => usesPure _

theorem usesReply (code msg) : Uses g (sendReply code msg) := usesOne (quiet _ ⟨id,id⟩)

theorem usesCode (code : Nat) (msg : Bytes) : Uses g (sendCode code msg) := by
  refine usesBind ?_ fun _ => usesReply quiet code msg
  split
  · exact usesLocked quiet (usesOne (quiet _ trivial))
  · exact usesPure _

theorem usesRawLine (text) : Uses g (sendRawLine text) := usesOne (quiet _ ⟨id,id⟩)

theorem usesClose (fd) : Uses g (closeFd fd) := usesOne (quiet _ ⟨id,id⟩)

theorem usesShut {α : Type} {fd field} {k : Routine α} (plain : Quiet (.store field)) (next : Uses g k) :
    Uses g (closeFd fd >>= fun _ => put field >>= fun _ => k) :=
  usesBind (usesClose quiet fd) fun _ => usesAsk (quiet _ plain) fun _ => next

theorem usesArgued {params body} (inner : Uses g body) : Uses g (argued params body) := by
  unfold argued
  split
  · exact usesCode quiet _ _
  · exact inner

theorem usesAnswered {α : Type} (result : Except Errno α) (code : Nat) (msg : Bytes) :
    Uses g (answered result code msg) := by
  unfold answered
  split <;> exact usesCode quiet _ _

theorem usesEnd : Uses g clientDataEnd := by
  refine usesLocked quiet (usesAsk (quiet .load trivial) fun f => ?_)
  split
  · refine usesAsk (quiet _ trivial) fun _ => ?_
    split
    · exact usesPure _
    · exact usesOne (quiet _ trivial)
  · split
    · exact usesPure _
    · exact usesBind (usesClose quiet _) fun _ => usesAsk (quiet _ trivial) fun _ => usesOne (quiet _ trivial)

end Quiet

theorem codeQuiet (code msg) : Uses Quiet (sendCode code msg) := usesCode (fun _ quiet => quiet) code msg

theorem replyQuiet (code msg) : Uses Quiet (sendReply code msg) := usesReply (fun _ quiet => quiet) code msg

theorem lineQuiet (text) : Uses Quiet (sendRawLine text) := usesRawLine (fun _ quiet => quiet) text

theorem copiedQuiet (size text) : Uses Quiet (copied size text) := by
  unfold copied
  split
  · exact usesPure _
  · exact usesOne trivial

variable {u : Setup}

section Busy
variable {g : Ask → Prop} (busy : ∀ call, Busy call → g call)
include busy

theorem quieter (call) (quiet : Quiet call) : g call := busy call (quietBusy call quiet)

theorem usesIo (call) : Uses g (io call) := usesOne (busy _ trivial)

theorem usesExists (path) : Uses g (fileExists path) := by
  refine usesBind (usesIo busy _) fun found => ?_
  split <;> exact usesPure _

theorem usesOpenData (f) : Uses g (openData f) := by
  have quiet := quieter busy
  unfold openData
  split
  · refine usesBind ?_ fun target => usesAsk (busy _ trivial) fun made => ?_
    · unfold activeAddr
      split
      · exact usesAsk (quiet _ trivial) fun _ => usesPure _
      · exact usesAsk (quiet .peerAddr trivial) fun _ => usesPure _
    split
    · exact usesPure _
    refine usesAsk (quiet _ trivial) fun _ => usesAsk (busy (.connect ..) trivial) fun up => ?_
    split
    · exact usesPure _
    · exact usesShut quiet trivial (usesPure _)
  refine usesAsk (quiet (.poll ..) trivial) fun polled => ?_
  split
  · exact usesShut quiet trivial (usesPure _)
  · exact usesShut quiet trivial (usesPure _)
  · exact usesAsk (busy (.accept _) trivial) fun _ => usesAsk (quiet _ trivial) fun _ =>
      usesShut quiet trivial (usesPure _)

theorem usesPasv : Uses g clientPasvEnter := by
  have quiet := quieter busy
  refine usesAsk (quiet .load trivial) fun f => usesBind ?_ fun _ => usesBind ?_ fun _ =>
    usesAsk (busy (.core (.socket _)) trivial) fun made => ?_
  · split
    · exact usesPure _
    · exact usesOne (quiet _ trivial)
  · unfold closeSocket
    split
    · exact usesPure _
    · exact usesClose quiet _
  split
  · exact usesAsk (quiet _ trivial) fun _ => usesPure _
  refine usesAsk (quiet _ trivial) fun _ => usesAsk (quiet (.core .localAddr) ⟨id,id⟩) fun host =>
    usesAsk (busy _ trivial) fun bound => ?_
  split
  · exact usesAsk (busy _ trivial) fun _ => usesAsk (quiet (.core (.boundPort _)) ⟨id,id⟩) fun _ => usesPure _
  · exact usesShut quiet trivial (usesPure _)

theorem usesStart (clear : c.tlsProt = false → ∀ event, g (.dispatch event))
    (callback : DataCallback) (event : PollEvent) : Uses g (clientDataStart u c callback event) := by
  have quiet := quieter busy
  unfold clientDataStart
  split
  · exact usesPure _
  split
  · exact usesPure _
  rename_i plain
  refine usesBind (usesLocked quiet (usesAsk (quiet .load trivial) fun f => ?_)) fun started => ?_
  · split
    · exact usesPure _
    refine usesBind ?_ fun up => ?_
    · split
      · exact usesOpenData busy f
      · exact usesPure _
    split
    · refine usesAsk (quiet _ trivial) fun _ => usesAsk (quiet _ trivial) fun _ =>
        usesAsk (quiet _ trivial) fun _ => usesAsk (quiet .malloc trivial) fun made => ?_
      split <;> exact usesAsk (quiet _ trivial) fun _ => usesPure _
    · exact usesPure _
  · split
    · exact usesAsk (clear (by simpa using plain) event) fun _ => usesPure _
    · exact usesPure _

theorem usesStartOr (clear : c.tlsProt = false → ∀ event, g (.dispatch event)) (callback event) {closing}
    (closes : Uses g closing) : Uses g (startOr u c callback event closing) := by
  have quiet := quieter busy
  refine usesBind (usesStart busy clear callback event) fun started => ?_
  split
  · exact usesCode quiet _ _
  · exact usesBind closes fun _ => usesAsk (quiet _ trivial) fun _ => usesCode quiet _ _

theorem usesSeekStart (clear : c.tlsProt = false → ∀ event, g (.dispatch event)) (f fd callback event) :
    Uses g (seekStart u c f fd callback event) :=
  usesBind (usesIo busy _) fun _ => usesAsk (busy _ trivial) fun _ =>
    usesStartOr busy clear callback event (usesBind (usesIo busy _) fun _ => usesPure _)

end Busy

section Handlers
variable {u : Setup} {c : Client} {known : Bool}

abbrev Conducts {α : Type} (c : Client) (r : Record) (p : Routine α) : Prop :=
  Keeps (fun _ _ => True) remember (Conduct c) (fun _ _ => True) r p

theorem recallKnown (seen : r.known = true ∧ r.entered = true) (call answer) :
    (remember r call answer).known = true ∧ (remember r call answer).entered = true := by
  cases call with
  | core call => cases call <;> exact ⟨seen.1,by first | exact seen.2 | rfl⟩
  | load => exact ⟨by simp [remember,seen.1],seen.2⟩
  | _ => exact seen

theorem quietConducts {α : Type} {p : Routine α} (uses : Uses Quiet p) : Conducts c r p :=
  @usesKeeps _ _ _ _ _ remember (Conduct c) (fun _ => True) _ _ uses
    (fun _ call _ quiet => ⟨quietConduct call quiet,fun _ => trivial⟩) trivial

theorem busyConducts {α : Type} {p : Routine α} (seen : r.known = true ∧ r.entered = true)
    (uses : Uses (Conduct c ⟨true,true⟩) p) : Conducts c r p := by
  refine keepsMono (fun _ _ _ => trivial) (@usesKeeps _ _ _ _ _ remember (Conduct c)
    (fun r => r.known = true ∧ r.entered = true) _ _ uses (fun r call seen owed => ⟨?_,recallKnown seen call⟩) seen)
  obtain ⟨_,_⟩ := r
  obtain ⟨rfl,rfl⟩ := seen
  exact owed

theorem codeConducts (code msg) : Conducts c r (sendCode code msg) := quietConducts (codeQuiet code msg)

theorem authedConducts {body : Facade → Routine Unit}
    (inner : ∀ f, Uses (Conduct c ⟨true,true⟩) (body f)) : Conducts c ⟨known,true⟩ (authed body) := by
  refine keepsAsk trivial fun f _ => ?_
  split
  · rename_i granted
    exact busyConducts ⟨by simp [remember,granted],rfl⟩ (inner f)
  · exact codeConducts _ _

theorem loggedQuiet (call) (quiet : Quiet call) : Conduct c ⟨true,true⟩ call := quietConduct call quiet

theorem codeLogged (code msg) : Uses (Conduct c ⟨true,true⟩) (sendCode code msg) := usesCode loggedQuiet code msg

theorem loggedBusy (call) (busy : Busy call) : Conduct c ⟨true,true⟩ call := busyConduct rfl call busy

theorem pathConducts {params body} (inner : ∀ f path, Uses (Conduct c ⟨true,true⟩) (body f path)) :
    Conducts c ⟨known,true⟩ (onPath u params body) :=
  authedConducts fun f => usesArgued loggedQuiet (inner f _)

theorem idleConducts {body} (inner : ∀ f, Uses (Conduct c ⟨true,true⟩) (body f)) :
    Conducts c ⟨known,true⟩ (idle body) := by
  refine authedConducts fun f => ?_
  split
  · exact codeLogged _ _
  · exact inner f

theorem listingConducts (callback) : Conducts c ⟨known,true⟩ (cmdListing u c callback) := by
  refine idleConducts fun f => usesBind (usesIo loggedBusy _) fun opened => ?_
  split
  · exact codeLogged _ _
  · exact usesAsk trivial fun _ => usesStartOr loggedBusy (fun clear _ => ⟨rfl,rfl,clear⟩) callback _ (usesIo loggedBusy _)

theorem retrConducts (params) : Conducts c ⟨known,true⟩ (cmdRetr u c params) := by
  refine idleConducts fun f => usesArgued loggedQuiet (usesBind (usesExists loggedBusy _) fun found => ?_)
  split
  · refine usesBind (usesIo loggedBusy _) fun opened => ?_
    split
    · exact codeLogged _ _
    · exact usesAsk trivial fun _ => usesSeekStart loggedBusy (fun clear _ => ⟨rfl,rfl,clear⟩) f _ _ _
  · exact codeLogged _ _

theorem storConducts (name params) : Conducts c ⟨known,true⟩ (cmdStor u c name params) := by
  refine idleConducts fun f => usesArgued loggedQuiet (usesBind (usesExists loggedBusy _) fun found =>
    usesBind (usesIo loggedBusy _) fun opened => ?_)
  split
  · exact codeLogged _ _
  refine usesAsk trivial fun _ => usesBind ?_ fun _ =>
    usesSeekStart loggedBusy (fun clear _ => ⟨rfl,rfl,clear⟩) f _ _ _
  split
  · exact usesBind (usesIo loggedBusy _) fun _ => usesPure _
  · exact usesPure _

theorem chmodConducts (params : Bytes) : Conducts c ⟨known,true⟩ (cmdChmod u params) := by
  refine authedConducts fun f => usesArgued loggedQuiet ?_
  split
  · exact usesBind (usesIo loggedBusy _) fun _ => usesAnswered loggedQuiet _ _ _
  · exact codeLogged _ _

theorem siteConducts (params : Bytes) : Conducts c ⟨known,true⟩ (cmdSite u params) := by
  unfold cmdSite argued
  split
  · exact codeConducts _ _
  simp only
  split
  · exact chmodConducts _
  · split
    · exact authedConducts fun _ => usesAsk (loggedQuiet (.core .stop) ⟨id,id⟩) fun _ => codeLogged _ _
    · exact codeConducts _ _

theorem pasvConducts : Conducts c ⟨known,true⟩ cmdPasv := by
  refine authedConducts fun _ => usesBind (usesPasv loggedBusy) fun entered => ?_
  split <;> exact codeLogged _ _

theorem portConducts (params) : Conducts c ⟨known,true⟩ (cmdPort params) := by
  refine authedConducts fun _ => ?_
  split
  · exact codeLogged _ _
  · split
    · exact codeLogged _ _
    · exact usesAsk trivial fun _ => codeLogged _ _

theorem cwdConducts (params) : Conducts c ⟨known,true⟩ (cmdCwd u params) := by
  refine pathConducts fun _ path => usesBind (usesIo loggedBusy _) fun found => ?_
  split
  · exact codeLogged _ _
  · split
    · split
      · exact usesAsk trivial fun _ => codeLogged _ _
      · exact usesAsk trivial fun _ => usesAsk trivial fun _ => codeLogged _ _
    · exact codeLogged _ _

theorem rnfrConducts (params) : Conducts c ⟨known,true⟩ (cmdRnfr u params) := by
  refine pathConducts fun _ path => usesBind (usesExists loggedBusy _) fun found => ?_
  split
  · exact usesAsk trivial fun _ => codeLogged _ _
  · exact codeLogged _ _

theorem rntoConducts (params : Bytes) : Conducts c ⟨known,true⟩ (cmdRnto u params) := by
  refine pathConducts fun f path => ?_
  split
  · exact codeLogged _ _
  · exact usesBind (usesIo loggedBusy _) fun _ => usesAnswered loggedQuiet _ _ _

theorem restConducts (params) : Conducts c ⟨known,true⟩ (cmdRest params) := by
  refine authedConducts fun _ => ?_
  simp only
  split
  · exact usesAsk trivial fun _ => codeLogged _ _
  · exact codeLogged _ _

theorem letterConducts (lower upper params) : Conducts c ⟨known,true⟩ (cmdLetter lower upper params) := by
  refine authedConducts fun _ => ?_
  split <;> exact codeLogged _ _

theorem passConducts : Conducts c ⟨known,true⟩ cmdPass := by
  refine keepsAsk trivial fun f _ => ?_
  split
  · exact codeConducts _ _
  · split
    · exact codeConducts _ _
    · exact keepsAsk rfl fun _ _ => quietConducts (usesBind (copiedQuiet _ _) fun _ => codeQuiet _ _)

theorem acctConducts : Conducts c ⟨known,true⟩ cmdAcct := by
  refine keepsAsk trivial fun f _ => ?_
  split
  · exact codeConducts _ _
  · exact keepsAsk rfl fun _ _ => codeConducts _ _

theorem userQuiet (params) : Uses Quiet (cmdUser params) := by
  refine usesAsk (g := Quiet) trivial fun f => ?_
  split
  · exact codeQuiet _ _
  · exact usesArgued (fun _ quiet => quiet) (usesBind (copiedQuiet _ _) fun _ => usesAsk trivial fun _ =>
      usesBind (copiedQuiet _ _) fun _ => codeQuiet _ _)

theorem statQuiet : Uses Quiet cmdStat :=
  usesAsk trivial fun _ => usesBind (lineQuiet _) fun _ =>
    usesBind (lineQuiet _) fun _ => usesBind (lineQuiet _) fun _ =>
      usesAsk trivial fun _ => usesBind (lineQuiet _) fun _ =>
        codeQuiet _ _

theorem featQuiet : Uses Quiet cmdFeat :=
  usesBind (lineQuiet _) fun _ => usesBind (lineQuiet _) fun _ =>
    usesBind (lineQuiet _) fun _ => usesBind (lineQuiet _) fun _ =>
      usesBind (lineQuiet _) fun _ => codeQuiet _ _

theorem baseConducts (name params : Bytes) (base : Base) : Conducts c ⟨known,true⟩ (base.run u c name params) := by
  cases base with
  | abor => exact authedConducts fun _ => usesBind (usesEnd loggedQuiet) fun _ => codeLogged _ _
  | acct => exact acctConducts
  | allo | type | pwd => exact authedConducts fun _ => codeLogged _ _
  | cdup => exact authedConducts fun _ => usesAsk trivial fun _ => codeLogged _ _
  | cwd => exact cwdConducts params
  | dele | rmd | mkd =>
    refine @pathConducts u c known params _ fun _ _ => usesBind (usesIo loggedBusy _) fun result => ?_
    exact usesAnswered loggedQuiet result _ _
  | help | noop | syst => exact codeConducts _ _
  | list | nlst => exact listingConducts _
  | mode | stru => exact letterConducts _ _ params
  | pass => exact passConducts
  | pasv => exact pasvConducts
  | port => exact portConducts params
  | rest => exact restConducts params
  | retr => exact retrConducts params
  | rnfr => exact rnfrConducts params
  | rnto => exact rntoConducts params
  | site => exact siteConducts params
  | stat => exact quietConducts statQuiet
  | stor => exact storConducts name params
  | user => exact quietConducts (userQuiet params)
  | feat => exact quietConducts featQuiet
  | size | mdtm =>
    refine pathConducts fun _ _ => usesBind (usesIo loggedBusy _) fun found => ?_
    split <;> exact codeLogged _ _

end Handlers

def harmless : Command → Bool
  | .quit | .opts | .eprt | .auth | .pbsz | .prot | .stop => true
  | _ => false

def exposed : List Bytes :=
  [ascii "EPSV",ascii "MLSD",ascii "MLST",ascii "MFMT",ascii "STOU",ascii "CPFR",ascii "CPTO"]

set_option maxRecDepth 4000 in
theorem overlayEntries (allowStop) : ∀ e ∈ (legacyCommandOverlay allowStop).entries, ∀ command,
    e.2 = .builtin command → (harmless command = true ∨ e.1 ∈ exposed) ∧ command ≠ .user ∧ command ≠ .pass := by
  have listed : (legacyCommandOverlay allowStop).entries.all (fun e => e.2.casesOn
      (fun command => (harmless command || decide (e.1 ∈ exposed)) && command != .user && command != .pass)
      (fun _ => true)) = true := by
    cases allowStop <;> decide +kernel
  intro e member command same
  have fine := List.all_eq_true.mp listed e member
  rw [same] at fine
  simpa [and_assoc] using fine

variable {command : Command}

theorem overlayBuiltin {allowStop name}
    (found : (legacyCommandOverlay allowStop).lookup name = some (.builtin command)) :
    (harmless command = true ∨ name ∈ exposed) ∧ command ≠ .user ∧ command ≠ .pass := by
  simp only [Table.lookup,Option.map_eq_some_iff] at found
  obtain ⟨e,found,same⟩ := found
  have named : e.1 = name := by simpa using List.find?_some found
  rw [← named]
  exact overlayEntries allowStop e (List.mem_of_find?_eq_some found) command same

theorem exposedLate {name} (listed : name ∈ exposed) : preloginCommand name = false := by
  have late : ∀ name ∈ exposed, preloginCommand name = false := by decide
  exact late name listed

theorem answeringHarmless (code msg c) :
    (answering code msg c).Obeys (fun _ _ => True) (fun call => ¬ Touches call) (fun _ => True) :=
  ⟨id,fun _ _ => trivial⟩

theorem harmlessObeys (quiet : harmless command = true) (s c param) :
    (command.run s c param).Obeys (fun _ _ => True) (fun call => ¬ Touches call) (fun _ => True) := by
  cases command
  case quit => exact ⟨id,fun _ _ => trivial⟩
  case stop => exact ⟨id,fun _ _ => ⟨id,fun _ _ => trivial⟩⟩
  case opts =>
    refine meetsIte.mpr ⟨fun _ => ?_,fun _ => ?_⟩
    · exact answeringHarmless _ _ _
    · exact answeringHarmless _ _ _
  case pbsz | prot =>
    simp [Command.run,cmdPbsz,cmdProt,meetsIte]
    simp [answeringHarmless]
  case auth =>
    simp [Command.run,cmdAuth,meetsIte,answeringHarmless]
    intro _ _ _
    refine meetsBind.mpr ?_
    refine meetsIte.mpr ⟨fun _ => ?_,fun _ => ⟨id,fun made _ => ?_⟩⟩
    · exact ⟨id,fun _ _ => trivial⟩
    · cases made
      · exact ⟨id,fun _ _ => trivial⟩
      · exact answeringHarmless _ _ _
  case eprt =>
    simp [Command.run,cmdEprt]
    split
    · exact answeringHarmless _ _ _
    refine meetsIte.mpr ⟨fun _ => answeringHarmless _ _ _,fun _ => ?_⟩
    split
    · exact answeringHarmless _ _ _
    refine meetsBind.mpr ?_
    unfold closeListener
    split
    · exact answeringHarmless _ _ _
    · exact ⟨id,fun _ _ => answeringHarmless _ _ _⟩
  all_goals cases quiet

def Minds (c : Client) (known : Bool) (call : Call) : Prop :=
  ¬ Enters call ∧ (Touches call → known = true) ∧ Hands c call

theorem builtinObeys {known} (notUser : command ≠ .user) (notPass : command ≠ .pass)
    (allowed : harmless command = true ∨ known = true) (s c param) :
    (command.run s c param).Obeys (fun _ _ => True) (Minds c known) (fun c' => c'.loggedIn = c.loggedIn) := by
  have entered : (command.run s c param).Obeys (fun _ _ => True) (fun call => ¬ Enters call ∧ Hands c call)
      (fun c' => c'.loggedIn = c.loggedIn) := by
    refine meetsWeaken (fun _ _ => True) trivial ?_ (fun _ _ _ _ _ _ => trivial) ?_
      (discipline command s c param)
    · intro p _ call _ permitted
      cases call with
      | enter => exact permitted.elim
      | dispatch job =>
        refine ⟨id,?_⟩
        have carried : Carried s c job := permitted.2.2.2.2.2.1
        unfold Carried at carried
        split at carried
        · exact .inl ‹_›
        · exact .inr carried.1
      | _ => exact ⟨id,trivial⟩
    intro p _ c' _ outcome
    rcases outcome.login with same | user | pass
    · exact same.2.2
    · exact absurd user notUser
    · exact absurd pass notPass
  rcases allowed with quiet | seen
  · refine meetsWeaken (fun _ _ => True) trivial ?_ (fun _ _ _ _ _ _ => trivial)
      (fun _ _ _ _ both => both.1) (Program.obeysAnd entered (harmlessObeys quiet s c param))
    exact fun _ _ call _ both => ⟨both.1.1,fun touches => absurd touches both.2,both.1.2⟩
  · refine meetsWeaken (fun _ _ => True) trivial ?_ (fun _ _ _ _ _ _ => trivial) (fun _ _ _ _ same => same)
      entered
    exact fun _ _ call _ apart => ⟨apart.1,fun _ => seen,apart.2⟩

theorem coreKeeps {α : Type} {c} {r : Record} {p : Handler α} {post}
    (obeys : p.Obeys (fun _ _ => True) (Minds c r.known) post) :
    Keeps (fun _ _ => True) remember (Conduct c) (fun _ => post) r (onCore p) := by
  induction p with
  | done value =>
    intro a same
    cases same
    exact obeys
  | ask call next ih =>
    refine ⟨?_,fun answer _ => ?_⟩
    · cases call <;> first | exact obeys.1.2 | exact absurd trivial obeys.1.1
    have same : remember r (.core call) answer = r := by
      cases call <;> first | rfl | exact absurd trivial obeys.1.1
    rw [same]
    exact ih answer (obeys.2 answer trivial)

def Cautious (known : Bool) (c : Client) (turn : Turn) : Prop :=
  known = true ∨ c.loggedIn = false ∨ ∀ name ∈ exposed, ¬ Names turn name

section Turns
variable {u : Setup} {c : Client} {known : Bool}

abbrev Turned (c : Client) (r : Record) (p : Routine Client) : Prop :=
  Keeps (fun _ _ => True) remember (Conduct c) (fun _ c' => c'.loggedIn = c.loggedIn) r p

theorem handleTurned {name : Bytes} {handle : Handle} {param : Option Bytes}
    (found : (legacyCommandOverlay u.server.allowStop).lookup name = some handle)
    (allowed : known = true ∨ name ∉ exposed) : Turned c ⟨known,true⟩ (handle.run u c param) := by
  cases handle with
  | builtin command =>
    obtain ⟨kind,notUser,notPass⟩ := overlayBuiltin found
    refine coreKeeps (builtinObeys notUser notPass ?_ u.server c param)
    rcases kind with quiet | listed
    · exact .inl quiet
    · exact .inr (allowed.resolve_right (fun apart => apart listed))
  | legacy name =>
    refine keepsThen (keepsAsk trivial fun present _ => ?_) fun _ _ => keepsPure.mpr rfl
    split
    · split
      · exact quietConducts (replyQuiet _ _)
      · exact keepsThen (baseConducts name _ _) fun _ _ => quietConducts (usesOne trivial)
    · exact keepsPure.mpr trivial

theorem dispatchTurned {name param} (allowed : known = true ∨ name ∉ exposed) :
    Keeps (fun _ _ => True) remember (Conduct c) (fun _ after => ∀ c', after = some c' → c'.loggedIn = c.loggedIn)
      ⟨known,false⟩ (dispatchCall u c name param) := by
  unfold dispatchCall
  split
  · refine keepsPure.mpr fun c' given => ?_
    cases given
  rename_i handle found
  refine keepsAsk rfl fun _ _ => keepsBind (keepsMono ?_ (@handleTurned u c known name handle param found allowed))
  intro r c' same
  refine keepsPure.mpr fun d given => ?_
  cases given
  exact same

theorem lineTurned {text : Bytes} (cautious : Cautious known c (.line text)) :
    Turned c ⟨known,false⟩ (processLine u c text) := by
  unfold processLine
  simp only
  split
  · exact keepsPure.mpr rfl
  split
  · exact keepsThen (quietConducts (replyQuiet _ _)) fun _ _ => keepsPure.mpr rfl
  rename_i opened
  have allowed : known = true ∨ (commandName text).map toupper ∉ exposed := by
    rcases cautious with seen | out | clean
    · exact .inl seen
    · refine .inr fun listed => opened ⟨by simp [out],?_⟩
      simp [exposedLate listed]
    · exact .inr fun listed => clean _ listed (Eq.refl ((commandName text).map toupper))
  have dispatched := @dispatchTurned u c known ((commandName text).map toupper) (some (lineParam text)) allowed
  refine keepsBind (keepsMono ?_ dispatched)
  intro r after same
  split
  · exact keepsPure.mpr (same _ rfl)
  · exact keepsThen (quietConducts (replyQuiet _ _)) fun _ _ => keepsPure.mpr rfl

theorem disconnectQuiet : Uses Quiet shimOnDisconnect := by
  have idle : ∀ left, Uses Quiet (awaitIdle left) := by
    intro left
    induction left with
    | zero => exact usesPure _
    | succ left ih =>
      refine usesAsk (g := Quiet) trivial fun f => ?_
      split
      · exact usesAsk (g := Quiet) trivial fun _ => ih
      · exact usesPure _
  refine usesAsk (g := Quiet) trivial fun present => ?_
  split
  · refine usesBind (usesLocked (fun _ quiet => quiet) (usesAsk (g := Quiet) trivial fun _ =>
      usesAsk (g := Quiet) trivial fun f => ?_)) fun _ => usesBind (idle 1000) fun _ =>
        usesAsk (g := Quiet) trivial fun f => ?_
    · split
      · exact usesPure _
      · exact usesOne trivial
    · split
      · exact usesPure _
      · exact usesBind (usesClose (fun _ quiet => quiet) _) fun _ => usesOne trivial
  · exact usesPure _

theorem completeObeys (posted c) :
    (datachanComplete posted c).Obeys (fun _ _ => True) (Minds c known) (fun c' => c'.loggedIn = c.loggedIn) := by
  have closes : ∀ (fd : Option Fd) (k : Unit → Handler Client),
      (k ()).Obeys (fun _ _ => True) (Minds c known) (fun c' => c'.loggedIn = c.loggedIn) →
      (closeSome fd >>= k).Obeys (fun _ _ => True) (Minds c known) (fun c' => c'.loggedIn = c.loggedIn) := by
    intro fd k next
    cases fd with
    | none => exact next
    | some fd => exact ⟨⟨id,False.elim,trivial⟩,fun _ _ => next⟩
  unfold datachanComplete closeJob
  rw [Program.bindAssoc]
  refine closes _ _ (closes _ _ (meetsIte.mpr ⟨fun _ => rfl,fun _ => ⟨⟨id,False.elim,trivial⟩,fun _ _ => ?_⟩⟩))
  refine meetsIte.mpr ⟨fun _ => ⟨⟨id,False.elim,trivial⟩,fun _ _ => rfl⟩,fun _ => rfl⟩

theorem dropTurned : Turned c ⟨known,false⟩ (turnRun u c .drop) := by
  have drops : (clientDisconnect c).Obeys (fun _ _ => True) (Minds c known) (fun c' => c'.loggedIn = c.loggedIn) := by
    unfold clientDisconnect
    cases c.job <;> cases c.pasvFd
    · exact rfl
    · exact ⟨⟨id,False.elim,trivial⟩,fun _ _ => rfl⟩
    · exact ⟨⟨id,False.elim,trivial⟩,fun _ _ => rfl⟩
    · exact ⟨⟨id,False.elim,trivial⟩,fun _ _ => ⟨⟨id,False.elim,trivial⟩,fun _ _ => rfl⟩⟩
  refine keepsBind (keepsMono ?_ (@coreKeeps _ c ⟨known,false⟩ _ _ drops))
  exact fun r c' same => keepsThen (quietConducts disconnectQuiet) fun _ _ => keepsPure.mpr same

theorem turnTurned {turn} (cautious : Cautious known c turn) : Turned c ⟨known,false⟩ (turnRun u c turn) := by
  cases turn with
  | line text => exact lineTurned cautious
  | urgent =>
    have dispatched := @dispatchTurned u c known (ascii "ABOR") none (.inr (by decide))
    refine keepsBind (keepsMono ?_ dispatched)
    intro r after same
    refine keepsPure.mpr ?_
    cases after with
    | none => rfl
    | some c' => exact same c' rfl
  | drop => exact dropTurned
  | buffer | leave => exact keepsPure.mpr rfl
  | shake => exact ⟨⟨False.elim,trivial⟩,fun result _ => keepsPure.mpr (by cases result <;> rfl)⟩
  | complete posted => exact coreKeeps (completeObeys posted c)

end Turns

/-! The executor never touches the login and starts nothing. -/
section Executor

def Steady : Ask → Prop
  | .store (.auth _) | .dispatch _ | .core (.dispatch _) => False
  | _ => True

variable {u : Setup}

theorem quietSteady (call) (quiet : Quiet call) : Steady call := by
  cases call with
  | store field => cases field <;> first | exact trivial | exact quiet.elim
  | core call => cases call <;> first | exact trivial | exact absurd trivial quiet.1
  | dispatch => exact quiet.elim
  | _ => exact trivial

theorem steadyEnd {closing} (closes : Uses Steady closing) (code msg) : Uses Steady (endData closing code msg) :=
  usesBind closes fun _ => usesAsk (g := Steady) trivial fun _ =>
    usesBind (usesCode quietSteady code msg) fun _ => usesPure _

theorem steadyIo (call) : Uses Steady (io call) := usesOne (g := Steady) trivial

theorem steadyClose (handle) : Uses Steady (closeOf handle) ∧ Uses Steady (closedirOf handle) := by
  cases handle with
  | none => exact ⟨usesPure _,usesPure _⟩
  | some fd => exact ⟨usesBind (steadyIo _) fun _ => usesPure _,steadyIo _⟩

theorem steadySend (bytes fd) : Uses Steady (sendData bytes fd) := by
  cases fd with
  | none => exact usesPure _
  | some fd => exact usesOne (g := Steady) trivial

theorem steadyEntry (line) : Uses Steady (dataEntry u line) := by
  refine usesAsk (g := Steady) trivial fun f => usesBind ?_ fun entry => ?_
  · cases f.fd with
    | none => exact usesPure _
    | some fd => exact steadyIo _
  split
  · exact steadyEnd (steadyClose _).2 _ _
  · exact steadyEnd (steadyClose _).2 _ _
  refine usesBind (steadyIo _) fun found => ?_
  split
  · exact usesPure _
  refine usesBind (steadySend _ _) fun sent => ?_
  split
  · exact steadyEnd (steadyClose _).2 _ _
  · split
    · exact steadyEnd (steadyClose _).2 _ _
    · exact usesPure _

theorem steadyRetr : Uses Steady dataRetr := by
  refine usesAsk (g := Steady) trivial fun f => usesBind ?_ fun got => ?_
  · cases f.fd with
    | none => exact usesPure _
    | some fd => exact steadyIo _
  split
  · exact steadyEnd (steadyClose _).1 _ _
  · exact steadyEnd (steadyClose _).1 _ _
  refine usesBind (steadySend _ _) fun sent => ?_
  split
  · exact steadyEnd (steadyClose _).1 _ _
  · split
    · exact steadyEnd (steadyClose _).1 _ _
    · exact usesPure _

theorem steadyStor : Uses Steady dataStor := by
  refine usesAsk (g := Steady) trivial fun f => usesBind ?_ fun got => ?_
  · cases f.socketData with
    | none => exact usesPure _
    | some fd => exact usesOne (g := Steady) trivial
  split
  · exact steadyEnd (steadyClose _).1 _ _
  · exact steadyEnd (steadyClose _).1 _ _
  refine usesBind ?_ fun wrote => ?_
  · cases f.fd with
    | none => exact usesPure _
    | some fd => exact steadyIo _
  split
  · exact steadyEnd (steadyClose _).1 _ _
  · split
    · exact steadyEnd (steadyClose _).1 _ _
    · exact usesPure _

theorem steadyRun (callback : DataCallback) : Uses Steady (callback.run u) := by
  unfold DataCallback.run
  split
  · exact steadyEntry (listLine u.server.libc)
  · exact steadyEntry fun name _ => name ++ crlf
  · exact steadyRetr
  · exact steadyStor

theorem steadyCallback : Uses Steady (callbackRound u) := by
  refine usesBind (usesLocked quietSteady (usesAsk (g := Steady) trivial fun f => ?_)) fun done => usesPure _
  split
  · exact steadyRun _
  · exact usesPure _

theorem steadyRound (fd : Option Fd) (event : PollEvent) (state : Unit) :
    Uses Steady (executorRound u fd event state) := by
  have gone : Uses Steady abandoned :=
    usesLocked quietSteady (usesAsk (g := Steady) trivial fun _ => usesPure _)
  refine usesAsk (g := Steady) trivial fun polled => ?_
  split
  · exact usesPure _
  · exact usesBind gone fun _ => usesPure _
  split
  · refine usesBind gone fun left => ?_
    split
    · exact usesPure _
    · exact steadyCallback
  · split
    · exact steadyCallback
    · exact usesPure _

theorem steadyGo (state : Unit) : Uses Steady (goRound state) := by
  refine usesBind (usesLocked quietSteady (usesAsk (g := Steady) trivial fun _ => usesPure _)) fun go => ?_
  split
  · exact usesPure _
  · exact usesAsk (g := Steady) trivial fun _ => usesPure _

theorem steadyExecutor (rounds : Nat) (event : PollEvent) : Uses Steady (dataExecutor rounds u event) := by
  refine usesAsk (g := Steady) trivial fun f => usesBind (usesLoop steadyGo _ _) fun _ =>
    usesBind (usesLoop (steadyRound _ _) _ _) fun _ =>
      usesBind (usesLocked quietSteady (usesAsk (g := Steady) trivial fun f => usesBind ?_ fun _ =>
        usesOne (g := Steady) trivial)) fun _ => usesOne (g := Steady) trivial
  split
  · exact usesPure _
  refine usesBind ?_ fun _ => usesOne (g := Steady) trivial
  cases f.socketData with
  | none => exact usesPure _
  | some fd => exact usesOne (g := Steady) trivial

end Executor
end OpenPs3Ftp.Legacy
