import OpenPs3Ftp.Recollection

/-! The descriptors of a client's data connections, as the reactor's code for that client
deals with them: the listener, and what is still to be closed of a job that is given
back. -/
namespace OpenPs3Ftp.Descriptors
open Lib Text Resolve Fs Session Commands Dispatch Program Events Recollection

/- `mine` is the client's socket, listening or about to. `data` and `lent` are the data
socket and the listener of a job that was refused or posted. `setting` is set while a
set-up command has not replied, `shut` after the listener was closed outside of one. -/
structure Shelf where
  mine : Option Fd
  data : Option Fd
  lent : Option Fd
  setting : Bool
  shut : Bool

def setups : List Bytes := ["PASV","EPSV","PORT","EPRT"].map ascii

def Shelf.note (r : Shelf) : (call : Call) → Answer call → Shelf
  | .enter name _,_ => { r with setting := setups.contains name }
  | .send ..,_ => { r with setting := false }
  | .socket _,answer => { r with mine := answer }
  | .closeFd fd,_ =>
    if r.data = some fd then { r with data := none }
    else if r.lent = some fd then { r with lent := none }
    else { r with mine := none, shut := !r.setting }
  | .dispatch job,answer =>
    if job.pasvFd = none then r else { r with mine := none, lent := if answer then none else job.pasvFd }
  | _,_ => r

def Shelf.Calm (r : Shelf) : Prop := r.data = none ∧ r.lent = none ∧ r.shut = false

def Shelf.Allows (r : Shelf) : Call → Prop
  | .closeFd fd => r.shut = false ∧
      (r.data = some fd ∨ r.data = none ∧ (r.lent = some fd ∨ r.lent = none ∧ r.mine = some fd))
  | .socket _ => r.Calm ∧ r.mine = none
  | .dispatch job => r.Calm ∧ (job.pasvFd = none ∨ job.pasvFd = r.mine)
  | _ => r.Calm

abbrev Shelves {α : Type} (post : Shelf → α → Prop) (r : Shelf) (p : Handler α) : Prop :=
  Meets (fun _ _ => True) Shelf.note Shelf.Allows post r p

def rest (fd : Option Fd) : Shelf := ⟨fd,none,none,false,false⟩
def busy (fd : Option Fd) : Shelf := ⟨fd,none,none,true,false⟩
def Rests (r : Shelf) (c : Client) : Prop := r = rest c.pasvFd

section Rules
variable {α β : Type} {post : Shelf → α → Prop} {fd : Option Fd}

def aside : Call → Bool
  | .enter .. | .send .. | .socket _ | .closeFd _ | .dispatch _ => false
  | _ => true

theorem shelvedCall {call k r} (calm : r.Calm) (plain : aside call = true)
    (next : ∀ answer, Shelves post r (k answer)) : Shelves post r (invoke call >>= k) := by
  cases call
  case enter | send | socket | closeFd | dispatch => contradiction
  all_goals exact ⟨calm,fun answer _ => next answer⟩

theorem shelvedSend {about text k r} (calm : r.Calm) (next : Shelves post { r with setting := false } (k ())) :
    Shelves post r (invoke (.send about text) >>= k) :=
  ⟨calm,fun _ _ => next⟩

theorem shelvedData {fd k r} (data : r.data = fd) (going : r.shut = false)
    (next : Shelves post { r with data := none } (k ())) : Shelves post r (closeSome fd >>= k) := by
  cases fd with
  | none =>
    rw [← data] at next
    exact next
  | some number =>
    refine ⟨⟨going,.inl data⟩,fun _ _ => ?_⟩
    rw [Shelf.note,if_pos data]
    exact next

theorem shelvedLent {fd k r} (lent : r.lent = fd) (data : r.data = none) (going : r.shut = false)
    (next : Shelves post { r with lent := none } (k ())) : Shelves post r (closeSome fd >>= k) := by
  cases fd with
  | none =>
    rw [← lent] at next
    exact next
  | some number =>
    refine ⟨⟨going,.inr ⟨data,.inl lent⟩⟩,fun _ _ => ?_⟩
    rw [Shelf.note,if_neg (by simp [data]),if_pos lent]
    exact next

theorem restCalm (fd) : (rest fd).Calm := ⟨rfl,rfl,rfl⟩

theorem busyCalm (fd) : (busy fd).Calm := ⟨rfl,rfl,rfl⟩

end Rules

section Parts
variable {s : Server} {c d : Client} {fd : Option Fd}

theorem shelvedAnswering (code msg) {r} (calm : r.Calm) (same : r.mine = d.pasvFd) :
    Shelves Rests r (answering code msg d) := by
  refine shelvedSend calm ?_
  obtain ⟨mine,data,lent,setting,shut⟩ := r
  obtain ⟨rfl,rfl,rfl⟩ := calm
  obtain rfl := same
  rfl

theorem shelvedRefusing (code msg c) : Shelves Rests (rest c.pasvFd) (answering code msg c) :=
  shelvedAnswering code msg (restCalm _) rfl

theorem shelvedFailing (failure c) : Shelves Rests (rest c.pasvFd) (failing failure c) := by
  cases failure with
  | known e => exact shelvedSend (restCalm _) rfl
  | stale => exact shelvedCall (restCalm _) rfl fun _ => shelvedSend (restCalm _) rfl

theorem shelvedClose {k} (next : Shelves Rests (busy none) (k { c with pasvFd := none })) :
    Shelves Rests (busy c.pasvFd) (closeListener c >>= k) := by
  unfold closeListener
  split
  · rename_i free
    have same : { c with pasvFd := none } = c := by rw [← free]
    rw [same] at next
    rw [free]
    exact next
  · rename_i number held
    rw [held]
    exact ⟨⟨rfl,.inr ⟨rfl,.inr ⟨rfl,rfl⟩⟩⟩,fun _ _ => next⟩

theorem shelvedBind {number} (ports) :
    Shelves (fun r _ => r = busy (some number)) (busy (some number)) (bindFirst number ports) := by
  induction ports with
  | nil => exact rfl
  | cons port ports ih =>
    refine shelvedCall (busyCalm _) rfl fun bound => ?_
    cases bound with
    | true => exact rfl
    | false => exact ih

theorem shelvedListener (s number) :
    Shelves (fun r opened => r = busy (if opened then some number else none)) (busy (some number))
      (openListener s number) := by
  have shut : Shelves (fun r opened => r = busy (if opened then some number else none)) (busy (some number))
      (invoke (.closeFd number) >>= fun _ => pure false) := ⟨⟨rfl,.inr ⟨rfl,.inr ⟨rfl,rfl⟩⟩⟩,fun _ _ => rfl⟩
  rw [openListener,bindListenerInRange,Shelves,meetsBind]
  refine meetsMono ?_ (shelvedBind _)
  rintro _ bound rfl
  cases bound with
  | false => exact shut
  | true =>
    refine shelvedCall (busyCalm _) rfl fun listening => ?_
    cases listening with
    | false => exact shut
    | true => exact rfl

theorem shelvedAnnounce (free : c.pasvFd = none) (code text fd) :
    Shelves Rests (busy fd) (announceListener s c code text fd) := by
  cases fd with
  | none => exact shelvedAnswering _ _ (busyCalm _) free.symm
  | some number =>
    rw [announceListener,Shelves,meetsBind]
    refine meetsMono ?_ (shelvedListener s number)
    rintro _ opened rfl
    cases opened with
    | false => exact shelvedAnswering _ _ (busyCalm _) free.symm
    | true => exact shelvedCall (busyCalm _) rfl fun port => shelvedSend (busyCalm _) rfl

theorem shelvedPasv (s c) : Shelves Rests (busy c.pasvFd) (cmdPasv s c) := by
  refine shelvedCall (busyCalm _) rfl fun address => ?_
  split
  · exact shelvedAnswering _ _ (busyCalm _) rfl
  · exact shelvedAnswering _ _ (busyCalm _) rfl
  · exact shelvedClose ⟨⟨busyCalm _,rfl⟩,fun fd _ => shelvedAnnounce rfl _ _ fd⟩

theorem shelvedEpsv (s c param) : Shelves Rests (busy c.pasvFd) (cmdEpsv s c param) := by
  unfold cmdEpsv
  refine meetsIte.mpr ⟨fun _ => shelvedAnswering _ _ (busyCalm _) rfl,fun _ => shelvedClose ?_⟩
  refine ⟨⟨busyCalm _,rfl⟩,fun six _ => ?_⟩
  cases six with
  | some fd => exact shelvedAnnounce rfl _ _ (some fd)
  | none => exact ⟨⟨busyCalm _,rfl⟩,fun four _ => shelvedAnnounce rfl _ _ four⟩

theorem shelvedTaken (d) : Shelves Rests (busy d.pasvFd) (closeListener d >>= answering 200 r200) :=
  shelvedClose (shelvedAnswering _ _ (busyCalm _) rfl)

theorem shelvedPort (c param) : Shelves Rests (busy c.pasvFd) (cmdPort c param) := by
  unfold cmdPort
  split
  · split
    · exact shelvedTaken { c with dataPeer := _, haveDataPeer := true }
    · exact shelvedAnswering _ _ (busyCalm _) rfl
  · exact shelvedAnswering _ _ (busyCalm _) rfl

theorem shelvedEprt (s c param) : Shelves Rests (busy c.pasvFd) (cmdEprt s c param) := by
  unfold cmdEprt
  split
  · exact shelvedAnswering _ _ (busyCalm _) rfl
  simp only
  split
  · exact shelvedAnswering _ _ (busyCalm _) rfl
  · split
    · exact shelvedAnswering _ _ (busyCalm _) rfl
    · exact shelvedTaken { c with dataPeer := _, haveDataPeer := true }

theorem shelvedFree {job k r} (lent : r.lent = job.pasvFd) (data : r.data = none) (going : r.shut = false)
    (next : Shelves Rests { r with lent := none } (k ())) : Shelves Rests r (jobFree job >>= k) := by
  rw [jobFree,bindAssoc]
  exact shelvedLent lent data going (shelvedCall ⟨data,rfl,going⟩ rfl fun _ => next)

theorem shelvedTransfer (s c op path nlst mlsd reply150) :
    Shelves Rests (rest c.pasvFd) (startTransfer s c op path nlst mlsd reply150) := by
  refine transferMeets rfl (shelvedRefusing _ _ c) (shelvedRefusing _ _ c) fun _ _ => ⟨restCalm _,shelvedRefusing _ _ c,?_⟩
  rintro id _ _ rfl rfl
  have moved : ∀ sent, Shelf.note (rest c.pasvFd) (.dispatch (transferJob c op path nlst mlsd id)) sent =
      { rest none with lent := if sent then none else c.pasvFd } := by
    intro sent
    cases held : c.pasvFd <;> simp [Shelf.note,transferJob,held,rest]
  refine ⟨⟨restCalm _,.inr rfl⟩,?_⟩
  rw [show (rest c.pasvFd).note (.newJob op) (some id) = rest c.pasvFd from rfl,moved,moved]
  exact ⟨shelvedSend (restCalm _) rfl,shelvedFree rfl rfl rfl (shelvedAnswering _ _ (restCalm _) rfl)⟩

theorem shelvedCopy (c path) : Shelves Rests (rest c.pasvFd) (startCopy c path) := by
  refine copyMeets rfl (restCalm _) (shelvedRefusing _ _ c) ?_
  rintro id _ _ rfl rfl
  exact ⟨⟨restCalm _,.inl rfl⟩,rfl,shelvedFree rfl rfl rfl (shelvedRefusing _ _ c)⟩

theorem shelvedPass (s c param) : Shelves Rests (rest c.pasvFd) (cmdPass s c param) := by
  refine passMeets rfl (shelvedRefusing _ _ c) (restCalm _) ?_
  rintro _ (rfl | ⟨ok,rfl⟩) <;> exact ⟨shelvedSend (restCalm _) rfl,shelvedSend (restCalm _) rfl⟩

end Parts

section Tasks
variable {s : Server} {c : Client}

theorem setupsNamed {name command} (found : (commandsInit s).lookup name = some command) :
    setups.contains name = decide (command ∈ [Command.pasv,.epsv,.port,.eprt]) := by
  have all : ∀ allowStop, ∀ entry ∈ builtin allowStop,
      setups.contains (ascii entry.1) = decide (entry.2 ∈ [Command.pasv,.epsv,.port,.eprt]) := by decide +kernel
  obtain ⟨entry,member,rfl,rfl⟩ := lookupBuiltin found
  exact all _ entry member

theorem ordinaryShelved {command param call k} (other : command ∉ setupCommands)
    (fine : Ordinary s c command param call) (next : ∀ answer, Shelves Rests (rest c.pasvFd) (k answer)) :
    Shelves Rests (rest c.pasvFd) (.ask call k) := by
  cases call
  case send => exact shelvedSend (restCalm _) (next ())
  case socket | closeFd => exact absurd fine other
  case enter | dispatch => cases fine
  all_goals exact shelvedCall (restCalm _) rfl next

theorem commandShelved {name command} (found : (commandsInit s).lookup name = some command) (c d param) :
    Shelves Rests ((rest c.pasvFd).note (.enter name d) ()) (command.run s c param) := by
  rw [Shelf.note,setupsNamed found]
  by_cases setup : command ∈ setupCommands
  · cases command
    case pasv => exact shelvedPasv s c
    case epsv => exact shelvedEpsv s c param
    case port => exact shelvedPort c param
    case eprt => exact shelvedEprt s c param
    all_goals exact absurd setup (by decide)
  rw [show decide (command ∈ [Command.pasv,.epsv,.port,.eprt]) = false from decide_eq_false setup]
  have same : ∀ d, Returns s c param command d → d.pasvFd = c.pasvFd := by
    intro d returns
    cases returns
    case wired is => exact absurd is setup
    all_goals rfl
  refine course { done := fun d returns => congrArg rest (same d returns).symm,
                  failing := fun failure d returns => same d returns ▸ shelvedFailing failure d,
                  ask := fun call k fine next => ordinaryShelved setup fine next, pass := fun _ => shelvedPass s c param,
                  abor := fun _ => ?_, stop := fun _ => shelvedSend (restCalm _) (shelvedCall (restCalm _) rfl fun _ => rfl),
                  transfer := fun _ op path nlst mlsd reply150 _ _ _ => shelvedTransfer s c op path nlst mlsd reply150,
                  copy := fun _ _ _ path _ => shelvedCopy { c with haveCpfr := false } path }
  unfold cmdAbor
  split
  · exact shelvedCall (restCalm _) rfl fun _ => rfl
  · exact shelvedSend (restCalm _) rfl

def Shelf.Leaves (r : Shelf) (c : Client) : Prop :=
  r.mine = c.pasvFd ∧ r.data = none ∧ r.lent = none ∧ r.setting = false ∧ (r.shut = true → c.connected = false)

theorem restLeaves (c) : (rest c.pasvFd).Leaves c := ⟨rfl,rfl,rfl,rfl,nofun⟩

theorem disconnectShelved (c) : Shelves Shelf.Leaves (rest c.pasvFd) (clientDisconnect c) := by
  have closing : Shelves Shelf.Leaves (rest c.pasvFd) (closeSome c.pasvFd >>= fun _ => pure (gone c)) := by
    cases c.pasvFd with
    | none => exact ⟨rfl,rfl,rfl,rfl,fun _ => rfl⟩
    | some fd => exact ⟨⟨rfl,.inr ⟨rfl,.inr ⟨rfl,rfl⟩⟩⟩,fun _ _ => ⟨rfl,rfl,rfl,rfl,fun _ => rfl⟩⟩
  unfold clientDisconnect
  cases c.job with
  | none => exact closing
  | some job => exact shelvedCall (restCalm _) rfl fun _ => closing

theorem urgentShelved (plain : c.tlsHandshaking = false) :
    Shelves (fun r c' => Rests r c' ∧ c'.tlsHandshaking = false) (rest c.pasvFd) (urgentAbort s c) := by
  unfold urgentAbort
  rw [Shelves,meetsBind]
  refine dispatchMeets (fun unknown => ?_) fun command found => ⟨restCalm _,?_⟩
  · rw [lookupAbor] at unknown
    cases unknown
  obtain rfl : command = .abor := Option.some.inj (found.symm.trans (lookupAbor s))
  rw [Shelf.note,setupsNamed found,Command.run,cmdAbor]
  split
  · exact shelvedCall ⟨rfl,rfl,rfl⟩ rfl fun _ => ⟨rfl,plain⟩
  · exact shelvedSend ⟨rfl,rfl,rfl⟩ ⟨rfl,plain⟩

theorem eventShelved (s revents received c) :
    Shelves Shelf.Leaves (rest c.pasvFd) (handleClientEvents s revents received c) := by
  have rule := @eventMeets _ (fun _ _ => True) Shelf.note Shelf.Allows s Rests
  refine rule (fun _ _ _ rests => rests) (fun _ _ rests => rests) ?_ rfl ?_ ?_ ?_
  · rintro _ c text rfl -
    refine lineMeets text rfl (fun _ => ⟨restCalm _,rfl⟩) fun name param command found _ => ⟨restCalm _,?_⟩
    exact commandShelved found c c param
  · exact fun _ plain => urgentShelved plain
  · exact fun _ => ⟨restCalm _,fun result => ⟨rfl,fun _ => rfl⟩⟩
  · rintro _ c rfl
    unfold finishEvent
    exact meetsIte.mpr ⟨fun _ => disconnectShelved c,fun _ => restLeaves c⟩

theorem acceptShelved (s peer) : Shelves Shelf.Leaves (rest none) (acceptClient s peer) :=
  acceptMeets peer (fun _ => ⟨restCalm _,fun _ => rfl⟩) fun leaving =>
    restLeaves { clientNew peer with disconnectRequested := leaving }

theorem completeShelved (p c) :
    Shelves Shelf.Leaves ⟨c.pasvFd,p.dataFd,p.job.pasvFd,false,false⟩ (datachanComplete p c) := by
  unfold datachanComplete closeJob
  rw [bindAssoc]
  refine shelvedData rfl rfl (shelvedLent rfl rfl rfl ?_)
  refine meetsIte.mpr ⟨fun _ => restLeaves c,fun _ => shelvedSend (restCalm _) ?_⟩
  unfold finishAbort
  exact meetsIte.mpr ⟨fun _ => shelvedSend (restCalm _) (restLeaves { c with job := none, aborPending := false }),
    fun _ => restLeaves { c with job := none }⟩

end Tasks
end OpenPs3Ftp.Descriptors
