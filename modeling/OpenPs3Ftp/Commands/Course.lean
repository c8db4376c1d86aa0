import OpenPs3Ftp.Replies

/-! The handlers taken apart once. What a command returns, which calls it makes and on which
paths is said here; a property that goes from what follows a call to the call, and holds of
the few parts with an order of their own, holds of every command. -/
namespace OpenPs3Ftp.Commands
open Lib Text Resolve Fs Session Listing Dispatch Program Replies

def chmodArg (body : Bytes) : Option Bytes :=
  match strtol 8 (skipSpaces body) with
  | some (_,_ :: rest) => some (skipSpaces rest)
  | _ => none

def utimeArg (body : Bytes) : Bytes :=
  (((skipSpaces body).rdropWhile (· = space)).rdropWhile (· ≠ space)).rdropWhile (· = space)

def siteArg (arg : Bytes) : Option Bytes :=
  if startsFold (ascii "CHMOD") arg then chmodArg (arg.drop 5) else some (utimeArg (arg.drop 5))

def aim (command : Command) (arg : Bytes) : Option Bytes :=
  match command with
  | .cdup => some (ascii "..")
  | .list | .nlst | .mlsd => listingArg (some arg)
  | .mfmt => some (skipSpaces (arg.drop 15))
  | .site => siteArg arg
  | _ => some arg

def aimed (command : Command) : Option Bytes → Option Bytes
  | some arg => aim command arg
  | none => if command = .cdup then some (ascii "..") else none

def Meant (s : Server) (c : Client) (command : Command) (param : Option Bytes) (path : Bytes) : Prop :=
  match command with
  | .stou => ∃ seq : Answer .stouSeq, resolveArg s c (some (snprintf 32 (ascii "ftp" ++ padLeft 6 48 (decimal seq.toNat)))) = some path
  | _ => resolveArg s c (aimed command param) = some path

def setupCommands : List Command := [.pasv,.epsv,.port,.eprt]
def transferCommands : List Command := [.list,.nlst,.mlsd,.retr,.stor,.appe,.stou]

inductive Returns (s : Server) (c : Client) (param : Option Bytes) : Command → Client → Prop where
  | same {command} (other : command ≠ .abor) : Returns s c param command c
  | user (user : Buffer 256) : Returns s c param .user { c with user }
  | quit : Returns s c param .quit { c with disconnectRequested := true }
  | rest (rest : Nat) : Returns s c param .rest { c with rest }
  | auth (rbuf : Bytes) (tls tlsHandshaking disconnectRequested : Bool) :
      Returns s c param .auth { c with rbuf, tls, tlsHandshaking, disconnectRequested }
  | prot (tlsProt : Bool) : Returns s c param .prot { c with tlsProt }
  | moved {command path} (moving : command = .cwd ∨ command = .cdup) (meant : Meant s c command param path) :
      Returns s c param command { c with cwd := Buffer.print 1023 (visible s.root.text path) }
  | rnfr {path} (meant : Meant s c .rnfr param path) :
      Returns s c param .rnfr { c with rnfr := Buffer.print 1023 path, haveRnfr := true }
  | rnto : Returns s c param .rnto { c with haveRnfr := false }
  | cpfr {path} (meant : Meant s c .cpfr param path) :
      Returns s c param .cpfr { c with cpfr := Buffer.print 1023 path, haveCpfr := true }
  | cpto : Returns s c param .cpto { c with haveCpfr := false }
  | wired {command} (setup : command ∈ setupCommands) (pasvFd : Option Fd) (dataPeer : SockAddr) (haveDataPeer : Bool) :
      Returns s c param command { c with pasvFd, dataPeer, haveDataPeer }

/- What is said: short texts, and those that print what a client or a path is called. -/
inductive Utters (s : Server) (c : Client) (param : Option Bytes) : Command → Bytes → Prop where
  | reply {command code msg} (three : (decimal code).length = 3) (short : Short 1017 msg) :
      Utters s c param command (replyText code msg)
  | line {command msg} (short : Short 1021 msg) : Utters s c param command (sendText msg)
  | user {name} (present : given param = some name) : Utters s c param .user (replyText 331
      (snprintf 256 (ascii "Username " ++ (Buffer.print 255 name).text ++ ascii " OK. Password required.")))
  | pwd : Utters s c param .pwd (replyText 257 (quoted c.cwd.text))
  | mkd {path} (present : given param ≠ none) (meant : Meant s c .mkd param path) :
      Utters s c param .mkd (replyText 257 (quoted path))
  | mlst {path st} (meant : Meant s c .mlst param path) :
      Utters s c param .mlst (snprintf 1025 (space :: mlsdFormat s.libc 1024 (direntOf path st)))
  | stat (text : Bytes) : Utters s c param .stat text

def Ordinary (s : Server) (c : Client) (command : Command) (param : Option Bytes) : Call → Prop
  | .send .command text => Utters s c param command text
  | .entries _ | .stouSeq | .fs (.closedir _) => True
  | .fs (.stat path) => Meant s c command param path ∨
      ∃ full, Meant s c command param full ∧ pathParent full maxPath = some path ∧ path ≠ []
  | .fs (.opendir path) | .fs (.mkdir path _) | .fs (.rmdir path) | .fs (.unlink path) | .fs (.chmod path _)
  | .fs (.utimes path _) => Meant s c command param path
  | .fs (.rename old new) => command = .rnto ∧ c.haveRnfr = true ∧ old = c.rnfr.text ∧ Meant s c command param new
  | .localAddr | .socket _ | .bind .. | .listen _ | .boundPort _ | .closeFd _ => command ∈ setupCommands
  | .tlsCreate _ => command = .auth
  | _ => False

theorem ordinaryPaths {s c command param} {call : FsCall} (fine : Ordinary s c command param (.fs call)) :
    ∀ path ∈ call.paths, Meant s c command param path ∨
      (∃ full, Meant s c command param full ∧ pathParent full maxPath = some path ∧ path ≠ []) ∨
      c.haveRnfr = true ∧ path = c.rnfr.text := by
  cases call
  case stat path => exact List.forall_mem_singleton.mpr (Or.imp_right .inl fine)
  case rename =>
    obtain ⟨-,stored,rfl,meant⟩ := fine
    exact List.forall_mem_cons.mpr ⟨.inr (.inr ⟨stored,rfl⟩),List.forall_mem_singleton.mpr (.inl meant)⟩
  case opendir | mkdir | rmdir | unlink | chmod | utimes => exact List.forall_mem_singleton.mpr (.inl fine)
  case closedir => exact List.forall_mem_nil _
  all_goals cases fine

def startCopy (c : Client) (path : Bytes) : Handler Client := do
  match ← invoke (.newJob .copy) with
  | none => answering 451 r451 c
  | some id =>
    if ← invoke (.dispatch (copyJob c path id)) then return { c with job := some id }
    else do
      jobFree (copyJob c path id)
      answering 451 r451 c

/- The parts with an order of their own, for whatever they owe. -/
section Walks
variable {ρ : Type} {world : (call : Call) → Answer call → Prop} {note : ρ → (call : Call) → Answer call → ρ}
  {guard : ρ → Call → Prop} {post : ρ → Client → Prop} {M : ρ → Handler Client → Prop} {r : ρ} {s : Server} {c : Client} {path : Bytes}
  (is : M = Meets world note guard post)
include is

theorem passMeets {param} (early : M r (answering 503 r503 c))
    (asks : guard r (.auth c.user.text (param.getD [])))
    (login : ∀ r', r' = r ∨ (∃ ok, r' = note r (.auth c.user.text (param.getD [])) ok) →
      M r' (answering 230
        (snprintf 256 (ascii "Successfully logged in as " ++ c.user.text ++ ascii ".")) { c with loggedIn := true }) ∧
      M r' (answering 530 r530 { c with user := ⟨[],emptyName⟩ })) :
    M r (cmdPass s c param) := by
  subst is
  refine meetsIte.mpr ⟨fun _ => early,fun _ => ?_⟩
  split
  · refine ⟨asks,fun ok _ => ?_⟩
    cases ok with
    | true => exact (login _ (.inr ⟨true,rfl⟩)).1
    | false => exact (login _ (.inr ⟨false,rfl⟩)).2
  · exact (login r (.inl rfl)).1

theorem transferMeets {op nlst mlsd reply150} (busy : M r (answering 450 r450 c))
    (refuse : M r (answering 425 r425 c))
    (starts : c.job = none → precheck s c = true → guard r (.newJob op) ∧
      M (note r (.newJob op) none) (answering 425 r425 c) ∧
      ∀ id job r', job = transferJob c op path nlst mlsd id → r' = note r (.newJob op) (some id) → guard r' (.dispatch job) ∧
        M (note r' (.dispatch job) true) (replyAbout (.accepted id) 150 (reply150.getD r150) >>=
          fun _ => pure { c with pasvFd := none, haveDataPeer := false, job := some id, rest := 0 }) ∧
        M (note r' (.dispatch job) false) (jobFree job >>=
          fun _ => answering 425 r425 { c with pasvFd := none, haveDataPeer := false })) :
    M r (startTransfer s c op path nlst mlsd reply150) := by
  subst is
  refine meetsIte.mpr ⟨fun _ => busy,fun idle => meetsIte.mpr ⟨fun _ => refuse,fun checked =>
    meetsIte.mpr ⟨fun _ => refuse,fun _ => ?_⟩⟩⟩
  obtain ⟨makes,none_,sends⟩ := starts (by simpa using idle) (by simpa using checked)
  refine ⟨makes,fun made _ => ?_⟩
  cases made with
  | none => exact none_
  | some id =>
    obtain ⟨owed,taken,left⟩ := sends id _ _ rfl rfl
    refine ⟨owed,fun sent _ => ?_⟩
    cases sent with
    | true => exact taken
    | false => exact left

theorem copyMeets (makes : guard r (.newJob .copy))
    (refuse : M (note r (.newJob .copy) none) (answering 451 r451 c))
    (sends : ∀ id job r', job = copyJob c path id → r' = note r (.newJob .copy) (some id) → guard r' (.dispatch job) ∧
      post (note r' (.dispatch job) true) { c with job := some id } ∧
      M (note r' (.dispatch job) false) (jobFree job >>= fun _ => answering 451 r451 c)) :
    M r (startCopy c path) := by
  subst is
  refine ⟨makes,fun made _ => ?_⟩
  cases made with
  | none => exact refuse
  | some id =>
    obtain ⟨owed,taken,left⟩ := sends id _ _ rfl rfl
    refine ⟨owed,fun sent _ => ?_⟩
    cases sent with
    | true => exact taken
    | false => exact left

end Walks

instance : Terse 200 r200 := ⟨by decide,by decide⟩
instance : Terse 202 r202 := ⟨by decide,by decide⟩
instance : Terse 214 (ascii "The following commands are recognized.") := ⟨by decide,by decide⟩
instance : Terse 215 r215 := ⟨by decide,by decide⟩
instance : Terse 221 r221 := ⟨by decide,by decide⟩
instance : Terse 234 (ascii "AUTH TLS successful.") := ⟨by decide,by decide⟩
instance : Terse 250 r250 := ⟨by decide,by decide⟩
instance : Terse 250 (ascii "End") := ⟨by decide,by decide⟩
instance : Terse 350 r350a := ⟨by decide,by decide⟩
instance : Terse 421 r421 := ⟨by decide,by decide⟩
instance : Terse 425 r425 := ⟨by decide,by decide⟩
instance : Terse 450 r450 := ⟨by decide,by decide⟩
instance : Terse 450 (ascii "No unique file name available.") := ⟨by decide,by decide⟩
instance : Terse 501 r501 := ⟨by decide,by decide⟩
instance : Terse 502 r502 := ⟨by decide,by decide⟩
instance : Terse 503 r503 := ⟨by decide,by decide⟩
instance : Terse 504 r504 := ⟨by decide,by decide⟩
instance : Terse 522 (ascii "Network protocol not supported, use (1)") := ⟨by decide,by decide⟩
instance : Terse 522 (ascii "Network protocol not supported, use (1,2)") := ⟨by decide,by decide⟩
instance : Terse 550 r550 := ⟨by decide,by decide⟩
instance : Terse 550 (ascii "Source and destination are the same file.") := ⟨by decide,by decide⟩
instance : Terse 550 (ascii "Destination is inside the source directory.") := ⟨by decide,by decide⟩
instance : Terse 554 r554 := ⟨by decide,by decide⟩

structure Course (s : Server) (c : Client) (command : Command) (param : Option Bytes) (P : Handler Client → Prop) : Prop where
  done : ∀ d, Returns s c param command d → P (.done d)
  failing : ∀ failure d, Returns s c param command d → P (failing failure d)
  ask : ∀ call k, Ordinary s c command param call → (∀ answer, P (k answer)) → P (.ask call k)
  pass : command = .pass → P (cmdPass s c param)
  abor : command = .abor → P (cmdAbor c)
  stop : command = .stop ∨ command = .site ∧ s.allowStop = true → P (cmdStop c)
  transfer : command ∈ transferCommands → ∀ op path nlst mlsd reply150, op ≠ .copy → Meant s c command param path →
    reply150 = none ∨ command = .stou ∧ reply150 = some (snprintf 64 (ascii "FILE: " ++ baseName path)) →
    P (startTransfer s c op path nlst mlsd reply150)
  copy : command = .cpto → c.haveCpfr = true → c.job = none → ∀ path, Meant s c command param path →
    P (startCopy { c with haveCpfr := false } path)

section Parts
variable {s : Server} {c d : Client} {command : Command} {param arg : Option Bytes} {P : Handler Client → Prop} {path : Bytes}
  (h : Course s c command param P)

theorem meantSelf (plain : command ∉ [.cdup,.list,.nlst,.mlsd,.mfmt,.site,.stou]) (resolved : resolveArg s c param = some path) :
    Meant s c command param path := by
  cases param <;> cases command <;> first | exact resolved | exact absurd plain (by decide)

include h

theorem Course.call {call k} (fine : Ordinary s c command param call) (next : ∀ answer, P (k answer)) :
    P (invoke call >>= k) := h.ask call k fine next

theorem Course.say {code msg} [terse : Terse code msg] {k} (next : P (k ())) :
    P (reply code msg >>= k) := h.call (.reply terse.three terse.short) fun _ => next

theorem courseAnswering (returns : Returns s c param command d) (code msg) [Terse code msg] :
    P (answering code msg d) := h.say (h.done d returns)

theorem Course.stay {code msg} [Terse code msg] (other : command ≠ .abor) : P (answering code msg c) :=
  courseAnswering h (.same other) code msg

theorem courseStatting {k} (other : command ≠ .abor)
    (meant : ∀ path, resolveArg s c arg = some path → Meant s c command param path)
    (next : ∀ path st, Meant s c command param path → P (k path st)) : P (statting s c arg k) := by
  unfold statting
  split
  · exact h.stay other
  rename_i path resolved
  refine h.call (.inl (meant path resolved)) fun found => ?_
  cases found with
  | error e => exact h.failing _ c (.same other)
  | ok st => exact next path st (meant path resolved)

theorem courseParent {k} (meant : Meant s c command param path) (next : ∀ failure, P (k failure)) :
    P (parentIsDir path >>= k) := by
  unfold parentIsDir
  split
  · exact next _
  · exact next _
  rename_i parent some_ is
  refine h.call (.inr ⟨path,meant,is,some_⟩) fun found => ?_
  cases found with
  | error e | ok st => exact next _

theorem courseTarget {k} (meant : ∀ path, resolveArg s c arg = some path → Meant s c command param path)
    (bad : ∀ failure, P (k (.error failure))) (good : ∀ path, Meant s c command param path → P (k (.ok path))) :
    P (resolveTarget s c arg >>= k) := by
  unfold resolveTarget
  split
  · exact bad _
  rename_i path resolved
  rw [bindAssoc]
  refine courseParent h (meant path resolved) fun failure => ?_
  cases failure with
  | some failure => exact bad failure
  | none => exact good path (meant path resolved)

theorem courseEither {k : Except Errno Unit → Handler Client} (returns : Returns s c param command d)
    (bad : ∀ e, k (.error e) = failing (.known e) d) (good : P (k (.ok ()))) (told) : P (k told) := by
  rcases told with e | ⟨⟩
  · exact bad e ▸ h.failing _ d returns
  · exact good

theorem courseTouching {t} {text : Bytes} {k} (other : command ≠ .abor)
    (meant : ∀ path, resolveArg s c (some text) = some path → Meant s c command param path) (next : P k) :
    P (touching s c text t k) :=
  courseStatting h other meant fun _ _ is => h.call is (courseEither h (.same other) (fun _ => rfl) next)

theorem courseLines {lines} (short : ∀ line ∈ lines, Short 1021 line) {k} (next : P (k ())) :
    P (sendAll lines >>= k) := by
  induction lines with
  | nil => exact next
  | cons line lines ih =>
    exact h.call (.line (short line List.mem_cons_self)) fun _ => ih fun line member => short line (List.mem_cons_of_mem _ member)

theorem courseEntries (stat : command = .stat) (libc des) {k} (next : P (k ())) : P (sendEntries libc des >>= k) := by
  subst stat
  induction des with
  | nil => exact next
  | cons de des ih => exact h.call (.stat _) fun _ => ih

theorem courseUnique {k} (stou : command = .stou) (none_ : P (k none)) (taken : P (k (some none)))
    (found : ∀ name, Meant s c command param name → P (k (some (some name)))) (tries) :
    P (uniqueName s c tries >>= k) := by
  subst stou
  induction tries with
  | zero => exact taken
  | succ tries ih =>
    rw [uniqueName,bindAssoc]
    refine h.call trivial fun seq => ?_
    split
    · exact none_
    rename_i name resolved
    rw [bindAssoc]
    refine h.call (.inl ⟨_,resolved⟩) fun answer => ?_
    split
    · exact found name ⟨_,resolved⟩
    · exact ih

section Setup
variable (setup : command ∈ setupCommands)
include setup

theorem courseClose {k} (next : P (k { d with pasvFd := none })) : P (closeListener d >>= k) := by
  unfold closeListener
  split
  · rename_i free
    have same : d = { d with pasvFd := none } := by rw [← free]
    rw [same]
    exact next
  · exact h.call setup fun _ => next

theorem courseBind (fd ports) {k} (next : ∀ ok, P (k ok)) : P (bindFirst fd ports >>= k) := by
  induction ports with
  | nil => exact next _
  | cons port ports ih =>
    refine h.call setup fun bound => ?_
    cases bound with
    | true => exact next _
    | false => exact ih

theorem courseAnnounce (returns : ∀ pasvFd haveDataPeer, Returns s c param command { d with pasvFd, haveDataPeer })
    {code text} (terse : ∀ port, Terse code (text port)) (fd) : P (announceListener s d code text fd) := by
  have refused := courseAnswering h (returns d.pasvFd d.haveDataPeer) 425 r425
  cases fd with
  | none => exact refused
  | some fd =>
    rw [announceListener,openListener,bindAssoc]
    refine courseBind h setup fd _ fun bound => ?_
    cases bound with
    | false => exact h.call setup fun _ => refused
    | true =>
      refine h.call setup fun listening => ?_
      cases listening with
      | false => exact h.call setup fun _ => refused
      | true =>
        refine h.call setup fun port => ?_
        have short := terse port
        exact h.say (h.done _ (returns _ _))

end Setup
end Parts

section Handlers
variable {s : Server} {c : Client} {param : Option Bytes} {P : Handler Client → Prop}

theorem courseUser (h : Course s c .user param P) : P (cmdUser c param) := by
  unfold cmdUser
  split
  · exact h.stay nofun
  · rename_i name present
    exact h.call (Utters.user present) fun _ => h.done _ (.user _)

theorem courseChoosing {command accepted yes no good bad} (h : Course s c command param P) [Terse yes good]
    [Terse no bad] (other : command ≠ .abor) : P (choosing accepted (yes,good) (no,bad) c param) := by
  unfold choosing
  split <;> exact h.stay other

theorem courseCwd {command arg} (h : Course s c command param P) (moving : command = .cwd ∨ command = .cdup)
    (meant : ∀ path, resolveArg s c arg = some path → Meant s c command param path) : P (cmdCwd s c arg) := by
  have other : command ≠ .abor := by rintro rfl; simp at moving
  unfold cmdCwd
  split
  · exact h.stay other
  rename_i path resolved
  refine h.call (.inl (meant path resolved)) fun found => ?_
  cases found with
  | error e => exact h.failing _ c (.same other)
  | ok st =>
    change P (ite _ _ _)
    split
    · exact h.say (h.done _ (.moved moving (meant path resolved)))
    · exact h.failing _ c (.same other)

theorem courseMkd (h : Course s c .mkd param P) : P (cmdMkd s c param) := by
  unfold cmdMkd
  split
  · exact h.stay nofun
  refine courseTarget h (fun _ => meantSelf (by decide)) (fun failure => h.failing _ c (.same nofun)) fun path meant => ?_
  exact h.call meant (courseEither h (.same nofun) (fun _ => rfl) (h.call (.mkd ‹_› meant) fun _ => h.done c (.same nofun)))

theorem courseRmd (h : Course s c .rmd param P) : P (cmdRmd s c param) := by
  unfold cmdRmd
  split
  · exact h.stay nofun
  · exact h.call (show Meant s c .rmd param _ from meantSelf (by decide) ‹_›) (courseEither h (.same nofun) (fun _ => rfl) (h.stay nofun))

theorem courseDele (h : Course s c .dele param P) : P (cmdDele s c param) := by
  unfold cmdDele
  split
  · exact h.stay nofun
  · exact h.call (show Meant s c .dele param _ from meantSelf (by decide) ‹_›) (courseEither h (.same nofun) (fun _ => rfl) (h.stay nofun))

theorem courseRnto (h : Course s c .rnto param P) : P (cmdRnto s c param) := by
  unfold cmdRnto
  split
  · exact h.stay nofun
  rename_i stored
  refine courseTarget h (fun _ => meantSelf (by decide)) (fun failure => h.failing _ _ .rnto) fun path meant => ?_
  exact h.call ⟨rfl,by simpa using stored,rfl,meant⟩ (courseEither h .rnto (fun _ => rfl) (courseAnswering h .rnto _ _))

theorem courseCpto (h : Course s c .cpto param P) : P (cmdCpto s c param) := by
  unfold cmdCpto
  split
  · exact h.stay nofun
  rename_i stored
  split
  · exact h.stay nofun
  rename_i free
  refine courseTarget h (fun _ => meantSelf (by decide)) (fun failure => h.failing _ _ .cpto) fun path meant => ?_
  dsimp only
  split
  · exact courseAnswering h .cpto _ _
  split
  · exact courseAnswering h .cpto _ _
  exact h.copy rfl (by simpa using stored) (by simpa using free) path meant

theorem courseStat (h : Course s c .stat param P) : P (cmdStat s c param) := by
  have last : P (clientSend (ascii "211 End") >>= fun _ => pure c) := h.call (.stat _) fun _ => h.done c (.same nofun)
  unfold cmdStat
  split
  · exact h.call (.stat _) fun _ => last
  refine courseStatting h nofun (fun _ => meantSelf (by decide)) fun path st meant => h.call (.stat _) fun _ => ?_
  unfold statLines
  split
  · rw [bindAssoc]
    refine h.call meant fun opened => ?_
    cases opened with
    | error e => exact last
    | ok dir =>
      simp only [bindAssoc]
      exact h.call trivial fun des => courseEntries h rfl s.libc des (h.call trivial fun _ => last)
  · exact h.call (.stat _) fun _ => last

theorem courseSite (h : Course s c .site param P) : P (cmdSite s c param) := by
  unfold cmdSite
  split
  · exact h.stay nofun
  rename_i p is
  obtain rfl : param = some p := (Option.filter_eq_some_iff.mp is).1
  split
  · rename_i chmod
    unfold siteChmod
    split
    · rename_i mode b rest read
      have meant : ∀ path, resolveArg s c (some (skipSpaces rest)) = some path → Meant s c .site (some p) path := by
        intro path resolved
        have arg : siteArg p = some (skipSpaces rest) := by rw [siteArg,if_pos chmod,chmodArg,read]
        exact (congrArg (resolveArg s c) arg).trans resolved
      split
      · exact h.stay nofun
      split
      · exact h.stay nofun
      · exact h.call (meant _ ‹_›) (courseEither h (.same nofun) (fun _ => rfl) (h.stay nofun))
    · exact h.stay nofun
  rename_i other
  split
  · have arg : siteArg p = some (utimeArg (p.drop 5)) := if_neg other
    simp only [siteUtime]
    split
    · exact h.stay nofun
    split
    · exact h.stay nofun
    split
    · exact h.stay nofun
    · exact courseTouching h nofun (fun path resolved => (congrArg (resolveArg s c) arg).trans resolved) (h.stay nofun)
  split
  · unfold siteStop
    split
    · exact h.stay nofun
    split
    · exact h.stay nofun
    · exact h.stop (.inr ⟨rfl,by simpa using ‹¬ ¬ _›⟩)
  · exact h.stay nofun

theorem courseMfmt (h : Course s c .mfmt param P) : P (cmdMfmt s c param) := by
  unfold cmdMfmt
  split
  · exact h.stay nofun
  rename_i p is
  obtain rfl : param = some p := (Option.filter_eq_some_iff.mp is).1
  split
  · exact h.stay nofun
  refine courseTouching h nofun (fun path resolved => resolved) ?_
  split
  · exact h.failing _ c (.same nofun)
  have bare : ∀ tm, 10 ∉ ascii "Modify=" ++ timeStamp tm := fun tm => by
    simp only [List.mem_append,not_or]
    exact ⟨by decide,stampBare tm⟩
  have terse : ∀ tm, Terse 213 (snprintf 64 (ascii "Modify=" ++ timeStamp tm)) := fun tm => ⟨by decide,shortPrint (bare tm) (by decide)⟩
  exact h.stay nofun

theorem courseAuth (h : Course s c .auth param P) : P (cmdAuth s c param) := by
  have back : ∀ rbuf, P (reply 421 r421 >>= fun _ => pure { c with rbuf, disconnectRequested := true }) := fun rbuf =>
    h.say (h.done _ (.auth rbuf c.tls c.tlsHandshaking true))
  unfold cmdAuth
  split
  · exact h.stay nofun
  split
  · exact h.stay nofun
  split
  · exact h.stay nofun
  unfold clientStartTls
  split
  · exact back c.rbuf
  rw [bindAssoc]
  refine h.call rfl fun created => ?_
  cases created with
  | false => exact back []
  | true => exact courseAnswering h (.auth [] true true c.disconnectRequested) _ _

theorem coursePasv (h : Course s c .pasv param P) : P (cmdPasv s c) := by
  have setup : Command.pasv ∈ setupCommands := by decide
  refine h.call setup fun address => ?_
  split
  · exact h.stay nofun
  · exact h.stay nofun
  refine courseClose h setup (h.call setup fun fd => courseAnnounce h setup (fun fd have_ => ?_)
    (fun port => ⟨by decide,shortPrint ?_ (by decide)⟩) fd)
  · exact .wired setup fd c.dataPeer have_
  · simp only [commaSeparated,List.mem_append,not_or]
    simp [decimalBare]
    decide

theorem courseEpsv (h : Course s c .epsv param P) : P (cmdEpsv s c param) := by
  have setup : Command.epsv ∈ setupCommands := by decide
  have terse : ∀ port : UInt16, Terse 229 (snprintf 64 (ascii "Entering Extended Passive Mode (|||" ++ decimal port.toNat ++
      ascii "|)")) := by
    refine fun port => ⟨by decide,shortPrint ?_ (by decide)⟩
    simp only [List.mem_append,not_or]
    exact ⟨⟨by decide,decimalBare _⟩,by decide⟩
  have announce := courseAnnounce h setup (d := { c with pasvFd := none }) (fun fd have_ => .wired setup fd c.dataPeer have_)
    terse
  unfold cmdEpsv
  split
  · exact h.stay nofun
  refine courseClose h setup ?_
  rw [dualSocket,bindAssoc]
  refine h.call setup fun six => ?_
  cases six with
  | some fd => exact announce (some fd)
  | none => exact h.call setup fun four => announce four

theorem coursePort (h : Course s c .port param P) : P (cmdPort c param) := by
  have setup : Command.port ∈ setupCommands := by decide
  unfold cmdPort
  split
  · split
    · exact courseClose h setup (courseAnswering h (.wired setup none _ true) _ _)
    · exact h.stay nofun
  · exact h.stay nofun

theorem eprtRefusal {code msg proto addr port dst} (refused : eprtTarget s proto addr port = (dst,some (code,msg))) :
    Terse code msg := by
  unfold eprtTarget at refused
  split at refused
  · split at refused
    · cases refused
    · cases refused
      infer_instance
  split at refused
  · split at refused
    · cases refused
    · cases refused
      infer_instance
  · cases refused
    infer_instance

theorem courseEprt (h : Course s c .eprt param P) : P (cmdEprt s c param) := by
  have setup : Command.eprt ∈ setupCommands := by decide
  unfold cmdEprt
  split
  · exact h.stay nofun
  simp only
  split
  · exact h.stay nofun
  split
  · rename_i refused
    have terse := eprtRefusal refused
    exact courseAnswering h (.wired setup c.pasvFd _ c.haveDataPeer) _ _
  · exact courseClose h setup (courseAnswering h (.wired setup none _ true) _ _)

theorem courseStoring {command op} (h : Course s c command param P) (storing_ : command = .stor ∨ command = .appe)
    (data : op ≠ .copy) : P (storing op s c param) := by
  have other : command ≠ .abor := by rintro rfl; simp at storing_
  unfold storing
  split
  · exact h.stay other
  rename_i path resolved
  have meant : Meant s c command param path := meantSelf (by rcases storing_ with rfl | rfl <;> decide) resolved
  refine courseParent h meant fun failure => ?_
  cases failure with
  | some failure => exact h.failing _ c (.same other)
  | none => exact h.transfer (by rcases storing_ with rfl | rfl <;> decide) _ _ _ _ _ data meant (.inl rfl)

theorem courseRest (h : Course s c .rest param P) : P (cmdRest c param) := by
  unfold cmdRest
  split
  · exact h.stay nofun
  split
  · refine h.call (.reply (by decide) (shortPrint ?_ (by decide))) fun _ => h.done _ (.rest _)
    simp only [List.mem_append,not_or]
    exact ⟨⟨by decide,decimalBare _⟩,by decide⟩
  · exact h.stay nofun

end Handlers

variable {s : Server} {c : Client} {command : Command} {param : Option Bytes} {P : Handler Client → Prop}

theorem course (h : Course s c command param P) : P (command.run s c param) := by
  have self : command ∉ [.cdup,.list,.nlst,.mlsd,.mfmt,.site,.stou] → ∀ path, resolveArg s c param = some path →
    Meant s c command param path := fun plain _ => meantSelf plain
  have fail : command ≠ .abor → ∀ failure, P (failing failure c) := fun other failure => h.failing failure c (.same other)
  cases command
  case abor => exact h.abor rfl
  case pass => exact h.pass rfl
  case stop => exact h.stop (.inl rfl)
  all_goals specialize fail nofun
  case user => exact courseUser h
  case quit => exact h.say (h.done _ .quit)
  case pwd => exact h.call .pwd fun _ => h.done c (.same nofun)
  case noop | syst | help | acct | allo => exact h.stay nofun
  case feat =>
    refine courseLines h ?_ (h.done c (.same nofun))
    unfold features
    cases s.tls <;> decide
  case opts | mode | stru => exact courseChoosing h nofun
  case type =>
    change P (ite _ _ _)
    split
    · exact h.stay nofun
    · exact courseChoosing h nofun
  case cwd => exact courseCwd h (.inl rfl) (self (by decide))
  case cdup => exact courseCwd h (.inr rfl) fun path resolved => by cases param <;> exact resolved
  case mkd => exact courseMkd h
  case rmd => exact courseRmd h
  case dele => exact courseDele h
  case rnfr => exact courseStatting h nofun (self (by decide)) fun _ _ meant => h.say (h.done _ (.rnfr meant))
  case rnto => exact courseRnto h
  case cpfr =>
    refine courseStatting h nofun (self (by decide)) fun _ _ meant => ?_
    split
    · exact h.call (.reply (by decide) (by split <;> decide)) fun _ => h.done _ (.cpfr meant)
    · exact fail _
  case cpto => exact courseCpto h
  case site => exact courseSite h
  case size =>
    refine courseStatting h nofun (self (by decide)) fun _ _ _ => ?_
    split
    · exact h.call (.reply (by decide) (shortPrint (decimalBare _) (by decide))) fun _ => h.done c (.same nofun)
    · exact fail _
  case mdtm =>
    refine courseStatting h nofun (self (by decide)) fun _ _ _ => ?_
    split
    · exact fail _
    · exact h.call (.reply (by decide) (shortPrint (stampBare _) (by decide))) fun _ => h.done c (.same nofun)
  case rest => exact courseRest h
  case stat => exact courseStat h
  case pasv => exact coursePasv h
  case port => exact coursePort h
  case epsv => exact courseEpsv h
  case eprt => exact courseEprt h
  case auth => exact courseAuth h
  case pbsz =>
    simp only [Command.run,cmdPbsz]
    split
    · exact h.stay nofun
    · split <;> exact h.stay nofun
  case prot =>
    simp only [Command.run,cmdProt]
    split
    · exact h.stay nofun
    split
    · exact courseAnswering h (.prot true) _ _
    split
    · exact courseAnswering h (.prot false) _ _
    · exact h.stay nofun
  case list | nlst | mlsd =>
    refine courseStatting h nofun (fun path resolved => by cases param <;> exact resolved) fun _ _ meant => ?_
    exact h.transfer (by decide) _ _ _ _ _ nofun meant (.inl rfl)
  case mlst =>
    simp only [Command.run,cmdMlst]
    split
    · exact h.stay nofun
    · exact courseStatting h nofun (self (by decide)) fun _ _ meant =>
        h.call (.line (by decide)) fun _ => h.call (.mlst meant) fun _ => h.stay nofun
  case mfmt => exact courseMfmt h
  case retr =>
    refine courseStatting h nofun (self (by decide)) fun _ _ meant => ?_
    split
    · exact h.transfer (by decide) _ _ _ _ _ nofun meant (.inl rfl)
    · exact fail _
  case stor => exact courseStoring h (.inl rfl) nofun
  case appe => exact courseStoring h (.inr rfl) nofun
  case stou =>
    refine courseUnique h rfl (h.stay nofun) (h.stay nofun) (fun name meant => ?_) 10
    exact h.transfer (by decide) _ _ _ _ _ nofun meant (.inr ⟨rfl,rfl⟩)

end OpenPs3Ftp.Commands
