import Mathlib.Data.List.Nodup
import OpenPs3Ftp.Pollset
import OpenPs3Ftp.Conversation

/-! `opftp_reactor_loop` with its pollset and its list of clients (`server.c`). Handling an
event is a sequence of turns of the client and then a look at its disconnect request.
Workers are seen through their completions only, and any thread may ask for a client to
be disconnected at any time. An address can be used again for a new client. -/
namespace OpenPs3Ftp.Loop
open Lib Text Fs Session Commands Program Events Pollset

structure Entry where
  ptr : Ptr
  fd : Fd
  handle : Nat
  client : Client

inductive Phase where
  | top
  | polled
  | serving (left : List (Option Ptr × Mask))
  | accepting (left : List (Option Ptr × Mask))
  | handling (ptr : Ptr) (left : List (Option Ptr × Mask))
  | dropping
  | ended

structure State where
  pollset : Pollset
  clients : List Entry
  phase : Phase

inductive Act where
  | wait (report : Nat → Mask)
  | failed
  | complete (ptr : Ptr) (played : Played)
  | collect
  | skip
  | listen
  | accept (ptr : Ptr) (fd : Fd) (peer : SockAddr)
  | accepted
  | event (ptr : Ptr) (mask : Mask)
  | turn (ptr : Ptr) (played : Played)
  | mod (ptr : Ptr) (events : Mask)
  | settle
  | disconnect (ptr : Ptr)
  | stopped
  | served
  | leave
  | drop (ptr : Ptr)
  | close
  | request (ptr : Ptr)

/- `OPFTP_SNAPSHOT_MAX_CLIENTS + 4`. -/
def copyMax : Nat := 20

def Completes : Turn → Prop
  | .complete _ => True
  | _ => False

def revised (clients : List Entry) (ptr : Ptr) (client : Client) : List Entry :=
  clients.map fun e => if e.ptr = ptr then { e with client } else e

/- `client_disconnect`, as far as the loop is concerned. -/
def removed (st : State) (e : Entry) (phase : Phase) : State :=
  ⟨remove st.pollset e.handle,st.clients.eraseP (·.ptr = e.ptr),phase⟩

inductive Step (s : Server) : State → Act → State → Prop where
  | wait {st} (report) (at_ : st.phase = .top) :
      Step s st (.wait report) { st with pollset := Pollset.wait st.pollset report, phase := .polled }
  | failed {st} (at_ : st.phase = .top) : Step s st .failed { st with phase := .dropping }
  /- The completions are drained after each poll and before the clients are dropped. -/
  | complete {st e p c'} (at_ : st.phase = .polled ∨ st.phase = .dropping) (here : e ∈ st.clients) (kind : Completes p.turn)
      (step : (connection s).step e.client p c') :
      Step s st (.complete e.ptr p) { st with clients := revised st.clients e.ptr c' }
  | collect {st} (at_ : st.phase = .polled) :
      Step s st .collect { st with phase := .serving (Pollset.collect st.pollset copyMax) }
  | skip {st mask left} (at_ : st.phase = .serving ((none,mask) :: left)) (quiet : mask &&& pollin = 0) :
      Step s st .skip { st with phase := .serving left }
  | listen {st mask left} (at_ : st.phase = .serving ((none,mask) :: left)) (asked : mask &&& pollin ≠ 0) :
      Step s st .listen { st with phase := .accepting left }
  /- A new object is where no client of the list is. -/
  | accept {st left ptr fd peer greeting c} (at_ : st.phase = .accepting left) (fresh : ptr ∉ st.clients.map Entry.ptr)
      (run : (acceptClient s peer).Runs greeting c) :
      Step s st (.accept ptr fd peer)
        { st with pollset := (add st.pollset fd (pollin ||| pollpri) (some ptr)).2
                  clients := ⟨ptr,fd,(add st.pollset fd (pollin ||| pollpri) (some ptr)).1,c⟩ :: st.clients }
  | accepted {st left} (at_ : st.phase = .accepting left) : Step s st .accepted { st with phase := .serving left }
  | event {st ptr mask left} (at_ : st.phase = .serving ((some ptr,mask) :: left)) :
      Step s st (.event ptr mask) { st with phase := .handling ptr left }
  | turn {st e left p c'} (at_ : st.phase = .handling e.ptr left) (here : e ∈ st.clients) (kind : p.turn ≠ .drop)
      (step : (connection s).step e.client p c') :
      Step s st (.turn e.ptr p) { st with clients := revised st.clients e.ptr c' }
  | mod {st e left} (events) (at_ : st.phase = .handling e.ptr left) (here : e ∈ st.clients) :
      Step s st (.mod e.ptr events) { st with pollset := Pollset.mod st.pollset e.handle events }
  | settle {st e left} (at_ : st.phase = .handling e.ptr left) (here : e ∈ st.clients)
      (calm : e.client.disconnectRequested = false) : Step s st .settle { st with phase := .serving left }
  | disconnect {st e left} (at_ : st.phase = .handling e.ptr left) (here : e ∈ st.clients)
      (asked : e.client.disconnectRequested = true) : Step s st (.disconnect e.ptr) (removed st e (.serving left))
  /- A stop that was asked for ends the loop over the copy and then the loop. -/
  | stopped {st left} (at_ : st.phase = .serving left) : Step s st .stopped { st with phase := .dropping }
  | served {st} (at_ : st.phase = .serving []) : Step s st .served { st with phase := .top }
  | leave {st} (at_ : st.phase = .top) : Step s st .leave { st with phase := .dropping }
  | drop {st e rest} (at_ : st.phase = .dropping) (first : st.clients = e :: rest) :
      Step s st (.drop e.ptr) (removed st e .dropping)
  | close {st} (at_ : st.phase = .dropping) (none_ : st.clients = []) : Step s st .close { st with phase := .ended }
  | request {st e} (here : e ∈ st.clients) :
      Step s st (.request e.ptr)
        { st with clients := revised st.clients e.ptr { e.client with disconnectRequested := true } }

def Start (st : State) : Prop :=
  ∃ wakeR listenFd, st = ⟨(add (create wakeR) listenFd pollin none).2,[],.top⟩

def loop (s : Server) : System State Act where
  start := Start
  step := Step s

def opened (wakeR listenFd : Fd) : State := ⟨(add (create wakeR) listenFd pollin none).2,[],.top⟩

def arrival (s : Server) : Client := { visitor with disconnectRequested := s.requireTls }

def listening : State :=
  { opened 3 4 with pollset := Pollset.wait (opened 3 4).pollset fun _ => pollin, phase := .accepting [] }

def joined (s : Server) (st : State) (n : Nat) : State :=
  { st with pollset := (add st.pollset (n + 5) (pollin ||| pollpri) (some n)).2
            clients := ⟨n,n + 5,(add st.pollset (n + 5) (pollin ||| pollpri) (some n)).1,arrival s⟩ :: st.clients }

def crowd (s : Server) : Nat → State
  | 0 => listening
  | n + 1 => joined s (crowd s n) n

def gathered (s : Server) (n : Nat) : State := { crowd s n with phase := .top }

theorem crowdBelow (s n) : (crowd s n).phase = .accepting [] ∧
    ∀ e ∈ (crowd s n).clients, e.ptr < n ∧ e.client.disconnectRequested = s.requireTls := by
  induction n with
  | zero => exact ⟨rfl,by simp [crowd,listening,opened]⟩
  | succ n ih =>
    refine ⟨ih.1,fun e member => ?_⟩
    rcases List.mem_cons.mp member with rfl | member
    · exact ⟨Nat.lt_succ_self n,rfl⟩
    · exact ⟨Nat.lt_succ_of_lt (ih.2 e member).1,(ih.2 e member).2⟩

theorem gatheredReach {s ok} (n) (met : ∀ st act, (∀ ptr, act ≠ .request ptr) → ok st act) :
    (loop s).Reach ok (gathered s n) := by
  have here : (loop s).Reach ok (crowd s n) := by
    induction n with
    | zero =>
      have path : (loop s).Path (opened 3 4) [.wait fun _ => pollin,.collect,.listen] listening :=
        .cons (.wait _ rfl) (.cons (.collect rfl) (.cons (.listen rfl (by decide)) (.nil _)))
      exact path.reach (fun act member st => met st act (by rintro ptr rfl; simp at member)) (.start ⟨3,4,rfl⟩)
    | succ n ih =>
      obtain ⟨at_,below⟩ := crowdBelow s n
      have greeted := playRuns (obliging (.error .enoent)) (acceptClient s .unspec)
      rw [acceptRuns greeted] at greeted
      have fresh : n ∉ (crowd s n).clients.map Entry.ptr := by
        intro member
        obtain ⟨e,there,same⟩ := List.mem_map.mp member
        exact Nat.lt_irrefl n (same ▸ (below e there).1)
      exact .step ih (met _ _ (by simp)) (.accept at_ fresh greeted)
  have path : (loop s).Path (crowd s n) [.accepted,.served] (gathered s n) :=
    .cons (.accepted (crowdBelow s n).1) (.cons (.served rfl) (.nil _))
  exact path.reach (fun act member st => met st act (by rintro ptr rfl; simp at member)) here

/- A pass over three clients in which the second one sends QUIT. -/
def quitting : Utterance := ⟨"QUIT",obliging (.error .enoent)⟩
def leaver : Entry := ⟨1,6,3,{ visitor with disconnectRequested := true }⟩
def polled : State := { gathered house 3 with pollset := Pollset.wait (gathered house 3).pollset fun _ => pollin, phase := .polled }
def asked : State := { polled with clients := revised polled.clients 1 leaver.client, phase := .handling 1 [(some 2,pollin)] }
def parted : State := removed asked leaver (.serving [(some 2,pollin)])

def asking : List Act :=
  [.collect,.listen,.accepted,.event 0 pollin,.settle,.event 1 pollin,.turn 1 (quitting.played house visitor)]

theorem quitStep : (connection house).step visitor (quitting.played house visitor) leaver.client := by
  have left : (quitting.run house visitor).2 = leaver.client := by decide +kernel
  rw [← left]
  exact spokenStep ⟨rfl,rfl⟩

theorem askedPath : (loop house).Path polled asking asked :=
  .cons (.collect rfl) (.cons (.listen rfl (by decide)) (.cons (.accepted rfl) (.cons (.event rfl)
    (.cons (.settle (e := ⟨0,5,2,visitor⟩) rfl (.tail _ (.tail _ (.head _))) rfl) (.cons (.event rfl)
      (.cons (.turn (e := ⟨1,6,3,visitor⟩) rfl (.tail _ (.head _)) nofun quitStep) (.nil _)))))))

theorem partedPath : (loop house).Path asked [.disconnect 1] parted :=
  .cons (.disconnect (e := leaver) rfl (.tail _ (.head _)) rfl) (.nil _)

theorem restedPath : (loop house).Path parted ([.event 2 pollin,.settle] ++ [.served]) { parted with phase := .top } :=
  .cons (.event rfl) (.cons (.settle (e := ⟨2,7,4,visitor⟩) rfl (.head _) rfl) (.cons (.served rfl) (.nil _)))

theorem revisedMember {clients e} (here : e ∈ clients) (client) : { e with client } ∈ revised clients e.ptr client :=
  List.mem_map.mpr ⟨e,here,if_pos rfl⟩

theorem revisedAgain (clients ptr client client') :
    revised (revised clients ptr client) ptr client' = revised clients ptr client' := by
  simp only [revised,List.map_map]
  refine List.map_congr_left fun e _ => ?_
  by_cases same : e.ptr = ptr <;> simp [same]

theorem revisedSame {clients e} (here : e ∈ clients) (once : (clients.map Entry.ptr).Nodup) :
    revised clients e.ptr e.client = clients := by
  refine (List.map_congr_left fun other member => ?_).trans (List.map_id clients)
  split
  · rename_i same
    rw [List.inj_on_of_nodup_map once member here same]
    rfl
  · rfl

theorem openTurns {s c d plays} (path : (connection s).Path c plays d) (still : d.connected = true) :
    ∀ p ∈ plays, p.turn ≠ .drop := by
  induction path with
  | nil => simp
  | @cons c p c' plays d moved later ih =>
    intro q member
    rcases List.mem_cons.mp member with rfl | member
    · intro drop
      have open_ : c'.connected = true := by
        cases later with
        | nil => exact still
        | cons next _ => exact turnConnected next
      simp [droppedGone moved drop] at open_
    · exact ih still q member

theorem revisedPtrs (clients ptr client) : (revised clients ptr client).map Entry.ptr = clients.map Entry.ptr := by
  rw [revised,List.map_map]
  refine List.map_congr_left fun e _ => ?_
  simp only [Function.comp]
  split <;> rfl

theorem turnsPath {s st e left d plays} (at_ : st.phase = .handling e.ptr left) (here : e ∈ st.clients)
    (once : (st.clients.map Entry.ptr).Nodup) (path : (connection s).Path e.client plays d)
    (kinds : ∀ p ∈ plays, p.turn ≠ .drop) :
    (loop s).Path st (plays.map (.turn e.ptr)) { st with clients := revised st.clients e.ptr d } := by
  generalize same : e.client = c at path
  induction path generalizing st e with
  | nil c =>
    subst same
    rw [revisedSame here once]
    exact .nil st
  | @cons c p c' plays d moved later ih =>
    subst same
    refine .cons (.turn at_ here (kinds p List.mem_cons_self) moved) ?_
    have ptrs : ((revised st.clients e.ptr c').map Entry.ptr).Nodup := by
      rw [revisedPtrs]
      exact once
    have next := @ih { st with clients := revised st.clients e.ptr c' } { e with client := c' } at_
      (revisedMember here c') ptrs (fun q member => kinds q (List.mem_cons_of_mem _ member)) rfl
    rw [revisedAgain] at next
    exact next

theorem erasedApart {clients : List Entry} (once : (clients.map Entry.ptr).Nodup) (ptr) :
    ∀ other ∈ clients.eraseP (·.ptr = ptr), other.ptr ≠ ptr := by
  induction clients with
  | nil => simp
  | cons e clients ih =>
    obtain ⟨apart,later⟩ := List.nodup_cons.mp once
    intro other member
    by_cases same : e.ptr = ptr
    · rw [List.eraseP_cons_of_pos (by simpa using same)] at member
      intro again
      exact apart (List.mem_map.mpr ⟨other,member,again.trans same.symm⟩)
    rw [List.eraseP_cons_of_neg (by simpa using same)] at member
    rcases List.mem_cons.mp member with rfl | member
    · exact same
    · exact ih later other member

theorem revisedErased {clients : List Entry} (once : (clients.map Entry.ptr).Nodup) (ptr client) :
    (revised clients ptr client).eraseP (·.ptr = ptr) = clients.eraseP (·.ptr = ptr) := by
  have same : ((fun e : Entry => decide (e.ptr = ptr)) ∘ fun e => if e.ptr = ptr then { e with client } else e) =
      fun e => decide (e.ptr = ptr) := by
    funext e
    simp only [Function.comp]
    split <;> rfl
  rw [revised,List.eraseP_map,same]
  refine (List.map_congr_left fun other member => ?_).trans (List.map_id _)
  rw [if_neg (erasedApart once ptr other member)]
  rfl

def handled (st : State) (e : Entry) (left : List (Option Ptr × Mask)) (d : Client) : State :=
  match d.connected with
  | true => { st with clients := revised st.clients e.ptr d, phase := .serving left }
  | false => removed st e (.serving left)

def noop : Trace × Client :=
  (handleClientEvents house ⟨false,true,false⟩ [.bytes (ascii "NOOP\r\n")] visitor).play (obliging (.error .enoent))

end OpenPs3Ftp.Loop
