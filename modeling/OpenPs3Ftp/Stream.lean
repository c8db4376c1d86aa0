import OpenPs3Ftp.Containment
import OpenPs3Ftp.Hearing

/-! The control stream and its pieces. However a stream is cut into reads and wake-ups,
the lines of its bytes are executed and the connection ends where the ear shuts. -/
namespace OpenPs3Ftp.Stream
open Lib Text Session Commands Dispatch Program Events Framing Hearing

section
variable {s : Server} {e : Ear UInt8 Bytes} {c last : Client} {moments : List Moment} {orders : List Order}

theorem heardTuned (heard : Heard s c moments orders last) (tuned : Tuned e c) (open_ : e.shut = false)
    (connected : c.connected = true) (fits : Fitting e moments) (clear : ∀ m ∈ moments, sessions m.trace = []) :
    (control.hears e (stream moments)).lines = e.lines ++ spoken orders ∧
      (last.connected = true ∧ Tuned (control.hears e (stream moments)) last ∧
        (control.hears e (stream moments)).shut = false ∨
      last.connected = false ∧ (control.hears e (stream moments)).shut = true) := by
  induction heard generalizing e with
  | rest c => exact ⟨by simp [stream,spoken],.inl ⟨connected,tuned,open_⟩⟩
  | @next m orders c' moments more last ready run later ih =>
    have first := clear m (by simp)
    have joined : spoken (orders ++ more) = spoken orders ++ spoken more := List.filterMap_append
    rw [hearsNext,joined,← List.append_assoc]
    cases momentPassed tuned open_ ready fits.1 run with
    | stays tuned' open' connected' same heard =>
      rw [← heard]
      exact ih tuned' open' connected' fits.2 fun m member => clear m (by simp [member])
    | drops gone shut heard =>
      obtain ⟨rfl,rfl,rfl⟩ := heardGone gone later
      rw [← heard]
      exact ⟨by simp [stream,spoken],.inr ⟨gone,shut⟩⟩
    | upgraded _ _ _ asked | cut _ _ _ asked => simp [first] at asked

/- One way for a stream to come in; what is left of it after the connection ended is not read. -/
structure Splitting (s : Server) (c : Client) (whole : List (Option UInt8)) (moments : List Moment)
    (orders : List Order) (last : Client) : Prop where
  heard : Heard s c moments orders last
  fits : Fitting (begun []) moments
  clear : ∀ m ∈ moments, sessions m.trace = []
  covers : ∃ rest, stream moments ++ rest = whole ∧ (last.connected = true → rest = [])

theorem acceptedTuned {peer greeting} (free : s.requireTls = false) (accepted : (acceptClient s peer).Runs greeting c) :
    Tuned (begun []) c ∧ c.connected = true := by
  rw [acceptRuns accepted,free]
  exact ⟨⟨rfl,by simp [begun],by simp [begun],rfl,rfl,rfl⟩,rfl⟩

theorem splitHeard {peer greeting whole} (free : s.requireTls = false)
    (accepted : (acceptClient s peer).Runs greeting c) (split : Splitting s c whole moments orders last) :
    spoken orders = (control.hears (begun []) whole).lines ∧
      (last.connected = false ↔ (control.hears (begun []) whole).shut = true) ∧
      (last.connected = true → last.rbuf = (control.hears (begun []) whole).tail ∧ 10 ∉ last.rbuf) := by
  obtain ⟨tuned,connected⟩ := acceptedTuned free accepted
  obtain ⟨rest,rfl,all⟩ := split.covers
  obtain ⟨lines,how⟩ := heardTuned split.heard tuned rfl connected split.fits split.clear
  have spoke : (control.hears (begun []) (stream moments)).lines = spoken orders := lines
  rcases how with ⟨here,tuned',open_⟩ | ⟨gone,shut⟩
  · rw [all here,List.append_nil]
    refine ⟨spoke.symm,by simp [here,open_],fun _ => ⟨tuned'.tail,?_⟩⟩
    rw [tuned'.tail]
    exact tuned'.within
  · rw [hearsBeyond shut]
    exact ⟨spoke.symm,by simp [gone,shut],fun here => by simp [gone] at here⟩

end

theorem chunkingIrrelevant (s : Server) (free : s.requireTls = false) (peer peer' : SockAddr)
    (greeting greeting' : List (Exchange Answer)) (c c' : Client) (accepted : (acceptClient s peer).Runs greeting c)
    (accepted' : (acceptClient s peer').Runs greeting' c') (whole : List (Option UInt8))
    (moments moments' : List Moment) (orders orders' : List Order) (last last' : Client)
    (split : Splitting s c whole moments orders last) (split' : Splitting s c' whole moments' orders' last') :
    spoken orders = spoken orders' ∧ last.connected = last'.connected ∧
      spoken orders = (control.hears (begun []) whole).lines ∧
      (last.connected = false ↔ (control.hears (begun []) whole).shut = true) ∧
      (last.connected = true → last.rbuf = (control.hears (begun []) whole).tail ∧ 10 ∉ last.rbuf) := by
  obtain ⟨lines,ends,buffer⟩ := splitHeard free accepted split
  obtain ⟨lines',ends',-⟩ := splitHeard free accepted' split'
  refine ⟨lines.trans lines'.symm,?_,lines,ends,buffer⟩
  rw [← ends'] at ends
  cases here : last.connected <;> cases here' : last'.connected <;> simp_all

def tlsServer : Server := { house with tls := true }
def strictServer : Server := { tlsServer with requireTls := true }
def received (piece : String) : List Received := [.bytes (ascii piece),.wouldBlock]

def attended (s : Server) (pieces : List String) : List Moment × List Order × Client :=
  attend s Containment.refusals { visitor with disconnectRequested := s.requireTls } (pieces.map received)

theorem acceptedNew (s) : ∃ greeting,
    (acceptClient s .unspec).Runs greeting { visitor with disconnectRequested := s.requireTls } := by
  have run := playRuns Containment.refusals (acceptClient s .unspec)
  exact ⟨_,acceptRuns run ▸ run⟩

theorem attendedSplit (s pieces) {whole} (rest)
    (shown : Fitting (begun []) (attended s pieces).1 ∧ (∀ m ∈ (attended s pieces).1, sessions m.trace = []) ∧
      stream (attended s pieces).1 ++ rest = whole ∧ ((attended s pieces).2.2.connected = true → rest = [])) :
    Splitting s { visitor with disconnectRequested := s.requireTls } whole (attended s pieces).1
      (attended s pieces).2.1 (attended s pieces).2.2 :=
  ⟨attendHeard s _ _ _,shown.1,shown.2.1,rest,shown.2.2.1,shown.2.2.2⟩

def quitting : List (Option UInt8) := (ascii "QUIT\r\n").map some

theorem quitForgotten :
    (∃ greeting, (acceptClient strictServer .unspec).Runs greeting
      { visitor with disconnectRequested := true }) ∧
    (∃ moments last, Splitting strictServer { visitor with disconnectRequested := true } quitting moments
      [.line (ascii "QUIT")] last) ∧
    (∃ moments last, Splitting strictServer { visitor with disconnectRequested := true } quitting moments
      [] last) ∧
    ∃ moments last, Heard tlsServer visitor moments [.line (ascii "AUTH TLS")] last ∧
      last.connected = false ∧ (control.hears (begun []) (stream moments)).shut = false := by
  have pieces : (attended strictServer ["QUIT\r\n"]).2.1 = [.line (ascii "QUIT")] ∧
      (attended strictServer ["QU","IT\r\n"]).2.1 = [] := by decide +kernel
  have first := @attendedSplit strictServer ["QUIT\r\n"] quitting [] (by decide +kernel)
  have second := @attendedSplit strictServer ["QU","IT\r\n"] quitting ((ascii "IT\r\n").map some) (by decide +kernel)
  rw [pieces.1] at first
  rw [pieces.2] at second
  have third := attendHeard tlsServer Containment.refusals visitor [received "AUTH TLS\r\n"]
  have refused : (attend tlsServer Containment.refusals visitor [received "AUTH TLS\r\n"]).2.1 =
        [.line (ascii "AUTH TLS")] ∧
      (attend tlsServer Containment.refusals visitor [received "AUTH TLS\r\n"]).2.2.connected = false ∧
      (control.hears (begun []) (stream
        (attend tlsServer Containment.refusals visitor [received "AUTH TLS\r\n"]).1)).shut = false := by
    decide +kernel
  rw [refused.1] at third
  exact ⟨acceptedNew strictServer,⟨_,_,first⟩,⟨_,_,second⟩,⟨_,_,third,refused.2⟩⟩

def greetingPieces : List String := ["NO","OP\nQUIT\nHELP\n"]

theorem chunkingIrrelevantQuit :
    spoken (attended house ["NOOP\nQUIT\nHELP\n"]).2.1 = spoken (attended house greetingPieces).2.1 ∧
      spoken (attended house greetingPieces).2.1 = [ascii "NOOP",ascii "QUIT"] := by
  obtain ⟨greeting,accepted⟩ := acceptedNew house
  refine ⟨(chunkingIrrelevant house rfl .unspec .unspec greeting greeting _ _ accepted accepted
    ((ascii "NOOP\nQUIT\nHELP\n").map some) _ _ _ _ _ _ (attendedSplit _ _ [] ?_)
    (attendedSplit _ _ [] ?_)).1,by decide +kernel⟩
  all_goals decide +kernel

end OpenPs3Ftp.Stream
