import OpenPs3Ftp.Stream
import OpenPs3Ftp.Tls

/-! AUTH TLS on the control channel: the bytes that the receive callback of the new
session is given, and what is executed once the session is there. -/
namespace OpenPs3Ftp.Upgrade
open Lib Text Session Commands Dispatch Program Events Framing Hearing Tls
open OpenPs3Ftp.Stream (tlsServer)

structure Request where
  len : Nat
  ready : Nat

def recv (socket : Bytes) (r : Request) : Received :=
  match socket.take (min r.len r.ready) with
  | [] => .wouldBlock
  | b :: chunk => .bytes (b :: chunk)

structure Feed where
  session : TlsSession
  socket : Bytes
  delivered : Bytes

namespace Feed

def serve (f : Feed) (r : Request) : Feed :=
  match bioRecv f.session r.len (recv f.socket r) with
  | (.bytes chunk,session) =>
    ⟨session,if f.session.pending = [] then f.socket.drop chunk.length else f.socket,f.delivered ++ chunk⟩
  | (_,session) => { f with session }

def served (f : Feed) (requests : List Request) : Feed := requests.foldl serve f
def total (f : Feed) : Bytes := f.delivered ++ f.session.pending ++ f.socket

theorem serveCases (f : Feed) (r : Request) :
    f.session.pending ≠ [] ∧ (f.serve r).delivered = f.delivered ++ f.session.pending.take r.len ∧
      (f.serve r).session.pending = f.session.pending.drop r.len ∧ (f.serve r).socket = f.socket ∨
    f.session.pending = [] ∧ (f.serve r).delivered = f.delivered ++ f.socket.take (min r.len r.ready) ∧
      (f.serve r).session.pending = [] ∧ (f.serve r).socket = f.socket.drop (min r.len r.ready) := by
  by_cases empty : f.session.pending = []
  · right
    cases taken : f.socket.take (min r.len r.ready) with
    | nil =>
      have same : f.serve r = f := by simp [serve,bioRecv,recv,empty,taken]
      have stays : f.socket.drop (min r.len r.ready) = f.socket := by
        have whole := List.take_append_drop (min r.len r.ready) f.socket
        rwa [taken,List.nil_append] at whole
      rw [same,stays,List.append_nil]
      exact ⟨empty,rfl,empty,rfl⟩
    | cons b chunk =>
      have size : (b :: chunk).length = min (min r.len r.ready) f.socket.length := by
        rw [← taken,List.length_take]
      have all : (b :: chunk).take r.len = b :: chunk := List.take_of_length_le (by omega)
      have after : f.socket.drop (b :: chunk).length = f.socket.drop (min r.len r.ready) := by
        have whole := List.take_append_drop (min r.len r.ready) f.socket
        rw [taken] at whole
        conv_lhs => rw [← whole]
        exact List.drop_left
      simp only [serve,bioRecv,recv,taken,empty,if_true,all,after,true_and]
  · exact .inl (by simp [serve,bioRecv,empty])

theorem serveTotal (f : Feed) (r) : (f.serve r).total = f.total := by
  rcases serveCases f r with ⟨-,given_,pending,socket⟩ | ⟨empty,given_,pending,socket⟩
  · rw [total,given_,pending,socket,List.append_assoc f.delivered,List.take_append_drop,total]
  · rw [total,given_,pending,socket,List.append_nil,List.append_assoc,List.take_append_drop,total,empty,
      List.append_nil]

theorem servedTotal (f : Feed) (requests) : (f.served requests).total = f.total := by
  induction requests generalizing f with
  | nil => rfl
  | cons r requests ih => exact (ih (f.serve r)).trans (serveTotal f r)

theorem serveMore (f : Feed) {r : Request} (asks : 0 < r.len) (ready : 0 < r.ready) :
    min (f.delivered.length + 1) f.total.length ≤ (f.serve r).delivered.length := by
  rcases serveCases f r with ⟨some_,given_,-,-⟩ | ⟨empty,given_,-,-⟩
  · have positive : 0 < f.session.pending.length := List.length_pos_iff.mpr some_
    rw [given_,List.length_append,List.length_take]
    omega
  · rw [given_,List.length_append,List.length_take,total,empty]
    simp
    omega

theorem servedMore (f : Feed) {requests : List Request} (eager : ∀ r ∈ requests, 0 < r.len ∧ 0 < r.ready) :
    min (f.delivered.length + requests.length) f.total.length ≤ (f.served requests).delivered.length := by
  induction requests generalizing f with
  | nil => exact Nat.min_le_left _ _
  | cons r requests ih =>
    have first := serveMore f (eager r (by simp)).1 (eager r (by simp)).2
    have rest := ih (f.serve r) fun r member => eager r (by simp [member])
    rw [serveTotal] at rest
    have same : (f.served (r :: requests)) = (f.serve r).served requests := rfl
    rw [same,List.length_cons]
    omega

theorem servedAll (f : Feed) {requests : List Request} (eager : ∀ r ∈ requests, 0 < r.len ∧ 0 < r.ready)
    (enough : f.total.length ≤ requests.length) : (f.served requests).delivered = f.total := by
  have more := servedMore f eager
  have whole := servedTotal f requests
  have size := congrArg List.length whole
  rw [total,List.append_assoc] at whole size
  rw [List.length_append] at size
  have none : (f.served requests).session.pending ++ (f.served requests).socket = [] :=
    List.length_eq_zero_iff.mp (by omega)
  rwa [none,List.append_nil] at whole

end Feed

def opened (pending socket : Bytes) (deadline : Int) : Feed := ⟨sessionCreate pending deadline,socket,[]⟩

theorem openedTotal (pending socket deadline) :
    (opened pending socket deadline).total = pending.take tlsPending ++ socket := rfl

theorem openedWhole {pending socket deadline} :
    (opened pending socket deadline).total = pending ++ socket ↔ pending.length ≤ tlsPending := by
  rw [openedTotal,List.append_left_inj,List.take_eq_self_iff]

structure Lasting (c c' : Client) : Prop where
  tls : c.tls = true → c'.tls = true
  leaving : c.disconnectRequested = true → c'.disconnectRequested = true

variable {c c' : Client} {trace : Trace}

theorem judgedLasting {text} (judged : Judged c text trace c') : Lasting c c' := by
  cases judged with
  | calm plain leaving => exact ⟨fun tls => plain.2.1.trans tls,fun asked => by rw [leaving,asked,Bool.true_or]⟩
  | upgraded _ _ after => exact ⟨fun _ => after.tls,fun asked => after.leaving.trans asked⟩
  | refused _ before _ _ leaving => exact ⟨fun tls => by simp [before] at tls,fun _ => leaving⟩

variable {s : Server}

theorem stayingLasting {p} (step : (connection s).step c p c') (stays : p.turn ≠ .drop) : Lasting c c' := by
  obtain ⟨root,turn,trace⟩ := p
  obtain ⟨ready,run⟩ := step
  cases turn with
  | line text => exact judgedLasting (lineJudged ready.2 (lineRuns run))
  | urgent =>
    obtain ⟨rest,-,abort⟩ := urgentRuns run
    cases abortRuns abort <;> exact ⟨id,id⟩
  | buffer rbuf =>
    obtain ⟨-,rfl⟩ := runsDone.mp run
    exact ⟨id,id⟩
  | leave =>
    obtain ⟨-,rfl⟩ := runsDone.mp run
    exact ⟨id,fun _ => rfl⟩
  | shake =>
    obtain ⟨result,-,rfl⟩ := runsOnce run
    cases result <;> exact ⟨id,fun asked => by simp [shaken,asked]⟩
  | drop => exact absurd rfl stays
  | complete posted => cases completeRuns run <;> exact ⟨id,id⟩

theorem turnLasting {p} (step : (connection s).step c p c') : c'.connected = false ∨ Lasting c c' := by
  by_cases dropped : p.turn = .drop
  · exact .inl (droppedGone step dropped)
  · exact .inr (stayingLasting step dropped)

theorem partedLasting (parted : Parted s c trace c') :
    c'.connected = false ∨ Lasting c c' := by
  obtain ⟨plays,path,-⟩ := parted
  refine @Lib.System.Path.kept _ _ _ (fun d => d.connected = false ∨ Lasting c d) (fun d p d' kept step => ?_) _ _ _ path
    (.inr ⟨id,id⟩)
  have here := turnConnected step
  have so_far := kept.resolve_left (by simp [here])
  exact (turnLasting step).imp_right fun next => ⟨next.tls ∘ so_far.tls,next.leaving ∘ so_far.leaving⟩

variable {last : Client} {moments : List Moment} {orders : List Order}

theorem heardLasting (heard : Heard s c moments orders last) : last.connected = false ∨ Lasting c last :=
  partedLasting (livesParted (livesHeard.mpr ⟨orders,heard⟩))

variable {revents : Revents} {received : List Received}

theorem eventStays (run : (handleClientEvents s revents received c).Runs trace c') :
    c'.connected = false ∨ c'.disconnectRequested = false := by
  have finished : ∀ {d : Client} {trace : Trace}, (finishEvent d).Runs trace c' →
      c'.connected = false ∨ c'.disconnectRequested = false := by
    intro d trace run
    rcases finishRuns run with ⟨-,gone⟩ | ⟨staying,rfl,-⟩
    · exact .inl gone
    · exact .inr staying
  unfold handleClientEvents at run
  split at run
  · obtain ⟨result,rest,-,last⟩ := runsInvoke run
    exact finished last
  · obtain ⟨_,_,_,-,-,next⟩ := runsBind.mp run
    obtain ⟨_,_,_,-,-,last⟩ := runsBind.mp next
    exact finished last

theorem eventLeaves (connected : c.connected = true) (leaving : c.disconnectRequested = true)
    (run : (handleClientEvents s revents received c).Runs trace c') : c'.connected = false := by
  rcases partedLasting (eventParted connected run) with gone | lasting
  · exact gone
  · exact (eventStays run).resolve_right (by simp [lasting.leaving leaving])

variable {m : Moment}

theorem heardSplit (heard : Heard s c (moments ++ [m]) orders last) :
    ∃ first now, orders = first ++ now ∧ Heard s c moments first m.client ∧ m.happening.Ready m.client ∧
      (happeningLog (m.server s) m.client m.happening).Runs m.trace (now,last) := by
  induction moments generalizing c orders with
  | nil =>
    cases heard with
    | next ready run later =>
      cases later
      exact ⟨[],_,by simp,.rest _,ready,run⟩
  | cons n moments ih =>
    cases heard with
    | next ready run later =>
      obtain ⟨first,now,rfl,before,last⟩ := ih later
      exact ⟨_,now,(List.append_assoc _ _ _).symm,.next ready run before,last⟩

section Before
variable {s : Server} {e : Ear UInt8 Bytes} {c last : Client} {moments : List Moment} {orders : List Order}

theorem heardPlain (heard : Heard s c moments orders last) (tuned : Tuned e c) (open_ : e.shut = false)
    (connected : c.connected = true) (fits : Fitting e moments) (here : last.connected = true) (clear : last.tls = false) :
    Tuned (control.hears e (stream moments)) last ∧ (control.hears e (stream moments)).shut = false ∧
      (control.hears e (stream moments)).lines = e.lines ++ spoken orders := by
  induction heard generalizing e with
  | rest c => exact ⟨tuned,open_,by simp [stream,spoken]⟩
  | @next m orders c' moments more last ready run later ih =>
    have joined : spoken (orders ++ more) = spoken orders ++ spoken more := List.filterMap_append
    rw [hearsNext,joined,← List.append_assoc]
    have stays : c'.connected = true := by
      cases gone : c'.connected with
      | true => rfl
      | false =>
        obtain ⟨-,-,rfl⟩ := heardGone gone later
        exact gone.symm.trans here
    cases momentPassed tuned open_ ready fits.1 run with
    | stays tuned' open' connected' same heard =>
      rw [← heard]
      exact ih tuned' open' connected' fits.2 here clear
    | drops gone | cut _ _ _ _ _ gone => simp [gone] at stays
    | upgraded _ _ _ _ _ _ _ after =>
      rcases heardLasting later with gone | lasting
      · simp [gone] at here
      · simp [lasting.tls after.2.1] at clear

theorem heardLeaving (heard : Heard s c moments orders last) (leaving : c.disconnectRequested = true)
    (plain : c.tlsHandshaking = false) : last.connected = false ∨ last.tlsHandshaking = false := by
  induction heard with
  | rest c => exact .inr plain
  | @next m orders c' moments more last ready run later ih =>
    cases same : m.happening with
    | event revents received =>
      rw [same] at ready run
      have gone := eventLeaves ready leaving (eventRan run)
      obtain ⟨-,-,rfl⟩ := heardGone gone later
      exact .inl gone
    | completion posted =>
      rw [same] at run
      obtain ⟨first,c₁,second,-,completed,done⟩ := runsBind.mp run
      obtain ⟨-,-,rfl⟩ := runsPair.mp done
      cases completeRuns completed <;> exact ih leaving plain

end Before

theorem readyConnected {h : Happening} (ready : h.Ready c) : c.connected = true := by
  cases h with
  | event => exact ready
  | completion => exact ready.1

variable {e : Ear UInt8 Bytes}

theorem fittingSplit (fits : Fitting e (moments ++ [m])) :
    Fitting e moments ∧ MomentFits (control.hears e (stream moments)) m := by
  induction moments generalizing e with
  | nil => exact ⟨trivial,fits.1⟩
  | cons n moments ih =>
    obtain ⟨now,later⟩ := ih fits.2
    refine ⟨⟨fits.1,now⟩,?_⟩
    have whole : stream (n :: moments) = momentSignals n ++ stream moments := by simp [stream]
    rwa [whole,hearsAppend]

structure AuthTaken (s : Server) (moments : List Moment) (m : Moment) (orders : List Order) (c : Client) : Prop where
  heard : ∃ peer greeting first, (acceptClient s peer).Runs greeting first ∧ Heard s first (moments ++ [m]) orders c
  fits : Fitting (begun []) (moments ++ [m])
  before : m.client.tls = false
  connected : c.connected = true
  shaking : c.tlsHandshaking = true

/- What is left of the stream after the line, and what was read ahead of it. -/
structure Ahead (moments : List Moment) (m : Moment) (orders : List Order) (c : Client) (pending : Bytes) : Prop where
  split : ∃ front rest, stream (moments ++ [m]) = front ++ (pending.map some ++ rest) ∧
    front.getLast? = some (some 10) ∧ control.hears (begun []) front = begun (spoken orders)
  asking : Asking (spoken orders)
  asked : (pending,true) ∈ sessions m.trace
  after : c.rbuf = [] ∧ c.tls = true ∧ c.tlsHandshaking = true ∧ c.disconnectRequested = false

theorem takenAhead (taken : AuthTaken s moments m orders c) : ∃ pending, Ahead moments m orders c pending := by
  obtain ⟨⟨peer,greeting,first,accepted,heard⟩,fits,clear,here,shaking⟩ := taken
  cases free : s.requireTls with
  | true =>
    have fresh := acceptRuns accepted
    have out := heardLeaving heard (by rw [fresh,free]) (by rw [fresh]; rfl)
    simp [here,shaking] at out
  | false =>
    obtain ⟨tuned,connected⟩ := Stream.acceptedTuned free accepted
    obtain ⟨before,now,rfl,earlier,ready,run⟩ := heardSplit heard
    obtain ⟨fit,fits⟩ := fittingSplit fits
    obtain ⟨tuned,open_,lines⟩ := heardPlain earlier tuned rfl connected fit (readyConnected ready) clear
    have joined : spoken (before ++ now) = spoken before ++ spoken now := List.filterMap_append
    have whole : stream (moments ++ [m]) = stream moments ++ momentSignals m := by simp [stream]
    cases momentPassed tuned open_ ready fits run with
    | stays tuned => simp [tuned.plain] at shaking
    | drops gone | cut _ _ _ _ _ gone => simp [gone] at here
    | @upgraded front pending rest split ended heard asked asking _ _ after =>
      have heard : control.hears (begun []) (stream moments ++ front) = begun (spoken (before ++ now)) := by
        rw [hearsAppend,heard,lines,joined]
        rfl
      have some_ : stream moments ++ front ≠ [] := List.ne_nil_of_mem (List.mem_append_right _ ended)
      refine ⟨pending,⟨stream moments ++ front,rest,?_,hearsEnded some_ heard,heard⟩,?_,asked,after⟩
      · rw [whole,split,List.append_assoc]
      · rw [joined]
        exact askingLater _ asking

/- Whatever the library asks for and however the rest of the stream arrives, nothing is
lost or repeated, exactly if what was read ahead fits the session. -/
theorem upgradeConserves (s : Server) (moments : List Moment) (m : Moment) (orders : List Order) (c : Client)
    (taken : AuthTaken s moments m orders c) :
    ∃ pending, Ahead moments m orders c pending ∧
      (∀ socket deadline requests,
        ((opened pending socket deadline).served requests).total = pending ++ socket ↔ pending.length ≤ tlsPending) ∧
      (pending.length ≤ tlsPending → ∀ socket deadline requests, (∀ r ∈ requests, 0 < r.len ∧ 0 < r.ready) →
        (pending ++ socket).length ≤ requests.length →
        ((opened pending socket deadline).served requests).delivered = pending ++ socket) := by
  obtain ⟨pending,ahead⟩ := takenAhead taken
  refine ⟨pending,ahead,fun socket deadline requests => ?_,fun short socket deadline requests eager enough => ?_⟩
  · rw [Feed.servedTotal]
    exact openedWhole
  · have whole := (@openedWhole pending socket deadline).mpr short
    rw [Feed.servedAll _ eager (by rw [whole]; exact enough),whole]

def applied (moments : List Moment) : Bytes := (stream moments).filterMap id

def Urged (moments : List Moment) : Prop :=
  ∃ m ∈ moments, ∃ revents received, m.happening = .event revents received ∧ m.client.tlsHandshaking = false ∧
    revents.pollpri = true

theorem eventUrged (run : (eventLog s revents received c).Runs trace (orders,c')) :
    Order.urgent ∈ orders ↔ c.tlsHandshaking = false ∧ revents.pollpri = true := by
  unfold eventLog at run
  split at run
  · rename_i shaking
    obtain ⟨_,_,_,-,-,done⟩ := runsBind.mp run
    obtain ⟨-,rfl,-⟩ := runsPair.mp done
    simp [shaking]
  rename_i plain
  obtain ⟨_,_,_,-,-,next⟩ := runsBind.mp run
  obtain ⟨_,⟨lines,_⟩,_,-,-,last⟩ := runsBind.mp next
  obtain ⟨_,_,_,-,-,done⟩ := runsBind.mp last
  obtain ⟨-,rfl,-⟩ := runsPair.mp done
  cases revents.pollpri <;> simp [plain]

theorem heardUrged (heard : Heard s c moments orders last) : Order.urgent ∈ orders ↔ Urged moments := by
  induction heard with
  | rest c => simp [Urged]
  | @next m orders c' moments more last ready run later ih =>
    have now : Order.urgent ∈ orders ↔ ∃ revents received, m.happening = .event revents received ∧
        m.client.tlsHandshaking = false ∧ revents.pollpri = true := by
      cases same : m.happening with
      | event revents received =>
        rw [same] at run
        rw [eventUrged run]
        exact ⟨fun urged => ⟨revents,received,rfl,urged⟩,fun ⟨_,_,same,urged⟩ => by cases same; exact urged⟩
      | completion posted =>
        rw [same] at run
        obtain ⟨_,_,_,-,-,done⟩ := runsBind.mp run
        obtain ⟨-,rfl,-⟩ := runsPair.mp done
        simp
    rw [List.mem_append,now,ih]
    simp [Urged,exists_eq_or_imp]

theorem ordersSpoken (calm : Order.urgent ∉ orders) : orders = (spoken orders).map .line := by
  induction orders with
  | nil => rfl
  | cons order orders ih =>
    cases order with
    | urgent => simp at calm
    | line text => exact congrArg (.line text :: ·) (ih fun member => calm (List.mem_cons_of_mem _ member))

inductive Stage (e : Ear UInt8 Bytes) (c : Client) : Prop where
  | shaking (buffer : c.rbuf = []) (shakes : c.tlsHandshaking = true) (staying : c.disconnectRequested = false)
      (fresh : e = begun e.lines)
  | secured (tuned : Tuned e c) (open_ : e.shut = false)

theorem shakenStage {result} (buffer : c.rbuf = []) (shakes : c.tlsHandshaking = true)
    (staying : c.disconnectRequested = false) (fresh : e = begun e.lines) (stays : result ≠ .failed) :
    Stage e (shaken c result) := by
  have tail : e.tail = [] := by rw [fresh]; rfl
  have open_ : e.shut = false := by rw [fresh]; rfl
  cases result with
  | finished =>
    refine .secured ⟨by rw [tail]; exact buffer,by simp [tail],by simp [tail],?_,rfl,staying⟩ open_
    rw [open_,tail]
    rfl
  | failed => exact absurd rfl stays
  | wantRead | wantWrite => exact .shaking buffer shakes staying fresh

theorem signalsShape (received) :
    ∃ (bytes : Bytes) (ends : List (Option UInt8)), signals received = bytes.map some ++ ends ∧ ∀ signal ∈ ends, signal = none := by
  induction received with
  | nil => exact ⟨[],[],rfl,by simp⟩
  | cons first more ih =>
    cases first with
    | wouldBlock => exact ⟨[],[],rfl,by simp⟩
    | failed => exact ⟨[],[none],rfl,by simp⟩
    | bytes chunk =>
      cases chunk with
      | nil => exact ⟨[],[none],rfl,by simp⟩
      | cons b chunk =>
        obtain ⟨bytes,ends,split,only⟩ := ih
        refine ⟨b :: chunk ++ bytes,ends,?_,only⟩
        rw [signals,split,List.map_append,List.append_assoc]
        simp

theorem eventShape (revents received) :
    ∃ (bytes : Bytes) (ends : List (Option UInt8)), eventSignals revents received = bytes.map some ++ ends ∧
      ∀ signal ∈ ends, signal = none := by
  obtain ⟨bytes,ends,split,only⟩ := signalsShape received
  unfold eventSignals
  split <;> split
  · refine ⟨bytes,ends ++ [none],by rw [split,List.append_assoc],?_⟩
    exact List.forall_mem_append.mpr ⟨only,List.forall_mem_singleton.mpr rfl⟩
  · exact ⟨bytes,ends,by rw [split,List.append_nil],only⟩
  · exact ⟨[],[none],rfl,by simp⟩
  · exact ⟨[],[],rfl,by simp⟩

theorem momentShape (m) :
    ∃ (bytes : Bytes) (ends : List (Option UInt8)), momentSignals m = bytes.map some ++ ends ∧
      ∀ signal ∈ ends, signal = none := by
  unfold momentSignals
  split
  · split
    · exact ⟨[],[],rfl,by simp⟩
    · exact eventShape _ _
  · exact ⟨[],[],rfl,by simp⟩

theorem shapeBytes {stream : List (Option UInt8)} {ends} {bytes : Bytes} (split : stream = bytes.map some ++ ends)
    (only : ∀ signal ∈ ends, signal = none) : stream.filterMap id = bytes := by
  have none_ : ends.filterMap id = [] := List.filterMap_eq_nil_iff.mpr fun signal member => only signal member
  rw [split,List.filterMap_append,none_,List.append_nil,List.filterMap_map]
  exact List.filterMap_some

inductive Secured (e : Ear UInt8 Bytes) (m : Moment) (orders : List Order) (c' : Client) : Prop where
  | stays (stage : Stage (control.hears e (momentSignals m)) c') (tls : c'.tls = true)
      (whole : momentSignals m = ((momentSignals m).filterMap id).map some)
      (heard : (control.hears e (momentSignals m)).lines = e.lines ++ spoken orders)
  | drops (gone : c'.connected = false)
      (heard : (control.hears e (((momentSignals m).filterMap id).map some)).lines = e.lines ++ spoken orders)

theorem momentSecured
    (stage : Stage e m.client) (tls : m.client.tls = true) (ready : m.happening.Ready m.client) (fits : MomentFits e m)
    (run : (happeningLog (m.server s) m.client m.happening).Runs m.trace (orders,c')) : Secured e m orders c' := by
  cases stage with
  | secured tuned open_ =>
    cases momentPassed tuned open_ ready fits run with
    | stays tuned' open' _ same heard => exact .stays (.secured tuned' open') (same.trans tls) (hearsOpen open') heard
    | drops gone _ heard =>
      obtain ⟨bytes,ends,split,only⟩ := momentShape m
      refine .drops gone ?_
      rw [shapeBytes split only,← heard,split,hearsOver _ _ only]
    | upgraded _ _ _ _ _ before | cut _ _ _ _ before => simp [tls] at before
  | shaking buffer shakes staying fresh =>
    have silent : momentSignals m = [] := by
      unfold momentSignals
      split
      · rw [if_pos shakes]
      · rfl
    cases same : m.happening with
    | event revents received =>
      rw [same] at run
      rw [happeningLog,eventLog,if_pos shakes] at run
      obtain ⟨_,c₁,_,-,inner,done⟩ := runsBind.mp run
      obtain ⟨-,rfl,rfl⟩ := runsPair.mp done
      rw [handleClientEvents,if_pos shakes] at inner
      obtain ⟨result,rest,-,last⟩ := runsInvoke inner
      rcases finishRuns last with ⟨-,gone⟩ | ⟨going,rfl,-⟩
      · exact .drops gone (by simp [silent,spoken])
      have stays : result ≠ .failed := by
        rintro rfl
        simp [shaken] at going
      refine .stays ?_ ?_ (by rw [silent]; rfl) (by simp [silent,spoken])
      · rw [silent]
        exact shakenStage buffer shakes staying fresh stays
      · cases result <;> exact tls
    | completion posted =>
      rw [same] at run
      obtain ⟨_,c₁,_,-,completed,done⟩ := runsBind.mp run
      obtain ⟨-,rfl,rfl⟩ := runsPair.mp done
      refine .stays ?_ ?_ (by rw [silent]; rfl) (by simp [silent,spoken])
      · rw [silent]
        cases completeRuns completed <;> exact .shaking buffer shakes staying fresh
      · cases completeRuns completed <;> exact tls

theorem heardSecured
    (heard : Heard s c moments orders last) (stage : Stage e c) (tls : c.tls = true) (fits : Fitting e moments) :
    (control.hears e ((applied moments).map some)).lines = e.lines ++ spoken orders := by
  induction heard generalizing e with
  | rest c => simp [applied,stream,spoken]
  | @next m orders c' moments more last ready run later ih =>
    have joined : spoken (orders ++ more) = spoken orders ++ spoken more := List.filterMap_append
    have parts : applied (m :: moments) = (momentSignals m).filterMap id ++ applied moments := by
      simp [applied,stream,List.filterMap_append]
    rw [joined,parts,List.map_append,hearsAppend,← List.append_assoc]
    cases momentSecured stage tls ready fits.1 run with
    | stays stage' tls' whole heard =>
      rw [← whole,← heard]
      exact ih stage' tls' fits.2
    | drops gone heard =>
      obtain ⟨rfl,rfl,rfl⟩ := heardGone gone later
      simpa [applied,stream,spoken] using heard

/- Two connections on which AUTH TLS was accepted and that were given the same bytes since:
the same lines are executed, and nothing else unless urgent data is reported. -/
theorem plaintextIgnored (s : Server) (before before' after after' : List Moment) (m m' : Moment)
    (first first' orders orders' : List Order) (c c' last last' : Client)
    (taken : AuthTaken s before m first c) (taken' : AuthTaken s before' m' first' c')
    (heard : Heard s c after orders last) (heard' : Heard s c' after' orders' last')
    (fits : Fitting (begun []) after) (fits' : Fitting (begun []) after') (same : applied after = applied after') :
    spoken orders = spoken orders' ∧
      spoken orders = (control.hears (begun []) ((applied after).map some)).lines ∧
      (Order.urgent ∉ orders ↔ ¬ Urged after) ∧ (Order.urgent ∉ orders' ↔ ¬ Urged after') ∧
      (¬ Urged after → ¬ Urged after' → orders = orders') := by
  have lines : ∀ {before m first c after orders last}, AuthTaken s before m first c → Heard s c after orders last →
      Fitting (begun []) after → (control.hears (begun []) ((applied after).map some)).lines = spoken orders := by
    intro before m first c after orders last taken heard fits
    obtain ⟨pending,ahead⟩ := takenAhead taken
    obtain ⟨buffer,tls,shakes,staying⟩ := ahead.after
    exact heardSecured heard (.shaking buffer shakes staying rfl) tls fits
  have one := lines taken heard fits
  have two := lines taken' heard' fits'
  rw [← same,one] at two
  have calm := not_congr (heardUrged heard)
  have calm' := not_congr (heardUrged heard')
  refine ⟨two,one.symm,calm,calm',fun still still' => ?_⟩
  rw [ordersSpoken (calm.mpr still),ordersSpoken (calm'.mpr still'),two]

def secure : (call : Call) → Answer call
  | .tlsCreate _ => true
  | .tlsHandshake => .finished
  | call => Containment.refusals call

def follow (s : Server) (c : Client) : List (Revents × List Received) → List Moment × List Order × Client
  | [] => ([],[],c)
  | (revents,received) :: more =>
    if c.connected then
      let now := (eventLog s revents received c).play secure
      let rest := follow s now.2.2 more
      (⟨s.root,c,.event revents received,now.1⟩ :: rest.1,now.2.1 ++ rest.2.1,rest.2.2)
    else ([],[],c)

theorem followHeard (s c events) :
    Heard s c (follow s c events).1 (follow s c events).2.1 (follow s c events).2.2 := by
  induction events generalizing c with
  | nil => exact .rest c
  | cons first more ih =>
    obtain ⟨revents,received⟩ := first
    unfold follow
    split
    · rename_i connected
      exact .next (m := ⟨s.root,c,.event revents received,_⟩) connected (playRuns secure _) (ih _)
    · exact .rest c

def followed (s : Server) (c : Client) (revents : Revents) (received : List Received) : Moment :=
  ⟨s.root,c,.event revents received,((eventLog s revents received c).play secure).1⟩

theorem followedHeard (revents received) (connected : c.connected = true) :
    Heard s c [followed s c revents received] ((eventLog s revents received c).play secure).2.1
      ((eventLog s revents received c).play secure).2.2 := by
  have one := followHeard s c [(revents,received)]
  rw [follow,if_pos connected] at one
  simpa only [follow,followed,List.append_nil] using one

def readable : Revents := ⟨false,true,false⟩
def urgent : Revents := ⟨true,false,false⟩
def ahead (bytes : Bytes) : List Received := [.bytes (ascii "AUTH TLS\r\n" ++ bytes),.wouldBlock]
def asking (bytes : Bytes) : Moment := followed tlsServer visitor readable (ahead bytes)

def asked (bytes : Bytes) : List Order × Client :=
  ((eventLog tlsServer readable (ahead bytes) visitor).play secure).2

theorem askedTaken {bytes} (shown : Fitting (begun []) [asking bytes] ∧
      (asked bytes).2.connected = true ∧ (asked bytes).2.tlsHandshaking = true) :
    AuthTaken tlsServer [] (asking bytes) (asked bytes).1 (asked bytes).2 := by
  obtain ⟨greeting,accepted⟩ : ∃ greeting, (acceptClient tlsServer .unspec).Runs greeting visitor :=
    Stream.acceptedNew tlsServer
  have heard : Heard tlsServer visitor [asking bytes] (asked bytes).1 (asked bytes).2 := by
    unfold asking asked
    exact followedHeard readable (ahead bytes) rfl
  exact ⟨⟨.unspec,greeting,visitor,accepted,heard⟩,shown.1,rfl,shown.2.1,shown.2.2⟩

def manyAhead : Bytes := List.replicate 1025 22

theorem manyTaken : AuthTaken tlsServer [] (asking manyAhead) (asked manyAhead).1 (asked manyAhead).2 :=
  askedTaken (by decide +kernel)

theorem aheadLost : AuthTaken tlsServer [] (asking manyAhead) (asked manyAhead).1 (asked manyAhead).2 ∧
    (manyAhead,true) ∈ sessions (asking manyAhead).trace ∧
    ∀ socket deadline requests,
      ((opened manyAhead socket deadline).served requests).delivered ≠ manyAhead ++ socket ∧
      ((opened manyAhead socket deadline).served requests).total.length + 1 = (manyAhead ++ socket).length := by
  refine ⟨manyTaken,by decide +kernel,?_⟩
  intro socket deadline requests
  have total := Feed.servedTotal (opened manyAhead socket deadline) requests
  have short : ((opened manyAhead socket deadline).served requests).total.length + 1 = (manyAhead ++ socket).length := by
    rw [total,openedTotal,List.length_append,List.length_append,List.length_take,manyAhead,List.length_replicate]
    simp [tlsPending]
    omega
  refine ⟨fun same => ?_,short⟩
  have size := congrArg List.length same
  rw [Feed.total,List.length_append,List.length_append] at short
  omega

def fewAhead : Bytes := [22,3,1]

theorem fewTaken : AuthTaken tlsServer [] (asking fewAhead) (asked fewAhead).1 (asked fewAhead).2 :=
  askedTaken (by decide +kernel)

theorem upgradeConservesFew : AuthTaken tlsServer [] (asking fewAhead) (asked fewAhead).1 (asked fewAhead).2 ∧
    ∃ pending, Ahead [] (asking fewAhead) (asked fewAhead).1 (asked fewAhead).2 pending ∧
      ∀ socket deadline requests,
        ((opened pending socket deadline).served requests).total = pending ++ socket ↔ pending.length ≤ tlsPending := by
  obtain ⟨pending,ahead,whole,-⟩ := upgradeConserves _ _ _ _ _ fewTaken
  exact ⟨fewTaken,pending,ahead,whole⟩

def quietly : List (Revents × List Received) := [(readable,[])]
def urgently : List (Revents × List Received) := [(readable,[]),(urgent,[])]

def afterwards (bytes : Bytes) (events : List (Revents × List Received)) : List Moment × List Order × Client :=
  follow tlsServer (asked bytes).2 events

theorem afterHeard (bytes events) :
    Heard tlsServer (asked bytes).2 (afterwards bytes events).1 (afterwards bytes events).2.1
      (afterwards bytes events).2.2 := by
  exact followHeard tlsServer (asked bytes).2 events

theorem urgentParsed : AuthTaken tlsServer [] (asking fewAhead) (asked fewAhead).1 (asked fewAhead).2 ∧
    Heard tlsServer (asked fewAhead).2 (afterwards fewAhead quietly).1 [] (afterwards fewAhead quietly).2.2 ∧
    Heard tlsServer (asked fewAhead).2 (afterwards fewAhead urgently).1 [.urgent]
      (afterwards fewAhead urgently).2.2 ∧
    (afterwards fewAhead quietly).2.2.tlsHandshaking = false ∧
    (afterwards fewAhead urgently).2.2.tlsHandshaking = false ∧
    applied (afterwards fewAhead quietly).1 = applied (afterwards fewAhead urgently).1 := by
  have seen : (afterwards fewAhead quietly).2.1 = [] ∧ (afterwards fewAhead urgently).2.1 = [.urgent] ∧
      (afterwards fewAhead quietly).2.2.tlsHandshaking = false ∧
      (afterwards fewAhead urgently).2.2.tlsHandshaking = false ∧
      applied (afterwards fewAhead quietly).1 = applied (afterwards fewAhead urgently).1 := by decide +kernel
  have first := afterHeard fewAhead quietly
  have second := afterHeard fewAhead urgently
  rw [seen.1] at first
  rw [seen.2.1] at second
  exact ⟨fewTaken,first,second,seen.2.2⟩

def saying (text : String) : List (Revents × List Received) :=
  [(readable,[]),(readable,[.bytes (ascii text),.wouldBlock])]

theorem plaintextIgnoredNoop :
    AuthTaken tlsServer [] (asking manyAhead) (asked manyAhead).1 (asked manyAhead).2 ∧
    spoken (afterwards fewAhead (saying "NOOP\r\n")).2.1 = [ascii "NOOP"] ∧
    spoken (afterwards manyAhead (saying "NOOP\r\n")).2.1 = spoken (afterwards fewAhead (saying "NOOP\r\n")).2.1 := by
  have noop : spoken (afterwards fewAhead (saying "NOOP\r\n")).2.1 = [ascii "NOOP"] := by decide +kernel
  have both := plaintextIgnored tlsServer [] [] _ _ _ _ _ _ _ _ _ _ _ _ manyTaken fewTaken
    (afterHeard manyAhead (saying "NOOP\r\n")) (afterHeard fewAhead (saying "NOOP\r\n")) (by decide +kernel)
    (by decide +kernel) (by decide +kernel)
  exact ⟨manyTaken,noop,both.1⟩

end OpenPs3Ftp.Upgrade
