import OpenPs3Ftp.Reactor.Schedule
import OpenPs3Ftp.Service.Count

/-! Runs of the whole loop that can be computed. -/
namespace OpenPs3Ftp.Service
open Lib Text Session Commands Events Worker Reactor Program System

inductive Hint where
  | core (hint : Reactor.Hint)
  | poll (outcome : Poll)
  | stamp (pending : Pending)
  | retain
  | link
  | stop

def fits (place : Place) : Act → Bool
  | .wake => (place matches .replying (.round _) [] | .replying .first [])
  | .complete _ => (place matches .completing _)
  | .collect _ => (place matches .completing (.round .ready))
  | .event .. | .accept .. | .accepted | .served => (place matches .serving false)
  | _ => true

theorem fitsFits {place act} (fitting : fits place act = true) : Fits place act := by
  cases act with
  | wake =>
    dsimp only [fits] at fitting
    split at fitting
    · exact ⟨.round _,rfl,by simp⟩
    · exact ⟨.first,rfl,by simp⟩
    · cases fitting
  | complete d =>
    dsimp only [fits] at fitting
    split at fitting
    · exact ⟨_,rfl⟩
    · cases fitting
  | collect | event | accept | accepted | served =>
    dsimp only [fits] at fitting
    split at fitting
    · exact rfl
    · cases fitting
  | _ => trivial

def deserted (core : Reactor.State) (id : ClientId) : Bool :=
  decide (∀ other < core.nextClient, id ≤ other → listed core other = false)

theorem desertedListed {st id other} (even : Even st) (none_ : deserted st.core id = true) (later : id ≤ other) :
    listed st.core other = false := by
  obtain ⟨⟨log,m,sound⟩,-⟩ := even
  by_cases known : other < st.core.nextClient
  · exact of_decide_eq_true none_ other known later
  · simp [listed,(sound.coming other (Nat.le_of_not_lt known)).1]

section
variable (workers : Nat) (s : Server) (oracle : (call : Call) → Answer call) (labour : (call : Work) → call.Answer)

abbrev Choice (st : State) : Type := (service workers s).Next Even st

variable {workers s}

def lift {st : State} (next : Reactor.Choice workers s st.core) : Option (Choice workers s st) :=
  if fitting : fits st.place next.label then
    some ⟨.core next.label,after st next.label next.state,fun _ => .core (fitsFits fitting) (next.step trivial)⟩
  else none

def drop (st : State) (place : st.place = .dropping) (idle : st.core.task = none) (id : ClientId) :
    Option (Choice workers s st) :=
  match owner : st.core.clients id with
  | none => none
  | some c => if last : c.connected ∧ deserted st.core (id + 1) then
      some ⟨.drop id,{ st with core := { st.core with task := some (id,clientDisconnect c) } },
        fun even => .drop place idle owner last.1 fun _ later => desertedListed even last.2 later⟩
    else none

def proceeds (st : State) : Option (Choice workers s st) :=
  match idle : st.core.task,place : st.place,phase : st.core.phase with
  | none,.top,_ =>
    if asked : st.stopping then some ⟨.leave,{ st with place := .entering .first },fun _ => .leave place asked⟩ else none
  | none,.entering point,_ =>
    some ⟨.grab,{ st with place := .replying point st.linked, linked := [] },fun _ => .grab place⟩
  | none,.replying point (p :: left),_ =>
    match owner : st.core.clients p.owner with
    | none => none
    | some c =>
      some ⟨.reply p (written c p),release { st with place := .replying point left } p.owner,fun _ => .reply place owner⟩
  | none,.replying .last [],_ => some ⟨.closed,{ st with place := .ended },fun _ => .closed place⟩
  | none,.replying _ [],.waiting =>
    lift ⟨.wake,{ st.core with phase := .draining st.core.completions, completions := [] },fun _ => .wake idle phase⟩
  | none,.serving true,_ =>
    some ⟨.look,if st.stopping then { st with place := .top, core := { st.core with phase := .waiting } }
      else { st with place := .serving false },fun _ => .look place idle⟩
  | none,.completing (.round .failed),.draining [] =>
    some ⟨.broke,{ st with place := .entering .first, core := { st.core with phase := .waiting } },
      fun _ => .broke place idle phase⟩
  | none,.completing .first,.draining [] =>
    some ⟨.drained,{ st with place := .dropping, core := { st.core with phase := .waiting } },
      fun _ => .drained place idle phase⟩
  | none,.dropping,_ =>
    if empty : deserted st.core 0 then
      some ⟨.dropped,{ st with place := .entering .last },
        fun even => .dropped place idle fun id => desertedListed even empty (Nat.zero_le id)⟩
    else (List.range st.core.nextClient).findSome? (drop st place idle)
  | _,_,_ => none

def due (st : State) : Option (Choice workers s st) :=
  ((Reactor.due workers s oracle st.core).bind lift).or (proceeds st)

def pick (hint : Hint) (st : State) : Option (Choice workers s st) :=
  match hint with
  | .core hint => (Reactor.pick workers s labour hint st.core).bind lift
  | .poll outcome =>
    match place : st.place,going : st.stopping with
    | .top,false => some ⟨.poll outcome,{ st with place := .entering (.round outcome) },fun _ => .poll _ place going⟩
    | _,_ => none
  | .stamp p =>
    match seat : st.core.clients p.owner with
    | none => none
    | some c => if same : p.generation = c.generation then
        some ⟨.stamp p,{ st with stamped := p :: st.stamped },fun _ => .stamp p (.inl ⟨c,seat,same⟩)⟩
      else none
  | .retain =>
    match held : st.stamped with
    | [] => none
    | p :: left => some ⟨.retain p,Service.retain { st with stamped := left, retained := p :: st.retained } p.owner,
        fun _ => @Step.retain _ _ _ _ [] _ held⟩
  | .link =>
    match held : st.retained with
    | [] => none
    | p :: left => some ⟨.link p,{ st with retained := left, linked := st.linked ++ [p] },
        fun _ => @Step.link _ _ _ _ [] _ held⟩
  | .stop => some ⟨.stop,{ st with stopping := true },fun _ => .stop⟩

end

def Place.isEnded : Place → Bool
  | .ended => true
  | _ => false

theorem matchesEnded {place : Place} (past : place.isEnded = true) : place = .ended := by
  cases place <;> first | rfl | cases past

def chooser (workers : Nat) (s : Server) (oracle : (call : Call) → Answer call) (labour : (call : Work) → call.Answer) :
    Chooser (service workers s) Hint where
  Sane := Even
  sane := evenStep
  due := due oracle
  pick := pick labour

end OpenPs3Ftp.Service
