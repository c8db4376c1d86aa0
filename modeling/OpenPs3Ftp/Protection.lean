import OpenPs3Ftp.Reactor
import OpenPs3Ftp.Reactor.Entries
import OpenPs3Ftp.Legacy.Access

/-! Private data connections: a transfer accepted at protection level P moves its bytes
only inside a TLS session of its own whose handshake is done. The legacy transfers know
no TLS, and none of them is accepted at that level. -/
namespace OpenPs3Ftp.Protection
open Lib Text Fs Session Commands Events Worker Program System Reactor
open Bounded (Uses usesPure usesBind usesKeeps keepsPure keepsThen keepsAsk keepsMono keepsBind)

def sealing (ready : Bool) : (call : Work) → call.Answer → Bool
  | .tlsHandshake,.finished => true
  | .tlsCreate ..,_ | .tlsFree,_ => false
  | _,_ => ready

/- Nothing of the transfer on the raw socket, nothing before the session is ready. -/
def Sealed (ready : Bool) : Work → Prop
  | .send .. | .recv .. => False
  | .tlsWrite _ | .tlsRead _ => ready = true
  | _ => True

def Still : Work → Prop
  | .send .. | .recv .. | .tlsWrite _ | .tlsRead _ => False
  | _ => True

theorem aloneStill (call) (alone : Alone call) : Still call := by
  cases call <;> first | exact trivial | exact alone.elim

section Worker
variable {s : Server} {j : Job} {ready : Bool}

theorem stillSealed {α : Type} {p : Routine α} (uses : Uses Still p) :
    Bounded.Keeps (fun _ _ => True) sealing Sealed (fun _ _ => True) ready p := by
  refine @usesKeeps _ _ _ _ _ sealing Sealed (fun _ => True) _ _ uses ?_ trivial
  intro r call _ still
  refine ⟨?_,fun _ => trivial⟩
  cases call <;> first | exact trivial | exact still.elim

theorem openSealed (data : j.op ≠ .copy) (rounds fd) (up : ready = true) :
    Bounded.Keeps (fun _ _ => True) sealing Sealed (fun _ _ => True) ready (transferOp rounds s j ⟨fd,true⟩) := by
  have uses := (@makesOp (fun call => Own call ∨ Channel.Moves ⟨fd,true⟩ call) rounds (fun _ => True)
    (fun _ near => .inl (aloneOwn near.alone)) ⟨fd,true⟩ (fun _ _ => .inl trivial) (fun _ moves => .inr moves) j trivial data s).1
  refine keepsMono (fun _ _ _ => trivial)
    (@usesKeeps _ _ _ _ _ sealing Sealed (fun ready => ready = true) _ _ uses ?_ up)
  rintro r call rfl (own | moves)
  · cases call <;> first | exact ⟨trivial,fun _ => rfl⟩ | exact own.elim
  cases call with
  | send | recv => cases moves.1
  | tlsWrite | tlsRead => exact ⟨rfl,fun _ => rfl⟩
  | _ => exact moves.elim

theorem awaitingSealed (fd : Fd) (event : PollEvent) :
    Bounded.Keeps (fun _ _ => True) sealing Sealed
      (fun ready next => Sum.elim (fun _ => True) (fun rc => rc = none → ready = true) next) ready
      (awaiting fd event () some : Routine (Unit ⊕ Rc)) := by
  refine keepsThen (stillSealed (usesWait (aloneStill _ trivial) (fun _ _ => trivial) event 1000)) fun r rc => ?_
  split
  · exact keepsPure.mpr trivial
  · exact keepsPure.mpr trivial
  · exact keepsPure.mpr nofun

theorem shakeSealed (rounds fd) :
    Bounded.Keeps (fun _ _ => True) sealing Sealed (fun ready rc => rc = none → ready = true) ready
      (Bounded.loop (handshakeRound fd) rounds ()) := by
  refine Bounded.keepsLoop (fun _ _ => True) (fun r _ _ => ?_) rounds trivial
  refine keepsAsk trivial fun cancelled _ => ?_
  split
  · exact keepsPure.mpr nofun
  refine keepsAsk trivial fun result _ => ?_
  split
  · exact keepsPure.mpr fun _ => rfl
  · exact keepsPure.mpr nofun
  · exact awaitingSealed fd _
  · exact awaitingSealed fd _

theorem setupSealed (rounds fd) :
    Bounded.Keeps (fun _ _ => True) sealing Sealed (fun ready made => made.2 = none → ready = true) ready
      (dataTlsSetup rounds s fd) := by
  unfold dataTlsSetup
  split
  · exact keepsPure.mpr nofun
  refine keepsAsk trivial fun now _ => keepsAsk trivial fun made _ => ?_
  split
  · exact keepsBind (keepsMono (fun _ _ done => keepsPure.mpr done) (shakeSealed rounds fd))
  · exact keepsPure.mpr nofun

theorem overSealed (data : j.op ≠ .copy) (private_ : j.needTls = true) (rounds : Nat) (fd : Fd) :
    Bounded.Keeps (fun _ _ => True) sealing Sealed (fun _ _ => True) ready (transferOver rounds s j fd) := by
  unfold transferOver
  rw [if_neg (by simp [private_])]
  refine keepsBind (keepsMono ?_ (setupSealed rounds fd))
  rintro r ⟨session,rc⟩ done
  refine keepsThen ?_ fun r rc => keepsThen (stillSealed ?_) fun _ _ => keepsPure.mpr trivial
  · split
    · exact openSealed data rounds fd (done ‹_›)
    · exact keepsPure.mpr trivial
  · split
    · exact usesShutdown (fun _ _ => trivial) trivial trivial rc
    · exact usesPure _

theorem runSealed (private_ : j.op = .copy ∨ j.needTls = true) (rounds : Nat) :
    Bounded.Keeps (fun _ _ => True) sealing Sealed (fun _ _ => True) ready (transferRun rounds s j) := by
  unfold transferRun
  split
  · exact keepsThen (stillSealed (usesCopy aloneStill rounds j)) fun _ _ => keepsPure.mpr trivial
  rename_i data
  refine keepsThen (stillSealed (usesConnect (aloneStill _ trivial) (fun _ _ _ => trivial) (fun _ => trivial) (fun _ => trivial)
    (fun _ _ => trivial) (fun _ => trivial) s j)) fun r connected => ?_
  split
  · exact keepsPure.mpr trivial
  · exact keepsThen (overSealed data (private_.resolve_left data) rounds _) fun _ _ => keepsPure.mpr trivial

end Worker

namespace Shim
open Legacy

/- For each transfer handed to the pool the protection level in force then; for each job
of the core also whether its TLS session is ready. -/
structure History where
  transfers : List Bool
  jobs : List (Bool × Bool)

def History.note (h : History) (st : Legacy.State) : Legacy.Act → History
  | .call _ ⟨.dispatch _,_⟩ => { h with transfers := h.transfers ++ [st.core.tlsProt] }
  | .call _ ⟨.core (.dispatch _),true⟩ => { h with jobs := h.jobs ++ [(st.core.tlsProt,false)] }
  | .work k e => { h with jobs := h.jobs.modify k fun (level,ready) => (level,sealing ready e.1 e.2) }
  | _ => h

def history (u : Setup) : System (Legacy.State × History) Legacy.Act := (shim u).watched ⟨[],[]⟩ History.note

def Bare : Ask → Prop
  | .dataSend .. | .dataRecv .. => True
  | _ => False

structure Kept (st : Legacy.State) (h : History) : Prop where
  task : ∀ p, st.task = some p → ∃ entered, Turned st.core ⟨true,entered⟩ p
  steady : ∀ p ∈ st.executors, Uses Steady p
  transfers : h.transfers.length = st.executors.length
  clear : ∀ level ∈ h.transfers, level = false
  jobs : h.jobs.length = st.jobs.length
  sealed : ∀ (k : Nat) ready p, h.jobs[k]? = some (true,ready) → st.jobs[k]? = some p →
    Bounded.Keeps (fun _ _ => True) sealing Sealed (fun _ _ => True) ready p

section Steps
variable {u : Setup} {st st' : Legacy.State} {h : History} {who : Thread}

theorem notePlain {call answer} (plain : Plain call answer) : h.note st (.call who ⟨call,answer⟩) = h := by
  cases call with
  | dispatch => exact plain.elim
  | core call =>
    cases call with
    | dispatch job =>
      obtain rfl : answer = false := plain
      rfl
    | _ => rfl
  | _ => rfl

theorem recallSeen {entered} (call answer) : ∃ entered', remember ⟨true,entered⟩ call answer = ⟨true,entered'⟩ := by
  cases call with
  | core call => cases call <;> exact ⟨_,rfl⟩
  | _ => exact ⟨_,rfl⟩

theorem keptAppend {job rounds level} (kept : Kept st h) (told : level = true → job.op = .copy ∨ job.needTls = true) :
    ∀ (k : Nat) ready p, (h.jobs ++ [(level,false)])[k]? = some (true,ready) →
      (st.jobs ++ [transferRun rounds u.server job])[k]? = some p →
      Bounded.Keeps (fun _ _ => True) sealing Sealed (fun _ _ => True) ready p := by
  intro k ready p level_ here
  rcases Nat.lt_or_ge k h.jobs.length with old | new
  · rw [List.getElem?_append_left old] at level_
    rw [List.getElem?_append_left (kept.jobs ▸ old)] at here
    exact kept.sealed k ready p level_ here
  rw [List.getElem?_append_right new,List.getElem?_singleton] at level_
  rw [List.getElem?_append_right (kept.jobs ▸ new),List.getElem?_singleton,← kept.jobs] at here
  split at level_
  · rename_i last
    rw [if_pos last] at here
    cases here
    obtain ⟨rfl,rfl⟩ := Prod.mk.inj (Option.some.inj level_)
    exact runSealed (told rfl) rounds
  · cases level_

theorem keptReactor {call next answer} (kept : Kept st h) (busy : st.task = some (.ask call next))
    (changes : Changes u .reactor { st with task := some (next answer) } ⟨call,answer⟩ st') :
    Kept st' (h.note st (.call .reactor ⟨call,answer⟩)) := by
  obtain ⟨entered,conduct,later⟩ := kept.task _ busy
  obtain ⟨core,task,-⟩ := changesSame changes
  have tasks : ∀ p, st'.task = some p → ∃ entered, Turned st'.core ⟨true,entered⟩ p := by
    intro p same
    cases Option.some.inj (task.symm.trans same)
    obtain ⟨entered',recalled⟩ := @recallSeen entered call answer
    refine ⟨entered',?_⟩
    rw [core,← recalled]
    exact later answer trivial
  have steady := changesSteady changes kept.steady
  cases changes with
  | store | lock | unlock => exact ⟨tasks,steady,kept.transfers,kept.clear,kept.jobs,kept.sealed⟩
  | other plain =>
    rw [notePlain plain]
    exact ⟨tasks,steady,kept.transfers,kept.clear,kept.jobs,kept.sealed⟩
  | dispatch event rounds =>
    refine ⟨tasks,steady,?_,?_,kept.jobs,kept.sealed⟩
    · simpa [History.note] using kept.transfers
    · exact List.forall_mem_append.mpr ⟨kept.clear,List.forall_mem_singleton.mpr conduct.2.2⟩
  | job job rounds =>
    refine ⟨tasks,steady,kept.transfers,kept.clear,?_,@keptAppend u st h job rounds _ kept fun private_ => ?_⟩
    · simpa [History.note] using kept.jobs
    · rcases conduct.2 with copy | same
      · exact .inl copy
      · exact .inr (same.trans private_)

theorem keptExecutor {index : Nat} {call : Ask} {next : call.Answer → Legacy.Routine Unit} {answer} (kept : Kept st h)
    (running : st.executors[index]? = some (.ask call next))
    (changes : Changes u (.executor index) { st with executors := st.executors.set index (next answer) }
      ⟨call,answer⟩ st') : Kept st' (h.note st (.call (.executor index) ⟨call,answer⟩)) := by
  obtain ⟨steady,later⟩ := kept.steady _ (List.mem_of_getElem? running)
  obtain ⟨core,task,-⟩ := changesSame changes
  have tasks : ∀ p, st'.task = some p → ∃ entered, Turned st'.core ⟨true,entered⟩ p := by
    intro p same
    rw [core]
    exact kept.task p (task.symm.trans same)
  have stays : ∀ p ∈ st'.executors, Uses Steady p := by
    refine changesSteady changes fun p member => ?_
    rcases List.mem_or_eq_of_mem_set member with old | rfl
    · exact kept.steady p old
    · exact later answer trivial
  have length : h.transfers.length = (st.executors.set index (next answer)).length := by
    rw [List.length_set]
    exact kept.transfers
  cases changes with
  | store | lock | unlock => exact ⟨tasks,stays,length,kept.clear,kept.jobs,kept.sealed⟩
  | other plain =>
    rw [notePlain plain]
    exact ⟨tasks,stays,length,kept.clear,kept.jobs,kept.sealed⟩
  | dispatch | job => exact steady.elim

theorem keptWork {index : Nat} {call : Work} {next : call.Answer → Bounded Work Work.Answer Posted} {answer}
    (kept : Kept st h) (running : st.jobs[index]? = some (.ask call next)) :
    Kept { st with jobs := st.jobs.set index (next answer) } (h.note st (.work index ⟨call,answer⟩)) := by
  refine ⟨kept.task,kept.steady,kept.transfers,kept.clear,?_,fun k ready p level here => ?_⟩
  · simpa [History.note] using kept.jobs
  rw [History.note,List.getElem?_modify] at level
  by_cases mine : index = k
  · subst mine
    rw [List.getElem?_set_self (List.getElem?_eq_some_iff.mp running).1] at here
    cases here
    cases before : h.jobs[index]? with
    | none => simp [before] at level
    | some pair =>
      obtain ⟨private_,was⟩ := pair
      obtain ⟨rfl,rfl⟩ : private_ = true ∧ sealing was call answer = ready := by simpa [before] using level
      exact (kept.sealed index was _ before running).2 answer trivial
  · rw [List.getElem?_set_ne mine] at here
    exact kept.sealed k ready p (by simpa [mine] using level) here

theorem keptStep {act} (kept : Kept st h) (step : Legacy.Step u st act st') : Kept st' (h.note st act) := by
  cases step with
  | turn turn free ready =>
    refine ⟨fun p same => ?_,kept.steady,kept.transfers,kept.clear,kept.jobs,kept.sealed⟩
    cases Option.some.inj same
    exact ⟨false,turnTurned (.inl rfl)⟩
  | finish ended => exact ⟨nofun,kept.steady,kept.transfers,kept.clear,kept.jobs,kept.sealed⟩
  | reactor busy possible changes => exact keptReactor kept busy changes
  | executor running possible changes => exact keptExecutor kept running changes
  | work running => exact keptWork kept running

theorem keptReached (reached : (history u).Reached (st,h)) : Kept st h := by
  refine System.invariant (P := fun now => Kept now.1 now.2) ?_ ?_ reached
  · rintro ⟨st,h⟩ ⟨⟨peer,greeting,c,trace,core,facade,-,-,rfl⟩,rfl⟩
    exact ⟨nofun,nofun,rfl,nofun,rfl,fun k ready p none_ => by simp at none_⟩
  · rintro ⟨st,h⟩ act ⟨st',h'⟩ kept - ⟨step,rfl⟩
    exact keptStep kept step

theorem stepSealed {act} (kept : Kept st h) (step : Legacy.Step u st act st') :
    (∀ thread e, act = .call thread e → Bare e.1 → ∃ k : Nat, thread = .executor k ∧ h.transfers[k]? = some false) ∧
    ∀ (k : Nat) e ready, act = .work k e → h.jobs[k]? = some (true,ready) → Sealed ready e.1 := by
  cases step with
  | turn | finish =>
    constructor
    · intro thread e same
      cases same
    · intro k e ready same
      cases same
  | @reactor _ call next answer busy possible changes =>
    refine ⟨fun thread e same bare => ?_,fun k e ready same => by cases same⟩
    cases same
    obtain ⟨entered,conduct,-⟩ := kept.task _ busy
    cases call <;> first | exact conduct.elim | exact bare.elim
  | @executor _ index call next answer running possible changes =>
    refine ⟨fun thread e same bare => ?_,fun k e ready same => by cases same⟩
    cases same
    have bound : index < h.transfers.length := kept.transfers ▸ (List.getElem?_eq_some_iff.mp running).1
    exact ⟨index,rfl,by rw [List.getElem?_eq_getElem bound,kept.clear _ (List.getElem_mem bound)]⟩
  | @work index call next answer running =>
    refine ⟨fun thread e same => (by cases same),fun k e ready same level => ?_⟩
    cases same
    exact (kept.sealed index ready _ level running).1

end Steps
end Shim

theorem bytesSealed (workers : Nat) (s : Server) (u : Legacy.Setup) :
    (∀ st log, (reactor workers s).logged.Reached (st,log) → ∀ before id job after,
      log = before ++ .call id ⟨.dispatch job,true⟩ :: after →
      ∃ c, lastEntered id before = some c ∧ (c.tlsProt = true → ∀ rounds trace result,
        (transferRun rounds s job).Runs trace result → ∀ first e second, trace = first ++ e :: second →
          Sealed (noted sealing false first) e.1)) ∧
    ∀ st h, (Shim.history u).Reached (st,h) → ∀ act st', (Legacy.shim u).step st act st' →
      (∀ thread e, act = .call thread e → Shim.Bare e.1 →
        ∃ k : Nat, thread = .executor k ∧ h.transfers[k]? = some false) ∧
      ∀ (k : Nat) e ready, act = .work k e → h.jobs[k]? = some (true,ready) → Sealed ready e.1 := by
  refine ⟨fun st log reached before id job after whole => ?_,
    fun st h reached act st' step => Shim.stepSealed (Shim.keptReached reached) step⟩
  obtain ⟨c,entered,-,carried⟩ := (tracedReached reached).carried before id job after whole
  refine ⟨c,entered,fun private_ rounds trace result run => ?_⟩
  have told : job.op = .copy ∨ job.needTls = true := by
    unfold Carried at carried
    split at carried
    · exact .inl ‹_›
    · exact .inr (carried.1.trans private_)
  exact (meetsRuns (runSealed told rounds) run fun _ _ => trivial).2

def vault : Server := { house with tls := true }

def securely : (call : Call) → Answer call
  | .tlsCreate _ => true
  | .tlsHandshake => .finished
  | call => Containment.refusals call

def clearLines : List Received := [.bytes (ascii "USER a\nPASS b\nAUTH TLS\n"),.wouldBlock]
def privateLines : List Received := [.bytes (ascii "PROT P\nPORT 127,0,0,1,4,1\nSTOU\n"),.wouldBlock]
def visit (received : List Received) : List Hint := [.wake,.collect [.client 0 ⟨false,true,false⟩],.event received]

def secured (st : State) (hints : List Hint) : List Act × State :=
  (chooser 2 vault securely offline).play (fun _ _ => true) 100 st hints

@[irreducible] def negotiating : State := (secured booted ([.wake,.collect [.listener [caller]]] ++ visit clearLines)).2
def entrusted : State := (secured negotiating (visit [] ++ visit privateLines)).2

theorem negotiatingReached : ∃ log, (reactor 2 vault).logged.Reached (negotiating,log) ∧ Resting negotiating := by
  have resting : Resting negotiating := restsResting (by decide +kernel)
  unfold negotiating at resting ⊢
  exact ⟨_,Path.reached (Path.logged (Chooser.playPath 100 _ trivial) []) (.start ⟨bootedStart,rfl⟩),resting⟩

theorem entrustedReached : ∃ log, (reactor 2 vault).logged.Reached (entrusted,log) := by
  obtain ⟨log,reached,-⟩ := negotiatingReached
  exact ⟨_,Path.reached (Path.logged (Chooser.playPath 100 _ trivial) log) reached⟩

theorem bytesSealedUnique : ∃ log before job after c, (reactor 2 vault).logged.Reached (entrusted,log) ∧
    log = before ++ .call 0 ⟨.dispatch job,true⟩ :: after ∧ lastEntered 0 before = some c ∧ c.tlsProt = true ∧
    ∀ rounds trace result, (transferRun rounds vault job).Runs trace result → ∀ first e second,
      trace = first ++ e :: second → Sealed (noted sealing false first) e.1 := by
  obtain ⟨log,reached⟩ := entrustedReached
  obtain ⟨m,sound⟩ := soundReached reached
  have queued : entrusted.queue.length = 1 ∧
      ∀ f ∈ entrusted.queue, f.owner = 0 ∧ f.job.needTls = true ∧ f.job.op ≠ .copy := by decide +kernel
  obtain ⟨⟨owner,job⟩,only⟩ := List.length_eq_one_iff.mp queued.1
  have member : ⟨owner,job⟩ ∈ entrusted.queue := by simp [only]
  obtain ⟨rfl,private_,data⟩ := queued.2 _ member
  have dispatched := flightDispatched sound (f := ⟨0,job⟩) (by simp [flights,member])
  obtain ⟨before,after,whole⟩ := List.append_of_mem dispatched
  obtain ⟨c,entered,sealed⟩ := (bytesSealed 2 vault Legacy.linux).1 _ log reached before 0 job after whole
  obtain ⟨c',entered',-,carried⟩ := (tracedReached reached).carried before 0 job after whole
  cases entered.symm.trans entered'
  rw [Carried,if_neg data] at carried
  have level : c.tlsProt = true := carried.1.symm.trans private_
  exact ⟨log,before,job,after,c,reached,whole,entered,level,sealed level⟩

end OpenPs3Ftp.Protection
