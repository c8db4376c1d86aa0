import OpenPs3Ftp.Lifecycle.Machine

/-! Running the public calls under a given schedule. An allocation, a system call or a
thread creation fails where the schedule says so. -/
namespace OpenPs3Ftp.Lifecycle
open Lib Fs Program

def reply (fails : Bool) (s : Shared) : (op : Op) → Option (Reply op)
  | .isStarted => some s.started
  | .isRunning => some s.running
  | .isDone => some s.done
  | .awaitReady => if s.starting = true → s.ready = true then some s.ready else none
  | .hasCompl => some (decide (s.compl ≠ .absent))
  | .lockCompl => if s.locked = false then some () else none
  | .detach => if s.locked = false then some s.pollset else none
  | .poolIdle => some (decide (s.pool = false ∧ s.alive = 0))
  | .workersGone => some (decide (s.alive = 0))
  | .joinWorkers => if s.unborn = 0 ∧ s.counted = 0 then some () else none
  | .joinReactor | .leaveLoop => if s.reactor = .ended then some () else none
  | .hasWrapper => some s.wrapper
  | .socket _ | .bind | .listen => some (if fails then some .eacces else none)
  | .allocQueue | .queueMutex | .queueCond | .complMutex | .allocWorkers | .createWorker | .wrap | .spawn => some !fails
  | .setStarted _ | .setRunning _ | .setDone _ | .setStopping _ | .setStarting _ | .publish | .closeSocket | .keepSocket
  | .openPool | .closePool | .enterLoop | .wakeUnlock | .wakeBare | .nap | .abandon | .freeJobs | .destroyCompl
  | .forgetCompl | .freeQueue | .destroyPollset | .freeWrapper | .freeServer => some ()

theorem replyCan {fails s op answer} (replied : reply fails s op = some answer) : Can s op answer := by
  cases op <;> simp only [reply] at replied <;> simp_all [Can]

def fate (s : Shared) (what : Event) : Option { s' // Happens s what s' } :=
  match what,at_ : s.reactor with
  | .open_ true,.active own .entering => if free : s.locked = false then
      some ⟨{ s with reactor := .active own .polling, pollset := true },.opened at_ free⟩ else none
  | .open_ false,.active own .entering => some ⟨{ s with reactor := .ended, done := s.done || own },.unopened at_⟩
  | .turn,.active _ .polling => if going : s.stopping = false then some ⟨s,.turn at_ going⟩ else none
  | .reroot,.active _ .polling => some ⟨{ s with wrapper := true },.reroot at_⟩
  | .command,.active _ .polling => if going : s.stopping = false then
      some ⟨{ s with stopping := true },.command at_ going⟩ else none
  | .see,.active own .polling => if asked : s.stopping = true then
      some ⟨{ s with reactor := .active own .leaving },.see at_ asked⟩ else none
  | .fail,.active own .polling => some ⟨{ s with reactor := .active own .leaving },.fail at_⟩
  | .close,.active own .leaving => some ⟨{ s with reactor := .ended, listener := false, done := s.done || own },.close at_⟩
  | .birth,_ => if some_ : 0 < s.unborn then
      some ⟨{ s with unborn := s.unborn - 1, counted := s.counted + 1, alive := s.alive + 1 },.birth some_⟩ else none
  | .exit,_ => if leaves : 0 < s.counted ∧ s.pool = false then
      some ⟨{ s with counted := s.counted - 1, alive := s.alive - 1 },.exit leaves.1 leaves.2⟩ else none
  | .stray,_ => if some_ : 0 < s.stray then
      some ⟨{ s with stray := s.stray - 1, alive := s.alive - 1 },.stray some_⟩ else none
  | _,_ => none

def chooser (cfg : Config) : Threads.Chooser (threads cfg) Bool where
  answer fails s op :=
    match replied : reply fails s op with
    | none => none
    | some answer => some ⟨(answer,effect s op answer),replyCan replied,rfl⟩
  fate := fate

end OpenPs3Ftp.Lifecycle
