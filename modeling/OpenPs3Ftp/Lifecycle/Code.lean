import OpenPs3Ftp.Fs
import OpenPs3Ftp.Lib.Program

/-! The public calls that begin and end a server, over the fields of the server object
that they share: `opftp_server_start`, `opftp_server_run_loop`, `opftp_server_stop` and
`opftp_server_destroy`, with `opftp_reactor_init`, `opftp_reactor_shutdown` and what
these call (`server.c`, `datachan.c`). A section under a mutex is one operation. -/
namespace OpenPs3Ftp.Lifecycle
open Lib Fs Program

inductive Family where | inet | inet6
  deriving DecidableEq

/- Loads and stores of the server object, system calls, and waits. `awaitReady` is the
section of `stop` under `life_mutex`; `detach` takes the pollset off the server under the
completion mutex. -/
inductive Op where
  | isStarted
  | isRunning
  | isDone
  | setStarted (value : Bool)
  | setRunning (value : Bool)
  | setDone (value : Bool)
  | setStopping (value : Bool)
  | setStarting (value : Bool)
  | publish
  | awaitReady
  | socket (family : Family)
  | bind
  | listen
  | closeSocket
  | keepSocket
  | allocQueue
  | queueMutex
  | queueCond
  | complMutex
  | allocWorkers
  | openPool
  | createWorker
  | closePool
  | wrap
  | spawn
  | enterLoop
  | leaveLoop
  | hasCompl
  | lockCompl
  | wakeUnlock
  | wakeBare
  | nap
  | joinReactor
  | detach
  | poolIdle
  | workersGone
  | abandon
  | joinWorkers
  | freeJobs
  | destroyCompl
  | forgetCompl
  | freeQueue
  | destroyPollset
  | hasWrapper
  | freeWrapper
  | freeServer
  deriving DecidableEq

abbrev Reply : Op → Type
  | .isStarted | .isRunning | .isDone | .awaitReady | .hasCompl | .detach | .poolIdle | .workersGone | .hasWrapper => Bool
  | .allocQueue | .queueMutex | .queueCond | .complMutex | .allocWorkers | .createWorker | .wrap | .spawn => Bool
  | .socket _ | .bind | .listen => Option Errno
  | _ => Unit

abbrev Code := Program Op Reply

def call (op : Op) : Code (Reply op) := perform op
def ealready : Errno := .other 114

structure Config where
  v4only : Bool
  workersReq : Nat
  stopTimeout : Nat

variable (cfg : Config)

def Config.naps : Nat := (cfg.stopTimeout + 9) / 10
def Config.numWorkers : Nat := if 0 < cfg.workersReq then cfg.workersReq else 2

def bindFamily (family : Family) : Code (Option Errno) := do
  match ← call (.socket family) with
  | some e => return some e
  | none =>
    match ← call .bind with
    | some e => do
      call .closeSocket
      return some e
    | none =>
      match ← call .listen with
      | some e => do
        call .closeSocket
        return some e
      | none => do
        call .keepSocket
        return none

def bindListener : Code (Option Errno) :=
  if cfg.v4only then bindFamily .inet
  else do
    match ← bindFamily .inet6 with
    | none => return none
    | some _ => bindFamily .inet

def createWorkers : Nat → Code (Option Errno)
  | 0 => return none
  | n + 1 => do
    if ← call .createWorker then createWorkers n
    else do
      call .closePool
      return some .enomem

def datachanInit : Code (Option Errno) := do
  let queue ← call .allocQueue
  let mutex ← call .queueMutex
  let cond ← (if mutex then call .queueCond else return false)
  let compl ← call .complMutex
  if !queue || !mutex || !cond || !compl then return some .enomem
  else do
    if ← call .allocWorkers then do
      call .openPool
      createWorkers cfg.numWorkers
    else return some .enomem

def reactorInit : Code (Option Errno) := do
  match ← bindListener cfg with
  | some e => return some e
  | none =>
    match ← datachanInit cfg with
    | some e => return some e
    | none => do
      if ← call .wrap then return none
      else return some .enomem

def awaitWorkers : Nat → Code Bool
  | 0 => call .workersGone
  | n + 1 => do
    if ← call .workersGone then return true
    else do
      call .nap
      awaitWorkers n

def datachanShutdown : Code Unit := do
  if ← call .poolIdle then return
  else do
    call .closePool
    if ← awaitWorkers cfg.naps then do
      call .joinWorkers
      call .freeJobs
      call .destroyCompl
      call .forgetCompl
      call .freeQueue
    else call .abandon

def reactorShutdown : Code Unit := do
  let ps ← (do if ← call .hasCompl then call .detach else return false)
  datachanShutdown cfg
  if ps then call .destroyPollset
  if ← call .hasWrapper then call .freeWrapper

def serverStart : Code (Option Errno) := do
  if ← call .isStarted then return some ealready
  else do
    call (.setStarting true)
    match ← reactorInit cfg with
    | some e => do
      call (.setStarting false)
      return some e
    | none => do
      call (.setStarted true)
      call (.setDone false)
      call (.setStopping false)
      if ← call .spawn then do
        call (.setRunning true)
        call .publish
        return none
      else do
        call (.setStarted false)
        call (.setStarting false)
        reactorShutdown cfg
        return some .enomem

def serverRunLoop : Code (Option Errno) := do
  if ← call .isStarted then return some ealready
  else do
    call (.setStarting true)
    match ← reactorInit cfg with
    | some e => do
      call (.setStarting false)
      return some e
    | none => do
      call (.setStarted true)
      call (.setRunning false)
      call (.setStopping false)
      call .publish
      call .enterLoop
      call .leaveLoop
      reactorShutdown cfg
      call (.setStarted false)
      return none

/- The wait itself has no outcome; `stop` loads `reactor_done` once more after it. -/
def awaitReactor : Nat → Code Unit
  | 0 => do
    let _ ← call .isDone
    return
  | n + 1 => do
    if ← call .isDone then return
    else do
      call .nap
      awaitReactor n

def stopReactor : Code (Option Errno) := do
  awaitReactor cfg.naps
  if ← call .isDone then do
    call .joinReactor
    call (.setRunning false)
    reactorShutdown cfg
    call (.setStarted false)
    return none
  else return some .etimedout

def serverStop : Code (Option Errno) := do
  if ← call .awaitReady then do
    call (.setStopping true)
    if ← call .hasCompl then do
      call .lockCompl
      call .wakeUnlock
    else call .wakeBare
    if ← call .isRunning then stopReactor cfg else return none
  else return none

def serverDestroy : Code (Option Errno) := do
  let rc ← (do if ← call .isStarted then serverStop cfg else return none)
  match rc with
  | some e => return some e
  | none => do
    call .freeServer
    return none

end OpenPs3Ftp.Lifecycle
