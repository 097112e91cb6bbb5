import BdbMsgStore.Lib.Bags
import BdbMsgStore.Lib.Runs
import BdbMsgStore.Lib.Words

/-!
# The thread pool

`pool_core.hpp` and `worker_thread.hpp`, with the policies of `boost::threadpool::pool`: tasks are run first in
first out, the number of threads is kept, and a shutdown waits for all tasks.  All calls hold the monitor of the
pool while they run, except that a task is run without it, and that a sleep on one of the two condition variables
releases it.  So a step of the model is what happens between two such points.

The workers, and the threads that are inside `wait` or `shutdown`, are bags of program counters.  A task is an
arbitrary program: while it runs it may go on, return, or throw.
-/

namespace BdbMsgStore

/-- What a worker is about to do, or where it sleeps. -/
inductive PoolWorker (α : Type) where
  /-- It calls `execute_task`. -/
  | ready
  /-- It sleeps on `m_task_or_terminate_workers_event`. -/
  | asleep
  /-- It is woken and has to get the monitor back. -/
  | notified
  /-- It runs `task`, which has come to `now`. -/
  | executing (task now : α)
  /-- `execute_task` has returned `false`. -/
  | retiring
  /-- The task has thrown. -/
  | dying
  deriving DecidableEq

/-- The worker is counted in `m_active_worker_count`. -/
def PoolWorker.active {α : Type} : PoolWorker α → Bool
  | .asleep | .notified => false
  | _ => true

/-- The task the worker runs, as it was scheduled. -/
def PoolWorker.task? {α : Type} : PoolWorker α → Option α
  | .executing task _ => some task
  | .ready | .asleep | .notified | .retiring | .dying => none

/-- The state of the task the worker runs. -/
def PoolWorker.now? {α : Type} : PoolWorker α → Option α
  | .executing _ now => some now
  | .ready | .asleep | .notified | .retiring | .dying => none

/-- `notify_all` on `m_task_or_terminate_workers_event`, for one worker -/
def PoolWorker.notify {α : Type} : PoolWorker α → PoolWorker α
  | .asleep => .notified
  | w => w

/-- Where a thread stands that has called `wait` or `shutdown`. -/
inductive ClientPc where
  /-- In `wait`. -/
  | wait (taskThreshold : UInt64)
  /-- In the `wait` of `wait_for_all_tasks::shutdown`. -/
  | shutdown
  /-- It calls `terminate_all_workers(true)`. -/
  | terminate
  /-- In the loop of `terminate_all_workers`. -/
  | terminating
  deriving DecidableEq

/-- A thread inside `wait` or `shutdown`; it sleeps on `m_worker_idle_or_terminated_event`, or it is about to go
on. -/
structure PoolClient where
  pc : ClientPc
  asleep : Bool
  deriving DecidableEq

/-- `notify_all` on `m_worker_idle_or_terminated_event`, for one thread -/
def PoolClient.notify (c : PoolClient) : PoolClient := { c with asleep := false }

/-- What happens to tasks, and the returns of `wait` (also from within `shutdown`) and of `shutdown`. -/
inductive PoolEvent (α : Type) where
  | scheduled (task : α)
  | fetched (task : α)
  | cleared (tasks : List α)
  | finished (task : α)
  | failed (task : α)
  | waited (taskThreshold : UInt64)
  | shutDown
  deriving DecidableEq

/-- `pool_core`, with the threads that are in it. -/
structure Pool (α : Type) where
  workerCount : UInt64 := 0
  targetWorkerCount : UInt64 := 0
  activeWorkerCount : UInt64 := 0
  scheduler : List α := []
  terminateAllWorkers : Bool := false
  terminatedWorkers : Nat := 0
  workers : List (PoolWorker α) := []
  clients : List PoolClient := []

namespace Pool

variable {α : Type}

def notifyWorkers (p : Pool α) : Pool α := { p with workers := p.workers.map PoolWorker.notify }

def notifyClients (p : Pool α) : Pool α := { p with clients := p.clients.map PoolClient.notify }

/-- `clear`.  The threads inside `wait` are not notified. -/
def clear (p : Pool α) : Pool α := { p with scheduler := [] }

/-- The loop of `resize` that creates workers.  The system provides `creatable` threads; the creation of the next one
throws `thread_resource_error`. -/
def createWorkers (p : Pool α) : Nat → Bool × Pool α
  | 0 => (!decide (p.workerCount < p.targetWorkerCount), p)
  | creatable + 1 =>
    if p.workerCount < p.targetWorkerCount then
      createWorkers { p with
        workers := p.workers ++ [.ready]
        workerCount := p.workerCount + 1
        activeWorkerCount := p.activeWorkerCount + 1 } creatable
    else (true, p)

/-- `resize` -/
def resize (p : Pool α) (workerCount : UInt64) (creatable : Nat) : Bool × Pool α :=
  if p.terminateAllWorkers then (false, p)
  else
    let p := { p with targetWorkerCount := workerCount }
    if p.workerCount ≤ p.targetWorkerCount then p.createWorkers creatable else (true, p.notifyWorkers)

/-- A worker leaves the counts. -/
def dropWorker (p : Pool α) : Pool α :=
  { p with
    workerCount := p.workerCount - 1
    activeWorkerCount := p.activeWorkerCount - 1 }.notifyClients

/-- `worker_destructed` -/
def workerDestructed (p : Pool α) : Pool α :=
  let p := p.dropWorker
  if p.terminateAllWorkers then { p with terminatedWorkers := p.terminatedWorkers + 1 } else p

/-- `worker_died_unexpectedly`, with that of `static_size` -/
def workerDiedUnexpectedly (p : Pool α) (creatable : Nat) : Pool α :=
  let p := p.dropWorker
  if p.terminateAllWorkers then { p with terminatedWorkers := p.terminatedWorkers + 1 }
  else (p.resize (p.workerCount + 1) creatable).2

/-- The loop of `execute_task` that waits for a task, from its test on: the pool, what becomes of the worker, and what
happens. -/
def fetch (p : Pool α) : Pool α × PoolWorker α × List (PoolEvent α) :=
  match p.scheduler with
  | [] =>
    if p.workerCount > p.targetWorkerCount then (p, .retiring, [])
    else ({ p with activeWorkerCount := p.activeWorkerCount - 1 }.notifyClients, .asleep, [])
  | task :: rest => ({ p with scheduler := rest }, .executing task task, [.fetched task])

/-- `execute_task` up to the call of the task -/
def executeTask (p : Pool α) : Pool α × PoolWorker α × List (PoolEvent α) :=
  if p.workerCount > p.targetWorkerCount then (p, .retiring, []) else p.fetch

/-- `wait` has to wait. -/
def Busy (p : Pool α) (taskThreshold : UInt64) : Prop :=
  if taskThreshold = 0 then p.activeWorkerCount ≠ 0 ∨ p.scheduler ≠ []
  else taskThreshold < p.activeWorkerCount + .ofNat p.scheduler.length

instance [DecidableEq α] (p : Pool α) (k : UInt64) : Decidable (p.Busy k) :=
  inferInstanceAs (Decidable (ite _ _ _))

/-- The loop of `terminate_all_workers(true)`, and what follows it: the workers that have ended are joined. -/
def awaitTermination (p : Pool α) : Pool α × List PoolClient × List (PoolEvent α) :=
  if p.activeWorkerCount > 0 then (p, [⟨.terminating, true⟩], []) else
    ({ p with terminatedWorkers := 0 }, [], [.shutDown])

variable [DecidableEq α]

/-- `schedule`: one sleeping worker is notified. -/
def schedule (p : Pool α) (task : α) : Pool α :=
  { p with
    scheduler := p.scheduler ++ [task]
    workers := if .asleep ∈ p.workers then p.workers.erase .asleep ++ [.notified] else p.workers }

/-- The next step of a worker that does not run a task; it is not among `p.workers`.  A sleeping worker may wake up
without a notification. -/
def runWorker (p : Pool α) (creatable : Nat) : PoolWorker α → Pool α × List (PoolWorker α) × List (PoolEvent α)
  | .ready => (p.executeTask.1, [p.executeTask.2.1], p.executeTask.2.2)
  | .asleep => (p, [.notified], [])
  | .notified =>
    let r := { p with activeWorkerCount := p.activeWorkerCount + 1 }.fetch
    (r.1, [r.2.1], r.2.2)
  | .executing task now => (p, [.executing task now], [])
  | .retiring => (p.workerDestructed, [], [])
  | .dying => (p.workerDiedUnexpectedly creatable, [], [])

/-- The next step of a thread inside `wait` or `shutdown`; it is not among `p.clients`. -/
def runClient (p : Pool α) (c : PoolClient) : Pool α × List PoolClient × List (PoolEvent α) :=
  if c.asleep then (p, [c.notify], [])
  else
    match c.pc with
    | .wait k => if p.Busy k then (p, [⟨.wait k, true⟩], []) else (p, [], [.waited k])
    | .shutdown => if p.Busy 0 then (p, [⟨.shutdown, true⟩], []) else (p, [⟨.terminate, false⟩], [.waited 0])
    | .terminate => awaitTermination { p with terminateAllWorkers := true, targetWorkerCount := 0 }.notifyWorkers
    | .terminating => p.awaitTermination

end Pool

/-- What a running task does next. -/
inductive TaskStep (α : Type) where
  | goesOn (next : α)
  | returns
  | throws

/-- A call from outside, or a step of a worker, of a task, or of a thread inside `wait` or `shutdown`. -/
inductive PoolAction (α : Type) where
  | schedule (task : α)
  | clear
  | resize (workerCount : UInt64) (creatable : Nat)
  | wait (taskThreshold : UInt64)
  | shutdown
  | worker (w : PoolWorker α) (creatable : Nat)
  | task (task now : α) (r : TaskStep α)
  | client (c : PoolClient)

/-- What becomes of a worker after a step of its task. -/
def TaskStep.worker {α : Type} (task : α) : TaskStep α → PoolWorker α
  | .goesOn next => .executing task next
  | .returns => .ready
  | .throws => .dying

def TaskStep.events {α : Type} (task : α) : TaskStep α → List (PoolEvent α)
  | .goesOn _ => []
  | .returns => [.finished task]
  | .throws => [.failed task]

namespace Pool

variable {α : Type} [DecidableEq α]

/-- A step of the pool. -/
def step (p : Pool α) : PoolAction α → Option (Pool α × List (PoolEvent α))
  | .schedule task => some (p.schedule task, [.scheduled task])
  | .clear => some (p.clear, [.cleared p.scheduler])
  | .resize n creatable => some ((p.resize n creatable).2, [])
  | .wait k => some ({ p with clients := p.clients ++ [⟨.wait k, false⟩] }, [])
  | .shutdown => some ({ p with clients := p.clients ++ [⟨.shutdown, false⟩] }, [])
  | .worker w creatable =>
    if w ∈ p.workers then
      let r := { p with workers := p.workers.erase w }.runWorker creatable w
      some ({ r.1 with workers := r.1.workers ++ r.2.1 }, r.2.2)
    else none
  | .task task now r =>
    if .executing task now ∈ p.workers then
      some ({ p with workers := p.workers.erase (.executing task now) ++ [r.worker task] }, r.events task)
    else none
  | .client c =>
    if c ∈ p.clients then
      let r := { p with clients := p.clients.erase c }.runClient c
      some ({ r.1 with clients := r.1.clients ++ r.2.1 }, r.2.2)
    else none

/-- `pool(initial_threads)`: an empty pool is resized. -/
def create (initialThreads : UInt64) (creatable : Nat) : Pool α := (({} : Pool α).resize initialThreads creatable).2

end Pool

end BdbMsgStore
