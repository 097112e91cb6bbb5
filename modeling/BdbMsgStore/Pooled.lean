import BdbMsgStore.Frame
import BdbMsgStore.PoolService

/-!
# The store provider on its two pools

`StoreProvider` treats a pool as a bag of tasks.  Here the provider runs on two pools with their schedulers and
workers: a call of the broker hands its task to a pool, a worker fetches it, and only the tasks that workers have
fetched make steps.  The steps of a task are those of `StoreProvider.runThread`.

Besides there are the first steps of `finalizeMe`: the tracker is stopped, and the pending tasks of the pools are
cleared.
-/

namespace BdbMsgStore

open StoreProvider

/-- The next step of the thread hands a task to a pool and is its last one. -/
def Thread.schedules : Thread → Bool
  | .enqueue .schedule _ => true
  | .dequeue .schedule _ _ => true
  | .asyncDequeue (.wait (.returned r)) _ _ => decide (r = -1)
  | _ => false

inductive PoolName where
  | enqueue
  | dequeue
  deriving DecidableEq

/-- The pool that the task is scheduled on. -/
def Thread.poolName (t : Thread) : PoolName := if t.isEnqueue then .enqueue else .dequeue

/-- The provider and its pools.  The threads of `provider` are the calls of the broker in progress. -/
structure PooledProvider where
  provider : StoreProvider
  enqueuePool : Pool Thread
  dequeuePool : Pool Thread

/-- What the next step of a running task is for its worker: the task goes on as `next`, or it returns. -/
def TaskStep.ofThreads : List Thread → TaskStep Thread
  | [] => .returns
  | next :: _ => .goesOn next

inductive PooledAction where
  /-- A call of the broker begins or makes its next step, or a log cleaner does. -/
  | call (a : Action)
  /-- A running task makes its next step. -/
  | task (name : PoolName) (task now : Thread)
  /-- A worker of a pool makes its next step. -/
  | worker (name : PoolName) (w : PoolWorker Thread)
  | wait (name : PoolName) (taskThreshold : UInt64)
  | client (name : PoolName) (c : PoolClient)
  /-- `tracker.stop()` -/
  | stop
  | clear (name : PoolName)

namespace PooledProvider

def pool (s : PooledProvider) : PoolName → Pool Thread
  | .enqueue => s.enqueuePool
  | .dequeue => s.dequeuePool

def setPool (s : PooledProvider) (name : PoolName) (p : Pool Thread) : PooledProvider :=
  match name with
  | .enqueue => { s with enqueuePool := p }
  | .dequeue => { s with dequeuePool := p }

/-- The tasks are scheduled on their pools. -/
def schedule (s : PooledProvider) : List Thread → PooledProvider
  | [] => s
  | t :: ts => (s.setPool t.poolName ((s.pool t.poolName).schedule t)).schedule ts

/-- A step of a call of the broker. -/
def advance (s : PooledProvider) (t : Thread) : PooledProvider :=
  let r := s.provider.runThread t
  if t.schedules then { s with provider := { r.1 with threads := s.provider.threads.erase t } }.schedule r.2.1
  else { s with provider := { r.1 with threads := s.provider.threads.erase t ++ r.2.1 } }

/-- The part of a step of a task that is not about its own worker. -/
def runTask (s : PooledProvider) (now : Thread) : PooledProvider :=
  let r := s.provider.runThread now
  if now.schedules then { s with provider := r.1 }.schedule r.2.1 else { s with provider := r.1 }

/-- What the step is for the worker. -/
def taskStep (s : PooledProvider) (now : Thread) : TaskStep Thread :=
  if now.schedules then .returns else .ofThreads (s.provider.runThread now).2.1

/-- A step of one pool. -/
def stepPool (s : PooledProvider) (name : PoolName) (a : PoolAction Thread) : Option PooledProvider :=
  ((s.pool name).step a).map fun r => s.setPool name r.1

/-- A step of the system.  Tasks do not throw here, so no worker has to be replaced. -/
def step (s : PooledProvider) : PooledAction → Option (PooledProvider × List Event)
  | .call (.advance t) =>
    if t ∈ s.provider.threads then some (s.advance t, (s.provider.runThread t).2.2) else none
  | .call a => (s.provider.step a).map fun r => ({ s with provider := r.1 }, r.2)
  | .task name task now =>
    ((s.runTask now).stepPool name (.task task now (s.taskStep now))).map fun s' =>
      (s', (s.provider.runThread now).2.2)
  | .worker name w => (s.stepPool name (.worker w 1)).map fun s' => (s', [])
  | .wait name k => (s.stepPool name (.wait k)).map fun s' => (s', [])
  | .client name c => (s.stepPool name (.client c)).map fun s' => (s', [])
  | .stop => some ({ s with provider := { s.provider with tracker := { s.provider.tracker with stopped := true } } },
      [])
  | .clear name => (s.stepPool name .clear).map fun s' => (s', [])

/-- The provider after `init`, with empty pools. -/
def create (s : StoreProvider) (numThreadEnqueue numThreadDequeue : UInt64) (creatable : Nat) : PooledProvider where
  provider := s
  enqueuePool := Pool.create numThreadEnqueue creatable
  dequeuePool := Pool.create numThreadDequeue creatable

end PooledProvider

end BdbMsgStore
