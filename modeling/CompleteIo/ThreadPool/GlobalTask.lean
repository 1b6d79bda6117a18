import Mathlib.Algebra.Group.Nat.Defs
import Mathlib.Data.List.Basic
import CompleteIo.Lib.Machine

namespace CompleteIo.GlobalTask

inductive FutureState
  | unspawned
  | pending
  | resolved
  deriving DecidableEq

/-- Where a call of `GlobalTask::do_poll` is; `level` is its `init_signal_level`. -/
inductive PollPc
  | load
  | poll (level : ℕ)
  | polling (level : ℕ)
  | compareExchange (level : ℕ)
  deriving DecidableEq

inductive Activity (T : Type*)
  -- Between tasks, in its loop or in `event_queue.turn`.
  | idle
  | spawning (t : T)
  | doPoll (t : T) (pc : PollPc)
  -- A root future resolved with an error, so that the process is about to exit.
  | exiting
  deriving DecidableEq

variable {W T : Type*}

/-- The tasks of a `ThreadPool` and who holds them. -/
structure State (W T : Type*) where
  future : T → FutureState
  -- `signal_level`, a word of 64 bits.
  signalLevel : T → ℕ
  -- The data posted by `spawn_future` and not yet taken by a handler.
  posted : List T
  activity : W → Activity T
  deque : W → List T
  -- The calls of `notify`, by thread, that raised `signal_level` from 0 and push next.
  pushing : W → List T
  -- The last `do_poll` ended by its `compare_exchange` and no `notify` came since.
  suspended : T → Bool
  -- A `notify` came since the latest poll of the future began.
  owed : T → Bool
  calls : T → ℕ

inductive Act (W T : Type*)
  | spawnFuture (t : T)
  | takeDatum (w : W) (t : T)
  | pushSpawned (w : W) (t : T)
  | steal (w : W) (t : T)
  | load (w : W) (t : T)
  | beginPoll (w : W) (t : T) (level : ℕ)
  | pollNotReady (w : W) (t : T) (level : ℕ)
  | pollReady (w : W) (t : T) (level : ℕ)
  | pollErr (w : W) (t : T) (level : ℕ)
  | compareExchange (w : W) (t : T) (level : ℕ)
  | fetchAdd (w : W) (t : T)
  | push (w : W) (t : T)

section Step

variable [DecidableEq W] [DecidableEq T]

def State.setActivity (s : State W T) (w : W) (x : Activity T) : State W T :=
  { s with activity := Function.update s.activity w x }

def State.pushTo (s : State W T) (w : W) (t : T) : State W T :=
  { s with deque := Function.update s.deque w (s.deque w ++ [t]) }

def State.resolve (s : State W T) (t : T) : State W T :=
  { s with future := Function.update s.future t .resolved }

def State.setLevel (s : State W T) (t : T) (level : ℕ) : State W T :=
  { s with signalLevel := Function.update s.signalLevel t level }

def State.setSuspended (s : State W T) (t : T) (b : Bool) : State W T :=
  { s with suspended := Function.update s.suspended t b }

def State.setOwed (s : State W T) (t : T) (b : Bool) : State W T :=
  { s with owed := Function.update s.owed t b }

/-- `compare_exchange(level, 0)` and the match on its result. -/
def compareExchange (s : State W T) (w : W) (t : T) (level : ℕ) : State W T :=
  if s.signalLevel t = level then
    ((s.setLevel t 0).setSuspended t true).setActivity w .idle
  else s.setActivity w (.doPoll t (.poll (s.signalLevel t)))

/-- `fetch_add(1)`, and whether a push follows. -/
def fetchAdd (s : State W T) (w : W) (t : T) : State W T :=
  let raised := { s.setLevel t ((s.signalLevel t + 1) % 2 ^ 64) with
    owed := Function.update s.owed t true
    calls := Function.update s.calls t (s.calls t + 1) }
  if s.signalLevel t = 0 then
    { raised.setSuspended t false with
      pushing := Function.update s.pushing w (t :: s.pushing w) }
  else raised

def step (s : State W T) : Act W T → Option (State W T)
  | .spawnFuture t =>
    if s.future t = .unspawned then
      some { s.setLevel t 1 with
        future := Function.update s.future t .pending
        posted := s.posted ++ [t] }
    else none
  -- The custom event calls `handle_remote_spawn` inside a worker's `event_queue.turn`.
  | .takeDatum w t =>
    if s.activity w = .idle ∧ t ∈ s.posted then
      some ({ s with posted := s.posted.erase t }.setActivity w (.spawning t))
    else none
  | .pushSpawned w t =>
    if s.activity w = .spawning t then some ((s.pushTo w t).setActivity w .idle) else none
  -- `steal_weak` on the worker's own deque, the only one it ever takes from.
  | .steal w t =>
    if s.activity w = .idle ∧ t ∈ s.deque w then
      some ({ s with deque := Function.update s.deque w ((s.deque w).erase t) }.setActivity w
        (.doPoll t .load))
    else none
  | .load w t =>
    if s.activity w = .doPoll t .load then
      some (s.setActivity w (.doPoll t (.poll (s.signalLevel t))))
    else none
  | .beginPoll w t level =>
    if s.activity w = .doPoll t (.poll level) then
      some ((s.setOwed t false).setActivity w (.doPoll t (.polling level)))
    else none
  | .pollNotReady w t level =>
    if s.activity w = .doPoll t (.polling level) then
      some (s.setActivity w (.doPoll t (.compareExchange level)))
    else none
  | .pollReady w t level =>
    if s.activity w = .doPoll t (.polling level) then
      some ((s.resolve t).setActivity w .idle)
    else none
  -- The panic is caught at the top of the worker, which then exits the process.
  | .pollErr w t level =>
    if s.activity w = .doPoll t (.polling level) then
      some ((s.resolve t).setActivity w .exiting)
    else none
  | .compareExchange w t level =>
    if s.activity w = .doPoll t (.compareExchange level) then some (compareExchange s w t level)
    else none
  -- A handle to notify through exists only once the task was spawned.
  | .fetchAdd w t => if s.future t ≠ .unspawned then some (fetchAdd s w t) else none
  | .push w t =>
    if t ∈ s.pushing w then
      some ({ s with pushing := Function.update s.pushing w ((s.pushing w).erase t) }.pushTo w t)
    else none

def initial : State W T where
  future _ := .unspawned
  signalLevel _ := 0
  posted := []
  activity _ := .idle
  deque _ := []
  pushing _ := []
  suspended _ := false
  owed _ := false
  calls _ := 0

/-- Any workers and tasks, with every notification coming from a thread of a worker. -/
def machine (W T : Type*) [DecidableEq W] [DecidableEq T] : Machine (State W T) (Act W T) where
  init s := s = initial
  step := step

end Step

/-- `notify` is called fewer than 2^64 times on each task. -/
def FewCalls (s : State W T) : Act W T → Prop
  | .fetchAdd _ t => s.calls t + 1 < 2 ^ 64
  | _ => True

/-- A place that holds a reference to a task which will lead to a poll, or `suspended`. -/
inductive Place (W : Type*)
  | posted
  | spawning (w : W)
  | queued (w : W)
  | doPoll (w : W)
  | pushing (w : W)
  | suspended
  deriving DecidableEq

def Activity.polls [DecidableEq T] (t : T) : Activity T → Bool
  | .doPoll t' _ => t' = t
  | _ => false

/-- How often the task is at each place. -/
def occupancy [DecidableEq T] (s : State W T) (t : T) : Place W → ℕ
  | .posted => s.posted.count t
  | .spawning w => if s.activity w = .spawning t then 1 else 0
  | .queued w => (s.deque w).count t
  | .doPoll w => if (s.activity w).polls t then 1 else 0
  | .pushing w => (s.pushing w).count t
  | .suspended => if s.suspended t then 1 else 0

end CompleteIo.GlobalTask
