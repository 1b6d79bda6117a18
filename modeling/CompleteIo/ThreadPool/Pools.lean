import CompleteIo.ThreadPool.FirstPoll

namespace CompleteIo.Pools

/-- `current_worker_handle`: the worker that `CURRENT_WORKER` names, if it is one of the pool. -/
def currentWorkerHandle {Q W : Type*} [DecidableEq Q] (pool : W → Q) (current : Option W) (q : Q) :
    Option W :=
  match current with
  | some w => if pool w = q then some w else none
  | none => none

variable {Q W T : Type*}

/-- Several pools in one process, whose workers may notify each other's tasks. -/
structure State (W T : Type*) where
  tasks : GlobalTask.State W T
  -- The closure of `Handle::spawn` was called, in the first poll of the task.
  started : T → Bool
  -- The reference that would have led to the next poll was lost in a panic.
  orphaned : T → Bool
  -- An `expect` failed on a worker, which has exited the process.
  exited : Bool

inductive Act (W T : Type*)
  | spawn (t : T)
  -- The custom event of the task's home pool calls `handle_remote_spawn` on some thread.
  | handleRemoteSpawn (current : Option W) (t : T)
  | work (a : GlobalTask.Act W T)
  -- `_GlobalTask::notify` on a thread where `CURRENT_WORKER` is not set.
  | notify (t : T)

def initial : State W T where
  tasks := GlobalTask.initial
  started _ := false
  orphaned _ := false
  exited := false

section Step

variable [DecidableEq Q] [DecidableEq W] [DecidableEq T]

/-- The part of `notify` ahead of the test of `CURRENT_WORKER`. -/
def raise (x : GlobalTask.State W T) (t : T) : GlobalTask.State W T :=
  { x.setLevel t ((x.signalLevel t + 1) % 2 ^ 64) with
    owed := Function.update x.owed t true
    calls := Function.update x.calls t (x.calls t + 1) }

/-- A foreign thread that takes the level from 0 gets to `unimplemented!()`, without a push. -/
def notify (s : State W T) (t : T) : State W T :=
  if s.tasks.signalLevel t = 0 then
    { s with
      tasks := (raise s.tasks t).setSuspended t false
      orphaned := Function.update s.orphaned t true }
  else { s with tasks := raise s.tasks t }

def failRemoteSpawn (s : State W T) (current : Option W) (t : T) : State W T :=
  { s with
    tasks := { s.tasks with posted := s.tasks.posted.erase t }
    orphaned := Function.update s.orphaned t true
    exited := current.isSome }

def work (pool : W → Q) (home : T → Q) (s : State W T) (a : GlobalTask.Act W T) :
    Option (State W T) :=
  match a with
  | .spawnFuture _ | .takeDatum .. => none
  -- The first poll calls the closure, which asks for `handle.local()`.
  | .beginPoll w t level =>
    if s.started t ∨ (currentWorkerHandle pool (some w) (home t)).isSome then
      (GlobalTask.step s.tasks (.beginPoll w t level)).map fun x =>
        { s with tasks := x, started := Function.update s.started t true }
    else if s.tasks.activity w = .doPoll t (.poll level) then some { s with exited := true }
    else none
  | a => (GlobalTask.step s.tasks a).map fun x => { s with tasks := x }

def step (pool : W → Q) (home : T → Q) (s : State W T) (a : Act W T) : Option (State W T) :=
  if s.exited then none
  else match a with
    | .spawn t =>
      (GlobalTask.step s.tasks (.spawnFuture t)).map fun x => { s with tasks := x }
    | .handleRemoteSpawn current t =>
      match currentWorkerHandle pool current (home t) with
      | some w => (GlobalTask.step s.tasks (.takeDatum w t)).map fun x => { s with tasks := x }
      | none => if t ∈ s.tasks.posted then some (failRemoteSpawn s current t) else none
    | .work a => work pool home s a
    | .notify t => if s.tasks.future t ≠ .unspawned then some (notify s t) else none

/-- Any pools with any workers; `home` tells through which pool a task is spawned. -/
def machine (pool : W → Q) (home : T → Q) : Machine (State W T) (Act W T) where
  init s := s = initial
  step := step pool home

end Step

def FewCalls (s : State W T) : Act W T → Prop
  | .work a => GlobalTask.FewCalls s.tasks a
  | .notify t => s.tasks.calls t + 1 < 2 ^ 64
  | _ => True

/-- What a step can do to the tasks: a step of them, or one of the two ways to lose one. -/
inductive Step [DecidableEq Q] [DecidableEq W] [DecidableEq T] (pool : W → Q) (home : T → Q)
    (s : State W T) : Act W T → State W T → Prop
  | spawn {t : T} {x : GlobalTask.State W T}
      (hx : GlobalTask.step s.tasks (.spawnFuture t) = some x) :
      Step pool home s (.spawn t) { s with tasks := x }
  | handleRemoteSpawn {w : W} {t : T} {x : GlobalTask.State W T} (hw : pool w = home t)
      (hx : GlobalTask.step s.tasks (.takeDatum w t) = some x) :
      Step pool home s (.handleRemoteSpawn (some w) t) { s with tasks := x }
  | failRemoteSpawn {current : Option W} {t : T}
      (hcurrent : currentWorkerHandle pool current (home t) = none) (ht : t ∈ s.tasks.posted) :
      Step pool home s (.handleRemoteSpawn current t) (failRemoteSpawn s current t)
  | beginPoll {w : W} {t : T} {level : ℕ} {x : GlobalTask.State W T}
      (hx : GlobalTask.step s.tasks (.beginPoll w t level) = some x) :
      Step pool home s (.work (.beginPoll w t level))
        { s with tasks := x, started := Function.update s.started t true }
  | failLocal {w : W} {t : T} {level : ℕ} (ht : s.started t = false)
      (hw : s.tasks.activity w = .doPoll t (.poll level)) (hne : pool w ≠ home t) :
      Step pool home s (.work (.beginPoll w t level)) { s with exited := true }
  | work {a : GlobalTask.Act W T} {x : GlobalTask.State W T}
      (hspawn : ∀ t, a ≠ .spawnFuture t) (htake : ∀ w t, a ≠ .takeDatum w t)
      (hpoll : ∀ w t level, a ≠ .beginPoll w t level) (hx : GlobalTask.step s.tasks a = some x) :
      Step pool home s (.work a) { s with tasks := x }
  | notify {t : T} (ht : s.tasks.future t ≠ .unspawned) : Step pool home s (.notify t) (notify s t)

section Cases

variable [DecidableEq Q] [DecidableEq W] [DecidableEq T] {pool : W → Q} {home : T → Q}
  {s s' : State W T} {a : Act W T}

omit [DecidableEq W] [DecidableEq T] in
theorem currentWorkerHandle_eq_some {current : Option W} {q : Q} {w : W} :
    currentWorkerHandle pool current q = some w ↔ current = some w ∧ pool w = q := by
  cases current with
  | none => simp [currentWorkerHandle]
  | some v =>
    simp only [currentWorkerHandle, Option.ite_none_right_eq_some, Option.some.injEq]
    constructor
    · rintro ⟨hv, rfl⟩
      exact ⟨rfl, hv⟩
    · rintro ⟨rfl, hv⟩
      exact ⟨hv, rfl⟩

theorem step_cases (hs : step pool home s a = some s') :
    s.exited = false ∧ Step pool home s a s' := by
  simp only [step, Option.ite_none_left_eq_some, Bool.not_eq_true] at hs
  refine ⟨hs.1, ?_⟩
  obtain ⟨-, hs⟩ := hs
  cases a with
  | spawn t =>
    obtain ⟨x, hx, rfl⟩ := Option.map_eq_some_iff.mp hs
    exact .spawn hx
  | handleRemoteSpawn current t =>
    dsimp only at hs
    split at hs
    · rename_i w hw
      obtain ⟨rfl, hpool⟩ := currentWorkerHandle_eq_some.mp hw
      obtain ⟨x, hx, rfl⟩ := Option.map_eq_some_iff.mp hs
      exact .handleRemoteSpawn hpool hx
    · rename_i hcurrent
      obtain ⟨ht, hs⟩ := Option.ite_none_right_eq_some.mp hs
      exact Option.some.inj hs ▸ .failRemoteSpawn hcurrent ht
  | notify t =>
    obtain ⟨ht, hs⟩ := Option.ite_none_right_eq_some.mp hs
    exact Option.some.inj hs ▸ .notify ht
  | work a =>
    cases a with
    | spawnFuture | takeDatum => cases hs
    | beginPoll w t level =>
      simp only [work] at hs
      split at hs
      · obtain ⟨x, hx, rfl⟩ := Option.map_eq_some_iff.mp hs
        exact .beginPoll hx
      · rename_i hno
        obtain ⟨hw, hs⟩ := Option.ite_none_right_eq_some.mp hs
        rw [not_or] at hno
        refine Option.some.inj hs ▸ .failLocal (by simpa using hno.1) hw fun he => hno.2 ?_
        rw [currentWorkerHandle_eq_some.mpr ⟨rfl, he⟩]
        rfl
    | _ =>
      obtain ⟨x, hx, rfl⟩ := Option.map_eq_some_iff.mp hs
      exact .work (by simp) (by simp) (by simp) hx

end Cases

end CompleteIo.Pools
