import Mathlib.Data.List.Basic
import CompleteIo.Lib.Machine

namespace CompleteIo.WorkerLoop

inductive WorkerPc (L G : Type*)
  | test
  | popLocal
  -- The body of that loop, through which the `RefMut` lives.
  | pollLocal (task : L)
  | steal
  | pollGlobal (task : G)
  | turn (timeout : Option ℕ)
  | waiting (timeout : Option ℕ)
  | handling
  | left
  deriving DecidableEq

structure Worker (L G : Type*) where
  pc : WorkerPc L G
  localWorkQueue : List L
  workQueue : List G
  -- A task from `work_queue` has spawned a local one since `local_work_queue` was found empty.
  spawned : Bool

/-- What a step of a worker comes to: a panic is caught at the top of the thread, which then
exits the process. -/
inductive Outcome (L G : Type*)
  | runs (worker : Worker L G)
  | exits

/-- The pool: its flag, its workers, the events that would wake one of them, and those that are
still to be posted. -/
structure State (W L G : Type*) where
  active : Bool
  worker : W → Worker L G
  pending : ℕ
  posting : ℕ
  exited : Bool

inductive WorkerAct (L G : Type*)
  | test
  | popLocal
  | steal
  | stealEmpty
  | stealInconsistent
  | spawnLocal (task : L)
  -- `_GlobalTask::notify` or `handle_remote_spawn`.
  | push (task : G)
  -- `_LocalTask::notify` of a suspended task.
  | notifyLocal
  | pollEnd
  | panic
  | turn
  | wake (events : ℕ)
  | timeout
  | turnFails
  | turnEnd

inductive Act (W L G : Type*)
  | beginShutdown
  -- An event of a source outside the pool.
  | ready
  | postBegin
  | postEnd (ok : Bool)
  | worker (w : W) (a : WorkerAct L G)

variable {W L G : Type*}

/-- User code runs on the worker: a poll or a handler. -/
def WorkerPc.running : WorkerPc L G → Bool
  | .pollLocal _ | .pollGlobal _ | .handling => true
  | _ => false

def Worker.goto (x : Worker L G) (pc : WorkerPc L G) : Worker L G := { x with pc := pc }

@[simp] theorem goto_pc (x : Worker L G) (pc : WorkerPc L G) : (x.goto pc).pc = pc := rfl

def popLocal (x : Worker L G) : Worker L G :=
  match x.localWorkQueue with
  | [] => { x with pc := .steal, spawned := false }
  | task :: rest => { x with pc := .pollLocal task, localWorkQueue := rest }

/-- `borrow_mut().push_front(task)`, where a borrow that is still alive makes it panic. -/
def spawnLocal (x : Worker L G) (task : L) : Option (Outcome L G) :=
  match x.pc with
  | .pollLocal _ => some .exits
  | .pollGlobal _ =>
    some (.runs { x with localWorkQueue := task :: x.localWorkQueue, spawned := true })
  | .handling => some (.runs { x with localWorkQueue := task :: x.localWorkQueue })
  | _ => none

def workerStep (active : Bool) (pending : ℕ) (x : Worker L G) :
    WorkerAct L G → Option (Outcome L G)
  | .test =>
    match x.pc with
    | .test => some (.runs (x.goto (if active then .popLocal else .left)))
    | _ => none
  | .popLocal =>
    match x.pc with
    | .popLocal => some (.runs (popLocal x))
    | _ => none
  -- `coco` documents that its deques are stolen from in the order of the pushes.
  | .steal =>
    match x.pc, x.workQueue with
    | .steal, task :: rest => some (.runs { x with pc := .pollGlobal task, workQueue := rest })
    | _, _ => none
  -- `Steal::Empty` is returned only for an empty deque.
  | .stealEmpty =>
    match x.pc, x.workQueue with
    | .steal, [] => some (.runs (x.goto (.turn none)))
    | _, _ => none
  | .stealInconsistent =>
    match x.pc with
    | .steal => some (.runs (x.goto (.turn (some 0))))
    | _ => none
  | .spawnLocal task => spawnLocal x task
  | .push task =>
    if x.pc.running then some (.runs { x with workQueue := x.workQueue ++ [task] }) else none
  | .notifyLocal | .panic => if x.pc.running then some .exits else none
  | .pollEnd =>
    match x.pc with
    | .pollLocal _ => some (.runs (x.goto .popLocal))
    | .pollGlobal _ => some (.runs (x.goto .steal))
    | _ => none
  | .turn =>
    match x.pc with
    | .turn timeout => some (.runs (x.goto (.waiting timeout)))
    | _ => none
  | .wake events =>
    match x.pc with
    | .waiting _ =>
      if 0 < events ∧ events ≤ pending then some (.runs (x.goto .handling)) else none
    | _ => none
  | .timeout =>
    match x.pc with
    | .waiting (some _) => some (.runs (x.goto .test))
    | _ => none
  | .turnFails =>
    match x.pc with
    | .waiting _ => some .exits
    | _ => none
  | .turnEnd =>
    match x.pc with
    | .handling => some (.runs (x.goto .test))
    | _ => none

def WorkerAct.taken : WorkerAct L G → ℕ
  | .wake events => events
  | _ => 0

def initial : State W L G where
  active := true
  worker _ := { pc := .test, localWorkQueue := [], workQueue := [], spawned := false }
  pending := 0
  posting := 0
  exited := false

section Step

variable [DecidableEq W]

def State.finish (s : State W L G) (w : W) (a : WorkerAct L G) : Outcome L G → State W L G
  | .runs x =>
    { s with worker := Function.update s.worker w x, pending := s.pending - a.taken }
  | .exits => { s with exited := true }

def step (s : State W L G) (a : Act W L G) : Option (State W L G) :=
  if s.exited then none
  else match a with
    | .beginShutdown => some { s with active := false }
    | .ready => some { s with pending := s.pending + 1 }
    | .postBegin => some { s with posting := s.posting + 1 }
    | .postEnd ok =>
      if 0 < s.posting then
        some { s with
          posting := s.posting - 1
          pending := if ok then s.pending + 1 else s.pending }
      else none
    | .worker w a => (workerStep s.active s.pending (s.worker w) a).map (s.finish w a)

/-- A pool with a worker for each `w`, from the start of its threads on. -/
def machine (W L G : Type*) [DecidableEq W] : Machine (State W L G) (Act W L G) where
  init s := s = initial
  step := step

end Step

def WorkerAct.MayExit : WorkerAct L G → Prop
  | .spawnLocal _ | .notifyLocal | .panic | .turnFails => True
  | _ => False

inductive WorkerStep (active : Bool) (pending : ℕ) (x : Worker L G) :
    WorkerAct L G → Outcome L G → Prop
  | test (hpc : x.pc = .test) :
      WorkerStep active pending x .test (.runs (x.goto (if active then .popLocal else .left)))
  | popLocal (hpc : x.pc = .popLocal) : WorkerStep active pending x .popLocal (.runs (popLocal x))
  | steal {task : G} {rest : List G} (hpc : x.pc = .steal) (hqueue : x.workQueue = task :: rest) :
      WorkerStep active pending x .steal
        (.runs { x with pc := .pollGlobal task, workQueue := rest })
  | stealEmpty (hpc : x.pc = .steal) (hqueue : x.workQueue = []) :
      WorkerStep active pending x .stealEmpty (.runs (x.goto (.turn none)))
  | stealInconsistent (hpc : x.pc = .steal) :
      WorkerStep active pending x .stealInconsistent (.runs (x.goto (.turn (some 0))))
  | spawnFromGlobal {task : L} {polled : G} (hpc : x.pc = .pollGlobal polled) :
      WorkerStep active pending x (.spawnLocal task)
        (.runs { x with localWorkQueue := task :: x.localWorkQueue, spawned := true })
  | spawnFromHandler {task : L} (hpc : x.pc = .handling) :
      WorkerStep active pending x (.spawnLocal task)
        (.runs { x with localWorkQueue := task :: x.localWorkQueue })
  | push {task : G} (hpc : x.pc.running = true) :
      WorkerStep active pending x (.push task)
        (.runs { x with workQueue := x.workQueue ++ [task] })
  | pollLocalEnd {polled : L} (hpc : x.pc = .pollLocal polled) :
      WorkerStep active pending x .pollEnd (.runs (x.goto .popLocal))
  | pollGlobalEnd {polled : G} (hpc : x.pc = .pollGlobal polled) :
      WorkerStep active pending x .pollEnd (.runs (x.goto .steal))
  | turn {timeout : Option ℕ} (hpc : x.pc = .turn timeout) :
      WorkerStep active pending x .turn (.runs (x.goto (.waiting timeout)))
  | wake {timeout : Option ℕ} {events : ℕ} (hpc : x.pc = .waiting timeout) (hpos : 0 < events)
      (hle : events ≤ pending) :
      WorkerStep active pending x (.wake events) (.runs (x.goto .handling))
  | timeout {ms : ℕ} (hpc : x.pc = .waiting (some ms)) :
      WorkerStep active pending x .timeout (.runs (x.goto .test))
  | turnEnd (hpc : x.pc = .handling) :
      WorkerStep active pending x .turnEnd (.runs (x.goto .test))
  | exits {a : WorkerAct L G} (ha : a.MayExit) : WorkerStep active pending x a .exits

theorem workerStep_cases {active : Bool} {pending : ℕ} {x : Worker L G} {a : WorkerAct L G}
    {o : Outcome L G} (h : workerStep active pending x a = some o) :
    WorkerStep active pending x a o := by
  cases a <;> simp only [workerStep, spawnLocal] at h
  case push task =>
    simp only [Option.ite_none_right_eq_some, Option.some.injEq] at h
    exact h.2 ▸ .push h.1
  case notifyLocal | panic =>
    simp only [Option.ite_none_right_eq_some, Option.some.injEq] at h
    exact h.2 ▸ .exits trivial
  case wake events =>
    split at h
    · rename_i hpc
      simp only [Option.ite_none_right_eq_some, Option.some.injEq] at h
      exact h.2 ▸ .wake hpc h.1.1 h.1.2
    · cases h
  case turnFails =>
    split at h
    · exact Option.some.inj h ▸ .exits trivial
    · cases h
  case spawnLocal task =>
    split at h
    · exact Option.some.inj h ▸ .exits trivial
    · rename_i hpc
      exact Option.some.inj h ▸ .spawnFromGlobal hpc
    · rename_i hpc
      exact Option.some.inj h ▸ .spawnFromHandler hpc
    · cases h
  case pollEnd =>
    split at h
    · rename_i hpc
      exact Option.some.inj h ▸ .pollLocalEnd hpc
    · rename_i hpc
      exact Option.some.inj h ▸ .pollGlobalEnd hpc
    · cases h
  case steal | stealEmpty =>
    split at h
    · rename_i hpc hqueue
      cases h
      constructor
      · exact hpc
      · exact hqueue
    · cases h
  all_goals
    split at h
    · rename_i hpc
      cases h
      constructor
      exact hpc
    · cases h

inductive Step [DecidableEq W] (s : State W L G) : Act W L G → State W L G → Prop
  | beginShutdown : Step s .beginShutdown { s with active := false }
  | ready : Step s .ready { s with pending := s.pending + 1 }
  | postBegin : Step s .postBegin { s with posting := s.posting + 1 }
  | postEnd {ok : Bool} (hpos : 0 < s.posting) : Step s (.postEnd ok)
      { s with posting := s.posting - 1, pending := if ok then s.pending + 1 else s.pending }
  | worker {w : W} {a : WorkerAct L G} {x : Worker L G}
      (hworker : WorkerStep s.active s.pending (s.worker w) a (.runs x)) :
      Step s (.worker w a)
        { s with worker := Function.update s.worker w x, pending := s.pending - a.taken }
  | exits {w : W} {a : WorkerAct L G}
      (hworker : WorkerStep s.active s.pending (s.worker w) a .exits) :
      Step s (.worker w a) { s with exited := true }

theorem step_cases [DecidableEq W] {s t : State W L G} {a : Act W L G} (hs : step s a = some t) :
    s.exited = false ∧ Step s a t := by
  simp only [step, Option.ite_none_left_eq_some, Bool.not_eq_true] at hs
  refine ⟨hs.1, ?_⟩
  obtain ⟨-, hs⟩ := hs
  cases a with
  | worker w a =>
    obtain ⟨o, ho, rfl⟩ := Option.map_eq_some_iff.mp hs
    cases o with
    | runs x => exact .worker (workerStep_cases ho)
    | exits => exact .exits (workerStep_cases ho)
  | postEnd ok =>
    simp only [Option.ite_none_right_eq_some, Option.some.injEq] at hs
    exact hs.2 ▸ .postEnd hs.1
  | beginShutdown => exact Option.some.inj hs ▸ .beginShutdown
  | ready => exact Option.some.inj hs ▸ .ready
  | postBegin => exact Option.some.inj hs ▸ .postBegin

end CompleteIo.WorkerLoop
