import CompleteIo.Lib.RefCell
import CompleteIo.ThreadPool.WorkerLoop

namespace CompleteIo.LocalSpawn

open WorkerLoop (WorkerPc WorkerAct Outcome)

/-- A worker, with the borrow of its `local_work_queue`. -/
structure State (L G : Type*) where
  pc : WorkerPc L G
  localWorkQueue : RefCell (List L)
  workQueue : List G
  -- A task from `work_queue` has spawned a local one since `local_work_queue` was found empty.
  spawned : Bool
  -- The tasks of all calls of `spawn_local_future` so far, the latest first.
  calls : List L
  inserted : List L
  taken : List L
  borrowError : Bool
  exited : Bool

/-- An action of the worker, with the flag of the pool and the events that it finds. -/
structure Act (L G : Type*) where
  active : Bool
  pending : ℕ
  act : WorkerAct L G

variable {L G : Type*}

def initial : State L G where
  pc := .test
  localWorkQueue := .new []
  workQueue := []
  spawned := false
  calls := []
  inserted := []
  taken := []
  borrowError := false
  exited := false

def State.worker (s : State L G) : WorkerLoop.Worker L G :=
  ⟨s.pc, s.localWorkQueue.value, s.workQueue, s.spawned⟩

def State.setWorker (s : State L G) (x : WorkerLoop.Worker L G) : State L G :=
  { s with
    pc := x.pc
    localWorkQueue := { s.localWorkQueue with value := x.localWorkQueue }
    workQueue := x.workQueue
    spawned := x.spawned }

def State.exit (s : State L G) : State L G := { s with exited := true }

/-- The head of the loop: the `RefMut` it pops through lives to the end of the body. -/
def popLocal (s : State L G) : State L G :=
  match s.localWorkQueue.borrowMut with
  | none => s.exit
  | some queue =>
    match queue.value with
    | [] => { s with pc := .steal, localWorkQueue := queue.release, spawned := false }
    | task :: rest =>
      { s with
        pc := .pollLocal task
        localWorkQueue := queue.modify fun _ => rest
        taken := task :: s.taken }

/-- `spawn_local_future`, whose `RefMut` lives for one statement. -/
def spawnLocal (s : State L G) (task : L) : State L G :=
  match s.localWorkQueue.update (task :: ·) with
  | none => { s with calls := task :: s.calls, borrowError := true, exited := true }
  | some queue =>
    { s with
      localWorkQueue := queue
      spawned := match s.pc with
        | .pollGlobal _ => true
        | _ => s.spawned
      calls := task :: s.calls
      inserted := task :: s.inserted }

section Step

variable [DecidableEq L]

def step (s : State L G) (a : Act L G) : Option (State L G) :=
  if s.exited then none
  else match a.act with
    | .popLocal =>
      match s.pc with
      | .popLocal => some (popLocal s)
      | _ => none
    -- Each call makes a new `Arc`.
    | .spawnLocal task => if s.pc.running ∧ task ∉ s.calls then some (spawnLocal s task) else none
    | .pollEnd =>
      match s.pc with
      | .pollLocal _ =>
        some { s with pc := .popLocal, localWorkQueue := s.localWorkQueue.release }
      | .pollGlobal _ => some { s with pc := .steal }
      | _ => none
    | act => (WorkerLoop.workerStep a.active a.pending s.worker act).map fun
      | .runs x => s.setWorker x
      | .exits => s.exit

def machine (L G : Type*) [DecidableEq L] : Machine (State L G) (Act L G) where
  init s := s = initial
  step := step

end Step

def Queues : WorkerAct L G → Prop
  | .popLocal | .spawnLocal _ | .pollEnd => True
  | _ => False

inductive Step (s : State L G) (a : Act L G) : State L G → Prop
  | popLocal (hact : a.act = .popLocal) (hpc : s.pc = .popLocal) : Step s a (popLocal s)
  | spawnLocal {task : L} (hact : a.act = .spawnLocal task) (hpc : s.pc.running = true)
      (hfresh : task ∉ s.calls) : Step s a (spawnLocal s task)
  | pollLocalEnd {task : L} (hact : a.act = .pollEnd) (hpc : s.pc = .pollLocal task) :
      Step s a { s with pc := .popLocal, localWorkQueue := s.localWorkQueue.release }
  | pollGlobalEnd {task : G} (hact : a.act = .pollEnd) (hpc : s.pc = .pollGlobal task) :
      Step s a { s with pc := .steal }
  | runs {x : WorkerLoop.Worker L G} (hact : ¬ Queues a.act)
      (hworker : WorkerLoop.workerStep a.active a.pending s.worker a.act = some (.runs x)) :
      Step s a (s.setWorker x)
  | exits (hact : ¬ Queues a.act)
      (hworker : WorkerLoop.workerStep a.active a.pending s.worker a.act = some .exits) :
      Step s a s.exit

theorem step_cases [DecidableEq L] {s t : State L G} {a : Act L G} (hs : step s a = some t) :
    s.exited = false ∧ Step s a t := by
  obtain ⟨active, pending, act⟩ := a
  simp only [step, Option.ite_none_left_eq_some, Bool.not_eq_true] at hs
  refine ⟨hs.1, ?_⟩
  obtain ⟨-, hs⟩ := hs
  cases act <;> dsimp only at hs
  case popLocal =>
    split at hs
    · rename_i hpc
      exact Option.some.inj hs ▸ .popLocal rfl hpc
    · cases hs
  case spawnLocal task =>
    simp only [Option.ite_none_right_eq_some, Option.some.injEq] at hs
    exact hs.2 ▸ .spawnLocal rfl hs.1.1 hs.1.2
  case pollEnd =>
    split at hs
    · rename_i hpc
      exact Option.some.inj hs ▸ .pollLocalEnd rfl hpc
    · rename_i hpc
      exact Option.some.inj hs ▸ .pollGlobalEnd rfl hpc
    · cases hs
  all_goals
    obtain ⟨o, ho, rfl⟩ := Option.map_eq_some_iff.mp hs
    cases o with
    | runs x => exact .runs id ho
    | exits => exact .exits id ho

def pollsLocal : WorkerPc L G → Bool
  | .pollLocal _ => true
  | _ => false

/-- As long as the worker runs, its queue is borrowed exactly while it polls a local task. -/
def BorrowInv (s : State L G) : Prop :=
  s.exited = false → s.localWorkQueue.borrowed = pollsLocal s.pc

/-- No call has panicked on the borrow, and each has inserted its task, which has been taken out
at most once. -/
structure Safe (s : State L G) : Prop where
  borrows : s.borrowError = false
  inserted : s.inserted = s.calls
  distinct : s.inserted.Nodup
  taken : (s.taken ++ s.localWorkQueue.value).Perm s.inserted

/-- No call is made by a local task. -/
def NotFromLocal (s : State L G) (a : Act L G) : Prop :=
  ∀ task, a.act = .spawnLocal task → pollsLocal s.pc = false

variable {s t : State L G} {a : Act L G}

/-- The other actions leave the queue alone, and neither begin nor end the poll of a local task. -/
theorem worker_unchanged {active : Bool} {pending : ℕ} {x y : WorkerLoop.Worker L G}
    {act : WorkerAct L G} (hact : ¬ Queues act)
    (h : WorkerLoop.workerStep active pending x act = some (.runs y)) :
    y.localWorkQueue = x.localWorkQueue ∧ pollsLocal y.pc = pollsLocal x.pc := by
  cases WorkerLoop.workerStep_cases h with
  | popLocal | spawnFromGlobal | spawnFromHandler | pollLocalEnd | pollGlobalEnd =>
    exact absurd trivial hact
  | push => exact ⟨rfl, rfl⟩
  | test hpc =>
    rw [hpc]
    cases active <;> exact ⟨rfl, rfl⟩
  | steal hpc | stealEmpty hpc | stealInconsistent hpc | turn hpc | wake hpc | timeout hpc
  | turnEnd hpc =>
    rw [hpc]
    exact ⟨rfl, rfl⟩

theorem popLocal_inv (h : s.localWorkQueue.borrowed = false) : BorrowInv (popLocal s) := by
  intro _
  unfold popLocal
  rw [RefCell.borrowMut_of_not_borrowed h]
  cases s.localWorkQueue.value <;> rfl

theorem spawnLocal_inv (h : BorrowInv s) (hs : s.exited = false) (task : L) :
    BorrowInv (spawnLocal s task) := by
  cases hborrowed : s.localWorkQueue.borrowed with
  | true =>
    rw [spawnLocal, RefCell.update_eq_none_iff.mpr hborrowed]
    intro hexited
    cases hexited
  | false =>
    rw [spawnLocal, RefCell.update_of_not_borrowed hborrowed]
    exact fun _ => h hs

theorem step_borrowInv [DecidableEq L] (h : BorrowInv s) (hs : step s a = some t) :
    BorrowInv t := by
  obtain ⟨hrunning, hstep⟩ := step_cases hs
  cases hstep with
  | popLocal _ hpc => exact popLocal_inv (by rw [h hrunning, hpc]; rfl)
  | spawnLocal => exact spawnLocal_inv h hrunning _
  | pollLocalEnd => exact fun _ => rfl
  | pollGlobalEnd _ hpc =>
    intro _
    rw [h hrunning, hpc]
    rfl
  | runs hact hworker =>
    intro _
    exact (h hrunning).trans (worker_unchanged hact hworker).2.symm
  | exits =>
    intro hexited
    cases hexited

/-- The task that is taken moves from the front of the queue to those taken. -/
theorem popLocal_safe (hborrowed : s.localWorkQueue.borrowed = false) (h : Safe s) :
    Safe (popLocal s) := by
  unfold popLocal
  rw [RefCell.borrowMut_of_not_borrowed hborrowed]
  cases hqueue : s.localWorkQueue.value with
  | nil => exact ⟨h.borrows, h.inserted, h.distinct, by
      simpa [RefCell.release, hqueue] using h.taken⟩
  | cons task rest =>
    refine ⟨h.borrows, h.inserted, h.distinct, ?_⟩
    have htaken := h.taken
    rw [hqueue] at htaken
    exact List.perm_middle.symm.trans htaken

/-- A call panics exactly when the queue is borrowed, and inserts its task otherwise. -/
theorem spawnLocal_safe_iff {task : L} (h : Safe s) (hfresh : task ∉ s.calls) :
    Safe (spawnLocal s task) ↔ s.localWorkQueue.borrowed = false := by
  cases hborrowed : s.localWorkQueue.borrowed with
  | true =>
    rw [spawnLocal, RefCell.update_eq_none_iff.mpr hborrowed]
    exact iff_of_false (fun hsafe => by cases hsafe.borrows) (by simp)
  | false =>
    rw [spawnLocal, RefCell.update_of_not_borrowed hborrowed]
    refine iff_of_true ⟨h.borrows, congrArg (task :: ·) h.inserted, ?_, ?_⟩ rfl
    · exact List.nodup_cons.mpr ⟨h.inserted ▸ hfresh, h.distinct⟩
    · exact List.perm_middle.trans (h.taken.cons task)

theorem step_safe_iff [DecidableEq L] (hinv : BorrowInv s) (h : Safe s)
    (hs : step s a = some t) : Safe t ↔ NotFromLocal s a := by
  obtain ⟨hrunning, hstep⟩ := step_cases hs
  have hborrowed := hinv hrunning
  cases hstep with
  | spawnLocal hact _ hfresh =>
    rw [spawnLocal_safe_iff h hfresh, hborrowed]
    exact ⟨fun hpolls _ _ => hpolls, fun hok => hok _ hact⟩
  | popLocal hact hpc =>
    refine iff_of_true (popLocal_safe ?_ h) fun _ hspawn => by simp [hact] at hspawn
    rw [hborrowed, hpc]
    rfl
  | pollLocalEnd hact | pollGlobalEnd hact =>
    exact iff_of_true ⟨h.borrows, h.inserted, h.distinct, h.taken⟩ fun _ hspawn => by
      simp [hact] at hspawn
  | runs hact hworker =>
    have hqueue := (worker_unchanged hact hworker).1
    refine iff_of_true ⟨h.borrows, h.inserted, h.distinct, ?_⟩ fun _ hspawn => ?_
    · exact (congrArg (s.taken ++ ·) hqueue) ▸ h.taken
    · exact absurd (hspawn ▸ trivial) hact
  | exits hact =>
    refine iff_of_true ⟨h.borrows, h.inserted, h.distinct, h.taken⟩ fun _ hspawn => ?_
    exact absurd (hspawn ▸ trivial) hact

section Runs

variable [DecidableEq L]

theorem reachable_borrowInv (h : (machine L G).Reachable s) : BorrowInv s :=
  h.invariant (fun _ hs => hs ▸ fun _ => rfl) fun _ _ _ _ hi _ hs => step_borrowInv hi hs

omit [DecidableEq L] in
theorem popLocal_refines {active : Bool} {pending : ℕ} (hrunning : s.exited = false)
    (hborrowed : s.localWorkQueue.borrowed = false) (hpc : s.pc = .popLocal) :
    WorkerLoop.workerStep active pending s.worker .popLocal =
      some (if (popLocal s).exited then .exits else .runs (popLocal s).worker) := by
  unfold popLocal
  rw [RefCell.borrowMut_of_not_borrowed hborrowed]
  cases hqueue : s.localWorkQueue.value <;>
    simp [WorkerLoop.workerStep, WorkerLoop.popLocal, State.worker, hpc, hqueue, hrunning,
      RefCell.release, RefCell.modify]

omit [DecidableEq L] in
theorem spawnLocal_refines {active : Bool} {pending : ℕ} {task : L} (hrunning : s.exited = false)
    (hborrowed : s.localWorkQueue.borrowed = pollsLocal s.pc) (hpc : s.pc.running = true) :
    WorkerLoop.workerStep active pending s.worker (.spawnLocal task) =
      some (if (spawnLocal s task).exited then .exits else .runs (spawnLocal s task).worker) := by
  cases hat : s.pc with
  | pollLocal polled =>
    rw [hat] at hborrowed
    rw [spawnLocal, RefCell.update_eq_none_iff.mpr hborrowed]
    simp [WorkerLoop.workerStep, WorkerLoop.spawnLocal, State.worker, hat]
  | pollGlobal | handling =>
    rw [hat] at hborrowed
    rw [spawnLocal, RefCell.update_of_not_borrowed hborrowed]
    simp [WorkerLoop.workerStep, WorkerLoop.spawnLocal, State.worker, hat, hrunning,
      RefCell.modify]
  | _ => simp [hat, WorkerPc.running] at hpc

/-- The worker of the pool's model, which panics by where it is, is this one without the borrow. -/
theorem step_refines (hr : (machine L G).Reachable s) (hs : step s a = some t) :
    WorkerLoop.workerStep a.active a.pending s.worker a.act =
      some (if t.exited then .exits else .runs t.worker) := by
  obtain ⟨hrunning, hstep⟩ := step_cases hs
  have hborrowed := reachable_borrowInv hr hrunning
  obtain ⟨active, pending, act⟩ := a
  cases hstep with
  | popLocal hact hpc =>
    obtain rfl : act = .popLocal := hact
    exact popLocal_refines hrunning (by rw [hborrowed, hpc]; rfl) hpc
  | spawnLocal hact hpc =>
    obtain rfl := hact
    exact spawnLocal_refines hrunning hborrowed hpc
  | pollLocalEnd hact hpc | pollGlobalEnd hact hpc =>
    obtain rfl : act = .pollEnd := hact
    simp [WorkerLoop.workerStep, State.worker, hpc, hrunning, WorkerLoop.Worker.goto,
      RefCell.release]
  | @runs x hact hworker =>
    have hexited : (s.setWorker x).exited = false := hrunning
    rw [hexited]
    exact hworker
  | exits hact hworker => simp [hworker, State.exit]

/-- In a run the calls are safe and lossless exactly when none is made by a local task. -/
theorem local_spawns_safe_iff {as : List (Act L G)}
    (hrun : (machine L G).exec initial as = some s) :
    (machine L G).Throughout Safe initial as ↔ (machine L G).Every NotFromLocal initial as :=
  Machine.throughout_iff_every
    (fun _ _ _ hr hsafe hs => step_safe_iff (reachable_borrowInv hr.reachable) hsafe hs) (.init rfl)
    ⟨rfl, rfl, List.nodup_nil, .refl _⟩ hrun

end Runs

/-- The same flag and one pending event at each step. -/
def inPool (acts : List (WorkerAct ℕ ℕ)) : List (Act ℕ ℕ) := acts.map fun act => ⟨true, 1, act⟩

/-- A handler notifies a global task, which is polled and spawns two local tasks; the second one is
polled after the next turn. -/
def spawnFromGlobal : List (Act ℕ ℕ) :=
  inPool [.test, .popLocal, .stealEmpty, .turn, .wake 1, .push 0, .turnEnd, .test, .popLocal,
    .steal, .spawnLocal 0, .spawnLocal 1, .pollEnd, .stealEmpty, .turn, .wake 1, .turnEnd, .test,
    .popLocal]

theorem spawnFromGlobal_safe : ∃ s, (machine ℕ ℕ).exec initial spawnFromGlobal = some s ∧
    s.pc = .pollLocal 1 ∧ (machine ℕ ℕ).Throughout Safe initial spawnFromGlobal := by
  refine ⟨_, rfl, rfl, (local_spawns_safe_iff rfl).mpr ?_⟩
  exact .cons (fun _ h => by cases h) rfl <| .cons (fun _ h => by cases h) rfl <|
    .cons (fun _ h => by cases h) rfl <| .cons (fun _ h => by cases h) rfl <|
    .cons (fun _ h => by cases h) rfl <| .cons (fun _ h => by cases h) rfl <|
    .cons (fun _ h => by cases h) rfl <| .cons (fun _ h => by cases h) rfl <|
    .cons (fun _ h => by cases h) rfl <| .cons (fun _ h => by cases h) rfl <|
    .cons (fun _ _ => rfl) rfl <| .cons (fun _ _ => rfl) rfl <| .cons (fun _ h => by cases h) rfl <|
    .cons (fun _ h => by cases h) rfl <| .cons (fun _ h => by cases h) rfl <|
    .cons (fun _ h => by cases h) rfl <| .cons (fun _ h => by cases h) rfl <|
    .cons (fun _ h => by cases h) rfl <| .cons (fun _ h => by cases h) rfl <| trivial

/-- The local task that is polled spawns another one. -/
def spawnFromLocal : List (Act ℕ ℕ) := spawnFromGlobal ++ inPool [.spawnLocal 2]

theorem spawnFromLocal_panics :
    (∃ s, (machine ℕ ℕ).exec initial spawnFromLocal = some s ∧ s.borrowError = true ∧
      s.exited = true ∧ s.calls = [2, 1, 0] ∧ s.inserted = [1, 0]) ∧
    ¬ ∀ s, (machine ℕ ℕ).Reachable s → Safe s := by
  have hrun : ∃ s, (machine ℕ ℕ).exec initial spawnFromLocal = some s ∧ s.borrowError = true ∧
      s.exited = true ∧ s.calls = [2, 1, 0] ∧ s.inserted = [1, 0] := ⟨_, rfl, rfl, rfl, rfl, rfl⟩
  refine ⟨hrun, fun h => ?_⟩
  obtain ⟨s, hs, herror, -⟩ := hrun
  have hborrows := (h s (Machine.reachable_of_exec rfl hs)).borrows
  rw [herror] at hborrows
  cases hborrows

end CompleteIo.LocalSpawn
