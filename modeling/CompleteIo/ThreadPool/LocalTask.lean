import CompleteIo.Lib.Compose
import CompleteIo.ThreadPool.GlobalTask
import CompleteIo.ThreadPool.LocalSpawn

namespace CompleteIo.LocalTask

open GlobalTask (PollPc)

/-- How far `LocalTask::do_poll` has come with a task. -/
inductive Call
  | notCalled
  | running (pc : PollPc)
  | suspended
  | finished
  deriving DecidableEq

structure Task where
  signalLevel : ℕ
  call : Call
  polls : ℕ
  calls : ℕ
  -- Those of the calls that came since the latest poll of the future began.
  unseen : ℕ
  panics : ℕ

structure Tasks (L : Type*) where
  task : L → Option Task
  exited : Bool

inductive PollAct
  | load
  | beginPoll
  | notReady
  | ready
  | error
  | compareExchange

inductive TaskAct (L : Type*)
  | new (t : L)
  | doPoll (t : L)
  | poll (t : L) (a : PollAct)
  | notify (t : L) (onWorker : Bool)

def newTask : Task where
  signalLevel := 1
  call := .notCalled
  polls := 0
  calls := 0
  unseen := 0
  panics := 0

/-- `compare_exchange(level, 0)` and the match on its result. -/
def compareExchange (x : Task) (level : ℕ) : Task :=
  if x.signalLevel = level then { x with signalLevel := 0, call := .suspended }
  else { x with call := .running (.poll x.signalLevel) }

def pollStep (x : Task) : PollAct → Option Task
  | .load =>
    match x.call with
    | .running .load => some { x with call := .running (.poll x.signalLevel) }
    | _ => none
  | .beginPoll =>
    match x.call with
    | .running (.poll level) =>
      some { x with call := .running (.polling level), polls := x.polls + 1, unseen := 0 }
    | _ => none
  | .notReady =>
    match x.call with
    | .running (.polling level) => some { x with call := .running (.compareExchange level) }
    | _ => none
  | .ready | .error =>
    match x.call with
    | .running (.polling _) => some { x with call := .finished }
    | _ => none
  | .compareExchange =>
    match x.call with
    | .running (.compareExchange level) => some (compareExchange x level)
    | _ => none

/-- `_LocalTask::notify`, which has no queue to put a suspended task on. -/
def notify (x : Task) : Task :=
  { x with
    signalLevel := (x.signalLevel + 1) % 2 ^ 64
    calls := x.calls + 1
    unseen := x.unseen + 1
    panics := if x.signalLevel = 0 then x.panics + 1 else x.panics }

section Step

variable {L G : Type*} [DecidableEq L]

def Tasks.set (s : Tasks L) (t : L) (x : Task) : Tasks L :=
  { s with task := Function.update s.task t (some x) }

def taskStep (s : Tasks L) : TaskAct L → Option (Tasks L)
  | .new t => some (s.set t newTask)
  | .doPoll t => (s.task t).map fun x => s.set t { x with call := .running .load }
  | .poll t a =>
    (s.task t).bind fun x => (pollStep x a).map fun y =>
      match a with
      | .error => { s.set t y with exited := true }
      | _ => s.set t y
  | .notify t onWorker =>
    (s.task t).map fun x =>
      { s.set t (notify x) with exited := s.exited || (onWorker && decide (x.signalLevel = 0)) }

def tasks (L : Type*) [DecidableEq L] : Machine (Tasks L) (TaskAct L) where
  init s := s = ⟨fun _ => none, false⟩
  step := taskStep

inductive Act (L G : Type*)
  | worker (a : LocalSpawn.Act L G)
  | poll (t : L) (a : PollAct)
  | notify (t : L) (onWorker : Bool)

abbrev State (L G : Type*) := LocalSpawn.State L G × Tasks L

abbrev State.worker (s : State L G) : LocalSpawn.State L G := s.1
abbrev State.tasks (s : State L G) : Tasks L := s.2

def Tasks.returned (s : Tasks L) (t : L) : Bool :=
  match s.task t with
  | some x => x.call = .suspended ∨ x.call = .finished
  | none => false

/-- The worker creates and takes the tasks, and is in the poll of one as long as its `do_poll`
runs. -/
def link : Link (LocalSpawn.State L G) (Tasks L) (LocalSpawn.Act L G) (TaskAct L) (Act L G) where
  left
    | .worker a => some a
    | _ => none
  right s
    | .worker a =>
      match a.act with
      | .spawnLocal t => some (.new t)
      | .popLocal => s.localWorkQueue.value.head?.map .doPoll
      | _ => none
    | .poll t a => some (.poll t a)
    | .notify t onWorker => some (.notify t onWorker)
  permits s x
    | .worker a =>
      !x.exited && match a.act, s.pc with
        | .pollEnd, .pollLocal t => x.returned t
        -- The panic of a notification is part of `notify`.
        | .notifyLocal, _ => false
        | _, _ => true
    | .poll t _ => !x.exited && !s.exited && match s.pc with
        | .pollLocal polled => t = polled
        | _ => false
    | .notify .. => !x.exited && !s.exited

/-- A worker with its local tasks, which any thread may notify. -/
def machine (L G : Type*) [DecidableEq L] : Machine (State L G) (Act L G) :=
  (LocalSpawn.machine L G).beside (tasks L) link

end Step

variable {L G : Type*} {x y : Task}

def NoOverflow (s : State L G) : Act L G → Prop
  | .notify t _ => ∀ x, s.tasks.task t = some x → x.signalLevel + 1 < 2 ^ 64
  | _ => True

/-- What the counts of a task come to where it is. -/
def Fits (x : Task) : Prop :=
  match x.call with
  | .notCalled | .running .load => x.polls = 0 ∧ x.signalLevel = 1 + x.calls ∧ x.panics = 0
  | .running (.poll level) =>
    x.polls < level ∧ level ≤ x.signalLevel ∧ x.signalLevel = 1 + x.calls ∧ x.panics = 0
  | .running (.polling level) | .running (.compareExchange level) =>
    x.polls ≤ level ∧ level + x.unseen ≤ x.signalLevel ∧ x.signalLevel = 1 + x.calls ∧
      x.panics = 0
  | .suspended =>
    x.polls + x.unseen ≤ 1 + x.calls ∧ x.signalLevel = x.unseen ∧ x.panics = min 1 x.unseen
  | .finished => x.polls ≤ 1 + x.calls ∧ x.signalLevel = 1 + x.calls ∧ x.panics = 0

theorem newTask_fits : Fits newTask := ⟨rfl, rfl, rfl⟩

theorem compareExchange_fits {level : ℕ} (h : Fits x)
    (hcall : x.call = .running (.compareExchange level)) : Fits (compareExchange x level) := by
  obtain ⟨signalLevel, call, polls, calls, unseen, panics⟩ := x
  obtain rfl : call = _ := hcall
  obtain ⟨hpolls, hlevel, hcalls, hpanics⟩ :
    polls ≤ level ∧ level + unseen ≤ signalLevel ∧ signalLevel = 1 + calls ∧ panics = 0 := h
  unfold compareExchange
  split <;> rename_i heq
  · -- No call has come since the level was read, so none since the poll began.
    obtain rfl : signalLevel = level := heq
    obtain rfl : unseen = 0 := by omega
    exact ⟨show polls + 0 ≤ 1 + calls by omega, rfl, hpanics⟩
  · have hne : signalLevel ≠ level := heq
    exact ⟨show polls < signalLevel by omega, Nat.le_refl _, hcalls, hpanics⟩

inductive PollStep (x : Task) : PollAct → Task → Prop
  | load (hcall : x.call = .running .load) :
      PollStep x .load { x with call := .running (.poll x.signalLevel) }
  | beginPoll {level : ℕ} (hcall : x.call = .running (.poll level)) : PollStep x .beginPoll
      { x with call := .running (.polling level), polls := x.polls + 1, unseen := 0 }
  | notReady {level : ℕ} (hcall : x.call = .running (.polling level)) :
      PollStep x .notReady { x with call := .running (.compareExchange level) }
  | ready {level : ℕ} (hcall : x.call = .running (.polling level)) :
      PollStep x .ready { x with call := .finished }
  | error {level : ℕ} (hcall : x.call = .running (.polling level)) :
      PollStep x .error { x with call := .finished }
  | compareExchange {level : ℕ} (hcall : x.call = .running (.compareExchange level)) :
      PollStep x .compareExchange (compareExchange x level)

theorem pollStep_cases {a : PollAct} (hs : pollStep x a = some y) : PollStep x a y := by
  cases a <;> simp only [pollStep] at hs <;> split at hs
  all_goals first
    | rename_i hcall
      cases hs
      constructor
      exact hcall
    | cases hs

theorem pollStep_fits {a : PollAct} (h : Fits x) (hs : pollStep x a = some y) : Fits y := by
  cases pollStep_cases hs with
  | compareExchange hcall => exact compareExchange_fits h hcall
  | load hcall | beginPoll hcall | notReady hcall | ready hcall | error hcall =>
    rw [Fits, hcall] at h
    simp only [Fits]
    omega

theorem notify_fits (h : Fits x) (hlevel : x.signalLevel + 1 < 2 ^ 64) : Fits (notify x) := by
  obtain ⟨signalLevel, call, polls, calls, unseen, panics⟩ := x
  have hmod : (signalLevel + 1) % 2 ^ 64 = signalLevel + 1 := Nat.mod_eq_of_lt hlevel
  cases call with
  | suspended =>
    obtain ⟨hpolls, hunseen, hpanics⟩ :
      polls + unseen ≤ 1 + calls ∧ signalLevel = unseen ∧ panics = min 1 unseen := h
    refine ⟨show polls + (unseen + 1) ≤ 1 + (calls + 1) by omega, hunseen ▸ hmod, ?_⟩
    simp only [notify]
    split <;> omega
  | notCalled | finished =>
    have hne : signalLevel ≠ 0 := by
      have := h.2.1
      simp only at this
      omega
    simp only [Fits, notify, hmod, if_neg hne] at h ⊢
    omega
  | running pc =>
    have hne : signalLevel ≠ 0 := by
      cases pc <;> simp only [Fits] at h <;> omega
    cases pc <;> simp only [Fits, notify, hmod, if_neg hne] at h ⊢ <;> omega

/-- A task whose `do_poll` has returned is not polled by it any more. -/
theorem pollStep_running {a : PollAct} (hs : pollStep x a = some y) :
    ∃ pc, x.call = .running pc := by
  cases pollStep_cases hs <;> exact ⟨_, ‹_›⟩

/-- The tasks in the queue are those of which `do_poll` was not called yet, and no task is made
twice. -/
structure Inv (w : LocalSpawn.State L G) (task : L → Option Task) : Prop where
  fits : ∀ t x, task t = some x → Fits x
  queued : ∀ t ∈ w.localWorkQueue.value, ∃ x, task t = some x ∧ x.call = .notCalled
  distinct : w.localWorkQueue.value.Nodup
  called : ∀ t x, task t = some x → t ∈ w.calls

section Step

variable [DecidableEq L] {w v : LocalSpawn.State L G} {r : Tasks L} {t : L}

omit [DecidableEq L] in
theorem Inv.frame (h : Inv w r.task) (hqueue : v.localWorkQueue.value = w.localWorkQueue.value)
    (hcalls : v.calls = w.calls) : Inv v r.task where
  fits := h.fits
  queued := hqueue ▸ h.queued
  distinct := hqueue ▸ h.distinct
  called := hcalls ▸ h.called

/-- A task that is in the queue stays one that was not called. -/
theorem Inv.set (h : Inv w r.task) (hx : r.task t = some x) (hy : Fits y)
    (hcall : x.call = .notCalled → y.call = .notCalled) : Inv w (r.set t y).task where
  fits u z hz := by
    simp only [Tasks.set] at hz
    by_cases hu : u = t
    · subst hu
      rw [Function.update_self] at hz
      exact Option.some.inj hz ▸ hy
    · rw [Function.update_of_ne hu] at hz
      exact h.fits u z hz
  queued u hu := by
    obtain ⟨z, hz, hnot⟩ := h.queued u hu
    by_cases hut : u = t
    · subst hut
      obtain rfl := Option.some.inj (hx.symm.trans hz)
      exact ⟨y, Function.update_self .., hcall hnot⟩
    · exact ⟨z, (Function.update_of_ne hut ..).trans hz, hnot⟩
  distinct := h.distinct
  called u z hz := by
    by_cases hut : u = t
    · exact hut ▸ h.called t x hx
    · exact h.called u z ((Function.update_of_ne hut ..).symm.trans hz)

theorem Inv.new (h : Inv w r.task) (hfresh : t ∉ w.calls) :
    Inv (LocalSpawn.spawnLocal w t) (r.set t newTask).task := by
  have hqueued : t ∉ w.localWorkQueue.value := fun ht => by
    obtain ⟨x, hx, -⟩ := h.queued t ht
    exact hfresh (h.called t x hx)
  have hother : ∀ u ∈ w.localWorkQueue.value,
      ∃ x, (r.set t newTask).task u = some x ∧ x.call = .notCalled := fun u hu => by
    obtain ⟨x, hx, hnot⟩ := h.queued u hu
    exact ⟨x, (Function.update_of_ne (ne_of_mem_of_not_mem hu hqueued) ..).trans hx, hnot⟩
  have hfits : ∀ u x, (r.set t newTask).task u = some x → Fits x := fun u x hx => by
    simp only [Tasks.set] at hx
    by_cases hut : u = t
    · subst hut
      rw [Function.update_self] at hx
      exact Option.some.inj hx ▸ newTask_fits
    · rw [Function.update_of_ne hut] at hx
      exact h.fits u x hx
  have hcalled : ∀ u x, (r.set t newTask).task u = some x → u ∈ t :: w.calls := fun u x hx => by
    by_cases hut : u = t
    · exact hut ▸ List.mem_cons_self ..
    · exact List.mem_cons_of_mem _ (h.called u x ((Function.update_of_ne hut ..).symm.trans hx))
  cases hborrowed : w.localWorkQueue.borrowed with
  | true =>
    rw [LocalSpawn.spawnLocal, RefCell.update_eq_none_iff.mpr hborrowed]
    exact ⟨hfits, hother, h.distinct, hcalled⟩
  | false =>
    rw [LocalSpawn.spawnLocal, RefCell.update_of_not_borrowed hborrowed]
    exact ⟨hfits, List.forall_mem_cons.mpr ⟨⟨newTask, Function.update_self .., rfl⟩, hother⟩,
      List.nodup_cons.mpr ⟨hqueued, h.distinct⟩, hcalled⟩

/-- The task that leaves the queue is the one that is called. -/
theorem Inv.doPoll {rest : List L} (h : Inv w r.task) (hqueue : w.localWorkQueue.value = t :: rest)
    (hx : r.task t = some x) (hrest : v.localWorkQueue.value = rest) (hcalls : v.calls = w.calls) :
    Inv v (r.set t { x with call := .running .load }).task := by
  have hdistinct := h.distinct
  rw [hqueue, List.nodup_cons] at hdistinct
  have ht : t ∈ w.localWorkQueue.value := hqueue ▸ List.mem_cons_self ..
  have hnot : x.call = .notCalled := by
    obtain ⟨y, hy, hnot⟩ := h.queued t ht
    rwa [Option.some.inj (hx.symm.trans hy)]
  have hfits : Fits { x with call := .running .load } := by
    have hx := h.fits t x hx
    rwa [Fits, hnot] at hx
  refine ⟨fun u y hy => ?_, fun u hu => ?_, hrest ▸ hdistinct.2, fun u y hy => hcalls ▸ ?_⟩
  · simp only [Tasks.set] at hy
    by_cases hut : u = t
    · subst hut
      rw [Function.update_self] at hy
      exact Option.some.inj hy ▸ hfits
    · rw [Function.update_of_ne hut] at hy
      exact h.fits u y hy
  · rw [hrest] at hu
    obtain ⟨y, hy, hcall⟩ := h.queued u (hqueue ▸ List.mem_cons_of_mem _ hu)
    exact ⟨y, (Function.update_of_ne (ne_of_mem_of_not_mem hu hdistinct.1) ..).trans hy, hcall⟩
  · by_cases hut : u = t
    · exact hut ▸ h.called t x hx
    · exact h.called u y ((Function.update_of_ne hut ..).symm.trans hy)

variable {s u : State L G} {a : Act L G}

theorem worker_step {b : LocalSpawn.Act L G} (hs : (machine L G).step s (.worker b) = some u) :
    LocalSpawn.step s.worker b = some u.worker := Machine.step_left hs rfl

theorem popLocal_inv {active : Bool} {pending : ℕ} (h : Inv s.worker s.tasks.task)
    (hs : (machine L G).step s (.worker ⟨active, pending, .popLocal⟩) = some u)
    (hborrowed : s.worker.localWorkQueue.borrowed = false)
    (hu : u.worker = LocalSpawn.popLocal s.worker) : Inv u.worker u.tasks.task := by
  rw [LocalSpawn.popLocal, RefCell.borrowMut_of_not_borrowed hborrowed] at hu
  cases hqueue : s.worker.localWorkQueue.value with
  | nil =>
    have hidle : u.tasks = s.tasks := Machine.idle_right hs (by simp [link, hqueue])
    simp only [hqueue] at hu
    rw [hidle]
    exact h.frame (by rw [hu, hqueue]; rfl) (by rw [hu])
  | cons t rest =>
    have hcall : taskStep s.tasks (.doPoll t) = some u.tasks :=
      Machine.step_right hs (b := .doPoll t) (by simp [link, hqueue])
    obtain ⟨x, hx, htasks⟩ := Option.map_eq_some_iff.mp hcall
    simp only [hqueue] at hu
    rw [← htasks]
    exact h.doPoll hqueue hx (by rw [hu]; rfl) (by rw [hu])

theorem worker_inv {b : LocalSpawn.Act L G} (hborrow : LocalSpawn.BorrowInv s.worker)
    (h : Inv s.worker s.tasks.task) (hs : (machine L G).step s (.worker b) = some u) :
    Inv u.worker u.tasks.task := by
  obtain ⟨hrunning, hstep⟩ := LocalSpawn.step_cases (worker_step hs)
  obtain ⟨active, pending, act⟩ := b
  generalize hu : u.worker = v at hstep ⊢
  cases hstep with
  | popLocal hact hpc =>
    obtain rfl : act = .popLocal := hact
    exact hu ▸ popLocal_inv h hs (by rw [hborrow hrunning, hpc]; rfl) hu
  | @spawnLocal t hact hpc hfresh =>
    obtain rfl : act = .spawnLocal t := hact
    have hnew : taskStep s.tasks (.new t) = some u.tasks := Machine.step_right hs (b := .new t) rfl
    rw [← Option.some.inj hnew]
    exact h.new hfresh
  | pollLocalEnd hact | pollGlobalEnd hact =>
    obtain rfl : act = .pollEnd := hact
    have hidle : u.tasks = s.tasks := Machine.idle_right hs rfl
    rw [hidle]
    exact h.frame rfl rfl
  | runs hact hworker =>
    have hidle : u.tasks = s.tasks := Machine.idle_right hs (by
      cases act <;> first | rfl | exact absurd trivial hact)
    rw [hidle]
    exact h.frame (LocalSpawn.worker_unchanged hact hworker).1 rfl
  | exits hact =>
    have hidle : u.tasks = s.tasks := Machine.idle_right hs (by
      cases act <;> first | rfl | exact absurd trivial hact)
    rw [hidle]
    exact h.frame rfl rfl

theorem step_inv (hborrow : LocalSpawn.BorrowInv s.worker) (h : Inv s.worker s.tasks.task)
    (hok : NoOverflow s a) (hs : (machine L G).step s a = some u) :
    Inv u.worker u.tasks.task := by
  cases a with
  | worker b => exact worker_inv hborrow h hs
  | poll t a =>
    have hidle : u.worker = s.worker := Machine.idle_left hs rfl
    have hpoll : taskStep s.tasks (.poll t a) = some u.tasks :=
      Machine.step_right hs (b := .poll t a) rfl
    obtain ⟨x, hx, hpoll⟩ := Option.bind_eq_some_iff.mp hpoll
    obtain ⟨y, hy, htasks⟩ := Option.map_eq_some_iff.mp hpoll
    have hset : u.tasks.task = (s.tasks.set t y).task := by
      rw [← htasks]
      cases a <;> rfl
    obtain ⟨pc, hcall⟩ := pollStep_running hy
    rw [hidle, hset]
    exact h.set hx (pollStep_fits (h.fits t x hx) hy) fun hnot => by simp [hcall] at hnot
  | notify t onWorker =>
    have hidle : u.worker = s.worker := Machine.idle_left hs rfl
    have hnotify : taskStep s.tasks (.notify t onWorker) = some u.tasks :=
      Machine.step_right hs (b := .notify t onWorker) rfl
    obtain ⟨x, hx, htasks⟩ := Option.map_eq_some_iff.mp hnotify
    rw [hidle, ← htasks]
    exact h.set hx (notify_fits (h.fits t x hx) (hok x hx)) id

theorem initial_init :
    (machine L G).init (LocalSpawn.initial, ⟨fun _ => none, false⟩) := ⟨rfl, rfl⟩

end Step

def initial : State ℕ ℕ := (LocalSpawn.initial, ⟨fun _ => none, false⟩)

end CompleteIo.LocalTask
