import CompleteIo.ThreadPool.WorkerLoop

namespace CompleteIo.WorkerLoop

variable {W L G : Type*} {active : Bool} {pending : ℕ} {x y : Worker L G} {a : WorkerAct L G}

def Worker.RestsIdle (x : Worker L G) : Prop :=
  x.pc = .turn none → x.localWorkQueue = [] ∧ x.workQueue = []

/-- No worker goes to sleep on runnable work. -/
def RestsIdle (s : State W L G) : Prop := ∀ w, (s.worker w).RestsIdle

/-- When `steal_weak` finds `work_queue` empty, no task from that queue has spawned a local one
since `local_work_queue` was found empty. -/
def SpawnsNoLocal (s : State W L G) : Act W L G → Prop
  | .worker w .stealEmpty => (s.worker w).spawned = false
  | _ => True

/-- The loop over `work_queue` runs, or the turn after it is next. -/
def WorkerPc.PastLocal : WorkerPc L G → Prop
  | .steal | .pollGlobal _ | .turn _ => True
  | _ => False

/-- In the second loop the local queue holds what its tasks have spawned. -/
structure Worker.Inv (x : Worker L G) : Prop where
  spawned : x.pc.PastLocal → (x.spawned = true ↔ x.localWorkQueue ≠ [])
  empty : x.pc = .turn none → x.workQueue = []

theorem Worker.Inv.of_not_pastLocal (h : ¬ y.pc.PastLocal) : y.Inv where
  spawned hpc := absurd hpc h
  empty hpc := absurd (by rw [hpc]; trivial) h

theorem popLocal_inv : (popLocal x).Inv := by
  unfold popLocal
  split
  · rename_i hqueue
    exact ⟨fun _ => by simp [hqueue], by simp⟩
  · exact .of_not_pastLocal id

theorem running_ne_turn (h : x.pc.running = true) {timeout : Option ℕ} : x.pc ≠ .turn timeout :=
  fun hpc => by simp [hpc, WorkerPc.running] at h

theorem workerStep_inv (h : x.Inv) (hs : WorkerStep active pending x a (.runs y)) : y.Inv := by
  cases hs with
  | test hpc => exact .of_not_pastLocal (by cases active <;> exact id)
  | popLocal => exact popLocal_inv
  | steal hpc => exact ⟨fun _ => h.spawned (by rw [hpc]; trivial), by simp⟩
  | stealEmpty hpc hqueue => exact ⟨fun _ => h.spawned (by rw [hpc]; trivial), fun _ => hqueue⟩
  | stealInconsistent hpc => exact ⟨fun _ => h.spawned (by rw [hpc]; trivial), by simp⟩
  | spawnFromGlobal hpc => exact ⟨fun _ => by simp, fun hturn => by simp [hpc] at hturn⟩
  | spawnFromHandler hpc => exact .of_not_pastLocal (by rw [hpc]; exact id)
  | push hpc => exact ⟨h.spawned, fun hturn => absurd hturn (running_ne_turn hpc)⟩
  | pollGlobalEnd hpc => exact ⟨fun _ => h.spawned (by rw [hpc]; trivial), by simp⟩
  | pollLocalEnd | turn | wake | timeout | turnEnd => exact .of_not_pastLocal id

/-- Only the end of the second loop takes a worker to a wait without a timeout. -/
theorem workerStep_restsIdle (h : x.Inv)
    (hs : WorkerStep active pending x a (.runs y)) :
    y.RestsIdle ↔ (a = .stealEmpty → x.spawned = false) := by
  have hother : a ≠ .stealEmpty → y.RestsIdle → (y.RestsIdle ↔ (a = .stealEmpty →
      x.spawned = false)) := fun ha hy => ⟨fun _ he => absurd he ha, fun _ => hy⟩
  cases hs with
  | stealEmpty hpc hqueue =>
    have hspawned := h.spawned (by rw [hpc]; trivial)
    constructor
    · intro hy _
      have hlocal : x.localWorkQueue = [] := (hy rfl).1
      simpa [hlocal] using hspawned
    · intro hok _
      refine ⟨?_, hqueue⟩
      by_contra hne
      simp [hok rfl] at hspawned
      exact hne hspawned
  | test hpc => exact hother (by simp) fun hturn => by cases active <;> cases hturn
  | popLocal hpc =>
    refine hother (by simp) fun hturn => ?_
    unfold popLocal at hturn
    split at hturn <;> cases hturn
  | spawnFromGlobal hpc | spawnFromHandler hpc =>
    exact hother (by simp) fun hturn => by simp [hpc] at hturn
  | push hpc => exact hother (by simp) fun hturn => absurd hturn (running_ne_turn hpc)
  | steal | stealInconsistent | pollGlobalEnd | pollLocalEnd | turn | wake | timeout | turnEnd =>
    exact hother (by simp) fun hturn => by cases hturn

section Proofs

variable [DecidableEq W] {s t : State W L G} {b : Act W L G}

theorem step_inv (h : ∀ w, (s.worker w).Inv) (hs : step s b = some t) (w : W) :
    (t.worker w).Inv := by
  cases (step_cases hs).2 with
  | @worker v a x hworker =>
    by_cases hv : w = v
    · subst hv
      simpa using workerStep_inv (h w) hworker
    · simpa [Function.update_of_ne hv] using h w
  | beginShutdown | ready | postBegin | postEnd | exits => exact h w

theorem reachable_inv (h : (machine W L G).Reachable s) (w : W) : (s.worker w).Inv := by
  refine h.invariant (I := fun s => ∀ w, (s.worker w).Inv) (fun s hs v => ?_)
    (fun _ _ _ _ hi _ hs => step_inv hi hs) w
  exact hs ▸ .of_not_pastLocal id

theorem step_restsIdle (h : ∀ w, (s.worker w).Inv) (hrests : RestsIdle s)
    (hs : step s b = some t) : RestsIdle t ↔ SpawnsNoLocal s b := by
  cases (step_cases hs).2 with
  | @worker v a x hworker =>
    have hiff := workerStep_restsIdle (h v) hworker
    have hself : RestsIdle { s with
        worker := Function.update s.worker v x, pending := s.pending - a.taken } ↔
        x.RestsIdle := by
      refine ⟨fun ht => by simpa using ht v, fun hx w => ?_⟩
      by_cases hw : w = v
      · subst hw
        simpa using hx
      · simpa [Function.update_of_ne hw] using hrests w
    rw [hself, hiff]
    cases a <;> simp [SpawnsNoLocal]
  | @exits v a hworker =>
    refine ⟨fun _ => ?_, fun _ => hrests⟩
    cases hworker with
    | exits ha => cases a <;> first | exact trivial | exact ha.elim
  | beginShutdown | ready | postBegin | postEnd => exact ⟨fun _ => trivial, fun _ => hrests⟩

/-- No worker goes to sleep on runnable work throughout a run exactly when no task from a
`work_queue` spawns a local one before that queue is found empty. -/
theorem restsIdle_iff_spawnsNoLocal {as : List (Act W L G)}
    (hrun : (machine W L G).exec initial as = some s) :
    (machine W L G).Throughout RestsIdle initial as ↔
      (machine W L G).Every SpawnsNoLocal initial as :=
  Machine.throughout_iff_every
    (fun _ _ _ hreached hrests hs => step_restsIdle (reachable_inv hreached.reachable) hrests hs)
    (.init rfl) (fun _ hturn => by cases hturn) hrun

end Proofs

/-- One worker that waits, is woken by a remote spawn and polls the task; `inPoll` is what the
task does. -/
def remoteSpawn (inPoll : List (WorkerAct ℕ ℕ)) : List (Act Unit ℕ ℕ) :=
  [.worker () .test, .worker () .popLocal, .worker () .stealEmpty, .worker () .turn, .postBegin,
    .postEnd true, .worker () (.wake 1), .worker () (.push 0), .worker () .turnEnd,
    .worker () .test, .worker () .popLocal, .worker () .steal] ++ inPoll.map (.worker ()) ++
    [.worker () .pollEnd, .worker () .stealEmpty]

theorem restsIdle_iff_spawnsNoLocal_remoteSpawn : ∃ s,
    (machine Unit ℕ ℕ).exec initial (remoteSpawn []) = some s ∧
      (machine Unit ℕ ℕ).Throughout RestsIdle initial (remoteSpawn []) :=
  ⟨_, rfl, (restsIdle_iff_spawnsNoLocal
    (show (machine Unit ℕ ℕ).exec initial (remoteSpawn []) = some _ from rfl)).mpr <|
      .cons trivial rfl <| .cons trivial rfl <| .cons rfl rfl <| .cons trivial rfl <|
      .cons trivial rfl <| .cons trivial rfl <| .cons trivial rfl <| .cons trivial rfl <|
      .cons trivial rfl <| .cons trivial rfl <| .cons trivial rfl <| .cons trivial rfl <|
      .cons trivial rfl <| .cons rfl rfl trivial⟩

/-- The task spawns a local one, which is left in its queue while the worker waits for events. -/
theorem local_task_slept_on :
    (∃ s, (machine Unit ℕ ℕ).exec initial (remoteSpawn [.spawnLocal 7]) = some s ∧
      (s.worker ()).localWorkQueue = [7] ∧ ¬ RestsIdle s) ∧
    ¬ ∀ s, (machine Unit ℕ ℕ).Reachable s → RestsIdle s := by
  have hrun : ∃ s, (machine Unit ℕ ℕ).exec initial (remoteSpawn [.spawnLocal 7]) = some s ∧
      (s.worker ()).localWorkQueue = [7] ∧ ¬ RestsIdle s :=
    ⟨_, rfl, rfl, fun h => by cases (h () rfl).1⟩
  refine ⟨hrun, fun h => ?_⟩
  obtain ⟨s, hrun, -, hslept⟩ := hrun
  exact hslept (h s (Machine.reachable_of_exec rfl hrun))

end CompleteIo.WorkerLoop
