import CompleteIo.Lib.Compose
import CompleteIo.ThreadPool.LocalSpawn

namespace CompleteIo.PollOrder

open WorkerLoop (WorkerPc WorkerAct)

variable {L G : Type*}

/-- What went through the two queues of a worker. -/
structure Log (L G : Type*) where
  -- `local_work_queue` at the head of each round of the worker's loop, the latest first.
  rounds : List (List L)
  pushed : List G
  polled : List G

inductive LogAct (L G : Type*)
  | round (queue : List L)
  | push (task : G)
  | poll (task : G)

def Log.record (l : Log L G) : LogAct L G → Log L G
  | .round queue => { l with rounds := queue :: l.rounds }
  | .push task => { l with pushed := l.pushed ++ [task] }
  | .poll task => { l with polled := l.polled ++ [task] }

def log (L G : Type*) : Machine (Log L G) (LogAct L G) where
  init l := l = ⟨[], [], []⟩
  step l a := some (l.record a)

abbrev State (L G : Type*) := LocalSpawn.State L G × Log L G

abbrev State.worker (s : State L G) : LocalSpawn.State L G := s.1
abbrev State.log (s : State L G) : Log L G := s.2

def entry (s : LocalSpawn.State L G) (a : LocalSpawn.Act L G) : Option (LogAct L G) :=
  match a.act with
  | .test => if a.active then some (.round s.localWorkQueue.value) else none
  | .push task => some (.push task)
  | .steal => s.workQueue.head?.map .poll
  | _ => none

def link : Link (LocalSpawn.State L G) (Log L G) (LocalSpawn.Act L G) (LogAct L G)
    (LocalSpawn.Act L G) where
  left a := some a
  right s a := entry s a
  permits _ _ _ := true

/-- A worker whose queues are watched. The order of `work_queue` is the one that `coco` documents
for the deques it steals from, as `WorkerLoop` has it. -/
def machine (L G : Type*) [DecidableEq L] : Machine (State L G) (LocalSpawn.Act L G) :=
  (LocalSpawn.machine L G).beside (log L G) link

def initial : State L G := (LocalSpawn.initial, ⟨[], [], []⟩)

theorem initial_init [DecidableEq L] : (machine L G).init initial := ⟨rfl, rfl⟩

def draining : WorkerPc L G → Bool
  | .popLocal | .pollLocal _ => true
  | _ => false

def remaining (s : LocalSpawn.State L G) : List L :=
  if draining s.pc then s.localWorkQueue.value else []

def waiting (s : LocalSpawn.State L G) : List L :=
  if draining s.pc then [] else s.localWorkQueue.value

structure Inv (s : LocalSpawn.State L G) (l : Log L G) : Prop where
  global : l.pushed = l.polled ++ s.workQueue
  inserted : s.inserted = waiting s ++ l.rounds.flatten
  taken : l.rounds.reverse.flatten = s.taken.reverse ++ remaining s

section Proofs

variable {s t : LocalSpawn.State L G} {l : Log L G} {a : LocalSpawn.Act L G}

/-- A step that leaves both queues alone and stays on its side of the loop. -/
theorem Inv.of_same (h : Inv s l) (hglobal : t.workQueue = s.workQueue)
    (hlocal : t.localWorkQueue.value = s.localWorkQueue.value)
    (hinserted : t.inserted = s.inserted) (htaken : t.taken = s.taken)
    (hpc : draining t.pc = draining s.pc) : Inv t l where
  global := by rw [hglobal, h.global]
  inserted := by rw [hinserted, h.inserted, waiting, waiting, hpc, hlocal]
  taken := by rw [htaken, h.taken, remaining, remaining, hpc, hlocal]

/-- The round goes on with the task that was inserted last, or it is over. -/
theorem popLocal_inv (h : Inv s l) (hpc : s.pc = .popLocal)
    (hborrowed : s.localWorkQueue.borrowed = false) : Inv (LocalSpawn.popLocal s) l := by
  obtain ⟨hglobal, hinserted, htaken⟩ := h
  simp only [waiting, remaining, hpc, draining, if_true] at hinserted htaken
  unfold LocalSpawn.popLocal
  rw [RefCell.borrowMut_of_not_borrowed hborrowed]
  cases hqueue : s.localWorkQueue.value with
  | nil =>
    rw [hqueue] at htaken
    exact ⟨hglobal, by simpa [waiting, draining, RefCell.release, hqueue] using hinserted,
      by simpa [remaining, draining] using htaken⟩
  | cons task rest =>
    rw [hqueue] at htaken
    exact ⟨hglobal, by simpa [waiting, draining] using hinserted,
      by simpa [remaining, draining, RefCell.modify] using htaken⟩

theorem not_draining {pc : WorkerPc L G} (hrunning : pc.running = true)
    (hlocal : LocalSpawn.pollsLocal pc = false) : draining pc = false := by
  cases pc with
  | pollLocal => cases hlocal
  | popLocal => cases hrunning
  | _ => rfl

/-- A task that is spawned outside the loop over the local queue waits for the next round. -/
theorem spawnLocal_inv {task : L} (h : Inv s l) (hpc : s.pc.running = true)
    (hborrowed : s.localWorkQueue.borrowed = LocalSpawn.pollsLocal s.pc) :
    Inv (LocalSpawn.spawnLocal s task) l := by
  cases hb : s.localWorkQueue.borrowed with
  | true =>
    rw [LocalSpawn.spawnLocal, RefCell.update_eq_none_iff.mpr hb]
    exact h.of_same rfl rfl rfl rfl rfl
  | false =>
    have hout := not_draining hpc (hborrowed.symm.trans hb)
    obtain ⟨hglobal, hinserted, htaken⟩ := h
    simp only [waiting, remaining, hout] at hinserted htaken
    rw [LocalSpawn.spawnLocal, RefCell.update_of_not_borrowed hb]
    exact ⟨hglobal, by simpa [waiting, hout, RefCell.modify] using hinserted,
      by simpa [remaining, hout] using htaken⟩

/-- The rest of the loop: a round begins, or a global task is pushed or polled. -/
theorem worker_inv {x : WorkerLoop.Worker L G} (h : Inv s l) (hact : ¬ LocalSpawn.Queues a.act)
    (hworker : WorkerLoop.WorkerStep a.active a.pending s.worker a.act (.runs x)) :
    Inv (s.setWorker x) ((entry s a).elim l l.record) := by
  obtain ⟨active, pending, act⟩ := a
  cases hworker with
  | popLocal | spawnFromGlobal | spawnFromHandler | pollLocalEnd | pollGlobalEnd =>
    exact absurd trivial hact
  | test hpc =>
    have hat : s.pc = .test := hpc
    cases active with
    | false => exact h.of_same rfl rfl rfl rfl (by rw [hat]; rfl)
    | true =>
      have hinserted := h.inserted
      have htaken := h.taken
      rw [waiting, hat] at hinserted
      rw [remaining, hat] at htaken
      refine ⟨h.global, hinserted, ?_⟩
      change (s.localWorkQueue.value :: l.rounds).reverse.flatten =
        s.taken.reverse ++ s.localWorkQueue.value
      rw [List.reverse_cons, List.flatten_append, htaken]
      simp [draining]
  | @steal task rest hpc hqueue =>
    have hat : s.pc = .steal := hpc
    have hwork : s.workQueue = task :: rest := hqueue
    have hentry : entry s ⟨active, pending, .steal⟩ = some (.poll task) := by simp [entry, hwork]
    rw [hentry]
    refine ⟨?_, h.inserted.trans ?_, h.taken.trans ?_⟩
    · change l.pushed = l.polled ++ [task] ++ rest
      rw [h.global, hwork, List.append_cons]
    · rw [waiting, hat]
      rfl
    · rw [remaining, hat]
      rfl
  | @push task hpc =>
    refine ⟨?_, h.inserted, h.taken⟩
    change l.pushed ++ [task] = l.polled ++ (s.workQueue ++ [task])
    rw [h.global, List.append_assoc]
  | stealEmpty hpc | stealInconsistent hpc | turn hpc | wake hpc | timeout hpc | turnEnd hpc =>
    exact h.of_same rfl rfl rfl rfl (by rw [show s.pc = _ from hpc]; rfl)

theorem entry_eq_none (ha : LocalSpawn.Queues a.act ∨ a.act.MayExit) : entry s a = none := by
  obtain ⟨active, pending, act⟩ := a
  cases act <;> first | rfl | exact (ha.elim id id).elim

theorem mayExit {active : Bool} {pending : ℕ} {x : WorkerLoop.Worker L G} {act : WorkerAct L G}
    (h : WorkerLoop.WorkerStep active pending x act .exits) : act.MayExit := by
  cases h with
  | exits ha => exact ha

theorem step_inv [DecidableEq L] (h : Inv s l) (hborrow : LocalSpawn.BorrowInv s)
    (hs : LocalSpawn.step s a = some t) : Inv t ((entry s a).elim l l.record) := by
  obtain ⟨hrunning, hstep⟩ := LocalSpawn.step_cases hs
  have hborrowed := hborrow hrunning
  have hlog : LocalSpawn.Queues a.act ∨ a.act.MayExit → (entry s a).elim l l.record = l :=
    fun ha => entry_eq_none (s := s) ha ▸ rfl
  cases hstep with
  | popLocal hact hpc =>
    rw [hlog (.inl (hact ▸ trivial))]
    exact popLocal_inv h hpc (by rw [hborrowed, hpc]; rfl)
  | spawnLocal hact hpc =>
    rw [hlog (.inl (hact ▸ trivial))]
    exact spawnLocal_inv h hpc hborrowed
  | pollLocalEnd hact hpc | pollGlobalEnd hact hpc =>
    rw [hlog (.inl (hact ▸ trivial))]
    exact h.of_same rfl rfl rfl rfl (by rw [hpc]; rfl)
  | runs hact hworker => exact worker_inv h hact (WorkerLoop.workerStep_cases hworker)
  | exits hact hworker =>
    rw [hlog (.inr (mayExit (WorkerLoop.workerStep_cases hworker)))]
    exact h.of_same rfl rfl rfl rfl rfl

end Proofs

section Runs

variable [DecidableEq L] {s t : State L G} {a : LocalSpawn.Act L G}

theorem log_step (hs : (machine L G).step s a = some t) :
    t.log = (entry s.worker a).elim s.log s.log.record := by
  cases he : entry s.worker a with
  | none => exact Machine.idle_right hs he
  | some e => exact (Option.some.inj (Machine.step_right hs he)).symm

theorem worker_reachable (hr : (machine L G).Reachable s) :
    (LocalSpawn.machine L G).Reachable s.worker :=
  hr.fst fun _ _ _ _ _ => trivial

theorem reachable_inv (hr : (machine L G).Reachable s) : Inv s.worker s.log := by
  refine hr.invariant (I := fun s => Inv s.worker s.log) (fun s hs => ?_)
    fun s a t hr h _ hs => ?_
  · obtain ⟨hworker, hlog⟩ : s.1 = LocalSpawn.initial ∧ s.2 = ⟨[], [], []⟩ := hs
    rw [State.worker, State.log, hworker, hlog]
    exact ⟨rfl, rfl, rfl⟩
  · rw [log_step hs]
    exact step_inv h (LocalSpawn.reachable_borrowInv (worker_reachable hr))
      (Machine.step_left hs rfl)

/-- The logs only grow. -/
theorem exec_grows {as : List (LocalSpawn.Act L G)} (hrun : (machine L G).exec s as = some t) :
    s.log.pushed <+: t.log.pushed ∧ s.log.polled <+: t.log.polled := by
  refine Machine.exec_invariant (q := fun _ _ => True)
    (I := fun u => s.log.pushed <+: u.log.pushed ∧ s.log.polled <+: u.log.polled)
    ⟨List.prefix_rfl, List.prefix_rfl⟩ (fun u a v h _ hs => ?_)
    (Machine.every_of_forall fun _ _ _ => trivial) hrun
  rw [log_step hs]
  cases entry u.worker a with
  | none => exact h
  | some e =>
    cases e with
    | round => exact h
    | push => exact ⟨h.1.trans (List.prefix_append ..), h.2⟩
    | poll => exact ⟨h.1, h.2.trans (List.prefix_append ..)⟩

/-- A worker polls its global tasks in the order in which they were pushed, so none of those that
are queued is overtaken. It polls its local tasks round by round: each round takes just what was
queued at its head, the latest first, and what is spawned meanwhile waits for the next. -/
theorem polled_in_order (hr : (machine L G).Reachable s) :
    s.log.pushed = s.log.polled ++ s.worker.workQueue ∧
      s.worker.inserted = waiting s.worker ++ s.log.rounds.flatten ∧
      s.log.rounds.reverse.flatten = s.worker.taken.reverse ++ remaining s.worker ∧
      ∀ as t, (machine L G).exec s as = some t → ∃ more, t.log.polled = s.log.polled ++ more ∧
        (more <+: s.worker.workQueue ∨ s.worker.workQueue <+: more) := by
  have h := reachable_inv hr
  refine ⟨h.global, h.inserted, h.taken, fun as t hrun => ?_⟩
  obtain ⟨hpushed, more, hmore⟩ := exec_grows hrun
  have ht := reachable_inv (hr.exec hrun)
  refine ⟨more, hmore.symm, ?_⟩
  have hqueue : s.log.polled ++ s.worker.workQueue <+: t.log.pushed := h.global ▸ hpushed
  have hpolled : s.log.polled ++ more <+: t.log.pushed := by
    rw [hmore, ht.global]
    exact List.prefix_append ..
  exact (List.prefix_or_prefix_of_prefix hpolled hqueue).imp
    (List.prefix_append_right_inj _).mp (List.prefix_append_right_inj _).mp

end Runs

/-- Two global tasks are pushed. The first spawns two local tasks, which are polled in the next
round. -/
def nextRound : List (LocalSpawn.Act ℕ ℕ) :=
  LocalSpawn.inPool [.test, .popLocal, .stealEmpty, .turn, .wake 1, .push 0, .push 1, .turnEnd,
    .test, .popLocal, .steal, .spawnLocal 0, .spawnLocal 1, .pollEnd, .steal, .pollEnd,
    .stealEmpty, .turn, .wake 1, .turnEnd, .test, .popLocal, .pollEnd, .popLocal]

theorem nextRound_in_order : ∃ s, (machine ℕ ℕ).exec initial nextRound = some s ∧
    s.log.polled = [0, 1] ∧ s.log.rounds = [[1, 0], [], []] ∧
    s.log.rounds.reverse.flatten = s.worker.taken.reverse ++ remaining s.worker := by
  have hrun : (machine ℕ ℕ).exec initial nextRound = some _ := rfl
  have h := polled_in_order (Machine.reachable_of_exec initial_init hrun)
  exact ⟨_, hrun, rfl, rfl, h.2.2.1⟩

end CompleteIo.PollOrder
