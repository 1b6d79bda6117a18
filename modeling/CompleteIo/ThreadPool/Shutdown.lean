import CompleteIo.ThreadPool.WorkerLoop

namespace CompleteIo.WorkerLoop

variable {W L G : Type*} {pending : ℕ} {x y : Worker L G} {a : WorkerAct L G}

def Worker.Waits (x : Worker L G) : Prop := x.pc = .waiting none

/-- The worker is past its test of the flag, and before the end of a wait without a timeout that
may come before the next test. -/
def Worker.MayWait (x : Worker L G) : Prop :=
  match x.pc with
  | .popLocal | .pollLocal _ | .steal | .pollGlobal _ | .turn none | .waiting none => True
  | .test | .turn (some _) | .waiting (some _) | .handling | .left => False

def State.Coming (s : State W L G) : Prop := 0 < s.pending + s.posting

instance (s : State W L G) : Decidable s.Coming := inferInstanceAs (Decidable (0 < _))

instance (x : Worker L G) : Decidable x.MayWait :=
  match x with
  | ⟨.popLocal, _, _, _⟩ | ⟨.pollLocal _, _, _, _⟩ | ⟨.steal, _, _, _⟩ | ⟨.pollGlobal _, _, _, _⟩
  | ⟨.turn none, _, _, _⟩ | ⟨.waiting none, _, _, _⟩ => isTrue trivial
  | ⟨.test, _, _, _⟩ | ⟨.turn (some _), _, _, _⟩ | ⟨.waiting (some _), _, _, _⟩
  | ⟨.handling, _, _, _⟩ | ⟨.left, _, _, _⟩ => isFalse id

/-- The pool is shut down, and a worker waits for an event that nobody posts. -/
def Stranded (s : State W L G) : Prop :=
  s.exited = false ∧ s.active = false ∧ ¬ s.Coming ∧ ∃ w, (s.worker w).Waits

/-- The shutdown, and after it a wait that takes events and a post that fails, leave some event
for the other workers, unless they all come to their test first. -/
def KeepsEvent (s : State W L G) : Act W L G → Prop
  | .beginShutdown => s.Coming ∨ ∀ w, ¬ (s.worker w).MayWait
  | .worker w (.wake events) => s.active = true ∨ events < s.pending + s.posting ∨
      ∀ v, v ≠ w → ¬ (s.worker v).MayWait
  | .postEnd false => s.active = true ∨ 1 < s.pending + s.posting ∨ ∀ w, ¬ (s.worker w).MayWait
  | _ => True

/-- After the shutdown some event is on its way, or no worker can come to wait for one. -/
def Wakeable (s : State W L G) : Prop :=
  s.active = false → s.Coming ∨ ∀ w, ¬ (s.worker w).MayWait

theorem Worker.Waits.mayWait (h : x.Waits) : x.MayWait := by
  simp only [Worker.Waits] at h
  simp [Worker.MayWait, h]

/-- Once the flag is down, the test lets no worker into another wait. -/
theorem mayWait_of_workerStep (hs : WorkerStep false pending x a (.runs y)) (hy : y.MayWait) :
    x.MayWait := by
  cases hs with
  | test => exact absurd hy id
  | popLocal hpc | steal hpc | stealEmpty hpc | pollLocalEnd hpc | pollGlobalEnd hpc
  | spawnFromGlobal hpc => simp [Worker.MayWait, hpc]
  | spawnFromHandler | push => exact hy
  | turn hpc =>
    rename_i timeout
    cases timeout with
    | none => simp [Worker.MayWait, hpc]
    | some ms => exact absurd hy id
  | stealInconsistent | wake | timeout | turnEnd => exact absurd hy id

theorem WorkerAct.taken_eq_zero (h : ∀ events, a ≠ .wake events) : a.taken = 0 := by
  cases a with
  | wake events => exact absurd rfl (h events)
  | _ => rfl

section Proofs

variable [DecidableEq W] {s t : State W L G} {b : Act W L G} {w : W}

theorem wakeable_wake {events : ℕ} (hok : KeepsEvent s (.worker w (.wake events)))
    (hx : ¬ x.MayWait) (hle : events ≤ s.pending) :
    Wakeable { s with
      worker := Function.update s.worker w x, pending := s.pending - events } := by
  intro hactive
  rcases hok with hok | hok | hok
  · exact absurd (hactive.symm.trans hok) (by simp)
  · refine .inl ?_
    simp only [State.Coming]
    omega
  · refine .inr fun v => ?_
    by_cases hvw : v = w
    · subst hvw
      simpa using hx
    · simpa [Function.update_of_ne hvw] using hok v hvw

theorem wakeable_worker (h : Wakeable s) (hok : KeepsEvent s (.worker w a))
    (hs : WorkerStep s.active s.pending (s.worker w) a (.runs x)) :
    Wakeable { s with
      worker := Function.update s.worker w x, pending := s.pending - a.taken } := by
  by_cases hwake : ∃ events, a = .wake events
  · obtain ⟨events, rfl⟩ := hwake
    cases hs with
    | wake _ _ hle => exact wakeable_wake hok id hle
  intro hactive
  have htaken : a.taken = 0 := WorkerAct.taken_eq_zero fun events h => hwake ⟨events, h⟩
  rcases h hactive with hcoming | hnone
  · exact .inl (by simpa [State.Coming, htaken] using hcoming)
  · refine .inr fun v => ?_
    by_cases hvw : v = w
    · subst hvw
      replace hactive : s.active = false := hactive
      rw [hactive] at hs
      simpa using fun hx => hnone v (mayWait_of_workerStep hs hx)
    · simpa [Function.update_of_ne hvw] using hnone v

theorem step_wakeable (h : Wakeable s) (hok : KeepsEvent s b) (hs : step s b = some t) :
    Wakeable t := by
  obtain ⟨-, hstep⟩ := step_cases hs
  cases hstep with
  | beginShutdown => exact fun _ => hok
  | ready | postBegin =>
    refine fun _ => .inl ?_
    simp only [State.Coming]
    omega
  | @postEnd ok hpos =>
    cases ok with
    | true =>
      refine fun _ => .inl ?_
      simp only [State.Coming, if_true]
      omega
    | false =>
      intro hactive
      rcases hok with hok | hok | hok
      · exact absurd (hactive.symm.trans hok) (by simp)
      · refine .inl ?_
        simp only [State.Coming, Bool.false_eq_true, if_false]
        omega
      · exact .inr hok
  | worker hworker => exact wakeable_worker h hok hworker
  | exits => exact h

theorem reachesUnder_wakeable (h : (machine W L G).ReachesUnder KeepsEvent s) : Wakeable s :=
  h.invariant (fun _ hinit => by subst hinit; simp [Wakeable, initial])
    fun _ _ _ _ hI hok hs => step_wakeable hI hok hs

omit [DecidableEq W] in
theorem Wakeable.not_stranded (h : Wakeable s) : ¬ Stranded s := by
  rintro ⟨-, hactive, hcoming, w, hw⟩
  rcases h hactive with hc | hnone
  · exact hcoming hc
  · exact hnone w hw.mayWait

/-- How far a worker is from a wait without a timeout, if nothing new comes to its queues. -/
def Worker.toWait (x : Worker L G) : ℕ :=
  2 * x.localWorkQueue.length + 2 * x.workQueue.length +
    match x.pc with
    | .pollLocal _ => 5
    | .popLocal => 4
    | .pollGlobal _ => 3
    | .steal => 2
    | .turn none => 1
    | _ => 0

/-- The worker drains its queues and comes closer to the wait by itself. -/
theorem exists_step_toWait (active : Bool) (pending : ℕ) (h : x.MayWait) : x.Waits ∨
    ∃ a y, workerStep active pending x a = some (.runs y) ∧ a.taken = 0 ∧ y.MayWait ∧
      y.toWait < x.toWait := by
  obtain ⟨pc, locals, tasks, spawned⟩ := x
  cases pc with
  | waiting timeout =>
    cases timeout with
    | none => exact .inl rfl
    | some ms => exact h.elim
  | test | handling | left => exact h.elim
  | popLocal =>
    refine .inr ⟨.popLocal, _, rfl, rfl, ?_⟩
    cases locals with
    | nil => exact ⟨trivial, by simp [popLocal, Worker.toWait]⟩
    | cons task rest => exact ⟨trivial, by simp [popLocal, Worker.toWait]; omega⟩
  | pollLocal task =>
    exact .inr ⟨.pollEnd, _, rfl, rfl, trivial, by simp [Worker.toWait, Worker.goto]⟩
  | steal =>
    cases tasks with
    | nil => exact .inr ⟨.stealEmpty, _, rfl, rfl, trivial, by simp [Worker.toWait, Worker.goto]⟩
    | cons task rest =>
      exact .inr ⟨.steal, _, rfl, rfl, trivial, by simp [Worker.toWait]; omega⟩
  | pollGlobal task =>
    exact .inr ⟨.pollEnd, _, rfl, rfl, trivial, by simp [Worker.toWait, Worker.goto]⟩
  | turn timeout =>
    cases timeout with
    | none => exact .inr ⟨.turn, _, rfl, rfl, trivial, by simp [Worker.toWait, Worker.goto]⟩
    | some ms => exact h.elim

/-- Nothing is on its way after the shutdown, and the worker is past its test. -/
def Abandoned (w : W) (s : State W L G) : Prop :=
  s.exited = false ∧ s.active = false ∧ ¬ s.Coming ∧ (s.worker w).MayWait

theorem Abandoned.exists_step (h : Abandoned w s) : (s.worker w).Waits ∨
    ∃ b t, (machine W L G).step s b = some t ∧ Abandoned w t ∧
      (t.worker w).toWait < (s.worker w).toWait := by
  obtain ⟨hexited, hactive, hcoming, hw⟩ := h
  rcases exists_step_toWait s.active s.pending hw with hwaits | ⟨a, y, ha, htaken, hy, hlt⟩
  · exact .inl hwaits
  refine .inr ⟨.worker w a, s.finish w a (.runs y), ?_, ⟨hexited, hactive, ?_, ?_⟩, ?_⟩
  · simp [machine, step, hexited, ha]
  · simpa [State.finish, State.Coming, htaken] using hcoming
  · simpa [State.finish] using hy
  · simpa [State.finish] using hlt

/-- The abandoned worker comes to wait for good, with steps of its own. -/
theorem Abandoned.leads_stranded (h : Abandoned w s) :
    ∃ t, (machine W L G).Leads s t ∧ Stranded t := by
  obtain ⟨t, hleads, ⟨hexited, hactive, hcoming, -⟩, hwaits⟩ :=
    Machine.leads_of_measure (G := fun s => (s.worker w).Waits) (fun s => (s.worker w).toWait)
      (fun _ => Abandoned.exists_step) h
  exact ⟨t, hleads, hexited, hactive, hcoming, w, hwaits⟩

/-- A step that leaves no event to a worker past its test strands it in the end. -/
theorem leads_stranded_of_not_keepsEvent (hs : step s b = some t) (hok : ¬ KeepsEvent s b) :
    ∃ u, (machine W L G).Leads t u ∧ Stranded u := by
  obtain ⟨hexited, hstep⟩ := step_cases hs
  cases hstep with
  | beginShutdown =>
    simp only [KeepsEvent, not_or, not_forall, not_not] at hok
    obtain ⟨hcoming, w, hw⟩ := hok
    exact Abandoned.leads_stranded ⟨hexited, rfl, hcoming, hw⟩
  | ready | postBegin => exact absurd trivial hok
  | @postEnd ok hpos =>
    cases ok with
    | true => exact absurd trivial hok
    | false =>
      simp only [KeepsEvent, not_or, not_forall, not_not, Bool.not_eq_true] at hok
      obtain ⟨hactive, hlast, w, hw⟩ := hok
      refine Abandoned.leads_stranded ⟨hexited, hactive, ?_, hw⟩
      simp only [State.Coming, Bool.false_eq_true, if_false]
      omega
  | worker hworker =>
    cases hworker with
    | wake _ _ hle =>
      simp only [KeepsEvent, not_or, not_forall, not_not, Bool.not_eq_true] at hok
      obtain ⟨hactive, hlast, v, hvw, hv⟩ := hok
      refine Abandoned.leads_stranded (w := v)
        ⟨hexited, hactive, ?_, by simpa [Function.update_of_ne hvw] using hv⟩
      simp only [State.Coming, WorkerAct.taken]
      omega
    | _ => exact absurd trivial hok
  | @exits w a hworker =>
    cases hworker with
    | exits ha => cases a <;> first | exact absurd trivial hok | exact ha.elim

/-- No worker is stranded in any run whose shutdown and steps after it leave an event to the
workers past their test. From a step that does not, the workers come to strand one by themselves. -/
theorem shutdownReaches_while_keepsEvent :
    (∀ s, (machine W L G).ReachesUnder KeepsEvent s → ¬ Stranded s) ∧
    ∀ s b t, (machine W L G).Reachable s → step s b = some t → ¬ KeepsEvent s b →
      ∃ u, (machine W L G).Leads t u ∧ Stranded u :=
  ⟨fun _ h => (reachesUnder_wakeable h).not_stranded,
    fun _ _ _ _ hs hok => leads_stranded_of_not_keepsEvent hs hok⟩

end Proofs

/-- Two workers; the second one is in its wait when the pool is shut down. -/
def shutdownWhileWaiting : List (Act Bool ℕ ℕ) :=
  [.worker true .test, .worker true .popLocal, .worker true .stealEmpty, .worker true .turn,
    .beginShutdown, .worker false .test]

/-- One worker waits and the other is past its test when the pool is shut down, with two events
to come. One post fails, and the first worker takes one event of the two that are left; the other
then waits for the last one. -/
def shutdownWithEvents : List (Act Bool ℕ ℕ) :=
  [.worker true .test, .worker true .popLocal, .worker true .stealEmpty, .worker true .turn,
    .worker false .test, .ready, .postBegin, .beginShutdown, .ready, .postEnd false,
    .worker true (.wake 1), .worker true .turnEnd, .worker true .test,
    .worker false .popLocal, .worker false .stealEmpty, .worker false .turn]

theorem shutdownWithEvents_reaches : (∃ s,
    (machine Bool ℕ ℕ).exec initial shutdownWithEvents = some s ∧
      s.active = false ∧ (s.worker false).Waits ∧ ¬ Stranded s) ∧
    ∃ s, (machine Bool ℕ ℕ).Leads initial s ∧ Stranded s := by
  have hkept : (machine Bool ℕ ℕ).Every KeepsEvent initial shutdownWithEvents :=
    .cons trivial rfl <| .cons trivial rfl <| .cons trivial rfl <| .cons trivial rfl <|
    .cons trivial rfl <| .cons trivial rfl <| .cons trivial rfl <|
    .cons (.inl (by decide)) rfl <| .cons trivial rfl <|
    .cons (.inr (.inl (by decide))) rfl <| .cons (.inr (.inl (by decide))) rfl <|
    .cons trivial rfl <| .cons trivial rfl <| .cons trivial rfl <| .cons trivial rfl <|
    .cons trivial rfl trivial
  constructor
  · exact ⟨_, rfl, rfl, rfl, shutdownReaches_while_keepsEvent.1 _
      (.exec (.init rfl) hkept rfl)⟩
  · have hwaiting : (machine Bool ℕ ℕ).exec initial (shutdownWhileWaiting.take 4) = some _ := rfl
    obtain ⟨u, hleads, hstranded⟩ := shutdownReaches_while_keepsEvent.2 _ .beginShutdown _
      (Machine.reachable_of_exec rfl hwaiting) rfl
      fun hok => hok.elim (by decide) fun hnone => hnone true trivial
    exact ⟨u, .trans ⟨_, hwaiting⟩ (.step (a := .beginShutdown) rfl hleads), hstranded⟩

/-- `begin_shutdown` wakes nobody: the waiting worker never looks at the flag again. -/
theorem worker_stranded_by_shutdown :
    (∃ s, (machine Bool ℕ ℕ).exec initial shutdownWhileWaiting = some s ∧ Stranded s) ∧
    ¬ ∀ s, (machine Bool ℕ ℕ).Reachable s → ¬ Stranded s := by
  have hrun : ∃ s, (machine Bool ℕ ℕ).exec initial shutdownWhileWaiting = some s ∧ Stranded s :=
    ⟨_, rfl, rfl, rfl, by decide, true, rfl⟩
  refine ⟨hrun, fun h => ?_⟩
  obtain ⟨s, hrun, hstranded⟩ := hrun
  exact h s (Machine.reachable_of_exec rfl hrun) hstranded

end CompleteIo.WorkerLoop
