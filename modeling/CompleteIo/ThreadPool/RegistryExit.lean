import Mathlib.Algebra.Order.BigOperators.Group.Finset
import CompleteIo.ThreadPool.Registry

namespace CompleteIo.Registry

variable {n : ℕ} {s t : State} {a : Act} {w v : ℕ} {pc : WorkerPc}

@[simp] theorem setWorker_self : (s.setWorker w pc).worker w = pc := Function.update_self ..

theorem setWorker_other (h : v ≠ w) : (s.setWorker w pc).worker v = s.worker v :=
  Function.update_of_ne h ..

theorem WorkerPc.InLoop.registered (h : pc.InLoop) : pc.Registered := by
  cases pc <;> first | exact h | trivial

theorem WorkerPc.InLoop.not_guards (h : pc.InLoop) : ¬ pc.Guards := by
  cases pc <;> first | exact id | exact h.elim

theorem WorkerPc.Registered.ne_unborn (h : pc.Registered) : pc ≠ .unborn := by
  rintro rfl
  exact h

theorem initial_inv : Inv n initial := by
  refine ⟨?_, ?_, ?_, ?_, ?_, ?_, ?_, ?_⟩ <;>
    simp [initial, OneToken, State.Guards, BuildPc.Guards, WorkerPc.Guards, BuildPc.created,
      BuildPc.pushed]
  rintro (_ | w) <;> exact id

theorem guards_setWorker {i : Option ℕ} (hi : i ≠ some w) :
    (s.setWorker w pc).Guards i ↔ s.Guards i := by
  cases i with
  | none => exact Iff.rfl
  | some v => rw [State.Guards, State.Guards, setWorker_other fun he => hi (by rw [he])]

theorem Inv.sound_lock (h : Inv n s) (hpc : ∀ k, s.build ≠ .panicked k) : s.poisoned = false := by
  rw [Bool.eq_false_iff]
  intro hp
  obtain ⟨k, hk⟩ := h.poisoned hp
  exact hpc k hk

theorem Inv.built (h : Inv n s) (hactive : s.active = false) : s.build = .done := by
  by_contra hne
  simp [h.unbuilt hne] at hactive

/-- A worker out of its loop finds the pool built and shut down. -/
theorem Inv.shutdown (h : Inv n s) (hu : s.worker w ≠ .unborn) (hr : ¬ (s.worker w).InLoop) :
    s.active = false ∧ s.build = .done ∧ s.poisoned = false := by
  have hactive : s.active = false := by
    rw [Bool.eq_false_iff]
    exact fun ha => (h.stays ha w).elim hu hr
  have hdone := h.built hactive
  refine ⟨hactive, hdone, h.sound_lock (by simp [hdone])⟩

/-- A step of a worker, which stays in its loop unless the pool is shut down. -/
theorem Inv.worker (h : Inv n s) {workers : List ℕ} {locked : Bool}
    (hu : s.worker w ≠ .unborn) (hpcu : pc ≠ .unborn) (hpcp : pc ≠ .panicked)
    (hstays : s.active = true → pc.InLoop) (hnodup : workers.Nodup)
    (hguarded : OneToken (!locked)
      ({ s with workers := workers, locked := locked }.setWorker w pc).Guards)
    (hself : w ∈ workers ↔ w ∈ s.workers ∧ pc.Registered)
    (hreg : pc.Registered → (s.worker w).Registered)
    (hother : ∀ v, v ≠ w → (v ∈ workers ↔ v ∈ s.workers)) :
    Inv n ({ s with workers := workers, locked := locked }.setWorker w pc) := by
  refine ⟨hguarded, h.unbuilt, h.poisoned, fun ha v => ?_, fun v => ?_, hnodup, fun v => ?_,
    fun v => ?_⟩
  all_goals
    by_cases hv : v = w
  · rw [hv, setWorker_self]
    exact .inr (hstays ha)
  · rw [setWorker_other hv]
    exact h.stays ha v
  · rw [hv, setWorker_self]
    exact hpcp
  · rw [setWorker_other hv]
    exact h.sound v
  · rw [hv, setWorker_self]
    exact iff_of_true hpcu ((h.born w).mp hu)
  · rw [setWorker_other hv]
    exact h.born v
  · subst hv
    rw [setWorker_self]
    refine hself.trans ?_
    rw [h.registered v]
    constructor
    · rintro ⟨⟨hlt, -⟩, hpc⟩
      exact ⟨hlt, hpc⟩
    · rintro ⟨hlt, hpc⟩
      exact ⟨⟨hlt, hreg hpc⟩, hpc⟩
  · rw [setWorker_other hv]
    exact (hother v hv).trans (h.registered v)

/-- A worker goes on in its loop, or leaves it when the pool is shut down. -/
theorem inv_inLoop (h : Inv n s) (hw : (s.worker w).InLoop) (hreg : pc.Registered)
    (hguards : ¬ pc.Guards) (hstays : s.active = true → pc.InLoop) :
    Inv n (s.setWorker w pc) := by
  refine h.worker hw.registered.ne_unborn hreg.ne_unborn (by rintro rfl; exact hreg) hstays
    h.nodup (h.guarded.congr ?_) (by simp [hreg]) (fun _ => hw.registered) fun _ _ => Iff.rfl
  rintro (_ | v)
  · exact Iff.rfl
  · by_cases hv : v = w
    · simp [hv, State.Guards, hw.not_guards, hguards]
    · exact guards_setWorker (by simpa using hv)

theorem inv_test (h : Inv n s) (hpc : s.worker w = .test) :
    Inv n (s.setWorker w (if s.active then .running else .lock)) := by
  have hw : (s.worker w).InLoop := hpc ▸ trivial
  cases hactive : s.active with
  | true => exact inv_inLoop h hw trivial id fun _ => trivial
  | false => exact inv_inLoop h hw trivial id fun ha => by simp [hactive] at ha

theorem inv_lock (h : Inv n s) (hpc : s.worker w = .lock) (hfree : s.locked = false) :
    Inv n ({ s with locked := true }.setWorker w .remove) := by
  obtain ⟨hdown, -, -⟩ := h.shutdown (w := w) (by simp [hpc]) (by simp [hpc, WorkerPc.InLoop])
  refine h.worker (by simp [hpc]) (by simp) (by simp) (by simp [hdown]) h.nodup ?_
    (by simp [WorkerPc.Registered]) (by simp [hpc, WorkerPc.Registered]) fun _ _ => Iff.rfl
  have htoken := h.guarded
  rw [hfree] at htoken
  exact htoken.take (i := some w) (by simp [State.Guards, WorkerPc.Guards])
    fun j hj => guards_setWorker (s := { s with locked := true }) hj

theorem inv_unlock (h : Inv n s) (hpc : s.worker w = .unlock) :
    Inv n ({ s with locked := false }.setWorker w .finished) := by
  obtain ⟨hdown, -, -⟩ := h.shutdown (w := w) (by simp [hpc]) (by simp [hpc, WorkerPc.InLoop])
  have hnot : w ∉ s.workers := fun hw => by
    have := ((h.registered w).mp hw).2
    simp [hpc, WorkerPc.Registered] at this
  refine h.worker (by simp [hpc]) (by simp) (by simp) (by simp [hdown]) h.nodup ?_
    (by simp [WorkerPc.Registered, hnot]) (by simp [WorkerPc.Registered]) fun _ _ => Iff.rfl
  exact h.guarded.put (i := some w) (by simp [State.Guards, hpc, WorkerPc.Guards])
    (by simp [State.Guards, WorkerPc.Guards])
    fun j hj => guards_setWorker (s := { s with locked := false }) hj

/-- The worker is in `workers` until it takes itself out. -/
theorem inv_remove (h : Inv n s) (hpc : s.worker w = .remove) : Inv n (remove s w) := by
  obtain ⟨hdown, hdone, -⟩ :=
    h.shutdown (w := w) (by simp [hpc]) (by simp [hpc, WorkerPc.InLoop])
  have hmem : w ∈ s.workers := by
    have hborn := (h.born w).mp (by simp [hpc])
    rw [hdone] at hborn
    exact (h.registered w).mpr ⟨hdone ▸ hborn, by simp [hpc, WorkerPc.Registered]⟩
  obtain ⟨i, hi⟩ : ∃ i, s.workers.findIdx? (· = w) = some i :=
    Option.isSome_iff_exists.mp (List.findIdx?_isSome.trans (by simpa using hmem))
  have hget : s.workers[i]? = some w := by
    obtain ⟨hlt, heq, -⟩ := List.findIdx?_eq_some_iff_getElem.mp hi
    rw [List.getElem?_eq_getElem hlt, of_decide_eq_true heq]
  have hperm := swapRemove_perm hget
  have hnodup := hperm.symm.nodup h.nodup
  rw [List.nodup_cons] at hnodup
  rw [remove, hi]
  refine h.worker (by simp [hpc]) (by simp) (by simp) (by simp [hdown]) hnodup.2
    (h.guarded.congr ?_) (by simp [WorkerPc.Registered, hnodup.1]) (by simp [WorkerPc.Registered])
    fun v hv => ?_
  · rintro (_ | v)
    · exact Iff.rfl
    · by_cases hv : v = w
      · simp [hv, State.Guards, hpc, WorkerPc.Guards]
      · exact guards_setWorker (s := { s with workers := swapRemove s.workers i })
          (by simpa using hv)
  · rw [← hperm.mem_iff, List.mem_cons, or_iff_right hv]

theorem inv_buildLock (h : Inv n s) (hpc : s.build = .lock) (hfree : s.locked = false) :
    Inv n { s with build := .spawning 0, locked := true } where
  guarded := by
    have htoken := h.guarded
    rw [hfree] at htoken
    exact htoken.take (i := none) trivial fun j hj => by
      obtain ⟨w, rfl⟩ := Option.ne_none_iff_exists'.mp hj
      exact Iff.rfl
  unbuilt _ := h.unbuilt (by simp [hpc])
  poisoned := by simp [h.sound_lock (by simp [hpc])]
  stays := h.stays
  sound := h.sound
  nodup := h.nodup
  born w := (h.born w).trans (by simp [hpc, BuildPc.created, BuildPc.pushed])
  registered w := (h.registered w).trans (by simp [hpc, BuildPc.pushed])

theorem inv_createThread {k : ℕ} (h : Inv n s) (hpc : s.build = .spawning k) :
    Inv n ({ s with build := .pushing k }.setWorker k .test) := by
  have hactive : s.active = true := h.unbuilt (by simp [hpc])
  have hp : s.poisoned = false := h.sound_lock (by simp [hpc])
  refine ⟨h.guarded.congr ?_, fun _ => hactive, by simp [State.setWorker, hp], fun _ w => ?_,
    fun w => ?_, h.nodup, fun w => ?_, fun w => ?_⟩
  · rintro (_ | w)
    · simp [State.Guards, State.setWorker, hpc, BuildPc.Guards]
    · by_cases hw : w = k
      · subst hw
        have hunborn : s.worker w = .unborn := by
          have := (h.born w).not
          simpa [hpc, BuildPc.created, BuildPc.pushed] using this
        simp [State.Guards, hunborn, WorkerPc.Guards]
      · exact guards_setWorker (s := { s with build := .pushing k }) (by simpa using hw)
  all_goals
    by_cases hw : w = k
  · rw [hw, setWorker_self]
    exact .inr trivial
  · rw [setWorker_other hw]
    exact h.stays hactive w
  · rw [hw, setWorker_self]
    simp
  · rw [setWorker_other hw]
    exact h.sound w
  · rw [hw, setWorker_self]
    simp [State.setWorker, BuildPc.created]
  · rw [setWorker_other hw]
    refine (h.born w).trans ?_
    simp only [hpc, State.setWorker, BuildPc.created, BuildPc.pushed]
    omega
  · refine (h.registered w).trans ?_
    simp [hw, hpc, State.setWorker, BuildPc.pushed]
  · rw [setWorker_other hw]
    refine (h.registered w).trans ?_
    simp [hpc, State.setWorker, BuildPc.pushed]

theorem inv_createFails {k : ℕ} (h : Inv n s) (hpc : s.build = .spawning k) :
    Inv n { s with build := .panicked k, locked := false, poisoned := true } where
  guarded := h.guarded.put (i := none) (by simp [State.Guards, hpc, BuildPc.Guards])
    (by simp [State.Guards, BuildPc.Guards]) fun j hj => by
      obtain ⟨w, rfl⟩ := Option.ne_none_iff_exists'.mp hj
      exact Iff.rfl
  unbuilt _ := h.unbuilt (by simp [hpc])
  poisoned _ := ⟨k, rfl⟩
  stays := h.stays
  sound := h.sound
  nodup := h.nodup
  born w := (h.born w).trans (by simp [hpc, BuildPc.created, BuildPc.pushed])
  registered w := (h.registered w).trans (by simp [hpc, BuildPc.pushed])

/-- The worker pushed has long been running, and cannot have left. -/
theorem inv_push {k : ℕ} (h : Inv n s) (hpc : s.build = .pushing k) :
    Inv n { s with build := .spawning (k + 1), workers := s.workers ++ [k] } := by
  have hactive : s.active = true := h.unbuilt (by simp [hpc])
  have hinLoop : (s.worker k).InLoop :=
    (h.stays hactive k).resolve_left ((h.born k).mpr (by simp [hpc, BuildPc.created]))
  have hnot : k ∉ s.workers := fun hk => by
    have := ((h.registered k).mp hk).1
    simp [hpc, BuildPc.pushed] at this
  have hp : s.poisoned = false := h.sound_lock (by simp [hpc])
  refine ⟨h.guarded.congr ?_, fun _ => hactive, by simp [hp], h.stays, h.sound,
    List.nodup_append.mpr ⟨h.nodup, by simp, ?_⟩,
    fun w => (h.born w).trans (by simp [hpc, BuildPc.created, BuildPc.pushed]), fun w => ?_⟩
  · rintro (_ | w)
    · simp [State.Guards, hpc, BuildPc.Guards]
    · exact Iff.rfl
  · intro v hv u hu he
    rw [List.mem_singleton.mp hu] at he
    exact hnot (he ▸ hv)
  · rw [List.mem_append, List.mem_singleton, h.registered w, hpc]
    simp only [BuildPc.pushed, Nat.lt_succ_iff_lt_or_eq]
    constructor
    · rintro (⟨hlt, hreg⟩ | rfl)
      · exact ⟨.inl hlt, hreg⟩
      · exact ⟨.inr rfl, hinLoop.registered⟩
    · rintro ⟨hlt | rfl, hreg⟩
      · exact .inl ⟨hlt, hreg⟩
      · exact .inr rfl

theorem inv_buildUnlock (h : Inv n s) (hpc : s.build = .spawning n) :
    Inv n { s with build := .done, locked := false } where
  guarded := h.guarded.put (i := none) (by simp [State.Guards, hpc, BuildPc.Guards])
    (by simp [State.Guards, BuildPc.Guards]) fun j hj => by
      obtain ⟨w, rfl⟩ := Option.ne_none_iff_exists'.mp hj
      exact Iff.rfl
  unbuilt hne := absurd rfl hne
  poisoned := by simp [h.sound_lock (by simp [hpc])]
  stays := h.stays
  sound := h.sound
  nodup := h.nodup
  born w := (h.born w).trans (by simp [hpc, BuildPc.created, BuildPc.pushed])
  registered w := (h.registered w).trans (by simp [hpc, BuildPc.pushed])

theorem step_inv (h : Inv n s) (hs : Step n s a t) : Inv n t := by
  cases hs with
  | buildLock hpc hfree => exact inv_buildLock h hpc hfree
  | createThread hpc => exact inv_createThread h hpc
  | createFails hpc => exact inv_createFails h hpc
  | push hpc => exact inv_push h hpc
  | buildUnlock hpc => exact inv_buildUnlock h hpc
  | beginShutdown hpc =>
    exact ⟨h.guarded, absurd hpc, h.poisoned, fun ha => absurd ha (by simp), h.sound, h.nodup,
      h.born, h.registered⟩
  | test hpc => exact inv_test h hpc
  | turnEnd hpc => exact inv_inLoop h (hpc ▸ trivial) trivial id fun _ => trivial
  | lock hpc hfree => exact inv_lock h hpc hfree
  | @lockFails w hpc hpoisoned =>
    -- Only a pool that was never built has its lock poisoned, and its workers never leave.
    obtain ⟨-, -, hsound⟩ :=
      h.shutdown (w := w) (by simp [hpc]) (by simp [hpc, WorkerPc.InLoop])
    simp [hsound] at hpoisoned
  | remove hpc => exact inv_remove h hpc
  | unlock hpc => exact inv_unlock h hpc

theorem reachable_registered (hr : (machine n).Reachable s) : Inv n s :=
  hr.invariant (fun _ hs => hs ▸ initial_inv) fun _ _ _ _ h _ hs => step_inv h (step_cases hs)

/-- How many steps the worker is from the end of its thread, when the flag is down. -/
def WorkerPc.ahead : WorkerPc → ℕ
  | .test => 4
  | .lock => 3
  | .remove => 2
  | .unlock => 1
  | .unborn | .running | .finished | .panicked => 0

def State.ahead (n : ℕ) (s : State) : ℕ := ∑ w ∈ Finset.range n, (s.worker w).ahead

theorem ahead_setWorker (hw : w < n) (hlt : pc.ahead < (s.worker w).ahead) :
    (s.setWorker w pc).ahead n < s.ahead n := by
  refine Finset.sum_lt_sum (fun v _ => ?_) ⟨w, Finset.mem_range.mpr hw, by simpa using hlt⟩
  by_cases hv : v = w
  · rw [hv, setWorker_self]
    exact hlt.le
  · rw [setWorker_other hv]

theorem running_setWorker (hw : s.worker w ≠ .running) (hpc : pc ≠ .running) :
    (s.setWorker w pc).worker v = .running ↔ s.worker v = .running := by
  by_cases hv : v = w
  · subst hv
    rw [setWorker_self]
    exact iff_of_false hpc hw
  · rw [setWorker_other hv]

/-- The worker comes a step nearer to its end, and no other moves. -/
def Nearer (n : ℕ) (s t : State) : Prop :=
  t.active = s.active ∧ (∀ v, t.worker v = .running ↔ s.worker v = .running) ∧
    t.ahead n < s.ahead n

theorem nearer_setWorker {workers : List ℕ} {locked : Bool} (hw : w < n)
    (hr : s.worker w ≠ .running) (hpc : pc ≠ .running) (hlt : pc.ahead < (s.worker w).ahead) :
    Nearer n s ({ s with workers := workers, locked := locked }.setWorker w pc) :=
  ⟨rfl, fun _ => running_setWorker (s := { s with workers := workers, locked := locked }) hr hpc,
    ahead_setWorker (s := { s with workers := workers, locked := locked }) hw hlt⟩

theorem Inv.born_iff (h : Inv n s) (hdone : s.build = .done) (w : ℕ) :
    s.worker w ≠ .unborn ↔ w < n := by
  rw [h.born w, hdone]
  rfl

/-- The worker that has the guard goes on. -/
theorem guard_enabled (h : Inv n s) (hdone : s.build = .done) (hlocked : s.locked = true) :
    ∃ a t, step n s a = some t ∧ Nearer n s t := by
  have htoken := h.guarded
  rw [hlocked] at htoken
  obtain ⟨_ | w, hw⟩ := htoken.exists_busy
  · simp [State.Guards, hdone, BuildPc.Guards] at hw
  have hguards : (s.worker w).Guards := hw
  have hlt : w < n := (h.born_iff hdone w).mp fun hu => by simp [hu, WorkerPc.Guards] at hguards
  cases hpc : s.worker w <;> simp only [hpc, WorkerPc.Guards] at hguards
  · refine ⟨.remove w, remove s w, if_pos hpc, ?_⟩
    rw [remove]
    split
    · exact nearer_setWorker hlt (by simp [hpc]) (by simp) (by simp [hpc, WorkerPc.ahead])
    · exact nearer_setWorker hlt (by simp [hpc]) (by simp) (by simp [hpc, WorkerPc.ahead])
  · exact ⟨.unlock w, _, if_pos hpc,
      nearer_setWorker hlt (by simp [hpc]) (by simp) (by simp [hpc, WorkerPc.ahead])⟩

/-- While nobody has the guard, every worker goes on that is neither finished nor in a turn. -/
theorem worker_enabled (h : Inv n s) (hactive : s.active = false) (hfree : s.locked = false)
    {w : ℕ} (hlt : w < n) (hne : ¬ (s.worker w = .finished ∨ s.worker w = .running)) :
    ∃ a t, step n s a = some t ∧ Nearer n s t := by
  have hdone := h.built hactive
  have hpoisoned := h.sound_lock (by simp [hdone])
  have htoken := h.guarded
  rw [hfree] at htoken
  have hidle : ¬ (s.worker w).Guards := htoken.idle_of_free (some w)
  match hpc : s.worker w with
  | .test =>
    refine ⟨.test w, s.setWorker w .lock, ?_,
      nearer_setWorker hlt (by simp [hpc]) (by simp) (by simp [hpc, WorkerPc.ahead])⟩
    rw [step, if_pos hpc, hactive]
    rfl
  | .lock =>
    refine ⟨.lock w, { s with locked := true }.setWorker w .remove, ?_,
      nearer_setWorker hlt (by simp [hpc]) (by simp) (by simp [hpc, WorkerPc.ahead])⟩
    rw [step, if_pos ⟨hpc, hfree⟩, if_neg (by simp [hpoisoned])]
  | .remove | .unlock =>
    rw [hpc] at hidle
    exact absurd trivial hidle
  | .unborn => exact absurd hpc ((h.born_iff hdone w).mpr hlt)
  | .running => exact absurd (.inr hpc) hne
  | .finished => exact absurd (.inl hpc) hne
  | .panicked => exact absurd hpc (h.sound w)

/-- Unless all are gone or in a turn, some worker of a pool shut down can take its next step. -/
theorem exit_enabled (h : Inv n s) (hactive : s.active = false) :
    (∀ w < n, s.worker w = .finished ∨ s.worker w = .running) ∨
      ∃ a t, step n s a = some t ∧ Nearer n s t := by
  by_cases hlocked : s.locked = true
  · exact .inr (guard_enabled h (h.built hactive) hlocked)
  by_cases hall : ∀ w < n, s.worker w = .finished ∨ s.worker w = .running
  · exact .inl hall
  obtain ⟨w, hw⟩ := not_forall.mp hall
  obtain ⟨hlt, hne⟩ := Classical.not_imp.mp hw
  exact .inr (worker_enabled h hactive (Bool.eq_false_iff.mpr hlocked) hlt hne)

/-- Without any turn ending, all workers of a pool shut down that are not in one come to an end. -/
theorem leads_exit (h : Inv n s) (hactive : s.active = false) :
    ∃ t, (machine n).Leads s t ∧ Inv n t ∧ t.active = false ∧
      (∀ v, t.worker v = .running ↔ s.worker v = .running) ∧
      ∀ w < n, t.worker w = .finished ∨ t.worker w = .running := by
  obtain ⟨t, hlead, ⟨ht, hdown, hrunning⟩, hall⟩ := Machine.leads_of_measure (M := machine n)
    (I := fun t => Inv n t ∧ t.active = false ∧
      ∀ v, t.worker v = .running ↔ s.worker v = .running) (State.ahead n)
    (fun u ⟨h, hactive, hrunning⟩ => (exit_enabled h hactive).imp_right
      fun ⟨a, t, hs, hdown, hkept, hlt⟩ =>
        ⟨a, t, hs, ⟨step_inv h (step_cases hs), hdown.trans hactive,
          fun v => (hkept v).trans (hrunning v)⟩, hlt⟩) ⟨h, hactive, fun _ => Iff.rfl⟩
  exact ⟨t, hlead, ht, hdown, hrunning, hall⟩

/-- `workers` holds each worker from its push until it takes itself out, once, so that none ever
panics on its way out; and once a pool is told to shut down, the threads of all workers that are
not past their test can end, without any turn ending, with only the others left. -/
theorem workers_exact (hr : (machine n).Reachable s) :
    (∀ w, s.worker w ≠ .panicked) ∧ s.workers.Nodup ∧
      (∀ w, w ∈ s.workers ↔ w < s.build.pushed n ∧ (s.worker w).Registered) ∧
      (s.active = false →
        ∃ t, (machine n).Leads s t ∧ (∀ w, t.worker w = .running ↔ s.worker w = .running) ∧
          (∀ w < n, s.worker w ≠ .running → t.worker w = .finished) ∧
          ∀ w, w ∈ t.workers ↔ s.worker w = .running) := by
  have hinv := reachable_registered hr
  refine ⟨hinv.sound, hinv.nodup, hinv.registered, fun hactive => ?_⟩
  obtain ⟨t, hlead, ht, hdown, hrunning, hall⟩ := leads_exit hinv hactive
  refine ⟨t, hlead, hrunning, fun w hw hr => ?_, fun w => ?_⟩
  · exact (hall w hw).resolve_right ((hrunning w).not.mpr hr)
  · rw [ht.registered w, ht.built hdown, ← hrunning w]
    constructor
    · rintro ⟨hlt, hreg⟩
      refine (hall w hlt).resolve_left fun hfinished => ?_
      simp [hfinished, WorkerPc.Registered] at hreg
    · intro hw
      have hborn := (ht.born w).mp (by simp [hw])
      rw [ht.built hdown] at hborn
      exact ⟨hborn, by simp [hw, WorkerPc.Registered]⟩

/-- A pool of three workers shuts down: the first has taken itself out, the second is past its
test, and the third is in a turn. -/
def firstOut : List Act :=
  [.buildLock, .createThread, .push, .createThread, .push, .test 0, .createThread, .push,
    .buildUnlock, .test 2, .beginShutdown, .turnEnd 0, .test 0, .lock 0, .test 1, .remove 0]

theorem firstOut_exact :
    ∃ s, (machine 3).exec initial firstOut = some s ∧ s.workers = [2, 1] ∧
      ∃ t, (machine 3).Leads s t ∧ t.worker 0 = .finished ∧ t.worker 1 = .finished ∧
        t.worker 2 = .running ∧ 2 ∈ t.workers := by
  have hrun : (machine 3).exec initial firstOut = some _ := rfl
  obtain ⟨t, hlead, hrunning, hfinished, hleft⟩ :=
    (workers_exact (Machine.reachable_of_exec rfl hrun)).2.2.2 rfl
  exact ⟨_, hrun, rfl, t, hlead, hfinished 0 (by decide) (by decide),
    hfinished 1 (by decide) (by decide), (hrunning 2).mpr rfl, (hleft 2).mpr rfl⟩

end CompleteIo.Registry
