import CompleteIo.ThreadPool.TaskWakeup

namespace CompleteIo.GlobalTask

variable {W T : Type*} [DecidableEq T] {s s' : State W T} {t : T}

/-- The task was spawned and no poll of its future has begun. -/
structure Unpolled (s : State W T) (t : T) : Prop where
  pending : s.future t = .pending
  awake : s.suspended t = false
  ahead : ∀ w pc, s.activity w = .doPoll t pc → pc = .load ∨ ∃ level, pc = .poll level

theorem Unpolled.of_same (h : Unpolled s t) (hsame : Same t s s') : Unpolled s' t where
  pending := hsame.future.trans h.pending
  awake := hsame.suspended.trans h.awake
  ahead w pc hw := h.ahead w pc ((hsame.activity_iff (x := .doPoll t pc) rfl).mp hw)

/-- Whoever has the task that was never polled is on the way to poll it. -/
theorem Unpolled.owesPoll (h : Unpolled s t) (hinv : Inv s t) : OwesPoll s t := by
  obtain ⟨p, hat⟩ := hinv.pending h.pending
  have hp : 0 < occupancy s t p := by simp [hat.here]
  cases p with
  | posted => exact .posted (List.count_pos_iff.mp hp)
  | queued w => exact .queued w (List.count_pos_iff.mp hp)
  | pushing w => exact .pushing w (List.count_pos_iff.mp hp)
  | spawning w =>
    by_cases hw : s.activity w = .spawning t
    · exact .spawning w hw
    · simp [occupancy, hw] at hp
  | suspended => simp [occupancy, h.awake] at hp
  | doPoll w =>
    cases hw : s.activity w with
    | doPoll u pc =>
      obtain rfl : u = t := by
        by_contra hne
        simp [occupancy, hw, Activity.polls, hne] at hp
      rcases h.ahead w pc hw with rfl | ⟨level, rfl⟩
      · exact .load w hw
      · exact .poll w level hw
    | _ => simp [occupancy, hw, Activity.polls] at hp

variable [DecidableEq W] {a : Act W T}

theorem unpolled_spawnFuture (hinv : Inv s t) (hs : step s (.spawnFuture t) = some s') :
    Unpolled s' t := by
  simp only [step, Option.ite_none_right_eq_some, Option.some.injEq] at hs
  obtain ⟨hf, rfl⟩ := hs
  have habsent := hinv.absent (by simp [hf])
  refine ⟨by simp, ?_, fun w pc hw => absurd (habsent (.doPoll w)) (occupancy_doPoll hw)⟩
  simpa [occupancy, State.setLevel] using habsent .suspended

omit [DecidableEq T] in
theorem Unpolled.update (h : Unpolled s t) {w : W} {x : Activity T}
    (hfuture : s'.future t = s.future t) (hsuspended : s'.suspended t = s.suspended t)
    (hactivity : s'.activity = Function.update s.activity w x)
    (hx : ∀ pc, x = .doPoll t pc → pc = .load ∨ ∃ level, pc = .poll level) : Unpolled s' t := by
  refine ⟨hfuture.trans h.pending, hsuspended.trans h.awake, fun v pc hv => ?_⟩
  rw [hactivity] at hv
  by_cases hvw : v = w
  · subst hvw
    rw [Function.update_self] at hv
    exact hx pc hv
  · rw [Function.update_of_ne hvw] at hv
    exact h.ahead v pc hv

/-- Until a poll of it begins, nothing but a place on the way to one can become of a task. -/
theorem step_unpolled (h : Unpolled s t) (hno : ∀ w level, a ≠ .beginPoll w t level)
    (hs : step s a = some s') : Unpolled s' t := by
  by_cases ht : t = a.task
  swap
  · exact h.of_same (step_other hs ht)
  have hpending := h.pending
  cases a
  all_goals simp only [step, Option.ite_none_right_eq_some, Option.some.injEq] at hs
  all_goals obtain ⟨hg, rfl⟩ := hs
  all_goals simp only [Act.task] at ht
  all_goals subst ht
  case spawnFuture => simp [hg] at hpending
  case takeDatum | pushSpawned => exact h.update rfl rfl rfl (by simp)
  case steal => exact h.update rfl rfl rfl fun _ he => .inl (Activity.doPoll.inj he).2.symm
  case load => exact h.update rfl rfl rfl fun _ he => .inr ⟨_, (Activity.doPoll.inj he).2.symm⟩
  case beginPoll w level => exact absurd rfl (hno w level)
  case pollNotReady | pollReady | pollErr | compareExchange =>
    have := h.ahead _ _ hg
    simp at this
  case fetchAdd =>
    unfold fetchAdd
    split
    · exact ⟨h.pending, by simp [State.setSuspended], h.ahead⟩
    · exact ⟨h.pending, h.awake, h.ahead⟩
  case push => exact ⟨h.pending, h.awake, h.ahead⟩

end CompleteIo.GlobalTask
