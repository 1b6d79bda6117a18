import CompleteIo.ThreadPool.Pools

namespace CompleteIo.Pools

open GlobalTask (Same Unpolled occupancy)

variable {Q W T : Type*} [DecidableEq T] {x y : GlobalTask.State W T} {t u : T} {pool : W → Q}
  {q : Q}

/-- Every worker that has the task is one of the pool, and no notification has moved it. -/
structure AtHome (pool : W → Q) (q : Q) (x : GlobalTask.State W T) (t : T) : Prop where
  spawning : ∀ w, x.activity w = .spawning t → pool w = q
  queued : ∀ w, t ∈ x.deque w → pool w = q
  polled : ∀ w pc, x.activity w = .doPoll t pc → pool w = q
  pushing : ∀ w, t ∉ x.pushing w

theorem mem_iff_of_count {xs ys : List T} (h : ys.count t = xs.count t) : t ∈ ys ↔ t ∈ xs := by
  rw [← List.count_pos_iff, h, List.count_pos_iff]

theorem AtHome.of_same (h : AtHome pool q x t) (hsame : Same t x y) : AtHome pool q y t where
  spawning w hw := h.spawning w ((hsame.activity_iff (x := .spawning t) rfl).mp hw)
  queued w hw := h.queued w ((mem_iff_of_count (hsame.queued w)).mp hw)
  polled w pc hw := h.polled w pc ((hsame.activity_iff (x := .doPoll t pc) rfl).mp hw)
  pushing w hw := h.pushing w ((mem_iff_of_count (hsame.pushing w)).mp hw)

theorem atHome_of_absent (h : ∀ p, occupancy x t p = 0) : AtHome pool q x t where
  spawning w hw := absurd (h (.spawning w)) (GlobalTask.occupancy_spawning hw)
  queued w hw := absurd (h (.queued w)) (GlobalTask.occupancy_queued hw)
  polled w _ hw := absurd (h (.doPoll w)) (GlobalTask.occupancy_doPoll hw)
  pushing w hw := absurd (h (.pushing w)) (Nat.ne_of_gt (List.count_pos_iff.mpr hw))

variable [DecidableEq W] {a : GlobalTask.Act W T}

omit [DecidableEq T] in
theorem AtHome.update (h : AtHome pool q x t) {w : W} {p : GlobalTask.Activity T}
    (hactivity : y.activity = Function.update x.activity w p)
    (hspawning : p = .spawning t → pool w = q) (hpolled : ∀ pc, p = .doPoll t pc → pool w = q)
    (hqueued : ∀ v, t ∈ y.deque v → pool v = q) (hpushing : y.pushing = x.pushing) :
    AtHome pool q y t := by
  refine ⟨fun v hv => ?_, hqueued, fun v pc hv => ?_, hpushing ▸ h.pushing⟩
  all_goals
    rw [hactivity] at hv
    by_cases hvw : v = w
  · subst hvw
    exact hspawning (by simpa using hv)
  · exact h.spawning v (by simpa [hvw] using hv)
  · subst hvw
    exact hpolled pc (by simpa using hv)
  · exact h.polled v pc (by simpa [hvw] using hv)

omit [DecidableEq W] in
/-- Level 0 is for suspended tasks only. -/
theorem level_ne_zero (h : GlobalTask.Inv x t) (hf : x.future t = .pending)
    (hawake : x.suspended t = false) (hfew : x.calls t + 1 < 2 ^ 64) : x.signalLevel t ≠ 0 := by
  obtain ⟨count, hl⟩ := h.level (by simp [hf])
  have hcount : count ≠ 0 := fun h0 => by simp [hl.zero.mpr h0] at hawake
  have hbound := hl.bound
  have hword := hl.word
  omega

/-- A task that was never polled stays with the workers of the pool that took its datum. -/
theorem step_atHome (h : AtHome pool q x t) (hun : Unpolled x t) (hinv : GlobalTask.Inv x t)
    (hfew : GlobalTask.FewCalls x a) (htake : ∀ w, a = .takeDatum w t → pool w = q)
    (hno : ∀ w level, a ≠ .beginPoll w t level) (hs : GlobalTask.step x a = some y) :
    AtHome pool q y t := by
  by_cases ht : t = a.task
  swap
  · exact h.of_same (GlobalTask.step_other hs ht)
  have hpending := hun.pending
  cases a
  all_goals simp only [GlobalTask.step, Option.ite_none_right_eq_some, Option.some.injEq] at hs
  all_goals obtain ⟨hg, rfl⟩ := hs
  all_goals simp only [GlobalTask.Act.task] at ht
  all_goals subst ht
  case spawnFuture => simp [hg] at hpending
  case takeDatum w => exact h.update rfl (fun _ => htake w rfl) (by simp) h.queued rfl
  case pushSpawned w =>
    refine h.update rfl (by simp) (by simp) (fun v hv => ?_) rfl
    by_cases hvw : v = w
    · exact hvw ▸ h.spawning w hg
    · exact h.queued v (by simpa [GlobalTask.State.setActivity, GlobalTask.State.pushTo, hvw]
        using hv)
  case steal w =>
    have hw := h.queued w hg.2
    refine h.update rfl (by simp) (fun _ _ => hw) (fun v hv => ?_) rfl
    by_cases hvw : v = w
    · exact hvw ▸ hw
    · exact h.queued v (by simpa [GlobalTask.State.setActivity, hvw] using hv)
  case load w => exact h.update rfl (by simp) (fun _ _ => h.polled w _ hg) h.queued rfl
  case beginPoll w level => exact absurd rfl (hno w level)
  case pollNotReady | pollReady | pollErr | compareExchange =>
    have := hun.ahead _ _ hg
    simp at this
  case fetchAdd =>
    have hlevel := level_ne_zero hinv hpending hun.awake hfew
    rw [GlobalTask.fetchAdd, if_neg hlevel]
    exact ⟨h.spawning, h.queued, h.polled, h.pushing⟩
  case push w => exact absurd hg (h.pushing w)

/-- A task becomes pending by its spawn only. -/
theorem future_of_step (hs : GlobalTask.step x a = some y) (hf : y.future t = .pending) :
    x.future t = .pending ∨ a = .spawnFuture t := by
  by_cases ht : t = a.task
  swap
  · exact .inl ((GlobalTask.step_other hs ht).future ▸ hf)
  cases a
  all_goals simp only [GlobalTask.step, Option.ite_none_right_eq_some, Option.some.injEq] at hs
  all_goals obtain ⟨hg, rfl⟩ := hs
  all_goals simp only [GlobalTask.Act.task] at ht
  all_goals subst ht
  case spawnFuture => exact .inr rfl
  case pollReady | pollErr =>
    simp [GlobalTask.State.resolve, GlobalTask.State.setActivity] at hf
  case compareExchange | fetchAdd =>
    first | unfold GlobalTask.compareExchange at hf | unfold GlobalTask.fetchAdd at hf
    split at hf <;> exact .inl hf
  all_goals exact .inl hf

end CompleteIo.Pools
