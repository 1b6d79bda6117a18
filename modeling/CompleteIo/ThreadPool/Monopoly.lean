import CompleteIo.ThreadPool.TaskWakeup

namespace CompleteIo.GlobalTask

variable {W T : Type*} [DecidableEq T] {s s' : State W T} {t u : T} {w : W}

def Polls (w : W) (t : T) (s : State W T) : Prop := ∃ pc, s.activity w = .doPoll t pc

/-- No poll of the task by the worker resolves it, and each is followed by the
`compare_exchange` only when a `notify` has come since that poll began. -/
def KeepsNotified (w : W) (t : T) (s : State W T) : Act W T → Prop
  | .pollReady v u _ | .pollErr v u _ => ¬ (v = w ∧ u = t)
  | .compareExchange v u _ => v = w ∧ u = t → s.owed t = true
  | _ => True

/-- A notification during the poll makes the exchange after it fail. -/
theorem Inv.exchange_fails (h : Inv s t) {level : ℕ}
    (hw : s.activity w = .doPoll t (.compareExchange level)) (howed : s.owed t = true) :
    s.signalLevel t ≠ level := by
  obtain ⟨-, -, count, hl, -, c, hc, -, heq, hlt⟩ := h.at_doPoll hw
  have hword := hl.word
  have hbound := hl.bound
  have hfew := h.few
  have := hlt howed
  omega

variable [DecidableEq W] {a : Act W T}

omit [DecidableEq T] in
theorem Polls.other (hp : Polls w t s) {v : W} {x : Activity T} (hv : v ≠ w) :
    Polls w t (s.setActivity v x) := by
  obtain ⟨pc, hpc⟩ := hp
  exact ⟨pc, by simp [State.setActivity, hv.symm, hpc]⟩

omit [DecidableEq T] in
theorem Polls.self {pc : PollPc} : Polls w t (s.setActivity w (.doPoll t pc)) :=
  ⟨pc, by simp [State.setActivity]⟩

omit [DecidableEq T] [DecidableEq W] in
theorem Polls.ne (hp : Polls w t s) {v : W} (hv : ¬ (s.activity v).On t) : v ≠ w := by
  obtain ⟨pc, hpc⟩ := hp
  rintro rfl
  simp [hpc] at hv

theorem step_polls (h : ∀ t, Inv s t) (hp : Polls w t s) (hok : KeepsNotified w t s a)
    (hs : step s a = some s') : Polls w t s' := by
  obtain ⟨pc, hpc⟩ := id hp
  cases a
  all_goals simp only [step, Option.ite_none_right_eq_some, Option.some.injEq] at hs
  all_goals obtain ⟨hg, rfl⟩ := hs
  case spawnFuture | push => exact ⟨pc, hpc⟩
  case fetchAdd v u =>
    unfold fetchAdd
    split <;> exact ⟨pc, hpc⟩
  case takeDatum v u | steal v u => exact .other ⟨pc, hpc⟩ (hp.ne (by simp [hg.1]))
  case pushSpawned v u =>
    refine .other ⟨pc, hpc⟩ fun he => ?_
    simp [← he, hg] at hpc
  case load v u | beginPoll v u level | pollNotReady v u level =>
    by_cases hv : v = w
    · subst hv
      obtain ⟨rfl, -⟩ : t = u ∧ _ := by simpa [hpc] using hg
      exact .self
    · exact .other ⟨pc, hpc⟩ hv
  case pollReady v u level | pollErr v u level =>
    refine .other ⟨pc, hpc⟩ fun he => ?_
    subst he
    obtain ⟨rfl, -⟩ : t = u ∧ _ := by simpa [hpc] using hg
    exact hok ⟨rfl, rfl⟩
  case compareExchange v u level =>
    unfold compareExchange
    by_cases hv : v = w
    · subst hv
      obtain ⟨rfl, -⟩ : t = u ∧ _ := by simpa [hpc] using hg
      rw [if_neg ((h t).exchange_fails hg (hok ⟨rfl, rfl⟩))]
      exact .self
    · split <;> exact .other ⟨pc, hpc⟩ hv

/-- Only the worker itself takes a task from its deque. -/
theorem step_queued (hq : u ∈ s.deque w) (hbusy : s.activity w ≠ .idle)
    (hs : step s a = some s') : u ∈ s'.deque w := by
  cases a
  all_goals simp only [step, Option.ite_none_right_eq_some, Option.some.injEq] at hs
  all_goals obtain ⟨hg, rfl⟩ := hs
  case steal v x =>
    have hv : w ≠ v := fun he => hbusy (he ▸ hg.1)
    simpa [State.setActivity, hv] using hq
  case pushSpawned v x | push v x =>
    by_cases hv : w = v
    · subst hv
      simpa [State.setActivity, State.pushTo] using .inl hq
    · simpa [State.setActivity, State.pushTo, hv] using hq
  case compareExchange | fetchAdd =>
    first | unfold compareExchange | unfold fetchAdd
    split <;> exact hq
  all_goals exact hq

/-- What the worker that polls the task and the tasks in its deque do meanwhile. -/
theorem step_starves (hr : (machine W T).ReachesUnder FewCalls s) (hp : Polls w t s)
    (hs : step s a = some s') :
    (∀ u, a ≠ .takeDatum w u) ∧ ∀ u ∈ s.deque w, u ∈ s'.deque w ∧
      ∀ v level, a ≠ .beginPoll v u level := by
  obtain ⟨pc, hpc⟩ := hp
  refine ⟨?_, fun u hq => ⟨step_queued hq (by simp [hpc]) hs, ?_⟩⟩
  · rintro u rfl
    simp only [step, Option.ite_none_right_eq_some] at hs
    simp [hpc] at hs
  · rintro v level rfl
    simp only [step, Option.ite_none_right_eq_some] at hs
    -- The task would be in the deque and with the worker that polls it.
    have hat := ((reachable_inv hr u).at (occupancy_queued hq)).2
    simpa using hat.eq_of_ne_zero (occupancy_doPoll hs.1)

/-- As long as a task is notified in each of its polls, its worker polls it and nothing else:
the worker takes no spawned task over, and what is queued behind it is polled by nobody. -/
theorem self_notifier_starves {as : List (Act W T)}
    (h : (machine W T).ReachesUnder FewCalls s) (hp : Polls w t s)
    (hfew : (machine W T).Every FewCalls s as)
    (hkeeps : (machine W T).Every (KeepsNotified w t) s as)
    (hrun : (machine W T).exec s as = some s') :
    Polls w t s' ∧ (∀ u, .takeDatum w u ∉ as) ∧
      ∀ u ∈ s.deque w, u ∈ s'.deque w ∧ ∀ v level, .beginPoll v u level ∉ as := by
  have hevery := hfew.and hkeeps
  have hpolls : ∀ s a s', ((machine W T).ReachesUnder FewCalls s ∧ Polls w t s) →
      (FewCalls s a ∧ KeepsNotified w t s a) → step s a = some s' →
      (machine W T).ReachesUnder FewCalls s' ∧ Polls w t s' :=
    fun s a s' ⟨hr, hp⟩ ⟨hf, hk⟩ hs => ⟨.step hr hf hs, step_polls (reachable_inv hr) hp hk hs⟩
  refine ⟨(Machine.exec_invariant (I := fun s => (machine W T).ReachesUnder FewCalls s ∧
    Polls w t s) ⟨h, hp⟩ hpolls hevery hrun).2, fun u hmem => ?_,
    fun u hq => ?_⟩
  · exact Machine.exec_forall (P := fun a => a ≠ .takeDatum w u) ⟨h, hp⟩
      (fun s a s' hi hok hs => ⟨hpolls s a s' hi hok hs, (step_starves hi.1 hi.2 hs).1 u⟩)
      hevery hrun _ hmem rfl
  · have hqueued : ∀ s a s', (((machine W T).ReachesUnder FewCalls s ∧ Polls w t s) ∧
        u ∈ s.deque w) → (FewCalls s a ∧ KeepsNotified w t s a) → step s a = some s' →
        (((machine W T).ReachesUnder FewCalls s' ∧ Polls w t s') ∧ u ∈ s'.deque w) ∧
          ∀ v level, a ≠ .beginPoll v u level := fun s a s' ⟨hi, hq⟩ hok hs => by
      obtain ⟨hq', hno⟩ := (step_starves hi.1 hi.2 hs).2 u hq
      exact ⟨⟨hpolls s a s' hi hok hs, hq'⟩, hno⟩
    refine ⟨(Machine.exec_invariant (I := fun s => ((machine W T).ReachesUnder FewCalls s ∧
      Polls w t s) ∧ u ∈ s.deque w) ⟨⟨h, hp⟩, hq⟩
      (fun s a s' hi hok hs => (hqueued s a s' hi hok hs).1) hevery hrun).2,
      fun v level hmem => ?_⟩
    exact Machine.exec_forall (P := fun a => ∀ v level, a ≠ .beginPoll v u level) ⟨⟨h, hp⟩, hq⟩
      hqueued hevery hrun _ hmem v level rfl

def pollFirst : List (Act Bool Bool) :=
  [.spawnFuture true, .takeDatum true true, .pushSpawned true true, .spawnFuture false,
    .takeDatum true false, .pushSpawned true false, .steal true true, .load true true,
    .beginPoll true true 1]

theorem pollFirst_fewCalls : (machine Bool Bool).Every FewCalls initial pollFirst :=
  .cons trivial rfl <| .cons trivial rfl <| .cons trivial rfl <| .cons trivial rfl <|
    .cons trivial rfl <| .cons trivial rfl <| .cons trivial rfl <| .cons trivial rfl <|
    .cons trivial rfl trivial

/-- It notifies itself in this poll and begins the next. -/
def notifySelf : List (Act Bool Bool) :=
  [.fetchAdd true true, .pollNotReady true true 1, .compareExchange true true 1,
    .beginPoll true true 2]

theorem notifySelf_starves : ∃ s s' : State Bool Bool,
    (machine Bool Bool).exec initial pollFirst = some s ∧
      (machine Bool Bool).exec s notifySelf = some s' ∧
      Polls true true s' ∧ false ∈ s'.deque true := by
  refine ⟨_, _, rfl, rfl, ?_⟩
  obtain ⟨hp, -, hq⟩ := self_notifier_starves (w := true) (t := true)
    (Machine.ReachesUnder.exec (.init rfl) pollFirst_fewCalls
      (show (machine Bool Bool).exec initial pollFirst = some _ from rfl)) ⟨_, rfl⟩
    (show (machine Bool Bool).Every FewCalls _ notifySelf from
      .cons (show 0 + 1 < 2 ^ 64 by decide) rfl <| .cons trivial rfl <| .cons trivial rfl <|
        .cons trivial rfl trivial)
    (.cons trivial rfl <| .cons trivial rfl <| .cons (fun _ => rfl) rfl <|
      .cons trivial rfl trivial) rfl
  exact ⟨hp, (hq false (by decide)).1⟩

end CompleteIo.GlobalTask
