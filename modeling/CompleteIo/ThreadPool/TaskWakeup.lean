import CompleteIo.ThreadPool.TaskStep

namespace CompleteIo.GlobalTask

variable {W T : Type*} [DecidableEq T] {s s' : State W T} {t : T}

/-- A poll of the task that has not begun is certain to begin, if the task is not resolved by
the one that runs. -/
inductive OwesPoll (s : State W T) (t : T) : Prop
  | posted (h : t ∈ s.posted)
  | spawning (w : W) (h : s.activity w = .spawning t)
  | queued (w : W) (h : t ∈ s.deque w)
  | pushing (w : W) (h : t ∈ s.pushing w)
  | load (w : W) (h : s.activity w = .doPoll t .load)
  | poll (w : W) (level : ℕ) (h : s.activity w = .doPoll t (.poll level))
  -- The `compare_exchange` that ends this round will fail.
  | exchange (w : W) (level : ℕ) (pc : PollPc) (h : s.activity w = .doPoll t pc)
      (hpc : pc = .polling level ∨ pc = .compareExchange level) (hne : s.signalLevel t ≠ level)

/-- The poll that a notification asked for is owed until it begins. -/
theorem Inv.owesPoll (h : Inv s t) (hf : s.future t = .pending) (howed : s.owed t = true) :
    s.suspended t = false ∧ OwesPoll s t := by
  obtain ⟨count, hl⟩ := h.level (by simp [hf])
  have hcount : count ≠ 0 := fun h0 => by simp [hl.quiet h0] at howed
  have hsus : s.suspended t = false := by simpa [hcount] using hl.zero
  refine ⟨hsus, ?_⟩
  have raised : ∀ c level, 0 < c → level = c % 2 ^ 64 → c < count → s.signalLevel t ≠ level := by
    intro c level hc heq hlt
    have hword := hl.word
    have hbound := hl.bound
    have hfew := h.few
    omega
  obtain ⟨p, hat⟩ := h.pending hf
  have hp := hat.here
  cases p with
  | posted => exact .posted (List.count_pos_iff.mp (by simp only [occupancy] at hp; omega))
  | spawning w => exact .spawning w (by simpa [occupancy] using hp)
  | queued w => exact .queued w (List.count_pos_iff.mp (by simp only [occupancy] at hp; omega))
  | pushing w => exact .pushing w (List.count_pos_iff.mp (by simp only [occupancy] at hp; omega))
  | suspended => simp [occupancy, hsus] at hp
  | doPoll w =>
    cases hw : s.activity w with
    | doPoll u pc =>
      obtain rfl : u = t := by simpa [occupancy, hw, Activity.polls] using hp
      have hcov := hl.covers w pc hw
      cases pc with
      | load => exact .load w hw
      | poll level => exact .poll w level hw
      | polling level =>
        obtain ⟨c, hc, -, heq, hlt⟩ := hcov
        exact .exchange w level _ hw (.inl rfl) (raised c level hc heq (hlt howed))
      | compareExchange level =>
        obtain ⟨c, hc, -, heq, hlt⟩ := hcov
        exact .exchange w level _ hw (.inr rfl) (raised c level hc heq (hlt howed))
    | _ => simp [occupancy, hw, Activity.polls] at hp

variable [DecidableEq W] {a : Act W T}

theorem step_resolved (h : s.future t = .resolved) (hs : step s a = some s') :
    s'.future t = .resolved := by
  by_cases ht : t = a.task
  swap
  · rw [(step_other hs ht).future, h]
  cases a
  all_goals simp only [step, Option.ite_none_right_eq_some, Option.some.injEq] at hs
  all_goals obtain ⟨hg, rfl⟩ := hs
  all_goals simp only [Act.task] at ht
  all_goals subst ht
  case spawnFuture => simp [hg] at h
  case pollReady | pollErr => simp [State.resolve, State.setActivity]
  case compareExchange | fetchAdd =>
    first | unfold compareExchange | unfold fetchAdd
    split <;> exact h
  all_goals exact h

/-- A pending task is at exactly one place, no two workers poll it, it is queued once; and a
resolved one is never queued or polled again. -/
theorem exclusive (h : (machine W T).ReachesUnder FewCalls s) (t : T) :
    (s.future t = .pending → ∃! p, AtOnly (occupancy s t) p) ∧
    (s.suspended t = true → s.signalLevel t = 0) ∧
    (∀ v w pc pc', s.activity v = .doPoll t pc → s.activity w = .doPoll t pc' → v = w) ∧
    (∀ v w, (s.deque v).count t ≤ 1 ∧ (t ∈ s.deque v → t ∈ s.deque w → v = w)) ∧
    (s.future t = .resolved → ∀ as s', (machine W T).Every FewCalls s as →
      (machine W T).exec s as = some s' → ∀ p, occupancy s' t p = 0) := by
  have hinv := reachable_inv h t
  refine ⟨fun hf => ?_, fun hsus => ?_, fun v w pc pc' hv hw => ?_,
    fun v w => ⟨?_, fun hv hw => ?_⟩, fun hf as s' hfew hrun p => ?_⟩
  · obtain ⟨p, hp⟩ := hinv.pending hf
    exact ⟨p, hp, fun q hq => hq.unique hp⟩
  · obtain ⟨hf, -⟩ := hinv.at (p := .suspended) (by simp [occupancy, hsus])
    obtain ⟨count, hl⟩ := hinv.level (by simp [hf])
    rw [hl.word, hl.zero.mp hsus, Nat.zero_mod]
  · obtain ⟨-, hat⟩ := hinv.at (occupancy_doPoll hv)
    simpa using (hat.eq_of_ne_zero (occupancy_doPoll hw)).symm
  · by_cases hv : t ∈ s.deque v
    · exact (hinv.at (occupancy_queued hv)).2.le_one (.queued v)
    · simp [List.count_eq_zero_of_not_mem hv]
  · obtain ⟨-, hat⟩ := hinv.at (occupancy_queued hv)
    simpa using (hat.eq_of_ne_zero (occupancy_queued hw)).symm
  · -- `signal_level` stays above 0 for good, which shows in the invariant as `absent`.
    have hres : s'.future t = .resolved :=
      Machine.exec_invariant (I := fun s => s.future t = .resolved) (q := fun _ _ => True) hf
        (fun _ _ _ hi _ => step_resolved hi) (Machine.every_of_forall fun _ _ _ => trivial) hrun
    exact (reachable_inv (h.exec hfew hrun) t).absent (by simp [hres]) p

def spawnAndPoll : List (Act Bool Unit) :=
  [.spawnFuture (), .takeDatum true (), .pushSpawned true (), .steal true (), .load true (),
    .beginPoll true () 1]

theorem spawnAndPoll_fewCalls : (machine Bool Unit).Every FewCalls initial spawnAndPoll :=
  .cons trivial rfl <| .cons trivial rfl <| .cons trivial rfl <| .cons trivial rfl <|
    .cons trivial rfl <| .cons trivial rfl trivial

/-- A notification during the poll makes the exchange fail; the second poll suspends the task, and
the next notification queues it with another worker. -/
def notifyTwice : List (Act Bool Unit) :=
  [.fetchAdd false (), .pollNotReady true () 1, .compareExchange true () 1, .beginPoll true () 2,
    .pollNotReady true () 2, .compareExchange true () 2, .fetchAdd false (), .push false ()]

theorem notifyTwice_fewCalls :
    (machine Bool Unit).Every FewCalls initial (spawnAndPoll ++ notifyTwice) :=
  .cons trivial rfl <| .cons trivial rfl <| .cons trivial rfl <| .cons trivial rfl <|
    .cons trivial rfl <| .cons trivial rfl <| .cons (show 0 + 1 < 2 ^ 64 by decide) rfl <|
    .cons trivial rfl <| .cons trivial rfl <| .cons trivial rfl <| .cons trivial rfl <|
    .cons trivial rfl <| .cons (show 1 + 1 < 2 ^ 64 by decide) rfl <| .cons trivial rfl trivial

theorem notifyTwice_exclusive : ∃ s : State Bool Unit,
    (machine Bool Unit).exec initial (spawnAndPoll ++ notifyTwice) = some s ∧
      s.deque false = [()] ∧ (∃! p, AtOnly (occupancy s ()) p) ∧ () ∉ s.deque true := by
  have hrun : (machine Bool Unit).exec initial (spawnAndPoll ++ notifyTwice) = some _ := rfl
  obtain ⟨hplace, -, -, hqueued, -⟩ :=
    exclusive (Machine.ReachesUnder.exec (.init rfl) notifyTwice_fewCalls hrun) ()
  refine ⟨_, rfl, rfl, hplace rfl, fun hmem => ?_⟩
  exact absurd ((hqueued false true).2 (List.mem_singleton_self ()) hmem) (by decide)

theorem step_owed (h : s.owed t = true) (hno : ∀ w level, a ≠ .beginPoll w t level)
    (hs : step s a = some s') : s'.owed t = true := by
  by_cases ht : t = a.task
  swap
  · rw [(step_other hs ht).owed, h]
  cases a
  all_goals simp only [step, Option.ite_none_right_eq_some, Option.some.injEq] at hs
  all_goals obtain ⟨hg, rfl⟩ := hs
  all_goals simp only [Act.task] at ht
  all_goals subst ht
  case beginPoll w level => exact absurd rfl (hno w level)
  case compareExchange =>
    unfold compareExchange
    split <;> exact h
  case fetchAdd =>
    unfold fetchAdd
    split <;> simp [State.setSuspended]
  all_goals exact h

/-- No pending task is suspended while a notification came since its latest poll began, and
after any notification a poll either has begun or is owed. -/
theorem no_lost_wakeup (h : (machine W T).ReachesUnder FewCalls s) (t : T) :
    ¬ (s.future t = .pending ∧ s.suspended t = true ∧ s.owed t = true) ∧
    ∀ w as s', (machine W T).Every FewCalls s (.fetchAdd w t :: as) →
      (machine W T).exec s (.fetchAdd w t :: as) = some s' → s'.future t = .pending →
      (∃ v level, .beginPoll v t level ∈ as) ∨ (s'.suspended t = false ∧ OwesPoll s' t) := by
  constructor
  · rintro ⟨hf, hsus, howed⟩
    simp [((reachable_inv h t).owesPoll hf howed).1] at hsus
  · intro w as s' hfew hrun hf
    by_cases hbegan : ∃ v level, .beginPoll v t level ∈ as
    · exact .inl hbegan
    have hinv := reachable_inv (h.exec hfew hrun) t
    obtain ⟨u, hu, hrun⟩ := Option.bind_eq_some_iff.mp hrun
    have howed : u.owed t = true := by
      simp only [machine, step, Option.ite_none_right_eq_some, Option.some.injEq] at hu
      obtain ⟨-, rfl⟩ := hu
      unfold fetchAdd
      split <;> simp [State.setSuspended]
    -- Without a poll that begins the debt stays to the end of the run.
    have howed' : s'.owed t = true := by
      refine Machine.exec_invariant (I := fun s => s.owed t = true)
        (q := fun _ a => ∀ v level, a ≠ .beginPoll v t level) howed
        (fun _ _ _ hi hq hs => step_owed hi hq hs)
        (Machine.every_of_forall fun _ a ha v level he => ?_) hrun
      exact hbegan ⟨v, level, he ▸ ha⟩
    exact .inr (hinv.owesPoll hf howed')

/-- A notification during the poll: the exchange fails and the task is polled at level 2. -/
theorem spawnAndPoll_not_lost : ∃ s s' : State Bool Unit,
    (machine Bool Unit).exec initial spawnAndPoll = some s ∧
      (machine Bool Unit).exec s [.fetchAdd false (), .pollNotReady true () 1,
        .compareExchange true () 1] = some s' ∧
      s'.activity true = .doPoll () (.poll 2) ∧ s'.suspended () = false ∧ OwesPoll s' () := by
  refine ⟨_, _, rfl, rfl, rfl, ?_⟩
  have key := (no_lost_wakeup (Machine.ReachesUnder.exec (.init rfl) spawnAndPoll_fewCalls
    (show (machine Bool Unit).exec initial spawnAndPoll = some _ from rfl)) ()).2 false
    [.pollNotReady true () 1, .compareExchange true () 1] _
    (.cons (show 0 + 1 < 2 ^ 64 by decide) rfl <| .cons trivial rfl <| .cons trivial rfl trivial)
    rfl rfl
  simpa using key

end CompleteIo.GlobalTask
