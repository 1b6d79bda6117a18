import CompleteIo.ThreadPool.HomePool

namespace CompleteIo.Pools

open GlobalTask (Same Unpolled occupancy Level)

variable {Q W T : Type*} [DecidableEq T] {x y : GlobalTask.State W T} {t u : T}

/-- A pending task that nobody has and nobody will push. -/
structure Orphan (x : GlobalTask.State W T) (t : T) : Prop where
  pending : x.future t = .pending
  absent : ∀ p, occupancy x t p = 0
  level : ∃ count, 0 < count ∧ x.signalLevel t = count % 2 ^ 64 ∧ count ≤ x.calls t + 1

theorem Orphan.of_same (h : Orphan x t) (hsame : Same t x y) : Orphan y t where
  pending := hsame.future.trans h.pending
  absent := hsame.occupancy ▸ h.absent
  level := by
    obtain ⟨count, hpos, hword, hbound⟩ := h.level
    exact ⟨count, hpos, hsame.signalLevel.trans hword, hsame.calls ▸ hbound⟩

theorem Orphan.level_ne_zero (h : Orphan x t) (hfew : x.calls t + 1 < 2 ^ 64) :
    x.signalLevel t ≠ 0 := by
  obtain ⟨count, hpos, hword, hbound⟩ := h.level
  omega

theorem raise_same (ht : t ≠ u) : Same t x (raise x u) := by
  constructor <;> simp [raise, GlobalTask.State.setLevel, ht]

theorem orphan_raise (h : Orphan x t) (hfew : x.calls t + 1 < 2 ^ 64) : Orphan (raise x t) t := by
  refine ⟨h.pending, h.absent, ?_⟩
  obtain ⟨count, hpos, hword, hbound⟩ := h.level
  refine ⟨count + 1, Nat.succ_pos _, ?_, by simpa [raise] using hbound⟩
  have : x.signalLevel t = count := by omega
  simp [raise, GlobalTask.State.setLevel, this]

/-- A notification that finds the task awake makes no difference by where it comes from. -/
theorem inv_raise (h : GlobalTask.Inv x t) (hfew : x.calls t + 1 < 2 ^ 64)
    (hf : x.future t ≠ .unspawned) (hlevel : x.signalLevel t ≠ 0) :
    GlobalTask.Inv (raise x t) t := by
  obtain ⟨count, hl⟩ := h.level hf
  have hword : x.signalLevel t = count := by
    have hbound := hl.bound
    rw [hl.word, Nat.mod_eq_of_lt (by omega)]
  have hcount : count ≠ 0 := hword ▸ hlevel
  refine ⟨h.pending, h.absent, fun _ => ⟨count + 1, ?_, ?_, ?_, by simp, fun v pc hv => ?_⟩,
    by simpa [raise] using hfew⟩
  · simp [raise, GlobalTask.State.setLevel, hword]
  · simpa [raise] using hl.bound
  · simpa [raise, GlobalTask.State.setLevel] using hcount ∘ hl.zero.mp
  · simpa [raise] using (hl.covers v pc hv).raise

/-- One that finds it suspended takes it over and is lost. -/
theorem orphan_of_suspended (h : GlobalTask.Inv x t) (hfew : x.calls t + 1 < 2 ^ 64)
    (hf : x.future t ≠ .unspawned) (hlevel : x.signalLevel t = 0) :
    Orphan ((raise x t).setSuspended t false) t := by
  obtain ⟨count, hl⟩ := h.level hf
  have hbound := hl.bound
  have hcount : count = 0 := by
    have := hl.word
    omega
  have hsus : occupancy x t .suspended ≠ 0 := by simp [occupancy, hl.zero.mpr hcount]
  obtain ⟨hpending, hat⟩ := h.at hsus
  refine ⟨hpending, hat.vanish ?_ fun p hp => ?_, 1, Nat.one_pos, ?_,
    by simp [raise, GlobalTask.State.setSuspended]⟩
  · simp [occupancy, GlobalTask.State.setSuspended]
  · cases p with
    | suspended => exact absurd rfl hp
    | _ => rfl
  · simp [raise, GlobalTask.State.setSuspended, GlobalTask.State.setLevel, hlevel]

theorem orphan_of_posted (h : GlobalTask.Inv x t) (ht : t ∈ x.posted) :
    Orphan { x with posted := x.posted.erase t } t := by
  have hposted : occupancy x t .posted ≠ 0 := Nat.ne_of_gt (List.count_pos_iff.mpr ht)
  obtain ⟨hpending, hat⟩ := h.at hposted
  obtain ⟨count, hl⟩ := h.level (by simp [hpending])
  have hsus := hat.elsewhere .suspended (by simp)
  have hcount : count ≠ 0 := fun h0 => by simp [occupancy, hl.zero.mpr h0] at hsus
  refine ⟨hpending, hat.vanish ?_ fun p hp => ?_, count, Nat.pos_of_ne_zero hcount, hl.word,
    hl.bound⟩
  · have hhere := hat.here
    simp only [occupancy] at hhere ⊢
    rw [List.count_erase_self, hhere]
  · cases p with
    | posted => exact absurd rfl hp
    | _ => rfl

variable [DecidableEq W] {a : GlobalTask.Act W T}

/-- No step of the tasks brings a lost one back. -/
theorem step_orphan (h : Orphan x t) (hfew : GlobalTask.FewCalls x a)
    (hs : GlobalTask.step x a = some y) : Orphan y t := by
  by_cases ht : t = a.task
  swap
  · exact h.of_same (GlobalTask.step_other hs ht)
  have hpending := h.pending
  cases a
  all_goals simp only [GlobalTask.step, Option.ite_none_right_eq_some, Option.some.injEq] at hs
  all_goals obtain ⟨hg, rfl⟩ := hs
  all_goals simp only [GlobalTask.Act.task] at ht
  all_goals subst ht
  case spawnFuture => simp [hg] at hpending
  case takeDatum => exact absurd (h.absent .posted) (Nat.ne_of_gt (List.count_pos_iff.mpr hg.2))
  case pushSpawned w => exact absurd (h.absent (.spawning w)) (GlobalTask.occupancy_spawning hg)
  case steal w => exact absurd (h.absent (.queued w)) (GlobalTask.occupancy_queued hg.2)
  case fetchAdd w =>
    rw [GlobalTask.fetchAdd, if_neg (h.level_ne_zero hfew)]
    exact orphan_raise h hfew
  case push w =>
    exact absurd (h.absent (.pushing w)) (Nat.ne_of_gt (List.count_pos_iff.mpr hg))
  all_goals exact absurd (h.absent (.doPoll _)) (GlobalTask.occupancy_doPoll hg)

end CompleteIo.Pools
