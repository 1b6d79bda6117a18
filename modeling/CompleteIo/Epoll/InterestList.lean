import CompleteIo.Epoll.InterestsCovered

namespace CompleteIo.FuturesRegistration

variable {ι T : Type*} {s t : State ι T} {x y : ι}

def State.ids (s : State ι T) : List ι := s.interests.map Prod.snd

@[simp] def Lock.firing : Lock ι → Option ι
  | .handling _ _ _ (.notify x) | .handling _ _ _ (.remove x) => some x
  | _ => none

/-- The interests in the list are those that have not fired, and the one that is firing. -/
structure ListInv (s : State ι T) : Prop where
  nodup : s.ids.Nodup
  allocated : ∀ x ∈ s.ids, s.cell x ≠ none
  unfired : ∀ x, s.cell x ≠ none → s.fired x = false → x ∈ s.ids
  listed : ∀ x ∈ s.ids, s.fired x = true → s.lock.firing = some x
  firing : ∀ x, s.lock.firing = some x → s.fired x = true

section Cells

variable [DecidableEq ι] {f : FutureInterest T → FutureInterest T}

@[simp] theorem updateCell_eq_none : (s.updateCell x f).cell y = none ↔ s.cell y = none := by
  by_cases hy : y = x
  · subst hy
    simp [State.updateCell]
  · simp [State.updateCell, hy]

theorem fired_updateCell (hf : ∀ c, (f c).fired = c.fired) :
    (s.updateCell x f).fired y = s.fired y := by
  by_cases hy : y = x
  · subst hy
    simp only [State.fired, State.updateCell, Function.update_self, Option.map_map]
    congr 2
    funext c
    exact hf c
  · simp [State.fired, State.updateCell, hy]

theorem fired_updateCell_of_ne (hy : y ≠ x) : (s.updateCell x f).fired y = s.fired y := by
  simp [State.fired, State.updateCell, hy]

theorem task_updateCell_of_ne (hy : y ≠ x) : (s.updateCell x f).task y = s.task y := by
  simp [State.task, State.updateCell, hy]

theorem task_updateCell (hf : ∀ c, (f c).task = c.task) : (s.updateCell x f).task y = s.task y := by
  by_cases hy : y = x
  · subst hy
    simp only [State.task, State.updateCell, Function.update_self, Option.bind_map]
    congr 1
    funext c
    exact hf c
  · exact task_updateCell_of_ne hy

end Cells

theorem ListInv.of_same (h : ListInv s) (hi : t.interests = s.interests)
    (hc : ∀ x, t.cell x = none ↔ s.cell x = none) (hf : ∀ x, t.fired x = s.fired x)
    (hl : t.lock.firing = s.lock.firing) : ListInv t := by
  have hids : t.ids = s.ids := congrArg (List.map Prod.snd) hi
  constructor
  · rw [hids]
    exact h.nodup
  · simpa only [hids, ne_eq, hc] using h.allocated
  · simpa only [hids, ne_eq, hc, hf] using h.unfired
  · simpa only [hids, hf, hl] using h.listed
  · simpa only [hf, hl] using h.firing

theorem ListInv.of_cells (h : ListInv s) (hi : t.interests = s.interests) (hc : t.cell = s.cell)
    (hl : t.lock.firing = s.lock.firing) : ListInv t :=
  h.of_same hi (fun x => by rw [hc]) (fun x => by rw [State.fired, State.fired, hc]) hl

theorem initial_listInv : ListInv (initial : State ι T) := by
  constructor <;> simp [initial, State.ids, State.fired]

section Unchanged

variable {events old : EventMask} {i : ℕ} {remaining : Option EventMask} {ok : Bool}

@[simp] theorem addEnd_cell : (addEnd s events old ok).cell = s.cell := by
  unfold addEnd
  repeat' split
  all_goals rfl

@[simp] theorem test_interests : (test s events i remaining).interests = s.interests := by
  unfold test
  repeat' split
  all_goals rfl

@[simp] theorem test_cell : (test s events i remaining).cell = s.cell := by
  unfold test
  repeat' split
  all_goals rfl

theorem test_firing : (test s events i remaining).lock.firing = none := by
  unfold test
  repeat' split
  all_goals rfl

@[simp] theorem rearm_interests : (rearm s remaining ok).interests = s.interests := by
  unfold rearm
  repeat' split
  all_goals rfl

@[simp] theorem rearm_cell : (rearm s remaining ok).cell = s.cell := by
  unfold rearm
  repeat' split
  all_goals rfl

theorem rearm_firing : (rearm s remaining ok).lock.firing = none := by
  unfold rearm
  repeat' split
  all_goals rfl

theorem test_notifying : (test s events i remaining).lock.notifying = none := by
  unfold test
  repeat' split
  all_goals rfl

theorem rearm_notifying : (rearm s remaining ok).lock.notifying = none := by
  unfold rearm
  repeat' split
  all_goals rfl

end Unchanged

theorem listInv_remove (h : ListInv s) {events : EventMask} {i : ℕ}
    {remaining : Option EventMask} (hlock : s.lock = .handling events i remaining (.remove x))
    {mask : EventMask} (hx : s.interests[i]? = some (mask, x)) :
    ListInv ({ s with interests := swapRemove s.interests i }.setPc events i remaining .test) := by
  have hperm : (x :: (swapRemove s.interests i).map Prod.snd).Perm s.ids :=
    (swapRemove_perm hx).map Prod.snd
  have hnodup := hperm.nodup_iff.mpr h.nodup
  have hfired := h.firing x (by rw [hlock]; rfl)
  refine ⟨hnodup.of_cons, fun y hy => ?_, fun y hy hf => ?_, fun y hy hf => ?_, by simp⟩
  · exact h.allocated y (hperm.subset (List.mem_cons_of_mem _ hy))
  · have hyx : y ≠ x := fun hyx => by
      rw [hyx] at hf
      exact absurd (hf.symm.trans hfired) (by simp)
    exact (List.mem_cons.mp (hperm.symm.subset (h.unfired y hy hf))).resolve_left hyx
  · have hfiring := h.listed y (hperm.subset (List.mem_cons_of_mem _ hy)) hf
    simp only [hlock, Lock.firing, Option.some.injEq] at hfiring
    exact absurd (hfiring ▸ hy) (List.nodup_cons.mp hnodup).1

variable [DecidableEq ι] {a : Act ι T}

theorem fired_addBegin {events : EventMask} {task : T} (hy : y ≠ x) :
    (addBegin s x events task).fired y = s.fired y := by
  simp [addBegin, State.fired, hy]

theorem listInv_addBegin (h : ListInv s) {events : EventMask} {task : T} (hlock : s.lock = .free)
    (hx : s.cell x = none) : ListInv (addBegin s x events task) := by
  have hids : (addBegin s x events task).ids = s.ids ++ [x] := by simp [State.ids, addBegin]
  have hnew : x ∉ s.ids := fun hmem => h.allocated x hmem hx
  have hcell : ∀ y, y ≠ x → (addBegin s x events task).cell y = s.cell y := fun y hy => by
    simp [addBegin, hy]
  have hself : (addBegin s x events task).fired x = false := by simp [addBegin, State.fired]
  refine ⟨?_, fun y hy => ?_, fun y hy hf => ?_, fun y hy hf => ?_, by simp [addBegin]⟩
  · rw [hids]
    exact List.nodup_append.mpr ⟨h.nodup, List.nodup_singleton x, fun a ha b hb =>
      fun hab => hnew (List.mem_singleton.mp hb ▸ hab ▸ ha)⟩
  · by_cases hyx : y = x
    · simp [hyx, addBegin]
    · rw [hcell y hyx]
      exact h.allocated y (by simpa [hids, hyx] using hy)
  · by_cases hyx : y = x
    · simp [hids, hyx]
    · rw [hcell y hyx] at hy
      rw [fired_addBegin hyx] at hf
      rw [hids]
      exact List.mem_append_left _ (h.unfired y hy hf)
  · by_cases hyx : y = x
    · simp [hyx, hself] at hf
    · rw [fired_addBegin hyx] at hf
      have := h.listed y (by simpa [hids, hyx] using hy) hf
      simp [hlock] at this

theorem listInv_storeFired (h : ListInv s) {events : EventMask} {i : ℕ}
    {remaining : Option EventMask} (hlock : s.lock = .handling events i remaining (.storeFired x))
    (hx : x ∈ s.ids) :
    ListInv ((s.updateCell x fun c => { c with fired := true }).setPc events i remaining
      (.notify x)) := by
  have hself : (s.updateCell x fun c => { c with fired := true }).fired x = true := by
    obtain ⟨c, hc⟩ := Option.ne_none_iff_exists'.mp (h.allocated x hx)
    simp [State.fired, State.updateCell, hc]
  refine ⟨h.nodup, fun y hy => ?_, fun y hy hf => ?_, fun y hy hf => ?_, fun y hy => ?_⟩
  · exact updateCell_eq_none.not.mpr (h.allocated y hy)
  · by_cases hyx : y = x
    · exact hyx ▸ hx
    · refine h.unfired y (updateCell_eq_none.not.mp hy) ?_
      rw [← fired_updateCell_of_ne hyx]
      exact hf
  · by_cases hyx : y = x
    · rw [hyx]
      rfl
    · have hf' : s.fired y = true := by
        rw [← fired_updateCell_of_ne hyx]
        exact hf
      simpa [hlock] using h.listed y hy hf'
  · obtain rfl : x = y := Option.some.inj hy
    exact hself

theorem step_listInv (h : Inv s) (hlist : ListInv s) (hs : step s a = some t) : ListInv t := by
  cases step_cases hs with
  | deliver => exact hlist.of_cells rfl rfl rfl
  | addBegin hlock hcell => exact listInv_addBegin hlist hlock hcell
  | addEnd hlock => exact hlist.of_cells addEnd_interests addEnd_cell (by simp [hlock])
  | register =>
    exact hlist.of_same rfl (fun _ => updateCell_eq_none) (fun _ => fired_updateCell fun _ => rfl)
      rfl
  | handleBegin hlock => exact hlist.of_cells rfl rfl (by rw [hlock]; rfl)
  | test hlock => exact hlist.of_cells test_interests test_cell (by rw [hlock]; exact test_firing)
  | storeFired hlock =>
    obtain ⟨mask, hx⟩ := (h.handling _ _ _ _ hlock).entry _ rfl
    exact listInv_storeFired hlist hlock (List.mem_map.mpr ⟨_, List.mem_of_getElem? hx, rfl⟩)
  | notify hlock =>
    refine hlist.of_same rfl (fun y => ?_) (fun y => ?_) (by rw [hlock]; rfl)
    · exact updateCell_eq_none
    · exact fired_updateCell fun _ => rfl
  | remove hlock =>
    obtain ⟨mask, hx⟩ := (h.handling _ _ _ _ hlock).entry _ rfl
    exact listInv_remove hlist hlock hx
  | rearm hlock =>
    exact hlist.of_cells rearm_interests rearm_cell (by rw [hlock]; exact rearm_firing)

/-- A fired interest whose notification is over: nothing will ever come of it. -/
def State.Dead (s : State ι T) (x : ι) : Prop :=
  s.fired x = true ∧ s.lock.notifying ≠ some x

theorem cell_step (hs : step s a = some t) (hy : s.cell y ≠ none) : t.cell y ≠ none := by
  cases step_cases hs with
  | @addBegin x =>
    by_cases hyx : y = x <;> simp [addBegin, hyx, hy]
  | register | storeFired | notify => exact updateCell_eq_none.not.mpr hy
  | addEnd => rwa [addEnd_cell]
  | test => rwa [test_cell]
  | rearm => rwa [rearm_cell]
  | deliver | handleBegin | remove => exact hy

/-- While an `add_interest` holds the lock a turn can only deliver. -/
theorem step_ofTurn (hturn : a.OfTurn) (hs : step s a = some t) (hl : s.lock.newcomer = some x) :
    t.lock = s.lock ∧ t.cell = s.cell := by
  cases step_cases hs with
  | deliver => exact ⟨rfl, rfl⟩
  | addBegin | addEnd | register => exact hturn.elim
  | handleBegin hlock | test hlock | storeFired hlock | notify hlock | remove hlock
  | rearm hlock => simp [hlock] at hl

/-- The task of an interest changes when it is registered anew and when it is notified. -/
theorem task_step (hs : step s a = some t) (hy : s.cell y ≠ none)
    (hregister : ∀ task, a ≠ .register y task)
    (hnotify : a = .notify → s.lock.notifying ≠ some y) : t.task y = s.task y := by
  cases step_cases hs with
  | @addBegin x _ _ _ hcell =>
    have hyx : y ≠ x := fun hyx => hy (hyx ▸ hcell)
    simp [addBegin, State.task, hyx]
  | @register x task => exact task_updateCell_of_ne fun hyx => hregister task (by rw [hyx])
  | @storeFired _ _ _ x => exact task_updateCell fun _ => rfl
  | notify hlock =>
    refine task_updateCell_of_ne fun hyx => hnotify rfl ?_
    rw [hlock, hyx]
    rfl
  | addEnd => rw [State.task, addEnd_cell, State.task]
  | test => rw [State.task, test_cell, State.task]
  | rearm => rw [State.task, rearm_cell, State.task]
  | deliver | handleBegin | remove => rfl

omit [DecidableEq ι] in
theorem dead_congr (hf : t.fired y = s.fired y) (hl : t.lock.notifying = s.lock.notifying) :
    t.Dead y ↔ s.Dead y := by
  rw [State.Dead, State.Dead, hf, hl]

/-- An interest dies when it is notified, and then for good. -/
theorem dead_step (h : Inv s) (hlist : ListInv s) (hs : step s a = some t)
    (hy : s.cell y ≠ none) (hnotify : a = .notify → s.lock.notifying ≠ some y) :
    t.Dead y ↔ s.Dead y := by
  cases step_cases hs with
  | deliver => exact dead_congr rfl rfl
  | @addBegin x _ _ hlock hcell =>
    have hyx : y ≠ x := fun hyx => hy (hyx ▸ hcell)
    exact dead_congr (fired_addBegin hyx) (by rw [hlock]; rfl)
  | addEnd hlock =>
    refine dead_congr (by rw [State.fired, addEnd_cell, State.fired]) ?_
    rw [hlock, addEnd_lock]
    rfl
  | register => exact dead_congr (fired_updateCell fun _ => rfl) rfl
  | handleBegin hlock => exact dead_congr rfl (by rw [hlock]; rfl)
  | test hlock =>
    refine dead_congr (by rw [State.fired, test_cell, State.fired]) ?_
    rw [hlock, test_notifying]
    rfl
  | @storeFired events i remaining x hlock =>
    by_cases hyx : y = x
    · -- It was not fired before, and its notification is next.
      obtain ⟨mask, hx⟩ := (h.handling _ _ _ _ hlock).entry x rfl
      have hids : x ∈ s.ids := List.mem_map.mpr ⟨_, List.mem_of_getElem? hx, rfl⟩
      refine ⟨fun hd => absurd (by rw [hyx]; rfl) hd.2, fun hd => ?_⟩
      have := hlist.listed x hids (hyx ▸ hd.1)
      simp [hlock] at this
    · simp only [State.Dead]
      have hf : (s.updateCell x fun c => { c with fired := true }).fired y = s.fired y :=
        fired_updateCell_of_ne hyx
      exact and_congr (by rw [← hf]; rfl) (by simp [hlock, State.setPc, Ne.symm hyx])
  | @notify _ _ _ x hlock =>
    have hyx : x ≠ y := by
      have := hnotify rfl
      simpa [hlock] using this
    simp only [State.Dead]
    have hf : (s.updateCell x fun c => { c with task := none }).fired y = s.fired y :=
      fired_updateCell fun _ => rfl
    exact and_congr (by rw [← hf]; rfl) (by simp [hlock, State.setPc, hyx])
  | remove hlock => exact dead_congr rfl (by rw [hlock]; rfl)
  | rearm hlock =>
    refine dead_congr (by rw [State.fired, rearm_cell, State.fired]) ?_
    rw [hlock, rearm_notifying]
    rfl

theorem dead_notify (hlist : ListInv s) (hs : step s .notify = some t)
    (hy : s.lock.notifying = some y) : t.Dead y := by
  cases step_cases hs with
  | @notify events i remaining x hlock =>
    obtain rfl : x = y := by simpa [hlock] using hy
    refine ⟨?_, by simp⟩
    have hf : (s.updateCell x fun c => { c with task := none }).fired x = s.fired x :=
      fired_updateCell fun _ => rfl
    exact hf.trans (hlist.firing x (by rw [hlock]; rfl))

end CompleteIo.FuturesRegistration
