import CompleteIo.Epoll.EpollEntries

namespace CompleteIo.EpollSet

variable {R Θ : Type*} {s t : State R Θ}

/-- No event that waits for its dispatch has a pointer that was released. -/
def BuffersAllocated (s : State R Θ) : Prop := ∀ θ, ∀ r ∈ s.buffer θ, s.phase r ≠ .released

/-- When a registration releases its pointer, every poll is done with the events of it that it
had copied. -/
def ReleaseUnbuffered (s : State R Θ) : Act R Θ → Prop
  | .dropWeak r => ∀ θ, r ∉ s.buffer θ
  | _ => True

theorem BuffersAllocated.of_subset (h : BuffersAllocated s)
    (hbuffer : ∀ θ, t.buffer θ ⊆ s.buffer θ)
    (hphase : ∀ r, t.phase r = .released → s.phase r = .released) : BuffersAllocated t :=
  fun θ r hr hreleased => h θ r (hbuffer θ hr) (hphase r hreleased)

variable [DecidableEq R] [DecidableEq Θ] {kind : R → Kind} {a : Act R Θ}

theorem dropStrong_released {r r' : R} {holder : Option Θ}
    (h : (s.dropStrong r holder).phase r' = .released) : s.phase r' = .released := by
  unfold State.dropStrong at h
  split at h
  · by_cases hr : r' = r
    · simp [hr] at h
    · simpa [hr] using h
  · exact h

omit [DecidableEq Θ] in
theorem ctlDel_released {r r' : R} (h : (ctlDel s r).phase r' = .released) :
    s.phase r' = .released := by
  unfold ctlDel at h
  split at h <;>
    by_cases hr : r' = r
  all_goals simp_all

omit [DecidableEq Θ] in
theorem buffersAllocated_dropWeak_iff (h : BuffersAllocated s) {r : R} :
    BuffersAllocated (dropWeak s r) ↔ ∀ θ, r ∉ s.buffer θ := by
  constructor
  · exact fun hafter θ hmem => hafter θ r hmem (by simp [dropWeak])
  · intro hunbuffered θ r' hmem hreleased
    have hr : r' ≠ r := fun hr => hunbuffered θ (hr ▸ hmem)
    exact h θ r' hmem (by simpa [dropWeak, hr] using hreleased)

omit [DecidableEq R] [DecidableEq Θ] in
/-- What `epoll_wait` copies is in the set, and so it is not about to be released. -/
theorem copied_not_gone (hinv : Inv s) {batch : List ℕ} {r : R}
    (hr : r ∈ batch.filterMap fun fd => (s.entry fd).map Entry.data) : ¬ (s.phase r).Gone := by
  simp only [List.mem_filterMap, Option.map_eq_some_iff] at hr
  obtain ⟨fd, -, e, he, rfl⟩ := hr
  exact (hinv.entry fd e he).data.2.2

omit [DecidableEq R] in
theorem buffersAllocated_wait (hinv : Inv s) (h : BuffersAllocated s) {θ : Θ} {batch : List ℕ} :
    BuffersAllocated { s with
      buffer := Function.update s.buffer θ
        (batch.filterMap fun fd => (s.entry fd).map Entry.data) } := by
  intro θ' r hr hreleased
  by_cases hθ : θ' = θ
  · simp only [hθ, Function.update_self] at hr
    exact copied_not_gone hinv hr (.inr hreleased)
  · simp only [Function.update_of_ne hθ] at hr
    exact h θ' r hr hreleased

theorem dispatch_buffer {θ θ' : Θ} {r : R} {rest : List R} (hbuffer : s.buffer θ = r :: rest) :
    (dispatch s θ r rest).buffer θ' ⊆ s.buffer θ' := by
  have hsub : Function.update s.buffer θ rest θ' ⊆ s.buffer θ' := by
    by_cases hθ : θ' = θ
    · rw [hθ, Function.update_self, hbuffer]
      exact List.subset_cons_self r rest
    · rw [Function.update_of_ne hθ]
      exact List.Subset.refl _
  unfold EpollSet.dispatch
  split <;> exact hsub

theorem dispatch_phase {θ : Θ} {r : R} {rest : List R} :
    (dispatch s θ r rest).phase = s.phase := by
  unfold EpollSet.dispatch
  split <;> rfl

theorem step_buffersAllocated_iff (hinv : Inv s) (h : BuffersAllocated s)
    (hs : step kind s a = some t) : BuffersAllocated t ↔ ReleaseUnbuffered s a := by
  cases step_cases hs with
  | dropWeak => exact buffersAllocated_dropWeak_iff h
  | @ctlDel r =>
    refine iff_of_true (h.of_subset (fun _ => ?_) fun _ => ctlDel_released) trivial
    unfold EpollSet.ctlDel
    split <;> exact List.Subset.refl _
  | wait => exact iff_of_true (buffersAllocated_wait hinv h) trivial
  | openFd | closeFd | registerFailed | clone => exact iff_of_true h trivial
  | @register r =>
    refine iff_of_true (h.of_subset (fun _ => List.Subset.refl _) fun r' hr' => ?_) trivial
    by_cases hr : r' = r
    · simp [State.add, hr] at hr'
    · simpa [State.add, hr] using hr'
  | modify =>
    refine iff_of_true ?_ trivial
    unfold EpollSet.modify
    split <;> exact h
  | dropClone =>
    exact iff_of_true (h.of_subset (fun _ => List.Subset.refl _) fun _ => dropStrong_released)
      trivial
  | @tearDown r first rest =>
    refine iff_of_true ?_ trivial
    have hdone : BuffersAllocated (tearDown s r first) := by
      cases first with
      | closeFd | dropField => exact h
      | dropRegistration =>
        exact h.of_subset (fun _ => List.Subset.refl _) fun _ => dropStrong_released
    exact hdone
  | dispatch _ hbuffer =>
    exact iff_of_true (h.of_subset (fun _ => dispatch_buffer hbuffer) fun _ hr =>
      dispatch_phase (s := s) ▸ hr) trivial
  | finish =>
    exact iff_of_true (h.of_subset (fun _ => List.Subset.refl _) fun _ => dropStrong_released)
      trivial

theorem dropStrong_gone {r r' : R} {holder : Option Θ} (halive : s.phase r' = .alive)
    (h : (s.phase r).Gone) : ((s.dropStrong r' holder).phase r).Gone := by
  have hr : r ≠ r' := by
    rintro rfl
    simp [halive, Phase.Gone] at h
  unfold State.dropStrong
  split
  · simpa [hr] using h
  · exact h

theorem step_gone (hinv : Inv s) (ho : OwnerInv kind s) {r : R} (h : (s.phase r).Gone)
    (hs : step kind s a = some t) : (t.phase r).Gone := by
  have hne : ∀ r', (s.phase r' = .unused ∨ s.phase r' = .dropping) → r ≠ r' := by
    rintro r' hr' rfl
    rcases hr' with hp | hp <;> simp [hp, Phase.Gone] at h
  cases step_cases hs with
  | openFd | closeFd | registerFailed | clone | wait => exact h
  | register hphase => simpa [State.add, hne _ (.inl hphase)] using h
  | modify =>
    unfold EpollSet.modify
    split <;> exact h
  | dropClone _ hmem => exact dropStrong_gone (hinv.alive_of_mem hmem) h
  | @tearDown r' first rest hfirst =>
    cases first with
    | closeFd | dropField => exact h
    | dropRegistration =>
      have hheld := ho.held r' (by simp [hfirst])
      exact dropStrong_gone (hinv.alive_of_mem hheld) h
  | ctlDel hphase =>
    unfold EpollSet.ctlDel
    split <;> simpa [hne _ (.inr hphase)] using h
  | @dropWeak r' =>
    by_cases hr : r = r'
    · exact .inr (by simp [EpollSet.dropWeak, hr])
    · simpa [EpollSet.dropWeak, hr] using h
  | dispatch => exact dispatch_phase (s := s) ▸ h
  | @finish θ r' hhandling =>
    exact dropStrong_gone (s := { s with handling := Function.update s.handling θ none })
      (hinv.alive_of_mem (hinv.handling θ r' hhandling)) h

/-- No poll copies an event of a registration without an entry. -/
theorem step_buffer_gone (hinv : Inv s) {r : R} {θ : Θ} (h : (s.phase r).Gone)
    (hs : step kind s a = some t) (hr : r ∈ t.buffer θ) : r ∈ s.buffer θ := by
  cases step_cases hs with
  | @wait θ' batch =>
    by_cases hθ : θ = θ'
    · simp only [hθ, Function.update_self] at hr
      exact absurd h (copied_not_gone hinv hr)
    · simpa [hθ] using hr
  | dispatch _ hbuffer => exact dispatch_buffer hbuffer hr
  | modify =>
    unfold EpollSet.modify at hr
    split at hr <;> exact hr
  | @tearDown r' first => cases first <;> exact hr
  | ctlDel =>
    unfold EpollSet.ctlDel at hr
    split at hr <;> exact hr
  | openFd | closeFd | register | registerFailed | clone | dropClone | dropWeak | finish => exact hr

theorem exec_buffer_gone {as : List (Act R Θ)} {r : R} {θ : Θ}
    (h : (machine kind).Reachable s) (hgone : (s.phase r).Gone)
    (hrun : (machine kind).exec s as = some t) (hr : r ∈ t.buffer θ) : r ∈ s.buffer θ := by
  have key := Machine.exec_invariant (q := fun _ _ => True)
    (I := fun u => (machine kind).Reachable u ∧ (u.phase r).Gone ∧
      (r ∈ u.buffer θ → r ∈ s.buffer θ)) ⟨h, hgone, id⟩
    (fun u a v ⟨hu, hgone, hsub⟩ _ hs => ?_) (Machine.every_of_forall fun _ _ _ => trivial) hrun
  · exact key.2.2 hr
  · obtain ⟨hinv, ho⟩ := reachable_both hu
    exact ⟨.step hu trivial hs, step_gone hinv ho hgone hs,
      fun hr => hsub (step_buffer_gone hinv hgone hs hr)⟩

/-- A run never holds an event with a released pointer exactly when each release comes after the
dispatch of all events that were copied before its `EPOLL_CTL_DEL`, for later there are none. -/
theorem buffersAllocated_iff (kind : R → Kind) :
    (∀ as (s : State R Θ), (machine kind).exec initial as = some s →
      ((machine kind).Throughout BuffersAllocated initial as ↔
        (machine kind).Every ReleaseUnbuffered initial as)) ∧
    ∀ (s : State R Θ) r, (machine kind).Reachable s → (s.phase r).Gone →
      ∀ as t, (machine kind).exec s as = some t → ∀ θ, r ∈ t.buffer θ → r ∈ s.buffer θ :=
  ⟨fun _ _ hrun => Machine.throughout_iff_every
      (fun _ _ _ hr h hs => step_buffersAllocated_iff (reachable_inv hr.reachable) h hs)
      (.init rfl) (by simp [BuffersAllocated, initial]) hrun,
    fun _ _ h hgone _ _ hrun _ => exec_buffer_gone h hgone hrun⟩

/-- One of two polls comes to its event of a registration that another thread is dropping after
the `EPOLL_CTL_DEL`, and before the pointer is released. -/
def dispatchedInTime : List (Act Bool Bool) :=
  [.openFd 3, .openFd 4, .register false 3, .register true 4, .wait false [3, 4], .wait true [4],
    .dispatch true, .finish true, .dispatch false, .dropClone true, .ctlDel true, .finish false,
    .dispatch false, .dropWeak true]

theorem dispatchedInTime_allocated : ∃ s : State Bool Bool,
    (machine fun _ => .caller).exec initial dispatchedInTime = some s ∧
      s.phase true = .released ∧
      (machine fun _ => .caller).Throughout BuffersAllocated initial dispatchedInTime := by
  have hrun : (machine (R := Bool) fun _ => .caller).exec initial dispatchedInTime = some _ := rfl
  refine ⟨_, hrun, rfl, ((buffersAllocated_iff _).1 _ _ hrun).mpr ?_⟩
  have hempty : ∀ θ : Bool, true ∉ (fun _ => [] : Bool → List Bool) θ := by simp
  exact .cons trivial rfl <| .cons trivial rfl <| .cons trivial rfl <| .cons trivial rfl <|
    .cons trivial rfl <| .cons trivial rfl <| .cons trivial rfl <| .cons trivial rfl <|
    .cons trivial rfl <| .cons trivial rfl <| .cons trivial rfl <| .cons trivial rfl <|
    .cons trivial rfl <| .cons (fun θ => by cases θ <;> exact hempty false) rfl trivial

/-- Two registrations made with `register_fd` have an event each in one buffer, and the handler of
the first event drops the registration of the second. -/
def droppedByHandler : List (Act Bool Unit) :=
  [.openFd 3, .openFd 4, .register false 3, .register true 4, .wait () [3, 4], .dispatch (),
    .dropClone true, .ctlDel true, .dropWeak true]

theorem released_in_buffer :
    (∃ s : State Bool Unit, (machine fun _ => .caller).exec initial droppedByHandler = some s ∧
      s.buffer () = [true] ∧ s.phase true = .released) ∧
    ¬ ∀ s : State Bool Unit, (machine fun _ => .caller).Reachable s → BuffersAllocated s := by
  have hbad : ∃ s : State Bool Unit,
      (machine fun _ => .caller).exec initial droppedByHandler = some s ∧
      s.buffer () = [true] ∧ s.phase true = .released := ⟨_, rfl, rfl, rfl⟩
  refine ⟨hbad, fun h => ?_⟩
  obtain ⟨s, hrun, hbuffer, hphase⟩ := hbad
  exact h s (Machine.reachable_of_exec rfl hrun) () true (by simp [hbuffer]) hphase

end CompleteIo.EpollSet
