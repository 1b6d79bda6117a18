import CompleteIo.Epoll.Instances

namespace CompleteIo.EpollInstances

/-- What the fields of each kind of object refer to: only an `Inner` has a custom event. -/
inductive FieldOf (tags : List EventTag) : FieldRef Obj → Prop
  | customEvents {i c fd : ℕ} : ⟨.customEvent i c, fd⟩ ∈ tags →
      FieldOf tags ⟨.inner i, .customEvent i c⟩
  | customEventRegistration {i c r : ℕ} : FieldOf tags ⟨.customEvent i c, .registration i r⟩
  | queue {i r : ℕ} : FieldOf tags ⟨.registration i r, .inner i⟩
  | listenerRegistration {i l r : ℕ} : FieldOf tags ⟨.listener i l, .registration i r⟩
  | listenerHandle {i l : ℕ} : FieldOf tags ⟨.listener i l, .inner i⟩
  | socketRegistration {i n r : ℕ} : FieldOf tags ⟨.socket i n, .registration i r⟩

/-- An `Inner` owns its custom events, whose registrations own it. -/
def cycle (i c r : ℕ) : Set (FieldRef Obj) :=
  {⟨.inner i, .customEvent i c⟩, ⟨.customEvent i c, .registration i r⟩,
    ⟨.registration i r, .inner i⟩}

/-- What an action that is not `new` allocates. -/
def NotInner (x : Obj) : Prop := ∀ j, x ≠ .inner j

structure Inv (s : State) : Prop where
  ok : s.heap.Ok s.roots
  fieldOf : ∀ r ∈ s.heap.owned, FieldOf s.tags r
  tag : ∀ tag ∈ s.tags, ∃ i c r, tag = ⟨.customEvent i c, s.fd i⟩ ∧ s.heap.SelfOwned (cycle i c r)
  event : ∀ x e, s.event x = some e → e.instance = x.instance ∧ ⟨e, s.fd x.instance⟩ ∈ s.tags
  distinct : ∀ i j, .inner i ∈ s.refs → .inner j ∈ s.refs → s.fd i = s.fd j → i = j

section Proofs

variable {s t : State} {a : Act} {i j c r : ℕ} {x : Obj} {v : Value} {tag : EventTag}
  {tags tags' : List EventTag}

theorem FieldOf.mono {r : FieldRef Obj} (h : FieldOf tags r) (htags : tags ⊆ tags') :
    FieldOf tags' r := by
  cases h with
  | customEvents hmem => exact .customEvents (htags hmem)
  | customEventRegistration => exact .customEventRegistration
  | queue => exact .queue
  | listenerRegistration => exact .listenerRegistration
  | listenerHandle => exact .listenerHandle
  | socketRegistration => exact .socketRegistration

theorem FieldOf.instance_eq {r : FieldRef Obj} (h : FieldOf tags r) :
    r.owner.instance = r.target.instance := by
  cases h <;> rfl

theorem mem_openFds (h : .inner j ∈ s.refs) : s.fd j ∈ s.openFds :=
  List.mem_filterMap.mpr ⟨_, h, rfl⟩

theorem registerFdRaw_evolves {h : OwnershipHeap Obj} {roots : List Obj} {A : Obj → Prop}
    (hi : .inner i ∈ h.refs roots) (hr : h.count (.registration i r) = none)
    (hA : ∀ x, NotInner x → A x) :
    h.Evolves A (FieldOf tags) roots (registerFdRaw h i r) (.registration i r :: roots) :=
  .trans (.retain hi)
    (.alloc [.inner i] (hA _ (by simp [NotInner])) (by simp [FieldOf.queue]) (by simpa))

theorem registerFdRaw_count {h : OwnershipHeap Obj} (hx : h.count x = none)
    (hne : x ≠ .registration i r) : (registerFdRaw h i r).count x = none := by
  simpa [registerFdRaw, Function.update_of_ne hne]

theorem roots_perm_erase_value (hv : v ∈ s.values) :
    s.roots.Perm (v.target :: ((s.values.erase v).map Value.target ++ s.dispatching)) :=
  ((List.perm_cons_erase hv).map Value.target).append_right _

theorem roots_perm_erase_dispatching (hx : x ∈ s.dispatching) :
    s.roots.Perm (x :: (s.values.map Value.target ++ s.dispatching.erase x)) :=
  ((List.perm_cons_erase hx).append_left _).trans List.perm_middle

theorem fromSocket_evolves {n : ℕ} (hi : .inner i ∈ s.refs)
    (hr : s.heap.count (.registration i r) = none) (hn : s.heap.count (.socket i n) = none) :
    s.heap.Evolves NotInner (FieldOf tags) s.roots (fromSocket s i n r).heap
      (fromSocket s i n r).roots := by
  have halloc : (registerFdRaw s.heap i r).Evolves NotInner (FieldOf tags)
      ([.registration i r] ++ s.roots) (fromSocket s i n r).heap (fromSocket s i n r).roots :=
    .alloc _ (by simp [NotInner]) (by simp [FieldOf.socketRegistration])
      (registerFdRaw_count hn (by simp))
  exact .trans (registerFdRaw_evolves hi hr fun _ => id) halloc

theorem fromListener_evolves {l : ℕ} (hi : .handle i ∈ s.values)
    (hr : s.heap.count (.registration i r) = none) (hl : s.heap.count (.listener i l) = none) :
    s.heap.Evolves NotInner (FieldOf tags) s.roots (fromListener s i l r).heap
      (fromListener s i l r).roots := by
  have hroot : Obj.inner i ∈ s.roots := mem_roots_of_value hi
  have hretain : (registerFdRaw s.heap i r).Evolves NotInner (FieldOf tags)
      (.registration i r :: s.roots) ((registerFdRaw s.heap i r).retain (.inner i))
      ([.inner i, .registration i r] ++ s.roots) :=
    .retain (List.mem_append_left _ (List.mem_cons_of_mem _ hroot))
  have halloc : ((registerFdRaw s.heap i r).retain (.inner i)).Evolves NotInner (FieldOf tags)
      ([.inner i, .registration i r] ++ s.roots) (fromListener s i l r).heap
      (fromListener s i l r).roots :=
    .alloc _ (by simp [NotInner])
      (by simp [FieldOf.listenerRegistration, FieldOf.listenerHandle])
      (by simpa using registerFdRaw_count hl (by simp))
  exact .trans (registerFdRaw_evolves (mem_refs_of_value hi) hr fun _ => id)
    (.trans hretain halloc)

theorem newCustomEvent_evolves (hi : .epoll i ∈ s.values)
    (hr : s.heap.count (.registration i r) = none)
    (hc : s.heap.count (.customEvent i c) = none) :
    s.heap.Evolves NotInner (FieldOf (newCustomEvent s i c r).tags) s.roots
      (newCustomEvent s i c r).heap (newCustomEvent s i c r).roots := by
  have hroot : Obj.inner i ∈ s.roots := mem_roots_of_value hi
  have halloc : (registerFdRaw s.heap i r).Evolves NotInner (FieldOf (newCustomEvent s i c r).tags)
      ([.registration i r] ++ s.roots)
      ((registerFdRaw s.heap i r).alloc (.customEvent i c) [.registration i r])
      (.customEvent i c :: s.roots) :=
    .alloc _ (by simp [NotInner]) (by simp [FieldOf.customEventRegistration])
      (registerFdRaw_count hc (by simp))
  refine .trans (registerFdRaw_evolves (mem_refs_of_value hi) hr fun _ => id)
    (.trans halloc (.push (List.mem_append_left _ hroot) ?_))
  exact .customEvents (List.mem_cons_self ..)

/-- Each action is a run of heap operations, and only `new` allocates an `Inner`. -/
theorem step_evolves (hs : step s a = some t) :
    s.heap.Evolves (fun x => ∀ i, x = .inner i → ∃ fd, a = .new i fd) (FieldOf t.tags) s.roots
      t.heap t.roots := by
  have hother : ∀ x, NotInner x → ∀ i, x = .inner i → ∃ fd, a = .new i fd :=
    fun x hx i he => absurd he (hx i)
  cases step_cases hs with
  | @new i fd hfresh =>
    exact .alloc [] (fun j hj => ⟨fd, by cases hj; rfl⟩) (by simp) hfresh
  | clone hv => exact .retain (mem_refs_of_value hv)
  | handle hi => exact .retain (mem_refs_of_value hi)
  | registerFd hi hr | newFuturesRegistration hi hr =>
    exact registerFdRaw_evolves (mem_refs_of_value hi) hr hother
  | fromListener hi hr hl => exact (fromListener_evolves hi hr hl).mono hother
  | fromSocket hi hr hn => exact (fromSocket_evolves (mem_refs_of_value hi) hr hn).mono hother
  | @accept i _ _ _ _ hfield hr hn =>
    have hi : .inner i ∈ s.refs := OwnershipHeap.mem_refs_of_owned hfield
    exact (fromSocket_evolves hi hr hn).mono hother
  | newCustomEvent hi hr hc => exact (newCustomEvent_evolves hi hr hc).mono hother
  | dropValue hv => exact .trans (.perm (roots_perm_erase_value hv)) .release
  | dropField hx => exact .dropField hx
  | upgrade _ hr => exact .trans (.retain hr) (.perm List.perm_middle.symm)
  | cloneDispatched hr =>
    exact .retain (List.mem_append_left _ (List.mem_append_right _ hr))
  | dispatched hx => exact .trans (.perm (roots_perm_erase_dispatching hx)) .release

theorem fd_step (hs : step s a = some t) (hj : s.heap.count (.inner j) ≠ none) :
    t.fd j = s.fd j := by
  cases step_cases hs with
  | @new i fd hfresh =>
    have hne : j ≠ i := fun he => hj (he ▸ hfresh)
    exact Function.update_of_ne hne _ _
  | _ => rfl

theorem tags_subset (hs : step s a = some t) : s.tags ⊆ t.tags := by
  cases step_cases hs with
  | newCustomEvent => exact List.subset_cons_self ..
  | upgrade =>
    simp only [upgrade]
    split
    · split
      · exact List.subset_cons_self ..
      · exact List.Subset.refl _
    · exact List.Subset.refl _
  | _ => exact List.Subset.refl _

/-- A tag is new only when `new_custom_event` returns it; a handler is given one that exists. -/
theorem mem_tags_step (h : Inv s) (hs : step s a = some t) (htag : tag ∈ t.tags) :
    tag ∈ s.tags ∨ ∃ i c r, a = .newCustomEvent i c r ∧ tag = ⟨.customEvent i c, s.fd i⟩ := by
  cases step_cases hs with
  | @newCustomEvent i c r =>
    rcases List.mem_cons.mp htag with rfl | htag
    · exact .inr ⟨i, c, r, rfl, rfl⟩
    · exact .inl htag
  | upgrade =>
    refine .inl ?_
    simp only [upgrade] at htag
    split at htag
    · next e he =>
      split at htag
      · rcases List.mem_cons.mp htag with rfl | htag
        · exact (h.event _ e he).2
        · exact htag
      · exact htag
    · exact htag
  | _ => exact .inl htag

theorem event_step (hs : step s a = some t) {e : Obj} (he : t.event x = some e) :
    s.event x = some e ∨
      ∃ i c r, a = .newCustomEvent i c r ∧ x = .registration i r ∧ e = .customEvent i c := by
  cases step_cases hs with
  | @newCustomEvent i c r =>
    by_cases hx : x = .registration i r
    · subst hx
      simp only [newCustomEvent, Function.update_self, Option.some.injEq] at he
      exact .inr ⟨i, c, r, rfl, rfl, he.symm⟩
    · simp only [newCustomEvent, Function.update_of_ne hx] at he
      exact .inl he
  | _ => exact .inl he

theorem cycle_selfOwned {h : OwnershipHeap Obj} (hcycle : ∀ q ∈ cycle i c r, q ∈ h.owned) :
    h.SelfOwned (cycle i c r) := by
  refine ⟨hcycle, fun q hq => ?_⟩
  rcases hq with rfl | rfl | rfl
  · exact ⟨⟨.registration i r, .inner i⟩, by simp [cycle], rfl⟩
  · exact ⟨⟨.inner i, .customEvent i c⟩, by simp [cycle], rfl⟩
  · exact ⟨⟨.customEvent i c, .registration i r⟩, by simp [cycle], rfl⟩

theorem newCustomEvent_cycle : (newCustomEvent s i c r).heap.SelfOwned (cycle i c r) := by
  refine cycle_selfOwned fun q hq => ?_
  rcases hq with rfl | rfl | rfl <;>
    simp [newCustomEvent, registerFdRaw, OwnershipHeap.push, OwnershipHeap.alloc,
      OwnershipHeap.retain]

/-- An instance with a tag is alive: its custom event keeps it. -/
theorem Inv.inner_alive (h : Inv s) (htag : tag ∈ s.tags) :
    ∃ c, s.heap.count (.inner tag.ptr.instance) = some c ∧ c.Alive := by
  obtain ⟨i, c, r, rfl, hcycle⟩ := h.tag tag htag
  exact hcycle.alive h.ok (r := ⟨.registration i r, .inner i⟩) (by simp [cycle])

theorem Inv.customEvent_alive (h : Inv s) (htag : tag ∈ s.tags) :
    ∃ c, s.heap.count tag.ptr = some c ∧ c.Alive := by
  obtain ⟨i, c, r, rfl, hcycle⟩ := h.tag tag htag
  exact hcycle.alive h.ok (r := ⟨.inner i, .customEvent i c⟩) (by simp [cycle])

theorem Inv.inner_known (h : Inv s) (htag : tag ∈ s.tags) :
    s.heap.count (.inner tag.ptr.instance) ≠ none := by
  obtain ⟨c, hc, -⟩ := h.inner_alive htag
  simp [hc]

theorem fd_of_mem_refs (h : Inv s) (hs : step s a = some t) (hj : .inner j ∈ s.refs) :
    t.fd j = s.fd j := fd_step hs (h.ok.counted.known _ hj)

/-- The fd of a new instance is that of no other one. -/
theorem distinct_step (h : Inv s) (hs : step s a = some t) (hi : .inner i ∈ t.refs)
    (hj : .inner j ∈ t.refs) (he : t.fd i = t.fd j) : i = j := by
  have hnew : ∀ k l fd, a = .new k fd → .inner l ∈ s.refs → t.fd k ≠ t.fd l := by
    rintro k l fd rfl hl hfd
    rw [fd_of_mem_refs h hs hl] at hfd
    cases step_cases hs with
    | new _ hopen =>
      simp only [new, Function.update_self] at hfd
      exact hopen (hfd ▸ mem_openFds hl)
  rcases (step_evolves hs).mem_refs hi with hi | hi <;>
    rcases (step_evolves hs).mem_refs hj with hj | hj
  · rw [fd_of_mem_refs h hs hi, fd_of_mem_refs h hs hj] at he
    exact h.distinct i j hi hj he
  · obtain ⟨fd, ha⟩ := hj j rfl
    exact absurd he.symm (hnew j i fd ha hi)
  · obtain ⟨fd, ha⟩ := hi i rfl
    exact absurd he (hnew i j fd ha hj)
  · obtain ⟨fd, rfl⟩ := hi i rfl
    obtain ⟨fd', ha⟩ := hj j rfl
    cases ha
    rfl

theorem initial_inv : Inv initial where
  ok := OwnershipHeap.empty_ok
  fieldOf := by simp [initial, OwnershipHeap.empty]
  tag := by simp [initial]
  event := by simp [initial]
  distinct := by simp [initial, State.refs, State.roots, OwnershipHeap.refs, OwnershipHeap.empty,
    OwnershipHeap.targets]

theorem step_inv (h : Inv s) (hs : step s a = some t) : Inv t where
  ok := (step_evolves hs).ok h.ok
  fieldOf q hq := by
    rcases (step_evolves hs).owned hq with hq | hq
    · exact (h.fieldOf q hq).mono (tags_subset hs)
    · exact hq
  tag tag htag := by
    rcases mem_tags_step h hs htag with htag | ⟨i, c, r, rfl, rfl⟩
    · have hfd := fd_step hs (h.inner_known htag)
      obtain ⟨i, c, r, rfl, hcycle⟩ := h.tag tag htag
      exact ⟨i, c, r, congrArg _ hfd.symm, hcycle.evolves h.ok (step_evolves hs)⟩
    · cases step_cases hs
      exact ⟨i, c, r, rfl, newCustomEvent_cycle⟩
  event x e he := by
    rcases event_step hs he with he | ⟨i, c, r, rfl, rfl, rfl⟩
    · obtain ⟨hinst, htag⟩ := h.event x e he
      refine ⟨hinst, tags_subset hs ?_⟩
      rw [fd_step hs (hinst ▸ h.inner_known htag)]
      exact htag
    · cases step_cases hs
      exact ⟨rfl, List.mem_cons_self ..⟩
  distinct i j hi hj he := distinct_step h hs hi hj he

theorem reachable_inv (h : machine.Reachable s) : Inv s :=
  h.invariant (fun _ hs => hs ▸ initial_inv) fun _ _ _ _ hi _ hs => step_inv hi hs

/-- An instance is known once it has been created. -/
theorem known_iff_new {as : List Act} (hrun : machine.exec initial as = some s) :
    s.heap.count (.inner i) ≠ none ↔ ∃ fd, .new i fd ∈ as := by
  have key := Machine.exec_iff_exists (M := machine) (A := fun a => ∃ fd, a = .new i fd)
    (Q := fun s => s.heap.count (.inner i) ≠ none) (fun s a t _ hs => ?_) (.init rfl) hrun
  · simpa [initial, OwnershipHeap.empty, and_comm] using key
  · refine ⟨fun ht => ((step_evolves hs).known_iff.2 ht).imp_right fun ha => ha i rfl, ?_⟩
    rintro (hx | ⟨fd, rfl⟩)
    · exact (step_evolves hs).known_iff.1 hx
    · cases step_cases (a := .new i fd) hs
      simp [new, State.hold]

/-- The tags of an instance are those that its `new_custom_event` has returned. -/
theorem tag_iff_newCustomEvent {as : List Act} (hrun : machine.exec initial as = some s) :
    (∃ fd, ⟨.customEvent i c, fd⟩ ∈ s.tags) ↔ ∃ r, .newCustomEvent i c r ∈ as := by
  have key := Machine.exec_iff_exists (M := machine) (A := fun a => ∃ r, a = .newCustomEvent i c r)
    (Q := fun s => ∃ fd, ⟨.customEvent i c, fd⟩ ∈ s.tags) (fun s a t hr hs => ?_) (.init rfl) hrun
  · simpa [initial, and_comm] using key
  · constructor
    · rintro ⟨fd, hmem⟩
      rcases mem_tags_step (reachable_inv hr) hs hmem with hmem | ⟨j, e, r, rfl, he⟩
      · exact .inl ⟨fd, hmem⟩
      · cases he
        exact .inr ⟨r, rfl⟩
    · rintro (⟨fd, hmem⟩ | ⟨r, rfl⟩)
      · exact ⟨fd, tags_subset hs hmem⟩
      · cases step_cases (a := .newCustomEvent i c r) hs
        exact ⟨s.fd i, List.mem_cons_self ..⟩

end Proofs

end CompleteIo.EpollInstances
