import CompleteIo.Iocp.OverlappedFuture

namespace CompleteIo.OverlappedFuture

variable {F X T : Type*}

/-- The operation of the future may still write to its blocks. -/
def InProgress (s : State F X T) (fut : Future X) : Prop :=
  ∃ x, fut.state.task = some x ∧ x ∈ s.tasks.inProgress

/-- The blocks of every operation in progress are owned by its future or leaked. -/
def BlocksKept (s : State F X T) : Prop :=
  ∀ f fut, s.future f = some fut → InProgress s fut →
    ∀ b ∈ fut.kind.blocks, fut.owner b = .future ∨ fut.owner b = .leaked

/-- No future but a `Connect` goes away with its operation in progress, by a drop or by a panic in
`register`, unless it has a `Drop` whose cancellation fails. -/
def KeepsBlocks (s : State F X T) : Act F X T → Prop
  | .move f (.drop cancelled) => ∀ fut, s.future f = some fut → InProgress s fut →
      fut.kind = .connect ∨ fut.kind ≠ .accept ∧ cancelled = false
  | .move f (.register none) => ∀ fut, s.future f = some fut → InProgress s fut →
      fut.kind = .connect
  | _ => True

section Proofs

variable [DecidableEq F] [DecidableEq X] {s t : State F X T} {a : Act F X T} {f g : F}
  {fut fut' gut : Future X} {x y : X} {r : OverlappedTask.State X T}

/-- Every future has a task of its own, whose status tells whether the operation is in progress. -/
structure Inv (s : State F X T) : Prop where
  tasks : OverlappedTask.Inv s.tasks
  known : ∀ f fut x, s.future f = some fut → fut.state.task = some x → s.tasks.count x ≠ none
  unique : ∀ f g fut gut x, s.future f = some fut → s.future g = some gut →
    fut.state.task = some x → gut.state.task = some x → f = g
  nodup : s.tasks.inProgress.Nodup
  status : ∀ x ∈ s.tasks.inProgress, s.tasks.statusPending x = true
  submitting : ∀ f fut x, s.future f = some fut → fut.state = .submitting x →
    x ∉ s.tasks.inProgress
  owned : ∀ f fut, s.future f = some fut → fut.state.Live → ∀ b, fut.owner b = .future

omit [DecidableEq F] in
theorem initial_inv : Inv (initial : State F X T) where
  tasks := OverlappedTask.initial_inv
  known := by simp [initial]
  unique := by simp [initial]
  nodup := List.nodup_nil
  status := by simp [initial, OverlappedTask.initial]
  submitting := by simp [initial]
  owned := by simp [initial]

omit [DecidableEq X] in
@[simp] theorem setFuture_self : (s.setFuture f fut r).future f = some fut :=
  Function.update_self ..

omit [DecidableEq X] in
theorem setFuture_other (h : g ≠ f) : (s.setFuture f fut r).future g = s.future g :=
  Function.update_of_ne h ..

/-- What a move has to keep: the tasks of the other futures, and the operations in progress but
for its own. -/
structure Keeps (s : State F X T) (f : F) (fut' : Future X) (r : OverlappedTask.State X T) :
    Prop where
  known : ∀ y, s.tasks.count y ≠ none → r.count y ≠ none
  own : ∀ x, fut'.state.task = some x → r.count x ≠ none ∧
    ∀ g gut, g ≠ f → s.future g = some gut → gut.state.task ≠ some x
  progress : ∀ y ∈ r.inProgress, y ∈ s.tasks.inProgress ∨ fut'.state.task = some y

omit [DecidableEq F] [DecidableEq X] in
theorem Keeps.other (h : Keeps s f fut' r) (hg : g ≠ f) (hgut : s.future g = some gut)
    (hx : gut.state.task = some x) (hmem : x ∈ r.inProgress) : x ∈ s.tasks.inProgress :=
  (h.progress x hmem).resolve_right fun hown => (h.own x hown).2 g gut hg hgut hx

omit [DecidableEq F] [DecidableEq X] in
theorem keeps_create {k : Kind} : Keeps s f ⟨k, .initial, fun _ => .future⟩ s.tasks :=
  ⟨fun _ => id, by simp, fun _ => .inl⟩

theorem Inv.setFuture (h : Inv s) (hkeeps : Keeps s f fut' r) (htasks : OverlappedTask.Inv r)
    (hnodup : r.inProgress.Nodup) (hstatus : ∀ x ∈ r.inProgress, r.statusPending x = true)
    (hsubmitting : ∀ x, fut'.state = .submitting x → x ∉ r.inProgress)
    (howned : fut'.state.Live → ∀ b, fut'.owner b = .future) : Inv (s.setFuture f fut' r) where
  tasks := htasks
  known g gut x hg hx := by
    by_cases hgf : g = f
    · subst hgf
      obtain rfl : fut' = gut := Option.some.inj (setFuture_self.symm.trans hg)
      exact (hkeeps.own x hx).1
    · rw [setFuture_other hgf] at hg
      exact hkeeps.known x (h.known g gut x hg hx)
  unique g g' gut gut' x hg hg' hx hx' := by
    by_cases hgf : g = f <;> by_cases hgf' : g' = f
    · rw [hgf, hgf']
    · subst hgf
      obtain rfl : fut' = gut := Option.some.inj (setFuture_self.symm.trans hg)
      rw [setFuture_other hgf'] at hg'
      exact absurd hx' ((hkeeps.own x hx).2 g' gut' hgf' hg')
    · subst hgf'
      obtain rfl : fut' = gut' := Option.some.inj (setFuture_self.symm.trans hg')
      rw [setFuture_other hgf] at hg
      exact absurd hx ((hkeeps.own x hx').2 g gut hgf hg)
    · rw [setFuture_other hgf] at hg
      rw [setFuture_other hgf'] at hg'
      exact h.unique g g' gut gut' x hg hg' hx hx'
  nodup := hnodup
  status := hstatus
  submitting g gut x hg hstate hmem := by
    by_cases hgf : g = f
    · subst hgf
      obtain rfl : fut' = gut := Option.some.inj (setFuture_self.symm.trans hg)
      exact hsubmitting x hstate hmem
    · rw [setFuture_other hgf] at hg
      exact h.submitting g gut x hg hstate (hkeeps.other hgf hg (by rw [hstate]; rfl) hmem)
  owned g gut hg hlive := by
    by_cases hgf : g = f
    · subst hgf
      obtain rfl : fut' = gut := Option.some.inj (setFuture_self.symm.trans hg)
      exact howned hlive
    · rw [setFuture_other hgf] at hg
      exact h.owned g gut hg hlive

/-- A move that keeps its task and begins no operation. -/
theorem Inv.setFuture_same (h : Inv s) (hf : s.future f = some fut)
    (htask : fut'.state.task = fut.state.task) {as : List (OverlappedTask.Act X T)}
    (hexec : (OverlappedTask.machine X T).exec s.tasks as = some r) (hquiet : ∀ b ∈ as, b.Quiet)
    (hwrites : ∀ b ∈ as, ∀ y ∈ s.tasks.inProgress, b.writes ≠ some y)
    (hsubmitting : ∀ x, fut'.state ≠ .submitting x)
    (howned : fut'.state.Live → ∀ b, fut'.owner b = .future) :
    r.inProgress = s.tasks.inProgress ∧ Keeps s f fut' r ∧ Inv (s.setFuture f fut' r) := by
  have hprogress := OverlappedTask.inProgress_exec hquiet hexec
  have hkeeps : Keeps s f fut' r := by
    refine ⟨fun y => OverlappedTask.count_exec hexec, fun x hx => ⟨?_, fun g gut hgf hg hx' => ?_⟩,
      fun y hy => .inl (hprogress ▸ hy)⟩
    · exact OverlappedTask.count_exec hexec (h.known f fut x hf (htask ▸ hx))
    · exact hgf (h.unique g f gut fut x hg hf hx' (htask ▸ hx))
  refine ⟨hprogress, hkeeps, h.setFuture hkeeps (OverlappedTask.inv_exec h.tasks hexec)
    (hprogress ▸ h.nodup) (fun x hx => ?_) (fun x hx => absurd hx (hsubmitting x)) howned⟩
  rw [hprogress] at hx
  rw [OverlappedTask.statusPending_exec (fun b hb => hwrites b hb x hx) hexec]
  exact h.status x hx

omit [DecidableEq F] [DecidableEq X] in
theorem mem_refs_of_inProgress (hx : x ∈ s.tasks.inProgress) : x ∈ s.tasks.refs := by
  simp [OverlappedTask.State.refs, hx]

theorem inv_pollBegin {k : Kind} {o : Block → Owner} {task : T} (h : Inv s)
    (hf : s.future f = some ⟨k, .initial, o⟩)
    (hexec : (OverlappedTask.machine X T).exec s.tasks
      [.new x task, .clone x, .forOperation x] = some r) :
    Keeps s f ⟨k, .submitting x, o⟩ r ∧ Inv (s.setFuture f ⟨k, .submitting x, o⟩ r) := by
  have hprogress : r.inProgress = s.tasks.inProgress :=
    OverlappedTask.inProgress_exec (by simp [OverlappedTask.Act.Quiet]) hexec
  obtain ⟨u, hnew, hrest⟩ := Option.bind_eq_some_iff.mp hexec
  simp only [OverlappedTask.machine, OverlappedTask.step, Option.ite_none_right_eq_some,
    Option.some.injEq] at hnew
  obtain ⟨hfresh, rfl⟩ := hnew
  have hidle : x ∉ s.tasks.inProgress := fun hx =>
    h.tasks.counted.fresh hfresh (mem_refs_of_inProgress hx)
  have hkeeps : Keeps s f ⟨k, .submitting x, o⟩ r := by
    refine ⟨fun y => OverlappedTask.count_exec hexec, fun y hy => ?_, fun y hy =>
      .inl (hprogress ▸ hy)⟩
    obtain rfl : x = y := Option.some.inj hy
    refine ⟨OverlappedTask.count_exec hrest (by simp [OverlappedTask.new]), ?_⟩
    exact fun g gut _ hg hx => h.known g gut x hg hx hfresh
  refine ⟨hkeeps, h.setFuture hkeeps (OverlappedTask.inv_exec h.tasks hexec)
    (hprogress ▸ h.nodup) (fun y hy => ?_) (fun y hy => ?_)
    fun _ => h.owned f ⟨k, .initial, o⟩ hf trivial⟩
  · rw [hprogress] at hy
    have hxy : x ≠ y := fun hxy => hidle (hxy ▸ hy)
    rw [OverlappedTask.statusPending_exec (by simp [OverlappedTask.Act.writes, hxy]) hexec]
    exact h.status y hy
  · rw [hprogress]
    exact FutureState.submitting.inj hy ▸ hidle

theorem inv_submitted {k : Kind} {o : Block → Owner} (h : Inv s)
    (hf : s.future f = some ⟨k, .submitting x, o⟩)
    (hexec : (OverlappedTask.machine X T).exec s.tasks [.submit x .pending] = some r) :
    Keeps s f ⟨k, .submitted x, o⟩ r ∧ Inv (s.setFuture f ⟨k, .submitted x, o⟩ r) := by
  have hinv := OverlappedTask.inv_exec h.tasks hexec
  have hknown := fun y => OverlappedTask.count_exec (y := y) hexec
  rw [Machine.exec_singleton] at hexec
  simp only [OverlappedTask.machine, OverlappedTask.step, Option.ite_none_right_eq_some,
    Option.some.injEq] at hexec
  obtain ⟨-, rfl⟩ := hexec
  have hidle := h.submitting f _ x hf rfl
  have hkeeps : Keeps s f ⟨k, .submitted x, o⟩ (OverlappedTask.submit s.tasks x .pending) := by
    refine ⟨hknown, fun y hy => ?_, fun y hy => ?_⟩
    · obtain rfl : x = y := Option.some.inj hy
      exact ⟨hknown x (h.known f _ x hf rfl), fun g gut hgf hg hx =>
        hgf (h.unique g f gut _ x hg hf hx rfl)⟩
    · rcases List.mem_cons.mp hy with rfl | hy
      · exact .inr rfl
      · exact .inl hy
  refine ⟨hkeeps, h.setFuture hkeeps hinv (List.nodup_cons.mpr ⟨hidle, h.nodup⟩) (fun y hy => ?_)
    (by simp) fun _ => h.owned f ⟨k, .submitting x, o⟩ hf trivial⟩
  by_cases hyx : y = x
  · simp [hyx, OverlappedTask.submit]
  · have hy := (List.mem_cons.mp hy).resolve_left hyx
    simpa [OverlappedTask.submit, OverlappedTask.handOver, hyx] using h.status y hy

theorem inv_move {m : Move X T} {as : List (OverlappedTask.Act X T)} (h : Inv s)
    (hf : s.future f = some fut)
    (hmove : Moves s.tasks.statusPending fut.kind fut.owner fut.state m fut' as)
    (hexec : (OverlappedTask.machine X T).exec s.tasks as = some r) :
    Keeps s f fut' r ∧ Inv (s.setFuture f fut' r) := by
  obtain ⟨k, state, o⟩ := fut
  have howned := h.owned f _ hf
  cases hmove with
  | pollBegin => exact inv_pollBegin h hf hexec
  | submitted => exact inv_submitted h hf hexec
  | @completed x =>
    refine (h.setFuture_same hf ?_ hexec ?_ ?_ ?_ ?_).2
    · rfl
    · simp [OverlappedTask.Act.Quiet]
    · have hidle := h.submitting f _ x hf rfl
      have hne : ∀ y ∈ s.tasks.inProgress, x ≠ y := fun y hy hxy => hidle (hxy ▸ hy)
      simpa [OverlappedTask.Act.writes] using hne
    · simp [Future.released]
    · simp [Future.released]
  | storeFirst | store | poll | register | notReady =>
    refine (h.setFuture_same hf ?_ hexec ?_ ?_ ?_ ?_).2
    · rfl
    · simp [OverlappedTask.Act.Quiet]
    · simp [OverlappedTask.Act.writes]
    · simp
    · exact fun _ => howned trivial
  | pollFails | failed | registerPanics | ready | dropInitial | dropFields | dropCancelled
  | dropLeaking =>
    refine (h.setFuture_same hf ?_ hexec ?_ ?_ ?_ ?_).2
    · rfl
    · simp [OverlappedTask.Act.Quiet]
    · simp [OverlappedTask.Act.writes]
    · simp [Future.released, Future.leaked]
    · simp [Future.released, Future.leaked]

omit [DecidableEq F] in
/-- A step of the port ends an operation at most. -/
theorem port_step {b : OverlappedTask.Act X T} (hport : ofPort b = true)
    (hstep : OverlappedTask.step s.tasks b = some r) : r.inProgress.Sublist s.tasks.inProgress ∧
      (s.tasks.inProgress.Nodup → ∀ x ∈ r.inProgress,
        r.statusPending x = s.tasks.statusPending x) := by
  cases OverlappedTask.step_cases hstep with
  | complete =>
    refine ⟨List.erase_sublist, fun hnodup x hx => Function.update_of_ne ?_ ..⟩
    rintro rfl
    exact hnodup.not_mem_erase hx
  | queue | dequeue | notify | release => exact ⟨.refl _, fun _ _ _ => rfl⟩
  | _ => cases hport

theorem step_inv (h : Inv s) (hs : step s a = some t) : Inv t := by
  cases step_cases hs with
  | create =>
    refine h.setFuture keeps_create h.tasks h.nodup h.status ?_ ?_
    · simp
    · exact fun _ _ => rfl
  | move hf hmove hexec => exact (inv_move h hf hmove hexec).2
  | port hport hstep =>
    obtain ⟨hsub, hstatus⟩ := port_step hport hstep
    refine ⟨⟨OverlappedTask.counted_step h.tasks hstep,
      OverlappedTask.handedOver_step h.tasks hstep⟩, fun f fut x hf hx => ?_, h.unique,
      hsub.nodup h.nodup, fun x hx => ?_, fun f fut x hf hstate hx => ?_, h.owned⟩
    · exact OverlappedTask.count_step hstep (h.known f fut x hf hx)
    · exact (hstatus h.nodup x hx).trans (h.status x (hsub.subset hx))
    · exact h.submitting f fut x hf hstate (hsub.subset hx)

theorem reachable_inv (h : (machine F X T).Reachable s) : Inv s :=
  h.invariant (fun _ hs => hs ▸ initial_inv) fun _ _ _ _ hi _ hs => step_inv hi hs

omit [DecidableEq X] in
/-- After a move only the blocks of its own future are in question. -/
theorem blocksKept_setFuture (hkept : BlocksKept s) (hkeeps : Keeps s f fut' r) :
    BlocksKept (s.setFuture f fut' r) ↔ ∀ x, fut'.state.task = some x → x ∈ r.inProgress →
      ∀ b ∈ fut'.kind.blocks, fut'.owner b = .future ∨ fut'.owner b = .leaked := by
  constructor
  · exact fun h x hx hmem => h f fut' setFuture_self ⟨x, hx, hmem⟩
  · rintro h g gut hg ⟨x, hx, hmem⟩
    by_cases hgf : g = f
    · subst hgf
      obtain rfl : fut' = gut := Option.some.inj (setFuture_self.symm.trans hg)
      exact h x hx hmem
    · rw [setFuture_other hgf] at hg
      exact hkept g gut hg ⟨x, hx, hkeeps.other hgf hg hx hmem⟩

omit [DecidableEq X] in
theorem blocks_eq_nil {k : Kind} : k.blocks = [] ↔ k = .connect := by cases k <;> decide

theorem leaks_eq_none {k : Kind} : k.leaks = none ↔ k = .accept ∨ k = .connect := by
  cases k <;> decide

/-- A future that has a `Drop` leaks every block. -/
theorem leaks_eq_some {k : Kind} {leaks : List Block} (h : k.leaks = some leaks) :
    k.blocks = leaks := by
  cases k <;> simp_all [Kind.leaks, Kind.blocks]

omit [DecidableEq X] in
/-- Blocks that are given up must not be in use by an operation in progress. -/
theorem blocksKept_released {k : Kind} {state : FutureState X} {o : Block → Owner}
    (hkept : BlocksKept s) (hkeeps : Keeps s f (.released ⟨k, state, o⟩ (some x)) r)
    (hprogress : r.inProgress = s.tasks.inProgress) :
    BlocksKept (s.setFuture f (.released ⟨k, state, o⟩ (some x)) r) ↔
      (x ∈ s.tasks.inProgress → k = .connect) := by
  rw [blocksKept_setFuture hkept hkeeps, hprogress]
  simp only [Future.released, FutureState.task, Option.some.injEq, forall_eq', reduceCtorEq,
    or_self, imp_false]
  rw [← List.eq_nil_iff_forall_not_mem, blocks_eq_nil]

omit [DecidableEq F] [DecidableEq X] in
/-- The future that a condition on the drop or the register is about. -/
theorem inProgress_iff {p : Future X → Prop} (hf : s.future f = some fut)
    (hx : fut.state.task = some x) :
    (∀ gut, s.future f = some gut → InProgress s gut → p gut) ↔
      (x ∈ s.tasks.inProgress → p fut) := by
  constructor
  · exact fun h hmem => h fut hf ⟨x, hx, hmem⟩
  · rintro h gut hgut ⟨y, hy, hmem⟩
    obtain rfl : fut = gut := Option.some.inj (hf.symm.trans hgut)
    obtain rfl : x = y := Option.some.inj (hx.symm.trans hy)
    exact h hmem

theorem move_blocksKept {m : Move X T} {as : List (OverlappedTask.Act X T)} (h : Inv s)
    (hkept : BlocksKept s) (hf : s.future f = some fut)
    (hmove : Moves s.tasks.statusPending fut.kind fut.owner fut.state m fut' as)
    (hexec : (OverlappedTask.machine X T).exec s.tasks as = some r) :
    BlocksKept (s.setFuture f fut' r) ↔ KeepsBlocks s (.move f m) := by
  obtain ⟨hkeeps, hinv⟩ := inv_move h hf hmove hexec
  have hlive : fut'.state.Live → BlocksKept (s.setFuture f fut' r) := fun hl =>
    (blocksKept_setFuture hkept hkeeps).mpr fun _ _ _ b _ =>
      .inl (hinv.owned f fut' setFuture_self hl b)
  have hquiet : (∀ b ∈ as, b.Quiet) → r.inProgress = s.tasks.inProgress := fun hquiet =>
    OverlappedTask.inProgress_exec hquiet hexec
  obtain ⟨k, state, o⟩ := fut
  cases hmove with
  | pollBegin | submitted | storeFirst | store | poll | register | notReady =>
    exact ⟨fun _ => trivial, fun _ => hlive trivial⟩
  | pollFails =>
    refine ⟨fun _ => trivial, fun _ => (blocksKept_setFuture hkept hkeeps).mpr ?_⟩
    exact fun _ hx => by cases hx
  | dropInitial =>
    refine ⟨fun _ gut hgut => ?_, fun _ => (blocksKept_setFuture hkept hkeeps).mpr ?_⟩
    · obtain rfl := Option.some.inj (hf.symm.trans hgut)
      exact fun ⟨_, hx, _⟩ => by cases hx
    · exact fun _ hx => by cases hx
  | failed | completed =>
    refine ⟨fun _ => trivial, fun _ => ?_⟩
    have hprogress := hquiet (by simp [OverlappedTask.Act.Quiet])
    exact (blocksKept_released hkept hkeeps hprogress).mpr fun hmem =>
      absurd hmem (h.submitting f _ _ hf rfl)
  | ready hstatus =>
    refine ⟨fun _ => trivial, fun _ => ?_⟩
    have hprogress := hquiet (by simp [OverlappedTask.Act.Quiet])
    refine (blocksKept_released hkept hkeeps hprogress).mpr fun hmem => ?_
    simp [h.status _ hmem] at hstatus
  | @registerPanics x =>
    have hprogress := hquiet (by simp [OverlappedTask.Act.Quiet])
    have hcond : KeepsBlocks s (.move f (.register none)) ↔
        (x ∈ s.tasks.inProgress → k = .connect) := inProgress_iff hf rfl
    exact (blocksKept_released hkept hkeeps hprogress).trans hcond.symm
  | @dropFields x cancelled hleaks =>
    have hprogress := hquiet (by simp [OverlappedTask.Act.Quiet])
    have hcond : KeepsBlocks s (.move f (.drop cancelled)) ↔ (x ∈ s.tasks.inProgress →
        k = .connect ∨ k ≠ .accept ∧ cancelled = false) := inProgress_iff hf rfl
    rw [blocksKept_released hkept hkeeps hprogress, hcond]
    -- Without a `Drop` the future is an `Accept` or a `Connect`.
    rcases leaks_eq_none.mp hleaks with rfl | rfl <;> simp
  | @dropCancelled x leaks hleaks =>
    have hprogress := hquiet (by simp [OverlappedTask.Act.Quiet])
    have hcond : KeepsBlocks s (.move f (.drop true)) ↔ (x ∈ s.tasks.inProgress →
        k = .connect ∨ k ≠ .accept ∧ true = false) := inProgress_iff hf rfl
    rw [blocksKept_released hkept hkeeps hprogress, hcond]
    simp
  | @dropLeaking x leaks hleaks =>
    have hcond : KeepsBlocks s (.move f (.drop false)) ↔ (x ∈ s.tasks.inProgress →
        k = .connect ∨ k ≠ .accept ∧ false = false) := inProgress_iff hf rfl
    refine ⟨fun _ => hcond.mpr fun _ => .inr ⟨fun hk => ?_, rfl⟩, fun _ => ?_⟩
    · simp [leaks_eq_none.mpr (.inl hk)] at hleaks
    · refine (blocksKept_setFuture hkept hkeeps).mpr fun _ _ _ b hb => .inr ?_
      exact if_pos (leaks_eq_some hleaks ▸ hb)

theorem step_blocksKept (h : Inv s) (hkept : BlocksKept s) (hs : step s a = some t) :
    BlocksKept t ↔ KeepsBlocks s a := by
  cases step_cases hs with
  | create =>
    refine ⟨fun _ => trivial, fun _ => ?_⟩
    exact (blocksKept_setFuture hkept keeps_create).mpr fun _ _ _ _ _ => .inl rfl
  | move hf hmove hexec => exact move_blocksKept h hkept hf hmove hexec
  | port hport hstep =>
    refine ⟨fun _ => trivial, fun _ f fut hf ⟨x, hx, hmem⟩ => hkept f fut hf ⟨x, hx, ?_⟩⟩
    exact (port_step hport hstep).1.subset hmem

/-- The blocks of the operations in progress are kept throughout a run exactly when no future
with blocks goes away with its operation in progress, but for a failing cancellation. -/
theorem blocksKept_iff_keepsBlocks {as : List (Act F X T)}
    (hrun : (machine F X T).exec initial as = some s) :
    (machine F X T).Throughout BlocksKept initial as ↔
      (machine F X T).Every KeepsBlocks initial as :=
  Machine.throughout_iff_every
    (fun _ _ _ hreached hkept hs => step_blocksKept (reachable_inv hreached.reachable) hkept hs)
    (.init rfl) (fun _ _ hf => by cases hf) hrun

end Proofs

/-- A `RecvFrom` that is polled and then dropped, with a cancellation that fails; its operation
completes only after that. -/
def failedCancel : List (Act Unit Unit Unit) :=
  [.create () .recvFrom, .move () (.pollBegin () ()), .move () (.submit .pending),
    .move () .store, .move () .poll, .move () (.register (some ())), .move () .pollSocket,
    .move () .store, .move () (.drop false), .port (.complete ()), .port (.queue ()),
    .port (.dequeue ())]

theorem failedCancel_blocksKept : ∃ s,
    (machine Unit Unit Unit).exec initial failedCancel = some s ∧
      (machine Unit Unit Unit).Throughout BlocksKept initial failedCancel := by
  have hrun : (machine Unit Unit Unit).exec initial failedCancel = some _ := rfl
  refine ⟨_, hrun, (blocksKept_iff_keepsBlocks hrun).mpr ?_⟩
  refine .cons trivial rfl <| .cons trivial rfl <| .cons trivial rfl <| .cons trivial rfl <|
    .cons trivial rfl <| .cons trivial rfl <| .cons trivial rfl <| .cons trivial rfl <|
    .cons (fun fut hf _ => .inr ⟨?_, rfl⟩) rfl <| .cons trivial rfl <| .cons trivial rfl <|
    .cons trivial rfl trivial
  obtain rfl := Option.some.inj hf
  simp

/-- A `TcpRead` is dropped while it waits for data, and `CancelIoEx` succeeds. -/
def dropRead : List (Act Unit Unit Unit) :=
  [.create () .tcpRead, .move () (.pollBegin () ()), .move () (.submit .pending),
    .move () .store, .move () (.drop true)]

/-- The cancellation is only requested, and the kernel still has the buffer that was freed. -/
theorem pending_buffer_freed :
    (∃ s, (machine Unit Unit Unit).exec initial dropRead = some s ∧ ¬ BlocksKept s) ∧
    ¬ ∀ s, (machine Unit Unit Unit).Reachable s → BlocksKept s := by
  have hrun : ∃ s, (machine Unit Unit Unit).exec initial dropRead = some s ∧ ¬ BlocksKept s := by
    refine ⟨_, rfl, fun h => ?_⟩
    rcases h () _ rfl ⟨(), rfl, List.mem_singleton.mpr rfl⟩ .data (List.mem_singleton.mpr rfl)
      with h | h <;> cases h
  refine ⟨hrun, fun h => ?_⟩
  obtain ⟨s, hrun, hfreed⟩ := hrun
  exact hfreed (h s (Machine.reachable_of_exec rfl hrun))

end CompleteIo.OverlappedFuture
