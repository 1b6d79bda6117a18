import CompleteIo.Iocp.PendingBlocks

namespace CompleteIo.OverlappedFuture

variable {F X T : Type*}

def Held (s : State F X T) (x : X) : Prop :=
  ∃ f fut, s.future f = some fut ∧ fut.state.Live ∧ fut.state.task = some x

def Submitting (s : State F X T) (x : X) : Prop :=
  ∃ f fut, s.future f = some fut ∧ fut.state = .submitting x

/-- The operation can still transfer something. -/
def Untransferred (s : State F X T) (x : X) : Prop :=
  s.tasks.count x = none ∨ Submitting s x ∨ x ∈ s.tasks.inProgress

/-- What can become of an operation. -/
inductive Fate (X : Type*)
  | transfers (x : X)
  -- It completes inside of the poll that submits it, which returns the result.
  | completes (x : X)
  | returns (x : X)
  | abandons (x : X)

def moveFate (status : X → Bool) : FutureState X → Move X T → Option (Fate X)
  | .submitting x, .submit .completed => some (.completes x)
  | .registered x, .pollSocket => if status x then none else some (.returns x)
  | .polling x, .register none | .pending x, .drop _ => some (.abandons x)
  | _, _ => none

def fate (s : State F X T) : Act F X T → Option (Fate X)
  | .port (.complete x) => some (.transfers x)
  | .move f m => (s.future f).bind fun fut => moveFate s.tasks.statusPending fut.state m
  | _ => none

/-- What a step with a fate does to the operations; only a first poll makes one. -/
inductive Effect (s t : State F X T) (a : Act F X T) : Option (Fate X) → Prop
  | none (hback : ∀ y, Held t y →
        Held s y ∨ s.tasks.count y = none ∧ ∃ f task, a = .move f (.pollBegin y task))
      (hheld : ∀ y, Held s y → Held t y ∨ Submitting s y)
      (hprogress : ∀ y ∈ t.tasks.inProgress, y ∈ s.tasks.inProgress ∨ Held t y) :
      Effect s t a none
  | transfers {x : X} (hx : x ∈ s.tasks.inProgress) (hdone : ¬ Untransferred t x)
      (hheld : ∀ y, Held t y ↔ Held s y) : Effect s t a (some (.transfers x))
  | completes {x : X} (hx : Submitting s x) (hdone : ¬ Untransferred t x)
      (hheld : ∀ y, Held t y ↔ Held s y ∧ y ≠ x) : Effect s t a (some (.completes x))
  | returns {x : X} (hx : Held s x) (hdone : x ∉ t.tasks.inProgress)
      (hheld : ∀ y, Held t y ↔ Held s y ∧ y ≠ x) : Effect s t a (some (.returns x))
  | abandons {x : X} (hx : Held s x) (hheld : ∀ y, Held t y ↔ Held s y ∧ y ≠ x) :
      Effect s t a (some (.abandons x))

variable [DecidableEq F] [DecidableEq X] {s t : State F X T} {a : Act F X T} {f g : F}
  {fut fut' gut : Future X} {x y : X} {r : OverlappedTask.State X T}

omit [DecidableEq F] [DecidableEq X] in
theorem Submitting.held (h : Submitting s x) : Held s x := by
  obtain ⟨f, fut, hf, hstate⟩ := h
  exact ⟨f, fut, hf, by rw [hstate]; trivial, by rw [hstate]; rfl⟩

/-- After a move the future itself is the only one that can hold another operation than before. -/
theorem held_setFuture (h : Inv s) (hf : s.future f = some fut) :
    Held (s.setFuture f fut' r) y ↔
      fut'.state.Live ∧ fut'.state.task = some y ∨ Held s y ∧ fut.state.task ≠ some y := by
  constructor
  · rintro ⟨g, gut, hg, hlive, hy⟩
    by_cases hgf : g = f
    · subst hgf
      obtain rfl := Option.some.inj (setFuture_self.symm.trans hg)
      exact .inl ⟨hlive, hy⟩
    · rw [setFuture_other hgf] at hg
      exact .inr ⟨⟨g, gut, hg, hlive, hy⟩, fun hfut => hgf (h.unique g f gut fut y hg hf hy hfut)⟩
  · rintro (⟨hlive, hy⟩ | ⟨⟨g, gut, hg, hlive, hy⟩, hne⟩)
    · exact ⟨f, fut', setFuture_self, hlive, hy⟩
    · have hgf : g ≠ f := by
        rintro rfl
        exact hne (by rwa [Option.some.inj (hf.symm.trans hg)])
      exact ⟨g, gut, (setFuture_other hgf).trans hg, hlive, hy⟩

/-- A move that keeps the operation of its future, if there is one. -/
theorem held_same (h : Inv s) (hf : s.future f = some fut)
    (htask : fut'.state.task = fut.state.task) (hlive : fut.state.Live) (hlive' : fut'.state.Live) :
    Held (s.setFuture f fut' r) y ↔ Held s y := by
  rw [held_setFuture h hf, htask]
  constructor
  · rintro (⟨-, hy⟩ | ⟨hy, -⟩)
    · exact ⟨f, fut, hf, hlive, hy⟩
    · exact hy
  · exact fun hy => (em (fut.state.task = some y)).imp (⟨hlive', ·⟩) (⟨hy, ·⟩)

/-- A move with which the future ends. -/
theorem held_ended (h : Inv s) (hf : s.future f = some fut) (htask : fut.state.task = some x)
    (hended : ¬ fut'.state.Live) : Held (s.setFuture f fut' r) y ↔ Held s y ∧ y ≠ x := by
  rw [held_setFuture h hf, htask]
  constructor
  · rintro (⟨hlive, -⟩ | ⟨hy, hne⟩)
    · exact absurd hlive hended
    · exact ⟨hy, fun hyx => hne (congrArg some hyx.symm)⟩
  · exact fun ⟨hy, hne⟩ => .inr ⟨hy, fun hxy => hne (Option.some.inj hxy).symm⟩

omit [DecidableEq X] in
theorem held_create {k : Kind} (hf : s.future f = none) :
    Held (s.setFuture f ⟨k, .initial, fun _ => .future⟩ s.tasks) y ↔ Held s y := by
  constructor
  · rintro ⟨g, gut, hg, hlive, hy⟩
    by_cases hgf : g = f
    · subst hgf
      obtain rfl := Option.some.inj (setFuture_self.symm.trans hg)
      cases hy
    · exact ⟨g, gut, (setFuture_other hgf).symm.trans hg, hlive, hy⟩
  · rintro ⟨g, gut, hg, hlive, hy⟩
    have hgf : g ≠ f := by
      rintro rfl
      simp [hf] at hg
    exact ⟨g, gut, (setFuture_other hgf).trans hg, hlive, hy⟩

omit [DecidableEq X] in
theorem submitting_setFuture (hy : Submitting (s.setFuture f fut' r) y) :
    fut'.state = .submitting y ∨ Submitting s y := by
  obtain ⟨g, gut, hg, hstate⟩ := hy
  by_cases hgf : g = f
  · subst hgf
    obtain rfl := Option.some.inj (setFuture_self.symm.trans hg)
    exact .inl hstate
  · exact .inr ⟨g, gut, (setFuture_other hgf).symm.trans hg, hstate⟩

/-- Only the poll that submits an operation begins one. -/
theorem inProgress_move {m : Move X T} {as : List (OverlappedTask.Act X T)} (h : Inv s)
    (hf : s.future f = some fut)
    (hmove : Moves s.tasks.statusPending fut.kind fut.owner fut.state m fut' as)
    (hexec : (OverlappedTask.machine X T).exec s.tasks as = some r) (hy : y ∈ r.inProgress) :
    y ∈ s.tasks.inProgress ∨ fut.state = .submitting y ∧ fut'.state = .submitted y := by
  have hkeeps := (inv_move h hf hmove hexec).1
  have hquiet : (∀ b ∈ as, b.Quiet) → r.inProgress = s.tasks.inProgress := fun hquiet =>
    OverlappedTask.inProgress_exec hquiet hexec
  obtain ⟨k, state, o⟩ := fut
  cases hmove with
  | @submitted x =>
    rcases hkeeps.progress y hy with hy | hy
    · exact .inl hy
    · obtain rfl : x = y := Option.some.inj hy
      exact .inr ⟨rfl, rfl⟩
  | _ =>
    rw [hquiet (by simp [OverlappedTask.Act.Quiet])] at hy
    exact .inl hy

omit [DecidableEq F] in
/-- A future that is submitting after a move has just made its task. -/
theorem fresh_of_submitting {m : Move X T} {as : List (OverlappedTask.Act X T)}
    (hmove : Moves s.tasks.statusPending fut.kind fut.owner fut.state m fut' as)
    (hexec : (OverlappedTask.machine X T).exec s.tasks as = some r)
    (hstate : fut'.state = .submitting y) : s.tasks.count y = none := by
  obtain ⟨k, state, o⟩ := fut
  cases hmove with
  | @pollBegin x task =>
    obtain rfl : x = y := FutureState.submitting.inj hstate
    obtain ⟨u, hnew, -⟩ := Option.bind_eq_some_iff.mp hexec
    exact (Option.ite_none_right_eq_some.mp hnew).1
  | _ => cases hstate

/-- Whatever has transferred once will not do so again. -/
theorem untransferred_step (h : Inv s) (hs : step s a = some t) (hy : Untransferred t y) :
    Untransferred s y := by
  cases step_cases hs with
  | create =>
    rcases hy with hy | hy | hy
    · exact .inl hy
    · rcases submitting_setFuture hy with hstate | hy
      · cases hstate
      · exact .inr (.inl hy)
    · exact .inr (.inr hy)
  | move hf hmove hexec =>
    rcases hy with hy | hy | hy
    · exact .inl (of_not_not fun hne => (inv_move h hf hmove hexec).1.known y hne hy)
    · rcases submitting_setFuture hy with hstate | hy
      · exact .inl (fresh_of_submitting hmove hexec hstate)
      · exact .inr (.inl hy)
    · rcases inProgress_move h hf hmove hexec hy with hy | ⟨hstate, -⟩
      · exact .inr (.inr hy)
      · exact .inr (.inl ⟨_, _, hf, hstate⟩)
  | port hport hstep =>
    rcases hy with hy | hy | hy
    · exact .inl (of_not_not fun hne => OverlappedTask.count_step hstep hne hy)
    · exact .inr (.inl hy)
    · exact .inr (.inr ((port_step hport hstep).1.subset hy))

omit [DecidableEq F] [DecidableEq X] in
theorem effect_same (hheld : ∀ y, Held t y ↔ Held s y)
    (hprogress : ∀ y ∈ t.tasks.inProgress, y ∈ s.tasks.inProgress ∨ Submitting s y) :
    Effect s t a none :=
  .none (fun y hy => .inl ((hheld y).mp hy)) (fun y hy => .inl ((hheld y).mpr hy))
    fun y hy => (hprogress y hy).imp_right fun hy => (hheld y).mpr hy.held

/-- An operation whose submission has ended with a result does not transfer anything any more. -/
theorem transferred_of_completed (h : Inv s) (hf : s.future f = some fut)
    (hstate : fut.state = .submitting x) (hcount : r.count x ≠ none)
    (hprogress : r.inProgress = s.tasks.inProgress)
    (hheld : ¬ Held (s.setFuture f fut' r) x) : ¬ Untransferred (s.setFuture f fut' r) x := by
  rintro (hx | hx | hx)
  · exact hcount hx
  · exact hheld hx.held
  · exact h.submitting f fut x hf hstate (hprogress ▸ hx)

/-- What a move does to the operations, by its fate. -/
theorem move_effect {m : Move X T} {as : List (OverlappedTask.Act X T)} (h : Inv s)
    (hf : s.future f = some fut)
    (hmove : Moves s.tasks.statusPending fut.kind fut.owner fut.state m fut' as)
    (hexec : (OverlappedTask.machine X T).exec s.tasks as = some r) :
    Effect s (s.setFuture f fut' r) (.move f m)
      (moveFate s.tasks.statusPending fut.state m) := by
  have hsame : fut'.state.task = fut.state.task → fut.state.Live → fut'.state.Live →
      ∀ y, Held (s.setFuture f fut' r) y ↔ Held s y :=
    fun htask hlive hlive' _ => held_same h hf htask hlive hlive'
  have hended : ∀ x, fut.state.task = some x → ¬ fut'.state.Live →
      ∀ y, Held (s.setFuture f fut' r) y ↔ Held s y ∧ y ≠ x :=
    fun _ htask hended _ => held_ended h hf htask hended
  have hprogress : ∀ y ∈ r.inProgress, y ∈ s.tasks.inProgress ∨ Submitting s y := fun y hy =>
    (inProgress_move h hf hmove hexec hy).imp_right fun hy => ⟨f, fut, hf, hy.1⟩
  have hquiet : (∀ b ∈ as, b.Quiet) → r.inProgress = s.tasks.inProgress := fun hquiet =>
    OverlappedTask.inProgress_exec hquiet hexec
  have hfresh := fun y hstate => fresh_of_submitting (y := y) hmove hexec hstate
  have hheld : ∀ y, Held (s.setFuture f fut' r) y ↔
      fut'.state.Live ∧ fut'.state.task = some y ∨ Held s y ∧ fut.state.task ≠ some y :=
    fun _ => held_setFuture h hf
  have hcount := fun y => OverlappedTask.count_exec (y := y) hexec
  obtain ⟨k, state, o⟩ := fut
  cases hmove with
  | @pollBegin x task =>
    refine .none (fun y hy => ?_) (fun y hy => .inl ((hheld y).mpr (.inr ⟨hy, nofun⟩))) fun y hy =>
      .inl ?_
    · rcases (hheld y).mp hy with ⟨-, hxy⟩ | ⟨hy, -⟩
      · obtain rfl : x = y := Option.some.inj hxy
        exact .inr ⟨hfresh x rfl, f, task, rfl⟩
      · exact .inl hy
    · exact hquiet (by simp [OverlappedTask.Act.Quiet]) ▸ hy
  | submitted | storeFirst | store | poll | register =>
    exact effect_same (hsame rfl trivial trivial) hprogress
  | notReady hstatus =>
    rw [moveFate, if_pos hstatus]
    exact effect_same (hsame rfl trivial trivial) hprogress
  | pollFails | dropInitial =>
    refine effect_same (fun y => ?_) hprogress
    rw [hheld]
    simp [Future.released]
  | @failed x =>
    have hended := hended x rfl id
    refine .none (fun y hy => .inl ((hended y).mp hy).1) (fun y hy => ?_) fun y hy => .inl ?_
    · by_cases hyx : y = x
      · exact .inr ⟨f, _, hf, hyx ▸ rfl⟩
      · exact .inl ((hended y).mpr ⟨hy, hyx⟩)
    · exact hquiet (by simp [OverlappedTask.Act.Quiet]) ▸ hy
  | @completed x =>
    have hended := hended x rfl id
    refine .completes ⟨f, _, hf, rfl⟩ (transferred_of_completed h hf rfl ?_ ?_ ?_) hended
    · exact hcount x (h.known f _ x hf rfl)
    · exact hquiet (by simp [OverlappedTask.Act.Quiet])
    · exact fun hx => ((hended x).mp hx).2 rfl
  | @ready x hstatus =>
    rw [moveFate, if_neg (by simp [hstatus])]
    refine .returns ⟨f, _, hf, trivial, rfl⟩ (fun hx => ?_) (hended x rfl id)
    have hx : x ∈ s.tasks.inProgress := hquiet (by simp [OverlappedTask.Act.Quiet]) ▸ hx
    simp [h.status x hx] at hstatus
  | @registerPanics x | @dropFields x | @dropCancelled x | @dropLeaking x =>
    exact .abandons ⟨f, _, hf, trivial, rfl⟩ (hended x rfl id)

theorem inProgress_step (h : Inv s) (hs : step s a = some t) (hy : y ∈ t.tasks.inProgress) :
    y ∈ s.tasks.inProgress ∨ Submitting s y := by
  cases step_cases hs with
  | create => exact .inl hy
  | move hf hmove hexec =>
    exact (inProgress_move h hf hmove hexec hy).imp_right fun hy => ⟨_, _, hf, hy.1⟩
  | port hport hstep => exact .inl ((port_step hport hstep).1.subset hy)

theorem known_step (h : Inv s) (hs : step s a = some t) (hy : s.tasks.count y ≠ none) :
    t.tasks.count y ≠ none := by
  cases step_cases hs with
  | create => exact hy
  | move hf hmove hexec => exact (inv_move h hf hmove hexec).1.known y hy
  | port hport hstep => exact OverlappedTask.count_step hstep hy

/-- What becomes of the operations in any step. -/
theorem step_effect (h : Inv s) (hs : step s a = some t) :
    Effect s t a (fate s a) := by
  cases step_cases hs with
  | @create f k hf => exact effect_same (fun y => held_create hf) fun y hy => .inl hy
  | @move f fut fut' m as r hf hmove hexec =>
    have hfate : fate s (.move f m) = moveFate s.tasks.statusPending fut.state m := by
      simp only [fate, hf, Option.bind_some]
    rw [hfate]
    exact move_effect h hf hmove hexec
  | @port b r hport hstep =>
    have hsub := (port_step hport hstep).1
    cases b with
    | complete x =>
      have hcomplete : OverlappedTask.Step s.tasks (.complete x) r :=
        OverlappedTask.step_cases hstep
      cases hcomplete with
      | complete hx =>
        refine .transfers hx ?_ fun y => Iff.rfl
        rintro (hnone | ⟨g, gut, hg, hstate⟩ | hmem)
        · exact h.tasks.counted.fresh hnone (mem_refs_of_inProgress hx)
        · exact h.submitting g gut x hg hstate hx
        · exact h.nodup.not_mem_erase hmem
    | _ => exact effect_same (fun y => Iff.rfl) fun y hy => .inl (hsub.subset hy)

end CompleteIo.OverlappedFuture
