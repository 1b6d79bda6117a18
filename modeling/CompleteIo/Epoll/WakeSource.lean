import CompleteIo.Epoll.SocketFutures
import CompleteIo.Epoll.InterestList

namespace CompleteIo.SocketFutures

open FuturesRegistration (ListInv)

variable {F ι T : Type*} {s s' : State F ι T} {f g : F} {x : ι} {task : T}

/-- Whatever is still to happen to the interest will notify the task, or it has happened since
the future's latest system call. -/
def LiveSource (s : State F ι T) (f : F) (task : T) : Prop :=
  ∃ x, s.interest f = some x ∧
    (s.reg.task x = some task ∧
        (s.reg.fired x = false ∧ x ∈ s.reg.ids ∨ s.reg.lock.notifying = some x) ∨
      task ∈ s.woken f)

@[simp] def FuturePc.Stores : FuturePc ι T → Prop
  | .parked _ | .check _ | .register _ => True
  | _ => False

@[simp] def FuturePc.Adds : FuturePc ι T → Prop
  | .addInterest _ | .adding _ _ => True
  | _ => False

/-- An interest that was pushed and is not stored yet. -/
structure AddingInv (s : State F ι T) (f : F) (task : T) (x : ι) : Prop where
  lock : s.reg.lock.newcomer = some x
  cell : s.reg.cell x = some ⟨some task, false⟩
  unstored : ∀ g, s.interest g ≠ some x
  alone : ∀ g t y, s.pc g = .adding t y → g = f

structure Inv (s : State F ι T) : Prop where
  reg : FuturesRegistration.Inv s.reg
  list : ListInv s.reg
  allocated : ∀ f x, s.interest f = some x → s.reg.cell x ≠ none
  owner : ∀ f g x, s.interest f = some x → s.interest g = some x → f = g
  adding : ∀ f task x, s.pc f = .adding task x → AddingInv s f task x
  stored : ∀ f, (s.pc f).Stores → s.interest f ≠ none
  unstored : ∀ f, (s.pc f).Adds → s.interest f = none
  -- Before its interest dies a future is not woken.
  quiet : ∀ f, (∀ x, s.interest f = some x → ¬ s.reg.Dead x) → s.woken f = []

/-- The two ways in which a parked future is sure to be notified, or to have been. -/
structure LiveInv (s : State F ι T) : Prop where
  parked : ∀ f task, s.pc f = .parked task → ∃ x, s.interest f = some x ∧
    (s.reg.task x = some task ∧ ¬ s.reg.Dead x ∨ task ∈ s.woken f)
  register : ∀ f task, s.pc f = .register task → ∃ x, s.interest f = some x ∧
    (¬ s.reg.Dead x ∨ task ∈ s.woken f)

theorem Inv.not_dead_iff (h : Inv s) (hx : s.interest f = some x) :
    ¬ s.reg.Dead x ↔
      s.reg.fired x = false ∧ x ∈ s.reg.ids ∨ s.reg.lock.notifying = some x := by
  rw [FuturesRegistration.State.Dead, not_and_or, not_not, Bool.not_eq_true]
  have hlisted := h.list.unfired x (h.allocated f x hx)
  exact or_congr_left ⟨fun hf => ⟨hf, hlisted hf⟩, fun hf => hf.1⟩

theorem LiveInv.liveSource (h : Inv s) (hlive : LiveInv s) (hpc : s.pc f = .parked task) :
    LiveSource s f task := by
  obtain ⟨x, hx, hsource⟩ := hlive.parked f task hpc
  exact ⟨x, hx, hsource.imp_left fun hnot => ⟨hnot.1, (h.not_dead_iff hx).mp hnot.2⟩⟩

theorem initial_inv : Inv (initial : State F ι T) where
  reg := .of_free rfl
  list := FuturesRegistration.initial_listInv
  allocated _ _ hx := by simp [initial] at hx
  owner _ _ _ hx := by simp [initial] at hx
  adding _ _ _ hpc := by simp [initial] at hpc
  stored _ hpc := by simp [initial] at hpc
  unstored _ _ := rfl
  quiet _ _ := rfl

theorem initial_liveInv : LiveInv (initial : State F ι T) where
  parked _ _ hpc := by simp [initial] at hpc
  register _ _ hpc := by simp [initial] at hpc

section SetPc

variable [DecidableEq F]

/-- The future goes to a point of its poll that is not `adding`. -/
theorem Inv.setPc (h : Inv s) {pc : FuturePc ι T} (hadding : ∀ task x, pc ≠ .adding task x)
    (hstores : pc.Stores → s.interest f ≠ none) (hadds : pc.Adds → s.interest f = none) :
    Inv (s.setPc f pc) := by
  refine ⟨h.reg, h.list, h.allocated, h.owner, fun g t y hg => ?_, fun g hg => ?_, fun g hg => ?_,
    h.quiet⟩
  · by_cases hgf : g = f
    · simp [State.setPc, hgf, hadding] at hg
    · simp only [State.setPc, Function.update_of_ne hgf] at hg
      obtain ⟨hlock, hcell, hunstored, halone⟩ := h.adding g t y hg
      refine ⟨hlock, hcell, hunstored, fun k t' z hk => ?_⟩
      by_cases hkf : k = f
      · simp [State.setPc, hkf, hadding] at hk
      · simp only [State.setPc, Function.update_of_ne hkf] at hk
        exact halone k t' z hk
  · by_cases hgf : g = f
    · subst hgf
      exact hstores (by simpa [State.setPc] using hg)
    · simp only [State.setPc, Function.update_of_ne hgf] at hg
      exact h.stored g hg
  · by_cases hgf : g = f
    · subst hgf
      exact hadds (by simpa [State.setPc] using hg)
    · simp only [State.setPc, Function.update_of_ne hgf] at hg
      exact h.unstored g hg

theorem LiveInv.setPc (h : LiveInv s) {pc : FuturePc ι T}
    (hparked : ∀ task, pc = .parked task → ∃ x, s.interest f = some x ∧
      (s.reg.task x = some task ∧ ¬ s.reg.Dead x ∨ task ∈ s.woken f))
    (hregister : ∀ task, pc = .register task → ∃ x, s.interest f = some x ∧
      (¬ s.reg.Dead x ∨ task ∈ s.woken f)) : LiveInv (s.setPc f pc) := by
  refine ⟨fun g t hg => ?_, fun g t hg => ?_⟩
  · by_cases hgf : g = f
    · subst hgf
      exact hparked t (by simpa [State.setPc] using hg)
    · simp only [State.setPc, Function.update_of_ne hgf] at hg
      exact h.parked g t hg
  · by_cases hgf : g = f
    · subst hgf
      exact hregister t (by simpa [State.setPc] using hg)
    · simp only [State.setPc, Function.update_of_ne hgf] at hg
      exact h.register g t hg

end SetPc

variable [DecidableEq F] [DecidableEq ι] {kind : F → FutureKind} {a : Act F ι T}
  {act : FuturesRegistration.Act ι T} {reg : FuturesRegistration.State ι T}

omit [DecidableEq F] in
theorem wake_of_ne (h : ∀ x, s.interest f = some x → s.reg.lock.notifying ≠ some x) :
    wake s f = s.woken f := by
  unfold wake
  split
  · rfl
  · rename_i x hx
    rw [if_neg fun hi => h x hi hx]

omit [DecidableEq F] in
theorem wake_self (hx : s.interest f = some x) (hnotify : s.reg.lock.notifying = some x) :
    wake s f = (s.reg.task x).toList ++ s.woken f := by
  rw [wake, hnotify]
  exact if_pos hx

omit [DecidableEq F] in
theorem mem_wake (h : task ∈ s.woken f) : task ∈ wake s f := by
  unfold wake
  repeat' split
  · exact h
  · exact List.mem_append_right _ h
  · exact h

omit [DecidableEq F] in
/-- A stored interest dies by its notification only. -/
theorem Inv.dead_iff (h : Inv s) (hs : FuturesRegistration.step s.reg act = some reg)
    (hx : s.interest f = some x) (hn : act = .notify → s.reg.lock.notifying ≠ some x) :
    reg.Dead x ↔ s.reg.Dead x :=
  FuturesRegistration.dead_step h.reg h.list hs (h.allocated f x hx) hn

omit [DecidableEq F] in
/-- A step that notifies nobody leaves the futures with live interests unwoken. -/
theorem Inv.unwoken (h : Inv s) (hs : FuturesRegistration.step s.reg act = some reg)
    (hne : act ≠ .notify) (hf : ∀ x, s.interest f = some x → ¬ reg.Dead x) : s.woken f = [] := by
  refine h.quiet f fun x hx => ?_
  rw [← h.dead_iff hs hx fun he => absurd he hne]
  exact hf x hx

omit [DecidableEq F] in
theorem Inv.turn (h : Inv s) (hs : FuturesRegistration.step s.reg act = some reg)
    (hturn : act.OfTurn) {woken : F → List T}
    (hquiet : ∀ f, (∀ x, s.interest f = some x → ¬ reg.Dead x) → woken f = []) :
    Inv { s with reg := reg, woken := woken } where
  reg := FuturesRegistration.step_inv h.reg hs
  list := FuturesRegistration.step_listInv h.reg h.list hs
  allocated f x hx := FuturesRegistration.cell_step hs (h.allocated f x hx)
  owner := h.owner
  adding g t y hg := by
    obtain ⟨hlock, hcell, hunstored, halone⟩ := h.adding g t y hg
    obtain ⟨hl, hc⟩ := FuturesRegistration.step_ofTurn hturn hs hlock
    exact ⟨hl ▸ hlock, hc ▸ hcell, hunstored, halone⟩
  stored := h.stored
  unstored := h.unstored
  quiet := hquiet

omit [DecidableEq F] in
theorem inv_turn (h : Inv s) (hturn : act.OfTurn) (hne : act ≠ .notify)
    (hs : FuturesRegistration.step s.reg act = some reg) : Inv { s with reg := reg } :=
  h.turn hs hturn fun _ hf => h.unwoken hs hne hf

omit [DecidableEq F] in
theorem inv_notify (h : Inv s) (hs : FuturesRegistration.step s.reg .notify = some reg) :
    Inv { s with reg := reg, woken := wake s } := by
  refine h.turn hs trivial fun f hf => ?_
  have hother : ∀ x, s.interest f = some x → s.reg.lock.notifying ≠ some x := fun x hx hn =>
    hf x hx (FuturesRegistration.dead_notify h.list hs hn)
  rw [wake_of_ne hother]
  refine h.quiet f fun x hx => ?_
  rw [← h.dead_iff hs hx fun _ => hother x hx]
  exact hf x hx

omit [DecidableEq ι] in
theorem inv_sysCall (h : Inv s) {r : SysResult} :
    Inv ({ s with woken := Function.update s.woken f [] }.setPc f
      (afterSysCall (kind f) (s.interest f) task r)) := by
  have hquiet : Inv { s with woken := Function.update s.woken f [] } := by
    refine ⟨h.reg, h.list, h.allocated, h.owner, fun g t y hg => ?_, h.stored, h.unstored,
      fun g hg => ?_⟩
    · exact ⟨(h.adding g t y hg).lock, (h.adding g t y hg).cell, (h.adding g t y hg).unstored,
        (h.adding g t y hg).alone⟩
    · by_cases hgf : g = f
      · simp [hgf]
      · simp only [Function.update_of_ne hgf]
        exact h.quiet g hg
  unfold afterSysCall
  apply hquiet.setPc
  all_goals
    repeat' split
    all_goals simp_all

/-- A step on the cell of one interest only. -/
theorem inv_register (h : Inv s) (hi : s.interest f = some x)
    (hs : FuturesRegistration.step s.reg (.register x task) = some reg) :
    Inv ({ s with reg := reg }.setPc f (.parked task)) := by
  have hreg : Inv { s with reg := reg } := by
    refine ⟨FuturesRegistration.step_inv h.reg hs, FuturesRegistration.step_listInv h.reg h.list hs,
      fun g y hy => FuturesRegistration.cell_step hs (h.allocated g y hy), h.owner,
      fun g t y hg => ?_, h.stored, h.unstored, fun g hg => ?_⟩
    · -- The newcomer is stored by nobody, and so it is not the interest that is registered.
      obtain ⟨hlock, hcell, hunstored, halone⟩ := h.adding g t y hg
      have hyx : y ≠ x := fun hyx => hunstored f (hyx ▸ hi)
      cases hs
      refine ⟨hlock, ?_, hunstored, halone⟩
      simpa [FuturesRegistration.State.updateCell, hyx] using hcell
    · exact h.unwoken hs (by simp) hg
  exact hreg.setPc (by simp) (fun _ => by simp [hi]) (by simp)

theorem inv_addBegin (h : Inv s) {events : EventMask} (hpc : s.pc f = .addInterest task)
    (hs : FuturesRegistration.step s.reg (.addBegin x events task) = some reg) :
    Inv ({ s with reg := reg }.setPc f (.adding task x)) := by
  cases FuturesRegistration.step_cases hs with
  | addBegin hlock hcell =>
    have hnone : ∀ g t y, s.pc g ≠ .adding t y := fun g t y hg => by
      have := (h.adding g t y hg).lock
      simp [hlock] at this
    -- Stored interests are allocated, and the new one was not.
    have hunstored : ∀ g, s.interest g ≠ some x := fun g hg => h.allocated g x hg hcell
    have hadding : ∀ g t y, (Function.update s.pc f (.adding task x)) g = .adding t y →
        g = f ∧ t = task ∧ y = x := by
      intro g t y hg
      by_cases hgf : g = f
      · subst hgf
        simp only [Function.update_self, FuturePc.adding.injEq] at hg
        exact ⟨rfl, hg.1.symm, hg.2.symm⟩
      · rw [Function.update_of_ne hgf] at hg
        exact absurd hg (hnone g t y)
    refine ⟨FuturesRegistration.step_inv h.reg hs, FuturesRegistration.step_listInv h.reg h.list hs,
      fun g y hy => FuturesRegistration.cell_step hs (h.allocated g y hy), h.owner,
      fun g t y hg => ?_, fun g hg => ?_, fun g hg => ?_, fun g hg => ?_⟩
    · obtain ⟨rfl, rfl, rfl⟩ := hadding g t y hg
      refine ⟨rfl, ?_, hunstored, fun k t' z hk => (hadding k t' z hk).1⟩
      simp [State.setPc, FuturesRegistration.addBegin]
    · by_cases hgf : g = f
      · simp [State.setPc, hgf] at hg
      · simp only [State.setPc, Function.update_of_ne hgf] at hg
        exact h.stored g hg
    · by_cases hgf : g = f
      · subst hgf
        exact h.unstored g (by simp [hpc])
      · simp only [State.setPc, Function.update_of_ne hgf] at hg
        exact h.unstored g hg
    · exact h.unwoken hs (by simp) hg

/-- The end of `add_interest`, after which nobody is adding. -/
theorem inv_addEnd (h : Inv s) {ok : Bool} (hpc : s.pc f = .adding task x)
    (hs : FuturesRegistration.step s.reg (.addEnd ok) = some reg) {interest : F → Option ι}
    {pc : FuturePc ι T} (hother : ∀ g, g ≠ f → interest g = s.interest g)
    (hself : interest f = none ∨ interest f = some x) (hadding : ∀ t y, pc ≠ .adding t y)
    (hadds : ¬ pc.Adds) (hstores : pc.Stores → interest f = some x) :
    Inv ({ s with reg := reg, interest := interest }.setPc f pc) := by
  obtain ⟨hlock, hcell, hunstored, halone⟩ := h.adding f task x hpc
  have hold : ∀ g y, interest g = some y → s.interest g = some y ∨ g = f ∧ y = x := by
    intro g y hg
    by_cases hgf : g = f
    · subst hgf
      rcases hself with hn | hx
      · simp [hn] at hg
      · exact .inr ⟨rfl, Option.some.inj (hg.symm.trans hx)⟩
    · exact .inl (hother g hgf ▸ hg)
  have hnew : ∀ g t y, (Function.update s.pc f pc) g ≠ .adding t y := by
    intro g t y hg
    by_cases hgf : g = f
    · subst hgf
      exact hadding t y (by simpa using hg)
    · rw [Function.update_of_ne hgf] at hg
      exact hgf (halone g t y hg)
  have hallocated : ∀ g y, interest g = some y → s.reg.cell y ≠ none := by
    intro g y hg
    rcases hold g y hg with hg | ⟨rfl, rfl⟩
    · exact h.allocated g y hg
    · simp [hcell]
  refine ⟨FuturesRegistration.step_inv h.reg hs, FuturesRegistration.step_listInv h.reg h.list hs,
    fun g y hg => FuturesRegistration.cell_step hs (hallocated g y hg), fun g k y hg hk => ?_,
    fun g t y hg => absurd hg (hnew g t y), fun g hg => ?_, fun g hg => ?_, fun g hg => ?_⟩
  · rcases hold g y hg with hg | ⟨hgf, hyx⟩ <;> rcases hold k y hk with hk | ⟨hkf, hyx'⟩
    · exact h.owner g k y hg hk
    -- One of the two is the newcomer, which nobody stored before.
    · exact absurd (hyx' ▸ hg) (hunstored g)
    · exact absurd (hyx ▸ hk) (hunstored k)
    · exact hgf.trans hkf.symm
  · by_cases hgf : g = f
    · subst hgf
      have := hstores (by simpa [State.setPc] using hg)
      simp [State.setPc, this]
    · simp only [State.setPc, Function.update_of_ne hgf] at hg
      simpa [State.setPc, hother g hgf] using h.stored g hg
  · by_cases hgf : g = f
    · subst hgf
      exact absurd (by simpa [State.setPc] using hg) hadds
    · simp only [State.setPc, Function.update_of_ne hgf] at hg
      simpa [State.setPc, hother g hgf] using h.unstored g hg
  · by_cases hgf : g = f
    · subst hgf
      have hnone := h.unstored g (by simp [hpc])
      exact h.quiet g fun y hy => by simp [hnone] at hy
    · refine h.unwoken hs (by simp) fun y hy => hg y ?_
      simpa [State.setPc, hother g hgf] using hy

theorem step_inv (h : Inv s) (hs : step kind s a = some s') : Inv s' := by
  cases step_cases hs with
  | turn hturn hne hreg => exact inv_turn h hturn hne hreg
  | notify hreg => exact inv_notify h hreg
  | poll => exact h.setPc (by simp) (by simp) (by simp)
  | pollStored hi => exact h.setPc (by simp) (fun _ => by simp [hi]) (by simp)
  | check hi =>
    apply h.setPc
    · intro t y
      split <;> simp
    · intro _
      simp [hi]
    · split <;> simp
  | sysCall hpc => exact inv_sysCall h
  | register hpc hi hreg => exact inv_register h hi hreg
  | addBegin hpc hreg => exact inv_addBegin h hpc hreg
  | addEnd hpc hreg =>
    exact inv_addEnd h hpc hreg (fun g hg => by simp [hg]) (.inr (by simp)) (by simp) (by simp)
      (fun _ => by simp)
  | @addFailed f _ _ _ _ hpc hreg =>
    have hnone := h.unstored f (by simp [hpc])
    exact inv_addEnd h hpc hreg (fun _ _ => rfl) (.inl hnone) (by simp) (by simp)
      (by simp)
  | drop => exact h.setPc (by simp) (by simp) (by simp)

theorem reachable_inv (h : (machine (T := T) (ι := ι) kind).Reachable s) : Inv s :=
  h.invariant (fun _ hs => hs ▸ initial_inv) fun _ _ _ _ hi _ hs => step_inv hi hs

end CompleteIo.SocketFutures
