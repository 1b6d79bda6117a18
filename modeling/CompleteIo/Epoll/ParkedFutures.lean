import CompleteIo.Epoll.WakeSource

namespace CompleteIo.SocketFutures

variable {F ι T : Type*} [DecidableEq F] [DecidableEq ι] {s s' : State F ι T} {f g : F} {x : ι}
  {task : T} {kind : F → FutureKind} {a : Act F ι T} {reg : FuturesRegistration.State ι T}

/-- No system call suspends a future on a dead interest, and no notification comes between a
future's look at `fired` and its registration for another task. -/
def WakesArrive (kind : F → FutureKind) (s : State F ι T) : Act F ι T → Prop
  | .sysCall f r => (kind f).future.suspends r = true →
      ∀ x, s.interest f = some x → ¬ s.reg.Dead x
  | .turn .notify => ∀ f task x, s.pc f = .register task → s.interest f = some x →
      s.reg.lock.notifying = some x → s.reg.task x = some task
  | _ => True

omit [DecidableEq F] [DecidableEq ι] in
/-- A step on the registration that changes nothing for the stored interests. -/
theorem LiveInv.setReg (h : LiveInv s)
    (htask : ∀ f task x, s.pc f = .parked task → s.interest f = some x →
      reg.task x = s.reg.task x)
    (hdead : ∀ f x, s.interest f = some x → (reg.Dead x ↔ s.reg.Dead x)) :
    LiveInv { s with reg := reg } where
  parked f task hpc := by
    obtain ⟨x, hx, hsource⟩ := h.parked f task hpc
    refine ⟨x, hx, ?_⟩
    simpa only [htask f task x hpc hx, hdead f x hx] using hsource
  register f task hpc := by
    obtain ⟨x, hx, hsource⟩ := h.register f task hpc
    exact ⟨x, hx, by simpa only [hdead f x hx] using hsource⟩

omit [DecidableEq F] [DecidableEq ι] in
/-- Only the futures that store an interest matter. -/
theorem LiveInv.of_stores (h : LiveInv s) (hpc : s'.pc = s.pc) (hreg : s'.reg = s.reg)
    (hsame : ∀ g, (s.pc g).Stores → s'.interest g = s.interest g ∧ s'.woken g = s.woken g) :
    LiveInv s' where
  parked f task hf := by
    rw [hpc] at hf
    obtain ⟨hi, hw⟩ := hsame f (by simp [hf])
    simpa only [hi, hw, hreg] using h.parked f task hf
  register f task hf := by
    rw [hpc] at hf
    obtain ⟨hi, hw⟩ := hsame f (by simp [hf])
    simpa only [hi, hw, hreg] using h.register f task hf

omit [DecidableEq F] in
theorem liveInv_turn (h : Inv s) (hlive : LiveInv s) {act : FuturesRegistration.Act ι T}
    (hturn : act.OfTurn) (hne : act ≠ .notify)
    (hs : FuturesRegistration.step s.reg act = some reg) : LiveInv { s with reg := reg } := by
  apply hlive.setReg
  · intro f task x _ hx
    apply FuturesRegistration.task_step hs (h.allocated f x hx)
    · rintro t rfl
      exact hturn
    · exact fun he => absurd he hne
  · intro f x hx
    exact h.dead_iff hs hx fun he => absurd he hne

omit [DecidableEq F] in
theorem liveInv_notify (h : Inv s) (hlive : LiveInv s)
    (hok : ∀ f task x, s.pc f = .register task → s.interest f = some x →
      s.reg.lock.notifying = some x → s.reg.task x = some task)
    (hs : FuturesRegistration.step s.reg .notify = some reg) :
    LiveInv { s with reg := reg, woken := wake s } := by
  refine ⟨fun f task hpc => ?_, fun f task hpc => ?_⟩
  · obtain ⟨x, hx, hsource⟩ := hlive.parked f task hpc
    refine ⟨x, hx, ?_⟩
    rcases hsource with ⟨htask, hdead⟩ | hw
    · by_cases hn : s.reg.lock.notifying = some x
      · right
        simp [wake_self hx hn, htask]
      · left
        rw [h.dead_iff hs hx fun _ => hn,
          FuturesRegistration.task_step hs (h.allocated f x hx) (by simp) fun _ => hn]
        exact ⟨htask, hdead⟩
    · exact .inr (mem_wake hw)
  · obtain ⟨x, hx, hsource⟩ := hlive.register f task hpc
    refine ⟨x, hx, ?_⟩
    rcases hsource with hdead | hw
    · by_cases hn : s.reg.lock.notifying = some x
      · -- This is the window between the look at `fired` and the registration.
        right
        simp [wake_self hx hn, hok f task x hpc hx hn]
      · left
        rw [h.dead_iff hs hx fun _ => hn]
        exact hdead
    · exact .inr (mem_wake hw)

omit [DecidableEq ι] in
theorem liveInv_sysCall (hlive : LiveInv s) {r : SysResult}
    (hok : (kind f).future.suspends r = true → ∀ x, s.interest f = some x → ¬ s.reg.Dead x)
    (hpc : s.pc f = .attempt task) :
    LiveInv ({ s with woken := Function.update s.woken f [] }.setPc f
      (afterSysCall (kind f) (s.interest f) task r)) := by
  have hreset : LiveInv { s with woken := Function.update s.woken f [] } := by
    refine hlive.of_stores rfl rfl fun g hg => ⟨rfl, Function.update_of_ne ?_ _ _⟩
    rintro rfl
    simp [hpc] at hg
  unfold afterSysCall
  apply hreset.setPc
  · intro t
    repeat' split
    all_goals simp
  · intro t ht
    split at ht
    · rename_i hsuspends
      split at ht
      · rename_i x hx
        exact ⟨x, hx, .inl (hok hsuspends x hx)⟩
      · cases ht
    · cases ht

theorem liveInv_register (h : Inv s) (hlive : LiveInv s) (hpc : s.pc f = .register task)
    (hi : s.interest f = some x)
    (hs : FuturesRegistration.step s.reg (.register x task) = some reg) :
    LiveInv ({ s with reg := reg }.setPc f (.parked task)) := by
  have hdead : ∀ g y, s.interest g = some y → (reg.Dead y ↔ s.reg.Dead y) := fun g y hy =>
    h.dead_iff hs hy (by simp)
  have hreg : LiveInv { s with reg := reg } := by
    refine hlive.setReg (fun g t y hg hy => ?_) hdead
    apply FuturesRegistration.task_step hs (h.allocated g y hy) _ (by simp)
    rintro t' he
    obtain ⟨rfl, -⟩ := FuturesRegistration.Act.register.inj he
    -- Only the future itself registers with the interest it stores.
    obtain rfl := h.owner f g x hi hy
    simp [hpc] at hg
  refine hreg.setPc (fun t ht => ?_) (by simp)
  obtain rfl := FuturePc.parked.inj ht
  obtain ⟨y, hy, hsource⟩ := hlive.register f task hpc
  obtain rfl : x = y := Option.some.inj (hi.symm.trans hy)
  refine ⟨x, hi, hsource.imp_left fun hnot => ⟨?_, (hdead f x hi).not.mpr hnot⟩⟩
  obtain ⟨c, hc⟩ := Option.ne_none_iff_exists'.mp (h.allocated f x hi)
  cases hs
  simp [FuturesRegistration.State.task, FuturesRegistration.State.updateCell, hc]

theorem liveInv_addEnd (h : Inv s) (hlive : LiveInv s) {ok : Bool}
    (hpc : s.pc f = .adding task x)
    (hs : FuturesRegistration.step s.reg (.addEnd ok) = some reg) :
    LiveInv ({ s with reg := reg, interest := Function.update s.interest f (some x) }.setPc f
      (.parked task)) := by
  have hcell := (h.adding f task x hpc).cell
  have hreg : LiveInv { s with reg := reg } := hlive.setReg
    (fun g t y _ hy => FuturesRegistration.task_step hs (h.allocated g y hy) (by simp) (by simp))
    fun g y hy => h.dead_iff hs hy (by simp)
  have hstored :
      LiveInv { s with reg := reg, interest := Function.update s.interest f (some x) } := by
    refine hreg.of_stores rfl rfl fun g hg => ⟨Function.update_of_ne ?_ _ _, rfl⟩
    rintro rfl
    simp [hpc] at hg
  refine hstored.setPc (fun t ht => ?_) (by simp)
  obtain rfl := FuturePc.parked.inj ht
  refine ⟨x, by simp, .inl ⟨?_, ?_⟩⟩
  · rw [FuturesRegistration.task_step hs (by simp [hcell]) (by simp) (by simp)]
    simp [FuturesRegistration.State.task, hcell]
  · rw [FuturesRegistration.dead_step h.reg h.list hs (by simp [hcell]) (by simp)]
    simp [FuturesRegistration.State.Dead, FuturesRegistration.State.fired, hcell]

theorem step_liveInv (h : Inv s) (hlive : LiveInv s) (hok : WakesArrive kind s a)
    (hs : step kind s a = some s') : LiveInv s' := by
  cases step_cases hs with
  | turn hturn hne hreg => exact liveInv_turn h hlive hturn hne hreg
  | notify hreg => exact liveInv_notify h hlive hok hreg
  | poll | pollStored | drop => exact hlive.setPc (by simp) (by simp)
  | @check f task x c hi hc =>
    apply hlive.setPc
    · intro t
      split <;> simp
    · intro t ht
      split at ht
      · cases ht
      · rename_i hfired
        refine ⟨x, hi, .inl fun hd => ?_⟩
        simp [FuturesRegistration.State.Dead, FuturesRegistration.State.fired, hc, hfired] at hd
  | sysCall hpc => exact liveInv_sysCall hlive hok hpc
  | register hpc hi hreg => exact liveInv_register h hlive hpc hi hreg
  | addBegin hpc hreg | addFailed hpc hreg =>
    have hsame := hlive.setReg
      (fun g t y _ hy =>
        FuturesRegistration.task_step hreg (h.allocated g y hy) (by simp) (by simp))
      fun g y hy => h.dead_iff hreg hy (by simp)
    exact hsame.setPc (by simp) (by simp)
  | addEnd hpc hreg => exact liveInv_addEnd h hlive hpc hreg

theorem reachable_liveSource
    (h : (machine (T := T) (ι := ι) kind).ReachesUnder (WakesArrive kind) s)
    (hpc : s.pc f = .parked task) : LiveSource s f task := by
  have hlive : LiveInv s := h.invariant (fun _ hs => hs ▸ initial_liveInv)
    fun _ _ _ hr hl hok hs => step_liveInv (reachable_inv hr.reachable) hl hok hs
  exact hlive.liveSource (reachable_inv h.reachable) hpc

/-- The registration of a suspended future with a dead interest reaches nobody. -/
theorem parked_without_source (hpc : s.pc f = .register task) (hi : s.interest f = some x)
    (hdead : s.reg.Dead x) (hwoken : task ∉ s.woken f) :
    ∃ s', step kind s (.register f) = some s' ∧ s'.pc f = .parked task ∧
      ¬ LiveSource s' f task := by
  refine ⟨{ s with reg := s.reg.updateCell x fun c => { c with task := some task } }.setPc f
    (.parked task), by simp [step, hpc, hi, FuturesRegistration.step], by simp [State.setPc], ?_⟩
  rintro ⟨y, hy, ⟨-, ⟨hfired, -⟩ | hnotify⟩ | hmem⟩
  · obtain rfl : x = y := Option.some.inj (hi.symm.trans hy)
    have hsame : (s.reg.updateCell x fun c => { c with task := some task }).fired x =
        s.reg.fired x := FuturesRegistration.fired_updateCell fun _ => rfl
    exact absurd (hfired.symm.trans (hsame.trans hdead.1)) (by simp)
  · obtain rfl : x = y := Option.some.inj (hi.symm.trans hy)
    exact hdead.2 hnotify
  · exact hwoken hmem

/-- A step that breaks the condition leaves a future about to register with a dead interest. -/
theorem dead_of_not_wakesArrive (h : Inv s) (hs : step kind s a = some s')
    (hok : ¬ WakesArrive kind s a) :
    ∃ f task x, s'.pc f = .register task ∧ s'.interest f = some x ∧ s'.reg.Dead x ∧
      task ∉ s'.woken f := by
  cases step_cases hs with
  | @sysCall f task r hpc =>
    simp only [WakesArrive, Classical.not_imp, not_forall, not_not] at hok
    obtain ⟨hsuspends, x, hx, hdead⟩ := hok
    exact ⟨f, task, x, by simp [State.setPc, afterSysCall, hsuspends, hx], hx, hdead,
      by simp [State.setPc]⟩
  | @notify reg hreg =>
    simp only [WakesArrive, Classical.not_imp, not_forall] at hok
    obtain ⟨f, task, x, hpc, hx, hnotify, htask⟩ := hok
    refine ⟨f, task, x, hpc, hx, FuturesRegistration.dead_notify h.list hreg hnotify, ?_⟩
    have hquiet := h.quiet f fun y hy => by
      obtain rfl : x = y := Option.some.inj (hx.symm.trans hy)
      exact fun hdead => hdead.2 hnotify
    simpa [wake_self hx hnotify, hquiet] using htask
  | @turn act _ _ hne =>
    cases act
    case notify => exact absurd rfl hne
    all_goals exact absurd trivial hok
  | _ => exact absurd trivial hok

/-- In a run whose steps all meet the condition every parked future has a live source, and after
any step that does not a future can be parked for good. -/
theorem liveSource_while_wakesArrive (kind : F → FutureKind) :
    (∀ s : State F ι T, (machine kind).ReachesUnder (WakesArrive kind) s →
      ∀ f task, s.pc f = .parked task → LiveSource s f task) ∧
    ∀ (s : State F ι T) a s', (machine kind).Reachable s → step kind s a = some s' →
      ¬ WakesArrive kind s a → ∃ f s'' task, step kind s' (.register f) = some s'' ∧
        s''.pc f = .parked task ∧ ¬ LiveSource s'' f task := by
  refine ⟨fun s h f task hpc => reachable_liveSource h hpc, fun s a s' h hs hok => ?_⟩
  obtain ⟨f, task, x, hpc, hx, hdead, hwoken⟩ :=
    dead_of_not_wakesArrive (reachable_inv h) hs hok
  obtain ⟨s'', hs'', hparked, hlost⟩ := parked_without_source hpc hx hdead hwoken
  exact ⟨f, s'', task, hs'', hparked, hlost⟩

/-- Two `Accept` futures are parked on clones of a listener. -/
def twoAccepts : List (Act Bool ℕ ℕ) :=
  [.poll false 0, .sysCall false .wouldBlock, .addBegin false 0, .addEnd false true,
    .poll true 1, .sysCall true .wouldBlock, .addBegin true 1, .addEnd true true]

theorem twoAccepts_liveSource : ∃ s, (machine fun _ : Bool => .accept).exec initial twoAccepts =
    some s ∧ s.interest true = some 1 ∧ LiveSource s true 1 := by
  have hnone : ∀ x : ℕ, none ≠ some x := by simp
  refine ⟨_, rfl, rfl, ?_⟩
  refine (liveSource_while_wakesArrive fun _ : Bool => .accept).1 _ ?_ true 1 rfl
  refine Machine.ReachesUnder.exec (.init rfl) ?_
    (show (machine fun _ : Bool => .accept).exec initial twoAccepts = some _ from rfl)
  exact .cons trivial rfl <| .cons (fun _ x hx => absurd hx (hnone x)) rfl <| .cons trivial rfl <|
    .cons trivial rfl <| .cons trivial rfl <| .cons (fun _ x hx => absurd hx (hnone x)) rfl <|
    .cons trivial rfl <| .cons trivial rfl trivial

def fireBoth : List (Act Bool ℕ ℕ) :=
  [.turn (.deliver 1), .turn (.handleBegin 1), .turn .test, .turn .storeFired, .turn .notify,
    .turn .remove, .turn .test, .turn .storeFired, .turn .notify, .turn .remove, .turn .test,
    .turn (.rearm true)]

/-- The first future takes the one connection, and the second finds none. -/
def takenByAnother : List (Act Bool ℕ ℕ) :=
  twoAccepts ++ fireBoth ++ [.poll false 0, .check false, .sysCall false .ok, .poll true 1,
    .check true, .sysCall true .wouldBlock, .register true]

/-- The second future is polled by another task while the event is handled. -/
def movedTask : List (Act Bool ℕ ℕ) :=
  twoAccepts ++ [.poll true 2, .check true] ++ fireBoth ++ [.register true]

theorem parked_on_dead_interest :
    (∃ s, (machine fun _ : Bool => .accept).exec initial takenByAnother = some s ∧
      s.pc true = .parked 1 ∧ ¬ LiveSource s true 1) ∧
    (∃ s, (machine fun _ : Bool => .accept).exec initial movedTask = some s ∧
      s.pc true = .parked 2 ∧ ¬ LiveSource s true 2) ∧
    ¬ ∀ s : State Bool ℕ ℕ, (machine fun _ => .accept).Reachable s →
      ∀ f task, s.pc f = .parked task → LiveSource s f task := by
  have hfirst : ∃ s, (machine fun _ : Bool => .accept).exec initial takenByAnother = some s ∧
      s.pc true = .parked 1 ∧ ¬ LiveSource s true 1 := by
    refine ⟨_, rfl, rfl, ?_⟩
    rintro ⟨x, hx, ⟨-, ⟨hfired, -⟩ | hnotify⟩ | hmem⟩
    · obtain rfl : 1 = x := Option.some.inj hx
      cases hfired
    · cases hnotify
    · cases hmem
  have hsecond : ∃ s, (machine fun _ : Bool => .accept).exec initial movedTask = some s ∧
      s.pc true = .parked 2 ∧ ¬ LiveSource s true 2 := by
    refine ⟨_, rfl, rfl, ?_⟩
    rintro ⟨x, hx, ⟨-, ⟨hfired, -⟩ | hnotify⟩ | hmem⟩
    · obtain rfl : 1 = x := Option.some.inj hx
      cases hfired
    · cases hnotify
    · exact absurd hmem (by decide : 2 ∉ [1])
  refine ⟨hfirst, hsecond, fun h => ?_⟩
  obtain ⟨s, hrun, hpc, hlost⟩ := hfirst
  exact hlost (h s (Machine.reachable_of_exec rfl hrun) true 1 hpc)

def CtlSucceeds (s : State F ι T) : Act F ι T → Prop
  | .turn a => FuturesRegistration.CtlSucceeds s.reg a
  | .addEnd _ ok => ok = true
  | _ => True

/-- The registration under the futures runs as a registration by itself does. -/
theorem reg_reachesUnder (h : (machine (T := T) (ι := ι) kind).ReachesUnder CtlSucceeds s) :
    (FuturesRegistration.machine ι T).ReachesUnder FuturesRegistration.CtlSucceeds s.reg := by
  have hsim := h.simulate (N := FuturesRegistration.machine ι T) (R := fun s r => s.reg = r)
    (q := FuturesRegistration.CtlSucceeds) ?_ ?_
  · obtain ⟨r, hr, rfl⟩ := hsim
    exact hr
  · intro s hs
    exact ⟨_, rfl, hs ▸ rfl⟩
  · rintro s a s' - - rfl hok hs
    change _ ∨ ∃ b r, _ ∧ FuturesRegistration.step s.reg b = some r ∧ _ = r
    cases step_cases hs with
    | turn _ _ hreg | notify hreg | addEnd _ hreg | addFailed _ hreg =>
      refine .inr ⟨_, _, ?_, hreg, rfl⟩
      exact hok
    | register _ _ hreg | addBegin _ hreg =>
      refine .inr ⟨_, _, ?_, hreg, rfl⟩
      trivial
    | poll | pollStored | check | sysCall | drop => exact .inl rfl

end CompleteIo.SocketFutures
