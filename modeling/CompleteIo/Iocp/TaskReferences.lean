import CompleteIo.Iocp.PendingBlocks

namespace CompleteIo.OverlappedTask

variable {X T : Type*}

/-- The `OverlappedTask` values that an action makes. -/
def Act.makes : Act X T → List X
  | .new x _ | .clone x => [x]
  | _ => []

/-- The values that it drops, or moves into `for_operation`. -/
def Act.ends : Act X T → List X
  | .forOperation x | .cancelSocket x true | .drop x => [x]
  | _ => []

def Act.calls : Act X T → List X
  | .forOperation x => [x]
  | _ => []

def Act.submits : Act X T → List X
  | .submit x _ => [x]
  | _ => []

def Act.handsOver : Act X T → List X
  | .submit x .completed | .submit x .pending => [x]
  | _ => []

variable [DecidableEq X] {s t : State X T} {a : Act X T} {y : X}

theorem handles_step (hs : step s a = some t) :
    t.handles.count y + a.ends.count y = s.handles.count y + a.makes.count y := by
  cases step_cases hs with
  | forOperation hx | cancelled hx | drop hx => exact count_erase_add hx y
  | _ => simp [new, handOver, releaseCount, Act.ends, Act.makes, List.count_cons]

theorem submitting_step (hs : step s a = some t) :
    t.submitting.count y + a.submits.count y = s.submitting.count y + a.calls.count y := by
  cases step_cases hs with
  | failed hx | completed hx | pending hx => exact count_erase_add hx y
  | _ => simp [new, releaseCount, Act.calls, Act.submits, List.count_cons]

theorem handedOver_add_step (hs : step s a = some t) :
    t.handedOver y = s.handedOver y + a.handsOver.count y := by
  cases step_cases hs with
  | @completed x | @pending x =>
    by_cases hyx : y = x
    · simp [hyx, handOver, Act.handsOver]
    · simp [handOver, Act.handsOver, hyx, Ne.symm hyx]
  | _ => rfl

theorem known_step (hs : step s a = some t) (hy : t.count y ≠ none) :
    s.count y ≠ none ∨ ∃ task, a = .new y task := by
  cases step_cases hs with
  | @new x task =>
    by_cases hyx : y = x
    · exact .inr ⟨task, by rw [hyx]⟩
    · exact .inl (by simpa [new, hyx] using hy)
  | clone | failed | cancelled | drop | release => exact .inl (modifyCount_ne_none.mp hy)
  | _ => exact .inl hy

section Exec

variable {as : List (Act X T)} (hrun : (machine X T).exec s as = some t)
include hrun

theorem handles_exec : t.handles.count y + (as.map fun a => a.ends.count y).sum =
    s.handles.count y + (as.map fun a => a.makes.count y).sum :=
  Machine.exec_sum (·.handles.count y) _ _ (fun _ _ _ hs => handles_step hs) hrun

theorem submitting_exec : t.submitting.count y + (as.map fun a => a.submits.count y).sum =
    s.submitting.count y + (as.map fun a => a.calls.count y).sum :=
  Machine.exec_sum (·.submitting.count y) _ _ (fun _ _ _ hs => submitting_step hs) hrun

theorem handedOver_exec :
    t.handedOver y = s.handedOver y + (as.map fun a => a.handsOver.count y).sum := by
  have hsum := Machine.exec_sum (·.handedOver y) _ (fun _ => 0)
    (fun _ _ _ hs => handedOver_add_step hs) hrun
  simpa using hsum

theorem known_exec (hy : t.count y ≠ none) :
    s.count y ≠ none ∨ ∃ task, .new y task ∈ as := by
  by_contra hno
  obtain ⟨hunknown, hnew⟩ := not_or.mp hno
  refine hy (Machine.exec_invariant (I := fun u => u.count y = none)
    (q := fun _ a => ∀ task, a ≠ .new y task) (not_not.mp hunknown) (fun u a v hu ha hs => ?_)
    (Machine.every_of_forall fun _ a ha task he => hnew ⟨task, by rwa [← he]⟩) hrun)
  by_contra hv
  exact (known_step hs hv).elim (absurd hu ·) fun ⟨task, he⟩ => ha task he

end Exec

end CompleteIo.OverlappedTask

namespace CompleteIo.OverlappedFuture

variable {F X T : Type*}

/-- How many `OverlappedTask` values the future has, in its state or on the stack of its poll. -/
@[simp] def FutureState.values : FutureState X → ℕ
  | .initial | .none _ => 0
  | .submitting _ | .submitted _ | .pending _ | .polling _ | .registered _ | .storing _ => 1

/-- How many calls of `for_operation` it is in. -/
@[simp] def FutureState.calls : FutureState X → ℕ
  | .submitting _ => 1
  | _ => 0

/-- Something has a use for the task: a future that has not come to its end, the port, or a
dispatch in `poll_iocp`. -/
def Needed (s : State F X T) (x : X) : Prop :=
  (∃ f fut, s.future f = some fut ∧ fut.state.Live ∧ fut.state.task = some x) ∨
    x ∈ s.tasks.outstanding ∨ x ∈ s.tasks.dequeued ∨ x ∈ s.tasks.notified

/-- What the references to one `_OverlappedTask` amount to. -/
structure Balanced [DecidableEq X] (s : State F X T) (x : X) : Prop where
  allocated : Needed s x → ∃ c, s.tasks.count x = some c ∧ c.Alive
  reclaimed : ¬ Needed s x → ∀ c, s.tasks.count x = some c → c.Reclaimed
  -- Each `Arc::from_raw` takes back what one successful `for_operation` handed over.
  handedOver : s.tasks.handedOver x = s.tasks.consumed x + s.tasks.outstanding.count x
  handedOver_once : s.tasks.handedOver x ≤ 1

/-- Each task belongs to a future, which accounts for all values of it. -/
structure Accounted [DecidableEq X] (s : State F X T) : Prop where
  made : ∀ x, s.tasks.count x ≠ none →
    ∃ f fut, s.future f = some fut ∧ fut.state.task = some x
  values : ∀ f fut x, s.future f = some fut → fut.state.task = some x →
    s.tasks.handles.count x = fut.state.values
  calls : ∀ f fut x, s.future f = some fut → fut.state.task = some x →
    s.tasks.submitting.count x = fut.state.calls
  once : ∀ f fut x, s.future f = some fut → fut.state.task = some x →
    s.tasks.handedOver x + fut.state.calls ≤ 1
  unmade : ∀ x, s.tasks.count x = none → s.tasks.handedOver x = 0

section Proofs

variable [DecidableEq X] {s t : State F X T} {f g : F} {fut fut' gut : Future X} {x y : X}
  {r : OverlappedTask.State X T} {m : Move X T} {as : List (OverlappedTask.Act X T)}

def FutureState.valuesOf (state : FutureState X) (y : X) : ℕ :=
  if state.task = some y then state.values else 0

def FutureState.callsOf (state : FutureState X) (y : X) : ℕ :=
  if state.task = some y then state.calls else 0

omit [DecidableEq X] in
theorem task_ne_none {state : FutureState X} (h : state.task = some y) : state.task ≠ none :=
  fun hnone => by cases hnone.symm.trans h

section Own

variable {state : FutureState X}

omit [DecidableEq X] in
theorem live_of_values (h : state.values ≠ 0 ∨ state.calls ≠ 0) : state.Live := by
  cases state <;> simp_all

omit [DecidableEq X] in
theorem values_of_live (hlive : state.Live) (h : state.task = some y) : state.values = 1 := by
  cases state <;> simp_all

theorem valuesOf_own (h : state.task = some y) : state.valuesOf y = state.values := if_pos h

theorem valuesOf_other (h : state.task ≠ some y) : state.valuesOf y = 0 := if_neg h

theorem callsOf_own (h : state.task = some y) : state.callsOf y = state.calls := if_pos h

theorem callsOf_other (h : state.task ≠ some y) : state.callsOf y = 0 := if_neg h

end Own

/-- A move passes on the values of its own task and of no other. -/
theorem moves_values {status : X → Bool} {k : Kind} {o : Block → Owner} {state : FutureState X}
    (hmove : Moves status k o state m fut' as)
    (hexec : (OverlappedTask.machine X T).exec s.tasks as = some r) (y : X) :
    r.handles.count y + state.valuesOf y = s.tasks.handles.count y + fut'.state.valuesOf y := by
  have hsum := OverlappedTask.handles_exec hexec (y := y)
  cases hmove <;>
    simp [OverlappedTask.Act.makes, OverlappedTask.Act.ends, FutureState.valuesOf,
      Future.released, Future.leaked, List.count_cons] at hsum ⊢ <;>
    omega

theorem moves_calls {status : X → Bool} {k : Kind} {o : Block → Owner} {state : FutureState X}
    (hmove : Moves status k o state m fut' as)
    (hexec : (OverlappedTask.machine X T).exec s.tasks as = some r) (y : X) :
    r.submitting.count y + state.callsOf y =
      s.tasks.submitting.count y + fut'.state.callsOf y := by
  have hsum := OverlappedTask.submitting_exec hexec (y := y)
  cases hmove <;>
    simp [OverlappedTask.Act.calls, OverlappedTask.Act.submits, FutureState.callsOf,
      Future.released, Future.leaked, List.count_cons] at hsum ⊢ <;>
    omega

/-- The first poll begins with the call of `for_operation`; only a call can hand over. -/
theorem moves_handedOver {status : X → Bool} {k : Kind} {o : Block → Owner}
    {state : FutureState X} (hmove : Moves status k o state m fut' as)
    (hexec : (OverlappedTask.machine X T).exec s.tasks as = some r) (y : X) :
    r.handedOver y + fut'.state.callsOf y ≤ s.tasks.handedOver y + state.callsOf y +
      if state.task = none ∧ fut'.state.task = some y then 1 else 0 := by
  have hsum := OverlappedTask.handedOver_exec hexec (y := y)
  cases hmove <;>
    simp [OverlappedTask.Act.handsOver, FutureState.callsOf, Future.released, Future.leaked,
      List.count_cons] at hsum ⊢ <;>
    omega

/-- A future keeps the task that it has, and has a new one from its first poll on. -/
theorem moves_task (hmove : Moves s.tasks.statusPending fut.kind fut.owner fut.state m fut' as)
    (hexec : (OverlappedTask.machine X T).exec s.tasks as = some r) :
    (fut'.state.task = fut.state.task ∧ ∀ y task, .new y task ∉ as) ∨
      fut.state.task = none ∧ ∃ x, fut'.state.task = some x ∧ s.tasks.count x = none ∧
        ∀ y task, .new y task ∈ as → y = x := by
  obtain ⟨k, state, o⟩ := fut
  cases hmove with
  | @pollBegin x task =>
    obtain ⟨u, hnew, -⟩ := Option.bind_eq_some_iff.mp hexec
    have hfresh : s.tasks.count x = none := (Option.ite_none_right_eq_some.mp hnew).1
    exact .inr ⟨rfl, x, rfl, hfresh, by simp⟩
  | _ => exact .inl (by simp [Future.released, Future.leaked])

variable [DecidableEq F]

omit [DecidableEq F] in
theorem Accounted.own (h : Accounted s) (hinv : Inv s) (hf : s.future f = some fut)
    (hx : fut.state.task = some x ∨ s.tasks.count x = none) :
    s.tasks.handles.count x = fut.state.valuesOf x ∧
      s.tasks.submitting.count x = fut.state.callsOf x := by
  by_cases htask : fut.state.task = some x
  · rw [valuesOf_own htask, callsOf_own htask]
    exact ⟨h.values f fut x hf htask, h.calls f fut x hf htask⟩
  · rw [valuesOf_other htask, callsOf_other htask]
    have hfresh := hinv.tasks.counted.fresh (hx.resolve_left htask)
    simp only [OverlappedTask.State.refs, List.mem_append, not_or] at hfresh
    exact ⟨List.count_eq_zero.mpr (by tauto), List.count_eq_zero.mpr (by tauto)⟩

omit [DecidableEq F] in
theorem Accounted.handedOver (h : Accounted s) (hf : s.future f = some fut)
    (hx : fut.state.task = some x ∨ s.tasks.count x = none) :
    s.tasks.handedOver x + fut.state.callsOf x ≤ 1 ∧
      (fut.state.task ≠ some x → s.tasks.handedOver x = 0) := by
  by_cases htask : fut.state.task = some x
  · exact ⟨callsOf_own htask ▸ h.once f fut x hf htask, fun hno => absurd htask hno⟩
  · have hzero := h.unmade x (hx.resolve_left htask)
    exact ⟨by rw [callsOf_other htask, hzero]; omega, fun _ => hzero⟩

/-- After a move a task belongs to the future that has moved, or to another one. -/
theorem own_or_other (h : Inv s) (hf : s.future f = some fut) (hkeeps : Keeps s f fut' r)
    (hg : (s.setFuture f fut' r).future g = some gut) (hx : gut.state.task = some x) :
    gut = fut' ∨ s.future g = some gut ∧ fut.state.task ≠ some x ∧ fut'.state.task ≠ some x := by
  by_cases hgf : g = f
  · subst hgf
    exact .inl (Option.some.inj (hg.symm.trans setFuture_self))
  · rw [setFuture_other hgf] at hg
    exact .inr ⟨hg, fun hx' => hgf (h.unique g f gut fut x hg hf hx hx'),
      fun hx' => (hkeeps.own x hx').2 g gut hgf hg hx⟩

section Move

variable (h : Inv s) (hacc : Accounted s) (hf : s.future f = some fut)
  (hmove : Moves s.tasks.statusPending fut.kind fut.owner fut.state m fut' as)
  (hexec : (OverlappedTask.machine X T).exec s.tasks as = some r)

include hmove hexec

omit [DecidableEq F] in
/-- What a future has after a move it had before, or it is new. -/
theorem own_before (hx : fut'.state.task = some x) :
    fut.state.task = some x ∨ s.tasks.count x = none := by
  rcases moves_task hmove hexec with ⟨he, -⟩ | ⟨-, y, hy, hfresh, -⟩
  · exact .inl (he ▸ hx)
  · obtain rfl := Option.some.inj (hy.symm.trans hx)
    exact .inr hfresh

include hacc hf

theorem made_move (hx : r.count x ≠ none) :
    ∃ g gut, (s.setFuture f fut' r).future g = some gut ∧ gut.state.task = some x := by
  have htask := moves_task hmove hexec
  rcases OverlappedTask.known_exec hexec hx with hx | ⟨task, hx⟩
  · obtain ⟨g, gut, hg, hgx⟩ := hacc.made x hx
    by_cases hgf : g = f
    · obtain rfl : fut = gut := Option.some.inj (hf.symm.trans (hgf ▸ hg))
      rcases htask with ⟨he, -⟩ | ⟨hnone, -⟩
      · exact ⟨f, fut', setFuture_self, he.trans hgx⟩
      · exact absurd hnone (task_ne_none hgx)
    · exact ⟨g, gut, by rwa [setFuture_other hgf], hgx⟩
  · rcases htask with ⟨-, hno⟩ | ⟨-, y, hy, -, hnew⟩
    · exact absurd hx (hno x task)
    · exact ⟨f, fut', setFuture_self, hnew x task hx ▸ hy⟩

include h

theorem values_move (hg : (s.setFuture f fut' r).future g = some gut)
    (hx : gut.state.task = some x) : r.handles.count x = gut.state.values := by
  have hvalues := moves_values hmove hexec x
  rcases own_or_other h hf (inv_move h hf hmove hexec).1 hg hx with rfl | ⟨hg, hno, hno'⟩
  · rw [(hacc.own h hf (own_before hmove hexec hx)).1, valuesOf_own hx, Nat.add_comm] at hvalues
    exact Nat.add_left_cancel hvalues
  · rw [valuesOf_other hno, valuesOf_other hno', hacc.values g gut x hg hx] at hvalues
    exact hvalues

theorem calls_move (hg : (s.setFuture f fut' r).future g = some gut)
    (hx : gut.state.task = some x) : r.submitting.count x = gut.state.calls := by
  have hcalls := moves_calls hmove hexec x
  rcases own_or_other h hf (inv_move h hf hmove hexec).1 hg hx with rfl | ⟨hg, hno, hno'⟩
  · rw [(hacc.own h hf (own_before hmove hexec hx)).2, callsOf_own hx, Nat.add_comm] at hcalls
    exact Nat.add_left_cancel hcalls
  · rw [callsOf_other hno, callsOf_other hno', hacc.calls g gut x hg hx] at hcalls
    exact hcalls

theorem once_move (hg : (s.setFuture f fut' r).future g = some gut)
    (hx : gut.state.task = some x) : r.handedOver x + gut.state.calls ≤ 1 := by
  have hhanded := moves_handedOver hmove hexec x
  rcases own_or_other h hf (inv_move h hf hmove hexec).1 hg hx with rfl | ⟨hg, hno, hno'⟩
  · obtain ⟨honce, hzero⟩ := hacc.handedOver hf (own_before hmove hexec hx)
    rw [callsOf_own hx] at hhanded
    -- A task that the future has from this move on was never handed over before.
    by_cases htask : fut.state.task = some x
    · rw [if_neg fun hnew => task_ne_none htask hnew.1] at hhanded
      exact Nat.le_trans hhanded honce
    · rw [hzero htask, callsOf_other htask] at hhanded
      exact Nat.le_trans hhanded (by split <;> omega)
  · rw [callsOf_other hno, callsOf_other hno', if_neg fun hnew => hno' hnew.2] at hhanded
    have honce := hacc.once g gut x hg hx
    exact Nat.le_trans (Nat.add_le_add_right hhanded _) honce

theorem unmade_move (hx : r.count x = none) : r.handedOver x = 0 := by
  have hkeeps := (inv_move h hf hmove hexec).1
  have hunknown : s.tasks.count x = none := by
    by_contra hne
    exact hkeeps.known x hne hx
  have hno : fut.state.task ≠ some x := fun hx' => h.known f fut x hf hx' hunknown
  have hno' : fut'.state.task ≠ some x := fun hx' => (hkeeps.own x hx').1 hx
  have hhanded := moves_handedOver hmove hexec x
  rw [callsOf_other hno, callsOf_other hno', if_neg fun hnew => hno' hnew.2,
    hacc.unmade x hunknown] at hhanded
  exact Nat.le_zero.mp hhanded

theorem accounted_move : Accounted (s.setFuture f fut' r) where
  made _ hx := made_move hacc hf hmove hexec hx
  values _ _ _ hg hx := values_move h hacc hf hmove hexec hg hx
  calls _ _ _ hg hx := calls_move h hacc hf hmove hexec hg hx
  once _ _ _ hg hx := once_move h hacc hf hmove hexec hg hx
  unmade _ hx := unmade_move h hacc hf hmove hexec hx

end Move

omit [DecidableEq F] in
/-- The port makes, moves and submits no value. -/
theorem port_accounts {b : OverlappedTask.Act X T} (hport : ofPort b = true)
    (hstep : OverlappedTask.step s.tasks b = some r) : r.handles = s.tasks.handles ∧
      r.submitting = s.tasks.submitting ∧ r.handedOver = s.tasks.handedOver ∧
      ∀ x, r.count x = none ↔ s.tasks.count x = none := by
  cases OverlappedTask.step_cases hstep with
  | complete | queue | dequeue | notify => exact ⟨rfl, rfl, rfl, fun _ => .rfl⟩
  | release => exact ⟨rfl, rfl, rfl, fun _ => modifyCount_eq_none⟩
  | _ => cases hport

theorem accounted_create (hacc : Accounted s) {k : Kind} (hf : s.future f = none) :
    Accounted (s.setFuture f ⟨k, .initial, fun _ => .future⟩ s.tasks) := by
  have hother : ∀ g gut x, (s.setFuture f ⟨k, .initial, fun _ => .future⟩ s.tasks).future g =
      some gut → gut.state.task = some x → s.future g = some gut := by
    intro g gut x hg hx
    by_cases hgf : g = f
    · subst hgf
      obtain rfl := Option.some.inj (setFuture_self.symm.trans hg)
      cases hx
    · rwa [setFuture_other hgf] at hg
  refine ⟨fun x hx => ?_, fun g gut x hg hx => hacc.values g gut x (hother g gut x hg hx) hx,
    fun g gut x hg hx => hacc.calls g gut x (hother g gut x hg hx) hx,
    fun g gut x hg hx => hacc.once g gut x (hother g gut x hg hx) hx, hacc.unmade⟩
  obtain ⟨g, gut, hg, hgx⟩ := hacc.made x hx
  have hgf : g ≠ f := by
    rintro rfl
    cases hf.symm.trans hg
  exact ⟨g, gut, by rwa [setFuture_other hgf], hgx⟩

theorem accounted_step {a : Act F X T} (h : Inv s) (hacc : Accounted s)
    (hs : step s a = some t) : Accounted t := by
  cases step_cases hs with
  | create hf => exact accounted_create hacc hf
  | move hf hmove hexec => exact accounted_move h hacc hf hmove hexec
  | port hport hstep =>
    obtain ⟨hhandles, hsubmitting, hhanded, hcount⟩ := port_accounts hport hstep
    refine ⟨fun x hx => hacc.made x ((hcount x).not.mp hx), ?_, ?_, ?_, fun x hx => ?_⟩
    · exact hhandles ▸ hacc.values
    · exact hsubmitting ▸ hacc.calls
    · exact hhanded ▸ hacc.once
    · exact hhanded ▸ hacc.unmade x ((hcount x).mp hx)

omit [DecidableEq F] in
theorem initial_accounted : Accounted (initial : State F X T) := by
  constructor <;> simp [initial, OverlappedTask.initial]

theorem reachable_accounted (h : (machine F X T).Reachable s) : Accounted s :=
  h.invariant (fun _ hs => hs ▸ initial_accounted) fun _ _ _ hr hacc _ hs =>
    accounted_step (reachable_inv hr) hacc hs

omit [DecidableEq F] in
/-- References are held by futures that have not come to their end, the port and `poll_iocp`. -/
theorem mem_refs_iff_needed (h : Inv s) (hacc : Accounted s) :
    x ∈ s.tasks.refs ↔ Needed s x := by
  have hvalue : x ∈ s.tasks.handles ∨ x ∈ s.tasks.submitting ↔
      ∃ f fut, s.future f = some fut ∧ fut.state.Live ∧ fut.state.task = some x := by
    constructor
    · intro hx
      have hrefs : x ∈ s.tasks.refs := by
        simp only [OverlappedTask.State.refs, List.mem_append]
        tauto
      obtain ⟨f, fut, hf, hfx⟩ := hacc.made x (h.tasks.counted.known x hrefs)
      refine ⟨f, fut, hf, live_of_values (hx.imp (fun hx => ?_) fun hx => ?_), hfx⟩
      · exact hacc.values f fut x hf hfx ▸ Nat.ne_of_gt (List.count_pos_iff.mpr hx)
      · exact hacc.calls f fut x hf hfx ▸ Nat.ne_of_gt (List.count_pos_iff.mpr hx)
    · rintro ⟨f, fut, hf, hlive, hfx⟩
      refine .inl (List.count_pos_iff.mp ?_)
      rw [hacc.values f fut x hf hfx, values_of_live hlive hfx]
      exact Nat.one_pos
  rw [Needed, ← hvalue]
  simp only [OverlappedTask.State.refs, OverlappedTask.State.outstanding, List.mem_append]
  tauto

/-- In every state reached a task is allocated exactly as long as a future, the port or a dispatch
has a use for it, and the port gives back the one reference that it was handed. -/
theorem references_balanced (h : (machine F X T).Reachable s) (x : X) : Balanced s x := by
  have hinv := reachable_inv h
  have hacc := reachable_accounted h
  have hrefs := mem_refs_iff_needed (x := x) hinv hacc
  refine ⟨fun hx => hinv.tasks.counted.alive (hrefs.mpr hx),
    fun hx c hc => hinv.tasks.counted.reclaimed (hrefs.not.mpr hx) hc, hinv.tasks.handedOver x, ?_⟩
  by_cases hx : s.tasks.count x = none
  · rw [hacc.unmade x hx]
    exact Nat.zero_le 1
  · obtain ⟨f, fut, hf, hfx⟩ := hacc.made x hx
    exact Nat.le_of_add_right_le (hacc.once f fut x hf hfx)

end Proofs

/-- A read is dropped with its operation pending, the cancellation succeeds, and the packet is
dequeued only then. -/
def dropBeforeDequeue : List (Act Unit Unit Unit) :=
  [.create () .tcpRead, .move () (.pollBegin () ()), .move () (.submit .pending),
    .move () .store, .move () (.drop true), .port (.complete ()), .port (.queue ()),
    .port (.dequeue ()), .port (.notify ()), .port (.release ())]

theorem dropBeforeDequeue_balanced : ∃ s c,
    (machine Unit Unit Unit).exec initial dropBeforeDequeue = some s ∧ Balanced s () ∧
      s.tasks.count () = some c ∧ c.Reclaimed := by
  have hrun : (machine Unit Unit Unit).exec initial dropBeforeDequeue = some _ := rfl
  have hbalanced := references_balanced (Machine.reachable_of_exec rfl hrun) ()
  refine ⟨_, _, hrun, hbalanced, rfl, hbalanced.reclaimed ?_ _ rfl⟩
  rintro (⟨f, fut, hf, hlive, -⟩ | hx | hx | hx)
  · obtain rfl := Option.some.inj hf
    exact hlive
  all_goals cases hx

end CompleteIo.OverlappedFuture
