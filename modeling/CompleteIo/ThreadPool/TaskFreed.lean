import CompleteIo.ThreadPool.TaskRefs

namespace CompleteIo.TaskRefs

variable {W T : Type*}

def Act.task? : Act W T → Option T
  | .work a => some a.task
  | .current _ t _ | .drop _ t | .cloneHandle t | .dropHandle t => some t
  | .beginShutdown | .leave _ => none

section Run

variable [DecidableEq W] [DecidableEq T] {s s' : State W T} {a : Act W T} {t u : T}

theorem tasks_reached (h : (machine W T).ReachesUnder FewCalls s) :
    (GlobalTask.machine W T).ReachesUnder GlobalTask.FewCalls s.tasks := by
  refine h.fst fun s c a hc ha => ?_
  cases c with
  | work b =>
    obtain rfl : b = a := Option.some.inj ha
    exact hc
  | _ => cases ha

/-- No worker takes a step after it has left. -/
theorem worker_in_loop {x : GlobalTask.State W T} {r : Refs W T} {b : GlobalTask.Act W T}
    (hp : link.permits x r (.work b) = true) : ∀ v ∈ r.left, worker b ≠ some v := by
  intro v hv hb
  have hloop : r.inLoop v = true := by
    cases b <;> simp only [link, worker, Option.some.injEq, reduceCtorEq] at hp hb
    case fetchAdd =>
      subst hb
      exact (of_decide_eq_true hp).1
    all_goals
      subst hb
      exact hp
  exact of_inLoop hloop hv

theorem handle_of_fetchAdd {x : GlobalTask.State W T} {r : Refs W T} {b : GlobalTask.Act W T}
    {w : W} (hp : link.permits x r (.work b) = true) (hb : b = .fetchAdd w t) :
    0 < r.handles t := by
  subst hb
  exact (of_decide_eq_true hp).2

theorem leave_permitted {x : GlobalTask.State W T} {r : Refs W T} {w : W}
    (hp : link.permits x r (.leave w) = true) : w ∉ r.left :=
  of_inLoop (of_decide_eq_true hp).2.1

/-- What an operation on the counts leaves as it is, for the tasks that it is not about. -/
theorem refStep_other {r r' : Refs W T} {b : RefAct W T} (hr : refStep r b = some r')
    (hb : b.task? = some t) (hu : u ≠ t) :
    r'.count u = r.count u ∧ r'.handles u = r.handles u ∧ r'.ending u = r.ending u ∧
      r'.left = r.left := by
  cases b
  case leave | beginShutdown => cases hb
  all_goals obtain rfl := Option.some.inj hb
  case new | clone =>
    obtain rfl := Option.some.inj hr
    exact ⟨Function.update_of_ne hu .., rfl, rfl, rfl⟩
  case endPoll =>
    obtain rfl := Option.some.inj hr
    exact ⟨rfl, rfl, List.count_cons_of_ne hu.symm, rfl⟩
  case drop =>
    obtain ⟨hmem, hr⟩ := Option.ite_none_right_eq_some.mp hr
    obtain rfl := Option.some.inj hr
    exact ⟨Function.update_of_ne hu .., rfl, by simp [ending_erase hmem, hu.symm], rfl⟩
  case cloneHandle =>
    obtain rfl := Option.some.inj hr
    exact ⟨Function.update_of_ne hu .., Function.update_of_ne hu .., rfl, rfl⟩
  case dropHandle =>
    obtain ⟨-, hr⟩ := Option.ite_none_right_eq_some.mp hr
    obtain rfl := Option.some.inj hr
    exact ⟨Function.update_of_ne hu .., Function.update_of_ne hu .., rfl, rfl⟩

omit [DecidableEq W] [DecidableEq T] in
theorem task_of_refOf {x : GlobalTask.State W T} {c : GlobalTask.Act W T} {b : RefAct W T}
    (hb : refOf x c = some b) : b.task? = some c.task := by
  cases c <;>
    simp only [refOf, Option.ite_none_right_eq_some, Option.some.injEq, reduceCtorEq] at hb
  case spawnFuture | pollReady | pollErr => exact hb ▸ rfl
  case compareExchange | fetchAdd => exact hb.2 ▸ rfl

/-- A step that is about one task leaves the others as they are. -/
theorem step_frame (hs : (machine W T).step s a = some s') (ht : a.task? = some t) (hu : u ≠ t) :
    GlobalTask.Same u s.tasks s'.tasks ∧ s'.refs.count u = s.refs.count u ∧
      s'.refs.handles u = s.refs.handles u ∧ s'.refs.ending u = s.refs.ending u ∧
      s'.refs.left = s.refs.left := by
  cases a with
  | work c =>
    obtain rfl := Option.some.inj ht
    refine ⟨GlobalTask.step_other (Machine.step_left hs rfl) hu, ?_⟩
    cases hb : refOf s.tasks c with
    | none =>
      rw [State.refs, Machine.idle_right hs hb]
      exact ⟨rfl, rfl, rfl, rfl⟩
    | some b => exact refStep_other (Machine.step_right hs hb) (task_of_refOf hb) hu
  | current | drop | cloneHandle | dropHandle =>
    have hx : s'.tasks = s.tasks := Machine.idle_left hs rfl
    exact ⟨hx ▸ .refl _, refStep_other (Machine.step_right hs rfl) ht hu⟩
  | beginShutdown | leave => cases ht

theorem step_balanced (h : Balanced s.tasks s.refs u) (hinv : GlobalTask.Inv s.tasks u)
    (hfew : FewCalls s a) (hs : (machine W T).step s a = some s') :
    Balanced s'.tasks s'.refs u := by
  by_cases hu : ∃ t, a.task? = some t ∧ u ≠ t
  · obtain ⟨t, ht, hu⟩ := hu
    obtain ⟨hsame, hcount, hhandles, hending, hleft⟩ := step_frame hs ht hu
    exact (h.of_same hsame).of_refs hcount hhandles hending hleft
  have heq : ∀ t, a.task? = some t → u = t := fun t ht => by_contra fun hne => hu ⟨t, ht, hne⟩
  obtain ⟨hp, hx, hr⟩ := Machine.beside_step.mp hs
  cases a with
  | work c =>
    exact balanced_work h hinv hfew (fun w => handle_of_fetchAdd hp) (worker_in_loop hp)
      (heq _ rfl) hx hr
  | current w t level =>
    obtain rfl := heq t rfl
    have hkept : Kept s.tasks s.refs u := kept_of_doPoll hinv (of_decide_eq_true hp)
    rw [State.tasks, ← Option.some.inj hx, State.refs, ← Option.some.inj hr]
    exact h.cloneHandle (by simp [hkept.1.1]) (by simp [expected, hkept])
  | drop w t =>
    obtain rfl := heq t rfl
    obtain ⟨hmem, hr⟩ := Option.ite_none_right_eq_some.mp hr
    rw [State.tasks, ← Option.some.inj hx, State.refs, ← Option.some.inj hr]
    exact h.drop hmem
  | cloneHandle t =>
    obtain rfl := heq t rfl
    have hpos : 0 < s.refs.handles u := of_decide_eq_true hp
    rw [State.tasks, ← Option.some.inj hx, State.refs, ← Option.some.inj hr]
    exact h.cloneHandle (fun hn => Nat.ne_of_gt hpos (h.unspawned hn).1)
      (Nat.add_pos_left (Nat.add_pos_left hpos _) _)
  | dropHandle t =>
    obtain rfl := heq t rfl
    obtain ⟨hpos, hr⟩ := Option.ite_none_right_eq_some.mp hr
    rw [State.tasks, ← Option.some.inj hx, State.refs, ← Option.some.inj hr]
    exact h.dropHandle hpos
  | beginShutdown =>
    rw [State.tasks, ← Option.some.inj hx, State.refs, ← Option.some.inj hr]
    exact h.of_refs rfl rfl rfl rfl
  | leave w =>
    rw [State.tasks, ← Option.some.inj hx, State.refs, ← Option.some.inj hr]
    exact h.leave hinv (leave_permitted hp)

theorem balanced_of_reached (h : (machine W T).ReachesUnder FewCalls s) (t : T) :
    Balanced s.tasks s.refs t := by
  refine h.invariant (I := fun s => Balanced s.tasks s.refs t) (fun s hs => ?_)
    fun s a s' hr hb hok hs => ?_
  · obtain ⟨x, r⟩ := s
    obtain ⟨rfl, rfl⟩ := hs
    exact ⟨by simp [GlobalTask.initial], fun _ => ⟨rfl, rfl⟩⟩
  · exact step_balanced hb (GlobalTask.reachable_inv (tasks_reached hr) t) hok hs

/-- A step of a task that was spawned is taken by someone who has it. -/
theorem kept_of_step {x y : GlobalTask.State W T} {r : Refs W T} {c : GlobalTask.Act W T}
    (hinv : ∀ t, GlobalTask.Inv x t) (hw : ∀ v ∈ r.left, worker c ≠ some v)
    (hspawn : ∀ t, c ≠ .spawnFuture t) (hnotify : ∀ w t, c ≠ .fetchAdd w t)
    (hx : GlobalTask.step x c = some y) : Kept x r c.task := by
  cases c
  all_goals simp only [GlobalTask.step, Option.ite_none_right_eq_some] at hx
  case spawnFuture t => exact absurd rfl (hspawn t)
  case fetchAdd w t => exact absurd rfl (hnotify w t)
  case takeDatum w t =>
    exact kept_of_place (p := .posted) (hinv t)
      (Nat.ne_of_gt (List.count_pos_iff.mpr hx.1.2)) (by simp) (by simp)
  case pushSpawned w t =>
    exact kept_of_place (hinv t) (GlobalTask.occupancy_spawning hx.1) (by simp) (by simp)
  case steal w t => exact kept_of_queued (hinv t) (fun hv => hw w hv rfl) hx.1.2
  case push w t =>
    exact kept_of_place (p := .pushing w) (hinv t)
      (Nat.ne_of_gt (List.count_pos_iff.mpr hx.1)) (by simp) (by simp)
  all_goals exact kept_of_doPoll (hinv _) hx.1

omit [DecidableEq W] in
theorem Balanced.alive {x : GlobalTask.State W T} {r : Refs W T} (h : Balanced x r t)
    (hf : x.future t ≠ .unspawned) (hpos : 0 < expected x r t) : (r.count t).Alive :=
  (h.spawned hf).alive hpos

theorem alive_of_step (h : (machine W T).ReachesUnder FewCalls s)
    (hs : (machine W T).step s a = some s') (hspawn : ∀ t, a ≠ .work (.spawnFuture t))
    (ht : a.task? = some t) : (s.refs.count t).Alive := by
  have hinv := GlobalTask.reachable_inv (tasks_reached h)
  have hbal := balanced_of_reached h t
  have hp := Machine.permits_of_step hs
  have alive_of_kept : Kept s.tasks s.refs t → (s.refs.count t).Alive := fun hkept =>
    hbal.alive (by simp [hkept.1.1]) (by simp [expected, hkept])
  have alive_of_handle : 0 < s.refs.handles t → (s.refs.count t).Alive := fun hpos =>
    hbal.alive (fun hn => Nat.ne_of_gt hpos (hbal.unspawned hn).1)
      (Nat.add_pos_left (Nat.add_pos_left hpos _) _)
  have alive_of_ending : 0 < s.refs.ending t → (s.refs.count t).Alive := fun hpos =>
    hbal.alive (fun hn => Nat.ne_of_gt hpos (hbal.unspawned hn).2)
      (Nat.add_pos_left (Nat.add_pos_right _ hpos) _)
  cases a with
  | work c =>
    obtain rfl := Option.some.inj ht
    by_cases hnotify : ∃ w u, c = .fetchAdd w u
    · obtain ⟨w, u, rfl⟩ := hnotify
      exact alive_of_handle (handle_of_fetchAdd hp rfl)
    · exact alive_of_kept (kept_of_step hinv (worker_in_loop hp)
        (fun u he => hspawn u (by rw [he])) (fun w u he => hnotify ⟨w, u, he⟩)
        (Machine.step_left hs rfl))
  | current w u level =>
    obtain rfl := Option.some.inj ht
    exact alive_of_kept (kept_of_doPoll (hinv u) (of_decide_eq_true hp))
  | drop w u =>
    obtain rfl := Option.some.inj ht
    have hr : refStep s.refs (.drop w u) = some s'.2 := Machine.step_right hs rfl
    have hmem := (Option.ite_none_right_eq_some.mp hr).1
    exact alive_of_ending (List.count_pos_iff.mpr (List.mem_map_of_mem hmem))
  | cloneHandle u =>
    obtain rfl := Option.some.inj ht
    exact alive_of_handle (of_decide_eq_true hp)
  | dropHandle u =>
    obtain rfl := Option.some.inj ht
    have hr : refStep s.refs (.dropHandle u) = some s'.2 := Machine.step_right hs rfl
    exact alive_of_handle (Option.ite_none_right_eq_some.mp hr).1
  | beginShutdown | leave => cases ht

/-- No step ever touches the memory of a task that was freed or not spawned yet. -/
theorem no_use_after_free (h : (machine W T).ReachesUnder FewCalls s)
    (hs : (machine W T).step s a = some s') (hspawn : ∀ t, a ≠ .work (.spawnFuture t))
    (ht : a.task? = some t) : (s.refs.count t).Alive := alive_of_step h hs hspawn ht

/-- The task gives out a handle in its first poll and is then suspended. -/
def suspendWithHandle : List (Act Bool Unit) :=
  [.work (.spawnFuture ()), .work (.takeDatum true ()), .work (.pushSpawned true ()),
    .work (.steal true ()), .work (.load true ()), .work (.beginPoll true () 1),
    .current true () 1, .work (.pollNotReady true () 1), .work (.compareExchange true () 1),
    .drop true ()]

theorem suspendWithHandle_fewCalls :
    (machine Bool Unit).Every FewCalls initial suspendWithHandle := by
  simp [suspendWithHandle, Machine.Every, FewCalls, GlobalTask.FewCalls]

theorem suspendWithHandle_no_use_after_free : ∃ s s' : State Bool Unit,
    (machine Bool Unit).exec initial suspendWithHandle = some s ∧
      (machine Bool Unit).step s (.work (.fetchAdd false ())) = some s' ∧
      (s.refs.count ()).Alive ∧ s'.refs.count () = ⟨2, 0⟩ :=
  ⟨_, _, rfl, rfl, no_use_after_free (Machine.ReachesUnder.exec (.init initial_init)
    suspendWithHandle_fewCalls (show (machine Bool Unit).exec initial suspendWithHandle = some _
      from rfl)) (a := .work (.fetchAdd false ())) rfl (by simp) rfl, rfl⟩

/-- What `rx.wait()` in `ThreadPool::run` comes to. The sender is part of the future: it is used
when the future resolves, and dropped with it otherwise. -/
inductive Received
  | waits
  | item
  | canceled
  deriving DecidableEq

def received (s : State W T) (t : T) : Received :=
  if s.tasks.future t = .resolved then .item
  else if (s.refs.count t).drops = 0 then .waits
  else .canceled

end Run

end CompleteIo.TaskRefs
