import CompleteIo.Epoll.CustomEventDelivery
import CompleteIo.Lib.Compose
import CompleteIo.ThreadPool.TaskStep

namespace CompleteIo.SpawnDelivery

variable {P W T : Type*}

abbrev State (P W T : Type*) := GlobalTask.State W T × CustomEvent.State P W T

abbrev State.tasks (s : State P W T) : GlobalTask.State W T := s.1
abbrev State.event (s : State P W T) : CustomEvent.State P W T := s.2

inductive Act (P W T : Type*)
  -- `spawn_future`, up to the push of `Arc::into_raw(task)`.
  | spawnFuture (p : P) (t : T)
  | write (p : P) (t : T) (ok : Bool)
  | deliver (w : W)
  | dispatch (w : W)
  | read (w : W)
  | tryPop (w : W)
  | modify (w : W)
  | returned (w : W)
  | handleRemoteSpawn (w : W) (t : T)
  | pushSpawned (w : W) (t : T)
  | work (a : GlobalTask.Act W T)

section Machine

variable [DecidableEq P] [DecidableEq W] [DecidableEq T]

/-- The steps of workers that are not about a spawn. A worker inside `event_queue.turn` does not
take tasks off its deque. -/
def works (event : CustomEvent.State P W T) : GlobalTask.Act W T → Bool
  | .spawnFuture _ | .takeDatum .. | .pushSpawned .. => false
  | .steal w _ => event.turns w = .idle
  | _ => true

def link : Link (GlobalTask.State W T) (CustomEvent.State P W T) (GlobalTask.Act W T)
    (CustomEvent.Act P W T) (Act P W T) where
  left
    | .spawnFuture _ t => some (.spawnFuture t)
    | .handleRemoteSpawn w t => some (.takeDatum w t)
    | .pushSpawned w t => some (.pushSpawned w t)
    | .work a => some a
    | _ => none
  right _
    | .spawnFuture p t => some (.push p t)
    | .write p t ok => some (.write p t ok)
    | .deliver w => some (.deliver w)
    | .dispatch w => some (.dispatch w)
    | .read w => some (.read w)
    | .tryPop w => some (.tryPop w)
    | .modify w => some (.modify w)
    | .returned w => some (.returned w)
    | .handleRemoteSpawn w _ => some (.call w)
    | .pushSpawned w _ => some (.handlerReturn w)
    | .work _ => none
  permits tasks event
    | .deliver w => tasks.activity w = .idle
    | .handleRemoteSpawn w t => event.turns w = .popped t
    | .work a => works event a
    | _ => true

/-- A pool whose workers are the only threads that turn its event queue; any threads spawn. Data
come out of the `SegQueue` in the order of their pushes, as `crossbeam` documents it. -/
def machine (P W T : Type*) [DecidableEq P] [DecidableEq W] [DecidableEq T] :
    Machine (State P W T) (Act P W T) :=
  (GlobalTask.machine W T).beside (CustomEvent.machine P W T) link

def initial : State P W T := (GlobalTask.initial, CustomEvent.initial)

theorem initial_init : (machine P W T).init initial := ⟨rfl, rfl⟩

end Machine

def FewCalls (s : State P W T) : Act P W T → Prop
  | .work a => GlobalTask.FewCalls s.tasks a
  | _ => True

def WritesSucceed (_ : State P W T) : Act P W T → Prop
  | .write _ _ ok => ok = true
  | _ => True

/-- What ties the two components together. -/
structure Coupled (x : GlobalTask.State W T) (e : CustomEvent.State P W T) : Prop where
  order : e.delivered ++ x.posted = e.pushed
  nodup : e.pushed.Nodup
  spawned : ∀ t, t ∈ e.pushed ↔ x.future t ≠ .unspawned
  calling : ∀ w t, e.turns w = .calling t ↔ x.activity w = .spawning t
  turning : ∀ w, e.turns w ≠ .idle → x.activity w = .idle ∨ ∃ t, x.activity w = .spawning t

/-- The worker takes no part in a spawn, before or after a step of the tasks. -/
def Aside (e : CustomEvent.State P W T) (x y : GlobalTask.State W T) (w : W) : Prop :=
  (e.turns w = .idle ∨ ∃ t pc, x.activity w = .doPoll t pc) ∧
    ∀ t, x.activity w ≠ .spawning t ∧ y.activity w ≠ .spawning t

section Coupled

variable {x y : GlobalTask.State W T} {e f : CustomEvent.State P W T} {t : T} {v w : W}

theorem initial_coupled :
    Coupled (GlobalTask.initial : GlobalTask.State W T) (CustomEvent.initial (P := P)) := by
  constructor <;> simp [GlobalTask.initial, CustomEvent.initial]

/-- A worker that is in a turn and not in the handler has no task. -/
theorem Coupled.idle (h : Coupled x e) (hw : e.turns w ≠ .idle)
    (hno : ∀ t, e.turns w ≠ .calling t) : x.activity w = .idle :=
  (h.turning w hw).resolve_right fun ⟨t, ht⟩ => hno t ((h.calling w t).mpr ht)

/-- The data that no handler was given are the one just taken from the queue and the rest of it. -/
theorem Coupled.posted_eq (h : Coupled x e) (he : CustomEvent.Inv e)
    (hw : e.turns w = .popped t) : x.posted = t :: e.queue := by
  have horder := he.orderBusy w (by simp [hw])
  rw [hw, ← h.order, List.append_assoc] at horder
  exact (List.append_cancel_left horder).symm

variable [DecidableEq W]

theorem aside_update {p : GlobalTask.Activity T} (hy : y.activity = Function.update x.activity v p)
    (hv : e.turns v = .idle ∨ ∃ t pc, x.activity v = .doPoll t pc)
    (hx : ∀ t, x.activity v ≠ .spawning t) (hp : ∀ t, p ≠ .spawning t) (w : W) :
    y.activity w = x.activity w ∨ Aside e x y w := by
  by_cases hw : w = v
  · subst hw
    refine .inr ⟨hv, fun t => ⟨hx t, ?_⟩⟩
    rw [hy, Function.update_self]
    exact hp t
  · rw [hy, Function.update_of_ne hw]
    exact .inl rfl

/-- A step of a turn ahead of the handler or after it. -/
theorem Coupled.turn (h : Coupled x e) {pc : CustomEvent.TurnPc T}
    (hdelivered : f.delivered = e.delivered) (hpushed : f.pushed = e.pushed)
    (hturns : f.turns = Function.update e.turns w pc) (hidle : x.activity w = .idle)
    (hpc : ∀ t, pc ≠ .calling t) : Coupled x f := by
  refine ⟨?_, hpushed ▸ h.nodup, hpushed ▸ h.spawned, fun v t => ?_, fun v hv => ?_⟩
  · rw [hdelivered, hpushed]
    exact h.order
  all_goals
    rw [hturns] at *
    by_cases hvw : v = w
    · subst hvw
      simp [hidle, hpc]
  · rw [Function.update_of_ne hvw]
    exact h.calling v t
  · rw [Function.update_of_ne hvw] at hv
    exact h.turning v hv

variable [DecidableEq T]

/-- The steps that are not about a spawn leave its data alone. -/
theorem work_frame {a : GlobalTask.Act W T} (hinv : ∀ t, GlobalTask.Inv x t)
    (ha : works e a = true) (hs : GlobalTask.step x a = some y) :
    y.posted = x.posted ∧ (∀ t, y.future t = .unspawned ↔ x.future t = .unspawned) ∧
      ∀ w, y.activity w = x.activity w ∨ Aside e x y w := by
  cases a
  all_goals simp only [GlobalTask.step, Option.ite_none_right_eq_some, Option.some.injEq] at hs
  all_goals obtain ⟨hg, rfl⟩ := hs
  case spawnFuture | takeDatum | pushSpawned => cases ha
  case steal v u =>
    refine ⟨rfl, fun _ => Iff.rfl, aside_update rfl (.inl ?_) (by simp [hg]) (by simp)⟩
    simpa [works] using ha
  case load | beginPoll | pollNotReady =>
    exact ⟨rfl, fun _ => Iff.rfl, aside_update rfl (.inr ⟨_, _, hg⟩) (by simp [hg]) (by simp)⟩
  case pollReady v u _ | pollErr v u _ =>
    refine ⟨rfl, fun t => ?_, aside_update rfl (.inr ⟨_, _, hg⟩) (by simp [hg]) (by simp)⟩
    by_cases ht : t = u
    · subst ht
      have hf := ((hinv t).at (GlobalTask.occupancy_doPoll hg)).1
      simp [GlobalTask.State.resolve, GlobalTask.State.setActivity, hf]
    · simp [GlobalTask.State.resolve, GlobalTask.State.setActivity, ht]
  case compareExchange v u level =>
    unfold GlobalTask.compareExchange
    split
    all_goals
      exact ⟨rfl, fun _ => Iff.rfl, aside_update rfl (.inr ⟨_, _, hg⟩) (by simp [hg]) (by simp)⟩
  case fetchAdd v u =>
    unfold GlobalTask.fetchAdd
    split <;> exact ⟨rfl, fun _ => Iff.rfl, fun _ => .inl rfl⟩
  case push v u => exact ⟨rfl, fun _ => Iff.rfl, fun _ => .inl rfl⟩

theorem Coupled.work (h : Coupled x e) (hinv : ∀ t, GlobalTask.Inv x t)
    {a : GlobalTask.Act W T} (ha : works e a = true) (hs : GlobalTask.step x a = some y) :
    Coupled y e := by
  obtain ⟨hposted, hfuture, hactivity⟩ := work_frame hinv ha hs
  refine ⟨hposted ▸ h.order, h.nodup, fun t => (h.spawned t).trans (hfuture t).not.symm,
    fun w t => ?_, fun w hw => ?_⟩
  · rcases hactivity w with he | ⟨-, hno⟩
    · exact he ▸ h.calling w t
    · exact iff_of_false (fun hc => (hno t).1 ((h.calling w t).mp hc)) (hno t).2
  · rcases hactivity w with he | ⟨hidle, -⟩
    · exact he ▸ h.turning w hw
    · -- A worker in a turn is not in the middle of a poll.
      obtain ⟨u, pc, hu⟩ := hidle.resolve_left hw
      have := h.turning w hw
      simp [hu] at this

omit [DecidableEq W] in
theorem Coupled.spawnFuture (h : Coupled x e) {p : P} (ht : x.future t = .unspawned) :
    Coupled { x.setLevel t 1 with
        future := Function.update x.future t .pending
        posted := x.posted ++ [t] }
      { e with
        queue := e.queue ++ [t]
        pushed := e.pushed ++ [t]
        posting := (p, t) :: e.posting } := by
  have hnew : t ∉ e.pushed := fun hmem => (h.spawned t).mp hmem ht
  refine ⟨?_, ?_, fun u => ?_, h.calling, h.turning⟩
  · simpa using congrArg (· ++ [t]) h.order
  · simpa [List.nodup_append] using ⟨h.nodup, fun u hu he => hnew (he ▸ hu)⟩
  · by_cases hu : u = t
    · simp [hu]
    · simpa [hu] using h.spawned u

/-- The handler is given a task that waits, and takes the reference that was posted. -/
theorem Coupled.handleRemoteSpawn (h : Coupled x e) (he : CustomEvent.Inv e)
    (hw : e.turns w = .popped t) :
    Coupled ({ x with posted := x.posted.erase t }.setActivity w (.spawning t))
      ({ e with delivered := e.delivered ++ [t] }.setTurn w (.calling t)) := by
  have hposted := h.posted_eq he hw
  refine ⟨?_, h.nodup, h.spawned, fun v u => ?_, fun v hv => ?_⟩
  · simp [GlobalTask.State.setActivity, CustomEvent.State.setTurn, ← h.order, hposted]
  all_goals
    simp only [GlobalTask.State.setActivity, CustomEvent.State.setTurn] at *
    by_cases hvw : v = w
    · subst hvw
      simp
  · simpa [hvw] using h.calling v u
  · simpa [hvw] using h.turning v (by simpa [hvw] using hv)

omit [DecidableEq T] in
theorem Coupled.pushSpawned (h : Coupled x e) (hw : x.activity w = .spawning t) :
    Coupled ((x.pushTo w t).setActivity w .idle) (e.setTurn w .draining) := by
  refine ⟨h.order, h.nodup, h.spawned, fun v u => ?_, fun v hv => ?_⟩
  all_goals
    simp only [GlobalTask.State.setActivity, CustomEvent.State.setTurn] at *
    by_cases hvw : v = w
    · subst hvw
      simp
  · simpa [hvw, GlobalTask.State.pushTo] using h.calling v u
  · simpa [hvw, GlobalTask.State.pushTo] using h.turning v (by simpa [hvw] using hv)

end Coupled

variable [DecidableEq P] [DecidableEq W] [DecidableEq T] {s s' : State P W T} {a : Act P W T}
  {t : T} {w : W}

theorem tasks_reached (h : (machine P W T).ReachesUnder FewCalls s) :
    (GlobalTask.machine W T).ReachesUnder GlobalTask.FewCalls s.tasks := by
  refine h.fst fun s c a hc ha => ?_
  cases c with
  | work b =>
    obtain rfl : b = a := Option.some.inj ha
    exact hc
  | spawnFuture | handleRemoteSpawn | pushSpawned =>
    obtain rfl := Option.some.inj ha
    trivial
  | _ => cases ha

theorem event_reachable {ok : State P W T → Act P W T → Prop}
    (h : (machine P W T).ReachesUnder ok s) : (CustomEvent.machine P W T).Reachable s.event :=
  h.snd fun _ _ _ _ _ => trivial

theorem step_coupled (h : Coupled s.tasks s.event) (hinv : ∀ t, GlobalTask.Inv s.tasks t)
    (he : CustomEvent.Inv s.event) (hs : (machine P W T).step s a = some s') :
    Coupled s'.tasks s'.event := by
  obtain ⟨x, f⟩ := s'
  have hp := Machine.permits_of_step hs
  cases a with
  | work a =>
    obtain rfl : f = s.event := Machine.idle_right hs rfl
    exact h.work hinv hp (Machine.step_left hs rfl)
  | spawnFuture p t =>
    obtain ⟨ht, hx⟩ := Option.ite_none_right_eq_some.mp (Machine.step_left hs rfl)
    obtain rfl := Option.some.inj hx
    cases CustomEvent.step_cases (Machine.step_right hs rfl) with
    | push => exact h.spawnFuture ht
  | handleRemoteSpawn w t =>
    obtain ⟨-, hx⟩ := Option.ite_none_right_eq_some.mp (Machine.step_left hs rfl)
    obtain rfl := Option.some.inj hx
    have hw : s.event.turns w = .popped t := by simpa [link] using hp
    cases CustomEvent.step_cases (Machine.step_right hs rfl) with
    | call hw' =>
      obtain rfl := CustomEvent.TurnPc.popped.inj (hw'.symm.trans hw)
      exact h.handleRemoteSpawn he hw
  | pushSpawned w t =>
    obtain ⟨hw, hx⟩ := Option.ite_none_right_eq_some.mp (Machine.step_left hs rfl)
    obtain rfl := Option.some.inj hx
    cases CustomEvent.step_cases (Machine.step_right hs rfl) with
    | handlerReturn => exact h.pushSpawned hw
  | write p t ok =>
    obtain rfl : x = s.tasks := Machine.idle_left hs rfl
    cases CustomEvent.step_cases (Machine.step_right hs rfl) <;>
      exact ⟨h.order, h.nodup, h.spawned, h.calling, h.turning⟩
  | deliver w =>
    obtain rfl : x = s.tasks := Machine.idle_left hs rfl
    have hw : s.tasks.activity w = .idle := by simpa [link] using hp
    cases CustomEvent.step_cases (Machine.step_right hs rfl) with
    | deliver => exact h.turn rfl rfl rfl hw (by simp)
  | dispatch w | read w | tryPop w | modify w | returned w =>
    obtain rfl : x = s.tasks := Machine.idle_left hs rfl
    cases CustomEvent.step_cases (Machine.step_right hs rfl) <;>
      exact h.turn rfl rfl rfl (h.idle (by simp [*]) (by simp [*])) (by simp)

theorem reachable_coupled (h : (machine P W T).ReachesUnder FewCalls s) :
    Coupled s.tasks s.event := by
  refine h.invariant (I := fun s => Coupled s.tasks s.event) (fun s hs => ?_)
    fun s a t hr hc _ hs => ?_
  · obtain ⟨x, y⟩ := s
    obtain ⟨rfl, rfl⟩ := hs
    exact initial_coupled
  · exact step_coupled hc (GlobalTask.reachable_inv (tasks_reached hr))
      (CustomEvent.reachable_inv (event_reachable hr)) hs

/-- The call of the handler never fails to find its task among those that were posted. -/
theorem handleRemoteSpawn_enabled (h : (machine P W T).ReachesUnder FewCalls s)
    (hw : s.event.turns w = .popped t) :
    ∃ s', (machine P W T).step s (.handleRemoteSpawn w t) = some s' := by
  have hc := reachable_coupled h
  have hidle := hc.idle (w := w) (by simp [hw]) (by simp [hw])
  have hposted := hc.posted_eq (CustomEvent.reachable_inv (event_reachable h)) hw
  have hx : GlobalTask.step s.tasks (.takeDatum w t) = some _ := if_pos ⟨hidle, by simp [hposted]⟩
  obtain ⟨y, hy⟩ : ∃ y, CustomEvent.step s.event (.call w) = some y := by
    simp only [CustomEvent.step, hw]
    exact ⟨_, rfl⟩
  exact ⟨(_, y), Machine.beside_step.mpr ⟨by simpa [link] using hw, hx, hy⟩⟩

/-- Tasks are handed to workers once each and in the order of their spawns, and one that no
handler was given yet waits in the custom event and nowhere else. -/
theorem spawned_once_in_order (h : (machine P W T).ReachesUnder FewCalls s) :
    s.event.delivered <+: s.event.pushed ∧ s.event.pushed.Nodup ∧
    (∀ t, t ∈ s.event.pushed ↔ s.tasks.future t ≠ .unspawned) ∧
    (∀ w t, s.event.turns w = .popped t →
      ∃ s', (machine P W T).step s (.handleRemoteSpawn w t) = some s') ∧
    ∀ t, s.tasks.future t = .pending →
      ∃ p, AtOnly (GlobalTask.occupancy s.tasks t) p ∧ (p = .posted ↔ t ∉ s.event.delivered) := by
  have hc := reachable_coupled h
  refine ⟨⟨_, hc.order⟩, hc.nodup, hc.spawned, fun w t => handleRemoteSpawn_enabled h,
    fun t ht => ?_⟩
  obtain ⟨p, hp⟩ := (GlobalTask.reachable_inv (tasks_reached h) t).pending ht
  have hpushed : t ∈ s.event.delivered ++ s.tasks.posted :=
    hc.order ▸ (hc.spawned t).mpr (by simp [ht])
  refine ⟨p, hp, fun he hmem => ?_, fun hno => ?_⟩
  · -- A datum that was delivered is not posted any more.
    have hposted : t ∈ s.tasks.posted := List.count_pos_iff.mp (by
      have := hp.here
      rw [he] at this
      simp only [GlobalTask.occupancy] at this
      omega)
    have hnodup := hc.order ▸ hc.nodup
    exact (List.nodup_append.mp hnodup).2.2 t hmem t hposted rfl
  · have hposted := (List.mem_append.mp hpushed).resolve_left hno
    have hcount : GlobalTask.occupancy s.tasks t .posted ≠ 0 :=
      Nat.ne_of_gt (List.count_pos_iff.mpr hposted)
    exact (hp.eq_of_ne_zero hcount).symm

def spawnTwo : List (Act ℕ Bool Bool) :=
  [.spawnFuture 0 false, .write 0 false true, .deliver true, .dispatch true, .spawnFuture 1 true,
    .read true, .tryPop true, .handleRemoteSpawn true false, .pushSpawned true false]

theorem spawnTwo_once_in_order : ∃ s : State ℕ Bool Bool,
    (machine _ _ _).exec initial spawnTwo = some s ∧
      s.event.delivered = [false] ∧ s.event.pushed = [false, true] ∧
      s.event.delivered <+: s.event.pushed ∧
      ∃ p, AtOnly (GlobalTask.occupancy s.tasks true) p ∧
        (p = .posted ↔ true ∉ s.event.delivered) := by
  have key := spawned_once_in_order (Machine.ReachesUnder.exec (.init initial_init)
    (show (machine ℕ Bool Bool).Every FewCalls initial spawnTwo by
      simp [spawnTwo, Machine.Every, FewCalls])
    (show (machine ℕ Bool Bool).exec initial spawnTwo = some _ from rfl))
  exact ⟨_, rfl, rfl, rfl, key.1, key.2.2.2.2 true rfl⟩

end CompleteIo.SpawnDelivery
