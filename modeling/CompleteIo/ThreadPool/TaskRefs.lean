import CompleteIo.Lib.Compose
import CompleteIo.Lib.RefCount
import CompleteIo.ThreadPool.TaskStep

namespace CompleteIo.TaskRefs

variable {W T : Type*}

/-- The counts of the `Arc<_GlobalTask>`s, how many of the references are notify handles, and
which ones a worker is about to drop; the flag of the pool, and who has left the loop under it. -/
structure Refs (W T : Type*) where
  count : T → RefCount
  handles : T → ℕ
  dropping : List (W × T)
  active : Bool
  left : List W

inductive RefAct (W T : Type*)
  | new (t : T)
  | clone (t : T)
  | endPoll (w : W) (t : T)
  | leave (w : W) (queue : List T)
  | drop (w : W) (t : T)
  | cloneHandle (t : T)
  | dropHandle (t : T)
  | beginShutdown

def Refs.setDropping (r : Refs W T) (dropping : List (W × T)) : Refs W T :=
  { r with dropping := dropping }

@[simp] theorem setDropping_count (r : Refs W T) (l : List (W × T)) :
    (r.setDropping l).count = r.count := rfl

@[simp] theorem setDropping_handles (r : Refs W T) (l : List (W × T)) :
    (r.setDropping l).handles = r.handles := rfl

def RefAct.task? : RefAct W T → Option T
  | .new t | .clone t | .endPoll _ t | .drop _ t | .cloneHandle t | .dropHandle t => some t
  | .leave _ _ | .beginShutdown => none

section Refs

variable [DecidableEq T]

def Refs.setCount (r : Refs W T) (t : T) (c : RefCount) : Refs W T :=
  { r with count := Function.update r.count t c }

def Refs.setHandles (r : Refs W T) (t : T) (n : ℕ) : Refs W T :=
  { r with handles := Function.update r.handles t n }

/-- How many references to the task the workers are about to drop. -/
def Refs.ending (r : Refs W T) (t : T) : ℕ := (r.dropping.map Prod.snd).count t

@[simp] theorem setCount_self (r : Refs W T) (t : T) (c : RefCount) :
    (r.setCount t c).count t = c := Function.update_self ..

@[simp] theorem setCount_handles (r : Refs W T) (t : T) (c : RefCount) :
    (r.setCount t c).handles = r.handles := rfl

@[simp] theorem setCount_ending (r : Refs W T) (t u : T) (c : RefCount) :
    (r.setCount t c).ending u = r.ending u := rfl

@[simp] theorem setHandles_self (r : Refs W T) (t : T) (n : ℕ) :
    (r.setHandles t n).handles t = n := Function.update_self ..

@[simp] theorem setHandles_count (r : Refs W T) (t : T) (n : ℕ) :
    (r.setHandles t n).count = r.count := rfl

@[simp] theorem setHandles_ending (r : Refs W T) (t u : T) (n : ℕ) :
    (r.setHandles t n).ending u = r.ending u := rfl

@[simp] theorem setDropping_ending (r : Refs W T) (l : List (W × T)) (t : T) :
    (r.setDropping l).ending t = (l.map Prod.snd).count t := rfl

variable [DecidableEq W]

/-- The worker is in its loop and not about to drop a task. -/
def Refs.inLoop (r : Refs W T) (w : W) : Bool := w ∉ r.left ∧ ∀ x ∈ r.dropping, x.1 ≠ w

omit [DecidableEq T] in
theorem of_inLoop {r : Refs W T} {w : W} (h : r.inLoop w = true) : w ∉ r.left :=
  (of_decide_eq_true h).1

def refStep (r : Refs W T) : RefAct W T → Option (Refs W T)
  | .new t => some (r.setCount t .new)
  | .clone t => some (r.setCount t (r.count t).retain)
  | .endPoll w t => some (r.setDropping ((w, t) :: r.dropping))
  -- The deque goes with its worker, since nobody else has its `Stealer` any more.
  | .leave w queue =>
    some { r.setDropping (queue.map (w, ·) ++ r.dropping) with left := w :: r.left }
  | .drop w t =>
    if (w, t) ∈ r.dropping then
      some ((r.setCount t (r.count t).release).setDropping (r.dropping.erase (w, t)))
    else none
  | .cloneHandle t =>
    some ((r.setCount t (r.count t).retain).setHandles t (r.handles t + 1))
  | .dropHandle t =>
    if 0 < r.handles t then
      some ((r.setCount t (r.count t).release).setHandles t (r.handles t - 1))
    else none
  | .beginShutdown => some { r with active := false }

def initialRefs : Refs W T := ⟨fun _ => ⟨0, 0⟩, fun _ => 0, [], true, []⟩

def refs (W T : Type*) [DecidableEq W] [DecidableEq T] : Machine (Refs W T) (RefAct W T) where
  init r := r = initialRefs
  step := refStep

end Refs

abbrev State (W T : Type*) := GlobalTask.State W T × Refs W T

abbrev State.tasks (s : State W T) : GlobalTask.State W T := s.1
abbrev State.refs (s : State W T) : Refs W T := s.2

inductive Act (W T : Type*)
  | work (a : GlobalTask.Act W T)
  -- `task::current()` in a poll of the task, which clones the `Arc` it is polled with.
  | current (w : W) (t : T) (level : ℕ)
  -- The worker drops a task after its `do_poll`, or with its deque.
  | drop (w : W) (t : T)
  | cloneHandle (t : T)
  | dropHandle (t : T)
  | beginShutdown
  | leave (w : W)

def worker : GlobalTask.Act W T → Option W
  | .spawnFuture _ => none
  | .takeDatum w _ | .pushSpawned w _ | .steal w _ | .load w _ | .beginPoll w _ _
  | .pollNotReady w _ _ | .pollReady w _ _ | .pollErr w _ _ | .compareExchange w _ _
  | .fetchAdd w _ | .push w _ => some w

section Machine

variable [DecidableEq W] [DecidableEq T]

/-- What the steps of a task do to its `Arc`. Places hand their reference on: it is made by
`spawn_future`, or cloned by the `notify` that is going to push, and `do_poll` ends with it. -/
def refOf (x : GlobalTask.State W T) : GlobalTask.Act W T → Option (RefAct W T)
  | .spawnFuture t => some (.new t)
  | .fetchAdd _ t => if x.signalLevel t = 0 then some (.clone t) else none
  | .compareExchange w t level => if x.signalLevel t = level then some (.endPoll w t) else none
  | .pollReady w t _ | .pollErr w t _ => some (.endPoll w t)
  | _ => none

def link : Link (GlobalTask.State W T) (Refs W T) (GlobalTask.Act W T) (RefAct W T) (Act W T) where
  left
    | .work a => some a
    | _ => none
  right x
    | .work a => refOf x a
    | .current _ t _ | .cloneHandle t => some (.cloneHandle t)
    | .drop w t => some (.drop w t)
    | .dropHandle t => some (.dropHandle t)
    | .beginShutdown => some .beginShutdown
    | .leave w => some (.leave w (x.deque w))
  permits x r
    | .work (.fetchAdd w t) => r.inLoop w ∧ 0 < r.handles t
    | .work a => (worker a).all r.inLoop
    | .current w t level => x.activity w = .doPoll t (.polling level)
    | .cloneHandle t => 0 < r.handles t
    | .leave w => r.active = false ∧ r.inLoop w ∧ x.activity w = .idle ∧ x.pushing w = []
    | _ => true

/-- A pool in which `notify` is called through the handles that its tasks gave out. -/
def machine (W T : Type*) [DecidableEq W] [DecidableEq T] : Machine (State W T) (Act W T) :=
  (GlobalTask.machine W T).beside (refs W T) link

def initial : State W T := (GlobalTask.initial, initialRefs)

theorem initial_init : (machine W T).init initial := ⟨rfl, rfl⟩

end Machine

def FewCalls (s : State W T) : Act W T → Prop
  | .work a => GlobalTask.FewCalls s.tasks a
  | _ => True

def Held (x : GlobalTask.State W T) (t : T) : Prop :=
  x.future t = .pending ∧ x.suspended t = false

/-- The task was in the deque of a worker that has left. -/
def Lost (x : GlobalTask.State W T) (r : Refs W T) (t : T) : Prop := ∃ w ∈ r.left, t ∈ x.deque w

def Kept (x : GlobalTask.State W T) (r : Refs W T) (t : T) : Prop := Held x t ∧ ¬ Lost x r t

instance (x : GlobalTask.State W T) (t : T) : Decidable (Held x t) :=
  inferInstanceAs (Decidable (_ ∧ _))

instance [DecidableEq T] (x : GlobalTask.State W T) (r : Refs W T) (t : T) :
    Decidable (Lost x r t) := inferInstanceAs (Decidable (∃ w ∈ _, _))

instance [DecidableEq T] (x : GlobalTask.State W T) (r : Refs W T) (t : T) :
    Decidable (Kept x r t) := inferInstanceAs (Decidable (_ ∧ _))

def expected [DecidableEq T] (x : GlobalTask.State W T) (r : Refs W T) (t : T) : ℕ :=
  r.handles t + r.ending t + if Kept x r t then 1 else 0

/-- The count of a task that was spawned is right, and nobody has one that was not. -/
structure Balanced [DecidableEq T] (x : GlobalTask.State W T) (r : Refs W T) (t : T) : Prop where
  spawned : x.future t ≠ .unspawned → (r.count t).Of (expected x r t)
  unspawned : x.future t = .unspawned → r.handles t = 0 ∧ r.ending t = 0

section Balanced

variable [DecidableEq T] {x y : GlobalTask.State W T} {r r' : Refs W T} {t u : T} {w : W}

theorem Balanced.of_kept (h : Balanced x r t)
    (hf : y.future t = .unspawned ↔ x.future t = .unspawned) (hkept : Kept y r t ↔ Kept x r t) :
    Balanced y r t where
  spawned hy := by
    rw [expected, if_congr hkept rfl rfl]
    exact h.spawned (hf.not.mp hy)
  unspawned hy := h.unspawned (hf.mp hy)

theorem Balanced.of_refs (h : Balanced x r t) (hcount : r'.count t = r.count t)
    (hhandles : r'.handles t = r.handles t) (hending : r'.ending t = r.ending t)
    (hleft : r'.left = r.left) : Balanced x r' t where
  spawned hx := by
    have hkept : Kept x r' t ↔ Kept x r t := by rw [Kept, Kept, Lost, Lost, hleft]
    rw [expected, hcount, hhandles, hending, if_congr hkept rfl rfl]
    exact h.spawned hx
  unspawned hx := by
    rw [hhandles, hending]
    exact h.unspawned hx

theorem Balanced.of_same (h : Balanced x r t) (hsame : GlobalTask.Same t x y) : Balanced y r t := by
  refine h.of_kept (by rw [hsame.future]) ?_
  have hmem : ∀ v, t ∈ y.deque v ↔ t ∈ x.deque v := fun v => by
    rw [← List.count_pos_iff, hsame.queued, List.count_pos_iff]
  simp only [Kept, Held, Lost, hsame.future, hsame.suspended, hmem]

/-- Whoever has the task has the one reference that is counted for its being somewhere. -/
theorem kept_of_place (hinv : GlobalTask.Inv x t) {p : GlobalTask.Place W}
    (hp : GlobalTask.occupancy x t p ≠ 0) (hne : p ≠ .suspended)
    (hqueue : ∀ w ∈ r.left, p ≠ .queued w) : Kept x r t := by
  obtain ⟨hf, hat⟩ := hinv.at hp
  refine ⟨⟨hf, by simpa [GlobalTask.occupancy] using hat.elsewhere .suspended hne.symm⟩, ?_⟩
  rintro ⟨w, hw, hmem⟩
  exact hqueue w hw (hat.eq_of_ne_zero (GlobalTask.occupancy_queued hmem)).symm

theorem kept_of_doPoll (hinv : GlobalTask.Inv x t) {pc : GlobalTask.PollPc}
    (hw : x.activity w = .doPoll t pc) : Kept x r t :=
  kept_of_place hinv (GlobalTask.occupancy_doPoll hw) (by simp) (by simp)

theorem kept_of_queued (hinv : GlobalTask.Inv x t) (hw : w ∉ r.left) (hmem : t ∈ x.deque w) :
    Kept x r t := by
  refine kept_of_place hinv (GlobalTask.occupancy_queued hmem) (by simp) fun v hv he => ?_
  obtain rfl : w = v := by simpa using he
  exact hw hv

/-- The reference of `do_poll` becomes one that is about to be dropped. -/
theorem Balanced.endPoll (h : Balanced x r t) (hx : Kept x r t) (hy : ¬ Held y t)
    (hf : y.future t ≠ .unspawned) :
    Balanced y (r.setDropping ((w, t) :: r.dropping)) t where
  spawned _ := by
    have hof := h.spawned (by simp [hx.1.1])
    rw [expected, if_pos hx] at hof
    rw [expected, if_neg fun hkept => hy hkept.1, setDropping_count, setDropping_handles,
      setDropping_ending, List.map_cons, List.count_cons_self]
    exact hof
  unspawned hn := absurd hn hf

theorem Balanced.clone (h : Balanced x r t) (hx : ¬ Held x t) (hy : Kept y r t)
    (hpos : 0 < r.handles t) (hf : x.future t ≠ .unspawned) :
    Balanced y (r.setCount t (r.count t).retain) t where
  spawned _ := by
    have hof := h.spawned hf
    rw [expected, if_neg fun hkept => hx hkept.1] at hof
    rw [expected, if_pos (show Kept y (r.setCount t _) t from hy), setCount_self,
      setCount_handles, setCount_ending]
    exact hof.retain (by omega)
  unspawned hn := by simp [hy.1.1] at hn

theorem Balanced.cloneHandle (h : Balanced x r t) (hf : x.future t ≠ .unspawned)
    (hpos : 0 < expected x r t) :
    Balanced x ((r.setCount t (r.count t).retain).setHandles t (r.handles t + 1)) t where
  spawned hx := by
    have hof := (h.spawned hx).retain hpos
    rw [expected] at hof ⊢
    rw [setHandles_count, setCount_self, setHandles_self, setHandles_ending, setCount_ending,
      Nat.add_right_comm _ 1, Nat.add_right_comm _ 1]
    exact hof
  unspawned hn := absurd hn hf

theorem Balanced.dropHandle (h : Balanced x r t) (hpos : 0 < r.handles t) :
    Balanced x ((r.setCount t (r.count t).release).setHandles t (r.handles t - 1)) t where
  spawned hx := by
    have hof := h.spawned hx
    rw [expected, ← Nat.sub_add_cancel hpos, Nat.add_right_comm _ 1, Nat.add_right_comm _ 1] at hof
    rw [expected, setHandles_count, setCount_self, setHandles_self, setHandles_ending,
      setCount_ending]
    exact hof.release
  unspawned hn := by
    have := (h.unspawned hn).1
    omega

theorem Balanced.leave (h : Balanced x r t) (hinv : GlobalTask.Inv x t) (hw : w ∉ r.left) :
    Balanced x { r.setDropping ((x.deque w).map (w, ·) ++ r.dropping) with left := w :: r.left }
      t := by
  have hending : ∀ r' : Refs W T, r'.dropping = (x.deque w).map (w, ·) ++ r.dropping →
      r'.ending t = (x.deque w).count t + r.ending t := fun r' hr => by
    simp [Refs.ending, hr, Function.comp_def]
  refine ⟨fun hx => ?_, fun hn => ?_⟩
  swap
  · have hnone : (x.deque w).count t = 0 := hinv.absent (by simp [hn]) (.queued w)
    rw [hending _ rfl, hnone, (h.unspawned hn).2]
    exact ⟨(h.unspawned hn).1, rfl⟩
  have hof := h.spawned hx
  rw [expected] at hof
  rw [expected, hending _ rfl]
  by_cases hmem : t ∈ x.deque w
  · have hone : (x.deque w).count t = 1 :=
      (hinv.at (GlobalTask.occupancy_queued hmem)).2.here
    rw [if_pos (kept_of_queued hinv hw hmem)] at hof
    rw [hone, if_neg fun hkept => hkept.2 ⟨w, List.mem_cons_self .., hmem⟩]
    simpa [Nat.add_assoc, Nat.add_comm 1] using hof
  · rw [List.count_eq_zero.mpr hmem, Nat.zero_add]
    simpa [Kept, Lost, hmem] using hof

/-- A level of 0 is that of a suspended task. -/
theorem suspended_of_level (hinv : GlobalTask.Inv x t) (hf : x.future t ≠ .unspawned)
    (hfew : x.calls t + 1 < 2 ^ 64) (hlevel : x.signalLevel t = 0) :
    x.future t = .pending ∧ x.suspended t = true ∧ ¬ Lost x r t := by
  obtain ⟨count, hl⟩ := hinv.level hf
  have hsus : x.suspended t = true := by
    have hbound := hl.bound
    have hword := hl.word
    exact hl.zero.mpr (by omega)
  obtain ⟨hpending, hat⟩ := hinv.at (p := .suspended) (by simp [GlobalTask.occupancy, hsus])
  refine ⟨hpending, hsus, ?_⟩
  rintro ⟨w, -, hmem⟩
  exact absurd (hat.eq_of_ne_zero (GlobalTask.occupancy_queued hmem)) (by simp)

variable [DecidableEq W]

theorem ending_erase (hmem : (w, t) ∈ r.dropping) :
    r.ending u = ((r.dropping.erase (w, t)).map Prod.snd).count u + if t = u then 1 else 0 := by
  have hperm := (List.perm_cons_erase hmem).map Prod.snd
  rw [Refs.ending, hperm.count_eq, List.map_cons, List.count_cons]
  simp

theorem Balanced.drop (h : Balanced x r t) (hmem : (w, t) ∈ r.dropping) :
    Balanced x ((r.setCount t (r.count t).release).setDropping (r.dropping.erase (w, t))) t where
  spawned hx := by
    have hof := h.spawned hx
    rw [expected, ending_erase hmem, if_pos rfl, ← Nat.add_assoc, Nat.add_right_comm _ 1] at hof
    rw [expected, setDropping_count, setCount_self, setDropping_handles, setCount_handles,
      setDropping_ending]
    exact hof.release
  unspawned hn := by
    have := (h.unspawned hn).2
    rw [ending_erase hmem, if_pos rfl] at this
    omega

/-- Only the worker of a step touches its deque. -/
theorem deque_of_step {a : GlobalTask.Act W T} {v : W} (hx : GlobalTask.step x a = some y)
    (hv : worker a ≠ some v) : y.deque v = x.deque v := by
  cases a
  all_goals simp only [GlobalTask.step, Option.ite_none_right_eq_some, Option.some.injEq] at hx
  all_goals obtain ⟨-, rfl⟩ := hx
  all_goals simp only [worker, ne_eq, Option.some.injEq] at hv
  case pushSpawned | push => exact Function.update_of_ne (Ne.symm hv) ..
  case steal => exact Function.update_of_ne (Ne.symm hv) ..
  case compareExchange =>
    unfold GlobalTask.compareExchange
    split <;> rfl
  case fetchAdd =>
    unfold GlobalTask.fetchAdd
    split <;> rfl
  all_goals rfl

theorem lost_of_step {a : GlobalTask.Act W T} (hx : GlobalTask.step x a = some y)
    (hw : ∀ v ∈ r.left, worker a ≠ some v) : Lost y r u ↔ Lost x r u := by
  refine exists_congr fun v => and_congr_right fun hv => ?_
  rw [deque_of_step hx (hw v hv)]

variable {a : GlobalTask.Act W T}

theorem balanced_compareExchange {level : ℕ} (h : Balanced x r t) (hkept : Kept x r t)
    (hr : (refs W T).move r (refOf x (.compareExchange w t level)) = some r') :
    Balanced (GlobalTask.compareExchange x w t level) r' t := by
  unfold GlobalTask.compareExchange
  by_cases hlevel : x.signalLevel t = level
  · rw [refOf, if_pos hlevel] at hr
    obtain rfl := Option.some.inj hr
    rw [if_pos hlevel]
    refine h.endPoll hkept ?_ ?_
    · simp [Held, GlobalTask.State.setActivity, GlobalTask.State.setSuspended]
    · simp [GlobalTask.State.setActivity, GlobalTask.State.setSuspended,
        GlobalTask.State.setLevel, hkept.1.1]
  · rw [refOf, if_neg hlevel] at hr
    obtain rfl := Option.some.inj hr
    rw [if_neg hlevel]
    exact h.of_kept Iff.rfl Iff.rfl

theorem balanced_fetchAdd (h : Balanced x r t) (hinv : GlobalTask.Inv x t)
    (hf : x.future t ≠ .unspawned) (hfew : x.calls t + 1 < 2 ^ 64) (hpos : 0 < r.handles t)
    (hlost : Lost (GlobalTask.fetchAdd x w t) r t ↔ Lost x r t)
    (hr : (refs W T).move r (refOf x (.fetchAdd w t)) = some r') :
    Balanced (GlobalTask.fetchAdd x w t) r' t := by
  unfold GlobalTask.fetchAdd at hlost ⊢
  by_cases hlevel : x.signalLevel t = 0
  · obtain ⟨hpending, hsus, hnot⟩ := suspended_of_level (r := r) hinv hf hfew hlevel
    rw [refOf, if_pos hlevel] at hr
    obtain rfl := Option.some.inj hr
    rw [if_pos hlevel] at hlost ⊢
    exact h.clone (by simp [Held, hsus])
      ⟨⟨hpending, by simp [GlobalTask.State.setSuspended]⟩, hlost.not.mpr hnot⟩ hpos hf
  · rw [refOf, if_neg hlevel] at hr
    obtain rfl := Option.some.inj hr
    rw [if_neg hlevel]
    exact h.of_kept Iff.rfl Iff.rfl

theorem balanced_work (h : Balanced x r t) (hinv : GlobalTask.Inv x t)
    (hfew : GlobalTask.FewCalls x a) (hhandle : ∀ w, a = .fetchAdd w t → 0 < r.handles t)
    (hw : ∀ v ∈ r.left, worker a ≠ some v) (ht : t = a.task) (hx : GlobalTask.step x a = some y)
    (hr : (refs W T).move r (refOf x a) = some r') : Balanced y r' t := by
  have hlost : Lost y r t ↔ Lost x r t := lost_of_step hx hw
  cases a
  all_goals simp only [GlobalTask.step, Option.ite_none_right_eq_some, Option.some.injEq] at hx
  all_goals obtain ⟨hg, rfl⟩ := hx
  all_goals simp only [GlobalTask.Act.task] at ht
  all_goals subst ht
  case spawnFuture =>
    obtain rfl := Option.some.inj hr
    have hsus := hinv.absent (by simp [hg]) .suspended
    have hheld : Held { x.setLevel t 1 with
        future := Function.update x.future t .pending
        posted := x.posted ++ [t] } t :=
      ⟨by simp, by simpa [GlobalTask.occupancy, GlobalTask.State.setLevel] using hsus⟩
    have hnot : ¬ Lost x r t := by
      rintro ⟨v, -, hmem⟩
      exact GlobalTask.occupancy_queued hmem (hinv.absent (by simp [hg]) _)
    refine ⟨fun _ => ?_, by simp⟩
    rw [expected, if_pos ⟨hheld, hlost.not.mpr hnot⟩, setCount_self, setCount_handles,
      setCount_ending]
    simpa [h.unspawned hg] using RefCount.new_of
  case pollReady | pollErr =>
    obtain rfl := Option.some.inj hr
    refine h.endPoll (kept_of_doPoll hinv hg) ?_ ?_ <;>
      simp [Held, GlobalTask.State.resolve, GlobalTask.State.setActivity]
  case compareExchange => exact balanced_compareExchange h (kept_of_doPoll hinv hg) hr
  case fetchAdd w => exact balanced_fetchAdd h hinv hg hfew (hhandle w rfl) hlost hr
  all_goals
    obtain rfl := Option.some.inj hr
    exact h.of_kept Iff.rfl (and_congr_right fun _ => hlost.not)

end Balanced

end CompleteIo.TaskRefs
