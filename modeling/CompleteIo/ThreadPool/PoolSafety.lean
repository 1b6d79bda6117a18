import CompleteIo.ThreadPool.ForeignNotify

namespace CompleteIo.Pools

open GlobalTask (Same Unpolled occupancy)

variable {Q W T : Type*} [DecidableEq Q] [DecidableEq W] [DecidableEq T] {pool : W → Q}
  {home : T → Q} {s s' : State W T} {a : Act W T} {t u : T} {x : GlobalTask.State W T}

/-- What every step keeps of a task: unless it is lost it is accounted for as in a single pool,
and until its first poll it stays in its own pool. -/
structure Inv (pool : W → Q) (home : T → Q) (s : State W T) (t : T) : Prop where
  held : s.orphaned t = false → GlobalTask.Inv s.tasks t
  lost : s.orphaned t = true → Orphan s.tasks t
  atHome : s.started t = false → s.tasks.future t = .pending → s.orphaned t = false →
    Unpolled s.tasks t ∧ AtHome pool (home t) s.tasks t

omit [DecidableEq Q] [DecidableEq W] in
theorem initial_inv (t : T) : Inv pool home (initial : State W T) t := by
  refine ⟨fun _ => GlobalTask.initial_inv t, ?_, ?_⟩ <;> simp [initial, GlobalTask.initial]

omit [DecidableEq Q] [DecidableEq W] in
theorem Inv.of_same (h : Inv pool home s t) (hsame : Same t s.tasks s'.tasks)
    (hstarted : s'.started t = s.started t) (horphaned : s'.orphaned t = s.orphaned t) :
    Inv pool home s' t where
  held ho := (h.held (horphaned ▸ ho)).of_same hsame
  lost ho := (h.lost (horphaned ▸ ho)).of_same hsame
  atHome hs hf ho := by
    obtain ⟨hun, hhome⟩ := h.atHome (hstarted ▸ hs) (hsame.future ▸ hf) (horphaned ▸ ho)
    exact ⟨hun.of_same hsame, hhome.of_same hsame⟩

omit [DecidableEq Q] in
theorem Inv.tasks (h : Inv pool home s t) {a : GlobalTask.Act W T}
    (hx : GlobalTask.step s.tasks a = some x) (hfew : GlobalTask.FewCalls s.tasks a)
    (htake : ∀ w, a = .takeDatum w t → pool w = home t)
    (hno : ∀ w level, a ≠ .beginPoll w t level) :
    Inv pool home { s with tasks := x } t := by
  refine ⟨fun ho => GlobalTask.step_inv (h.held ho) hfew hx,
    fun ho => step_orphan (h.lost ho) hfew hx, fun hs hf ho => ?_⟩
  rcases future_of_step hx hf with hpending | rfl
  · obtain ⟨hun, hhome⟩ := h.atHome hs hpending ho
    exact ⟨GlobalTask.step_unpolled hun hno hx,
      step_atHome hhome hun (h.held ho) hfew htake hno hx⟩
  · -- A task that was just spawned is with no worker at all.
    have hun := GlobalTask.unpolled_spawnFuture (h.held ho) hx
    obtain ⟨hunspawned, hx⟩ := Option.ite_none_right_eq_some.mp hx
    obtain rfl := Option.some.inj hx
    have habsent : AtHome pool (home t) s.tasks t :=
      atHome_of_absent ((h.held ho).absent (by simp [hunspawned]))
    exact ⟨hun, habsent.spawning, habsent.queued, habsent.polled, habsent.pushing⟩

omit [DecidableEq Q] [DecidableEq W] in
theorem inv_failRemoteSpawn (h : Inv pool home s t) {current : Option W}
    (hu : u ∈ s.tasks.posted) : Inv pool home (failRemoteSpawn s current u) t := by
  by_cases ht : t = u
  · subst ht
    refine ⟨by simp [failRemoteSpawn], fun _ => ?_, by simp [failRemoteSpawn]⟩
    cases ho : s.orphaned t with
    | false => exact orphan_of_posted (h.held ho) hu
    | true =>
      exact absurd ((h.lost ho).absent .posted) (Nat.ne_of_gt (List.count_pos_iff.mpr hu))
  · refine h.of_same ?_ rfl (by simp [failRemoteSpawn, ht])
    constructor <;> simp [failRemoteSpawn, List.count_erase_of_ne ht]

omit [DecidableEq Q] [DecidableEq W] in
theorem inv_notify (h : Inv pool home s t) (hfew : s.tasks.calls u + 1 < 2 ^ 64)
    (hu : s.tasks.future u ≠ .unspawned) : Inv pool home (notify s u) t := by
  unfold notify
  by_cases ht : t = u
  · subst ht
    split
    case isTrue hlevel =>
      have ho : s.orphaned t = false := by
        rw [Bool.eq_false_iff]
        exact fun ho => (h.lost ho).level_ne_zero hfew hlevel
      refine ⟨by simp, fun _ => orphan_of_suspended (h.held ho) hfew hu hlevel, by simp⟩
    case isFalse hlevel =>
      refine ⟨fun ho => inv_raise (h.held ho) hfew hu hlevel,
        fun ho => orphan_raise (h.lost ho) hfew, fun hs hf ho => ?_⟩
      obtain ⟨hun, hhome⟩ := h.atHome hs hf ho
      exact ⟨⟨hun.pending, hun.awake, hun.ahead⟩,
        hhome.spawning, hhome.queued, hhome.polled, hhome.pushing⟩
  · split
    · refine h.of_same ?_ rfl (by simp [ht])
      obtain ⟨hf, hl, hsu, how, hc, ha, hp, hq, hpu⟩ := raise_same (x := s.tasks) ht
      exact ⟨hf, hl, by simp [GlobalTask.State.setSuspended, ht, raise,
        GlobalTask.State.setLevel], how, hc, ha, hp, hq, hpu⟩
    · exact h.of_same (raise_same ht) rfl rfl

theorem step_inv (h : Inv pool home s t) (hfew : FewCalls s a)
    (hs : step pool home s a = some s') : Inv pool home s' t := by
  cases (step_cases hs).2 with
  | spawn hx => exact h.tasks hx trivial (by simp) (by simp)
  | handleRemoteSpawn hw hx =>
    refine h.tasks hx trivial (fun v he => ?_) (by simp)
    obtain ⟨rfl, rfl⟩ := GlobalTask.Act.takeDatum.inj he
    exact hw
  | failRemoteSpawn _ hu => exact inv_failRemoteSpawn h hu
  | @beginPoll w u level x hx =>
    by_cases ht : t = u
    · subst ht
      have hfew : GlobalTask.FewCalls s.tasks (.beginPoll w t level) := trivial
      exact ⟨fun ho => GlobalTask.step_inv (h.held ho) hfew hx,
        fun ho => step_orphan (h.lost ho) hfew hx, by simp⟩
    · obtain ⟨hheld, hlost, hhome⟩ := h.tasks hx trivial (by simp) (by simp [Ne.symm ht])
      exact ⟨hheld, hlost, fun hs => hhome (by simpa [ht] using hs)⟩
  | failLocal => exact ⟨h.held, h.lost, h.atHome⟩
  | work _ htake hno hx =>
    exact h.tasks hx hfew (fun w he => absurd he (htake w t)) (fun w => hno w t)
  | notify hu => exact inv_notify h hfew hu

theorem reachable_inv (h : (machine pool home).ReachesUnder FewCalls s) (t : T) :
    Inv pool home s t :=
  h.invariant (fun _ hs => hs ▸ initial_inv t) fun _ _ _ _ hi hok hs => step_inv hi hok hs

omit [DecidableEq Q] [DecidableEq W] in
/-- Whoever polls a task has it, and a lost task nobody has. -/
theorem Inv.held_of_doPoll (h : Inv pool home s t) {w : W} {pc : GlobalTask.PollPc}
    (hw : s.tasks.activity w = .doPoll t pc) :
    s.orphaned t = false ∧ s.tasks.future t = .pending := by
  have ho : s.orphaned t = false := by
    rw [Bool.eq_false_iff]
    exact fun ho => absurd ((h.lost ho).absent (.doPoll w)) (GlobalTask.occupancy_doPoll hw)
  exact ⟨ho, ((h.held ho).at (GlobalTask.occupancy_doPoll hw)).1⟩

omit [DecidableEq Q] [DecidableEq W] in
theorem Inv.home_of_doPoll (h : Inv pool home s t) {w : W} {pc : GlobalTask.PollPc}
    (hs : s.started t = false) (hw : s.tasks.activity w = .doPoll t pc) : pool w = home t := by
  obtain ⟨ho, hf⟩ := h.held_of_doPoll hw
  exact (h.atHome hs hf ho).2.polled w pc hw

/-- The closure of `Handle::spawn` always gets its `LocalHandle`: whatever tasks have moved to
other pools meanwhile, the first poll of each one is by a worker of the pool it was spawned in. -/
theorem first_poll_at_home (h : (machine pool home).ReachesUnder FewCalls s) {w : W} {level : ℕ}
    (hs : s.started t = false) (hw : s.tasks.activity w = .doPoll t (.poll level)) :
    currentWorkerHandle pool (some w) (home t) = some w :=
  currentWorkerHandle_eq_some.mpr ⟨rfl, (reachable_inv h t).home_of_doPoll hs hw⟩

def toFirstPoll : List (Act Bool Unit) :=
  [.spawn (), .handleRemoteSpawn (some true) (), .work (.pushSpawned true ()),
    .work (.steal true ()), .work (.load true ())]

theorem toFirstPoll_fewCalls :
    (machine (id : Bool → Bool) fun _ : Unit => true).Every FewCalls initial toFirstPoll :=
  Machine.every_of_forall fun s a ha => by
    simp only [toFirstPoll, List.mem_cons, List.not_mem_nil, or_false] at ha
    rcases ha with rfl | rfl | rfl | rfl | rfl <;> trivial

theorem toFirstPoll_at_home : ∃ s : State Bool Unit,
    (machine (id : Bool → Bool) fun _ => true).exec initial toFirstPoll = some s ∧
      s.tasks.activity true = .doPoll () (.poll 1) ∧
      currentWorkerHandle (id : Bool → Bool) (some true) true = some true := by
  have hrun : (machine (id : Bool → Bool) fun _ : Unit => true).exec initial toFirstPoll = some _ :=
    rfl
  have hreach := Machine.ReachesUnder.exec (.init rfl) toFirstPoll_fewCalls hrun
  have hw := first_poll_at_home hreach (t := ()) (w := true) rfl rfl
  exact ⟨_, rfl, rfl, hw⟩

/-- No worker of another pool dispatches the custom event of the task's home pool. -/
def OwnWorkers (pool : W → Q) (home : T → Q) (_ : State W T) : Act W T → Prop
  | .handleRemoteSpawn (some w) t => pool w = home t
  | _ => True

/-- An `expect` exits the process exactly if some pool's event queue, being shared, was turned by
a worker of another pool that came upon a spawned task. -/
theorem exited_iff {as : List (Act W T)} (hfew : (machine pool home).Every FewCalls initial as)
    (hrun : (machine pool home).exec initial as = some s) :
    s.exited = true ↔ ¬ (machine pool home).Every (OwnWorkers pool home) initial as := by
  refine (Machine.exec_iff_not_every (Q := fun s => s.exited = true)
    (p := OwnWorkers pool home) (fun s a t hr _ hs => ?_)
    (.init rfl) hfew hrun).trans (by simp [initial])
  obtain ⟨hexited, hs⟩ := step_cases hs
  cases hs with
  | handleRemoteSpawn hw => simp [OwnWorkers, hw]
  | @failRemoteSpawn current u hcurrent =>
    cases current with
    | none => simp [failRemoteSpawn, OwnWorkers, hexited]
    | some w =>
      have hne : pool w ≠ home u := fun he => by
        simp [currentWorkerHandle_eq_some.mpr ⟨rfl, he⟩] at hcurrent
      simp [failRemoteSpawn, OwnWorkers, hne]
  | failLocal hnew hw hne => exact absurd ((reachable_inv hr _).home_of_doPoll hnew hw) hne
  | notify =>
    unfold notify
    split <;> simp [OwnWorkers]
  | _ => simp [OwnWorkers]

/-- Two pools share an event queue, and a worker of `false` comes upon a task of `true`. -/
theorem exited_iff_alienWorker : ∃ s : State Bool Unit,
    (machine (id : Bool → Bool) fun _ => true).exec initial
      [.spawn (), .handleRemoteSpawn (some false) ()] = some s ∧ s.exited = true ∧
    (s.exited = true ↔ ¬ (machine (id : Bool → Bool) fun _ => true).Every
      (OwnWorkers id fun _ => true) initial
        ([.spawn (), .handleRemoteSpawn (some false) ()] : List (Act Bool Unit))) :=
  ⟨_, rfl, rfl, exited_iff (by simp [Machine.Every, FewCalls]) rfl⟩

theorem step_orphaned (h : s.orphaned t = true) (hs : step pool home s a = some s') :
    s'.orphaned t = true := by
  cases (step_cases hs).2 with
  | @failRemoteSpawn current u =>
    by_cases ht : t = u
    · simp [failRemoteSpawn, ht]
    · simpa [failRemoteSpawn, ht] using h
  | @notify u =>
    unfold notify
    split
    · by_cases ht : t = u
      · simp [ht]
      · simpa [ht] using h
    · exact h
  | _ => exact h

theorem never_polled_of_orphaned {as : List (Act W T)}
    (h : (machine pool home).ReachesUnder FewCalls s) (ho : s.orphaned t = true)
    (hfew : (machine pool home).Every FewCalls s as)
    (hrun : (machine pool home).exec s as = some s') (w : W) (level : ℕ) :
    .work (.beginPoll w t level) ∉ as := by
  intro hmem
  have key := Machine.exec_forall (P := fun a => a ≠ .work (.beginPoll w t level))
    (I := fun s => (machine pool home).ReachesUnder FewCalls s ∧ s.orphaned t = true) ⟨h, ho⟩
    (fun s a u ⟨hr, ho⟩ hok hs => ⟨⟨.step hr hok hs, step_orphaned ho hs⟩, ?_⟩) hfew hrun
  · exact key _ hmem rfl
  · rintro rfl
    have hpolling : s.tasks.activity w = .doPoll t (.poll level) := by
      obtain ⟨-, hstep⟩ : _ ∧ Step pool home s (.work (.beginPoll w t level)) u := step_cases hs
      cases hstep with
      | beginPoll hx => exact (Option.ite_none_right_eq_some.mp hx).1
      | failLocal _ hw => exact hw
      | work _ _ hno => exact absurd rfl (hno w t level)
    have := ((reachable_inv hr t).held_of_doPoll hpolling).1
    simp [ho] at this

/-- A notification from a thread that is no worker is as good as any other as long as the task is
not suspended; a suspended task it makes impossible to poll ever again. -/
theorem foreign_notify_orphans {u : State W T} (h : (machine pool home).ReachesUnder FewCalls s)
    (hfew : FewCalls s (.notify t)) (hs : (machine pool home).step s (.notify t) = some u)
    (hf : s.tasks.future t = .pending) (ho : s.orphaned t = false) :
    (s.tasks.suspended t = false → GlobalTask.OwesPoll u.tasks t) ∧
    (s.tasks.suspended t = true → ∀ as s', (machine pool home).Every FewCalls u as →
      (machine pool home).exec u as = some s' →
      s'.tasks.future t = .pending ∧ ∀ w level, .work (.beginPoll w t level) ∉ as) := by
  have hu : (machine pool home).ReachesUnder FewCalls u := .step h hfew hs
  have hinv := (reachable_inv h t).held ho
  obtain ⟨count, hl⟩ := hinv.level (by simp [hf])
  obtain ⟨-, hstep⟩ : _ ∧ Step pool home s (.notify t) u := step_cases hs
  cases hstep with
  | notify =>
    refine ⟨fun hawake => ?_, fun hsus as s' hfew' hrun => ?_⟩
    · have hlevel := level_ne_zero hinv hf hawake hfew
      rw [notify, if_neg hlevel]
      exact ((inv_raise hinv hfew (by simp [hf]) hlevel).owesPoll hf (by simp [raise])).2
    · have hzero : s.tasks.signalLevel t = 0 := by rw [hl.word, hl.zero.mp hsus, Nat.zero_mod]
      have hou : (notify s t).orphaned t = true := by simp [notify, hzero]
      have ho' : s'.orphaned t = true :=
        Machine.exec_invariant (I := fun s => s.orphaned t = true) (q := fun _ _ => True) hou
          (fun _ _ _ hi _ hs => step_orphaned hi hs)
          (Machine.every_of_forall fun _ _ _ => trivial) hrun
      exact ⟨((reachable_inv (hu.exec hfew' hrun) t).lost ho').pending,
        never_polled_of_orphaned hu hou hfew' hrun⟩

def firstPoll : List (Act Bool Unit) :=
  [.work (.beginPoll true () 1), .work (.pollNotReady true () 1),
    .work (.compareExchange true () 1)]

theorem firstPoll_foreign_notify : ∃ s u : State Bool Unit,
    (machine (id : Bool → Bool) fun _ => true).exec initial (toFirstPoll ++ firstPoll) = some s ∧
      (machine (id : Bool → Bool) fun _ => true).step s (.notify ()) = some u ∧
      s.tasks.suspended () = true ∧
      ∀ as s', (machine (id : Bool → Bool) fun _ => true).Every FewCalls u as →
        (machine (id : Bool → Bool) fun _ => true).exec u as = some s' →
        s'.tasks.future () = .pending ∧ ∀ w level, .work (.beginPoll w () level) ∉ as := by
  have hreach := Machine.ReachesUnder.exec (.init rfl)
    (show (machine (id : Bool → Bool) fun _ : Unit => true).Every FewCalls initial
      (toFirstPoll ++ firstPoll) from Machine.every_of_forall fun s a ha => by
        simp only [toFirstPoll, firstPoll, List.cons_append, List.nil_append, List.mem_cons,
          List.not_mem_nil, or_false] at ha
        rcases ha with rfl | rfl | rfl | rfl | rfl | rfl | rfl | rfl <;> trivial)
    (show (machine (id : Bool → Bool) fun _ : Unit => true).exec initial _ = some _ from rfl)
  exact ⟨_, _, rfl, rfl, rfl, (foreign_notify_orphans hreach
    (show 0 + 1 < 2 ^ 64 by decide) rfl rfl rfl).2 rfl⟩

end CompleteIo.Pools
