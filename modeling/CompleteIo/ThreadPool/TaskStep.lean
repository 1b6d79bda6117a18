import CompleteIo.ThreadPool.TaskOwnership

namespace CompleteIo.GlobalTask

variable {W T : Type*} [DecidableEq T] {s s' : State W T} {t : T} {w : W}

theorem occupancy_queued (h : t ∈ s.deque w) : occupancy s t (.queued w) ≠ 0 :=
  Nat.ne_of_gt (List.count_pos_iff.mpr h)

theorem occupancy_spawning (h : s.activity w = .spawning t) : occupancy s t (.spawning w) ≠ 0 := by
  simp [occupancy, h]

theorem occupancy_doPoll {pc : PollPc} (h : s.activity w = .doPoll t pc) :
    occupancy s t (.doPoll w) ≠ 0 := by
  simp [occupancy, h, Activity.polls]

/-- A poll in progress: the task is with this worker alone, and is not suspended. -/
theorem Inv.at_doPoll (h : Inv s t) {pc : PollPc} (hw : s.activity w = .doPoll t pc) :
    s.future t = .pending ∧ AtOnly (occupancy s t) (.doPoll w) ∧
      ∃ count, Level s t count ∧ 0 < count ∧ pc.Covers count (s.owed t) := by
  obtain ⟨hf, hat⟩ := h.at (occupancy_doPoll hw)
  obtain ⟨count, hl⟩ := h.level (by simp [hf])
  refine ⟨hf, hat, count, hl, Nat.pos_of_ne_zero fun h0 => ?_, hl.covers w pc hw⟩
  have hz := hat.elsewhere .suspended (by simp)
  simp [occupancy, hl.zero.mpr h0] at hz

/-- The task goes from one place to another, at the same level. -/
theorem Inv.move (h : Inv s t) {p q : Place W} (hp : occupancy s t p ≠ 0)
    (hfuture : s'.future t = s.future t) (hcalls : s'.calls t = s.calls t)
    (hlevel : ∀ count, Level s t count → Level s' t count)
    (hmove : AtOnly (occupancy s t) p → AtOnly (occupancy s' t) q) : Inv s' t := by
  obtain ⟨hf, hat⟩ := h.at hp
  obtain ⟨count, hl⟩ := h.level (by simp [hf])
  refine ⟨fun _ => ⟨q, hmove hat⟩, fun hn => absurd (hfuture.trans hf) hn,
    fun _ => ⟨count, hlevel count hl⟩, ?_⟩
  rw [hcalls]
  exact h.few

theorem inv_spawnFuture (h : Inv s t) (hf : s.future t = .unspawned) :
    Inv { s.setLevel t 1 with
      future := Function.update s.future t .pending
      posted := s.posted ++ [t] } t := by
  have habsent := h.absent (by simp [hf])
  refine ⟨fun _ => ⟨.posted, .appear habsent ?_ ?_⟩, fun hn => ?_, fun _ => ⟨1, ?_⟩, h.few⟩
  · have := habsent .posted
    simp only [occupancy] at this
    simp [occupancy, this]
  · rintro (_ | v | v | v | v | _) hp
    · exact absurd rfl hp
    all_goals rfl
  · simp at hn
  · have hsus := habsent .suspended
    refine ⟨by simp [State.setLevel], by simp, ?_, by simp, fun v pc hv => ?_⟩
    · simpa [State.setLevel, occupancy] using hsus
    · exact absurd (habsent (.doPoll v)) (occupancy_doPoll hv)

variable [DecidableEq W] {a : Act W T}

theorem occupancy_setActivity {x : Activity T} {p : Place W} (hs : p ≠ .spawning w)
    (hp : p ≠ .doPoll w) : occupancy (s.setActivity w x) t p = occupancy s t p := by
  cases p with
  | spawning v =>
    have hv : v ≠ w := fun h => hs (by rw [h])
    simp only [occupancy, State.setActivity, Function.update_of_ne hv]
  | doPoll v =>
    have hv : v ≠ w := fun h => hp (by rw [h])
    simp only [occupancy, State.setActivity, Function.update_of_ne hv]
  | _ => rfl

@[simp] theorem occupancy_setActivity_spawning {x : Activity T} :
    occupancy (s.setActivity w x) t (.spawning w) = if x = .spawning t then 1 else 0 := by
  simp only [occupancy, State.setActivity, Function.update_self]

@[simp] theorem occupancy_setActivity_doPoll {x : Activity T} :
    occupancy (s.setActivity w x) t (.doPoll w) = if x.polls t then 1 else 0 := by
  simp only [occupancy, State.setActivity, Function.update_self]

theorem occupancy_pushTo {p : Place W} (hp : p ≠ .queued w) :
    occupancy (s.pushTo w t) t p = occupancy s t p := by
  cases p with
  | queued v =>
    have hv : v ≠ w := fun h => hp (by rw [h])
    simp only [occupancy, State.pushTo, Function.update_of_ne hv]
  | _ => rfl

@[simp] theorem occupancy_pushTo_queued :
    occupancy (s.pushTo w t) t (.queued w) = occupancy s t (.queued w) + 1 := by
  simp [occupancy, State.pushTo]

omit [DecidableEq T] in
/-- A worker turns to another activity, which does not poll the task or polls it rightly. -/
theorem Level.setActivity {count : ℕ} (hl : Level s t count) {x : Activity T}
    (hx : ∀ pc, x = .doPoll t pc → pc.Covers count (s.owed t)) :
    Level (s.setActivity w x) t count := by
  refine ⟨hl.word, hl.bound, hl.zero, hl.quiet, fun v pc hv => ?_⟩
  by_cases hvw : v = w
  · subst hvw
    exact hx pc (by simpa [State.setActivity] using hv)
  · simp only [State.setActivity, Function.update_of_ne hvw] at hv
    exact hl.covers v pc hv

/-- The worker goes on with the task it polls, after a step that touched nothing else. -/
theorem Inv.setActivity_doPoll (h : Inv s t) {pc pc' : PollPc} (hw : s.activity w = .doPoll t pc)
    (hpc : ∀ count, Level s t count → 0 < count → pc.Covers count (s.owed t) →
      pc'.Covers count (s.owed t)) :
    Inv (s.setActivity w (.doPoll t pc')) t := by
  obtain ⟨hf, hat, count, hl, hpos, hcov⟩ := h.at_doPoll hw
  refine ⟨fun _ => ⟨.doPoll w, by simp [Activity.polls], fun p hp => ?_⟩, fun hn => absurd hf hn,
    fun _ => ⟨count, hl.setActivity fun pc'' hx => ?_⟩, h.few⟩
  · by_cases hs : p = .spawning w
    · simp [hs]
    · rw [occupancy_setActivity hs hp, hat.elsewhere p hp]
  · obtain rfl : pc' = pc'' := by simpa using hx
    exact hpc count hl hpos hcov

theorem inv_takeDatum (h : Inv s t) (hidle : s.activity w = .idle) (hmem : t ∈ s.posted) :
    Inv ({ s with posted := s.posted.erase t }.setActivity w (.spawning t)) t := by
  have hposted : occupancy s t .posted ≠ 0 := Nat.ne_of_gt (List.count_pos_iff.mpr hmem)
  refine h.move (q := .spawning w) hposted rfl rfl (fun count hl => ?_) fun hat =>
    hat.move ?_ (by simp) fun p hp hq => ?_
  · exact Level.setActivity (s := { s with posted := s.posted.erase t })
      ⟨hl.word, hl.bound, hl.zero, hl.quiet, hl.covers⟩ fun pc hx => absurd hx (by simp)
  · have := hat.here
    simp only [occupancy] at this
    simp [occupancy, State.setActivity, List.count_erase_self, this]
  · by_cases hpw : p = .doPoll w
    · simp [hpw, occupancy, State.setActivity, hidle, Activity.polls]
    · rw [occupancy_setActivity hq hpw]
      cases p <;> first | exact absurd rfl hp | rfl

theorem inv_pushSpawned (h : Inv s t) (hw : s.activity w = .spawning t) :
    Inv ((s.pushTo w t).setActivity w .idle) t := by
  refine h.move (q := .queued w) (occupancy_spawning hw) rfl rfl (fun count hl => ?_) fun hat =>
    hat.move (by simp) ?_ fun p hp hq => ?_
  · exact Level.setActivity (s := s.pushTo w t)
      ⟨hl.word, hl.bound, hl.zero, hl.quiet, hl.covers⟩ fun pc hx => absurd hx (by simp)
  · rw [occupancy_setActivity (by simp) (by simp), occupancy_pushTo_queued,
      hat.elsewhere _ (by simp)]
  · by_cases hpw : p = .doPoll w
    · subst hpw
      rw [hat.elsewhere _ hp]
      simp [Activity.polls]
    · rw [occupancy_setActivity hp hpw, occupancy_pushTo hq]

theorem inv_steal (h : Inv s t) (hidle : s.activity w = .idle) (hmem : t ∈ s.deque w) :
    Inv ({ s with deque := Function.update s.deque w ((s.deque w).erase t) }.setActivity w
      (.doPoll t .load)) t := by
  refine h.move (q := .doPoll w) (occupancy_queued hmem) rfl rfl (fun count hl => ?_) fun hat =>
    hat.move ?_ (by simp [Activity.polls]) fun p hp hq => ?_
  · refine Level.setActivity
      (s := { s with deque := Function.update s.deque w ((s.deque w).erase t) })
      ⟨hl.word, hl.bound, hl.zero, hl.quiet, hl.covers⟩ fun pc hx => ?_
    obtain rfl : PollPc.load = pc := by simpa using hx
    trivial
  · have := hat.here
    simp only [occupancy] at this
    simp [occupancy, State.setActivity, List.count_erase_self, this]
  · by_cases hpw : p = .spawning w
    · simp [hpw, occupancy, State.setActivity, hidle]
    · rw [occupancy_setActivity hpw hq]
      cases p with
      | queued v =>
        have hv : v ≠ w := fun hv => hp (by rw [hv])
        simp only [occupancy, Function.update_of_ne hv]
      | _ => rfl

theorem inv_resolve (h : Inv s t) {pc : PollPc} (hw : s.activity w = .doPoll t pc)
    {x : Activity T} (hx : ¬ x.On t) : Inv ((s.resolve t).setActivity w x) t := by
  obtain ⟨hf, hat, count, hl, -, -⟩ := h.at_doPoll hw
  have hsp : x ≠ .spawning t := fun he => hx (by simp [he])
  have hpoll : x.polls t = false := by
    cases x <;> simp_all [Activity.polls]
  refine ⟨fun hp => ?_, fun _ => hat.vanish (by simp [hpoll]) fun p hp => ?_,
    fun _ => ⟨count, ?_⟩, h.few⟩
  · simp [State.resolve, State.setActivity] at hp
  · by_cases hpw : p = .spawning w
    · simp [hpw, hsp, hat.elsewhere]
    · rw [occupancy_setActivity hpw hp]
      rfl
  · refine Level.setActivity (s := s.resolve t)
      ⟨hl.word, hl.bound, hl.zero, hl.quiet, hl.covers⟩ fun pc he => ?_
    exact absurd (by simp [he]) hx

theorem inv_push (h : Inv s t) (hmem : t ∈ s.pushing w) :
    Inv ({ s with pushing := Function.update s.pushing w ((s.pushing w).erase t) }.pushTo w t)
      t := by
  have hpushing : occupancy s t (.pushing w) ≠ 0 := Nat.ne_of_gt (List.count_pos_iff.mpr hmem)
  refine h.move (q := .queued w) hpushing rfl rfl (fun count hl => ?_) fun hat =>
    hat.move ?_ ?_ fun p hp hq => ?_
  · exact ⟨hl.word, hl.bound, hl.zero, hl.quiet, hl.covers⟩
  · have := hat.here
    simp only [occupancy] at this
    simp [occupancy, State.pushTo, List.count_erase_self, this]
  · rw [occupancy_pushTo_queued]
    exact congrArg (· + 1) (hat.elsewhere (.queued w) (by simp))
  · rw [occupancy_pushTo hq]
    cases p with
    | pushing v =>
      have hv : v ≠ w := fun hv => hp (by rw [hv])
      simp only [occupancy, Function.update_of_ne hv]
    | _ => rfl

theorem PollPc.Covers.forget {count : ℕ} {b : Bool} {pc : PollPc} (h : pc.Covers count b) :
    pc.Covers count false := by
  cases pc with
  | load | poll => exact h
  | polling | compareExchange =>
    obtain ⟨c, hc, hle, heq, -⟩ := h
    exact ⟨c, hc, hle, heq, by simp⟩

theorem inv_beginPoll (h : Inv s t) {level : ℕ} (hw : s.activity w = .doPoll t (.poll level)) :
    Inv ((s.setOwed t false).setActivity w (.doPoll t (.polling level))) t := by
  have h' : Inv (s.setOwed t false) t := by
    refine ⟨h.pending, h.absent, fun hf => ?_, h.few⟩
    obtain ⟨count, hl⟩ := h.level hf
    refine ⟨count, hl.word, hl.bound, hl.zero, by simp [State.setOwed], fun v pc hv => ?_⟩
    simpa [State.setOwed] using (hl.covers v pc hv).forget
  refine h'.setActivity_doPoll hw fun count _ _ hcov => ?_
  obtain ⟨c, hc, hle, heq⟩ := hcov
  exact ⟨c, hc, hle, heq, by simp [State.setOwed]⟩

theorem inv_readLevel (h : Inv s t) {pc : PollPc} (hw : s.activity w = .doPoll t pc) :
    Inv (s.setActivity w (.doPoll t (.poll (s.signalLevel t)))) t :=
  h.setActivity_doPoll hw fun count hl hpos _ => ⟨count, hpos, le_refl count, hl.word⟩

/-- An exchange that succeeds covers every notification, since no level is met twice. -/
theorem inv_suspend (h : Inv s t)
    (hw : s.activity w = .doPoll t (.compareExchange (s.signalLevel t))) :
    Inv (((s.setLevel t 0).setSuspended t true).setActivity w .idle) t := by
  obtain ⟨hf, hat, count, hl, -, c, hc, hle, heq, howed⟩ := h.at_doPoll hw
  -- Both are at most `2 ^ 64 - 1`, so that equal words are equal counts.
  have hcount : c = count := by
    have hword := hl.word
    have hbound := hl.bound
    have hfew := h.few
    omega
  have hquiet : s.owed t = false := by
    rw [Bool.eq_false_iff]
    exact fun ho => absurd hcount (Nat.ne_of_lt (howed ho))
  refine ⟨fun _ => ⟨.suspended, hat.move (by simp [Activity.polls]) ?_ fun p hp hq => ?_⟩,
    fun hn => absurd hf hn, fun _ => ⟨0, ?_⟩, h.few⟩
  · simp [occupancy, State.setActivity, State.setSuspended]
  · by_cases hpw : p = .spawning w
    · simp [hpw, hat.elsewhere]
    · rw [occupancy_setActivity hpw hp]
      cases p <;> first | exact absurd rfl hq | rfl
  · refine ⟨by simp [State.setActivity, State.setSuspended, State.setLevel], Nat.zero_le _,
      by simp [State.setActivity, State.setSuspended], fun _ => hquiet, fun v pc hv => ?_⟩
    by_cases hvw : v = w
    · simp [hvw, State.setActivity] at hv
    · -- No other worker polls the task.
      simp only [State.setActivity, Function.update_of_ne hvw] at hv
      exact absurd (hat.elsewhere (.doPoll v) (by simp [hvw])) (occupancy_doPoll hv)

theorem inv_compareExchange (h : Inv s t) {level : ℕ}
    (hw : s.activity w = .doPoll t (.compareExchange level)) :
    Inv (compareExchange s w t level) t := by
  unfold compareExchange
  split
  · subst level
    exact inv_suspend h hw
  · exact inv_readLevel h hw

theorem PollPc.Covers.raise {count : ℕ} {b : Bool} {pc : PollPc} (h : pc.Covers count b) :
    pc.Covers (count + 1) true := by
  cases pc with
  | load => trivial
  | poll =>
    obtain ⟨c, hc, hle, heq⟩ := h
    exact ⟨c, hc, by omega, heq⟩
  | polling | compareExchange =>
    obtain ⟨c, hc, hle, heq, -⟩ := h
    exact ⟨c, hc, by omega, heq, by omega⟩

/-- With few calls the word is 0 only for a suspended task, which the caller then takes over. -/
theorem inv_fetchAdd (h : Inv s t) (hfew : s.calls t + 1 < 2 ^ 64) (hf : s.future t ≠ .unspawned) :
    Inv (fetchAdd s w t) t := by
  obtain ⟨count, hl⟩ := h.level hf
  have hbound := hl.bound
  have hword : s.signalLevel t = count := by rw [hl.word, Nat.mod_eq_of_lt (by omega)]
  unfold fetchAdd
  split
  case isTrue hzero =>
    have hcount : count = 0 := by omega
    have hsus : occupancy s t .suspended ≠ 0 := by simp [occupancy, hl.zero.mpr hcount]
    obtain ⟨hpend, hat⟩ := h.at hsus
    refine ⟨fun _ => ⟨.pushing w, hat.move ?_ ?_ fun p hp hq => ?_⟩, fun hn => absurd hpend hn,
      fun _ => ⟨count + 1, ?_⟩, by simpa [State.setSuspended] using hfew⟩
    · simp [occupancy, State.setSuspended]
    · have := hat.elsewhere (.pushing w) (by simp)
      simp only [occupancy] at this
      simp [occupancy, this]
    · cases p with
      | pushing v =>
        have hv : v ≠ w := fun hv => hq (by rw [hv])
        simp only [occupancy, Function.update_of_ne hv]
      | suspended => exact absurd rfl hp
      | _ => rfl
    · refine ⟨?_, ?_, by simp [State.setSuspended], by simp, fun v pc hv => ?_⟩
      · simp [State.setSuspended, State.setLevel, hword]
      · simpa [State.setSuspended] using hbound
      · simpa [State.setSuspended] using (hl.covers v pc hv).raise
  case isFalse hpos =>
    -- The task is not suspended, and whoever has it will see the level raised.
    have hcount : count ≠ 0 := by omega
    refine ⟨h.pending, h.absent, fun _ => ⟨count + 1, ?_, ?_, ?_, by simp, fun v pc hv => ?_⟩,
      by simpa using hfew⟩
    · simp [State.setLevel, hword]
    · simpa using hbound
    · simpa [State.setLevel] using hcount ∘ hl.zero.mp
    · simpa using (hl.covers v pc hv).raise

theorem step_inv (h : Inv s t) (hok : FewCalls s a) (hs : step s a = some s') : Inv s' t := by
  by_cases ht : t = a.task
  swap
  · exact h.of_same (step_other hs ht)
  cases a
  all_goals simp only [step, Option.ite_none_right_eq_some, Option.some.injEq] at hs
  all_goals obtain ⟨hg, rfl⟩ := hs
  all_goals simp only [Act.task] at ht
  all_goals subst ht
  case spawnFuture => exact inv_spawnFuture h hg
  case takeDatum => exact inv_takeDatum h hg.1 hg.2
  case pushSpawned => exact inv_pushSpawned h hg
  case steal => exact inv_steal h hg.1 hg.2
  case load => exact inv_readLevel h hg
  case beginPoll => exact inv_beginPoll h hg
  case pollNotReady => exact h.setActivity_doPoll hg fun _ _ _ hcov => hcov
  case pollReady | pollErr => exact inv_resolve h hg (by simp)
  case compareExchange => exact inv_compareExchange h hg
  case fetchAdd => exact inv_fetchAdd h hok hg
  case push => exact inv_push h hg

theorem reachable_inv (h : (machine W T).ReachesUnder FewCalls s) (t : T) : Inv s t :=
  h.invariant (fun _ hs => hs ▸ initial_inv t) fun _ _ _ _ hi hok hs => step_inv hi hok hs

end CompleteIo.GlobalTask
