import CompleteIo.Epoll.CustomEventDelivery

namespace CompleteIo.CustomEvent

variable {P Θ D : Type*}

/-- The datum of a post goes with the number of the post, which tells it apart from all others. -/
def numbered (s : State P Θ (ℕ × D)) : Act P Θ (ℕ × D) → Bool
  | .push _ post => post.1 = s.pushed.length
  | _ => true

/-- The handler has been given the datum of no post that returned `Err`. -/
def RefusedUnseen (s : State P Θ (ℕ × D)) : Prop := ∀ post ∈ s.delivered, post ∉ s.refused

structure Posted (s : State P Θ D) : Prop where
  posting : ∀ p d, (p, d) ∈ s.posting → d ∈ s.pushed
  refused : ∀ d ∈ s.refused, d ∈ s.pushed

section Step

variable [DecidableEq P] [DecidableEq Θ] [DecidableEq D]

/-- The custom event, whose posts are numbered in the order of their pushes. -/
def posts (P Θ D : Type*) [DecidableEq P] [DecidableEq Θ] [DecidableEq D] :
    Machine (State P Θ (ℕ × D)) (Act P Θ (ℕ × D)) where
  init s := s = initial
  step s a := if numbered s a then step s a else none

theorem step_posted {s t : State P Θ D} {a : Act P Θ D} (h : Posted s) (hs : step s a = some t) :
    Posted t := by
  cases step_cases hs with
  | @push p d =>
    refine ⟨fun q e hq => ?_, fun e he => List.mem_append_left _ (h.refused e he)⟩
    rcases List.mem_cons.mp hq with hq | hq
    · cases hq
      simp
    · exact List.mem_append_left _ (h.posting q e hq)
  | write => exact ⟨fun q e hq => h.posting q e (List.mem_of_mem_erase hq), h.refused⟩
  | writeFailed hp =>
    refine ⟨fun q e hq => h.posting q e (List.mem_of_mem_erase hq), fun e he => ?_⟩
    rcases List.mem_cons.mp he with rfl | he
    · exact h.posting _ _ hp
    · exact h.refused e he
  | _ => exact ⟨h.posting, h.refused⟩

theorem reachable_posted {s : State P Θ D} (h : (machine P Θ D).Reachable s) : Posted s :=
  h.invariant (fun _ hs => by
    obtain rfl := hs
    constructor <;> simp [initial]) fun _ _ _ _ hp _ hs => step_posted hp hs

/-- A post that has pushed can write, which makes the eventfd readable. -/
theorem exists_write {s : State P Θ D} {p : P} {d : D} (hp : (p, d) ∈ s.posting) :
    ∃ t, step s (.write p d true) = some t ∧ 0 < t.counter ∧
      t.turns = s.turns ∧ t.armed = s.armed := by
  refine ⟨{ s with counter := s.counter + 1, posting := s.posting.erase (p, d) }, ?_,
    Nat.succ_pos _, rfl, rfl⟩
  simp only [step, if_pos hp, if_true]

variable {s t : State P Θ (ℕ × D)} {a : Act P Θ (ℕ × D)} {i : Θ}

theorem posts_step (ha : numbered s a = true) (hs : step s a = some t) :
    (posts P Θ D).step s a = some t := (if_pos ha).trans hs

theorem step_of_posts (hs : (posts P Θ D).step s a = some t) : step s a = some t :=
  (Option.ite_none_right_eq_some.mp hs).2

/-- Numbered posts are posts. -/
theorem reachesUnder_of_posts {ok : State P Θ (ℕ × D) → Act P Θ (ℕ × D) → Prop}
    (h : (posts P Θ D).ReachesUnder ok s) : (machine P Θ (ℕ × D)).ReachesUnder ok s := by
  induction h with
  | init h => exact .init h
  | step _ hok hs ih => exact .step ih hok (step_of_posts hs)

theorem step_mem_refused {x : ℕ × D} (hx : x ∈ s.refused) (hs : step s a = some t) :
    x ∈ t.refused := by
  cases step_cases hs with
  | writeFailed => exact List.mem_cons_of_mem _ hx
  | _ => exact hx

theorem leads_mem_refused {x : ℕ × D} (hx : x ∈ s.refused) (h : (posts P Θ D).Leads s t) :
    x ∈ t.refused := by
  obtain ⟨as, hrun⟩ := h
  exact Machine.exec_invariant (I := fun s => x ∈ s.refused) (q := fun _ _ => True) hx
    (fun _ _ _ hx _ hs => step_mem_refused hx (step_of_posts hs))
    (Machine.every_of_forall fun _ _ _ => trivial) hrun

theorem leads_of_calling {x : ℕ × D} (hpc : s.turns i = .calling x) :
    ∃ t, (posts P Θ D).Leads s t ∧ t.turns i = .draining ∧ t.queue = s.queue := by
  have hreturn : (posts P Θ D).step s (.handlerReturn i) = some (s.setTurn i .draining) :=
    posts_step rfl (by simp only [step, hpc])
  exact ⟨_, .step hreturn .refl, Function.update_self .., rfl⟩

theorem leads_of_popped {x : ℕ × D} (hpc : s.turns i = .popped x) :
    ∃ t, (posts P Θ D).Leads s t ∧ t.turns i = .draining ∧ t.queue = s.queue := by
  have hcall : (posts P Θ D).step s (.call i) =
      some ({ s with delivered := s.delivered ++ [x] }.setTurn i (.calling x)) :=
    posts_step rfl (by simp only [step, hpc])
  obtain ⟨t, hst, ht, hqueue⟩ := leads_of_calling
    (s := { s with delivered := s.delivered ++ [x] }.setTurn i (.calling x))
    (Function.update_self ..)
  exact ⟨t, .step hcall hst, ht, hqueue⟩

theorem leads_of_reading (hpc : s.turns i = .reading) (hpos : 0 < s.counter) :
    ∃ t, (posts P Θ D).Leads s t ∧ t.turns i = .draining := by
  have hread : (posts P Θ D).step s (.read i) =
      some ({ s with counter := s.counter - 1 }.setTurn i .draining) :=
    posts_step rfl (by simp only [step, hpc, if_pos hpos])
  exact ⟨_, .step hread .refl, Function.update_self ..⟩

theorem leads_of_copied (hpc : s.turns i = .copied) (hpos : 0 < s.counter) :
    ∃ t, (posts P Θ D).Leads s t ∧ t.turns i = .draining := by
  have hdispatch : (posts P Θ D).step s (.dispatch i) = some (s.setTurn i .reading) :=
    posts_step rfl (by simp only [step, hpc])
  obtain ⟨t, hst, ht⟩ := leads_of_reading (s := s.setTurn i .reading)
    (Function.update_self ..) hpos
  exact ⟨t, .step hdispatch hst, ht⟩

/-- A drain that goes on finds the queue empty in the end. -/
theorem leads_drained (hpc : s.turns i = .draining) :
    ∃ t, (posts P Θ D).Leads s t ∧ t.turns i = .draining ∧ t.queue = [] := by
  induction hq : s.queue generalizing s with
  | nil => exact ⟨s, .refl, hpc, hq⟩
  | cons x rest ih =>
    have hpop : (posts P Θ D).step s (.tryPop i) =
        some ({ s with queue := rest }.setTurn i (.popped x)) :=
      posts_step rfl (by simp only [step, hpc, hq])
    obtain ⟨t, hst, ht, hqueue⟩ := leads_of_popped
      (s := { s with queue := rest }.setTurn i (.popped x)) (Function.update_self ..)
    obtain ⟨u, htu, hu⟩ := ih ht hqueue
    exact ⟨u, .step hpop (hst.trans htu), hu⟩

theorem leads_of_readable (hidle : s.turns i = .idle) (harmed : s.armed = true)
    (hpos : 0 < s.counter) : ∃ t, (posts P Θ D).Leads s t ∧ t.turns i = .draining := by
  have hdeliver : (posts P Θ D).step s (.deliver i) =
      some ({ s with armed := false }.setTurn i .copied) :=
    posts_step rfl (by simp only [step, hidle, if_pos (And.intro harmed hpos)])
  obtain ⟨t, hst, ht⟩ := leads_of_copied (s := { s with armed := false }.setTurn i .copied)
    (Function.update_self ..) hpos
  exact ⟨t, .step hdeliver hst, ht⟩

theorem leads_of_posting {p : P} {x : ℕ × D} (hidle : s.turns i = .idle)
    (harmed : s.armed = true) (hp : (p, x) ∈ s.posting) :
    ∃ t, (posts P Θ D).Leads s t ∧ t.turns i = .draining := by
  obtain ⟨r, hwrite, hpos, hsame⟩ := exists_write hp
  obtain ⟨t, hst, ht⟩ := leads_of_readable (s := r) (i := i) (hsame.1 ▸ hidle)
    (hsame.2 ▸ harmed) hpos
  exact ⟨t, .step (posts_step rfl hwrite) hst, ht⟩

/-- The eventfd is readable, or becomes so by the write of a post that has pushed, or of a new
one. -/
theorem leads_of_armed (hidle : s.turns i = .idle) (harmed : s.armed = true) (p : P) (d : D) :
    ∃ t, (posts P Θ D).Leads s t ∧ t.turns i = .draining := by
  by_cases hpos : 0 < s.counter
  · exact leads_of_readable hidle harmed hpos
  cases hposting : s.posting with
  | cons post rest =>
    have hmem : (post.1, post.2) ∈ s.posting := by simp [hposting]
    exact leads_of_posting hidle harmed hmem
  | nil =>
    have hpush : (posts P Θ D).step s (.push p (s.pushed.length, d)) = some { s with
        queue := s.queue ++ [(s.pushed.length, d)]
        pushed := s.pushed ++ [(s.pushed.length, d)]
        posting := [(p, s.pushed.length, d)] } :=
      posts_step (by simp [numbered]) (by simp [step, hposting])
    obtain ⟨t, hst, ht⟩ := leads_of_posting (i := i) (p := p) (x := (s.pushed.length, d))
      (s := { s with
        queue := s.queue ++ [(s.pushed.length, d)]
        pushed := s.pushed ++ [(s.pushed.length, d)]
        posting := [(p, s.pushed.length, d)] }) hidle harmed List.mem_cons_self
    exact ⟨t, .step hpush hst, ht⟩

/-- A turn without an event is idle, or becomes so when `handle_event` returns. -/
theorem leads_idle (hno : ¬ (s.turns i).HasEvent) :
    ∃ t, (posts P Θ D).Leads s t ∧ t.turns i = .idle ∧ t.armed = s.armed := by
  cases hpc : s.turns i with
  | idle => exact ⟨s, .refl, hpc, rfl⟩
  | returning =>
    have hreturned : (posts P Θ D).step s (.returned i) = some (s.setTurn i .idle) :=
      posts_step rfl (by simp only [step, hpc])
    exact ⟨_, .step hreturned .refl, Function.update_self .., rfl⟩
  | _ => simp [hpc] at hno

theorem leads_of_free (hno : ¬ (s.turns i).HasEvent) (harmed : s.armed = true) (p : P) (d : D) :
    ∃ t, (posts P Θ D).Leads s t ∧ t.turns i = .draining := by
  obtain ⟨u, hsu, hidle, hu⟩ := leads_idle hno
  obtain ⟨t, hut, ht⟩ := leads_of_armed hidle (hu.trans harmed) p d
  exact ⟨t, hsu.trans hut, ht⟩

/-- From any state some turn can come to drain the queue. -/
theorem leads_draining [Nonempty Θ] (h : Inv s) (p : P) (d : D) :
    ∃ t i, (posts P Θ D).Leads s t ∧ t.turns i = .draining := by
  cases harmed : s.armed with
  | true =>
    obtain ⟨i⟩ := ‹Nonempty Θ›
    have hno := OneToken.idle_of_free (harmed ▸ h.oneShot) i
    obtain ⟨t, hst, ht⟩ := leads_of_free hno harmed p d
    exact ⟨t, i, hst, ht⟩
  | false =>
    obtain ⟨i, hi⟩ := OneToken.exists_busy (harmed ▸ h.oneShot)
    cases hpc : s.turns i with
    | idle | returning => simp [hpc] at hi
    | copied =>
      obtain ⟨t, hst, ht⟩ := leads_of_copied hpc (h.readable i (.inl hpc))
      exact ⟨t, i, hst, ht⟩
    | reading =>
      obtain ⟨t, hst, ht⟩ := leads_of_reading hpc (h.readable i (.inr hpc))
      exact ⟨t, i, hst, ht⟩
    | draining => exact ⟨s, i, .refl, hpc⟩
    | popped x =>
      obtain ⟨t, hst, ht, -⟩ := leads_of_popped hpc
      exact ⟨t, i, hst, ht⟩
    | calling x =>
      obtain ⟨t, hst, ht, -⟩ := leads_of_calling hpc
      exact ⟨t, i, hst, ht⟩
    | rearming =>
      have hmodify : (posts P Θ D).step s (.modify i) =
          some ({ s with armed := true }.setTurn i .returning) :=
        posts_step rfl (by simp only [step, hpc])
      have hno : ¬ (({ s with armed := true }.setTurn i .returning).turns i).HasEvent := by
        simp [State.setTurn]
      obtain ⟨t, hst, ht⟩ := leads_of_free hno rfl p d
      exact ⟨t, i, .step hmodify hst, ht⟩

/-- At the end of a drain the handler has been given all that was pushed. -/
theorem leads_seen [Nonempty Θ] (hr : (posts P Θ D).Reachable s) {p : P} {x : ℕ × D}
    (hx : x ∈ s.refused) : ∃ t, (posts P Θ D).Leads s t ∧ ¬ RefusedUnseen t := by
  obtain ⟨u, i, hsu, hu⟩ := leads_draining (reachable_inv (reachesUnder_of_posts hr)) p x.2
  obtain ⟨t, hut, hpc, hqueue⟩ := leads_drained hu
  have hst := hsu.trans hut
  have hreached := reachesUnder_of_posts (hr.leads hst)
  have hrefused := leads_mem_refused hx hst
  have horder := (reachable_inv hreached).orderBusy i (by simp [hpc])
  simp only [hpc, hqueue, TurnPc.inHand, List.append_nil] at horder
  have hseen : x ∈ t.delivered := horder ▸ (reachable_posted hreached).refused x hrefused
  exact ⟨t, hst, fun hunseen => hunseen x hseen hrefused⟩

/-- No datum of a failed post is handled as long as no write fails, and after any write that fails
its datum may be handled. -/
theorem refused_unseen_while_writes_succeed [Nonempty Θ] :
    (∀ s, (posts P Θ D).ReachesUnder WritesSucceed s → RefusedUnseen s) ∧
    ∀ s p x t, (posts P Θ D).Reachable s → (posts P Θ D).step s (.write p x false) = some t →
      ∃ u, (posts P Θ D).Leads t u ∧ ¬ RefusedUnseen u := by
  refine ⟨fun s h post _ => ?_, fun s p x t hr hs => ?_⟩
  · simp [refused_eq_nil (reachesUnder_of_posts h)]
  · have hx : x ∈ t.refused := by
      cases step_cases (step_of_posts hs) with
      | writeFailed => exact List.mem_cons_self
    exact leads_seen (.step hr trivial hs) (p := p) hx

end Step

def handledPost : List (Act Unit Unit (ℕ × ℕ)) :=
  [.push () (0, 7), .write () (0, 7) true, .deliver (), .dispatch (), .read (), .tryPop (),
    .call ()]

theorem handledPost_unseen : ∃ s : State Unit Unit (ℕ × ℕ),
    (posts _ _ _).exec initial handledPost = some s ∧ s.delivered = [(0, 7)] ∧ RefusedUnseen s :=
  ⟨_, rfl, rfl, refused_unseen_while_writes_succeed.1 _ (Machine.ReachesUnder.exec (.init rfl)
    (show (posts Unit Unit ℕ).Every WritesSucceed initial handledPost by
      simp [handledPost, Machine.Every, WritesSucceed])
    (show (posts Unit Unit ℕ).exec initial handledPost = some _ from rfl))⟩

/-- A post that fails, and a later one whose event drains the queue. -/
def failedThenDrained : List (Act Unit Unit (ℕ × ℕ)) :=
  [.push () (0, 7), .write () (0, 7) false, .push () (1, 8), .write () (1, 8) true, .deliver (),
    .dispatch (), .read (), .tryPop (), .call ()]

theorem failedThenDrained_seen :
    (∃ s, (posts Unit Unit ℕ).exec initial failedThenDrained = some s ∧
      s.refused = [(0, 7)] ∧ s.delivered = [(0, 7)]) ∧
    ¬ ∀ s, (posts Unit Unit ℕ).Reachable s → RefusedUnseen s := by
  have hrun : ∃ s, (posts Unit Unit ℕ).exec initial failedThenDrained = some s ∧
      s.refused = [(0, 7)] ∧ s.delivered = [(0, 7)] := ⟨_, rfl, rfl, rfl⟩
  refine ⟨hrun, fun h => ?_⟩
  obtain ⟨s, hs, hrefused, hdelivered⟩ := hrun
  exact h s (Machine.reachable_of_exec rfl hs) (0, 7) (by simp [hdelivered]) (by simp [hrefused])

end CompleteIo.CustomEvent
