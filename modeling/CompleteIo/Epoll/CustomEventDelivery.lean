import CompleteIo.Epoll.CustomEvent
import CompleteIo.Lib.Channel
import CompleteIo.Lib.OneToken

namespace CompleteIo.CustomEvent

variable {P Θ D : Type*} {s t : State P Θ D}

/-- What every step keeps. The one-shot entry is the token: it is armed, or exactly one turn
has its event. -/
structure Inv (s : State P Θ D) : Prop where
  oneShot : OneToken s.armed fun i => (s.turns i).HasEvent
  readable : ∀ i, s.turns i = .copied ∨ s.turns i = .reading → 0 < s.counter
  -- A datum that no drain is after was counted, unless its post is unfinished or failed.
  counted : (∀ i, ¬ (s.turns i).Draining) →
    s.queue.length ≤ s.counter + s.posting.length + s.refused.length
  orderArmed : s.armed = true → s.delivered ++ s.queue = s.pushed
  orderBusy : ∀ i, (s.turns i).HasEvent →
    s.delivered ++ (s.turns i).inHand ++ s.queue = s.pushed

theorem TurnPc.Draining.hasEvent {pc : TurnPc D} (h : pc.Draining) : pc.HasEvent := by
  cases pc <;> trivial

theorem Inv.no_event_of_ne (h : Inv s) {i j : Θ} (hi : (s.turns i).HasEvent) (hj : j ≠ i) :
    ¬ (s.turns j).HasEvent := fun hevent => hj (h.oneShot.unique hevent hi)

theorem Inv.counted_of_busy (h : Inv s) {i : Θ} (hi : (s.turns i).HasEvent)
    (hd : ¬ (s.turns i).Draining) :
    s.queue.length ≤ s.counter + s.posting.length + s.refused.length := by
  refine h.counted fun j => ?_
  by_cases hj : j = i
  · exact hj ▸ hd
  · exact fun hdraining => h.no_event_of_ne hi hj hdraining.hasEvent

/-- A step inside one turn: the turn keeps the event, and all else follows from what the step
did to the shared fields. -/
theorem Inv.setTurn [DecidableEq Θ] (h : Inv s) {i : Θ} {pc : TurnPc D}
    (hi : (s.turns i).HasEvent) (hpc : pc.HasEvent) (harmed : t.armed = s.armed)
    (hturns : t.turns = Function.update s.turns i pc)
    (hread : pc = .copied ∨ pc = .reading → 0 < t.counter)
    (hcount : ¬ pc.Draining → t.queue.length ≤ t.counter + t.posting.length + t.refused.length)
    (horder : t.delivered ++ pc.inHand ++ t.queue = t.pushed) : Inv t := by
  have hother : ∀ j, (t.turns j).HasEvent → j = i := by
    intro j hj
    by_contra hne
    rw [hturns, Function.update_of_ne hne] at hj
    exact h.no_event_of_ne hi hne hj
  have hself : t.turns i = pc := by rw [hturns, Function.update_self]
  constructor
  · rw [harmed]
    refine h.oneShot.congr fun j => ?_
    by_cases hj : j = i
    · subst hj
      exact iff_of_true (by rwa [hself]) hi
    · simp [hturns, Function.update_of_ne hj]
  · intro j hj
    obtain rfl := hother j (by rcases hj with hj | hj <;> simp [hj])
    exact hread (hself ▸ hj)
  · intro hd
    exact hcount (hself ▸ hd i)
  · intro ha
    have := h.oneShot.not_free hi
    simp [harmed, this] at ha
  · intro j hj
    obtain rfl := hother j hj
    rw [hself]
    exact horder

theorem initial_inv : Inv (initial : State P Θ D) := by
  constructor <;> simp [initial, OneToken]

theorem inv_push (h : Inv s) {p : P} {d : D} :
    Inv { s with
      queue := s.queue ++ [d]
      pushed := s.pushed ++ [d]
      posting := (p, d) :: s.posting } := by
  refine ⟨h.oneShot, h.readable, fun hd => ?_, fun ha => ?_, fun i hi => ?_⟩
  · -- The post that has just begun counts for its datum.
    have := h.counted hd
    simp only [List.length_append, List.length_cons, List.length_nil]
    omega
  · simpa using congrArg (· ++ [d]) (h.orderArmed ha)
  · simpa using congrArg (· ++ [d]) (h.orderBusy i hi)

/-- What a post counted for while it was unfinished, the eventfd or a refusal counts for now. -/
theorem inv_write [DecidableEq P] [DecidableEq D] (h : Inv s) {p : P} {d : D} {counter : ℕ}
    {refused : List D} (hp : (p, d) ∈ s.posting) (hcounter : s.counter ≤ counter)
    (hsum : s.counter + s.refused.length + 1 ≤ counter + refused.length) :
    Inv { s with counter := counter, refused := refused, posting := s.posting.erase (p, d) } := by
  refine ⟨h.oneShot, fun i hi => (h.readable i hi).trans_le hcounter, fun hd => ?_, h.orderArmed,
    h.orderBusy⟩
  have hlen := List.length_erase_of_mem hp
  have hpos := List.length_pos_of_mem hp
  have := h.counted hd
  simp only
  omega

theorem inv_deliver [DecidableEq Θ] (h : Inv s) {i : Θ} (harmed : s.armed = true)
    (hpos : 0 < s.counter) :
    Inv ({ s with armed := false }.setTurn i .copied) := by
  have hall : ∀ j, ¬ (s.turns j).HasEvent := OneToken.idle_of_free (harmed ▸ h.oneShot)
  have hturn : ∀ j, ((Function.update s.turns i .copied) j).HasEvent ↔ j = i := by
    intro j
    by_cases hj : j = i
    · simp [hj]
    · rw [Function.update_of_ne hj]
      exact iff_of_false (hall j) hj
  -- No turn had an event, so that `i` is the only one now.
  refine ⟨⟨i, hturn⟩, fun j _ => hpos, fun _ => ?_, by simp [State.setTurn], fun j hj => ?_⟩
  · exact h.counted fun j hd => hall j hd.hasEvent
  · obtain rfl := (hturn j).mp hj
    simpa [State.setTurn] using h.orderArmed harmed

theorem inv_modify [DecidableEq Θ] (h : Inv s) {i : Θ} (hpc : s.turns i = .rearming) :
    Inv ({ s with armed := true }.setTurn i .returning) := by
  have hbusy : (s.turns i).HasEvent := by simp [hpc]
  have hall : ∀ j, ¬ (Function.update s.turns i .returning j).HasEvent := by
    intro j
    by_cases hj : j = i
    · simp [hj]
    · simpa [hj] using h.no_event_of_ne hbusy hj
  refine ⟨hall, fun j hj => ?_, fun _ => ?_, fun _ => ?_, fun j hj => absurd hj (hall j)⟩
  · have := hall j
    simp only [State.setTurn] at hj
    rcases hj with hj | hj <;> simp [hj] at this
  · exact h.counted_of_busy hbusy (by simp [hpc])
  · simpa [hpc, State.setTurn] using h.orderBusy i hbusy

/-- The return of `handle_event` changes nothing that others see. -/
theorem inv_returned [DecidableEq Θ] (h : Inv s) {i : Θ} (hpc : s.turns i = .returning) :
    Inv (s.setTurn i .idle) := by
  have hother : ∀ j, j ≠ i → (s.setTurn i .idle).turns j = s.turns j := fun j hj =>
    Function.update_of_ne hj ..
  have hself : (s.setTurn i .idle).turns i = .idle := Function.update_self ..
  refine ⟨h.oneShot.congr fun j => ?_, fun j hj => ?_, fun hd => h.counted fun j => ?_,
    h.orderArmed, fun j hj => ?_⟩
  all_goals by_cases hji : j = i
  · simp [hji, hself, hpc]
  · rw [hother j hji]
  · simp [hji, hself] at hj
  · exact h.readable j (hother j hji ▸ hj)
  · simp [hji, hpc]
  · exact hother j hji ▸ hd j
  · simp [hji, hself] at hj
  · rw [hother j hji] at hj ⊢
    exact h.orderBusy j hj

variable [DecidableEq P] [DecidableEq Θ] [DecidableEq D] {a : Act P Θ D}

theorem step_inv (h : Inv s) (hs : step s a = some t) : Inv t := by
  cases step_cases hs with
  | push => exact inv_push h
  | write hp => exact inv_write h hp (Nat.le_succ _) (by omega)
  | writeFailed hp => exact inv_write h hp le_rfl (by simp only [List.length_cons]; omega)
  | deliver _ harmed hpos => exact inv_deliver h harmed hpos
  | @dispatch i hpc =>
    refine h.setTurn (i := i) (by simp [hpc]) (by simp) rfl rfl ?_ ?_ ?_
    · exact fun _ => h.readable i (.inl hpc)
    · exact fun _ => h.counted_of_busy (i := i) (by simp [hpc]) (by simp [hpc])
    · simpa [hpc, State.setTurn] using h.orderBusy i (by simp [hpc])
  | readNone hpc hzero =>
    -- The event was copied while the eventfd was readable, and no one else has read it.
    exact absurd hzero (h.readable _ (.inr hpc)).ne'
  | @tryPopNone i hpc hq =>
    refine h.setTurn (i := i) (by simp [hpc]) (by simp) rfl rfl (by simp) ?_ ?_
    · simp [State.setTurn, hq]
    · simpa [hpc, State.setTurn] using h.orderBusy i (by simp [hpc])
  | @tryPop i d rest hpc hq =>
    refine h.setTurn (i := i) (by simp [hpc]) (by simp) rfl rfl (by simp) (by simp) ?_
    simpa [hpc, hq, State.setTurn] using h.orderBusy i (by simp [hpc])
  | @read i hpc | @call i d hpc | @handlerReturn i d hpc =>
    refine h.setTurn (i := i) (by simp [hpc]) (by simp) rfl rfl (by simp) (by simp) ?_
    simpa [hpc, State.setTurn] using h.orderBusy i (by simp [hpc])
  | modify hpc => exact inv_modify h hpc
  | returned hpc => exact inv_returned h hpc

theorem reachable_inv (h : (machine P Θ D).Reachable s) : Inv s :=
  h.invariant (fun _ hs => hs ▸ initial_inv) fun _ _ _ _ hi _ hs => step_inv hi hs

/-- A push sends and a handler call receives. -/
def RefinesChannel (s : State P Θ D) (c : Channel D) : Prop :=
  c.sent = s.pushed ∧ c.received = s.delivered

/-- The custom event behaves as a reliable FIFO channel from its posters to its handler. -/
theorem refines_channel (h : (machine P Θ D).Reachable s) :
    ∃ c, (Channel.machine D).Reachable c ∧ RefinesChannel s c := by
  apply h.simulate
  · intro s hs
    obtain rfl : s = initial := hs
    exact ⟨.empty, Channel.empty_init, rfl, rfl⟩
  intro s a t c hr hR _ hs
  obtain ⟨hsent, hreceived⟩ := hR
  cases step_cases hs with
  | @push p d => exact .inr ⟨.send d, _, trivial, rfl, by simp [Channel.send, hsent], hreceived⟩
  | @call i d hpc =>
    have horder := (reachable_inv hr).orderBusy i (by simp [hpc])
    have hnext : c.sent = c.received ++ d :: s.queue := by simp [hsent, hreceived, ← horder, hpc]
    obtain ⟨y, hy, hys, hyr⟩ := Channel.receive_of_next hnext
    exact .inr ⟨.receive, y, trivial, hy, hys.trans hsent, by simp [hyr, hreceived, State.setTurn]⟩
  -- All other steps are silent.
  | _ => exact .inl ⟨hsent, hreceived⟩

theorem delivered_prefix_pushed (h : (machine P Θ D).Reachable s) : s.delivered <+: s.pushed := by
  obtain ⟨c, -, hsent, hreceived⟩ := refines_channel h
  rw [← hsent, ← hreceived]
  exact c.inOrder

/-- Of two invocations of `handle_event` one has re-armed the entry, and only has to return. -/
theorem handleEvent_returning (h : (machine P Θ D).Reachable s) {i j : Θ} (hij : i ≠ j)
    (hi : (s.turns i).InHandleEvent) (hj : (s.turns j).InHandleEvent) :
    s.turns i = .returning ∨ s.turns j = .returning := by
  have key : ∀ pc : TurnPc D, pc.InHandleEvent → pc = .returning ∨ pc.HasEvent := by
    rintro (_ | _) <;> simp
  rcases key _ hi with hi | hi
  · exact .inl hi
  · exact (key _ hj).imp_left .inr |>.elim id fun hj =>
      absurd ((reachable_inv h).oneShot.unique hi hj) hij

/-- Posts reach the handler exactly once and in order. Invocations of `handle_event` overlap only
after the `EPOLL_CTL_MOD` of one of them, and calls of the handler never do. -/
theorem delivered_once_in_order (h : (machine P Θ D).Reachable s) :
    s.delivered <+: s.pushed ∧
      (∀ i j, i ≠ j → (s.turns i).InHandleEvent → (s.turns j).InHandleEvent →
        s.turns i = .returning ∨ s.turns j = .returning) ∧
      ∀ i j d e, s.turns i = .calling d → s.turns j = .calling e → i = j := by
  refine ⟨delivered_prefix_pushed h, fun i j hij hi hj => handleEvent_returning h hij hi hj,
    fun i j d e hi hj => ?_⟩
  exact (reachable_inv h).oneShot.unique (by simp [hi]) (by simp [hj])

/-- Two posts, of which one turn handles both and another one gets what the eventfd still has. -/
def overlappingTurns : List (Act Bool Bool ℕ) :=
  [.push false 7, .write false 7 true, .deliver false, .dispatch false, .read false, .tryPop false,
    .call false, .push true 8, .write true 8 true, .handlerReturn false, .tryPop false,
    .call false, .handlerReturn false, .tryPop false, .modify false, .deliver true,
    .dispatch true]

theorem overlappingTurns_in_order : ∃ s : State Bool Bool ℕ,
    (machine _ _ _).exec initial overlappingTurns = some s ∧
      s.delivered = [7, 8] ∧ s.turns true = .reading ∧ s.delivered <+: s.pushed ∧
      (s.turns false = .returning ∨ s.turns true = .returning) := by
  have key := delivered_once_in_order (Machine.reachable_of_exec rfl
    (show (machine Bool Bool ℕ).exec initial overlappingTurns = some _ from rfl))
  exact ⟨_, rfl, rfl, rfl, key.1, key.2.1 false true (by simp) trivial trivial⟩

/-- The entry is armed before `handle_event` returns. -/
theorem handleEvents_overlap :
    (∃ s : State Bool Bool ℕ, (machine _ _ _).exec initial overlappingTurns = some s ∧
      (s.turns false).InHandleEvent ∧ (s.turns true).InHandleEvent) ∧
    ¬ ∀ s : State Bool Bool ℕ, (machine _ _ _).Reachable s →
      ∀ i j, (s.turns i).InHandleEvent → (s.turns j).InHandleEvent → i = j := by
  have hrun : ∃ s : State Bool Bool ℕ, (machine _ _ _).exec initial overlappingTurns = some s ∧
      (s.turns false).InHandleEvent ∧ (s.turns true).InHandleEvent :=
    ⟨_, rfl, trivial, trivial⟩
  refine ⟨hrun, fun h => ?_⟩
  obtain ⟨s, hs, hfalse, htrue⟩ := hrun
  cases h s (Machine.reachable_of_exec rfl hs) false true hfalse htrue

theorem step_refused (hok : WritesSucceed s a) (hs : step s a = some t) :
    t.refused = s.refused := by
  cases step_cases hs with
  | writeFailed => exact absurd hok Bool.false_ne_true
  | _ => rfl

theorem refused_eq_nil (h : (machine P Θ D).ReachesUnder WritesSucceed s) : s.refused = [] :=
  h.invariant (fun _ hs => hs ▸ rfl) fun _ _ _ _ hnil hok hs => (step_refused hok hs).trans hnil

/-- A datum in the queue has someone who will see to it, and no read of the eventfd fails. -/
theorem never_stranded (h : (machine P Θ D).ReachesUnder WritesSucceed s) :
    (s.queue ≠ [] →
      s.posting ≠ [] ∨ (∃ i, (s.turns i).Draining) ∨
        (0 < s.counter ∧ (s.armed = true ∨ ∃ i, (s.turns i).HasEvent))) ∧
    ∀ i, s.turns i = .reading → 0 < s.counter := by
  have hinv := reachable_inv h.reachable
  have hrefused := refused_eq_nil h
  refine ⟨fun hq => ?_, fun i hi => hinv.readable i (.inr hi)⟩
  by_cases hd : ∃ i, (s.turns i).Draining
  · exact .inr (.inl hd)
  have hlen := hinv.counted (not_exists.mp hd)
  have hpos := List.length_pos_of_ne_nil hq
  by_cases hp : s.posting = []
  · refine .inr (.inr ⟨by simp [hp, hrefused] at hlen; omega, ?_⟩)
    cases harmed : s.armed with
    | true => exact .inl rfl
    | false => exact .inr (OneToken.exists_busy (harmed ▸ hinv.oneShot))
  · exact .inl hp

/-- One turn is about to return when another one is about to read the eventfd, and a third post
has not been signalled yet. -/
def pushedMeanwhile : List (Act Bool Bool ℕ) := overlappingTurns ++ [.push false 9]

theorem dispatched_not_stranded : ∃ s : State Bool Bool ℕ,
    (machine _ _ _).exec initial pushedMeanwhile = some s ∧
      s.queue = [9] ∧ s.turns true = .reading ∧
      (s.queue ≠ [] →
        s.posting ≠ [] ∨ (∃ i, (s.turns i).Draining) ∨
          (0 < s.counter ∧ (s.armed = true ∨ ∃ i, (s.turns i).HasEvent))) ∧
      ∀ i, s.turns i = .reading → 0 < s.counter :=
  ⟨_, rfl, rfl, rfl, never_stranded (Machine.ReachesUnder.exec (.init rfl)
    (show (machine _ _ _).Every WritesSucceed initial pushedMeanwhile by
      simp [pushedMeanwhile, overlappingTurns, Machine.Every, WritesSucceed])
    (show (machine _ _ _).exec initial pushedMeanwhile = some _ from rfl))⟩

end CompleteIo.CustomEvent
