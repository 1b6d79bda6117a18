import CompleteIo.Epoll.InstanceOwnership

namespace CompleteIo.EpollInstances

/-- `Inner::drop` has closed the epoll fd, and the custom events are dropped with their handlers
and eventfds. -/
structure Released (s : State) (i : ℕ) : Prop where
  inner : ∃ c, s.heap.count (.inner i) = some c ∧ c.Reclaimed
  customEvent : ∀ e c, s.heap.count (.customEvent i e) = some c → c.Reclaimed

/-- No value of the instance is held outside the library, and no `turn` or destructor that uses
one is still at work. -/
def Unheld (s : State) (i : ℕ) : Prop := ∀ x ∈ s.roots ++ s.heap.dropping, x.instance ≠ i

instance (s : State) (i : ℕ) : Decidable (Unheld s i) :=
  inferInstanceAs (Decidable (∀ x ∈ s.roots ++ s.heap.dropping, x.instance ≠ i))

/-- The height of an object in the ownership of an instance that has no custom event. -/
def rank : Obj → ℕ
  | .customEvent .. | .listener .. | .socket .. => 0
  | .registration .. => 1
  | .inner _ => 2

section Proofs

variable {s t : State} {i : ℕ} {x : Obj} {as : List Act}

theorem FieldOf.rank_lt {tags : List EventTag} {q : FieldRef Obj} (h : FieldOf tags q)
    (hnone : ∀ c fd, ⟨.customEvent q.target.instance c, fd⟩ ∉ tags) :
    rank q.owner < rank q.target := by
  cases h with
  | customEvents hmem => exact absurd hmem (hnone _ _)
  | customEventRegistration | queue | listenerRegistration | listenerHandle
  | socketRegistration => simp [rank]

theorem Inv.instance_eq (h : Inv s) {x y : Obj} (hown : s.heap.Owns x y) :
    x.instance = y.instance := (h.fieldOf _ hown).instance_eq

/-- Without custom events all ownership leads up to the `Inner`, and falls with the values. -/
theorem Inv.reclaimed (h : Inv s) (hunheld : Unheld s i)
    (hnone : ∀ c fd, ⟨.customEvent i c, fd⟩ ∉ s.tags) {c : RefCount} (hx : x.instance = i)
    (hc : s.heap.count x = some c) : c.Reclaimed := by
  have hclosed : ∀ x y, s.heap.Owns x y → y.instance = i → x.instance = i :=
    fun x y hown hy => (h.instance_eq hown).trans hy
  have hrank : ∀ x y, s.heap.Owns x y → y.instance = i → rank x < rank y := by
    rintro x y hown rfl
    exact (h.fieldOf _ hown).rank_lt hnone
  exact h.ok.reclaimed hunheld hclosed (OwnershipHeap.acc_of_rank hclosed hrank hx) hx hc

/-- Destructors that are under way run to their end, which takes no value from anyone. -/
theorem exists_dropFields (s : State) : ∃ (xs : List Obj) (t : State),
    machine.exec s (xs.map .dropField) = some t ∧ t.heap.dropping = [] ∧ t.roots = s.roots := by
  induction hn : s.heap.owned.length + s.heap.dropping.length using Nat.strong_induction_on
    generalizing s with
  | _ n ih =>
    cases hdrop : s.heap.dropping with
    | nil => exact ⟨[], s, rfl, hdrop, rfl⟩
    | cons x rest =>
      have hx : x ∈ s.heap.dropping := hdrop ▸ List.mem_cons_self ..
      obtain ⟨xs, t, hrun, hempty, hroots⟩ :=
        ih _ (hn ▸ OwnershipHeap.length_dropField hx) (dropField s x) rfl
      refine ⟨x :: xs, t, ?_, hempty, hroots⟩
      have hs : machine.step s (.dropField x) = some (dropField s x) := if_pos hx
      rw [List.map_cons, Machine.exec, hs]
      exact hrun

theorem exists_unheld (hroots : ∀ x ∈ s.roots, x.instance ≠ i) : ∃ (xs : List Obj) (t : State),
    machine.exec s (xs.map .dropField) = some t ∧ Unheld t i := by
  obtain ⟨xs, t, hrun, hempty, ht⟩ := exists_dropFields s
  refine ⟨xs, t, hrun, fun x hx => ?_⟩
  rw [hempty, ht, List.append_nil] at hx
  exact hroots x hx

/-- An instance that nobody holds any more is released exactly if `new_custom_event` has never
succeeded on it. -/
theorem released_iff_noCustomEvent {fd : ℕ} (hrun : machine.exec initial as = some s)
    (hnew : .new i fd ∈ as) (hunheld : Unheld s i) :
    Released s i ↔ ∀ c r, .newCustomEvent i c r ∉ as := by
  have hinv := reachable_inv (Machine.reachable_of_exec rfl hrun)
  constructor
  · rintro ⟨⟨d, hd, hreclaimed⟩, -⟩ c r hmem
    obtain ⟨fd, htag⟩ := (tag_iff_newCustomEvent hrun).mpr ⟨r, hmem⟩
    obtain ⟨d', hd', halive⟩ := hinv.inner_alive htag
    obtain rfl : d = d' := Option.some.inj (hd.symm.trans hd')
    exact absurd hreclaimed.1 (Nat.pos_iff_ne_zero.mp halive.1)
  · intro hnever
    have hnone : ∀ c fd, ⟨.customEvent i c, fd⟩ ∉ s.tags := fun c fd hmem => by
      obtain ⟨r, hr⟩ := (tag_iff_newCustomEvent hrun).mp ⟨fd, hmem⟩
      exact hnever c r hr
    obtain ⟨c, hc⟩ := Option.ne_none_iff_exists'.mp ((known_iff_new hrun).mpr ⟨fd, hnew⟩)
    exact ⟨⟨c, hc, hinv.reclaimed hunheld hnone rfl hc⟩,
      fun e c hc => hinv.reclaimed hunheld hnone rfl hc⟩

/-- An instance with a listener, an accepted stream and registrations of both kinds. -/
def serving : List Act :=
  [.new 0 3, .handle 0, .fromListener 0 0 0, .accept 0 0 0 1, .registerFd 0 2,
    .newFuturesRegistration 0 3, .clone (.socket 0 0), .upgrade 0 0 true, .dispatched
    (.registration 0 0), .dropValue (.epoll 0), .dropValue (.socket 0 0),
    .dropValue (.registration 0 2), .dropField (.inner 0), .dropValue (.listener 0 0),
    .dropField (.inner 0), .dropField (.registration 0 0), .dropField (.inner 0),
    .dropValue (.handle 0), .dropValue (.socket 0 0), .dropField (.registration 0 1),
    .dropField (.inner 0), .dropValue (.futuresRegistration 0 3), .dropField (.inner 0)]

theorem released_iff_noCustomEvent_serving :
    ∃ s, machine.exec initial serving = some s ∧ Released s 0 := by
  have hnew : Act.new 0 3 ∈ serving := by simp [serving]
  refine ⟨_, rfl, (released_iff_noCustomEvent rfl hnew ?_).mpr ?_⟩
  · decide
  · simp [serving]

/-- One custom event is created, and then the only `Epoll` is dropped. -/
def leaking : List Act := [.new 0 3, .newCustomEvent 0 0 0, .dropValue (.epoll 0)]

theorem instance_leaked :
    (∃ s, machine.exec initial leaking = some s ∧ Unheld s 0 ∧
      s.heap.count (.inner 0) = some ⟨1, 0⟩ ∧ s.openFds = [3]) ∧
    ¬∀ as s i fd, machine.exec initial as = some s → .new i fd ∈ as → Unheld s i →
      Released s i := by
  have hrun : ∃ s, machine.exec initial leaking = some s ∧ Unheld s 0 ∧
      s.heap.count (.inner 0) = some ⟨1, 0⟩ ∧ s.openFds = [3] :=
    ⟨_, rfl, by decide, rfl, rfl⟩
  refine ⟨hrun, fun hclaim => ?_⟩
  obtain ⟨s, hs, hunheld, hcount, -⟩ := hrun
  obtain ⟨c, hc, hstrong, -⟩ := (hclaim leaking s 0 3 hs (by simp [leaking]) hunheld).inner
  obtain rfl : (⟨1, 0⟩ : RefCount) = c := Option.some.inj (hcount.symm.trans hc)
  exact absurd hstrong Nat.one_ne_zero

end Proofs

end CompleteIo.EpollInstances
