import CompleteIo.Epoll.EpollEntries

namespace CompleteIo.EpollSet

variable {R Θ : Type*} {s t : State R Θ} {r : R}

/-- An `epoll_ctl` names an open fd whose entry the registration itself added. -/
def CtlOwn (s : State R Θ) : Act R Θ → Prop
  | .modify r _ | .ctlDel r =>
    s.isOpen (s.fd r) = true ∧ ∃ e, s.entry (s.fd r) = some e ∧ e.addedBy = r
  | _ => True

/-- An `epoll_ctl` comes before the registered fd is closed. -/
def CtlBeforeClose (s : State R Θ) : Act R Θ → Prop
  | .modify r _ | .ctlDel r => ¬ s.PastClose r
  | _ => True

def Phase.Unreleased (p : Phase) : Prop := p = .alive ∨ p = .dropping

structure OwnInv (s : State R Θ) : Prop where
  own : ∀ r, (s.phase r).Unreleased → ¬ s.PastClose r → s.entry (s.fd r) = some ⟨r, r⟩
  unleaked : ∀ r, s.phase r ≠ .leaked

theorem initial_ownInv : OwnInv (initial : State R Θ) := by
  constructor <;> simp [initial, Phase.Unreleased]

theorem OwnInv.unique (h : OwnInv s) {r' : R} (hr : (s.phase r).Unreleased) (hp : ¬ s.PastClose r)
    (hr' : (s.phase r').Unreleased) (hp' : ¬ s.PastClose r') (hfd : s.fd r' = s.fd r) : r' = r := by
  have he := h.own r hr hp
  have he' := h.own r' hr' hp'
  rw [hfd, he] at he'
  simpa using (Option.some.inj he').symm

theorem OwnInv.of_same (h : OwnInv s) (hentry : t.entry = s.entry) (hfd : t.fd = s.fd)
    (hcloses : t.closes = s.closes) (hat : t.registeredAt = s.registeredAt)
    (hphase : ∀ r, (t.phase r).Unreleased → (s.phase r).Unreleased)
    (hleaked : ∀ r, t.phase r = .leaked → s.phase r = .leaked) : OwnInv t where
  own r hr hp := by
    rw [hentry, hfd]
    apply h.own r (hphase r hr)
    rwa [State.PastClose, hat, hcloses, hfd] at hp
  unleaked r hr := h.unleaked r (hleaked r hr)

theorem ctlBeforeClose_of_ctlOwn {a : Act R Θ} (h : Inv s) (hown : CtlOwn s a) :
    CtlBeforeClose s a := by
  have key : ∀ r, (∃ e, s.entry (s.fd r) = some e ∧ e.addedBy = r) → ¬ s.PastClose r := by
    rintro r ⟨e, he, rfl⟩ hpast
    exact absurd (h.entry _ e he).current (Nat.ne_of_lt hpast)
  cases a with
  | modify r | ctlDel r => exact key r hown.2
  | _ => trivial

theorem ownInv_close (h : Inv s) (hown : OwnInv s) {fd : ℕ} : OwnInv (s.close fd) := by
  refine ⟨fun r hr hp => ?_, hown.unleaked⟩
  have hat := h.registeredAt r (by rcases hr with hr | hr <;> exact fun hu => by cases hr ▸ hu)
  -- A registration of the fd that is closed is past its close from now on.
  have hfd : s.fd r ≠ fd := by
    rintro rfl
    simp only [State.PastClose, State.close, Function.update_self] at hp
    omega
  simp only [State.close, State.PastClose, Function.update_of_ne hfd] at hp ⊢
  exact hown.own r hr hp

variable [DecidableEq R]

theorem ownInv_add (hown : OwnInv s) {k : Kind} {fd : ℕ} (hentry : s.entry fd = none) :
    OwnInv (s.add k r fd) := by
  refine ⟨fun r' hr' hp => ?_, fun r' hr' => ?_⟩
  all_goals by_cases hr : r' = r
  · simp [State.add, hr]
  · simp only [State.add, State.PastClose, Function.update_of_ne hr] at hr' hp ⊢
    have he := hown.own r' hr' hp
    have hfd : s.fd r' ≠ fd := by
      rintro rfl
      rw [hentry] at he
      cases he
    rwa [Function.update_of_ne hfd]
  · simp [State.add, hr] at hr'
  · exact hown.unleaked r' (by simpa [State.add, hr] using hr')

omit [DecidableEq R] in
/-- The entry already has the pointer that it is given. -/
theorem ownInv_modify (hown : OwnInv s) (hr : (s.phase r).Unreleased) (hp : ¬ s.PastClose r) :
    OwnInv (modify s r) := by
  have he := hown.own r hr hp
  unfold modify
  rw [he]
  refine ⟨fun r' hr' hp' => ?_, hown.unleaked⟩
  by_cases hfd : s.fd r' = s.fd r
  · obtain rfl := hown.unique hr hp hr' hp' hfd
    simp
  · simp only [Function.update_of_ne hfd]
    exact hown.own r' hr' hp'

theorem ownInv_ctlDel (hown : OwnInv s) (hr : (s.phase r).Unreleased) (hp : ¬ s.PastClose r) :
    OwnInv (ctlDel s r) := by
  have he := hown.own r hr hp
  unfold ctlDel
  rw [he]
  refine ⟨fun r' hr' hp' => ?_, fun r' hr' => ?_⟩
  all_goals by_cases hne : r' = r
  · simp [hne, Phase.Unreleased] at hr'
  · simp only [Function.update_of_ne hne] at hr'
    -- Two registrations of one open file would share its entry.
    have hfd : s.fd r' ≠ s.fd r := fun hfd => hne (hown.unique hr hp hr' hp' hfd)
    simp only [Function.update_of_ne hfd]
    exact hown.own r' hr' hp'
  · simp [hne] at hr'
  · exact hown.unleaked r' (by simpa [hne] using hr')

variable [DecidableEq Θ] {kind : R → Kind} {a : Act R Θ}

theorem ownInv_dropStrong (hown : OwnInv s) {holder : Option Θ} (halive : s.phase r = .alive) :
    OwnInv (s.dropStrong r holder) := by
  refine hown.of_same rfl rfl rfl rfl (fun r' hr' => ?_) fun r' hr' => ?_
  · by_cases hr : r' = r
    · exact .inl (hr ▸ halive)
    · unfold State.dropStrong at hr'
      split at hr'
      · simpa [hr] using hr'
      · exact hr'
  · unfold State.dropStrong at hr'
    split at hr'
    · by_cases hr : r' = r
      · simp [hr] at hr'
      · simpa [hr] using hr'
    · exact hr'

theorem step_ownInv (h : Inv s) (hown : OwnInv s) (ho : OwnerInv kind s) (hok : CtlBeforeClose s a)
    (hs : step kind s a = some t) : OwnInv t := by
  cases step_cases hs with
  | openFd | clone | wait => exact hown.of_same rfl rfl rfl rfl (fun _ => id) fun _ => id
  | closeFd => exact ownInv_close h hown
  | register _ _ hentry => exact ownInv_add hown hentry
  | registerFailed => exact hown
  | modify hholder => exact ownInv_modify hown (.inl (modify_alive h hholder)) hok
  | dropClone _ hmem => exact ownInv_dropStrong hown (h.alive_of_mem hmem)
  | @tearDown r first rest hfirst =>
    have hdone : OwnInv (tearDown s r first) := by
      cases first with
      | closeFd => exact ownInv_close h hown
      | dropRegistration =>
        exact ownInv_dropStrong hown (h.alive_of_mem (ho.held r (by simp [hfirst])))
      | dropField => exact hown
    exact hdone.of_same rfl rfl rfl rfl (fun _ => id) fun _ => id
  | ctlDel hphase => exact ownInv_ctlDel hown (.inr hphase) hok
  | @dropWeak r =>
    refine hown.of_same rfl rfl rfl rfl (fun r' hr' => ?_) fun r' hr' => ?_
    all_goals
      by_cases hr : r' = r
      · simp [EpollSet.dropWeak, hr, Phase.Unreleased] at hr'
      · simpa [EpollSet.dropWeak, hr] using hr'
  | dispatch =>
    unfold EpollSet.dispatch
    split <;> exact hown.of_same rfl rfl rfl rfl (fun _ => id) fun _ => id
  | @finish θ r hhandling =>
    have hreturned : OwnInv { s with handling := Function.update s.handling θ none } :=
      hown.of_same rfl rfl rfl rfl (fun _ => id) fun _ => id
    exact ownInv_dropStrong hreturned (h.alive_of_mem (h.handling θ r hhandling))

theorem reachesUnder_ownInv (h : (machine (Θ := Θ) kind).ReachesUnder CtlBeforeClose s) :
    OwnInv s := by
  refine h.invariant (fun _ hs => hs ▸ initial_ownInv) fun s a t hr hown hok hs => ?_
  obtain ⟨hi, ho⟩ := reachable_both hr.reachable
  exact step_ownInv hi hown ho hok hs

theorem ctlOwn_of_ctlBeforeClose (h : Inv s) (hown : OwnInv s) (hs : step kind s a = some t)
    (hok : CtlBeforeClose s a) : CtlOwn s a := by
  have key : ∀ r, (s.phase r).Unreleased → ¬ s.PastClose r →
      s.isOpen (s.fd r) = true ∧ ∃ e, s.entry (s.fd r) = some e ∧ e.addedBy = r := by
    intro r hr hp
    have he := hown.own r hr hp
    exact ⟨(h.entry _ _ he).isOpen, _, he, rfl⟩
  cases step_cases hs with
  | modify hholder => exact key _ (.inl (modify_alive h hholder)) hok
  | ctlDel hphase => exact key _ (.inr hphase) hok
  | _ => trivial

/-- The last reference to the registration of a socket or a custom event goes after its fd. -/
theorem pastClose_of_dropping (h : (machine (Θ := Θ) kind).Reachable s) (hk : kind r ≠ .caller)
    (hphase : s.phase r = .dropping) : s.PastClose r := by
  obtain ⟨hinv, ho⟩ := reachable_both h
  have hnone : s.holders r = [] := by
    by_contra hne
    simp [hinv.holders r hne] at hphase
  apply ho.closed r hk (by simp [hphase])
  intro hclose
  have hmem := ho.held r (closeFd_before_dropRegistration _ _ (ho.suffix r) hclose)
  simp [hnone] at hmem

/-- A run has every `epoll_ctl` on an own entry, and leaks no registration, exactly when each of
them comes before the close of its fd; the `EPOLL_CTL_DEL` of a socket or a custom event never
does. -/
theorem ctlOwn_iff_ctlBeforeClose (kind : R → Kind) :
    (∀ as (s : State R Θ), (machine kind).exec initial as = some s →
      ((machine kind).Every CtlOwn initial as ∧ (∀ r, s.phase r ≠ .leaked) ↔
        (machine kind).Every CtlBeforeClose initial as)) ∧
    ∀ (s : State R Θ) r, (machine kind).Reachable s → kind r ≠ .caller →
      s.phase r = .dropping → ¬ CtlBeforeClose s (.ctlDel r) := by
  refine ⟨fun as s hrun => ?_, fun s r h hk hphase hok => hok (pastClose_of_dropping h hk hphase)⟩
  have hiff : (machine kind).Every CtlOwn initial as ↔
      (machine kind).Every CtlBeforeClose initial as :=
    Machine.every_iff_every (fun _ _ _ hr _ => ctlBeforeClose_of_ctlOwn (reachable_inv hr))
      (fun _ _ _ hr hs hok =>
        ctlOwn_of_ctlBeforeClose (reachable_inv hr.reachable) (reachesUnder_ownInv hr) hs hok)
      (.init rfl) hrun
  refine ⟨fun hown => hiff.mp hown.1, fun hok => ⟨hiff.mpr hok, ?_⟩⟩
  exact (reachesUnder_ownInv (Machine.ReachesUnder.exec (.init rfl) hok hrun)).unleaked

/-- A registration made with `register_fd` is armed again and dropped before its fd is closed. -/
def droppedBeforeClose : List (Act Unit Unit) :=
  [.openFd 3, .register () 3, .modify () none, .dropClone (), .ctlDel (), .dropWeak (),
    .closeFd 3]

theorem droppedBeforeClose_own :
    (machine (R := Unit) fun _ => .caller).Every CtlOwn initial droppedBeforeClose := by
  have hrun : ∃ s, (machine (R := Unit) fun _ => .caller).exec initial droppedBeforeClose =
      some s := ⟨_, rfl⟩
  obtain ⟨s, hs⟩ := hrun
  have hnot : ¬ (0 : ℕ) < 0 := by simp
  refine (((ctlOwn_iff_ctlBeforeClose fun _ => .caller).1 droppedBeforeClose s hs).mpr ?_).1
  exact .cons trivial rfl <| .cons trivial rfl <| .cons hnot rfl <| .cons trivial rfl <|
    .cons hnot rfl <| .cons trivial rfl <| .cons trivial rfl trivial

/-- While a `TcpStream` is dropped another stream gets its fd number and is registered. -/
def reusedFd : List (Act Bool Unit) :=
  [.openFd 3, .register false 3, .tearDown false, .openFd 3, .register true 3, .tearDown false,
    .ctlDel false]

/-- The entry that goes is that of the other stream, and without reuse the pointer leaks. -/
theorem foreign_entry_deleted :
    (∃ s : State Bool Unit, (machine fun _ => .tcpStream).exec initial reusedFd = some s ∧
      s.phase true = .alive ∧ ¬ s.PastClose true ∧ (s.entry (s.fd true)).isNone = true) ∧
    (∃ s : State Bool Unit, (machine fun _ => .tcpStream).exec initial
        [.openFd 3, .register false 3, .tearDown false, .tearDown false, .ctlDel false] = some s ∧
      s.phase false = .leaked) ∧
    ¬ (machine (R := Bool) (Θ := Unit) fun _ => .tcpStream).Every CtlOwn initial reusedFd := by
  refine ⟨⟨_, rfl, rfl, ?_, rfl⟩, ⟨_, rfl, rfl⟩, fun h => ?_⟩
  · exact Nat.lt_irrefl 1
  · obtain ⟨-, e, he, hadded⟩ := (((((((h.2 _ rfl).2 _ rfl).2 _ rfl).2 _ rfl).2 _ rfl).2 _ rfl).1)
    cases he
    cases hadded

end CompleteIo.EpollSet
