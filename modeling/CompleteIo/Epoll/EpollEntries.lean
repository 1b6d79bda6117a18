import Mathlib.Data.List.Infix
import CompleteIo.Epoll.EpollSet

namespace CompleteIo.EpollSet

variable {R Θ : Type*} {s t : State R Θ} {r : R} {fd : ℕ}

def State.PastClose (s : State R Θ) (r : R) : Prop := s.registeredAt r < s.closes (s.fd r)

def Phase.Gone (p : Phase) : Prop := p = .deleted ∨ p = .released

/-- An entry belongs to the open file that its registration was made for, and a registration
whose pointer it has is not about to release it. -/
structure EntryInv (s : State R Θ) (fd : ℕ) (e : Entry R) : Prop where
  isOpen : s.isOpen fd = true
  addedBy : s.fd e.addedBy = fd ∧ s.phase e.addedBy ≠ .unused
  current : s.registeredAt e.addedBy = s.closes fd
  data : s.fd e.data = fd ∧ s.phase e.data ≠ .unused ∧ ¬ (s.phase e.data).Gone

structure Inv (s : State R Θ) : Prop where
  entry : ∀ fd e, s.entry fd = some e → EntryInv s fd e
  registeredAt : ∀ r, s.phase r ≠ .unused → s.registeredAt r ≤ s.closes (s.fd r)
  holders : ∀ r, s.holders r ≠ [] → s.phase r = .alive
  handling : ∀ θ r, s.handling θ = some r → some θ ∈ s.holders r

theorem initial_inv : Inv (initial : State R Θ) := by
  constructor <;> simp [initial]

theorem EntryInv.of_entry {e : Entry R} {entry : ℕ → Option (Entry R)} (h : EntryInv s fd e) :
    EntryInv { s with entry := entry } fd e :=
  ⟨h.isOpen, h.addedBy, h.current, h.data⟩

theorem Inv.alive_of_mem (h : Inv s) {holder : Option Θ} (hmem : holder ∈ s.holders r) :
    s.phase r = .alive :=
  h.holders r (List.ne_nil_of_mem hmem)

/-- A step that leaves the entries and the fds alone. -/
theorem Inv.of_holders (h : Inv s) (hopen : ∀ fd, s.isOpen fd = true → t.isOpen fd = true)
    (hcloses : t.closes = s.closes) (hentry : t.entry = s.entry) (hphase : t.phase = s.phase)
    (hfd : t.fd = s.fd) (hat : t.registeredAt = s.registeredAt)
    (hholders : ∀ r, t.holders r ≠ [] → s.phase r = .alive)
    (hhandling : ∀ θ r, t.handling θ = some r → some θ ∈ t.holders r) : Inv t where
  entry fd e he := by
    obtain ⟨h1, h2, h3, h4⟩ := h.entry fd e (hentry ▸ he)
    exact ⟨hopen fd h1, by rwa [hfd, hphase], by rwa [hat, hcloses], by rwa [hfd, hphase]⟩
  registeredAt r hr := by
    rw [hat, hcloses, hfd]
    exact h.registeredAt r (hphase ▸ hr)
  holders r hr := hphase ▸ hholders r hr
  handling := hhandling

/-- A step that leaves the strong references alone too. -/
theorem Inv.of_same (h : Inv s) (hopen : ∀ fd, s.isOpen fd = true → t.isOpen fd = true)
    (hcloses : t.closes = s.closes) (hentry : t.entry = s.entry) (hphase : t.phase = s.phase)
    (hfd : t.fd = s.fd) (hat : t.registeredAt = s.registeredAt) (hholders : t.holders = s.holders)
    (hhandling : t.handling = s.handling) : Inv t := by
  refine h.of_holders hopen hcloses hentry hphase hfd hat (fun r hr => ?_) fun θ r hr => ?_
  · exact h.holders r (hholders ▸ hr)
  · rw [hholders]
    exact h.handling θ r (hhandling ▸ hr)

/-- Whoever calls `modify` has a strong reference. -/
theorem modify_alive (h : Inv s) {holder : Option Θ}
    (hholder : holder = none ∧ none ∈ s.holders r ∨ ∃ θ, holder = some θ ∧ s.handling θ = some r) :
    s.phase r = .alive := by
  rcases hholder with ⟨-, hmem⟩ | ⟨θ, -, hhandling⟩
  · exact h.alive_of_mem hmem
  · exact h.alive_of_mem (h.handling θ r hhandling)

section Step

variable [DecidableEq R] [DecidableEq Θ] {kind : R → Kind} {a : Act R Θ}

omit [DecidableEq R] [DecidableEq Θ] in
theorem inv_close (h : Inv s) : Inv (s.close fd) := by
  refine ⟨fun fd' e he => ?_, fun r hr => ?_, h.holders, h.handling⟩
  · by_cases hfd : fd' = fd
    · simp [State.close, hfd] at he
    · simp only [State.close, Function.update_of_ne hfd] at he
      obtain ⟨h1, h2, h3, h4⟩ := h.entry fd' e he
      exact ⟨by simpa [State.close, hfd] using h1, h2, by simpa [State.close, hfd] using h3, h4⟩
  · have := h.registeredAt r hr
    by_cases hfd : s.fd r = fd
    · simp only [State.close, hfd, Function.update_self]
      rw [hfd] at this
      omega
    · simpa [State.close, hfd] using this

omit [DecidableEq Θ] in
theorem inv_add (h : Inv s) {k : Kind} (hphase : s.phase r = .unused)
    (hopen : s.isOpen fd = true) : Inv (s.add k r fd) := by
  have hother : ∀ r', s.phase r' ≠ .unused → r' ≠ r := fun r' hr' he => hr' (he ▸ hphase)
  refine ⟨fun fd' e he => ?_, fun r' hr' => ?_, fun r' hr' => ?_, fun θ r' hr' => ?_⟩
  · by_cases hfd : fd' = fd
    · simp only [State.add, hfd, Function.update_self, Option.some.injEq] at he
      subst he hfd
      exact ⟨hopen, by simp [State.add], by simp [State.add], by simp [State.add, Phase.Gone]⟩
    · simp only [State.add, Function.update_of_ne hfd] at he
      obtain ⟨h1, h2, h3, h4⟩ := h.entry fd' e he
      -- The pointers of other entries are those of registrations in use, so not of `r`.
      have hadded := hother _ h2.2
      have hdata := hother _ h4.2.1
      exact ⟨h1, by simpa [State.add, hadded] using h2, by simpa [State.add, hadded] using h3,
        by simpa [State.add, hdata] using h4⟩
  · by_cases hr : r' = r
    · simp [State.add, hr]
    · simp only [State.add, Function.update_of_ne hr] at hr' ⊢
      exact h.registeredAt r' hr'
  · by_cases hr : r' = r
    · simp [State.add, hr]
    · simp only [State.add, Function.update_of_ne hr] at hr' ⊢
      exact h.holders r' hr'
  · have hmem := h.handling θ r' hr'
    have hr : r' ≠ r := hother r' (by simp [h.alive_of_mem hmem])
    simpa [State.add, hr] using hmem

omit [DecidableEq R] [DecidableEq Θ] in
theorem inv_modify (h : Inv s) (hphase : s.phase r = .alive) : Inv (modify s r) := by
  unfold modify
  split
  · exact h
  · rename_i e he
    refine ⟨fun fd' e' he' => ?_, h.registeredAt, h.holders, h.handling⟩
    by_cases hfd : fd' = s.fd r
    · simp only [hfd, Function.update_self, Option.some.injEq] at he'
      subst he' hfd
      obtain ⟨h1, h2, h3, -⟩ := h.entry _ e he
      exact ⟨h1, h2, h3, rfl, by simp [hphase], by simp [hphase, Phase.Gone]⟩
    · simp only [Function.update_of_ne hfd] at he'
      exact (h.entry fd' e' he').of_entry

omit [DecidableEq Θ] in
/-- The allocation of a registration without strong references goes on. -/
theorem inv_setPhase (h : Inv s) {phase : Phase}
    (hphase : s.phase r = .dropping ∨ s.phase r = .deleted) (hunused : phase ≠ .unused)
    (hdata : phase.Gone → ∀ e, s.entry (s.fd r) = some e → e.data ≠ r) :
    Inv { s with phase := Function.update s.phase r phase } := by
  refine ⟨fun fd' e he => ?_, fun r' hr' => ?_, fun r' hr' => ?_, h.handling⟩
  · obtain ⟨h1, h2, h3, h4⟩ := h.entry fd' e he
    refine ⟨h1, ⟨h2.1, ?_⟩, h3, h4.1, ?_, ?_⟩
    · by_cases hr : e.addedBy = r <;> simp [hr, hunused, h2.2]
    · by_cases hr : e.data = r <;> simp [hr, hunused, h4.2.1]
    · by_cases hr : e.data = r
      · simp only [hr, Function.update_self]
        -- The pointer is released only when no entry has it any more.
        intro hgone
        have hfd : s.fd r = fd' := hr ▸ h4.1
        exact hdata hgone e (hfd ▸ he) hr
      · simpa [hr] using h4.2.2
  · by_cases hr : r' = r
    · subst hr
      exact h.registeredAt r' (by rcases hphase with hp | hp <;> simp [hp])
    · simp only [Function.update_of_ne hr] at hr'
      exact h.registeredAt r' hr'
  · have halive := h.holders r' hr'
    have hr : r' ≠ r := by
      rintro rfl
      rcases hphase with hp | hp <;> simp [hp] at halive
    simpa [hr] using halive

omit [DecidableEq Θ] in
theorem inv_ctlDel (h : Inv s) (hphase : s.phase r = .dropping) : Inv (ctlDel s r) := by
  unfold ctlDel
  split
  · exact inv_setPhase h (.inl hphase) (by simp) (by simp [Phase.Gone])
  · have hremoved : Inv { s with entry := Function.update s.entry (s.fd r) none } := by
      refine ⟨fun fd' e he => ?_, h.registeredAt, h.holders, h.handling⟩
      by_cases hfd : fd' = s.fd r
      · simp [hfd] at he
      · simp only [Function.update_of_ne hfd] at he
        exact (h.entry fd' e he).of_entry
    exact inv_setPhase hremoved (.inl hphase) (by simp) (by simp)

omit [DecidableEq Θ] in
/-- Whoever has registered the fd since then has put its own pointer into the entry. -/
theorem inv_dropWeak (h : Inv s) (hphase : s.phase r = .deleted) : Inv (dropWeak s r) := by
  refine inv_setPhase h (.inr hphase) (by simp) fun _ e he hr => ?_
  exact (h.entry _ e he).data.2.2 (hr ▸ .inl hphase)

theorem inv_dropStrong (h : Inv s) {holder : Option Θ} (hmem : holder ∈ s.holders r)
    (hhandling : ∀ θ, s.handling θ = some r → some θ ≠ holder) : Inv (s.dropStrong r holder) := by
  have halive := h.alive_of_mem hmem
  have hphase : ∀ r', (s.dropStrong r holder).phase r' = s.phase r' ∨
      r' = r ∧ (s.dropStrong r holder).phase r' = .dropping := by
    intro r'
    unfold State.dropStrong
    split
    · by_cases hr : r' = r <;> simp [hr]
    · exact .inl rfl
  refine ⟨fun fd' e he => ?_, fun r' hr' => ?_, fun r' hr' => ?_, fun θ r' hr' => ?_⟩
  · obtain ⟨h1, h2, h3, h4⟩ := h.entry fd' e he
    refine ⟨h1, ⟨h2.1, ?_⟩, h3, h4.1, ?_, ?_⟩
    · rcases hphase e.addedBy with hp | ⟨-, hp⟩ <;> simp [hp, h2.2]
    · rcases hphase e.data with hp | ⟨-, hp⟩ <;> simp [hp, h4.2.1]
    · rcases hphase e.data with hp | ⟨-, hp⟩
      · rw [hp]
        exact h4.2.2
      · simp [hp, Phase.Gone]
  · apply h.registeredAt r'
    rcases hphase r' with hp | ⟨rfl, -⟩
    · exact hp ▸ hr'
    · simp [halive]
  · by_cases hr : r' = r
    · subst hr
      have hne : (s.holders r').erase holder ≠ [] := by simpa [State.dropStrong] using hr'
      simpa [State.dropStrong, hne] using halive
    · have : s.holders r' ≠ [] := by simpa [State.dropStrong, hr] using hr'
      rcases hphase r' with hp | hp
      · rw [hp]
        exact h.holders r' this
      · exact absurd hp.1 hr
  · have hold := h.handling θ r' hr'
    by_cases hr : r' = r
    · subst hr
      simpa [State.dropStrong] using (List.mem_erase_of_ne (hhandling θ hr')).mpr hold
    · simpa [State.dropStrong, hr] using hold

theorem inv_dispatch (h : Inv s) {θ : Θ} {rest : List R} :
    Inv (dispatch s θ r rest) := by
  unfold dispatch
  split
  · rename_i halive
    refine h.of_holders (fun _ => id) rfl rfl rfl rfl rfl (fun r' hr' => ?_) fun θ' r' hr' => ?_
    · by_cases hr : r' = r
      · exact hr ▸ halive
      · simp only [Function.update_of_ne hr] at hr'
        exact h.holders r' hr'
    · by_cases hθ : θ' = θ
      · simp only [hθ, Function.update_self, Option.some.injEq] at hr'
        simp [hθ, hr']
      · simp only [Function.update_of_ne hθ] at hr'
        have := h.handling θ' r' hr'
        by_cases hr : r' = r
        · subst hr
          simp [this]
        · simpa [hr] using this
  · exact h.of_same (fun _ => id) rfl rfl rfl rfl rfl rfl rfl

theorem inv_finish (h : Inv s) {θ : Θ} (hr : s.handling θ = some r) :
    Inv ({ s with handling := Function.update s.handling θ none }.dropStrong r (some θ)) := by
  have hreturned : Inv { s with handling := Function.update s.handling θ none } := by
    refine h.of_holders (fun _ => id) rfl rfl rfl rfl rfl h.holders fun θ' r' hr' => ?_
    by_cases hθ : θ' = θ
    · simp [hθ] at hr'
    · simp only [Function.update_of_ne hθ] at hr'
      exact h.handling θ' r' hr'
  apply inv_dropStrong hreturned (h.handling θ r hr)
  rintro θ' hθ' he
  obtain rfl := Option.some.inj he
  simp at hθ'

/-- How far the drop of each owner has come, which closes the fd of a socket or a custom event
before it gives up the registration. -/
structure OwnerInv (kind : R → Kind) (s : State R Θ) : Prop where
  suffix : ∀ r, s.teardown r <:+ (kind r).teardown
  unused : ∀ r, s.phase r = .unused → s.teardown r = []
  closed : ∀ r, kind r ≠ .caller → s.phase r ≠ .unused → .closeFd ∉ s.teardown r → s.PastClose r
  held : ∀ r, .dropRegistration ∈ s.teardown r → none ∈ s.holders r

theorem closeFd_before_dropRegistration (k : Kind) : ∀ rest, rest <:+ k.teardown →
    .closeFd ∈ rest → .dropRegistration ∈ rest := by
  have hall : ∀ rest ∈ k.teardown.tails, .closeFd ∈ rest → .dropRegistration ∈ rest := by
    cases k <;> decide
  exact fun rest hrest => hall rest ((List.mem_tails _ _).mpr hrest)

theorem dropRegistration_once (k : Kind) : ∀ rest, .dropRegistration :: rest <:+ k.teardown →
    .dropRegistration ∉ rest := by
  have hall : ∀ l ∈ k.teardown.tails, l.head? = some .dropRegistration →
      .dropRegistration ∉ l.tail := by
    cases k <;> decide
  exact fun rest hrest => hall (.dropRegistration :: rest) ((List.mem_tails _ _).mpr hrest) rfl

theorem closeFd_mem_teardown {k : Kind} (hk : k ≠ .caller) : .closeFd ∈ k.teardown := by
  cases k <;> first | exact absurd rfl hk | decide

omit [DecidableEq R] [DecidableEq Θ] in
theorem initial_ownerInv : OwnerInv kind (initial : State R Θ) := by
  constructor <;> simp [initial]

omit [DecidableEq R] [DecidableEq Θ] in
theorem OwnerInv.of_le (h : OwnerInv kind s) (hteardown : t.teardown = s.teardown)
    (hphase : ∀ r, t.phase r = .unused ↔ s.phase r = .unused)
    (hpast : ∀ r, s.PastClose r → t.PastClose r)
    (hheld : ∀ r, .dropRegistration ∈ s.teardown r → none ∈ s.holders r → none ∈ t.holders r) :
    OwnerInv kind t where
  suffix r := hteardown ▸ h.suffix r
  unused r hr := hteardown ▸ h.unused r ((hphase r).mp hr)
  closed r hk hr hmem := hpast r (h.closed r hk ((hphase r).not.mp hr) (hteardown ▸ hmem))
  held r hmem := hheld r (hteardown ▸ hmem) (h.held r (hteardown ▸ hmem))

omit [DecidableEq R] [DecidableEq Θ] in
theorem pastClose_close (h : s.PastClose r) : (s.close fd).PastClose r := by
  simp only [State.PastClose, State.close] at h ⊢
  by_cases hfd : s.fd r = fd
  · rw [hfd] at h ⊢
    simp only [Function.update_self]
    omega
  · simpa [hfd] using h

theorem dropStrong_phase {holder : Option Θ} (halive : s.phase r ≠ .unused) (r' : R) :
    (s.dropStrong r holder).phase r' = .unused ↔ s.phase r' = .unused := by
  unfold State.dropStrong
  split
  · by_cases hr : r' = r
    · simp [hr, halive]
    · simp [hr]
  · rfl

theorem ownerInv_dropStrong (h : OwnerInv kind s) {holder : Option Θ}
    (halive : s.phase r ≠ .unused) (hmem : .dropRegistration ∉ s.teardown r ∨ holder ≠ none) :
    OwnerInv kind (s.dropStrong r holder) := by
  refine h.of_le rfl (dropStrong_phase halive) (fun _ => id) fun r' hdrop hheld => ?_
  by_cases hr : r' = r
  · subst hr
    have hne := hmem.resolve_left (not_not.mpr hdrop)
    simpa [State.dropStrong] using (List.mem_erase_of_ne hne.symm).mpr hheld
  · simpa [State.dropStrong, hr] using hheld

omit [DecidableEq Θ] in
theorem ownerInv_add (h : OwnerInv kind s) (hphase : s.phase r = .unused) :
    OwnerInv kind (s.add (kind r) r fd) := by
  refine ⟨fun r' => ?_, fun r' hr' => ?_, fun r' hk hr' hmem => ?_, fun r' hmem => ?_⟩
  all_goals by_cases hr : r' = r
  · simp [State.add, hr]
  · simpa [State.add, hr] using h.suffix r'
  · simp [State.add, hr] at hr'
  · simp only [State.add, Function.update_of_ne hr] at hr' ⊢
    exact h.unused r' hr'
  · subst hr
    simp only [State.add, Function.update_self] at hmem
    exact absurd (closeFd_mem_teardown hk) hmem
  · simp only [State.add, State.PastClose, Function.update_of_ne hr] at hr' hmem ⊢
    exact h.closed r' hk hr' hmem
  · simp [State.add, hr]
  · simp only [State.add, Function.update_of_ne hr] at hmem ⊢
    exact h.held r' hmem

theorem ownerInv_tearDown (h : Inv s) (ho : OwnerInv kind s) {first : TeardownStep}
    {rest : List TeardownStep} (hfirst : s.teardown r = first :: rest) :
    OwnerInv kind ((tearDown s r first).setTeardown r rest) := by
  have hsuffix := ho.suffix r
  rw [hfirst] at hsuffix
  have hphase : s.phase r ≠ .unused := fun hu => by simp [ho.unused r hu] at hfirst
  have hunused : ∀ r', (tearDown s r first).phase r' = .unused ↔ s.phase r' = .unused := by
    intro r'
    cases first with
    | closeFd | dropField => rfl
    | dropRegistration => exact dropStrong_phase hphase r'
  have hteardown : (tearDown s r first).teardown = s.teardown := by cases first <;> rfl
  have hpast : ∀ r', s.PastClose r' → (tearDown s r first).PastClose r' := by
    intro r' hr'
    cases first with
    | closeFd => exact pastClose_close hr'
    | dropRegistration | dropField => exact hr'
  refine ⟨fun r' => ?_, fun r' hr' => ?_, fun r' hk hr' hmem => ?_, fun r' hmem => ?_⟩
  all_goals by_cases hr : r' = r
  · subst hr
    simpa [State.setTeardown] using (List.suffix_cons first rest).trans hsuffix
  · simpa [State.setTeardown, hr, hteardown] using ho.suffix r'
  · exact absurd ((hunused r').mp hr') (hr ▸ hphase)
  · simpa [State.setTeardown, hr, hteardown] using ho.unused r' ((hunused r').mp hr')
  · subst hr
    simp only [State.setTeardown, Function.update_self] at hmem
    cases first with
    | closeFd =>
      have := h.registeredAt r' hphase
      simp only [State.PastClose, State.setTeardown, tearDown, State.close, Function.update_self]
      omega
    | dropRegistration | dropField =>
      exact hpast r' (ho.closed r' hk hphase (by simp [hfirst, hmem]))
  · simp only [State.setTeardown, Function.update_of_ne hr, hteardown] at hmem
    exact hpast r' (ho.closed r' hk ((hunused r').not.mp hr') hmem)
  · subst hr
    simp only [State.setTeardown, Function.update_self] at hmem
    cases first with
    | closeFd | dropField => exact ho.held r' (by simp [hfirst, hmem])
    | dropRegistration => exact absurd hmem (dropRegistration_once _ rest hsuffix)
  · simp only [State.setTeardown, Function.update_of_ne hr, hteardown] at hmem
    have hheld := ho.held r' hmem
    cases first with
    | closeFd | dropField => exact hheld
    | dropRegistration => simpa [State.setTeardown, tearDown, State.dropStrong, hr] using hheld

theorem step_ownerInv (h : Inv s) (ho : OwnerInv kind s) (hs : step kind s a = some t) :
    OwnerInv kind t := by
  cases step_cases hs with
  | openFd | wait => exact ho.of_le rfl (fun _ => .rfl) (fun _ => id) fun _ _ => id
  | closeFd => exact ho.of_le rfl (fun _ => .rfl) (fun _ => pastClose_close) fun _ _ => id
  | register hphase => exact ownerInv_add ho hphase
  | registerFailed => exact ho
  | modify =>
    unfold EpollSet.modify
    split
    · exact ho
    · exact ho.of_le rfl (fun _ => .rfl) (fun _ => id) fun _ _ => id
  | @clone r =>
    refine ho.of_le rfl (fun _ => .rfl) (fun _ => id) fun r' _ hheld => ?_
    by_cases hr : r' = r <;> simp [hr, hheld]
  | @dropClone r hkind hmem =>
    apply ownerInv_dropStrong ho
    · simp [h.alive_of_mem hmem]
    · have hsuffix := ho.suffix r
      rw [hkind] at hsuffix
      simp [List.suffix_nil.mp hsuffix]
  | tearDown hfirst => exact ownerInv_tearDown h ho hfirst
  | @dropWeak r hphase =>
    refine ho.of_le rfl (fun r' => ?_) (fun _ => id) fun _ _ => id
    by_cases hr : r' = r <;> simp [EpollSet.dropWeak, hr, hphase]
  | @ctlDel r hphase =>
    unfold EpollSet.ctlDel
    split
    all_goals
      refine ho.of_le rfl (fun r' => ?_) (fun _ => id) fun _ _ => id
      by_cases hr : r' = r <;> simp [hr, hphase]
  | @dispatch θ r =>
    unfold EpollSet.dispatch
    split
    · refine ho.of_le rfl (fun _ => .rfl) (fun _ => id) fun r' _ hheld => ?_
      by_cases hr : r' = r
      · subst hr
        simp [hheld]
      · simp [hr, hheld]
    · exact ho.of_le rfl (fun _ => .rfl) (fun _ => id) fun _ _ => id
  | @finish θ r hhandling =>
    have hreturned : OwnerInv kind { s with handling := Function.update s.handling θ none } :=
      ho.of_le rfl (fun _ => .rfl) (fun _ => id) fun _ _ => id
    apply ownerInv_dropStrong hreturned
    · simp [h.alive_of_mem (h.handling θ r hhandling)]
    · simp

theorem step_inv (h : Inv s) (ho : OwnerInv kind s) (hs : step kind s a = some t) : Inv t := by
  cases step_cases hs with
  | @openFd fd =>
    refine h.of_same (fun fd' ho => ?_) rfl rfl rfl rfl rfl rfl rfl
    by_cases hfd : fd' = fd <;> simp [hfd, ho]
  | closeFd => exact inv_close h
  | register hphase hopen => exact inv_add h hphase hopen
  | registerFailed => exact h
  | modify hholder => exact inv_modify h (modify_alive h hholder)
  | @clone r hkind hholders =>
    refine h.of_holders (fun _ => id) rfl rfl rfl rfl rfl (fun r' hr' => ?_) fun θ r' hr' => ?_
    · by_cases hr : r' = r
      · exact hr ▸ h.holders r hholders
      · simp only [Function.update_of_ne hr] at hr'
        exact h.holders r' hr'
    · have := h.handling θ r' hr'
      by_cases hr : r' = r
      · subst hr
        simp [this]
      · simpa [hr] using this
  | dropClone hkind hmem => exact inv_dropStrong h hmem (by simp)
  | @tearDown r first rest hfirst =>
    have hdone : Inv (tearDown s r first) := by
      cases first with
      | closeFd => exact inv_close h
      | dropRegistration => exact inv_dropStrong h (ho.held r (by simp [hfirst])) (by simp)
      | dropField => exact h
    exact hdone.of_same (fun _ => id) rfl rfl rfl rfl rfl rfl rfl
  | ctlDel hphase => exact inv_ctlDel h hphase
  | dropWeak hphase => exact inv_dropWeak h hphase
  | wait => exact h.of_same (fun _ => id) rfl rfl rfl rfl rfl rfl rfl
  | dispatch => exact inv_dispatch h
  | finish hhandling => exact inv_finish h hhandling

theorem reachable_both (h : (machine (Θ := Θ) kind).Reachable s) : Inv s ∧ OwnerInv kind s := by
  apply h.invariant (I := fun s => Inv s ∧ OwnerInv kind s)
  · intro s hs
    exact hs ▸ ⟨initial_inv, initial_ownerInv⟩
  · intro s a t _ hi _ hs
    exact ⟨step_inv hi.1 hi.2 hs, step_ownerInv hi.1 hi.2 hs⟩

theorem reachable_inv (h : (machine (Θ := Θ) kind).Reachable s) : Inv s := (reachable_both h).1

end Step

end CompleteIo.EpollSet
