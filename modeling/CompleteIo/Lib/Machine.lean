import Mathlib.Algebra.GroupWithZero.Nat
import Mathlib.Data.Option.Basic
import Mathlib.Data.List.Basic

namespace CompleteIo

/-- A machine: its initial states and the partial effect of each action. -/
structure Machine (σ α : Type*) where
  init : σ → Prop
  step : σ → α → Option σ

namespace Machine

variable {σ α τ β : Type*} {M : Machine σ α} {N : Machine τ β}

/-- The states reached from an initial one by steps that all meet `ok`. -/
inductive ReachesUnder (M : Machine σ α) (ok : σ → α → Prop) : σ → Prop
  | init {s : σ} : M.init s → ReachesUnder M ok s
  | step {s t : σ} {a : α} : ReachesUnder M ok s → ok s a → M.step s a = some t →
      ReachesUnder M ok t

/-- The states reached by any steps at all. -/
abbrev Reachable (M : Machine σ α) : σ → Prop := M.ReachesUnder fun _ _ => True

/-- Runs a whole schedule of actions. -/
def exec (M : Machine σ α) : σ → List α → Option σ
  | s, [] => some s
  | s, a :: as => (M.step s a).bind fun t => exec M t as

/-- Every step of the schedule, taken from `s`, satisfies `p` in the state before it. -/
def Every (M : Machine σ α) (p : σ → α → Prop) : σ → List α → Prop
  | _, [] => True
  | s, a :: as => p s a ∧ ∀ t, M.step s a = some t → Every M p t as

/-- Every state of the schedule, from `s` on, satisfies `p`. -/
def Throughout (M : Machine σ α) (p : σ → Prop) : σ → List α → Prop
  | s, [] => p s
  | s, a :: as => p s ∧ ∀ t, M.step s a = some t → Throughout M p t as

/-- Some schedule leads from the one state to the other. -/
def Leads (M : Machine σ α) (s t : σ) : Prop := ∃ as, M.exec s as = some t

/-- What holds initially and is kept by every permitted step from a state reached so far, for
which earlier invariants may be used, holds of every state reached. -/
theorem ReachesUnder.invariant {ok : σ → α → Prop} {I : σ → Prop} {s : σ}
    (h : M.ReachesUnder ok s) (hinit : ∀ s, M.init s → I s)
    (hstep : ∀ s a t, M.ReachesUnder ok s → I s → ok s a → M.step s a = some t → I t) : I s := by
  induction h with
  | init h => exact hinit _ h
  | step hr hok hs ih => exact hstep _ _ _ hr ih hok hs

theorem ReachesUnder.mono {ok ok' : σ → α → Prop} {s : σ} (h : M.ReachesUnder ok s)
    (hok : ∀ s a, ok s a → ok' s a) : M.ReachesUnder ok' s := by
  induction h with
  | init h => exact .init h
  | step _ ha hs ih => exact .step ih (hok _ _ ha) hs

theorem ReachesUnder.reachable {ok : σ → α → Prop} {s : σ} (h : M.ReachesUnder ok s) :
    M.Reachable s := h.mono fun _ _ _ => trivial

theorem exec_singleton {s : σ} {a : α} : M.exec s [a] = M.step s a := Option.bind_fun_some _

theorem exec_append {s : σ} {as bs : List α} :
    M.exec s (as ++ bs) = (M.exec s as).bind fun t => M.exec t bs := by
  induction as generalizing s with
  | nil => rfl
  | cons a as ih => simp only [List.cons_append, exec, ih, Option.bind_assoc]

theorem Leads.refl {s : σ} : M.Leads s s := ⟨[], rfl⟩

theorem Leads.step {s t u : σ} {a : α} (hs : M.step s a = some t) (h : M.Leads t u) :
    M.Leads s u := by
  obtain ⟨as, hrun⟩ := h
  exact ⟨a :: as, by rw [exec, hs, Option.bind_some, hrun]⟩

theorem Leads.trans {s t u : σ} (hst : M.Leads s t) (htu : M.Leads t u) : M.Leads s u := by
  obtain ⟨as, hst⟩ := hst
  obtain ⟨bs, htu⟩ := htu
  exact ⟨as ++ bs, by rw [exec_append, hst, Option.bind_some, htu]⟩

/-- Where each state has reached the goal or can take a step that lowers the measure, some
schedule reaches it. -/
theorem leads_of_measure {I G : σ → Prop} (μ : σ → ℕ) {s : σ}
    (h : ∀ s, I s → G s ∨ ∃ a t, M.step s a = some t ∧ I t ∧ μ t < μ s) (hs : I s) :
    ∃ t, M.Leads s t ∧ I t ∧ G t := by
  induction hm : μ s using Nat.strongRecOn generalizing s with
  | ind m ih =>
    rcases h s hs with hG | ⟨a, t, hstep, ht, hlt⟩
    · exact ⟨s, .refl, hs, hG⟩
    · obtain ⟨u, hu, hIu, hGu⟩ := ih (μ t) (hm ▸ hlt) ht rfl
      exact ⟨u, .step hstep hu, hIu, hGu⟩

theorem Reachable.exec {s t : σ} {as : List α} (h : M.Reachable s)
    (hrun : M.exec s as = some t) : M.Reachable t := by
  induction as generalizing s with
  | nil => exact Option.some.inj hrun ▸ h
  | cons a as ih =>
    obtain ⟨u, hu, hrun⟩ := Option.bind_eq_some_iff.mp hrun
    exact ih (.step h trivial hu) hrun

theorem Reachable.leads {s t : σ} (h : M.Reachable s) (hst : M.Leads s t) : M.Reachable t := by
  obtain ⟨as, hrun⟩ := hst
  exact h.exec hrun

theorem reachable_of_exec {s t : σ} {as : List α} (h : M.init s)
    (hrun : M.exec s as = some t) : M.Reachable t :=
  Reachable.exec (.init h) hrun

/-- A schedule whose steps all meet `ok` stays within the states reached under `ok`. -/
theorem ReachesUnder.exec {ok : σ → α → Prop} {s t : σ} {as : List α} (h : M.ReachesUnder ok s)
    (hok : M.Every ok s as) (hrun : M.exec s as = some t) : M.ReachesUnder ok t := by
  induction as generalizing s with
  | nil => exact Option.some.inj hrun ▸ h
  | cons a as ih =>
    obtain ⟨u, hu, hrun⟩ := Option.bind_eq_some_iff.mp hrun
    exact ih (.step h hok.1 hu) (hok.2 u hu) hrun

/-- What the actions of a schedule keep from one state to the next holds at its end. -/
theorem exec_invariant {q : σ → α → Prop} {I : σ → Prop} {s t : σ} {as : List α} (h : I s)
    (hstep : ∀ s a t, I s → q s a → M.step s a = some t → I t) (hq : M.Every q s as)
    (hrun : M.exec s as = some t) : I t := by
  induction as generalizing s with
  | nil => exact Option.some.inj hrun ▸ h
  | cons a as ih =>
    obtain ⟨u, hu, hrun⟩ := Option.bind_eq_some_iff.mp hrun
    exact ih (hstep s a u h hq.1 hu) (hq.2 u hu) hrun

/-- A balance to which every action adds its gain and from which it takes its loss. -/
theorem exec_sum (μ : σ → ℕ) (gain loss : α → ℕ) {s t : σ} {as : List α}
    (hstep : ∀ s a t, M.step s a = some t → μ t + loss a = μ s + gain a)
    (hrun : M.exec s as = some t) : μ t + (as.map loss).sum = μ s + (as.map gain).sum := by
  induction as generalizing s with
  | nil => simp [Option.some.inj hrun]
  | cons a as ih =>
    obtain ⟨u, hu, hrun⟩ := Option.bind_eq_some_iff.mp hrun
    have hfirst := hstep s a u hu
    have hrest := ih hrun
    simp only [List.map_cons, List.sum_cons]
    omega

/-- What each step keeps of the states and the actions before them holds at the end of a run. -/
theorem exec_history {I : List α → σ → Prop} {s t : σ} {past as : List α} (h : I past s)
    (hstep : ∀ past s a t, I past s → M.step s a = some t → I (past ++ [a]) t)
    (hrun : M.exec s as = some t) : I (past ++ as) t := by
  induction as generalizing s past with
  | nil => exact Option.some.inj hrun ▸ (List.append_nil past).symm ▸ h
  | cons a as ih =>
    obtain ⟨u, hu, hrun⟩ := Option.bind_eq_some_iff.mp hrun
    rw [List.append_cons]
    exact ih (hstep past s a u h hu) hrun

/-- What every step from such a state tells of its action holds of all actions of a run. -/
theorem exec_forall {q : σ → α → Prop} {I : σ → Prop} {P : α → Prop} {s t : σ} {as : List α}
    (h : I s) (hstep : ∀ s a t, I s → q s a → M.step s a = some t → I t ∧ P a)
    (hq : M.Every q s as) (hrun : M.exec s as = some t) : ∀ a ∈ as, P a := by
  induction as generalizing s with
  | nil => simp
  | cons a as ih =>
    obtain ⟨u, hu, hrun⟩ := Option.bind_eq_some_iff.mp hrun
    obtain ⟨hu', ha⟩ := hstep s a u h hq.1 hu
    exact List.forall_mem_cons.mpr ⟨ha, ih hu' (hq.2 u hu) hrun⟩

/-- What becomes true by certain actions alone, and stays so, tells if a run has one of them. -/
theorem exec_iff_exists {Q : σ → Prop} {A : α → Prop} {s t : σ} {as : List α}
    (hstep : ∀ s a t, M.Reachable s → M.step s a = some t → (Q t ↔ Q s ∨ A a))
    (hs : M.Reachable s) (hrun : M.exec s as = some t) : Q t ↔ Q s ∨ ∃ a ∈ as, A a := by
  induction as generalizing s with
  | nil =>
    obtain rfl := Option.some.inj hrun
    simp
  | cons a as ih =>
    obtain ⟨u, hu, hrun⟩ := Option.bind_eq_some_iff.mp hrun
    rw [ih (.step hs trivial hu) hrun, hstep s a u hs hu]
    simp [or_assoc]

/-- The same for runs within `ok`, of which the actions may be told apart by their states too. -/
theorem exec_iff_not_every {ok p : σ → α → Prop} {Q : σ → Prop} {s t : σ} {as : List α}
    (hstep : ∀ s a t, M.ReachesUnder ok s → ok s a → M.step s a = some t → (Q t ↔ Q s ∨ ¬ p s a))
    (hs : M.ReachesUnder ok s) (hok : M.Every ok s as) (hrun : M.exec s as = some t) :
    Q t ↔ Q s ∨ ¬ M.Every p s as := by
  induction as generalizing s with
  | nil =>
    obtain rfl := Option.some.inj hrun
    simp [Every]
  | cons a as ih =>
    obtain ⟨u, hu, hrun⟩ := Option.bind_eq_some_iff.mp hrun
    rw [ih (.step hs hok.1 hu) (hok.2 u hu) hrun, hstep s a u hs hok.1 hu, or_assoc]
    refine or_congr_right ?_
    simp only [Every, hu, Option.some.injEq, forall_eq']
    tauto

theorem Every.cons {p : σ → α → Prop} {s t : σ} {a : α} {as : List α} (ha : p s a)
    (hs : M.step s a = some t) (has : M.Every p t as) : M.Every p s (a :: as) :=
  ⟨ha, fun u hu => by rwa [← Option.some.inj (hs.symm.trans hu)]⟩

theorem every_of_forall {p : σ → α → Prop} {s : σ} {as : List α} (h : ∀ s, ∀ a ∈ as, p s a) :
    M.Every p s as := by
  induction as generalizing s with
  | nil => trivial
  | cons a as ih =>
    exact ⟨h s a (List.mem_cons_self ..), fun t _ => ih fun s b hb => h s b (by simp [hb])⟩

theorem Every.and {p q : σ → α → Prop} {s : σ} {as : List α} (hp : M.Every p s as)
    (hq : M.Every q s as) : M.Every (fun s a => p s a ∧ q s a) s as := by
  induction as generalizing s with
  | nil => trivial
  | cons a as ih => exact ⟨⟨hp.1, hq.1⟩, fun t ht => ih (hp.2 t ht) (hq.2 t ht)⟩

/-- A relation to a more abstract machine in which each permitted step is matched by a
permitted step or by none at all carries reachability over. -/
theorem ReachesUnder.simulate {p : σ → α → Prop} {q : τ → β → Prop} {R : σ → τ → Prop} {s : σ}
    (h : M.ReachesUnder p s) (hinit : ∀ s, M.init s → ∃ x, N.init x ∧ R s x)
    (hstep : ∀ s a t x, M.ReachesUnder p s → R s x → p s a → M.step s a = some t →
      R t x ∨ ∃ b y, q x b ∧ N.step x b = some y ∧ R t y) :
    ∃ x, N.ReachesUnder q x ∧ R s x := by
  induction h with
  | init h =>
    obtain ⟨x, hx, hR⟩ := hinit _ h
    exact ⟨x, .init hx, hR⟩
  | step hr hok hs ih =>
    obtain ⟨x, hx, hR⟩ := ih
    rcases hstep _ _ _ x hr hR hok hs with hR' | ⟨b, y, hb, hy, hR'⟩
    · exact ⟨x, hx, hR'⟩
    · exact ⟨y, .step hx hb hy, hR'⟩

/-- If each step from a good state, reached by steps that met `ok`, leads to a good state exactly
when it meets `ok` too, then a run is good throughout exactly when all of its steps meet `ok`. -/
theorem throughout_iff_every {ok : σ → α → Prop} {p : σ → Prop}
    (hstep : ∀ s a t, M.ReachesUnder ok s → p s → M.step s a = some t → (p t ↔ ok s a))
    {s t : σ} {as : List α} (hs : M.ReachesUnder ok s) (hp : p s)
    (hrun : M.exec s as = some t) :
    M.Throughout p s as ↔ M.Every ok s as := by
  induction as generalizing s with
  | nil => exact ⟨fun _ => trivial, fun _ => hp⟩
  | cons a as ih =>
    obtain ⟨u, hu, hrun⟩ := Option.bind_eq_some_iff.mp hrun
    have key := hstep s a u hs hp hu
    constructor
    · rintro ⟨-, h⟩
      -- The state after the step is the first one of the rest of the run.
      have hpu : p u := by
        have := h u hu
        cases as with
        | nil => exact this
        | cons => exact this.1
      have hok := key.mp hpu
      refine ⟨hok, fun v hv => ?_⟩
      obtain rfl : u = v := Option.some.inj (hu.symm.trans hv)
      exact (ih (.step hs hok hu) hpu hrun).mp (h u hu)
    · rintro ⟨hok, h⟩
      have hpu := key.mpr hok
      refine ⟨hp, fun v hv => ?_⟩
      obtain rfl : u = v := Option.some.inj (hu.symm.trans hv)
      exact (ih (.step hs hok hu) hpu hrun).mpr (h u hu)

/-- Two conditions of which one always implies the other, and follows from it as long as it was
met so far, are met by the same runs. -/
theorem every_iff_every {p q : σ → α → Prop}
    (hpq : ∀ s a t, M.Reachable s → M.step s a = some t → p s a → q s a)
    (hqp : ∀ s a t, M.ReachesUnder q s → M.step s a = some t → q s a → p s a)
    {s t : σ} {as : List α} (hs : M.ReachesUnder q s) (hrun : M.exec s as = some t) :
    M.Every p s as ↔ M.Every q s as := by
  induction as generalizing s with
  | nil => exact Iff.rfl
  | cons a as ih =>
    obtain ⟨u, hu, hrun⟩ := Option.bind_eq_some_iff.mp hrun
    have hnext : q s a → ∀ v, M.step s a = some v → (M.Every p v as ↔ M.Every q v as) := by
      intro hq v hv
      obtain rfl : u = v := Option.some.inj (hu.symm.trans hv)
      exact ih (.step hs hq hu) hrun
    constructor
    · rintro ⟨hp, hrest⟩
      have hq := hpq s a u hs.reachable hu hp
      exact ⟨hq, fun v hv => (hnext hq v hv).mp (hrest v hv)⟩
    · rintro ⟨hq, hrest⟩
      exact ⟨hqp s a u hs hu hq, fun v hv => (hnext hq v hv).mpr (hrest v hv)⟩

end Machine

end CompleteIo
