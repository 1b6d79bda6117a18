import CompleteIo.Lib.Machine

namespace CompleteIo

/-- How two machines run as one: which action of each an action of the whole stands for, if any,
and what the whole asks for besides. The second machine may look at the state of the first. -/
structure Link (σ τ α β γ : Type*) where
  left : γ → Option α
  right : σ → γ → Option β
  permits : σ → τ → γ → Bool

namespace Machine

variable {σ τ α β γ : Type*} {M : Machine σ α} {N : Machine τ β} {link : Link σ τ α β γ}

/-- An action that a machine has no part in leaves it as it is. -/
def move (M : Machine σ α) (s : σ) : Option α → Option σ
  | none => some s
  | some a => M.step s a

/-- Two machines side by side, which move together where the link says so. -/
def beside (M : Machine σ α) (N : Machine τ β) (link : Link σ τ α β γ) : Machine (σ × τ) γ where
  init s := M.init s.1 ∧ N.init s.2
  step s c :=
    if link.permits s.1 s.2 c then
      (M.move s.1 (link.left c)).bind fun u => (N.move s.2 (link.right s.1 c)).map (u, ·)
    else none

theorem beside_step {s t : σ × τ} {c : γ} : (M.beside N link).step s c = some t ↔
    link.permits s.1 s.2 c = true ∧ M.move s.1 (link.left c) = some t.1 ∧
      N.move s.2 (link.right s.1 c) = some t.2 := by
  simp only [beside, Option.ite_none_right_eq_some, Option.bind_eq_some_iff,
    Option.map_eq_some_iff]
  constructor
  · rintro ⟨hp, u, hu, v, hv, rfl⟩
    exact ⟨hp, hu, hv⟩
  · rintro ⟨hp, hu, hv⟩
    exact ⟨hp, _, hu, _, hv, rfl⟩

section Step

variable {s t : σ × τ} {c : γ} (hs : (M.beside N link).step s c = some t)
include hs

theorem permits_of_step : link.permits s.1 s.2 c = true := (beside_step.mp hs).1

theorem step_left {a : α} (hc : link.left c = some a) : M.step s.1 a = some t.1 := by
  have := (beside_step.mp hs).2.1
  rwa [hc] at this

theorem step_right {b : β} (hc : link.right s.1 c = some b) : N.step s.2 b = some t.2 := by
  have := (beside_step.mp hs).2.2
  rwa [hc] at this

theorem idle_left (hc : link.left c = none) : t.1 = s.1 := by
  have := (beside_step.mp hs).2.1
  rw [hc] at this
  exact (Option.some.inj this).symm

theorem idle_right (hc : link.right s.1 c = none) : t.2 = s.2 := by
  have := (beside_step.mp hs).2.2
  rw [hc] at this
  exact (Option.some.inj this).symm

end Step

theorem ReachesUnder.move {ok : σ → α → Prop} {s t : σ} {a : Option α} (h : M.ReachesUnder ok s)
    (hok : ∀ b, a = some b → ok s b) (hs : M.move s a = some t) : M.ReachesUnder ok t := by
  cases a with
  | none => exact Option.some.inj hs ▸ h
  | some a => exact .step h (hok a rfl) hs

/-- The first machine of a pair only ever does what it could do alone. -/
theorem ReachesUnder.fst {ok : σ × τ → γ → Prop} {p : σ → α → Prop} {s : σ × τ}
    (h : (M.beside N link).ReachesUnder ok s)
    (hok : ∀ s c a, ok s c → link.left c = some a → p s.1 a) : M.ReachesUnder p s.1 := by
  induction h with
  | init h => exact .init h.1
  | step _ hc hs ih =>
    exact ih.move (fun a ha => hok _ _ a hc ha) (beside_step.mp hs).2.1

/-- The second machine, too, only does what it could do alone. -/
theorem ReachesUnder.snd {ok : σ × τ → γ → Prop} {q : τ → β → Prop} {s : σ × τ}
    (h : (M.beside N link).ReachesUnder ok s)
    (hok : ∀ s c b, ok s c → link.right s.1 c = some b → q s.2 b) : N.ReachesUnder q s.2 := by
  induction h with
  | init h => exact .init h.2
  | step _ hc hs ih =>
    exact ih.move (fun b hb => hok _ _ b hc hb) (beside_step.mp hs).2.2

end Machine

end CompleteIo
