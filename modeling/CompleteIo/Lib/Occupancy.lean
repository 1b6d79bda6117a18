import Mathlib.Data.Nat.Basic

namespace CompleteIo

variable {ι : Type*}

/-- Of all the places that `f` counts, the thing counted is at `p`, once, and nowhere else. -/
structure AtOnly (f : ι → ℕ) (p : ι) : Prop where
  here : f p = 1
  elsewhere : ∀ x, x ≠ p → f x = 0

namespace AtOnly

variable {f g : ι → ℕ} {p q x : ι}

theorem eq_of_ne_zero (h : AtOnly f p) (hx : f x ≠ 0) : x = p :=
  by_contra fun hne => hx (h.elsewhere x hne)

theorem unique (h : AtOnly f p) (h' : AtOnly f q) : p = q :=
  h'.eq_of_ne_zero (by simp [h.here])

theorem le_one (h : AtOnly f p) (x : ι) : f x ≤ 1 := by
  by_cases hx : x = p
  · rw [hx, h.here]
  · simp [h.elsewhere x hx]

/-- The thing is taken from `p` and put at `q`. -/
theorem move (h : AtOnly f p) (hp : g p = 0) (hq : g q = 1)
    (hother : ∀ x, x ≠ p → x ≠ q → g x = f x) : AtOnly g q where
  here := hq
  elsewhere x hx := by
    by_cases hxp : x = p
    · rw [hxp, hp]
    · rw [hother x hxp hx, h.elsewhere x hxp]

/-- The thing is taken from `p` and is gone. -/
theorem vanish (h : AtOnly f p) (hp : g p = 0) (hother : ∀ x, x ≠ p → g x = f x) (x : ι) :
    g x = 0 := by
  by_cases hxp : x = p
  · rw [hxp, hp]
  · rw [hother x hxp, h.elsewhere x hxp]

/-- A thing that was nowhere appears at `q`. -/
theorem appear (h : ∀ x, f x = 0) (hq : g q = 1) (hother : ∀ x, x ≠ q → g x = f x) :
    AtOnly g q where
  here := hq
  elsewhere x hx := by rw [hother x hx, h x]

end AtOnly

end CompleteIo
