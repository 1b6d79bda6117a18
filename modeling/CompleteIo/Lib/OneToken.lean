import Mathlib.Logic.Basic

namespace CompleteIo

variable {Θ : Type*}

/-- A single token: it lies free and nobody is busy, or one party holds it and is the only
busy one. -/
def OneToken (free : Bool) (busy : Θ → Prop) : Prop :=
  if free then ∀ i, ¬ busy i else ∃ i, ∀ j, busy j ↔ j = i

namespace OneToken

variable {free : Bool} {busy busy' : Θ → Prop} {i j : Θ}

theorem unique (h : OneToken free busy) (hi : busy i) (hj : busy j) : i = j := by
  cases free with
  | true => exact absurd hi (h i)
  | false =>
    obtain ⟨k, hk⟩ := h
    exact ((hk i).mp hi).trans ((hk j).mp hj).symm

theorem idle_of_free (h : OneToken true busy) (i : Θ) : ¬ busy i := h i

theorem exists_busy (h : OneToken false busy) : ∃ i, busy i := by
  obtain ⟨i, hi⟩ := h
  exact ⟨i, (hi i).mpr rfl⟩

theorem not_free (h : OneToken free busy) (hi : busy i) : free = false := by
  cases free with
  | true => exact absurd hi (h i)
  | false => rfl

theorem congr (h : OneToken free busy) (h' : ∀ j, busy' j ↔ busy j) : OneToken free busy' := by
  obtain rfl : busy' = busy := funext fun j => propext (h' j)
  exact h

/-- The token that lies free is taken. -/
theorem take (h : OneToken true busy) (hi : busy' i) (hother : ∀ j, j ≠ i → (busy' j ↔ busy j)) :
    OneToken false busy' := by
  refine ⟨i, fun j => ⟨fun hj => ?_, fun he => he ▸ hi⟩⟩
  exact not_not.mp fun hne => h j ((hother j hne).mp hj)

/-- Its holder lays the token down. -/
theorem put (h : OneToken free busy) (hi : busy i) (hi' : ¬ busy' i)
    (hother : ∀ j, j ≠ i → (busy' j ↔ busy j)) : OneToken true busy' := by
  intro j hj
  by_cases hji : j = i
  · exact hi' (hji ▸ hj)
  · exact hji (h.unique ((hother j hji).mp hj) hi)

end OneToken

end CompleteIo
