import Mathlib.Data.List.Induction
import Mathlib.Data.List.Perm.Basic

namespace CompleteIo

variable {α β : Type*}

/-- Takes out the entry at `i` and puts the last one in its place. -/
def swapRemove (xs : List α) (i : ℕ) : List α :=
  match xs.getLast? with
  | none => []
  | some x => (xs.set i x).dropLast

/-- Looks at the entries from `i` on, takes out those that satisfy `p` and folds `f` over the
rest; `n` bounds the number of rounds. -/
def sweep (p : α → Bool) (f : β → α → β) : ℕ → List α → ℕ → β → List α × List α × β
  | 0, xs, _, b => ([], xs, b)
  | n + 1, xs, i, b =>
    match xs[i]? with
    | none => ([], xs, b)
    | some x =>
      if p x then
        let rest := sweep p f n (swapRemove xs i) i b
        (x :: rest.1, rest.2)
      else sweep p f n xs (i + 1) (f b x)

variable {xs : List α} {i : ℕ} {x y : α}

theorem swapRemove_concat (h : i < xs.length) : swapRemove (xs ++ [y]) i = xs.set i y := by
  simp [swapRemove, List.set_append_left _ _ h]

@[simp] theorem swapRemove_concat_length : swapRemove (xs ++ [y]) xs.length = xs := by
  simp [swapRemove]

theorem length_swapRemove : (swapRemove xs i).length = xs.length - 1 := by
  cases xs using List.reverseRecOn <;> simp [swapRemove]

theorem take_swapRemove (h : i < xs.length) : (swapRemove xs i).take i = xs.take i := by
  cases xs using List.reverseRecOn with
  | nil => simp at h
  | append_singleton xs y =>
    rw [List.length_append, List.length_singleton] at h
    by_cases hi : i < xs.length
    · rw [swapRemove_concat hi, List.take_set_of_le (Nat.le_refl i),
        List.take_append_of_le_length (Nat.le_of_lt hi)]
    · obtain rfl : i = xs.length := by omega
      simp

theorem swapRemove_perm (h : xs[i]? = some x) : (x :: swapRemove xs i).Perm xs := by
  cases xs using List.reverseRecOn with
  | nil => simp at h
  | append_singleton xs y =>
    -- Unless it is the last entry that goes, the last one takes its place.
    by_cases hi : i < xs.length
    · rw [List.getElem?_append_left hi] at h
      obtain ⟨-, rfl⟩ := List.getElem?_eq_some_iff.mp h
      rw [swapRemove_concat hi]
      calc
        (xs[i] :: xs.set i y).Perm (xs[i] :: y :: xs.eraseIdx i) :=
          (List.set_perm_cons_eraseIdx hi y).cons _
        _ |>.Perm (y :: xs[i] :: xs.eraseIdx i) := .swap ..
        _ |>.Perm (y :: xs) := (List.getElem_cons_eraseIdx_perm hi).cons _
        _ |>.Perm (xs ++ [y]) := (List.perm_append_singleton y xs).symm
    · have hlen := (List.getElem?_eq_some_iff.mp h).1
      rw [List.length_append, List.length_singleton] at hlen
      obtain rfl : i = xs.length := by omega
      obtain rfl : y = x := by simpa using h
      simpa using (List.perm_append_singleton y xs).symm

variable {p : α → Bool} {f : β → α → β} {b : β} {n : ℕ}

/-- What one round sees of the entries that are still to be looked at. -/
theorem drop_eq_cons (h : xs[i]? = some x) : xs.drop i = x :: xs.drop (i + 1) := by
  obtain ⟨hi, rfl⟩ := List.getElem?_eq_some_iff.mp h
  exact List.drop_eq_getElem_cons hi

theorem drop_swapRemove_perm (h : xs[i]? = some x) :
    ((swapRemove xs i).drop i).Perm (xs.drop (i + 1)) := by
  have hi := (List.getElem?_eq_some_iff.mp h).1
  have hperm := swapRemove_perm h
  rw [← List.take_append_drop i (swapRemove xs i), take_swapRemove hi] at hperm
  nth_rewrite 3 [← List.take_append_drop i xs] at hperm
  rw [drop_eq_cons h] at hperm
  exact (List.perm_append_left_iff _).mp
    (List.Perm.cons_inv (hperm.trans List.perm_middle))

/-- With enough rounds the sweep takes out exactly the entries that satisfy `p`. -/
theorem sweep_taken (hn : xs.length ≤ n + i) :
    (sweep p f n xs i b).1.Perm ((xs.drop i).filter p) := by
  induction n generalizing xs i b with
  | zero => simp [sweep, List.drop_eq_nil_of_le (by omega : xs.length ≤ i)]
  | succ n ih =>
    cases h : xs[i]? with
    | none => simp [sweep, h, List.drop_eq_nil_of_le (List.getElem?_eq_none_iff.mp h)]
    | some x =>
      rw [drop_eq_cons h]
      by_cases hp : p x = true
      · simp only [sweep, h, hp, if_true, List.filter_cons_of_pos]
        refine .cons x ((ih ?_).trans ((drop_swapRemove_perm h).filter p))
        rw [length_swapRemove]
        omega
      · simp only [sweep, h, hp, if_false, Bool.false_eq_true, List.filter_cons_of_neg,
          not_false_eq_true]
        exact ih (by omega)

theorem sweep_kept (hn : xs.length ≤ n + i) :
    (sweep p f n xs i b).2.1.Perm (xs.take i ++ (xs.drop i).filter fun x => !p x) := by
  induction n generalizing xs i b with
  | zero =>
    have hi : xs.length ≤ i := by omega
    simp [sweep, List.drop_eq_nil_of_le hi, List.take_of_length_le hi]
  | succ n ih =>
    cases h : xs[i]? with
    | none =>
      have hi := List.getElem?_eq_none_iff.mp h
      simp [sweep, h, List.drop_eq_nil_of_le hi, List.take_of_length_le hi]
    | some x =>
      have hi := (List.getElem?_eq_some_iff.mp h).1
      rw [drop_eq_cons h]
      by_cases hp : p x = true
      · simp only [sweep, h, hp, if_true, Bool.not_true, Bool.false_eq_true, not_false_eq_true,
          List.filter_cons_of_neg]
        rw [← take_swapRemove hi]
        refine (ih ?_).trans (((drop_swapRemove_perm h).filter _).append_left _)
        rw [length_swapRemove]
        omega
      · simp only [sweep, h, hp, if_false, Bool.false_eq_true]
        refine (ih (by omega)).trans ?_
        rw [List.take_add_one, h, Option.toList_some, List.append_assoc]
        simp [hp]

theorem take_sweep (p : α → Bool) (f : β → α → β) (n : ℕ) (xs : List α) (i : ℕ) (b : β) :
    (sweep p f n xs i b).2.1.take i = xs.take i := by
  induction n generalizing xs i b with
  | zero => rfl
  | succ n ih =>
    cases h : xs[i]? with
    | none => simp [sweep, h]
    | some x =>
      by_cases hp : p x = true
      · simp only [sweep, h, hp, if_true]
        rw [ih, take_swapRemove (List.getElem?_eq_some_iff.mp h).1]
      · simp only [sweep, h, hp, if_false, Bool.false_eq_true]
        have := congrArg (List.take i) (@ih xs (i + 1) (f b x))
        simpa [List.take_take] using this

/-- The fold has seen the entries left from `i` on, in their final order. -/
theorem sweep_folded (hn : xs.length ≤ n + i) :
    (sweep p f n xs i b).2.2 = ((sweep p f n xs i b).2.1.drop i).foldl f b := by
  induction n generalizing xs i b with
  | zero => simp [sweep, List.drop_eq_nil_of_le (by omega : xs.length ≤ i)]
  | succ n ih =>
    cases h : xs[i]? with
    | none => simp [sweep, h, List.drop_eq_nil_of_le (List.getElem?_eq_none_iff.mp h)]
    | some x =>
      by_cases hp : p x = true
      · simp only [sweep, h, hp, if_true]
        apply ih
        rw [length_swapRemove]
        omega
      · simp only [sweep, h, hp, if_false, Bool.false_eq_true]
        -- The round kept `x` at `i`, and no later round moves it.
        have hkept : (sweep p f n xs (i + 1) (f b x)).2.1[i]? = some x := by
          have htake := congrArg (fun l => l[i]?)
            (take_sweep p f n xs (i + 1) (f b x))
          simpa [List.getElem?_take, h] using htake
        rw [drop_eq_cons hkept, List.foldl_cons]
        exact ih (by omega)

end CompleteIo
