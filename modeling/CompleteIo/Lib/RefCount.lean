import Mathlib.Data.List.Count
import Mathlib.Logic.Function.Basic

namespace CompleteIo

/-- The strong count of a shared object, and how often its destructor has run. -/
structure RefCount where
  strong : ℕ
  drops : ℕ
  deriving DecidableEq

namespace RefCount

def new : RefCount := ⟨1, 0⟩

def retain (c : RefCount) : RefCount := { c with strong := c.strong + 1 }

/-- The reference that brings the count to zero runs the destructor. -/
def release (c : RefCount) : RefCount :=
  ⟨c.strong - 1, if c.strong = 1 then c.drops + 1 else c.drops⟩

/-- The object is allocated: some reference keeps it, and it has not been dropped. -/
def Alive (c : RefCount) : Prop := 0 < c.strong ∧ c.drops = 0

/-- The object is gone: no reference is left, and it has been dropped exactly once. -/
def Reclaimed (c : RefCount) : Prop := c.strong = 0 ∧ c.drops = 1

/-- The count that an object with `n` references must have. -/
def Of (c : RefCount) (n : ℕ) : Prop := c.strong = n ∧ c.drops = if n = 0 then 1 else 0

variable {c : RefCount} {n : ℕ}

theorem Of.alive (h : c.Of n) (hn : 0 < n) : c.Alive := by
  obtain ⟨hstrong, hdrops⟩ := h
  exact ⟨hstrong ▸ hn, by rw [hdrops, if_neg (by omega)]⟩

theorem Of.reclaimed (h : c.Of 0) : c.Reclaimed := h

theorem Of.pos_iff (h : c.Of n) : 0 < c.strong ↔ 0 < n := by rw [h.1]

theorem new_of : new.Of 1 := ⟨rfl, rfl⟩

theorem Of.retain (h : c.Of n) (hn : 0 < n) : c.retain.Of (n + 1) := by
  obtain ⟨hstrong, hdrops⟩ := h
  refine ⟨by rw [RefCount.retain, hstrong], ?_⟩
  rw [if_neg (by omega)] at hdrops
  simp [RefCount.retain, hdrops]

theorem Of.release (h : c.Of (n + 1)) : c.release.Of n := by
  obtain ⟨hstrong, hdrops⟩ := h
  rw [if_neg (by omega)] at hdrops
  refine ⟨by simp [RefCount.release, hstrong], ?_⟩
  by_cases hn : n = 0
  · simp [RefCount.release, hstrong, hdrops, hn]
  · simp [RefCount.release, hstrong, hdrops, hn]

end RefCount

variable {ι : Type*} [DecidableEq ι]

/-- A table of shared objects counts exactly the references in `refs`. -/
structure Counted (count : ι → Option RefCount) (refs : List ι) : Prop where
  of : ∀ x c, count x = some c → c.Of (refs.count x)
  known : ∀ x ∈ refs, count x ≠ none

def modifyCount (count : ι → Option RefCount) (x : ι) (f : RefCount → RefCount) :
    ι → Option RefCount :=
  Function.update count x ((count x).map f)

@[simp] theorem modifyCount_eq_none {count : ι → Option RefCount} {f : RefCount → RefCount}
    {x y : ι} : modifyCount count x f y = none ↔ count y = none := by
  by_cases hyx : y = x
  · subst hyx
    simp [modifyCount]
  · rw [modifyCount, Function.update_of_ne hyx]

theorem modifyCount_ne_none {count : ι → Option RefCount} {f : RefCount → RefCount} {x y : ι} :
    modifyCount count x f y ≠ none ↔ count y ≠ none := modifyCount_eq_none.not

namespace Counted

variable {count : ι → Option RefCount} {refs refs' : List ι} {x y : ι} {c : RefCount}

theorem empty : Counted (fun _ : ι => none) [] := ⟨by simp, by simp⟩

theorem perm (h : Counted count refs) (hperm : refs.Perm refs') : Counted count refs' where
  of y c hc := by
    rw [← hperm.count_eq]
    exact h.of y c hc
  known y hy := h.known y (hperm.symm.subset hy)

theorem alive (h : Counted count refs) (hx : x ∈ refs) : ∃ c, count x = some c ∧ c.Alive := by
  obtain ⟨c, hc⟩ := Option.ne_none_iff_exists'.mp (h.known x hx)
  exact ⟨c, hc, (h.of x c hc).alive (List.count_pos_iff.mpr hx)⟩

theorem reclaimed (h : Counted count refs) (hx : x ∉ refs) (hc : count x = some c) :
    c.Reclaimed := by
  have := h.of x c hc
  rw [List.count_eq_zero.mpr hx] at this
  exact this.reclaimed

theorem pos_iff (h : Counted count refs) (hc : count x = some c) : 0 < c.strong ↔ x ∈ refs :=
  (h.of x c hc).pos_iff.trans List.count_pos_iff

theorem fresh (h : Counted count refs) (hx : count x = none) : x ∉ refs := fun hmem =>
  h.known x hmem hx

/-- Every operation touches the count of one object and the references to it alone. -/
theorem update {c : RefCount} (h : Counted count refs) (hx : c.Of (refs'.count x))
    (hother : ∀ y, y ≠ x → refs'.count y = refs.count y) :
    Counted (Function.update count x (some c)) refs' where
  of y d hd := by
    by_cases hy : y = x
    · subst hy
      obtain rfl : c = d := by simpa using hd
      exact hx
    · rw [Function.update_of_ne hy] at hd
      rw [hother y hy]
      exact h.of y d hd
  known y hmem := by
    by_cases hy : y = x
    · simp [hy]
    · rw [Function.update_of_ne hy]
      exact h.known y (List.count_pos_iff.mp (hother y hy ▸ List.count_pos_iff.mpr hmem))

theorem create (h : Counted count refs) (hx : count x = none) :
    Counted (Function.update count x (some .new)) (x :: refs) := by
  refine h.update ?_ fun y hy => List.count_cons_of_ne hy.symm
  rw [List.count_cons_self, List.count_eq_zero.mpr (h.fresh hx)]
  exact RefCount.new_of

theorem retain (h : Counted count refs) (hx : x ∈ refs) :
    Counted (modifyCount count x .retain) (x :: refs) := by
  obtain ⟨c, hc⟩ := Option.ne_none_iff_exists'.mp (h.known x hx)
  rw [modifyCount, hc]
  refine h.update ?_ fun y hy => List.count_cons_of_ne hy.symm
  rw [List.count_cons_self]
  exact (h.of x c hc).retain (List.count_pos_iff.mpr hx)

theorem release (h : Counted count (x :: refs)) : Counted (modifyCount count x .release) refs := by
  obtain ⟨c, hc⟩ := Option.ne_none_iff_exists'.mp (h.known x (List.mem_cons_self ..))
  rw [modifyCount, hc]
  refine h.update ?_ fun y hy => (List.count_cons_of_ne hy.symm).symm
  have := h.of x c hc
  rw [List.count_cons_self] at this
  exact this.release

end Counted

end CompleteIo
