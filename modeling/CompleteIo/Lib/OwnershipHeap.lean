import CompleteIo.Lib.RefCount
import Mathlib.Data.List.Basic
import Mathlib.Order.WellFounded
import Mathlib.Data.Set.Basic

namespace CompleteIo

/-- A strong reference that one shared object holds in a field. -/
structure FieldRef (ι : Type*) where
  owner : ι
  target : ι
  deriving DecidableEq

/-- Shared objects that own references to each other. -/
structure OwnershipHeap (ι : Type*) where
  count : ι → Option RefCount
  owned : List (FieldRef ι)
  -- The fields of dead objects whose own drop is still to come.
  dropping : List ι

namespace OwnershipHeap

variable {ι : Type*}

def empty : OwnershipHeap ι := ⟨fun _ => none, [], []⟩

def targets (h : OwnershipHeap ι) : List ι := h.owned.map FieldRef.target

/-- Every reference there is, given those held from outside. -/
def refs (h : OwnershipHeap ι) (roots : List ι) : List ι := roots ++ (h.dropping ++ h.targets)

def Owns (h : OwnershipHeap ι) (x y : ι) : Prop := ⟨x, y⟩ ∈ h.owned

section Operations

variable [DecidableEq ι] (h : OwnershipHeap ι)

/-- A new object takes over the references that are moved into its fields. -/
def alloc (x : ι) (fields : List ι) : OwnershipHeap ι :=
  { h with
    count := Function.update h.count x (some .new)
    owned := fields.map (FieldRef.mk x) ++ h.owned }

def retain (x : ι) : OwnershipHeap ι := { h with count := modifyCount h.count x .retain }

/-- The last reference kills the object, whose fields are then dropped one after another. -/
def release (x : ι) : OwnershipHeap ι :=
  if (h.count x).any (·.strong = 1) then
    { count := modifyCount h.count x .release
      owned := h.owned.filter (·.owner ≠ x)
      dropping := (h.owned.filter (·.owner = x)).map FieldRef.target ++ h.dropping }
  else { h with count := modifyCount h.count x .release }

/-- A reference is moved into a collection that `x` owns. -/
def push (x y : ι) : OwnershipHeap ι := { h with owned := ⟨x, y⟩ :: h.owned }

def dropField (x : ι) : OwnershipHeap ι :=
  OwnershipHeap.release { h with dropping := h.dropping.erase x } x

def retainAll (xs : List ι) : OwnershipHeap ι := xs.foldr (fun x h => h.retain x) h

/-- References are given up one after another. -/
def releaseAll (xs : List ι) : OwnershipHeap ι := xs.foldl OwnershipHeap.release h

/-- A reference is moved out of a collection that `x` owns. -/
def pull (x y : ι) : OwnershipHeap ι := { h with owned := h.owned.erase ⟨x, y⟩ }

end Operations

/-- The counts agree with the references, and only objects that are alive have fields. -/
structure Ok [DecidableEq ι] (h : OwnershipHeap ι) (roots : List ι) : Prop where
  counted : Counted h.count (h.refs roots)
  owner : ∀ r ∈ h.owned, r.owner ∈ h.refs roots

/-- The operations of a program that allocates only what `A` allows and stores only what `T`
allows, with the references it holds before and after. -/
inductive Evolves [DecidableEq ι] (A : ι → Prop) (T : FieldRef ι → Prop) :
    OwnershipHeap ι → List ι → OwnershipHeap ι → List ι → Prop
  | perm {h : OwnershipHeap ι} {roots roots' : List ι} : roots.Perm roots' →
      Evolves A T h roots h roots'
  | alloc {h : OwnershipHeap ι} {roots : List ι} {x : ι} (fields : List ι) : A x →
      (∀ y ∈ fields, T ⟨x, y⟩) → h.count x = none →
      Evolves A T h (fields ++ roots) (h.alloc x fields) (x :: roots)
  | retain {h : OwnershipHeap ι} {roots : List ι} {x : ι} : x ∈ h.refs roots →
      Evolves A T h roots (h.retain x) (x :: roots)
  | release {h : OwnershipHeap ι} {roots : List ι} {x : ι} :
      Evolves A T h (x :: roots) (h.release x) roots
  | push {h : OwnershipHeap ι} {roots : List ι} {x y : ι} : x ∈ h.refs roots → T ⟨x, y⟩ →
      Evolves A T h (y :: roots) (h.push x y) roots
  | dropField {h : OwnershipHeap ι} {roots : List ι} {x : ι} : x ∈ h.dropping →
      Evolves A T h roots (h.dropField x) roots
  | trans {h₁ h₂ h₃ : OwnershipHeap ι} {r₁ r₂ r₃ : List ι} : Evolves A T h₁ r₁ h₂ r₂ →
      Evolves A T h₂ r₂ h₃ r₃ → Evolves A T h₁ r₁ h₃ r₃

/-- A set of references in which every owner is kept by another member of the set. -/
structure SelfOwned (h : OwnershipHeap ι) (K : Set (FieldRef ι)) : Prop where
  owned : ∀ r ∈ K, r ∈ h.owned
  closed : ∀ r ∈ K, ∃ q ∈ K, q.target = r.owner

/-- A set of references in which every owner is held from outside or kept by another member. -/
structure KeptBy (h : OwnershipHeap ι) (roots : List ι) (K : Set (FieldRef ι)) : Prop where
  owned : ∀ r ∈ K, r ∈ h.owned
  closed : ∀ r ∈ K, r.owner ∈ roots ∨ ∃ q ∈ K, q.target = r.owner

section Proofs

variable [DecidableEq ι] {h h' : OwnershipHeap ι} {roots roots' fields : List ι} {x y : ι}
  {K : Set (FieldRef ι)} {A : ι → Prop} {T : FieldRef ι → Prop} {r : FieldRef ι}

omit [DecidableEq ι] in
theorem mem_targets : x ∈ h.targets ↔ ∃ y, h.Owns y x := by
  constructor
  · intro hx
    obtain ⟨⟨y, _⟩, hmem, rfl⟩ := List.mem_map.mp hx
    exact ⟨y, hmem⟩
  · rintro ⟨y, hmem⟩
    exact List.mem_map_of_mem hmem

omit [DecidableEq ι] in
theorem mem_refs : x ∈ h.refs roots ↔ x ∈ roots ∨ x ∈ h.dropping ∨ x ∈ h.targets := by
  simp [refs]

omit [DecidableEq ι] in
theorem mem_refs_cons : x ∈ h.refs (y :: roots) ↔ x = y ∨ x ∈ h.refs roots := by
  simp [refs]

omit [DecidableEq ι] in
theorem mem_refs_of_owned (hr : r ∈ h.owned) : r.target ∈ h.refs roots :=
  mem_refs.mpr (.inr (.inr (List.mem_map_of_mem hr)))

theorem empty_ok : (empty : OwnershipHeap ι).Ok [] := ⟨.empty, by simp [empty]⟩

theorem Ok.alive (hok : h.Ok roots) (hx : x ∈ h.refs roots) :
    ∃ c, h.count x = some c ∧ c.Alive := hok.counted.alive hx

theorem Ok.perm (hok : h.Ok roots) (hperm : roots.Perm roots') : h.Ok roots' where
  counted := hok.counted.perm (hperm.append_right _)
  owner r hr := (hperm.append_right _).subset (hok.owner r hr)

omit [DecidableEq ι] in
theorem targets_map_mk : (fields.map (FieldRef.mk x)).map FieldRef.target = fields := by
  simp [Function.comp_def]

theorem refs_alloc_perm :
    ((h.alloc x fields).refs (x :: roots)).Perm (x :: h.refs (fields ++ roots)) := by
  simp only [refs, alloc, targets, List.map_append, targets_map_mk, List.cons_append]
  refine .cons x ?_
  -- The fields only move from the roots to the front of the owned references.
  refine List.perm_iff_count.mpr fun z => ?_
  simp only [List.count_append]
  omega

theorem Ok.alloc (hok : h.Ok (fields ++ roots)) (hx : h.count x = none) :
    (h.alloc x fields).Ok (x :: roots) where
  counted := (hok.counted.create hx).perm refs_alloc_perm.symm
  owner r hr := by
    refine refs_alloc_perm.symm.subset ?_
    rcases List.mem_append.mp hr with hr | hr
    · obtain ⟨_, _, rfl⟩ := List.mem_map.mp hr
      exact List.mem_cons_self ..
    · exact List.mem_cons_of_mem _ (hok.owner r hr)

theorem Ok.retain (hok : h.Ok roots) (hx : x ∈ h.refs roots) : (h.retain x).Ok (x :: roots) where
  counted := hok.counted.retain hx
  owner r hr := List.mem_cons_of_mem _ (hok.owner r hr)

theorem Ok.push (hok : h.Ok (y :: roots)) (hx : x ∈ h.refs roots) : (h.push x y).Ok roots := by
  have hperm : (h.refs (y :: roots)).Perm ((h.push x y).refs roots) := by
    refine List.perm_iff_count.mpr fun z => ?_
    simp only [refs, OwnershipHeap.push, targets, List.map_cons, List.count_append,
      List.count_cons]
    omega
  refine ⟨hok.counted.perm hperm, fun r hr => hperm.subset ?_⟩
  rcases List.mem_cons.mp hr with rfl | hr
  · exact mem_refs_cons.mpr (.inr hx)
  · exact hok.owner r hr

/-- The reference to be released is the last one exactly if nothing else refers to the object. -/
theorem Ok.last_iff (hok : h.Ok (x :: roots)) :
    (h.count x).any (·.strong = 1) ↔ x ∉ h.refs roots := by
  obtain ⟨c, hc⟩ := Option.ne_none_iff_exists'.mp
    (hok.counted.known x (mem_refs_cons.mpr (.inl rfl)))
  have hstrong := (hok.counted.of x c hc).1
  have hcount : (h.refs (x :: roots)).count x = (h.refs roots).count x + 1 := by
    simp [refs, List.count_cons_self, Nat.add_right_comm]
  rw [hc, ← List.count_eq_zero]
  simp only [Option.any_some, decide_eq_true_eq]
  omega

/-- A release takes the references in the fields of the dead object out of the heap. -/
theorem Ok.release (hok : h.Ok (x :: roots)) : (h.release x).Ok roots := by
  have hcounted : Counted (modifyCount h.count x .release) (h.refs roots) := hok.counted.release
  unfold OwnershipHeap.release
  split
  · next hlast =>
    have hx := hok.last_iff.mp hlast
    have hperm : (h.refs roots).Perm (OwnershipHeap.refs
        { count := modifyCount h.count x .release
          owned := h.owned.filter (·.owner ≠ x)
          dropping := (h.owned.filter (·.owner = x)).map FieldRef.target ++ h.dropping }
        roots) := by
      have hsplit : ((h.owned.filter (·.owner = x)) ++ h.owned.filter (·.owner ≠ x)).Perm
          h.owned := by
        simpa using List.filter_append_perm (fun r : FieldRef ι => decide (r.owner = x)) h.owned
      have htargets := (hsplit.map FieldRef.target).symm
      refine .append_left _ ?_
      refine List.perm_iff_count.mpr fun z => ?_
      have := htargets.count_eq z
      simp only [targets, List.map_append, List.count_append] at this ⊢
      omega
    refine ⟨hcounted.perm hperm, fun r hr => hperm.subset ?_⟩
    obtain ⟨hr, hne⟩ := List.mem_filter.mp hr
    exact (mem_refs_cons.mp (hok.owner r hr)).resolve_left (by simpa using hne)
  · next hlast =>
    have hx : x ∈ h.refs roots := by
      by_contra hx
      exact hlast (hok.last_iff.mpr hx)
    refine ⟨hcounted, fun r hr => ?_⟩
    rcases mem_refs_cons.mp (hok.owner r hr) with he | hmem
    · exact he ▸ hx
    · exact hmem

/-- The reference that a destructor is about to drop is held by that destructor. -/
theorem Ok.take (hok : h.Ok roots) (hx : x ∈ h.dropping) :
    Ok { h with dropping := h.dropping.erase x } (x :: roots) := by
  have hperm : (h.refs roots).Perm
      (OwnershipHeap.refs { h with dropping := h.dropping.erase x } (x :: roots)) := by
    refine List.perm_iff_count.mpr fun z => ?_
    have := (List.perm_cons_erase hx).count_eq z
    simp only [refs, targets, List.count_append, List.count_cons] at this ⊢
    omega
  exact ⟨hok.counted.perm hperm, fun r hr => hperm.subset (hok.owner r hr)⟩

@[simp] theorem release_count : (h.release x).count = modifyCount h.count x .release := by
  unfold OwnershipHeap.release
  split <;> rfl

theorem release_owned_subset : (h.release x).owned ⊆ h.owned := by
  unfold OwnershipHeap.release
  split
  · exact List.filter_subset_self _
  · exact List.Subset.refl _

theorem refs_release_subset : (h.release x).refs roots ⊆ h.refs roots := by
  intro y hy
  unfold OwnershipHeap.release at hy
  split at hy
  · simp only [refs, targets, List.mem_append, List.mem_map, List.mem_filter] at hy ⊢
    grind
  · exact hy

theorem refs_dropField_subset : (h.dropField x).refs roots ⊆ h.refs roots := by
  refine fun y hy => mem_refs.mpr ?_
  have := mem_refs.mp (refs_release_subset hy)
  exact this.imp_right (.imp_left List.mem_of_mem_erase)

@[simp] theorem alloc_count :
    (h.alloc x fields).count = Function.update h.count x (some .new) := rfl

@[simp] theorem retain_count : (h.retain x).count = modifyCount h.count x .retain := rfl

theorem dropField_owned_subset : (h.dropField x).owned ⊆ h.owned :=
  release_owned_subset (h := { h with dropping := h.dropping.erase x })

theorem Evolves.mono {A' : ι → Prop} (hev : Evolves A T h roots h' roots')
    (hA : ∀ x, A x → A' x) : Evolves A' T h roots h' roots' := by
  induction hev with
  | perm hperm => exact .perm hperm
  | alloc fields hx hfields hnew => exact .alloc fields (hA _ hx) hfields hnew
  | retain hx => exact .retain hx
  | release => exact .release
  | push hx hr => exact .push hx hr
  | dropField hx => exact .dropField hx
  | trans _ _ ih₁ ih₂ => exact .trans ih₁ ih₂

theorem Evolves.mono_fields {T' : FieldRef ι → Prop} (hev : Evolves A T h roots h' roots')
    (hT : ∀ r, T r → T' r) : Evolves A T' h roots h' roots' := by
  induction hev with
  | perm hperm => exact .perm hperm
  | alloc fields hx hfields hnew => exact .alloc fields hx (fun y hy => hT _ (hfields y hy)) hnew
  | retain hx => exact .retain hx
  | release => exact .release
  | push hx hr => exact .push hx (hT _ hr)
  | dropField hx => exact .dropField hx
  | trans _ _ ih₁ ih₂ => exact .trans ih₁ ih₂

/-- No operation makes an invalid reference or leaves a wrong count. -/
theorem Evolves.ok (hev : Evolves A T h roots h' roots') (hok : h.Ok roots) : h'.Ok roots' := by
  induction hev with
  | perm hperm => exact hok.perm hperm
  | alloc _ _ _ hx => exact hok.alloc hx
  | retain hx => exact hok.retain hx
  | release => exact hok.release
  | push hx _ => exact hok.push hx
  | dropField hx => exact (hok.take hx).release
  | trans _ _ ih₁ ih₂ => exact ih₂ (ih₁ hok)

/-- No object is forgotten, and only those that may be allocated become known. -/
theorem Evolves.known_iff (hev : Evolves A T h roots h' roots') :
    (h.count x ≠ none → h'.count x ≠ none) ∧ (h'.count x ≠ none → h.count x ≠ none ∨ A x) := by
  induction hev with
  | perm | push => exact ⟨id, .inl⟩
  | @alloc h _ y _ hA =>
    by_cases hxy : x = y
    · subst hxy
      exact ⟨fun _ => by simp [OwnershipHeap.alloc], fun _ => .inr hA⟩
    · rw [alloc_count, Function.update_of_ne hxy]
      exact ⟨id, .inl⟩
  | retain => exact ⟨modifyCount_ne_none.mpr, fun hx => .inl (modifyCount_ne_none.mp hx)⟩
  | release | dropField =>
    simp only [OwnershipHeap.dropField, release_count, modifyCount_ne_none]
    exact ⟨id, .inl⟩
  | trans _ _ ih₁ ih₂ =>
    exact ⟨fun hx => ih₂.1 (ih₁.1 hx), fun hx => (ih₂.2 hx).elim ih₁.2 .inr⟩

theorem Evolves.owned (hev : Evolves A T h roots h' roots') (hr : r ∈ h'.owned) :
    r ∈ h.owned ∨ T r := by
  induction hev with
  | perm | retain => exact .inl hr
  | alloc _ _ hfields =>
    rcases List.mem_append.mp hr with hr | hr
    · obtain ⟨y, hy, rfl⟩ := List.mem_map.mp hr
      exact .inr (hfields y hy)
    · exact .inl hr
  | release => exact .inl (release_owned_subset hr)
  | dropField => exact .inl (dropField_owned_subset hr)
  | push _ hT =>
    rcases List.mem_cons.mp hr with rfl | hr
    · exact .inr hT
    · exact .inl hr
  | trans _ _ ih₁ ih₂ => exact (ih₂ hr).elim ih₁ .inr

/-- A reference is a copy of one that exists, or it is to a new object. -/
theorem Evolves.mem_refs (hev : Evolves A T h roots h' roots') (hx : x ∈ h'.refs roots') :
    x ∈ h.refs roots ∨ A x := by
  induction hev with
  | perm hperm => exact .inl ((hperm.append_right _).symm.subset hx)
  | alloc _ hA =>
    rcases List.mem_cons.mp (refs_alloc_perm.subset hx) with rfl | hx
    · exact .inr hA
    · exact .inl hx
  | retain hy =>
    rcases mem_refs_cons.mp hx with rfl | hx
    · exact .inl hy
    · exact .inl hx
  | release => exact .inl (mem_refs_cons.mpr (.inr (refs_release_subset hx)))
  | push _ _ =>
    refine .inl ?_
    simp only [refs, OwnershipHeap.push, targets, List.map_cons, List.mem_append,
      List.mem_cons] at hx ⊢
    tauto
  | dropField => exact .inl (refs_dropField_subset hx)
  | trans _ _ ih₁ ih₂ => exact (ih₂ hx).elim ih₁ .inr

/-- The fields of an object that another one owns are not touched by a release. -/
theorem Ok.mem_owned_release (hok : h.Ok (x :: roots)) (hr : r ∈ h.owned)
    (howner : r.owner ∈ h.targets) : r ∈ (h.release x).owned := by
  unfold OwnershipHeap.release
  split
  · next hlast =>
    have hx := hok.last_iff.mp hlast
    refine List.mem_filter.mpr ⟨hr, ?_⟩
    have : r.owner ≠ x := fun he => hx (mem_refs.mpr (.inr (.inr (he ▸ howner))))
    simpa using this
  · exact hr

omit [DecidableEq ι] in
theorem SelfOwned.owner_mem (hK : h.SelfOwned K) (hr : r ∈ K) : r.owner ∈ h.targets := by
  obtain ⟨q, hq, he⟩ := hK.closed r hr
  exact he ▸ List.mem_map_of_mem (hK.owned q hq)

theorem SelfOwned.release (hK : h.SelfOwned K) (hok : h.Ok (x :: roots)) :
    (h.release x).SelfOwned K where
  owned r hr := hok.mem_owned_release (hK.owned r hr) (hK.owner_mem hr)
  closed := hK.closed

/-- References that keep each other are never dropped again, whatever the program does. -/
theorem SelfOwned.evolves (hK : h.SelfOwned K) (hok : h.Ok roots)
    (hev : Evolves A T h roots h' roots') : h'.SelfOwned K := by
  induction hev with
  | perm => exact hK
  | alloc => exact ⟨fun r hr => List.mem_append_right _ (hK.owned r hr), hK.closed⟩
  | retain => exact ⟨hK.owned, hK.closed⟩
  | release => exact hK.release hok
  | push => exact ⟨fun r hr => List.mem_cons_of_mem _ (hK.owned r hr), hK.closed⟩
  | dropField hx => exact SelfOwned.release ⟨hK.owned, hK.closed⟩ (hok.take hx)
  | trans hev₁ _ ih₁ ih₂ => exact ih₂ (ih₁ hK hok) (hev₁.ok hok)

theorem SelfOwned.alive (hK : h.SelfOwned K) (hok : h.Ok roots) (hr : r ∈ K) :
    ∃ c, h.count r.target = some c ∧ c.Alive :=
  hok.alive (mem_refs_of_owned (hK.owned r hr))

theorem Ok.pull (hok : h.Ok roots) (hr : ⟨x, y⟩ ∈ h.owned) : (h.pull x y).Ok (y :: roots) := by
  have hperm : (h.refs roots).Perm ((h.pull x y).refs (y :: roots)) := by
    refine List.perm_iff_count.mpr fun z => ?_
    have := ((List.perm_cons_erase hr).map FieldRef.target).count_eq z
    simp only [refs, OwnershipHeap.pull, targets, List.map_cons, List.count_append,
      List.count_cons] at this ⊢
    omega
  exact ⟨hok.counted.perm hperm,
    fun r hr => hperm.subset (hok.owner r (List.mem_of_mem_erase hr))⟩

theorem SelfOwned.pull (hK : h.SelfOwned K) (hr : ⟨x, y⟩ ∉ K) : (h.pull x y).SelfOwned K where
  owned r hmem := by
    refine (List.mem_erase_of_ne ?_).mpr (hK.owned r hmem)
    rintro rfl
    exact hr hmem
  closed := hK.closed

omit [DecidableEq ι] in
theorem KeptBy.owner_mem (hK : h.KeptBy roots K) (hr : r ∈ K) : r.owner ∈ h.refs roots := by
  rcases hK.closed r hr with hroot | ⟨q, hq, he⟩
  · exact mem_refs.mpr (.inl hroot)
  · exact he ▸ mem_refs_of_owned (hK.owned q hq)

omit [DecidableEq ι] in
theorem KeptBy.mono (hK : h.KeptBy roots K) (hroots : roots ⊆ roots') : h.KeptBy roots' K :=
  ⟨hK.owned, fun r hr => (hK.closed r hr).imp_left (hroots ·)⟩

theorem KeptBy.release (hK : h.KeptBy roots K) (hok : h.Ok (x :: roots)) :
    (h.release x).KeptBy roots K where
  owned r hr := by
    unfold OwnershipHeap.release
    split
    · next hlast =>
      refine List.mem_filter.mpr ⟨hK.owned r hr, decide_eq_true fun he => ?_⟩
      exact hok.last_iff.mp hlast (he ▸ hK.owner_mem hr)
    · exact hK.owned r hr
  closed := hK.closed

/-- What the remaining references keep is not dropped with the others. -/
theorem KeptBy.releaseAll {xs : List ι} (hK : h.KeptBy roots K) (hok : h.Ok (xs ++ roots)) :
    (h.releaseAll xs).KeptBy roots K := by
  induction xs generalizing h with
  | nil => exact hK
  | cons x xs ih =>
    have hrelease := (hK.mono (List.subset_append_right xs roots)).release hok
    exact ih ⟨hrelease.owned, hK.closed⟩ hok.release

theorem refs_retainAll {xs : List ι} : (h.retainAll xs).refs roots = h.refs roots := by
  induction xs with
  | nil => rfl
  | cons x xs ih => exact ih

theorem Evolves.retainAll {xs : List ι} (hxs : ∀ x ∈ xs, x ∈ h.refs roots) :
    Evolves A T h roots (h.retainAll xs) (xs ++ roots) := by
  induction xs with
  | nil => exact .perm (.refl _)
  | cons x xs ih =>
    obtain ⟨hx, hxs⟩ := List.forall_mem_cons.mp hxs
    refine .trans (ih hxs) (.retain ?_)
    rw [refs_retainAll]
    exact OwnershipHeap.mem_refs.mpr
      ((OwnershipHeap.mem_refs.mp hx).imp_left (List.mem_append_right _))

theorem releaseAll_count_eq_none {xs : List ι} :
    (h.releaseAll xs).count x = none ↔ h.count x = none := by
  induction xs generalizing h with
  | nil => rfl
  | cons y xs ih => exact ih.trans (by rw [release_count, modifyCount_eq_none])

theorem Evolves.releaseAll {xs : List ι} :
    Evolves A T h (xs ++ roots) (h.releaseAll xs) roots := by
  induction xs generalizing h with
  | nil => exact .perm (.refl _)
  | cons x xs ih => exact .trans .release ih

theorem Ok.count_owned_release (hok : h.Ok (x :: roots)) (hr : r.owner ∈ h.refs roots) :
    (h.release x).owned.count r = h.owned.count r := by
  unfold OwnershipHeap.release
  split
  · next hlast =>
    refine List.count_filter (decide_eq_true fun he => ?_)
    exact hok.last_iff.mp hlast (he ▸ hr)
  · rfl

/-- The references in the fields of an object that is kept stay as they are, but for new ones. -/
theorem Evolves.count_owned (hev : Evolves A T h roots h' roots') (hok : h.Ok roots)
    (hK : h.SelfOwned K) {q : FieldRef ι} (hq : q ∈ K) (he : q.target = r.owner) (hr : ¬ T r) :
    h'.owned.count r = h.owned.count r := by
  induction hev with
  | perm | retain => rfl
  | alloc fields _ hfields =>
    refine List.count_append.trans (Nat.add_eq_right.mpr (List.count_eq_zero.mpr fun hmem => ?_))
    obtain ⟨y, hy, rfl⟩ := List.mem_map.mp hmem
    exact hr (hfields y hy)
  | push _ hT =>
    refine List.count_cons_of_ne ?_
    rintro rfl
    exact hr hT
  | release => exact hok.count_owned_release (he ▸ mem_refs_of_owned (hK.owned q hq))
  | dropField hx =>
    exact (hok.take hx).count_owned_release (he ▸ mem_refs_of_owned (hK.owned q hq))
  | trans hev₁ _ ih₁ ih₂ => exact (ih₂ (hev₁.ok hok) (hK.evolves hok hev₁)).trans (ih₁ hok hK)

/-- The fields of an object are dropped only with the object, which nothing keeps then. -/
theorem Ok.mem_dropping_release (hok : h.Ok (x :: roots)) (hK : h.SelfOwned K)
    (hT : ∀ r ∈ h.owned, T r) (hy : y ∈ (h.release x).dropping) :
    y ∈ h.dropping ∨ T ⟨x, y⟩ ∧ (h.release x).count x ≠ none ∧ ∀ r ∈ K, r.target ≠ x := by
  have hknown : (h.release x).count x ≠ none := by
    rw [release_count]
    exact modifyCount_ne_none.mpr (hok.counted.known x (mem_refs_cons.mpr (.inl rfl)))
  unfold OwnershipHeap.release at hy
  split at hy
  · next hlast =>
    have hx := hok.last_iff.mp hlast
    refine (List.mem_append.mp hy).symm.imp_right fun hy => ?_
    obtain ⟨r, hr, rfl⟩ := List.mem_map.mp hy
    obtain ⟨hmem, rfl⟩ : r ∈ h.owned ∧ r.owner = x := by simpa using hr
    refine ⟨hT r hmem, hknown, fun q hq he => hx ?_⟩
    exact he ▸ mem_refs_of_owned (hK.owned q hq)
  · exact .inl hy

/-- What is to be dropped was a field of an object that has died, which is none of those kept. -/
theorem Evolves.mem_dropping (hev : Evolves A T h roots h' roots') (hok : h.Ok roots)
    (hK : h.SelfOwned K) (hT : ∀ r ∈ h.owned, T r) (hy : y ∈ h'.dropping) :
    y ∈ h.dropping ∨ ∃ x, T ⟨x, y⟩ ∧ h'.count x ≠ none ∧ ∀ r ∈ K, r.target ≠ x := by
  induction hev with
  | perm | alloc | retain | push => exact .inl hy
  | release => exact (hok.mem_dropping_release hK hT hy).imp_right fun hx => ⟨_, hx⟩
  | dropField hx =>
    have hdropped := (hok.take hx).mem_dropping_release ⟨hK.owned, hK.closed⟩ hT hy
    exact hdropped.imp List.mem_of_mem_erase fun hx => ⟨_, hx⟩
  | trans hev₁ hev₂ ih₁ ih₂ =>
    have hT₂ := fun r hr => (hev₁.owned (r := r) hr).elim (hT r) id
    rcases ih₂ (hev₁.ok hok) (hK.evolves hok hev₁) hT₂ hy with hy | hx
    · refine (ih₁ hok hK hT hy).imp_right fun ⟨x, hx, hknown, hkept⟩ => ?_
      exact ⟨x, hx, hev₂.known_iff.1 hknown, hkept⟩
    · exact .inr hx

omit [DecidableEq ι] in
/-- Ownership that climbs a rank cannot go round in a circle. -/
theorem acc_of_rank {P : ι → Prop} {rank : ι → ℕ} (hclosed : ∀ x y, h.Owns x y → P y → P x)
    (hrank : ∀ x y, h.Owns x y → P y → rank x < rank y) (hx : P x) : Acc h.Owns x := by
  induction hn : rank x using Nat.strong_induction_on generalizing x with
  | _ n ih =>
    refine .intro x fun y hy => ih (rank y) ?_ (hclosed y x hy hx) rfl
    exact hn ▸ hrank y x hy hx

/-- Nothing refers to an object with a finite chain of owners that nobody holds from outside. -/
theorem Ok.not_mem_refs {P : ι → Prop} (hok : h.Ok roots)
    (hroots : ∀ x ∈ roots ++ h.dropping, ¬P x) (hclosed : ∀ x y, h.Owns x y → P y → P x)
    (hacc : Acc h.Owns x) (hx : P x) : x ∉ h.refs roots := by
  induction hacc with
  | intro x _ ih =>
    intro hmem
    rcases OwnershipHeap.mem_refs.mp hmem with hmem | hmem | hmem
    · exact hroots x (List.mem_append_left _ hmem) hx
    · exact hroots x (List.mem_append_right _ hmem) hx
    · obtain ⟨y, hy⟩ := mem_targets.mp hmem
      exact ih y hy (hclosed y x hy hx) (hok.owner _ hy)

theorem Ok.reclaimed {P : ι → Prop} {c : RefCount} (hok : h.Ok roots)
    (hroots : ∀ x ∈ roots ++ h.dropping, ¬P x) (hclosed : ∀ x y, h.Owns x y → P y → P x)
    (hacc : Acc h.Owns x) (hx : P x) (hc : h.count x = some c) : c.Reclaimed :=
  hok.counted.reclaimed (hok.not_mem_refs hroots hclosed hacc hx) hc

theorem length_release : (h.release x).owned.length + (h.release x).dropping.length =
    h.owned.length + h.dropping.length := by
  unfold OwnershipHeap.release
  split
  · have := List.length_eq_length_filter_add (fun r : FieldRef ι => decide (r.owner = x))
      (l := h.owned)
    simp only [List.length_append, List.length_map, ne_eq, decide_not] at this ⊢
    omega
  · rfl

/-- Destructors come to an end: each dropped field is one reference less. -/
theorem length_dropField (hx : x ∈ h.dropping) :
    (h.dropField x).owned.length + (h.dropField x).dropping.length <
      h.owned.length + h.dropping.length := by
  have hpos := List.length_pos_of_mem hx
  rw [OwnershipHeap.dropField, length_release]
  simp only [List.length_erase_of_mem hx]
  omega

end Proofs

end OwnershipHeap

end CompleteIo
