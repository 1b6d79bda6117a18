import CompleteIo.ThreadPool.PoolOwnership

namespace CompleteIo.PoolOwnership

def Field (r : FieldRef Obj) : Prop := ∃ a, Stores a r

/-- The pool has its event queue, and that its `Inner`. -/
def chain : Set (FieldRef Obj) := {⟨.pool, .eventQueue⟩, ⟨.eventQueue, .inner⟩}

/-- The handler of the custom event, which the event queue owns, owns the pool. -/
def cycle : Set (FieldRef Obj) :=
  {⟨.pool, .eventQueue⟩, ⟨.eventQueue, .inner⟩, ⟨.inner, .customEvent⟩, ⟨.customEvent, .pool⟩,
    ⟨.customEvent, .registration⟩}

/-- A worker is in exactly one of three stages; in the first, the pool has it or will have it. -/
structure WorkerInv (s : State) (w : ℕ) : Prop where
  stage : s.holders.count (.thread w) + s.holders.count (.leaving w) + s.ended.count w =
    if s.heap.count (.worker w) = none then 0 else 1
  listed : s.heap.owned.count ⟨.pool, .worker w⟩ + s.holders.count (.building (some w)) =
    s.holders.count (.thread w)
  undropped : .worker w ∉ s.heap.dropping

/-- Before the custom event is made, and if that fails, only `with_concurrency` has the pool. -/
structure Early (s : State) : Prop where
  event : s.heap.count .customEvent = none
  workers : ∀ w, s.heap.count (.worker w) = none
  holders : ∀ y ∈ s.holders, y = .value .epoll ∨ y = .value .queueHandle ∨ y = .forgotten ∨
    y = .building none
  builder : s.holders.count (.building none) =
    if s.registered = none ∧ s.heap.count .pool ≠ none then 1 else 0
  failed : s.registered ≠ none → s.heap.count .pool ≠ none
  undropped : .pool ∉ s.heap.dropping
  chain : .building none ∈ s.holders → s.heap.KeptBy [.pool] chain

structure Inv (s : State) : Prop where
  ok : s.heap.Ok s.roots
  fields : ∀ r ∈ s.heap.owned, Field r
  worker : ∀ w, WorkerInv s w
  early : s.registered ≠ some true → Early s
  cycle : s.registered = some true → s.heap.SelfOwned cycle

def takes : Act → List Holder
  | .new => [.value .epoll]
  | .newCustomEventFails _ | .runWorker _ | .runWorkerFails _ | .built => [.building none]
  | .pushWorker w => [.building (some w)]
  | .dropValue v => [.value v]
  | .removeWorker w => [.thread w]
  | .endThread w => [.leaving w]
  | .newCustomEvent | .handle | .queueHandle | .dropField _ => []

def gives : Act → List Holder
  | .new => [.building none]
  | .newCustomEventFails leaks => if leaks then [.forgotten] else []
  | .runWorker w => [.building (some w), .thread w]
  | .pushWorker _ => [.building none]
  | .built => [.value .threadPool]
  | .handle => [.value .handle]
  | .queueHandle => [.value .queueHandle]
  | .removeWorker w => [.leaving w]
  | .newCustomEvent | .runWorkerFails _ | .dropValue _ | .endThread _ | .dropField _ => []

section Proofs

variable {s t : State} {a : Act} {w v : ℕ}

theorem Inv.fields_present (h : Inv s) (hpool : .pool ∈ s.roots) :
    .eventQueue ∈ s.refs ∧ .inner ∈ s.refs := by
  have hfields : (∀ r ∈ chain, r ∈ s.heap.owned) → .eventQueue ∈ s.refs ∧ .inner ∈ s.refs :=
    fun howned => ⟨OwnershipHeap.mem_refs_of_owned (howned ⟨.pool, .eventQueue⟩ (.inl rfl)),
      OwnershipHeap.mem_refs_of_owned (howned ⟨.eventQueue, .inner⟩ (.inr rfl))⟩
  by_cases hlate : s.registered = some true
  · exact hfields fun r hr => (h.cycle hlate).owned r (hr.imp_right .inl)
  · obtain ⟨y, hy, hmem⟩ := List.mem_flatMap.mp hpool
    rcases (h.early hlate).holders y hy with rfl | rfl | rfl | rfl
    · simp [Holder.refs, Value.refs] at hmem
    · simp [Holder.refs, Value.refs] at hmem
    · simp [Holder.refs] at hmem
    · exact hfields ((h.early hlate).chain hy).owned

theorem pass_perm {y : Holder} {ys zs : List Holder} (hy : y ∈ zs) :
    ([y] ++ (ys ++ zs.erase y)).Perm (ys ++ zs) :=
  (show (y :: (ys ++ zs.erase y)).Perm (ys ++ y :: zs.erase y) from List.perm_middle.symm).trans
    ((List.perm_cons_erase hy).symm.append_left ys)

theorem holders_perm (hs : Step s a t) : (takes a ++ t.holders).Perm (gives a ++ s.holders) := by
  cases hs with
  | new hholder | newCustomEventFails hholder | runWorker hholder | runWorkerFails hholder
  | pushWorker hholder | built hholder | dropValue hholder | removeWorker hholder
  | endThread hholder => exact pass_perm hholder
  | newCustomEvent | handle | queueHandle | dropField => exact .refl _

theorem count_takes : (takes a).count (.thread w) = (if a = .removeWorker w then 1 else 0) ∧
    (takes a).count (.leaving w) = (if a = .endThread w then 1 else 0) ∧
    (takes a).count (.building (some w)) = if a = .pushWorker w then 1 else 0 := by
  cases a <;> simp [takes, List.count_cons]

theorem count_gives : (gives a).count (.thread w) = (if a = .runWorker w then 1 else 0) ∧
    (gives a).count (.leaving w) = (if a = .removeWorker w then 1 else 0) ∧
    (gives a).count (.building (some w)) = if a = .runWorker w then 1 else 0 := by
  cases a with
  | newCustomEventFails leaks => cases leaks <;> simp [gives]
  | _ => simp [gives, List.count_cons]

theorem ended_step (hs : Step s a t) : t.ended.count w =
    s.ended.count w + if a = .endThread w ∨ a = .runWorkerFails w then 1 else 0 := by
  cases hs <;> simp [endThread, runWorkerFails, State.pass, List.count_cons, new, newCustomEvent,
    newCustomEventFails, runWorker, pushWorker, built, acquire, dropValue, removeWorker, dropField]

/-- Only the creation of a worker makes it known. -/
theorem allocates_worker_iff :
    Allocates a (.worker w) ↔ a = .runWorker w ∨ a = .runWorkerFails w := by
  constructor
  · rintro (_ | _)
    · exact .inl rfl
    · exact .inr rfl
  · rintro (rfl | rfl)
    · exact .worker w
    · exact .workerFails w

theorem stores_workers_iff : Stores a ⟨.pool, .worker w⟩ ↔ a = .pushWorker w := by
  constructor
  · rintro (_ | _)
    rfl
  · rintro rfl
    exact .workers w

theorem fresh_of_allocates (hs : Step s a t) (hw : Allocates a (.worker w)) :
    s.heap.count (.worker w) = none := by
  cases hw with
  | worker | workerFails =>
    cases hs
    assumption

/-- A step of a worker or about it, given what the step does in the heap. -/
theorem step_worker (h : WorkerInv s w) (hs : Step s a t)
    (hknown : t.heap.count (.worker w) = none ↔
      s.heap.count (.worker w) = none ∧ ¬ Allocates a (.worker w))
    (howned : t.heap.owned.count ⟨.pool, .worker w⟩ + (if a = .removeWorker w then 1 else 0) =
      s.heap.owned.count ⟨.pool, .worker w⟩ + if a = .pushWorker w then 1 else 0)
    (hdropping : .worker w ∉ t.heap.dropping) : WorkerInv t w := by
  have hperm := fun z => (holders_perm hs).count_eq z
  simp only [List.count_append] at hperm
  have hthread := hperm (.thread w)
  have hleaving := hperm (.leaving w)
  have hbuilding := hperm (.building (some w))
  rw [count_takes.1, count_gives.1] at hthread
  rw [count_takes.2.1, count_gives.2.1] at hleaving
  rw [count_takes.2.2, count_gives.2.2] at hbuilding
  have hended := ended_step (w := w) hs
  have hstage := h.stage
  have hlisted := h.listed
  refine ⟨?_, by omega, hdropping⟩
  by_cases hnew : Allocates a (.worker w)
  · rw [if_neg fun hn => (hknown.mp hn).2 hnew]
    rw [if_pos (fresh_of_allocates hs hnew)] at hstage
    rcases allocates_worker_iff.mp hnew with rfl | rfl <;>
      simp at hthread hleaving hended <;> omega
  · rw [if_congr (hknown.trans (and_iff_left hnew)) rfl rfl, ← hstage]
    obtain ⟨hrun, hfails⟩ := not_or.mp (allocates_worker_iff.not.mp hnew)
    simp only [hrun, hfails, or_false, if_false] at hthread hended
    omega

theorem runWorkerHeap_known {h : OwnershipHeap Obj} :
    (runWorkerHeap h w).count (.worker w) ≠ none := by
  rw [runWorkerHeap, OwnershipHeap.retain_count, modifyCount_ne_none]
  simp

theorem known_of_allocates (hs : Step s a t) (hw : Allocates a (.worker w)) :
    t.heap.count (.worker w) ≠ none := by
  cases hw with
  | worker =>
    cases hs
    exact runWorkerHeap_known
  | workerFails =>
    cases hs
    exact OwnershipHeap.releaseAll_count_eq_none.not.mpr runWorkerHeap_known

theorem field_worker {x : Obj} (h : Field ⟨x, .worker w⟩) : x = .pool := by
  obtain ⟨a, ha⟩ := h
  cases ha
  rfl

/-- The handler, through which the pool keeps itself. -/
theorem handler_mem_cycle : ⟨.customEvent, .pool⟩ ∈ cycle := by simp [cycle]

/-- What a step that takes no worker out of the pool does to the workers. -/
theorem worker_evolves (h : Inv s) (hs : Step s a t) (hlate : s.registered = some true)
    (hev : Evolves a s.heap s.roots t.heap t.roots) (ha : ∀ v, a ≠ .removeWorker v) :
    WorkerInv t w := by
  refine step_worker (h.worker w) hs ?_ ?_ fun hmem => ?_
  · have hknown := hev.known_iff (x := .worker w)
    constructor
    · intro hn
      exact ⟨of_not_not fun hne => hknown.1 hne hn, fun hw => known_of_allocates hs hw hn⟩
    · rintro ⟨hn, hw⟩
      by_contra hne
      exact (hknown.2 hne).elim (absurd hn ·) hw
  · rw [if_neg (ha w)]
    by_cases hpush : a = .pushWorker w
    · subst hpush
      cases hs
      simp [pushWorker, State.pass, OwnershipHeap.push]
    · rw [if_neg hpush]
      exact hev.count_owned h.ok (h.cycle hlate) handler_mem_cycle rfl
        (stores_workers_iff.not.mpr hpush)
  · have hfield : s.heap.Evolves (Allocates a) Field s.roots t.heap t.roots :=
      hev.mono_fields fun _ hr => ⟨a, hr⟩
    rcases hfield.mem_dropping h.ok (h.cycle hlate) h.fields hmem with hmem | ⟨x, hx, -, hkept⟩
    · exact (h.worker w).undropped hmem
    · exact hkept _ handler_mem_cycle (field_worker hx).symm

theorem workers_not_mem_cycle : ⟨.pool, .worker v⟩ ∉ cycle := by simp [cycle]

theorem worker_removeWorker (h : Inv s) (hlate : s.registered = some true)
    (hholder : .thread v ∈ s.holders) (hlisted : ⟨.pool, .worker v⟩ ∈ s.heap.owned) :
    WorkerInv (removeWorker s v) w := by
  have hpull := pull_ok h.ok hholder hlisted
  have hcycle := (h.cycle hlate).pull (workers_not_mem_cycle (v := v))
  have hkept : ∀ roots, .pool ∈ (s.heap.pull .pool (.worker v)).refs roots := fun roots =>
    OwnershipHeap.mem_refs_of_owned (hcycle.owned _ handler_mem_cycle)
  refine step_worker (a := .removeWorker v) (h.worker w) (.removeWorker hholder hlisted) ?_ ?_
    fun hmem => ?_
  · have hnew : ¬ Allocates (.removeWorker v) (.worker w) := fun hw => by cases hw
    rw [and_iff_left hnew, removeWorker, State.pass, OwnershipHeap.release_count,
      modifyCount_eq_none]
    rfl
  · have hcount : (removeWorker s v).heap.owned.count ⟨.pool, .worker w⟩ =
        (s.heap.owned.erase ⟨.pool, .worker v⟩).count ⟨.pool, .worker w⟩ :=
      hpull.count_owned_release (hkept _)
    rw [hcount]
    have hperm := (List.perm_cons_erase hlisted).count_eq ⟨.pool, .worker w⟩
    rw [List.count_cons] at hperm
    simp only [beq_iff_eq, FieldRef.mk.injEq, Obj.worker.injEq, true_and] at hperm
    simp only [Act.removeWorker.injEq, reduceCtorEq, if_false]
    omega
  · have hfields : ∀ r ∈ (s.heap.pull .pool (.worker v)).owned, Field r := fun r hr =>
      h.fields r (List.mem_of_mem_erase hr)
    rcases hpull.mem_dropping_release hcycle hfields hmem with hmem | ⟨hfield, -, -⟩
    · exact (h.worker w).undropped hmem
    · cases field_worker hfield

theorem late_removeWorker (h : Inv s) (hlate : s.registered = some true)
    (hholder : .thread v ∈ s.holders) (hlisted : ⟨.pool, .worker v⟩ ∈ s.heap.owned) :
    Inv (removeWorker s v) where
  ok := removeWorker_ok h.ok hholder hlisted
  fields r hr := h.fields r (List.mem_of_mem_erase (OwnershipHeap.release_owned_subset hr))
  worker _ := worker_removeWorker h hlate hholder hlisted
  early he := absurd hlate he
  cycle _ := ((h.cycle hlate).pull workers_not_mem_cycle).release (pull_ok h.ok hholder hlisted)

theorem registered_step (hs : Step s a t) (hlate : s.registered = some true) :
    t.registered = some true := by
  cases hs with
  | newCustomEvent _ hregistered | newCustomEventFails _ hregistered =>
    rw [hlate] at hregistered
    cases hregistered
  | _ => exact hlate

theorem late_step (h : Inv s) (hs : Step s a t) (hlate : s.registered = some true) : Inv t := by
  by_cases ha : ∃ v, a = .removeWorker v
  · obtain ⟨v, rfl⟩ := ha
    cases hs with
    | removeWorker hholder hlisted => exact late_removeWorker h hlate hholder hlisted
  have ha' : ∀ v, a ≠ .removeWorker v := fun v he => ha ⟨v, he⟩
  have hev := step_evolves hs ha' h.fields_present
  have hregistered := registered_step hs hlate
  refine ⟨hev.ok h.ok, fun r hr => (hev.owned hr).elim (h.fields r) fun hr => ⟨a, hr⟩,
    fun w => worker_evolves h hs hlate hev ha', fun he => absurd hregistered he,
    fun _ => (h.cycle hlate).evolves h.ok hev⟩

/-- Without the custom event there are no workers. -/
theorem Early.quiet (h : Early s) (hs : Step s a t) (hnot : s.registered ≠ some true) (w : ℕ) :
    ¬ Allocates a (.worker w) ∧ a ≠ .pushWorker w ∧ a ≠ .removeWorker w := by
  cases hs with
  | runWorker _ hregistered | runWorkerFails _ hregistered => exact absurd hregistered hnot
  | pushWorker hholder | removeWorker hholder =>
    simpa using h.holders _ hholder
  | _ =>
    refine ⟨fun hw => ?_, Act.noConfusion, Act.noConfusion⟩
    cases hw

theorem Early.worker_unknown (h : Early s) (hs : Step s a t) (hnot : s.registered ≠ some true)
    (hev : Evolves a s.heap s.roots t.heap t.roots) (w : ℕ) :
    t.heap.count (.worker w) = none := by
  by_contra hne
  exact (hev.known_iff.2 hne).elim (absurd (h.workers w)) (h.quiet hs hnot w).1

theorem count_owned_of_unknown (hok : s.heap.Ok s.roots) {x y : Obj}
    (hy : s.heap.count y = none) : s.heap.owned.count ⟨x, y⟩ = 0 :=
  List.count_eq_zero.mpr fun hmem =>
    hok.counted.fresh hy (OwnershipHeap.mem_refs_of_owned (r := ⟨x, y⟩) hmem)

theorem Early.worker_step (hearly : Early s) (h : Inv s) (hs : Step s a t)
    (hnot : s.registered ≠ some true) (hev : Evolves a s.heap s.roots t.heap t.roots) (w : ℕ) :
    WorkerInv t w := by
  obtain ⟨hnew, hpush, hremove⟩ := hearly.quiet hs hnot w
  have ht := hearly.worker_unknown hs hnot hev w
  have hok := hev.ok h.ok
  refine step_worker (h.worker w) hs (iff_of_true ht ⟨hearly.workers w, hnew⟩) ?_ fun hmem => ?_
  · rw [count_owned_of_unknown hok ht, count_owned_of_unknown h.ok (hearly.workers w), if_neg hpush,
      if_neg hremove]
  · exact hok.counted.fresh ht (OwnershipHeap.mem_refs.mpr (.inr (.inl hmem)))

theorem Early.holders_step (h : Early s) (hs : Step s a t) (hnot : s.registered ≠ some true) :
    ∀ y ∈ t.holders, y = .value .epoll ∨ y = .value .queueHandle ∨ y = .forgotten ∨
      y = .building none := by
  intro y hy
  have hmem := (holders_perm hs).subset (List.mem_append_right _ hy)
  refine (List.mem_append.mp hmem).elim (fun hgives => ?_) (h.holders y)
  cases hs with
  | new => exact .inr (.inr (.inr (List.mem_singleton.mp hgives)))
  | queueHandle => exact .inr (.inl (List.mem_singleton.mp hgives))
  | @newCustomEventFails leaks =>
    cases leaks with
    | false => cases hgives
    | true => exact .inr (.inr (.inl (List.mem_singleton.mp hgives)))
  | runWorker _ hregistered | built _ hregistered => exact absurd hregistered hnot
  | pushWorker hholder | removeWorker hholder => simpa using h.holders _ hholder
  | handle hholder =>
    have hnone := hholder.imp (h.holders _) (h.holders _)
    simp at hnone
  | newCustomEvent | runWorkerFails | dropValue | endThread | dropField => cases hgives

/-- The pool that `with_concurrency` has just made. -/
theorem new_chain (s : State) : (new s).heap.KeptBy [.pool] chain where
  owned := by
    rintro r (rfl | rfl) <;> simp [new, State.pass, OwnershipHeap.alloc]
  closed := by
    rintro r (rfl | rfl)
    · exact .inl (List.mem_singleton_self _)
    · exact .inr ⟨_, .inl rfl, rfl⟩

/-- Only one function has the pool, and it ends when the custom event cannot be made. -/
theorem Early.builder_erase (h : Early s) (hholder : .building none ∈ s.holders) :
    .building none ∉ s.holders.erase (.building none) := by
  have hbuilder := h.builder
  have hperm := (List.perm_cons_erase hholder).count_eq (.building none)
  rw [List.count_cons_self] at hperm
  refine List.count_eq_zero.mp ?_
  split at hbuilder <;> omega

theorem chain_releaseAll {heap : OwnershipHeap Obj} {xs rest : List Obj}
    (hchain : heap.KeptBy [.pool] chain) (hok : heap.Ok (xs ++ rest)) (hpool : .pool ∈ rest) :
    (heap.releaseAll xs).KeptBy [.pool] chain where
  owned := ((hchain.mono (List.cons_subset.mpr ⟨hpool, List.nil_subset _⟩)).releaseAll hok).owned
  closed := hchain.closed

theorem pool_mem_roots {holders : List Holder} (hbuilding : .building none ∈ holders) :
    .pool ∈ holders.flatMap Holder.refs :=
  List.mem_flatMap.mpr ⟨_, hbuilding, by simp [Holder.refs]⟩

/-- While `with_concurrency` has the pool, other references that are dropped do not take it. -/
theorem chain_step (hearly : Early s) (h : Inv s) (hs : Step s a t)
    (hnot : s.registered ≠ some true) (hnot' : t.registered ≠ some true)
    (hbuilding : .building none ∈ t.holders) : t.heap.KeptBy [.pool] chain := by
  cases hs with
  | new => exact new_chain s
  | newCustomEvent => exact absurd rfl hnot'
  | @newCustomEventFails leaks hholder =>
    have hrest := hearly.builder_erase hholder
    cases leaks with
    | false => exact absurd hbuilding hrest
    | true => exact absurd (List.mem_of_ne_of_mem (by simp) hbuilding) hrest
  | queueHandle =>
    have hchain := hearly.chain (List.mem_of_ne_of_mem (by simp) hbuilding)
    exact ⟨hchain.owned, hchain.closed⟩
  | dropValue hholder =>
    have hchain := hearly.chain (List.mem_of_mem_erase hbuilding)
    exact chain_releaseAll hchain (h.ok.perm (roots_perm_erase hholder)) (pool_mem_roots hbuilding)
  | @dropField x hx =>
    have hchain := hearly.chain hbuilding
    have hkept : OwnershipHeap.KeptBy { s.heap with dropping := s.heap.dropping.erase x } [.pool]
        chain := ⟨hchain.owned, hchain.closed⟩
    have hok : OwnershipHeap.Ok { s.heap with dropping := s.heap.dropping.erase x }
        ([x] ++ s.roots) := h.ok.take hx
    exact chain_releaseAll hkept hok (pool_mem_roots hbuilding)
  | runWorker _ hregistered | runWorkerFails _ hregistered | built _ hregistered =>
    exact absurd hregistered hnot
  | pushWorker hholder | removeWorker hholder | endThread hholder =>
    simpa using hearly.holders _ hholder
  | handle hholder =>
    have hnone := hholder.imp (hearly.holders _) (hearly.holders _)
    simp at hnone

theorem pool_known_iff (hev : Evolves a s.heap s.roots t.heap t.roots) (ha : a ≠ .new) :
    t.heap.count .pool ≠ none ↔ s.heap.count .pool ≠ none := by
  refine ⟨fun hne => (hev.known_iff.2 hne).elim id fun hpool => ?_, hev.known_iff.1⟩
  cases hpool
  exact absurd rfl ha

theorem Inv.pool_known (h : Inv s) (hbuilding : .building none ∈ s.holders) :
    s.heap.count .pool ≠ none :=
  h.ok.counted.known .pool (List.mem_append_left _ (pool_mem_roots hbuilding))

theorem Early.builder_step (hearly : Early s) (hs : Step s a t)
    (hev : Evolves a s.heap s.roots t.heap t.roots) (hnot : s.registered ≠ some true)
    (hnot' : t.registered ≠ some true) : t.holders.count (.building none) =
      if t.registered = none ∧ t.heap.count .pool ≠ none then 1 else 0 := by
  have hperm := (holders_perm hs).count_eq (.building none)
  rw [List.count_append, List.count_append, hearly.builder] at hperm
  cases hs with
  | new _ _ hpool =>
    have hnone : s.registered = none := by
      by_contra hne
      exact hearly.failed hne hpool
    have hknown : (new s).heap.count .pool ≠ none := by simp [new, State.pass]
    rw [if_neg fun hguard => hguard.2 hpool] at hperm
    rw [if_pos ⟨hnone, hknown⟩]
    simpa [takes, gives] using hperm
  | newCustomEvent => exact absurd rfl hnot'
  | @newCustomEventFails leaks hholder =>
    have hrest := List.count_eq_zero.mpr (hearly.builder_erase hholder)
    rw [if_neg fun hguard => by cases hguard.1]
    cases leaks with
    | false => exact hrest
    | true => exact (List.count_cons_of_ne (by simp)).trans hrest
  | queueHandle | dropValue | dropField =>
    have hpool := pool_known_iff hev (by simp)
    rw [if_congr (and_congr_right fun _ => hpool) rfl rfl]
    simp only [takes, gives, List.count_nil, List.count_singleton, beq_iff_eq, reduceCtorEq,
      if_false, Nat.zero_add] at hperm
    exact hperm
  | runWorker _ hregistered | runWorkerFails _ hregistered | built _ hregistered =>
    exact absurd hregistered hnot
  | pushWorker hholder | removeWorker hholder | endThread hholder =>
    simpa using hearly.holders _ hholder
  | handle hholder =>
    have hnone := hholder.imp (hearly.holders _) (hearly.holders _)
    simp at hnone

theorem Early.failed_step (hearly : Early s) (h : Inv s) (hs : Step s a t)
    (hev : Evolves a s.heap s.roots t.heap t.roots) (hregistered : t.registered ≠ none) :
    t.heap.count .pool ≠ none := by
  refine hev.known_iff.1 ?_
  by_cases hnone : s.registered = none
  · cases hs with
    | newCustomEvent hholder | newCustomEventFails hholder => exact h.pool_known hholder
    | _ => exact absurd hnone hregistered
  · exact hearly.failed hnone

theorem field_pool {x : Obj} (h : Field ⟨x, .pool⟩) : x = .customEvent ∨ ∃ w, x = .worker w := by
  obtain ⟨a, ha⟩ := h
  cases ha with
  | handler => exact .inl rfl
  | workerPool w | workerPoolFails w => exact .inr ⟨w, rfl⟩

theorem selfOwned_empty {heap : OwnershipHeap Obj} : heap.SelfOwned ∅ :=
  ⟨fun _ hr => hr.elim, fun _ hr => hr.elim⟩

theorem Early.undropped_step (hearly : Early s) (h : Inv s)
    (hev : Evolves a s.heap s.roots t.heap t.roots) (hevent : t.heap.count .customEvent = none)
    (hworkers : ∀ w, t.heap.count (.worker w) = none) : .pool ∉ t.heap.dropping := by
  intro hmem
  have hfield : s.heap.Evolves (Allocates a) Field s.roots t.heap t.roots :=
    hev.mono_fields fun _ hr => ⟨a, hr⟩
  rcases hfield.mem_dropping h.ok selfOwned_empty h.fields hmem with hmem | ⟨x, hx, hknown, -⟩
  · exact hearly.undropped hmem
  · rcases field_pool hx with rfl | ⟨w, rfl⟩
    · exact hknown hevent
    · exact hknown (hworkers w)

theorem early_step (hearly : Early s) (h : Inv s) (hs : Step s a t)
    (hev : Evolves a s.heap s.roots t.heap t.roots) (hnot : s.registered ≠ some true)
    (hnot' : t.registered ≠ some true) : Early t := by
  have hevent : t.heap.count .customEvent = none := by
    by_contra hne
    refine (hev.known_iff.2 hne).elim (absurd hearly.event) fun hnew => ?_
    cases hnew
    cases hs
    exact hnot' rfl
  have hworkers := hearly.worker_unknown hs hnot hev
  exact ⟨hevent, hworkers, hearly.holders_step hs hnot, hearly.builder_step hs hev hnot hnot',
    hearly.failed_step h hs hev, hearly.undropped_step h hev hevent hworkers,
    chain_step hearly h hs hnot hnot'⟩

/-- From then on the pool owns itself. -/
theorem newCustomEvent_cycle (hchain : s.heap.KeptBy [.pool] chain) :
    (newCustomEvent s).heap.SelfOwned cycle where
  owned r hr := by
    have howned : ∀ r ∈ s.heap.owned, r ∈ (newCustomEvent s).heap.owned := fun r hr =>
      List.mem_cons_of_mem _ (List.mem_append_right _ (List.mem_append_right _ hr))
    rcases hr with rfl | rfl | rfl | rfl | rfl
    · exact howned _ (hchain.owned _ (.inl rfl))
    · exact howned _ (hchain.owned _ (.inr rfl))
    all_goals simp [newCustomEvent, newCustomEventHeap, registerHeap, OwnershipHeap.push,
      OwnershipHeap.alloc]
  closed r hr := by
    rcases hr with rfl | rfl | rfl | rfl | rfl <;> simp [cycle]

theorem step_inv (h : Inv s) (hs : step s a = some t) : Inv t := by
  replace hs := step_cases hs
  by_cases hlate : s.registered = some true
  · exact late_step h hs hlate
  have hearly := h.early hlate
  have hev := step_evolves hs (fun w => (hearly.quiet hs hlate w).2.2) h.fields_present
  refine ⟨hev.ok h.ok, fun r hr => (hev.owned hr).elim (h.fields r) fun hr => ⟨a, hr⟩,
    hearly.worker_step h hs hlate hev, early_step hearly h hs hev hlate, fun hregistered => ?_⟩
  cases hs with
  | newCustomEvent hholder => exact newCustomEvent_cycle (hearly.chain hholder)
  | newCustomEventFails => cases hregistered
  | _ => exact absurd hregistered hlate

theorem initial_inv : Inv initial where
  ok := OwnershipHeap.empty_ok.alloc rfl
  fields r hr := by cases hr
  worker w := by
    refine ⟨?_, ?_, ?_⟩ <;> simp [initial, OwnershipHeap.empty, OwnershipHeap.alloc]
  early _ := by
    refine ⟨?_, ?_, ?_, ?_, ?_, ?_, ?_⟩ <;>
      simp [initial, OwnershipHeap.empty, OwnershipHeap.alloc]
  cycle h := by cases h

theorem inv_of_reachable (hr : machine.Reachable s) : Inv s :=
  hr.invariant (fun _ hinit => hinit ▸ initial_inv) fun _ _ _ _ h _ hs => step_inv h hs

theorem not_reclaimed {x : Obj} {c : RefCount} (h : Inv s) (hx : x ∈ s.refs)
    (hc : s.heap.count x = some c) : ¬ c.Reclaimed := by
  obtain ⟨c', hc', hstrong, -⟩ := h.ok.alive hx
  cases hc.symm.trans hc'
  exact fun hgone => hstrong.ne' hgone.1

theorem Inv.worker_reclaimed_iff {c : RefCount} (h : Inv s)
    (hc : s.heap.count (.worker w) = some c) : c.Reclaimed ↔ w ∈ s.ended := by
  have hstage := (h.worker w).stage
  have hlisted := (h.worker w).listed
  rw [if_neg (by simp [hc])] at hstage
  constructor
  · intro hgone
    by_contra hended
    rw [List.count_eq_zero.mpr hended] at hstage
    refine not_reclaimed h ?_ hc hgone
    by_cases hthread : .thread w ∈ s.holders
    · exact mem_refs_of_holder hthread (List.mem_cons_self ..)
    · rw [List.count_eq_zero.mpr hthread] at hstage
      have hleaving : .leaving w ∈ s.holders := List.count_pos_iff.mp (by omega)
      exact mem_refs_of_holder hleaving (List.mem_cons_self ..)
  · intro hended
    have hpos := List.count_pos_iff.mpr hended
    have hthread : .thread w ∉ s.holders := List.count_eq_zero.mp (by omega)
    have hleaving : .leaving w ∉ s.holders := List.count_eq_zero.mp (by omega)
    have hbuilding : .building (some w) ∉ s.holders := List.count_eq_zero.mp (by omega)
    have howned : ⟨.pool, .worker w⟩ ∉ s.heap.owned := List.count_eq_zero.mp (by omega)
    refine h.ok.counted.reclaimed (fun hmem => ?_) hc
    rcases OwnershipHeap.mem_refs.mp hmem with hmem | hmem | hmem
    · obtain ⟨y, hy, hmem⟩ := List.mem_flatMap.mp hmem
      rcases y with (_ | _ | _ | _) | (_ | _) | _ | _ | _ <;>
        simp [Holder.refs, Value.refs] at hmem <;> subst hmem
      · exact hbuilding hy
      · exact hthread hy
      · exact hleaving hy
    · exact (h.worker w).undropped hmem
    · obtain ⟨x, hx⟩ := OwnershipHeap.mem_targets.mp hmem
      cases field_worker (h.fields _ hx)
      exact howned hx

theorem Inv.pool_reclaimed_iff {c : RefCount} (h : Inv s) (hc : s.heap.count .pool = some c) :
    c.Reclaimed ↔ s.registered = some false := by
  by_cases hlate : s.registered = some true
  · have hpool : .pool ∈ s.refs :=
      OwnershipHeap.mem_refs_of_owned ((h.cycle hlate).owned _ handler_mem_cycle)
    exact iff_of_false (not_reclaimed h hpool hc) (by simp [hlate])
  have hearly := h.early hlate
  have hbuilder := hearly.builder
  by_cases hnone : s.registered = none
  · rw [if_pos ⟨hnone, by simp [hc]⟩] at hbuilder
    have hholder : .building none ∈ s.holders := List.count_pos_iff.mp (by omega)
    have hpool := mem_refs_of_holder hholder (List.mem_singleton_self _)
    exact iff_of_false (not_reclaimed h hpool hc) (by simp [hnone])
  · rw [if_neg fun hguard => hnone hguard.1] at hbuilder
    refine iff_of_true (h.ok.counted.reclaimed (fun hmem => ?_) hc) ?_
    · rcases OwnershipHeap.mem_refs.mp hmem with hmem | hmem | hmem
      · obtain ⟨y, hy, hmem⟩ := List.mem_flatMap.mp hmem
        rcases hearly.holders y hy with rfl | rfl | rfl | rfl
        · simp [Holder.refs, Value.refs] at hmem
        · simp [Holder.refs, Value.refs] at hmem
        · simp [Holder.refs] at hmem
        · exact List.count_eq_zero.mp hbuilder hy
      · exact hearly.undropped hmem
      · obtain ⟨x, hx⟩ := OwnershipHeap.mem_targets.mp hmem
        obtain ⟨c', hx', -⟩ := h.ok.alive (h.ok.owner _ hx)
        rcases field_pool (h.fields _ hx) with rfl | ⟨w, rfl⟩
        · simp [hearly.event] at hx'
        · simp [hearly.workers w] at hx'
    · obtain ⟨made, hmade⟩ := Option.ne_none_iff_exists'.mp hnone
      cases made with
      | false => exact hmade
      | true => exact absurd hmade hlate

/-- The handler for remote spawns keeps the pool, its event queue and itself, whatever the user
drops. A pool is dropped only if there is no such handler, but workers are dropped with their
threads. -/
theorem pool_kept_by_handler (hr : machine.Reachable s) :
    (s.registered = some true →
      ∀ x ∈ [Obj.pool, .eventQueue, .inner, .customEvent, .registration],
        ∃ c, s.heap.count x = some c ∧ c.Alive) ∧
    (∀ c, s.heap.count .pool = some c → (c.Reclaimed ↔ s.registered = some false)) ∧
    ∀ w c, s.heap.count (.worker w) = some c → (c.Reclaimed ↔ w ∈ s.ended) := by
  have h := inv_of_reachable hr
  refine ⟨fun hlate x hx => ?_, fun c => h.pool_reclaimed_iff, fun w c => h.worker_reclaimed_iff⟩
  have hcycle := h.cycle hlate
  have htarget : ∃ r ∈ cycle, r.target = x := by
    simp only [List.mem_cons, List.not_mem_nil, or_false] at hx
    rcases hx with rfl | rfl | rfl | rfl | rfl <;> simp [cycle]
  obtain ⟨r, hr, rfl⟩ := htarget
  exact hcycle.alive h.ok hr

/-- The user has dropped the pool and everything else, and all threads have ended. -/
theorem pool_kept_without_user : ∃ s, machine.exec initial [.new, .newCustomEvent, .runWorker 0,
      .pushWorker 0, .built, .handle, .dropValue .threadPool, .removeWorker 0, .endThread 0,
      .dropField .pool, .dropValue .handle] = some s ∧
    s.holders = [] ∧ s.heap.dropping = [] ∧ (∃ c, s.heap.count .pool = some c ∧ c.Alive) ∧
    ∃ c, s.heap.count (.worker 0) = some c ∧ c.Reclaimed := by
  have hrun : machine.exec initial [.new, .newCustomEvent, .runWorker 0, .pushWorker 0, .built,
      .handle, .dropValue .threadPool, .removeWorker 0, .endThread 0, .dropField .pool,
      .dropValue .handle] = some _ := rfl
  have hkept := pool_kept_by_handler (Machine.reachable_of_exec rfl hrun)
  exact ⟨_, hrun, rfl, rfl, hkept.1 rfl .pool (List.mem_cons_self ..), _, rfl,
    (hkept.2.2 0 _ rfl).mpr (List.mem_cons_self ..)⟩

end Proofs

end CompleteIo.PoolOwnership
