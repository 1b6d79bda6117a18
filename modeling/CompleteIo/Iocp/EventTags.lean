import CompleteIo.Lib.Machine
import CompleteIo.Lib.RefCount

namespace CompleteIo.CompletionPort

def FUTURE_NOTIFY_IOCP_TOKEN : ℕ := 1

/-- An `EventTag`, and the port that has made it. -/
structure EventTag (P : Type*) where
  callbackPtr : ℕ
  iocpId : ℕ
  maker : P
  deriving DecidableEq

structure Packet where
  token : ℕ
  data : ℕ
  deriving DecidableEq

structure State (P : Type*) where
  count : P → Option RefCount
  rawHandle : P → ℕ
  -- The addresses of the boxed handlers in `event_table`.
  eventTable : P → List ℕ
  queue : P → List Packet
  ports : List P
  -- The `Handle` values, those in sockets included.
  handles : List P
  tags : List (EventTag P)

inductive Act (P : Type*)
  -- `CompletionPort::new`, to which the OS gives the handle value `raw`.
  | new (p : P) (raw : ℕ)
  | clone (p : P)
  | handle (p : P)
  | cloneHandle (p : P)
  | dropPort (p : P)
  | dropHandle (p : P)
  | newCustomEvent (p : P) (ptr : ℕ)
  | post (p : P) (tag : EventTag P) (data : ℕ) (ok : Bool)
  | poll (p : P)

variable {P : Type*}

def initial : State P where
  count _ := none
  rawHandle _ := 0
  eventTable _ := []
  queue _ := []
  ports := []
  handles := []
  tags := []

def State.refs (s : State P) : List P := s.ports ++ s.handles

/-- The comparison in `post_custom_event`, which panics if it fails. -/
def passes (s : State P) (p : P) (tag : EventTag P) : Bool := tag.iocpId = s.rawHandle p

section Step

variable [DecidableEq P]

def new (s : State P) (p : P) (raw : ℕ) : State P :=
  { s with
    count := Function.update s.count p (some .new)
    rawHandle := Function.update s.rawHandle p raw
    eventTable := Function.update s.eventTable p []
    queue := Function.update s.queue p []
    ports := p :: s.ports }

def retain (s : State P) (p : P) : State P := { s with count := modifyCount s.count p .retain }

/-- The drop of a reference; with the last one the port is closed and the handlers are freed. -/
def release (s : State P) (p : P) : State P :=
  let t := { s with count := modifyCount s.count p .release }
  if (s.count p).any (·.strong = 1) then
    { t with
      eventTable := Function.update s.eventTable p []
      queue := Function.update s.queue p [] }
  else t

def newCustomEvent (s : State P) (p : P) (ptr : ℕ) : State P :=
  { s with
    eventTable := Function.update s.eventTable p (s.eventTable p ++ [ptr])
    tags := ⟨ptr, s.rawHandle p, p⟩ :: s.tags }

def post (s : State P) (p : P) (tag : EventTag P) (data : ℕ) (ok : Bool) : State P :=
  if passes s p tag ∧ ok then
    { s with queue := Function.update s.queue p (s.queue p ++ [⟨tag.callbackPtr, data⟩]) }
  else s

/-- `poll_iocp` calls the handler at the address in the token and gives it a tag. -/
def poll (s : State P) (p : P) (packet : Packet) (rest : List Packet) : State P :=
  { s with
    queue := Function.update s.queue p rest
    tags := ⟨packet.token, s.rawHandle p, p⟩ :: s.tags }

def step (s : State P) : Act P → Option (State P)
  -- The handle values of open ports are different.
  | .new p raw =>
    if (s.count p).isNone ∧ ∀ q ∈ s.refs, s.rawHandle q ≠ raw then some (new s p raw) else none
  | .clone p =>
    if p ∈ s.ports then some { retain s p with ports := p :: s.ports } else none
  | .handle p =>
    if p ∈ s.ports then some { retain s p with handles := p :: s.handles } else none
  | .cloneHandle p =>
    if p ∈ s.handles then some { retain s p with handles := p :: s.handles } else none
  | .dropPort p =>
    if p ∈ s.ports then some { release s p with ports := s.ports.erase p } else none
  | .dropHandle p =>
    if p ∈ s.handles then some { release s p with handles := s.handles.erase p } else none
  -- The allocator gives out an address that no box in use has.
  | .newCustomEvent p ptr =>
    if p ∈ s.ports ∧ ptr ≠ FUTURE_NOTIFY_IOCP_TOKEN ∧ ∀ q ∈ s.refs, ptr ∉ s.eventTable q then
      some (newCustomEvent s p ptr)
    else none
  | .post p tag data ok =>
    if p ∈ s.handles ∧ tag ∈ s.tags then some (post s p tag data ok) else none
  | .poll p =>
    if p ∈ s.ports then
      match s.queue p with
      | [] => none
      | packet :: rest => some (poll s p packet rest)
    else none

def machine (P : Type*) [DecidableEq P] : Machine (State P) (Act P) where
  init s := s = initial
  step := step

end Step

/-- Tags are sound identities on an open port: only its own tags pass the comparison, and they
and the packets in its queue refer to handlers that it still holds. -/
structure SoundAt (s : State P) (p : P) : Prop where
  tag : ∀ tag ∈ s.tags, passes s p tag = true →
    tag.maker = p ∧ tag.callbackPtr ∈ s.eventTable p
  packet : ∀ packet ∈ s.queue p, packet.token ∈ s.eventTable p

def Sound (s : State P) : Prop := ∀ p ∈ s.refs, SoundAt s p

/-- A new port does not get the handle value of a port, closed by then, that has made a tag. -/
def FreshId (s : State P) : Act P → Prop
  | .new _ raw => ∀ tag ∈ s.tags, tag.iocpId ≠ raw
  | _ => True

structure Inv [DecidableEq P] (s : State P) : Prop where
  counted : Counted s.count s.refs
  maker : ∀ tag ∈ s.tags, s.count tag.maker ≠ none
  distinct : ∀ p ∈ s.refs, ∀ q ∈ s.refs, s.rawHandle p = s.rawHandle q → p = q

section Proofs

variable [DecidableEq P] {s t : State P} {a : Act P} {p q : P} {tag : EventTag P}

theorem initial_inv : Inv (initial : State P) where
  counted := .empty
  maker := by simp [initial]
  distinct := by simp [initial, State.refs]

omit [DecidableEq P] in
@[simp] theorem passes_iff : passes s p tag = true ↔ tag.iocpId = s.rawHandle p := by
  simp [passes]

structure SameTables (s t : State P) (p : P) : Prop where
  rawHandle : t.rawHandle p = s.rawHandle p
  eventTable : t.eventTable p = s.eventTable p
  queue : t.queue p = s.queue p

omit [DecidableEq P] in
theorem SoundAt.of_same (h : SoundAt s p) (htags : t.tags = s.tags) (hsame : SameTables s t p) :
    SoundAt t p where
  tag tag hmem hpasses := by
    rw [hsame.eventTable]
    rw [passes_iff, hsame.rawHandle] at hpasses
    exact h.tag tag (htags ▸ hmem) (passes_iff.mpr hpasses)
  packet packet hmem := by
    rw [hsame.eventTable]
    exact h.packet packet (hsame.queue ▸ hmem)

theorem Inv.of_refs (h : Inv s) (hcounted : Counted t.count t.refs)
    (hknown : ∀ p, s.count p ≠ none → t.count p ≠ none) (htags : t.tags = s.tags)
    (hraw : t.rawHandle = s.rawHandle) (hrefs : ∀ p ∈ t.refs, p ∈ s.refs) : Inv t where
  counted := hcounted
  maker tag hmem := hknown _ (h.maker tag (htags ▸ hmem))
  distinct p hp q hq he := h.distinct p (hrefs p hp) q (hrefs q hq) (by rwa [hraw] at he)

@[simp] theorem release_count : (release s p).count = modifyCount s.count p .release := by
  unfold release
  split <;> rfl

@[simp] theorem release_tags : (release s p).tags = s.tags := by
  unfold release
  split <;> rfl

@[simp] theorem release_ports : (release s p).ports = s.ports := by
  unfold release
  split <;> rfl

@[simp] theorem release_handles : (release s p).handles = s.handles := by
  unfold release
  split <;> rfl

@[simp] theorem release_rawHandle : (release s p).rawHandle = s.rawHandle := by
  unfold release
  split <;> rfl

/-- Only the last reference takes the tables with it. -/
theorem release_tables (h : Counted s.count s.refs)
    (hlast : q = p → 1 < s.refs.count p) : SameTables s (release s p) q := by
  refine ⟨by simp, ?_, ?_⟩ <;> unfold release <;> split <;> try rfl
  all_goals
    rename_i hone
    cases hc : s.count p with
    | none => simp [hc] at hone
    | some c =>
      have hne : q ≠ p := fun hqp => by
        have hstrong := (h.of p c hc).1
        have := hlast hqp
        simp only [hc, Option.any_some, decide_eq_true_eq] at hone
        omega
      exact Function.update_of_ne hne ..

/-- A new reference to an open port. -/
theorem retain_step {ports handles : List P} (h : Inv s) (hp : p ∈ s.refs)
    (hperm : (p :: s.refs).Perm (ports ++ handles)) :
    Inv { retain s p with ports := ports, handles := handles } ∧
      (Sound s → Sound { retain s p with ports := ports, handles := handles }) := by
  have hrefs : ∀ q ∈ ports ++ handles, q ∈ s.refs := fun q hq => by
    rcases List.mem_cons.mp (hperm.symm.subset hq) with rfl | hq
    · exact hp
    · exact hq
  refine ⟨h.of_refs ?_ (fun _ => modifyCount_ne_none.mpr) rfl rfl hrefs, fun hsound q hq => ?_⟩
  · exact (h.counted.retain hp).perm hperm
  · exact (hsound q (hrefs q hq)).of_same rfl ⟨rfl, rfl, rfl⟩

/-- A reference less. -/
theorem release_step {ports handles : List P} (h : Inv s)
    (hperm : s.refs.Perm (p :: (ports ++ handles))) :
    Inv { release s p with ports := ports, handles := handles } ∧
      (Sound s → Sound { release s p with ports := ports, handles := handles }) := by
  have hrefs : ∀ q ∈ ports ++ handles, q ∈ s.refs := fun q hq =>
    hperm.symm.subset (List.mem_cons_of_mem _ hq)
  refine ⟨h.of_refs ?_ (fun q hq => ?_) ?_ ?_ hrefs, fun hsound q hq => ?_⟩
  · rw [release_count]
    exact (h.counted.perm hperm).release
  · rw [release_count]
    exact modifyCount_ne_none.mpr hq
  · exact release_tags
  · exact release_rawHandle
  · have hsame := release_tables (p := p) (q := q) h.counted fun hqp => by
      rw [hperm.count_eq, List.count_cons_self, ← hqp]
      have : 0 < (ports ++ handles).count q := List.count_pos_iff.mpr hq
      omega
    exact (hsound q (hrefs q hq)).of_same release_tags
      ⟨hsame.rawHandle, hsame.eventTable, hsame.queue⟩

theorem new_inv {raw : ℕ} (h : Inv s) (hp : s.count p = none)
    (hraw : ∀ q ∈ s.refs, s.rawHandle q ≠ raw) : Inv (new s p raw) where
  counted := h.counted.create hp
  maker tag hmem := by
    have := h.maker tag hmem
    by_cases htag : tag.maker = p
    · simp [new, htag]
    · simpa [new, htag] using this
  distinct q hq q' hq' he := by
    have hfresh := h.counted.fresh hp
    have hmem : ∀ r ∈ (new s p raw).refs, r = p ∨ r ≠ p ∧ r ∈ s.refs := fun r hr => by
      rcases List.mem_cons.mp hr with rfl | hr
      · exact .inl rfl
      · exact .inr ⟨fun hrp => hfresh (hrp ▸ hr), hr⟩
    rcases hmem q hq with rfl | ⟨hqp, hqs⟩ <;> rcases hmem q' hq' with rfl | ⟨hqp', hqs'⟩
    · rfl
    · simp only [new, Function.update_self, Function.update_of_ne hqp'] at he
      exact absurd he.symm (hraw q' hqs')
    · simp only [new, Function.update_self, Function.update_of_ne hqp] at he
      exact absurd he (hraw q hqs)
    · simp only [new, Function.update_of_ne hqp, Function.update_of_ne hqp'] at he
      exact h.distinct q hqs q' hqs' he

/-- A new port is sound exactly when no tag carries its handle value. -/
theorem new_sound {raw : ℕ} (h : Inv s) (hsound : Sound s) (hp : s.count p = none) :
    Sound (new s p raw) ↔ ∀ tag ∈ s.tags, tag.iocpId ≠ raw := by
  have hfresh := h.counted.fresh hp
  constructor
  · intro hnew tag hmem hid
    have hpasses : passes (new s p raw) p tag = true := by simp [new, hid]
    have hmaker := ((hnew p (List.mem_cons_self ..)).tag tag hmem hpasses).1
    exact h.maker tag hmem (hmaker ▸ hp)
  · intro hids q hq
    by_cases hqp : q = p
    · subst hqp
      refine ⟨fun tag hmem hpasses => ?_, by simp [new]⟩
      simp only [passes_iff, new, Function.update_self] at hpasses
      exact absurd hpasses (hids tag hmem)
    · have hq : q ∈ s.refs := (List.mem_cons.mp hq).resolve_left hqp
      exact (hsound q hq).of_same rfl ⟨Function.update_of_ne hqp .., Function.update_of_ne hqp ..,
        Function.update_of_ne hqp ..⟩

theorem newCustomEvent_step {ptr : ℕ} (h : Inv s) (hp : p ∈ s.refs) :
    Inv (newCustomEvent s p ptr) ∧ (Sound s → Sound (newCustomEvent s p ptr)) := by
  have htable : ∀ q ptr', ptr' ∈ s.eventTable q → ptr' ∈ (newCustomEvent s p ptr).eventTable q := by
    intro q ptr' hmem
    by_cases hqp : q = p
    · subst hqp
      simp [newCustomEvent, hmem]
    · simpa [newCustomEvent, hqp] using hmem
  refine ⟨⟨h.counted, fun tag hmem => ?_, h.distinct⟩, fun hsound q hq =>
    ⟨fun tag hmem hpasses => ?_, fun packet hmem => htable _ _ ((hsound q hq).packet packet hmem)⟩⟩
  · rcases List.mem_cons.mp hmem with rfl | hmem
    · exact h.counted.known p hp
    · exact h.maker tag hmem
  · rcases List.mem_cons.mp hmem with rfl | hmem
    · obtain rfl : p = q := h.distinct p hp q hq (passes_iff.mp hpasses)
      exact ⟨rfl, by simp [newCustomEvent]⟩
    · obtain ⟨hmaker, hptr⟩ := (hsound q hq).tag tag hmem hpasses
      exact ⟨hmaker, htable _ _ hptr⟩

theorem post_step {data : ℕ} {ok : Bool} (h : Inv s) (htag : tag ∈ s.tags) :
    Inv (post s p tag data ok) ∧ (Sound s → Sound (post s p tag data ok)) := by
  unfold post
  split
  · rename_i hpasses
    refine ⟨⟨h.counted, h.maker, h.distinct⟩, fun hsound q hq =>
      ⟨(hsound q hq).tag, fun packet hmem => ?_⟩⟩
    by_cases hqp : q = p
    · subst hqp
      simp only [Function.update_self, List.mem_append, List.mem_singleton] at hmem
      rcases hmem with hmem | rfl
      · exact (hsound q hq).packet packet hmem
      · exact ((hsound q hq).tag tag htag hpasses.1).2
    · simp only [Function.update_of_ne hqp] at hmem
      exact (hsound q hq).packet packet hmem
  · exact ⟨h, id⟩

theorem poll_step {packet : Packet} {rest : List Packet} (h : Inv s) (hp : p ∈ s.refs)
    (hqueue : s.queue p = packet :: rest) :
    Inv (poll s p packet rest) ∧ (Sound s → Sound (poll s p packet rest)) := by
  refine ⟨⟨h.counted, fun tag hmem => ?_, h.distinct⟩, fun hsound q hq =>
    ⟨fun tag hmem hpasses => ?_, fun packet' hmem => ?_⟩⟩
  · rcases List.mem_cons.mp hmem with rfl | hmem
    · exact h.counted.known p hp
    · exact h.maker tag hmem
  · rcases List.mem_cons.mp hmem with rfl | hmem
    · obtain rfl : p = q := h.distinct p hp q hq (passes_iff.mp hpasses)
      exact ⟨rfl, (hsound p hp).packet packet (by simp [hqueue])⟩
    · exact (hsound q hq).tag tag hmem hpasses
  · by_cases hqp : q = p
    · subst hqp
      simp only [poll, Function.update_self] at hmem
      exact (hsound q hq).packet packet' (hqueue ▸ List.mem_cons_of_mem _ hmem)
    · simp only [poll, Function.update_of_ne hqp] at hmem
      exact (hsound q hq).packet packet' hmem

omit [DecidableEq P] in
theorem mem_refs_of_ports (hp : p ∈ s.ports) : p ∈ s.refs := List.mem_append_left _ hp

omit [DecidableEq P] in
theorem mem_refs_of_handles (hp : p ∈ s.handles) : p ∈ s.refs := List.mem_append_right _ hp

/-- What a step other than the creation of a port keeps. -/
theorem step_keeps (h : Inv s) (hs : step s a = some t) (ha : ∀ p raw, a ≠ .new p raw) :
    Inv t ∧ (Sound s → Sound t) := by
  cases a <;> simp only [step, Option.ite_none_right_eq_some, Option.some.injEq] at hs
  case new p raw => exact absurd rfl (ha p raw)
  case clone p =>
    obtain ⟨hp, rfl⟩ := hs
    exact retain_step h (mem_refs_of_ports hp) .rfl
  case handle p =>
    obtain ⟨hp, rfl⟩ := hs
    exact retain_step h (mem_refs_of_ports hp) List.perm_middle.symm
  case cloneHandle p =>
    obtain ⟨hp, rfl⟩ := hs
    exact retain_step h (mem_refs_of_handles hp) List.perm_middle.symm
  case dropPort p =>
    obtain ⟨hp, rfl⟩ := hs
    refine release_step h ?_
    rw [release_handles]
    exact (List.perm_cons_erase hp).append_right _
  case dropHandle p =>
    obtain ⟨hp, rfl⟩ := hs
    refine release_step h ?_
    rw [release_ports]
    exact ((List.perm_cons_erase hp).append_left _).trans List.perm_middle
  case newCustomEvent p ptr =>
    obtain ⟨⟨hp, -, -⟩, rfl⟩ := hs
    exact newCustomEvent_step h (mem_refs_of_ports hp)
  case post p tag data ok =>
    obtain ⟨⟨-, htag⟩, rfl⟩ := hs
    exact post_step h htag
  case poll p =>
    obtain ⟨hp, hs⟩ := hs
    split at hs
    · cases hs
    · rename_i hqueue
      exact Option.some.inj hs ▸ poll_step h (mem_refs_of_ports hp) hqueue

theorem of_step_new {raw : ℕ} (hs : step s (.new p raw) = some t) :
    s.count p = none ∧ (∀ q ∈ s.refs, s.rawHandle q ≠ raw) ∧ t = new s p raw := by
  simp only [step, Option.isNone_iff_eq_none, Option.ite_none_right_eq_some,
    Option.some.injEq] at hs
  exact ⟨hs.1.1, hs.1.2, hs.2.symm⟩

theorem step_inv (h : Inv s) (hs : step s a = some t) : Inv t := by
  cases a
  case new p raw =>
    obtain ⟨hp, hraw, rfl⟩ := of_step_new hs
    exact new_inv h hp hraw
  all_goals exact (step_keeps h hs (by simp)).1

theorem reachable_inv (h : (machine P).Reachable s) : Inv s :=
  h.invariant (fun _ hs => hs ▸ initial_inv) fun _ _ _ _ hi _ hs => step_inv hi hs

theorem step_sound (h : Inv s) (hsound : Sound s) (hs : step s a = some t) :
    Sound t ↔ FreshId s a := by
  cases a
  case new p raw =>
    obtain ⟨hp, -, rfl⟩ := of_step_new hs
    exact new_sound h hsound hp
  all_goals exact ⟨fun _ => trivial, fun _ => (step_keeps h hs (by simp)).2 hsound⟩

/-- Tags are sound identities throughout a run exactly when no new port gets the handle value of a
closed one that has made a tag. -/
theorem sound_iff_freshId {as : List (Act P)} (hrun : (machine P).exec initial as = some s) :
    (machine P).Throughout Sound initial as ↔ (machine P).Every FreshId initial as :=
  Machine.throughout_iff_every
    (fun _ _ _ hreached hsound hs => step_sound (reachable_inv hreached.reachable) hsound hs)
    (.init rfl) (fun _ hp => by cases hp) hrun

end Proofs

/-- A port with a custom event is closed, and then another one is created. -/
def reopen (raw : ℕ) : List (Act ℕ) :=
  [.new 0 4, .newCustomEvent 0 64, .handle 0, .post 0 ⟨64, 4, 0⟩ 7 true, .poll 0, .dropHandle 0,
    .dropPort 0, .new 1 raw, .handle 1]

theorem sound_iff_freshId_reopen : ∃ s, (machine ℕ).exec initial (reopen 8) = some s ∧
    (machine ℕ).Throughout Sound initial (reopen 8) :=
  ⟨_, rfl, (sound_iff_freshId (show (machine ℕ).exec initial (reopen 8) = some _ from rfl)).mpr <|
    .cons (by simp [FreshId, initial]) rfl <| .cons trivial rfl <| .cons trivial rfl <|
    .cons trivial rfl <| .cons trivial rfl <| .cons trivial rfl <| .cons trivial rfl <|
    .cons (show ∀ tag ∈ _, _ from by decide) rfl <| .cons trivial rfl trivial⟩

/-- The new port gets the same handle value: the old tag passes its comparison, and its packet has
a token that is no handler of this port. -/
theorem stale_tag_posted :
    (∃ s, (machine ℕ).exec initial (reopen 4 ++ [.post 1 ⟨64, 4, 0⟩ 7 true]) = some s ∧
      passes s 1 ⟨64, 4, 0⟩ = true ∧ s.queue 1 = [⟨64, 7⟩] ∧ s.eventTable 1 = [] ∧ ¬ Sound s) ∧
    ¬ ∀ s, (machine ℕ).Reachable s → Sound s := by
  have hrun : ∃ s, (machine ℕ).exec initial (reopen 4 ++ [.post 1 ⟨64, 4, 0⟩ 7 true]) = some s ∧
      passes s 1 ⟨64, 4, 0⟩ = true ∧ s.queue 1 = [⟨64, 7⟩] ∧ s.eventTable 1 = [] ∧ ¬ Sound s := by
    refine ⟨_, rfl, rfl, rfl, rfl, fun h => ?_⟩
    exact absurd ((h 1 (by decide)).packet ⟨64, 7⟩ (by decide)) (by decide)
  refine ⟨hrun, fun h => ?_⟩
  obtain ⟨s, hrun, -, -, -, hunsound⟩ := hrun
  exact hunsound (h s (Machine.reachable_of_exec rfl hrun))

end CompleteIo.CompletionPort
