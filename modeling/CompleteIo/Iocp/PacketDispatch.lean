import CompleteIo.Lib.Channel
import CompleteIo.Iocp.EventTags

namespace CompleteIo.PacketDispatch

open CompletionPort (Packet FUTURE_NOTIFY_IOCP_TOKEN)

/-- The address of a handler and the datum that it is called with, if the packet is a custom
one. -/
def custom (packet : Packet) : Option (ℕ × ℕ) :=
  if packet.token = FUTURE_NOTIFY_IOCP_TOKEN then none else some (packet.token, packet.data)

/-- The `OVERLAPPED` that has completed, if the packet is that of an operation. -/
def completion (packet : Packet) : Option ℕ :=
  if packet.token = FUTURE_NOTIFY_IOCP_TOKEN then some packet.data else none

structure State (W : Type*) where
  packets : Channel Packet
  eventTable : List ℕ
  -- The posts that succeeded, and the operations that have completed.
  posts : List (ℕ × ℕ)
  completions : List ℕ
  inHand : List (W × Packet)
  dispatched : List Packet
  calling : List W
  calls : List (ℕ × ℕ)
  notified : List ℕ

inductive Act (W : Type*)
  | newCustomEvent (ptr : ℕ)
  | postCustomEvent (ptr data : ℕ)
  | complete (overlapped : ℕ)
  | dequeue (w : W) (packet : Packet)
  | dispatch (w : W) (packet : Packet)
  | handlerEnd (w : W)

variable {W : Type*}

def initial : State W where
  packets := .empty
  eventTable := []
  posts := []
  completions := []
  inHand := []
  dispatched := []
  calling := []
  calls := []
  notified := []

def State.queued (s : State W) : List Packet := s.packets.sent.drop s.packets.received.length

section Step

variable [DecidableEq W]

def dispatch (s : State W) (w : W) (packet : Packet) : State W :=
  { s with
    inHand := s.inHand.erase (w, packet)
    dispatched := s.dispatched ++ [packet]
    calling := if (custom packet).isSome then w :: s.calling else s.calling
    calls := s.calls ++ (custom packet).toList
    notified := s.notified ++ (completion packet).toList }

def step (s : State W) : Act W → Option (State W)
  -- The address of a box is no odd number.
  | .newCustomEvent ptr =>
    if ptr ≠ FUTURE_NOTIFY_IOCP_TOKEN then some { s with eventTable := s.eventTable ++ [ptr] }
    else none
  | .postCustomEvent ptr data =>
    if ptr ∈ s.eventTable then
      some { s with packets := s.packets.send ⟨ptr, data⟩, posts := s.posts ++ [(ptr, data)] }
    else none
  | .complete overlapped =>
    some { s with
      packets := s.packets.send ⟨FUTURE_NOTIFY_IOCP_TOKEN, overlapped⟩
      completions := s.completions ++ [overlapped] }
  -- A thread asks for one packet at a time; a handler may do so again, by a `turn` of its own.
  | .dequeue w packet =>
    if w ∉ s.inHand.map Prod.fst then
      (s.packets.receiveAll [packet]).map fun packets =>
        { s with packets := packets, inHand := s.inHand ++ [(w, packet)] }
    else none
  | .dispatch w packet =>
    if (w, packet) ∈ s.inHand then some (dispatch s w packet) else none
  | .handlerEnd w =>
    if w ∈ s.calling then some { s with calling := s.calling.erase w } else none

def machine (W : Type*) [DecidableEq W] : Machine (State W) (Act W) where
  init s := s = initial
  step := step

end Step

structure Inv (s : State W) : Prop where
  table : ∀ ptr ∈ s.eventTable, ptr ≠ FUTURE_NOTIFY_IOCP_TOKEN
  posts : s.packets.sent.filterMap custom = s.posts
  completions : s.packets.sent.filterMap completion = s.completions
  received : (s.dispatched ++ s.inHand.map Prod.snd).Perm s.packets.received
  calls : s.dispatched.filterMap custom = s.calls
  notified : s.dispatched.filterMap completion = s.notified
  -- Each thread has one packet at most, so that a single one dispatches them in order.
  single : (∀ v w : W, v = w) →
    s.dispatched ++ s.inHand.map Prod.snd = s.packets.received ∧ s.inHand.length ≤ 1

variable {s t : State W} {a : Act W}

theorem send_inv {packet : Packet} {posts : List (ℕ × ℕ)} {completions : List ℕ} (h : Inv s)
    (hposts : posts = s.posts ++ (custom packet).toList)
    (hcompletions : completions = s.completions ++ (completion packet).toList) :
    Inv { s with
      packets := s.packets.send packet, posts := posts, completions := completions } :=
  { h with
    posts := by
      rw [hposts, ← h.posts]
      cases hcustom : custom packet <;> simp [Channel.send, hcustom]
    completions := by
      rw [hcompletions, ← h.completions]
      cases hcompletion : completion packet <;> simp [Channel.send, hcompletion] }

theorem dequeue_inv {w : W} {packet : Packet} {packets : Channel Packet} (h : Inv s)
    (hw : w ∉ s.inHand.map Prod.fst) (hreceive : s.packets.receiveAll [packet] = some packets) :
    Inv { s with packets := packets, inHand := s.inHand ++ [(w, packet)] } := by
  obtain ⟨hsent, hreceived⟩ := Channel.receiveAll_eq_some hreceive
  refine { h with
    posts := hsent ▸ h.posts, completions := hsent ▸ h.completions, received := ?_
    single := fun hone => ?_ }
  · rw [List.map_append, ← List.append_assoc, hreceived]
    exact h.received.append_right _
  · obtain ⟨horder, hlength⟩ := h.single hone
    have hempty : s.inHand = [] := List.eq_nil_iff_forall_not_mem.mpr fun e he =>
      hw (List.mem_map.mpr ⟨e, he, hone e.1 w⟩)
    rw [List.map_append, ← List.append_assoc, horder, hreceived]
    exact ⟨rfl, by simp [hempty]⟩

variable [DecidableEq W]

theorem dispatch_inv {w : W} {packet : Packet} (h : Inv s) (hw : (w, packet) ∈ s.inHand) :
    Inv (dispatch s w packet) := by
  refine { h with
    received := ?_, calls := ?_, notified := ?_, single := fun hone => ?_ }
  · have hperm := (List.perm_cons_erase hw).map Prod.snd
    refine .trans ?_ h.received
    rw [dispatch, List.append_assoc]
    exact hperm.symm.append_left _
  · cases hcustom : custom packet <;> simp [dispatch, hcustom, h.calls]
  · cases hcompletion : completion packet <;> simp [dispatch, hcompletion, h.notified]
  · obtain ⟨horder, hlength⟩ := h.single hone
    have hinHand : s.inHand = [(w, packet)] := by
      cases hlist : s.inHand with
      | nil => simp [hlist] at hw
      | cons e rest =>
        rw [hlist] at hw hlength
        obtain rfl : rest = [] := List.length_eq_zero_iff.mp (Nat.le_zero.mp
          (Nat.le_of_succ_le_succ hlength))
        rw [List.mem_singleton.mp hw]
    rw [hinHand] at horder
    simpa [dispatch, hinHand] using horder

theorem step_packetInv (h : Inv s) (hs : step s a = some t) : Inv t := by
  cases a <;> simp only [step, Option.ite_none_right_eq_some, Option.some.injEq] at hs
  case newCustomEvent ptr =>
    obtain ⟨hptr, rfl⟩ := hs
    refine { h with table := fun p hp => ?_ }
    rcases List.mem_append.mp hp with hp | hp
    · exact h.table p hp
    · rw [List.mem_singleton.mp hp]
      exact hptr
  case postCustomEvent ptr data =>
    obtain ⟨hptr, rfl⟩ := hs
    have hne : ptr ≠ FUTURE_NOTIFY_IOCP_TOKEN := h.table ptr hptr
    exact send_inv h (by simp [custom, hne]) (by simp [completion, hne])
  case complete overlapped =>
    subst hs
    exact send_inv h (by simp [custom]) (by simp [completion])
  case dequeue w packet =>
    obtain ⟨hw, hs⟩ := hs
    obtain ⟨packets, hreceive, rfl⟩ := Option.map_eq_some_iff.mp hs
    exact dequeue_inv h hw hreceive
  case dispatch w packet =>
    obtain ⟨hw, rfl⟩ := hs
    exact dispatch_inv h hw
  case handlerEnd w =>
    obtain ⟨-, rfl⟩ := hs
    exact { h with }

theorem reachable_packetInv (hr : (machine W).Reachable s) : Inv s := by
  refine hr.invariant (fun s hs => ?_) fun _ _ _ _ h _ hs => step_packetInv h hs
  obtain rfl : s = initial := hs
  exact ⟨nofun, rfl, rfl, .nil, rfl, rfl, fun _ => ⟨rfl, Nat.zero_le _⟩⟩

/-- A post is passed to a handler once, and a completion to its task once, unless a thread has it
in hand or it is queued; neither is taken for the other. A single thread keeps to the order. -/
theorem packets_dispatched (hr : (machine W).Reachable s) :
    (s.calls ++ (s.inHand.map Prod.snd ++ s.queued).filterMap custom).Perm s.posts ∧
      (s.notified ++ (s.inHand.map Prod.snd ++ s.queued).filterMap completion).Perm
        s.completions ∧
      ((∀ v w : W, v = w) →
        s.calls ++ (s.inHand.map Prod.snd ++ s.queued).filterMap custom = s.posts) := by
  have h := reachable_packetInv hr
  have hsent : s.packets.received ++ s.queued = s.packets.sent := by
    obtain ⟨rest, hrest⟩ := s.packets.inOrder
    rw [State.queued, ← hrest, List.drop_left]
  have hperm := h.received.append_right s.queued
  rw [hsent, List.append_assoc] at hperm
  refine ⟨?_, ?_, fun hone => ?_⟩
  · rw [← h.calls, ← h.posts, ← List.filterMap_append]
    exact hperm.filterMap custom
  · rw [← h.notified, ← h.completions, ← List.filterMap_append]
    exact hperm.filterMap completion
  · rw [← h.calls, ← h.posts, ← List.filterMap_append, ← List.append_assoc,
      (h.single hone).1, hsent]

/-- Two events are posted while an operation completes; of two threads the second is the first one
to call its handler, and both calls are under way at once. -/
def overtaken : List (Act Bool) :=
  [.newCustomEvent 64, .postCustomEvent 64 7, .complete 48, .postCustomEvent 64 8,
    .dequeue false ⟨64, 7⟩, .dequeue true ⟨1, 48⟩, .dispatch true ⟨1, 48⟩,
    .dequeue true ⟨64, 8⟩, .dispatch true ⟨64, 8⟩, .dispatch false ⟨64, 7⟩]

theorem overtaken_dispatched : ∃ s, (machine Bool).exec initial overtaken = some s ∧
    s.posts = [(64, 7), (64, 8)] ∧ s.calls = [(64, 8), (64, 7)] ∧ s.calling = [false, true] ∧
    s.calls.Perm s.posts := by
  have hrun : (machine Bool).exec initial overtaken = some _ := rfl
  have hdispatched := (packets_dispatched (Machine.reachable_of_exec rfl hrun)).1
  exact ⟨_, hrun, rfl, rfl, rfl, hdispatched⟩

end CompleteIo.PacketDispatch
