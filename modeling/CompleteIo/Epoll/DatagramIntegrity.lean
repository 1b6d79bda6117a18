import CompleteIo.Epoll.SocketTraffic
import CompleteIo.Lib.Network

namespace CompleteIo.UdpSockets

open ReadBuffer (BytesMut)
open SocketTraffic (Protocol)
open WriteFutures (Poll)

variable {R W S A ι : Type*}

structure Datagram (A : Type*) where
  payload : List UInt8
  source : A
  dest : A
  deriving DecidableEq

abbrev State (R W S A ι : Type*) :=
  SocketTraffic.State R W S A ι (S × BytesMut × ℕ × A) (S × List UInt8) (Network (Datagram A))

abbrev Act (R W S A ι : Type*) := SocketTraffic.Act R W S A A ι (Network.Event (Datagram A))

/-- The kernel sends a datagram whole, and hands out one that is addressed to the socket, cut off
at the end of the buffer. -/
def udp [DecidableEq A] (addr : S → A) :
    Protocol S A A (S × BytesMut × ℕ × A) (S × List UInt8) (Network (Datagram A))
      (Network.Event (Datagram A)) where
  item := ReadInPlace.RecvFrom.item
  finish := WriteFutures.SendTo.finish
  reports socket buffer byteCount := by
    unfold WriteFutures.SendTo.finish
    split <;> rfl
  recv network socket _ payload source := network.deliver ⟨payload, source, addr socket⟩
  send network socket buffer dest byteCount :=
    if byteCount = buffer.length then some (network.send ⟨buffer, addr socket, dest⟩) else none
  network := Network.event

/-- UDP sockets on a network that may reorder, lose and copy datagrams. -/
def machine [DecidableEq R] [DecidableEq W] [DecidableEq A] (addr : S → A) :
    Machine (State R W S A ι) (Act R W S A ι) :=
  SocketTraffic.machine (udp addr) .empty

/-- A `RecvFrom` resolved with this datagram: its source and as much of it as the buffer holds. -/
structure Returns (addr : S → A) (item : S × BytesMut × ℕ × A) (d : Datagram A) : Prop where
  dest : addr item.1 = d.dest
  source : item.2.2.2 = d.source
  byteCount : item.2.2.1 = min d.payload.length item.2.1.capacity
  bytes : item.2.1.contents.take item.2.2.1 = d.payload.take item.2.1.capacity

/-- A `SendTo` among the actions so far resolved after it sent this datagram: its own buffer, from
its socket to its address. -/
def Resolves (addr : S → A) (past : List (Act R W S A ι)) (result : Poll (S × List UInt8))
    (d : Datagram A) : Prop :=
  ∃ w socket, .write w socket d.payload d.dest ∈ past ∧ result = .ready (socket, d.payload) ∧
    d.source = addr socket

structure Inv (addr : S → A) (past : List (Act R W S A ι)) (s : State R W S A ι) : Prop where
  sends : List.Forall₂ (Resolves addr past) s.writes s.kernel.sent
  receives : List.Forall₂ (Returns addr) s.reads s.kernel.delivered
  asked : ∀ w socket buffer dest interest,
    s.writer w = some (.pending socket buffer dest interest) →
      .write w socket buffer dest ∈ past

theorem capacity_grow {b : BytesMut} {written : List UInt8} (h : written.length ≤ b.capacity) :
    (b.grow written).capacity = b.capacity := by
  have hlen : (written ++ b.memory.drop written.length).length = b.memory.length := by
    rw [List.length_append, List.length_drop]
    exact Nat.add_sub_cancel' h
  unfold BytesMut.grow
  split <;> exact hlen

theorem returns_item {addr : S → A} {socket : S} {buffer : BytesMut} {payload : List UInt8}
    {source : A} :
    Returns addr (ReadInPlace.RecvFrom.item socket (buffer.grow (payload.take buffer.capacity))
      (payload.take buffer.capacity).length source) ⟨payload, source, addr socket⟩ := by
  have hcapacity := capacity_grow (b := buffer) (List.length_take_le buffer.capacity payload)
  refine ⟨rfl, rfl, ?_, ?_⟩
  · simp only [ReadInPlace.RecvFrom.item, hcapacity, List.length_take]
    exact Nat.min_comm ..
  · simp only [ReadInPlace.RecvFrom.item, hcapacity]
    rw [BytesMut.contents_grow, List.take_left]

theorem exists_of_forall₂ {α β : Type*} {r : α → β → Prop} {l : List α} {u : List β}
    (h : List.Forall₂ r l u) {x : α} (hx : x ∈ l) : ∃ y ∈ u, r x y := by
  induction h with
  | nil => cases hx
  | cons hr _ ih =>
    rcases List.mem_cons.mp hx with rfl | hx
    · exact ⟨_, List.mem_cons_self .., hr⟩
    · obtain ⟨y, hy, hr⟩ := ih hx
      exact ⟨y, List.mem_cons_of_mem _ hy, hr⟩

theorem Resolves.mono {addr : S → A} {past more : List (Act R W S A ι)}
    {result : Poll (S × List UInt8)} {d : Datagram A} (h : Resolves addr past result d) :
    Resolves addr (past ++ more) result d := by
  obtain ⟨w, socket, hasked, hresult⟩ := h
  exact ⟨w, socket, List.mem_append_left _ hasked, hresult⟩

variable [DecidableEq R] [DecidableEq W] [DecidableEq A] {addr : S → A}
  {s t : State R W S A ι} {a : Act R W S A ι} {past as : List (Act R W S A ι)}

theorem step_asked (h : Inv addr past s) (hs : SocketTraffic.step (udp addr) s a = some t)
    (w : W) (socket : S) (buffer : List UInt8) (dest : A) (interest : Option ι)
    (hw : t.writer w = some (.pending socket buffer dest interest)) :
    .write w socket buffer dest ∈ past ++ [a] := by
  rcases SocketTraffic.pending_of_step hs hw with rfl | ⟨interest', hw'⟩
  · simp
  · exact List.mem_append_left _ (h.asked w socket buffer dest interest' hw')

theorem step_inv (h : Inv addr past s) (hs : SocketTraffic.step (udp addr) s a = some t) :
    Inv addr (past ++ [a]) t := by
  have hsends : List.Forall₂ (Resolves addr (past ++ [a])) s.writes s.kernel.sent :=
    h.sends.imp fun _ _ => Resolves.mono
  refine ⟨?_, ?_, step_asked h hs⟩ <;> cases SocketTraffic.step_transfers hs
  case refine_1.idle hkernel _ hwrites => rwa [hkernel, hwrites]
  case refine_2.idle hkernel hreads _ =>
    rw [hkernel, hreads]
    exact h.receives
  case refine_1.network e hkernel _ hwrites => rwa [(Network.event_eq_some hkernel).1, hwrites]
  case refine_2.network e hkernel hreads _ =>
    rw [(Network.event_eq_some hkernel).2, hreads]
    exact h.receives
  case refine_1.received hkernel _ hwrites => rwa [(Network.deliver_eq_some hkernel).1, hwrites]
  case refine_2.received hkernel hreads _ =>
    rw [(Network.deliver_eq_some hkernel).2, hreads]
    exact List.rel_append h.receives (.cons returns_item .nil)
  case refine_1.sent w socket buffer dest byteCount interest hpending hkernel _ hwrites =>
    obtain ⟨hwhole, hkernel⟩ := Option.ite_none_right_eq_some.mp hkernel
    have hasked := h.asked w socket buffer dest interest hpending
    have hresolves : Resolves addr (past ++ [a]) ((udp addr).finish socket buffer byteCount)
        ⟨buffer, addr socket, dest⟩ :=
      ⟨w, socket, List.mem_append_left _ hasked, if_neg (not_not.mpr hwhole), rfl⟩
    rw [← Option.some.inj hkernel, hwrites]
    change List.Forall₂ _ _ (_ ++ [_])
    exact List.rel_append hsends (.cons hresolves .nil)
  case refine_2.sent hkernel hreads _ =>
    obtain ⟨-, hkernel⟩ := Option.ite_none_right_eq_some.mp hkernel
    rw [← Option.some.inj hkernel, hreads]
    exact h.receives

theorem exec_datagrams (hrun : (machine addr).exec (SocketTraffic.initial .empty) as = some s) :
    Inv addr as s := by
  have hinit : Inv addr [] (SocketTraffic.initial .empty : State R W S A ι) :=
    ⟨.nil, .nil, fun _ _ _ _ _ hw => by cases hw⟩
  exact Machine.exec_history hinit (fun _ _ _ _ h hs => step_inv h hs) hrun

/-- Every `SendTo` that sent its datagram resolves, none with `WriteZero`, and the datagram was its
whole buffer, to its own address; every datagram that a socket was handed is returned by one
`RecvFrom`, cut off at the end of its buffer; and each that is returned was sent to this socket
from the address given, by a `SendTo` that resolved. -/
theorem datagrams_intact
    (hrun : (machine addr).exec (SocketTraffic.initial .empty) as = some s) :
    List.Forall₂ (Resolves addr as) s.writes s.kernel.sent ∧
      List.Forall₂ (Returns addr) s.reads s.kernel.delivered ∧
      (∀ item ∈ s.reads, ∃ d, Returns addr item d ∧
        ∃ result ∈ s.writes, Resolves addr as result d) ∧
      (s.kernel.copied = [] → ∀ d, s.kernel.delivered.count d ≤ s.kernel.sent.count d) := by
  obtain ⟨hsends, hreceives, -⟩ := exec_datagrams hrun
  refine ⟨hsends, hreceives, fun item hitem => ?_, s.kernel.count_delivered_le⟩
  obtain ⟨d, hd, hreturns⟩ := exists_of_forall₂ hreceives hitem
  obtain ⟨result, hresult, hresolves⟩ :=
    exists_of_forall₂ hsends.flip (s.kernel.delivered_subset hd)
  exact ⟨d, hreturns, result, hresult, hresolves⟩

/-- Two datagrams are sent from port 7 to port 9 and arrive the other way round, one of them cut
off; the read of the first would have blocked before. -/
def reordered : List (Act ℕ ℕ ℕ ℕ Unit) :=
  [.read 0 9 ⟨[0, 0], 2, false, by decide⟩, .pollRead 0 ⟨false, .wouldBlock (.ok ())⟩,
    .write 0 7 [1, 2, 3] 9, .pollWrite 0 ⟨false, .sent 3⟩, .write 1 7 [4] 9,
    .pollWrite 1 ⟨false, .sent 1⟩, .read 1 9 ⟨[0, 0], 0, false, by decide⟩,
    .pollRead 1 ⟨false, .received [4] 7⟩, .pollRead 0 ⟨true, .received [1, 2, 3] 7⟩]

theorem reordered_intact : ∃ s : State ℕ ℕ ℕ ℕ Unit,
    (machine id).exec (SocketTraffic.initial .empty) reordered = some s ∧
      s.reads =
        [(9, ⟨[4, 0], 1, false, by decide⟩, 1, 7), (9, ⟨[1, 2], 2, false, by decide⟩, 2, 7)] ∧
      List.Forall₂ (Resolves id reordered) s.writes s.kernel.sent ∧
      List.Forall₂ (Returns id) s.reads s.kernel.delivered := by
  have hrun : (machine (ι := Unit) id).exec
    (SocketTraffic.initial .empty : State ℕ ℕ ℕ ℕ Unit) reordered = some _ := rfl
  obtain ⟨hsends, hreceives, -⟩ := datagrams_intact hrun
  exact ⟨_, hrun, by decide, hsends, hreceives⟩

end CompleteIo.UdpSockets
