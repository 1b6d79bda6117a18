import CompleteIo.Lib.Channel
import CompleteIo.Epoll.SocketTraffic

namespace CompleteIo.TcpConnections

open ReadBuffer (BytesMut)
open SocketTraffic (Protocol)
open WriteFutures (Poll)

variable {R W S C ι : Type*}

structure Streams (S C : Type*) where
  inbound : S → C
  outbound : S → C

abbrev State (R W S C ι : Type*) :=
  SocketTraffic.State R W S Unit ι (S × BytesMut × ℕ) (S × List UInt8 × ℕ) (C → Channel UInt8)

abbrev Act (R W S ι : Type*) := SocketTraffic.Act R W S Unit Unit ι Empty

/-- `recv` gives the next bytes, at most as many as the buffer can hold, and `send` accepts the
first bytes of its buffer. -/
def tcp [DecidableEq C] (streams : Streams S C) :
    Protocol S Unit Unit (S × BytesMut × ℕ) (S × List UInt8 × ℕ) (C → Channel UInt8) Empty where
  item := ReadInPlace.TcpRead.item
  finish := WriteFutures.TcpWrite.finish
  reports _ _ _ := rfl
  recv kernel socket capacity payload _ :=
    if payload.length ≤ capacity then
      ((kernel (streams.inbound socket)).receiveAll payload).map
        (Function.update kernel (streams.inbound socket))
    else none
  send kernel socket buffer _ byteCount :=
    if byteCount ≤ buffer.length then
      some (Function.update kernel (streams.outbound socket)
        ((kernel (streams.outbound socket)).sendAll (buffer.take byteCount)))
    else none
  network _ e := nomatch e

def initial : State R W S C ι := SocketTraffic.initial fun _ => .empty

def machine [DecidableEq R] [DecidableEq W] [DecidableEq C] (streams : Streams S C) :
    Machine (State R W S C ι) (Act R W S ι) :=
  SocketTraffic.machine (tcp streams) fun _ => .empty

section Bytes

variable [DecidableEq C] (streams : Streams S C)

/-- The bytes that a read returns, if it is one from the stream. -/
def readBytes (c : C) : S × BytesMut × ℕ → List UInt8
  | (socket, buffer, byteCount) =>
    if streams.inbound socket = c then buffer.contents.take byteCount else []

def writtenBytes (c : C) : Poll (S × List UInt8 × ℕ) → List UInt8
  | .ready (socket, buffer, byteCount) =>
    if streams.outbound socket = c then buffer.take byteCount else []
  | _ => []

end Bytes

structure Inv [DecidableEq C] (streams : Streams S C) (s : State R W S C ι) : Prop where
  written : ∀ c, s.writes.flatMap (writtenBytes streams c) = (s.kernel c).sent
  read : ∀ c, s.reads.flatMap (readBytes streams c) = (s.kernel c).received

variable [DecidableEq R] [DecidableEq W] [DecidableEq C] {streams : Streams S C}
  {s t : State R W S C ι} {a : Act R W S ι}

theorem step_inv (h : Inv streams s) (hs : SocketTraffic.step (tcp streams) s a = some t) :
    Inv streams t := by
  cases SocketTraffic.step_transfers hs with
  | idle hkernel hreads hwrites =>
    exact ⟨by rw [hkernel, hwrites]; exact h.written, by rw [hkernel, hreads]; exact h.read⟩
  | network e => exact e.elim
  | received socket buffer payload source hkernel hreads hwrites =>
    obtain ⟨hfits, hkernel⟩ := Option.ite_none_right_eq_some.mp hkernel
    obtain ⟨channel, hreceive, hkernel⟩ := Option.map_eq_some_iff.mp hkernel
    obtain ⟨hsent, hreceived⟩ := Channel.receiveAll_eq_some hreceive
    rw [List.take_of_length_le hfits] at hreads
    constructor <;> intro c <;> by_cases hc : streams.inbound socket = c
    · rw [hwrites, ← hkernel, ← hc, Function.update_self, hsent]
      exact h.written _
    · rw [hwrites, ← hkernel, Function.update_of_ne (Ne.symm hc)]
      exact h.written c
    · have hbytes : readBytes streams c ((tcp streams).item socket (buffer.grow payload)
          payload.length source) = payload := by
        change (if streams.inbound socket = c then
          (buffer.grow payload).contents.take payload.length else _) = _
        rw [if_pos hc, BytesMut.contents_grow, List.take_left]
      subst hc
      rw [hreads, List.flatMap_append, List.flatMap_singleton, ← hkernel, Function.update_self,
        hreceived, h.read, hbytes]
    · rw [hreads, List.flatMap_append, List.flatMap_singleton, ← hkernel,
        Function.update_of_ne (Ne.symm hc), h.read]
      simp [tcp, ReadInPlace.TcpRead.item, readBytes, hc]
  | sent w socket buffer addr byteCount interest hpending hkernel hreads hwrites =>
    obtain ⟨hle, hkernel⟩ := Option.ite_none_right_eq_some.mp hkernel
    replace hkernel := Option.some.inj hkernel
    constructor <;> intro c <;> by_cases hc : streams.outbound socket = c
    · have hbytes : writtenBytes streams c ((tcp streams).finish socket buffer byteCount) =
          buffer.take byteCount := if_pos hc
      subst hc
      rw [hwrites, List.flatMap_append, List.flatMap_singleton, ← hkernel, Function.update_self,
        h.written, hbytes]
      rfl
    · rw [hwrites, List.flatMap_append, List.flatMap_singleton, ← hkernel,
        Function.update_of_ne (Ne.symm hc), h.written]
      simp [tcp, WriteFutures.TcpWrite.finish, writtenBytes, hc]
    · rw [hreads, ← hkernel, ← hc, Function.update_self]
      exact h.read _
    · rw [hreads, ← hkernel, Function.update_of_ne (Ne.symm hc)]
      exact h.read c

theorem reachable_accounted (hr : (machine streams).Reachable s) : Inv streams s := by
  refine hr.invariant (I := Inv streams) (fun s hs => ?_) fun _ _ _ _ h _ hs => step_inv h hs
  obtain rfl : s = initial := hs
  exact ⟨fun _ => rfl, fun _ => rfl⟩

/-- Whatever the order of the polls, whichever of them would block and whichever futures are
dropped: the bytes that the writes to a stream report make up what its kernel was given, and the
reads hand out a first part of them in order, all but what is still in the kernel. -/
theorem stream_intact (hr : (machine streams).Reachable s) (c : C) :
    s.writes.flatMap (writtenBytes streams c) = (s.kernel c).sent ∧
      s.reads.flatMap (readBytes streams c) <+: s.writes.flatMap (writtenBytes streams c) ∧
      ((s.kernel c).next? = none →
        s.reads.flatMap (readBytes streams c) = s.writes.flatMap (writtenBytes streams c)) := by
  have h := reachable_accounted hr
  rw [h.written, h.read]
  refine ⟨rfl, (s.kernel c).inOrder, fun hnext => ?_⟩
  exact (s.kernel c).inOrder.eq_of_length_le (List.getElem?_eq_none_iff.mp hnext)

/-- A socket writes to the stream of its own name and reads from the other. -/
def bothWays : Streams Bool Bool := ⟨not, id⟩

/-- Two writes of one socket, of which the first sends two bytes of three after it would have
blocked, and a third that is dropped; two reads of the other into buffers of different sizes. -/
def twoWrites : List (Act ℕ ℕ Bool Unit) :=
  [.write 0 true [1, 2, 3] (), .pollWrite 0 ⟨false, .wouldBlock (.ok ())⟩, .write 2 true [9] (),
    .pollWrite 2 ⟨false, .wouldBlock (.ok ())⟩, .pollWrite 0 ⟨true, .sent 2⟩, .dropWrite 2,
    .write 1 true [3] (), .pollWrite 1 ⟨false, .sent 1⟩,
    .read 0 false ⟨[7, 7], 1, false, by decide⟩, .pollRead 0 ⟨false, .received [1] ()⟩,
    .read 1 false ⟨[0, 0, 0, 0], 0, false, by decide⟩,
    .pollRead 1 ⟨false, .received [2, 3] ()⟩]

theorem twoWrites_intact : ∃ s : State ℕ ℕ Bool Bool Unit,
    (machine bothWays).exec initial twoWrites = some s ∧
      s.writes.flatMap (writtenBytes bothWays true) = [1, 2, 3] ∧
      s.reads.flatMap (readBytes bothWays true) = [1, 2, 3] := by
  have hrun : (machine (ι := Unit) bothWays).exec (initial : State ℕ ℕ Bool Bool Unit) twoWrites =
    some _ := rfl
  obtain ⟨-, -, hall⟩ := stream_intact (Machine.reachable_of_exec rfl hrun) true
  exact ⟨_, hrun, by decide, hall rfl⟩

end CompleteIo.TcpConnections
