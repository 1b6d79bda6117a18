import Mathlib.Logic.Function.Basic
import CompleteIo.Epoll.WriteFutures

namespace CompleteIo.SocketTraffic

open ReadBuffer (BytesMut)
open WriteFutures (WriteState Poll)

/-- A result that reports a transfer, if a short one. -/
def Reports {Item : Type*} : Poll Item → Bool
  | .ready _ | .err .writeZero => true
  | _ => false

/-- What the reads and writes of a kind of socket make of a transfer, and what the kernel, in the
state `K`, transfers: `recv` for a buffer of some capacity, `send` for the bytes of another. The
events `E` are those of the network alone. -/
structure Protocol (S A D RItem WItem K E : Type*) where
  item : S → BytesMut → ℕ → A → RItem
  finish : S → List UInt8 → ℕ → Poll WItem
  reports : ∀ socket buffer byteCount, Reports (finish socket buffer byteCount) = true
  recv : K → S → ℕ → List UInt8 → A → Option K
  send : K → S → List UInt8 → D → ℕ → Option K
  network : K → E → Option K

structure State (R W S D ι RItem WItem K : Type*) where
  reader : R → Option (ReadInPlace.State S ι RItem)
  writer : W → Option (WriteState S D ι)
  kernel : K
  reads : List RItem
  writes : List (Poll WItem)

inductive Act (R W S A D ι E : Type*)
  | read (r : R) (socket : S) (buffer : BytesMut)
  | write (w : W) (socket : S) (buffer : List UInt8) (addr : D)
  | pollRead (r : R) (a : ReadInPlace.Attempt ι A)
  | pollWrite (w : W) (a : WriteFutures.Attempt ι)
  | dropRead (r : R)
  | dropWrite (w : W)
  | network (e : E)

variable {R W S A D ι RItem WItem K E : Type*}

section Step

variable (P : Protocol S A D RItem WItem K E)

/-- What a poll does to the kernel, if the kernel can answer its system call so. -/
def takes (kernel : K) (future : ReadInPlace.State S ι RItem) (a : ReadInPlace.Attempt ι A) :
    Option K :=
  match future.future, a.outcome with
  | .pending socket buffer interest, .received payload source =>
    if a.receives interest then P.recv kernel socket buffer.capacity payload source
    else some kernel
  | _, _ => some kernel

def gives (kernel : K) (future : WriteState S D ι) (a : WriteFutures.Attempt ι) : Option K :=
  match WriteFutures.sends future a with
  | none => some kernel
  | some (socket, buffer, addr, byteCount) => P.send kernel socket buffer addr byteCount

def readResult (future : ReadInPlace.State S ι RItem) : Option RItem :=
  match future.polls.getLast? with
  | some (.ready item) => some item
  | _ => none

variable [DecidableEq R] [DecidableEq W]

def step (s : State R W S D ι RItem WItem K) :
    Act R W S A D ι E → Option (State R W S D ι RItem WItem K)
  | .read r socket buffer =>
    if (s.reader r).isNone then
      some { s with
        reader := Function.update s.reader r (some (ReadInPlace.read socket buffer)) }
    else none
  | .write w socket buffer addr =>
    if (s.writer w).isNone then
      some { s with
        writer := Function.update s.writer w (some (.pending socket buffer addr none)) }
    else none
  | .pollRead r a =>
    (s.reader r).bind fun future => (takes P s.kernel future a).map fun kernel =>
      let future := ReadInPlace.poll P.item future a
      { s with
        reader := Function.update s.reader r (some future)
        kernel := kernel
        reads := s.reads ++ (readResult future).toList }
  | .pollWrite w a =>
    (s.writer w).bind fun future => (gives P s.kernel future a).map fun kernel =>
      let (future, result) := WriteFutures.poll P.finish future a
      { s with
        writer := Function.update s.writer w (some future)
        kernel := kernel
        writes := s.writes ++ if Reports result then [result] else [] }
  | .dropRead r => some { s with reader := Function.update s.reader r none }
  | .dropWrite w => some { s with writer := Function.update s.writer w none }
  | .network e => (P.network s.kernel e).map fun kernel => { s with kernel := kernel }

def initial (kernel : K) : State R W S D ι RItem WItem K where
  reader _ := none
  writer _ := none
  kernel := kernel
  reads := []
  writes := []

def machine (kernel : K) : Machine (State R W S D ι RItem WItem K) (Act R W S A D ι E) where
  init s := s = initial kernel
  step := step P

end Step

variable {P : Protocol S A D RItem WItem K E}

/-- A poll takes something from the kernel exactly when it resolves, and returns it. -/
theorem takes_cases {kernel kernel' : K} {future : ReadInPlace.State S ι RItem}
    {a : ReadInPlace.Attempt ι A} (h : takes P kernel future a = some kernel') :
    readResult (ReadInPlace.poll P.item future a) = none ∧ kernel' = kernel ∨
      ∃ socket buffer payload source,
        readResult (ReadInPlace.poll P.item future a) = some (P.item socket
          (BytesMut.grow buffer (payload.take buffer.capacity))
          (payload.take buffer.capacity).length source) ∧
        P.recv kernel socket buffer.capacity payload source = some kernel' := by
  obtain ⟨state, polls, receives⟩ := future
  obtain ⟨fired, outcome⟩ := a
  cases state with
  | none =>
    left
    simp only [takes, Option.some.injEq] at h
    simp [readResult, ReadInPlace.poll, h]
  | pending socket buffer interest =>
    by_cases hreceives : (⟨fired, outcome⟩ : ReadInPlace.Attempt ι A).receives interest
    · cases outcome with
      | received payload source =>
        right
        simp only [takes, if_pos hreceives] at h
        exact ⟨socket, buffer, payload, source, by simp [readResult, ReadInPlace.poll, hreceives],
          h⟩
      | failed errno =>
        left
        simp only [takes, Option.some.injEq] at h
        simp [readResult, ReadInPlace.poll, hreceives, h]
      | wouldBlock added =>
        left
        simp only [takes, Option.some.injEq] at h
        cases interest <;> cases added <;> simp [readResult, ReadInPlace.poll, hreceives, h]
    · left
      have hkernel : kernel' = kernel := by
        cases outcome <;> simp [takes, hreceives] at h <;> exact h.symm
      simp [readResult, ReadInPlace.poll, hreceives, hkernel]

/-- A poll gives something to the kernel exactly when it reports a transfer. -/
theorem gives_cases {kernel kernel' : K} {future : WriteState S D ι}
    {a : WriteFutures.Attempt ι} (h : gives P kernel future a = some kernel') :
    Reports (WriteFutures.poll P.finish future a).2 = false ∧ kernel' = kernel ∨
      ∃ socket buffer addr byteCount interest, future = .pending socket buffer addr interest ∧
        (WriteFutures.poll P.finish future a).2 = P.finish socket buffer byteCount ∧
        P.send kernel socket buffer addr byteCount = some kernel' := by
  unfold gives at h
  split at h
  · rename_i hsends
    refine .inl ⟨?_, (Option.some.inj h).symm⟩
    have hresults := @WriteFutures.poll_of_not_sends _ _ _ _ P.finish _ _ hsends
    rcases hresults with hresult | hresult | ⟨errno, hresult⟩ <;> rw [hresult] <;> rfl
  · rename_i socket buffer addr byteCount hsends
    obtain ⟨interest, hpending⟩ := WriteFutures.pending_of_sends hsends
    exact .inr ⟨socket, buffer, addr, byteCount, interest, hpending,
      by rw [WriteFutures.poll_of_sends hsends], h⟩

/-- What a step does to the kernel and to what was returned. -/
inductive Transfers (P : Protocol S A D RItem WItem K E)
    (s t : State R W S D ι RItem WItem K) : Prop
  | idle (hkernel : t.kernel = s.kernel) (hreads : t.reads = s.reads)
      (hwrites : t.writes = s.writes)
  | network (e : E) (hkernel : P.network s.kernel e = some t.kernel) (hreads : t.reads = s.reads)
      (hwrites : t.writes = s.writes)
  | received (socket : S) (buffer : BytesMut) (payload : List UInt8) (source : A)
      (hkernel : P.recv s.kernel socket buffer.capacity payload source = some t.kernel)
      (hreads : t.reads = s.reads ++ [P.item socket
        (buffer.grow (payload.take buffer.capacity)) (payload.take buffer.capacity).length source])
      (hwrites : t.writes = s.writes)
  | sent (w : W) (socket : S) (buffer : List UInt8) (addr : D) (byteCount : ℕ)
      (interest : Option ι) (hpending : s.writer w = some (.pending socket buffer addr interest))
      (hkernel : P.send s.kernel socket buffer addr byteCount = some t.kernel)
      (hreads : t.reads = s.reads)
      (hwrites : t.writes = s.writes ++ [P.finish socket buffer byteCount])

variable [DecidableEq R] [DecidableEq W] {s t : State R W S D ι RItem WItem K}
  {a : Act R W S A D ι E}

/-- Whatever the polls meet and whoever is dropped, bytes move and are reported together. -/
theorem step_transfers (hs : step P s a = some t) : Transfers P s t := by
  cases a with
  | read r socket buffer | write w socket buffer addr =>
    obtain ⟨-, hs⟩ := Option.ite_none_right_eq_some.mp hs
    exact Option.some.inj hs ▸ .idle rfl rfl rfl
  | dropRead r | dropWrite w => exact Option.some.inj hs ▸ .idle rfl rfl rfl
  | network e =>
    obtain ⟨kernel, hkernel, rfl⟩ := Option.map_eq_some_iff.mp hs
    exact .network e hkernel rfl rfl
  | pollRead r a =>
    obtain ⟨future, -, hs⟩ := Option.bind_eq_some_iff.mp hs
    obtain ⟨kernel, hkernel, rfl⟩ := Option.map_eq_some_iff.mp hs
    rcases takes_cases hkernel with
      ⟨hresult, rfl⟩ | ⟨socket, buffer, payload, source, hresult, hrecv⟩
    · exact .idle rfl (by simp [hresult]) rfl
    · exact .received socket buffer payload source hrecv (by simp [hresult]) rfl
  | pollWrite w a =>
    obtain ⟨future, hfuture, hs⟩ := Option.bind_eq_some_iff.mp hs
    obtain ⟨kernel, hkernel, rfl⟩ := Option.map_eq_some_iff.mp hs
    rcases gives_cases hkernel with
      ⟨hresult, rfl⟩ | ⟨socket, buffer, addr, byteCount, interest, rfl, hresult, hsend⟩
    · exact .idle rfl rfl (by simp [hresult])
    · exact .sent w socket buffer addr byteCount interest hfuture hsend rfl
        (by simp [hresult, P.reports])

/-- A write that is pending was asked for, with its socket, buffer and address. -/
theorem pending_of_step {w : W} {socket : S} {buffer : List UInt8} {addr : D}
    {interest : Option ι} (hs : step P s a = some t)
    (hw : t.writer w = some (.pending socket buffer addr interest)) :
    a = .write w socket buffer addr ∨
      ∃ interest', s.writer w = some (.pending socket buffer addr interest') := by
  cases a with
  | read r socket' buffer' =>
    obtain ⟨-, hs⟩ := Option.ite_none_right_eq_some.mp hs
    obtain rfl := Option.some.inj hs
    exact .inr ⟨interest, hw⟩
  | dropRead r =>
    obtain rfl := Option.some.inj hs
    exact .inr ⟨interest, hw⟩
  | network e =>
    obtain ⟨kernel, -, rfl⟩ := Option.map_eq_some_iff.mp hs
    exact .inr ⟨interest, hw⟩
  | pollRead r a =>
    obtain ⟨future, -, hs⟩ := Option.bind_eq_some_iff.mp hs
    obtain ⟨kernel, -, rfl⟩ := Option.map_eq_some_iff.mp hs
    exact .inr ⟨interest, hw⟩
  | write v socket' buffer' addr' =>
    obtain ⟨-, hs⟩ := Option.ite_none_right_eq_some.mp hs
    obtain rfl := Option.some.inj hs
    by_cases hv : w = v
    · subst hv
      simp only [Function.update_self, Option.some.injEq] at hw
      cases hw
      exact .inl rfl
    · exact .inr ⟨interest, by simpa [Function.update_of_ne hv] using hw⟩
  | dropWrite v =>
    obtain rfl := Option.some.inj hs
    by_cases hv : w = v
    · simp [hv] at hw
    · exact .inr ⟨interest, by simpa [Function.update_of_ne hv] using hw⟩
  | pollWrite v a =>
    obtain ⟨future, hfuture, hs⟩ := Option.bind_eq_some_iff.mp hs
    obtain ⟨kernel, -, rfl⟩ := Option.map_eq_some_iff.mp hs
    by_cases hv : w = v
    · subst hv
      simp only [Function.update_self, Option.some.injEq] at hw
      obtain ⟨interest', rfl⟩ := WriteFutures.pending_of_poll hw
      exact .inr ⟨interest', hfuture⟩
    · exact .inr ⟨interest, by simpa [Function.update_of_ne hv] using hw⟩

end CompleteIo.SocketTraffic
