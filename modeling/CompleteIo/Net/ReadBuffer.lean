import Mathlib.Data.List.Basic

namespace CompleteIo.ReadBuffer

/-- A `BytesMut`: the memory it may use, of which the first `len` bytes are initialised. -/
structure BytesMut where
  memory : List UInt8
  len : ℕ
  inline : Bool
  len_le : len ≤ memory.length
  deriving DecidableEq

namespace BytesMut

def capacity (b : BytesMut) : ℕ := b.memory.length

def contents (b : BytesMut) : List UInt8 := b.memory.take b.len

def overwrite (b : BytesMut) (written : List UInt8) : BytesMut where
  memory := written ++ b.memory.drop written.length
  len := b.len
  inline := b.inline
  len_le := by
    have := b.len_le
    simp only [List.length_append, List.length_drop]
    omega

/-- The same, followed by `set_len` if the writing went past the initialised part. -/
def grow (b : BytesMut) (written : List UInt8) : BytesMut :=
  if written.length > b.len then
    { b.overwrite written with
      len := written.length
      len_le := by simp [overwrite] }
  else b.overwrite written

variable {b : BytesMut} {written : List UInt8}

@[simp] theorem length_contents : b.contents.length = b.len := by
  simp [contents, b.len_le]

theorem contents_overwrite (h : written.length ≤ b.len) :
    (b.overwrite written).contents = written ++ b.contents.drop written.length := by
  simp only [contents, overwrite]
  rw [List.take_append, List.take_of_length_le h, List.drop_take]

theorem contents_grow : (b.grow written).contents = written ++ b.contents.drop written.length := by
  unfold grow
  split
  · rename_i h
    have hdrop : b.contents.drop written.length = [] :=
      List.drop_eq_nil_of_le (by rw [length_contents]; omega)
    rw [hdrop, List.append_nil]
    exact List.take_left
  · exact contents_overwrite (by omega)

end BytesMut

/-- `ensure_bytesmut_safe`: an inline buffer is replaced by a copy of its contents. -/
def ensureBytesmutSafe (b : BytesMut) : BytesMut :=
  if b.inline then ⟨b.contents, b.len, false, by simp⟩ else b

variable {A : Type*}

/-- What a `poll` of a read returns; `source` is the remote address of a datagram. -/
inductive Result (A : Type*)
  | notReady
  | ready (buffer : BytesMut) (byteCount : ℕ) (source : A)
  | err
  | panics

def resolve {σ α : Type*} (poll : σ → α → σ × Result A) : σ → List α → Option (Result A)
  | _, [] => none
  | s, a :: as =>
    match poll s a with
    | (t, .notReady) => resolve poll t as
    | (_, r) => some r

namespace Epoll

/-- What `recv` or `recv_from` comes to, and whether `add_interest` succeeds after it. -/
inductive Outcome (A : Type*)
  | received (payload : List UInt8) (source : A)
  | wouldBlock (added : Bool)
  | failed

/-- What one `poll` meets: whether its interest has fired, and then what the call comes to. -/
structure Attempt (A : Type*) where
  fired : Bool
  outcome : Outcome A

inductive ReadState
  | pending (buffer : BytesMut) (interest : Bool)
  | none

def poll : ReadState → Attempt A → ReadState × Result A
  | .none, _ => (.none, .panics)
  | .pending buffer interest, a =>
    if interest && !a.fired then (.pending buffer interest, .notReady)
    else match a.outcome with
      | .wouldBlock added =>
        if interest || added then (.pending buffer true, .notReady) else (.none, .err)
      | .failed => (.none, .err)
      | .received payload source =>
        let written := payload.take buffer.capacity
        (.none, .ready (buffer.grow written) written.length source)

def read (buffer : BytesMut) : ReadState := .pending buffer false

end Epoll

namespace Iocp

/-- What one `poll` meets: the result of the submission or, later, of the operation. -/
inductive Attempt (A : Type*)
  | completed (payload : List UInt8) (source : A)
  | pending
  | failed

inductive ReadState
  | initial (buffer : BytesMut)
  | pending (buffer : BytesMut)
  | none

/-- What an overlapped receive writes to a slice of a given length, if it does not fail. -/
abbrev Fill := ℕ → List UInt8 → Option (List UInt8)

/-- The end of an operation, to which the slice `&mut buffer` was offered. -/
def complete (fill : Fill) (buffer : BytesMut) (payload : List UInt8) (source : A) :
    ReadState × Result A :=
  match fill buffer.len payload with
  | some written => (.none, .ready (buffer.overwrite written) written.length source)
  | none => (.none, .err)

def poll (fill : Fill) : ReadState → Attempt A → ReadState × Result A
  | .none, _ => (.none, .panics)
  | .initial buffer, .completed payload source => complete fill buffer payload source
  | .initial buffer, .pending => (.pending buffer, .notReady)
  | .initial _, .failed => (.none, .err)
  | .pending buffer, .completed payload source => complete fill buffer payload source
  | .pending buffer, .pending => (.pending buffer, .notReady)
  | .pending _, .failed => (.none, .err)

def read (buffer : BytesMut) : ReadState := .initial (ensureBytesmutSafe buffer)

/-- An overlapped receive writes a part of the payload and no more than the slice holds, and all
of a payload that fits. -/
structure FillsSlice (fill : Fill) : Prop where
  within : ∀ n payload written, fill n payload = some written → written.length ≤ n
  part : ∀ n payload written, fill n payload = some written → written <+: payload
  fits : ∀ n payload, payload.length ≤ n → fill n payload = some payload

end Iocp

/-- Both reads resolve, with the same byte count and buffers of the same length and contents. -/
def Agree (r r' : Option (Result A)) : Prop :=
  ∃ b n source b' n' source', r = some (.ready b n source) ∧ r' = some (.ready b' n' source') ∧
    n = n' ∧ b.len = b'.len ∧ b.contents = b'.contents

section Proofs

variable {b : BytesMut} {payload : List UInt8} {source : A}

theorem ensureBytesmutSafe_len : (ensureBytesmutSafe b).len = b.len := by
  unfold ensureBytesmutSafe
  split <;> rfl

theorem ensureBytesmutSafe_contents : (ensureBytesmutSafe b).contents = b.contents := by
  unfold ensureBytesmutSafe
  split
  · exact List.take_of_length_le (by simp)
  · rfl

/-- Attempts that block leave the buffer as it is. -/
theorem epoll_resolve {polls : List (Epoll.Attempt A)} {interest : Bool}
    (hpolls : ∀ a ∈ polls, a.outcome = .wouldBlock true) :
    resolve Epoll.poll (.pending b interest) (polls ++ [⟨true, .received payload source⟩]) =
      some (.ready (b.grow (payload.take b.capacity)) (payload.take b.capacity).length source) := by
  induction polls generalizing interest with
  | nil => simp [resolve, Epoll.poll]
  | cons a as ih =>
    have ha := hpolls a (List.mem_cons_self ..)
    have has := fun c hc => hpolls c (List.mem_cons_of_mem _ hc)
    by_cases hfired : (interest && !a.fired) = true
    · simp only [List.cons_append, resolve, Epoll.poll, hfired, if_true]
      exact ih has
    · simp only [List.cons_append, resolve, Epoll.poll, hfired, ha, Bool.or_true, if_true]
      exact ih has

theorem resolve_completed {fill : Iocp.Fill} {state : Iocp.ReadState}
    (hstate : state = .initial b ∨ state = .pending b) :
    resolve (Iocp.poll fill) state [.completed payload source] =
      some (Iocp.complete fill b payload source).2 := by
  rcases hstate with rfl | rfl <;> simp only [resolve, Iocp.poll, Iocp.complete] <;>
    cases fill b.len payload <;> rfl

/-- An operation that completes at once and one that is polled any number of times before it
completes resolve alike. -/
theorem iocp_resolve {fill : Iocp.Fill} {state : Iocp.ReadState} (n : ℕ)
    (hstate : state = .initial b ∨ state = .pending b) :
    resolve (Iocp.poll fill) state
      (List.replicate n .pending ++ [.completed payload source]) =
      some (Iocp.complete fill b payload source).2 := by
  induction n generalizing state with
  | zero => exact resolve_completed hstate
  | succ n ih => rcases hstate with rfl | rfl <;> exact ih (.inr rfl)

/-- Counts that agree make the written parts the same. -/
theorem written_eq {fill : Iocp.Fill} (hfill : Iocp.FillsSlice fill) {written : List UInt8}
    (hw : fill b.len payload = some written)
    (hcount : (payload.take b.capacity).length = written.length) :
    payload.take b.capacity = written := by
  rw [List.prefix_iff_eq_take.mp (hfill.part _ _ _ hw), ← hcount]
  exact List.prefix_iff_eq_take.mp (List.take_prefix ..)

theorem agree_complete_iff {fill : Iocp.Fill} (hfill : Iocp.FillsSlice fill) :
    Agree (some (.ready (b.grow (payload.take b.capacity)) (payload.take b.capacity).length source))
        (some (Iocp.complete fill (ensureBytesmutSafe b) payload source).2) ↔
      fill b.len payload = some (payload.take b.capacity) := by
  unfold Iocp.complete
  rw [ensureBytesmutSafe_len]
  constructor
  · rintro ⟨_, _, _, _, _, _, hepoll, hiocp, hcount, -, -⟩
    cases hw : fill b.len payload with
    | none => simp [hw] at hiocp
    | some written =>
      simp only [hw, Option.some.injEq, Result.ready.injEq] at hepoll hiocp
      rw [written_eq hfill hw]
      rw [hepoll.2.1, hcount, hiocp.2.1]
  · intro hw
    have hle := hfill.within _ _ _ hw
    simp only [hw]
    refine ⟨_, _, _, _, _, _, rfl, rfl, rfl, ?_, ?_⟩
    · rw [BytesMut.grow, if_neg (by omega)]
      exact (ensureBytesmutSafe_len (b := b)).symm
    · rw [BytesMut.contents_grow, BytesMut.contents_overwrite (by rwa [ensureBytesmutSafe_len]),
        ensureBytesmutSafe_contents]

/-- A payload fits the initialised part, or there is no room after it and the rest is cut off. -/
theorem fill_capacity_iff {fill : Iocp.Fill} (hfill : Iocp.FillsSlice fill) :
    fill b.len payload = some (payload.take b.capacity) ↔ payload.length ≤ b.len ∨
      b.capacity = b.len ∧ fill b.len payload = some (payload.take b.len) := by
  have hcap : b.len ≤ b.capacity := b.len_le
  constructor
  · intro hw
    by_cases hfits : payload.length ≤ b.len
    · exact .inl hfits
    · have hle := hfill.within _ _ _ hw
      rw [List.length_take] at hle
      have hfull : b.capacity = b.len := by omega
      exact .inr ⟨hfull, hfull ▸ hw⟩
  · rintro (hfits | ⟨hfull, hw⟩)
    · rw [List.take_of_length_le (Nat.le_trans hfits hcap)]
      exact hfill.fits _ _ hfits
    · rw [hw, hfull]

/-- The two backends agree on a read exactly when the payload fits the initialised part of the
buffer, or when the buffer has no room beyond that part and both cut the payload off there. -/
theorem backends_agree_iff {fill : Iocp.Fill} (hfill : Iocp.FillsSlice fill) (b : BytesMut)
    (payload : List UInt8) (source : A) (polls : List (Epoll.Attempt A))
    (hpolls : ∀ a ∈ polls, a.outcome = .wouldBlock true) (n : ℕ) :
    Agree (resolve Epoll.poll (Epoll.read b) (polls ++ [⟨true, .received payload source⟩]))
        (resolve (Iocp.poll fill) (Iocp.read b)
          (List.replicate n .pending ++ [.completed payload source])) ↔
      payload.length ≤ b.len ∨
        b.capacity = b.len ∧ fill b.len payload = some (payload.take b.len) := by
  rw [Epoll.read, epoll_resolve hpolls, Iocp.read, iocp_resolve n (.inl rfl),
    agree_complete_iff hfill, fill_capacity_iff hfill]

end Proofs

/-- A receive that cuts the payload off at the end of the slice. -/
def truncate : Iocp.Fill := fun n payload => some (payload.take n)

theorem truncate_fillsSlice : Iocp.FillsSlice truncate where
  within n payload written hw := by
    obtain rfl := Option.some.inj hw
    exact List.length_take_le ..
  part n payload written hw := by
    obtain rfl := Option.some.inj hw
    exact List.take_prefix ..
  fits n payload h := by rw [truncate, List.take_of_length_le h]

/-- A buffer of eight zeros, into which five bytes are read after two polls. -/
theorem backends_agree_iff_zeroed :
    Agree (resolve Epoll.poll (Epoll.read ⟨List.replicate 8 0, 8, true, by decide⟩)
        [⟨true, .wouldBlock true⟩, ⟨true, .received [104, 101, 108, 108, 111] ()⟩])
      (resolve (Iocp.poll truncate) (Iocp.read ⟨List.replicate 8 0, 8, true, by decide⟩)
        [.pending, .completed [104, 101, 108, 108, 111] ()]) :=
  (backends_agree_iff truncate_fillsSlice ⟨List.replicate 8 0, 8, true, by decide⟩
    [104, 101, 108, 108, 111] () [⟨true, .wouldBlock true⟩] (by simp) 1).mpr (.inl (by decide))

/-- What `tcp_echo` reads into: an empty buffer with room, stored inline. -/
def withCapacity : BytesMut := ⟨List.replicate 31 0, 0, true, by decide⟩

/-- The test's read receives its message on one backend, and nothing on the other. -/
theorem empty_buffer_disagrees :
    resolve Epoll.poll (Epoll.read withCapacity)
        [⟨true, .received [104, 101, 108, 108, 111] ()⟩] =
      some (.ready (withCapacity.grow [104, 101, 108, 108, 111]) 5 ()) ∧
    resolve (Iocp.poll truncate) (Iocp.read withCapacity)
        [.pending, .completed [104, 101, 108, 108, 111] ()] =
      some (.ready ⟨[], 0, false, by decide⟩ 0 ()) ∧
    ¬ ∀ (b : BytesMut) (payload : List UInt8),
      Agree (resolve Epoll.poll (Epoll.read b) [⟨true, .received payload ()⟩])
        (resolve (Iocp.poll truncate) (Iocp.read b) [.pending, .completed payload ()]) := by
  have hepoll : resolve Epoll.poll (Epoll.read withCapacity)
      [⟨true, .received [104, 101, 108, 108, 111] ()⟩] =
      some (.ready (withCapacity.grow [104, 101, 108, 108, 111]) 5 ()) := rfl
  have hiocp : resolve (Iocp.poll truncate) (Iocp.read withCapacity)
      [.pending, .completed [104, 101, 108, 108, 111] ()] =
      some (.ready ⟨[], 0, false, by decide⟩ 0 ()) := rfl
  refine ⟨hepoll, hiocp, fun h => ?_⟩
  obtain ⟨b, n, source, b', n', source', he, hi, hcount, -⟩ :=
    h withCapacity [104, 101, 108, 108, 111]
  rw [hepoll] at he
  rw [hiocp] at hi
  cases he
  cases hi
  cases hcount

end CompleteIo.ReadBuffer
