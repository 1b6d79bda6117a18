import Mathlib.Data.PNat.Basic
import CompleteIo.Lib.Machine

namespace CompleteIo.Interrupt

inductive TurnPc
  | idle
  -- `thread_id.store(pthread_self())` comes next.
  | publish
  | enter
  | blocked
  -- `epoll_pwait` returned and `thread_id.store(0)` comes next.
  | withdraw
  deriving DecidableEq

/-- One call of `Interrupt::interrupt`; `turn` is the turn whose id it has loaded. -/
inductive CallPc
  | idle
  | kill (threadId turn : ℕ)
  | sent (turn : ℕ)
  | notSent
  deriving DecidableEq

structure State (ι : Type*) where
  pc : TurnPc
  turn : ℕ
  maxWait : Option ℕ
  threadId : ℕ
  pending : Bool
  calls : ι → CallPc

inductive Act (ι : Type*)
  | turn (maxWait : Option ℕ)
  | publish
  | enter
  | signal
  | wake
  | withdraw
  | load (i : ι)
  | kill (i : ι) (ok : Bool)

variable {ι : Type*}

def initial : State ι where
  pc := .idle
  turn := 0
  maxWait := none
  threadId := 0
  pending := false
  calls _ := .idle

section Step

variable [DecidableEq ι]

def State.setCall (s : State ι) (i : ι) (pc : CallPc) : State ι :=
  { s with calls := Function.update s.calls i pc }

def step (tid : ℕ+) (s : State ι) : Act ι → Option (State ι)
  | .turn maxWait =>
    if s.pc = .idle then
      some { s with pc := .publish, turn := s.turn + 1, maxWait := maxWait }
    else none
  | .publish => if s.pc = .publish then some { s with threadId := tid, pc := .enter } else none
  | .enter => if s.pc = .enter then some { s with pc := .blocked } else none
  -- Outside of `epoll_pwait` the signal only runs the handler.
  | .signal =>
    if s.pending then
      some { s with pending := false, pc := if s.pc = .blocked then .withdraw else s.pc }
    else none
  | .wake => if s.pc = .blocked then some { s with pc := .withdraw } else none
  | .withdraw => if s.pc = .withdraw then some { s with threadId := 0, pc := .idle } else none
  | .load i =>
    if s.calls i = .idle then
      some (s.setCall i (if s.threadId = 0 then .notSent else .kill s.threadId s.turn))
    else none
  -- A signal that is already pending is not queued a second time.
  | .kill i ok =>
    match s.calls i with
    | .kill id turn =>
      some (if ok then { s with pending := s.pending || id = tid }.setCall i (.sent turn)
        else s.setCall i .notSent)
    | _ => none

/-- The turns of one thread, and any calls of `interrupt` on the same `Interrupt`. -/
def machine (tid : ℕ+) (ι : Type*) [DecidableEq ι] : Machine (State ι) (Act ι) where
  init s := s = initial
  step := step tid

end Step

inductive Step [DecidableEq ι] (tid : ℕ+) (s : State ι) : Act ι → State ι → Prop
  | turn {maxWait : Option ℕ} (hpc : s.pc = .idle) : Step tid s (.turn maxWait)
      { s with pc := .publish, turn := s.turn + 1, maxWait := maxWait }
  | publish (hpc : s.pc = .publish) : Step tid s .publish { s with threadId := tid, pc := .enter }
  | enter (hpc : s.pc = .enter) : Step tid s .enter { s with pc := .blocked }
  | interrupted (hpending : s.pending = true) (hpc : s.pc = .blocked) :
      Step tid s .signal { s with pending := false, pc := .withdraw }
  | consumed (hpending : s.pending = true) (hpc : s.pc ≠ .blocked) :
      Step tid s .signal { s with pending := false }
  | wake (hpc : s.pc = .blocked) : Step tid s .wake { s with pc := .withdraw }
  | withdraw (hpc : s.pc = .withdraw) : Step tid s .withdraw { s with threadId := 0, pc := .idle }
  | loadZero {i : ι} (hidle : s.calls i = .idle) (hzero : s.threadId = 0) :
      Step tid s (.load i) (s.setCall i .notSent)
  | load {i : ι} (hidle : s.calls i = .idle) (hne : s.threadId ≠ 0) :
      Step tid s (.load i) (s.setCall i (.kill s.threadId s.turn))
  | kill {i : ι} {id turn : ℕ} (hkill : s.calls i = .kill id turn) : Step tid s (.kill i true)
      ({ s with pending := s.pending || id = tid }.setCall i (.sent turn))
  | killFails {i : ι} {id turn : ℕ} (hkill : s.calls i = .kill id turn) :
      Step tid s (.kill i false) (s.setCall i .notSent)

theorem step_cases [DecidableEq ι] {tid : ℕ+} {s t : State ι} {a : Act ι}
    (hs : step tid s a = some t) : Step tid s a t := by
  cases a <;> simp only [step, Option.ite_none_right_eq_some, Option.some.injEq] at hs
  case signal =>
    obtain ⟨hpending, rfl⟩ := hs
    by_cases hpc : s.pc = .blocked
    · rw [if_pos hpc]
      exact .interrupted hpending hpc
    · rw [if_neg hpc]
      exact .consumed hpending hpc
  case load i =>
    obtain ⟨hidle, rfl⟩ := hs
    by_cases hzero : s.threadId = 0
    · rw [if_pos hzero]
      exact .loadZero hidle hzero
    · rw [if_neg hzero]
      exact .load hidle hzero
  case kill i ok =>
    split at hs
    · rename_i hkill
      cases ok <;> cases hs
      · exact .killFails hkill
      · exact .kill hkill
    · cases hs
  all_goals
    obtain ⟨hpc, rfl⟩ := hs
    constructor
    exact hpc

/-- The turn waits for good although a call that loaded its thread id has returned `Ok(true)`:
the signal is consumed. -/
def Missed (s : State ι) : Prop :=
  s.pc = .blocked ∧ s.maxWait = none ∧ s.pending = false ∧ ∃ i, s.calls i = .sent s.turn

/-- No signal for a turn without a timeout is delivered between the store of the thread id and
`epoll_pwait`. -/
def InWait (s : State ι) : Act ι → Prop
  | .signal => s.pc = .enter → s.maxWait = none → ∀ i, s.calls i ≠ .sent s.turn
  | _ => True

def TurnPc.Published : TurnPc → Prop
  | .enter | .blocked | .withdraw => True
  | .idle | .publish => False

attribute [local simp] TurnPc.Published

@[simp] def CallPc.loaded : CallPc → Option ℕ
  | .kill _ turn | .sent turn => some turn
  | .idle | .notSent => none

structure Inv (tid : ℕ+) (s : State ι) : Prop where
  withdrawn : ¬ s.pc.Published → s.threadId = 0
  own : s.threadId = 0 ∨ s.threadId = tid
  target : ∀ i id turn, s.calls i = .kill id turn → id = tid
  loaded : ∀ i turn, (s.calls i).loaded = some turn → turn ≤ s.turn
  fresh : s.pc = .publish → ∀ i, (s.calls i).loaded ≠ some s.turn

/-- A call that has sent its signal to the turn leaves it pending up to the wait. -/
def Signalled (s : State ι) : Prop :=
  s.pc = .enter ∨ s.pc = .blocked → s.maxWait = none → ∀ i, s.calls i = .sent s.turn →
    s.pending = true

theorem initial_inv {tid : ℕ+} : Inv tid (initial : State ι) := by
  constructor <;> simp [initial]

section Proofs

variable [DecidableEq ι] {tid : ℕ+} {s t : State ι} {a : Act ι} {i j : ι} {pc : CallPc}

@[simp] theorem setCall_self : (s.setCall i pc).calls i = pc := Function.update_self ..

theorem setCall_other (h : j ≠ i) : (s.setCall i pc).calls j = s.calls j :=
  Function.update_of_ne h ..

/-- A property of all calls survives the move of one. -/
theorem forall_setCall {p : CallPc → Prop} (h : ∀ j, p (s.calls j)) (hpc : p pc) (j : ι) :
    p ((s.setCall i pc).calls j) := by
  by_cases hj : j = i
  · subst hj
    simpa using hpc
  · rw [setCall_other hj]
    exact h j

/-- A call moves on within its turn, or loads the id that the present turn has stored. -/
theorem Inv.setCall (h : Inv tid s) (htarget : ∀ id turn, pc = .kill id turn → id = tid)
    (hloaded : ∀ turn, pc.loaded = some turn → turn ≤ s.turn ∧ (s.pc = .publish → turn ≠ s.turn)) :
    Inv tid (s.setCall i pc) where
  withdrawn := h.withdrawn
  own := h.own
  target j := by
    refine forall_setCall (p := fun c => ∀ id turn, c = .kill id turn → id = tid) ?_ htarget j
    exact fun j => h.target j
  loaded j := by
    refine forall_setCall (p := fun c => ∀ turn, c.loaded = some turn → turn ≤ s.turn) ?_ ?_ j
    · exact fun j => h.loaded j
    · exact fun turn hturn => (hloaded turn hturn).1
  fresh hpc j := by
    refine forall_setCall (p := fun c => c.loaded ≠ some s.turn) (fun j => h.fresh hpc j) ?_ j
    exact fun hturn => (hloaded _ hturn).2 hpc rfl

theorem step_inv (h : Inv tid s) (hs : step tid s a = some t) : Inv tid t := by
  cases step_cases hs with
  | turn hpc =>
    refine ⟨fun _ => h.withdrawn (by simp [hpc]), h.own, h.target, fun j n hn => ?_,
      fun _ j hn => ?_⟩
    · exact (h.loaded j n hn).trans (Nat.le_succ _)
    · exact absurd (h.loaded j _ hn) (Nat.not_succ_le_self _)
  | publish => exact ⟨by simp, .inr rfl, h.target, h.loaded, by simp⟩
  | enter | interrupted | wake => exact ⟨by simp, h.own, h.target, h.loaded, by simp⟩
  | withdraw => exact ⟨by simp, .inl rfl, h.target, h.loaded, by simp⟩
  | consumed => exact ⟨h.withdrawn, h.own, h.target, h.loaded, h.fresh⟩
  | loadZero | killFails => exact h.setCall (by simp) (by simp)
  | load _ hne =>
    refine h.setCall (fun id turn hk => ?_) fun turn hk => ?_
    · exact (CallPc.kill.inj hk).1 ▸ h.own.resolve_left hne
    · obtain rfl : s.turn = turn := Option.some.inj hk
      exact ⟨le_rfl, fun hpc => absurd (h.withdrawn (by simp [hpc])) hne⟩
  | @kill i id turn hkill =>
    have h' : Inv tid { s with pending := s.pending || id = tid } :=
      ⟨h.withdrawn, h.own, h.target, h.loaded, h.fresh⟩
    refine h'.setCall (by simp) fun n hn => ?_
    obtain rfl : turn = n := Option.some.inj hn
    refine ⟨h.loaded i turn (by simp [hkill]), fun hpc hn => ?_⟩
    exact h.fresh hpc i (by simp [hkill, hn])

theorem reachable_inv (h : (machine tid ι).Reachable s) : Inv tid s :=
  h.invariant (fun _ hs => hs ▸ initial_inv) fun _ _ _ _ hi _ hs => step_inv hi hs

/-- A call that ends without a signal leaves those of the others. -/
theorem Signalled.setCall (h : Signalled s) (hpc : ∀ turn, pc ≠ .sent turn) :
    Signalled (s.setCall i pc) := by
  intro hwait hmax j hj
  by_cases hji : j = i
  · rw [hji, setCall_self] at hj
    exact absurd hj (hpc s.turn)
  · exact h hwait hmax j (setCall_other hji ▸ hj)

/-- The signal that a call has sent stays pending until the turn is in its wait. -/
theorem step_signalled (h : Inv tid s) (hsig : Signalled s) (hok : InWait s a)
    (hs : step tid s a = some t) : Signalled t := by
  cases step_cases hs with
  | turn | interrupted | wake | withdraw => simp [Signalled]
  | publish hpc => exact fun _ _ i hi => absurd (congrArg CallPc.loaded hi) (h.fresh hpc i)
  | enter hpc => exact fun _ => hsig (.inl hpc)
  | consumed _ hpc =>
    intro hwait hmax i hi
    exact absurd hi (hok (hwait.resolve_right hpc) hmax i)
  | loadZero | load | killFails => exact hsig.setCall (by simp)
  | kill hkill =>
    have htarget := h.target _ _ _ hkill
    exact fun _ _ _ _ => by simp [State.setCall, htarget]

theorem not_missed_of_inWait (h : (machine tid ι).ReachesUnder InWait s) : ¬ Missed s := by
  rintro ⟨hpc, hwait, hpending, i, hi⟩
  have hsig : Signalled s := h.invariant (fun _ hs => hs ▸ by simp [Signalled, initial])
    fun _ _ _ hr hsig hok hs => step_signalled (reachable_inv hr.reachable) hsig hok hs
  simp [hsig (.inr hpc) hwait i hi] at hpending

/-- A signal consumed ahead of the wait: all that is missing is the wait. -/
theorem missed_of_not_inWait (hs : step tid s a = some t) (hok : ¬ InWait s a) :
    ∃ as u, (machine tid ι).exec t as = some u ∧ Missed u := by
  unfold InWait at hok
  split at hok
  case h_2 => exact absurd trivial hok
  simp only [Classical.not_imp, not_forall, not_not] at hok
  obtain ⟨hpc, hwait, i, hi⟩ := hok
  simp only [step, Option.ite_none_right_eq_some, Option.some.injEq] at hs
  obtain ⟨-, rfl⟩ := hs
  refine ⟨[.enter], { s with pending := false, pc := .blocked }, ?_, rfl, hwait, rfl, i, hi⟩
  simp [Machine.exec, machine, step, hpc]

/-- A successful interrupt ends its turn in every run in which no signal is delivered between the
store of the thread id and the wait, and any step that does so can be carried on to a turn that
waits for good. -/
theorem never_missed_while_inWait (tid : ℕ+) (ι : Type*) [DecidableEq ι] :
    (∀ s, (machine tid ι).ReachesUnder InWait s → ¬ Missed s) ∧
    ∀ s a t, (machine tid ι).Reachable s → step tid s a = some t → ¬ InWait s a →
      ∃ as u, (machine tid ι).exec t as = some u ∧ Missed u :=
  ⟨fun _ h => not_missed_of_inWait h, fun _ _ _ _ hs hok => missed_of_not_inWait hs hok⟩

end Proofs

def interruptWait : List (Act Unit) :=
  [.turn none, .publish, .enter, .load (), .kill () true, .signal]

theorem interruptWait_not_missed : ∃ s,
    (machine 1 Unit).exec initial interruptWait = some s ∧ s.pc = .withdraw ∧ ¬ Missed s := by
  refine ⟨_, rfl, rfl, (never_missed_while_inWait 1 Unit).1 _ <| .exec (.init rfl) ?_
    (show (machine 1 Unit).exec initial interruptWait = some _ from rfl)⟩
  exact .cons trivial rfl <| .cons trivial rfl <| .cons trivial rfl <| .cons trivial rfl <|
    .cons trivial rfl <| .cons (fun hpc => by cases hpc) rfl trivial

/-- The signal arrives after the thread id is stored and before `epoll_pwait` is entered. -/
def interruptBeforeWait : List (Act Unit) :=
  [.turn none, .publish, .load (), .kill () true, .signal, .enter]

theorem interrupt_missed :
    (∃ s, (machine 1 Unit).exec initial interruptBeforeWait = some s ∧ Missed s) ∧
    ¬ ∀ s, (machine 1 Unit).Reachable s → ¬ Missed s := by
  have hrun : ∃ s, (machine 1 Unit).exec initial interruptBeforeWait = some s ∧ Missed s :=
    ⟨_, rfl, rfl, rfl, rfl, (), rfl⟩
  refine ⟨hrun, fun h => ?_⟩
  obtain ⟨s, hrun, hmissed⟩ := hrun
  exact h s (Machine.reachable_of_exec rfl hrun) hmissed

end CompleteIo.Interrupt
