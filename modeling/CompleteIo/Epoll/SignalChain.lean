import Mathlib.Data.List.Basic
import CompleteIo.Lib.Machine

namespace CompleteIo.SignalChain

/-- What can stand in `sa_sigaction`; `H` are the functions of the application. -/
inductive SaHandler (H : Type*)
  | sigDfl
  | sigIgn
  | function (h : H)
  | interruptSigHandler
  deriving DecidableEq

/-- `siginfo` tells if `SA_SIGINFO` is set in `sa_flags`. -/
structure Sigaction (H : Type*) where
  saSigaction : SaHandler H
  siginfo : Bool
  deriving DecidableEq

inductive Effect (H : Type*)
  | terminates
  | ignored
  -- A function of the application is called, with three arguments or with one.
  | calls (h : H) (siginfo : Bool)
  | swallowed
  | recurses
  deriving DecidableEq

def interruptSigHandler {H : Type*} : Option (Sigaction H) → Effect H
  | none => .swallowed
  | some old =>
    match old.saSigaction with
    | .sigIgn | .sigDfl => .ignored
    | .function h => .calls h old.siginfo
    | .interruptSigHandler => .recurses

def deliver {H : Type*} (action : Sigaction H) (old : Option (Sigaction H)) : Effect H :=
  match action.saSigaction with
  | .sigDfl => .terminates
  | .sigIgn => .ignored
  | .function h => .calls h action.siginfo
  | .interruptSigHandler => interruptSigHandler old

inductive Once (T : Type*)
  | incomplete
  | running (t : T)
  | complete
  | poisoned
  deriving DecidableEq

inductive Pc (H I : Type*)
  | idle
  | sigaction (i : I)
  -- `OLD_SIGUSR2_HANDLER = Some(old_sigaction)` comes next.
  | save (i : I) (old : Sigaction H)
  | finish (i : I)
  | publish (i : I)
  | published (i : I)
  | panicked
  deriving DecidableEq

structure Delivery (H : Type*) where
  byInterrupt : Bool
  -- A thread is between `sigaction` and the assignment.
  saving : Bool
  effect : Effect H

structure State (T I H : Type*) where
  action : Sigaction H
  old : Option (Sigaction H)
  once : Once T
  pc : T → Pc H I
  threadId : I → Option T
  killing : List T
  -- The pending signal of a thread, and if a call of `interrupt` has sent it.
  pending : T → Option Bool
  deliveries : List (Delivery H)
  exited : Bool

inductive Act (T I : Type*)
  | callOnce (t : T) (i : I)
  | sigaction (t : T) (ok : Bool)
  | save (t : T)
  | finish (t : T)
  | publish (t : T)
  -- `epoll_pwait` has returned, and `thread_id.store(0)` comes.
  | withdraw (t : T)
  | load (i : I)
  | kill (t : T)
  | raise (t : T)
  | deliver (t : T)

section Step

variable {T I H : Type*} [DecidableEq T] [DecidableEq I]

def newSigaction : Sigaction H := ⟨.interruptSigHandler, true⟩

def State.setPc (s : State T I H) (t : T) (pc : Pc H I) : State T I H :=
  { s with pc := Function.update s.pc t pc }

def State.saving (s : State T I H) : Bool :=
  match s.once with
  | .running t =>
    match s.pc t with
    | .save .. => true
    | _ => false
  | _ => false

/-- Signals of one number do not queue. -/
def State.signal (s : State T I H) (t : T) (byInterrupt : Bool) : State T I H :=
  { s with pending := Function.update s.pending t (some (byInterrupt || s.pending t == some true)) }

def step (s : State T I H) (a : Act T I) : Option (State T I H) :=
  if s.exited then none
  else match a with
    -- While another thread runs the closure, `call_once` blocks.
    | .callOnce t i =>
      match s.pc t, s.once with
      | .idle, .incomplete => some { s.setPc t (.sigaction i) with once := .running t }
      | .idle, .complete => some (s.setPc t (.publish i))
      | .idle, .poisoned => some (s.setPc t .panicked)
      | _, _ => none
    | .sigaction t ok =>
      match s.pc t with
      | .sigaction i =>
        some (if ok then { s.setPc t (.save i s.action) with action := newSigaction }
          else { s.setPc t .panicked with once := .poisoned })
      | _ => none
    | .save t =>
      match s.pc t with
      | .save i old => some { s.setPc t (.finish i) with old := some old }
      | _ => none
    | .finish t =>
      match s.pc t with
      | .finish i => some { s.setPc t (.publish i) with once := .complete }
      | _ => none
    | .publish t =>
      match s.pc t with
      | .publish i =>
        some { s.setPc t (.published i) with threadId := Function.update s.threadId i (some t) }
      | _ => none
    | .withdraw t =>
      match s.pc t with
      | .published i =>
        some { s.setPc t .idle with threadId := Function.update s.threadId i none }
      | _ => none
    | .load i => (s.threadId i).map fun t => { s with killing := t :: s.killing }
    | .kill t =>
      if t ∈ s.killing then some ({ s with killing := s.killing.erase t }.signal t true) else none
    | .raise t => some (s.signal t false)
    | .deliver t =>
      (s.pending t).map fun byInterrupt =>
        let effect := deliver s.action s.old
        { s with
          pending := Function.update s.pending t none
          deliveries := s.deliveries ++ [⟨byInterrupt, s.saving, effect⟩]
          exited := match effect with
            | .terminates => true
            | _ => false }

def initial (prior : Sigaction H) : State T I H where
  action := prior
  old := none
  once := .incomplete
  pc _ := .idle
  threadId _ := none
  killing := []
  pending _ := none
  deliveries := []
  exited := false

/-- A process in which nothing else changes the action for `SIGUSR2`, which is `prior` at first. -/
def machine (prior : Sigaction H) : Machine (State T I H) (Act T I) where
  init s := s = initial prior
  step := step

end Step

inductive Step {T I H : Type*} [DecidableEq T] [DecidableEq I] (s : State T I H) :
    Act T I → State T I H → Prop
  | callFirst {t : T} {i : I} (hpc : s.pc t = .idle) (honce : s.once = .incomplete) :
      Step s (.callOnce t i) { s.setPc t (.sigaction i) with once := .running t }
  | callLater {t : T} {i : I} (hpc : s.pc t = .idle) (honce : s.once = .complete) :
      Step s (.callOnce t i) (s.setPc t (.publish i))
  | callPoisoned {t : T} {i : I} (hpc : s.pc t = .idle) (honce : s.once = .poisoned) :
      Step s (.callOnce t i) (s.setPc t .panicked)
  | sigaction {t : T} {i : I} (hpc : s.pc t = .sigaction i) : Step s (.sigaction t true)
      { s.setPc t (.save i s.action) with action := newSigaction }
  | sigactionFails {t : T} {i : I} (hpc : s.pc t = .sigaction i) : Step s (.sigaction t false)
      { s.setPc t .panicked with once := .poisoned }
  | save {t : T} {i : I} {old : Sigaction H} (hpc : s.pc t = .save i old) :
      Step s (.save t) { s.setPc t (.finish i) with old := some old }
  | finish {t : T} {i : I} (hpc : s.pc t = .finish i) :
      Step s (.finish t) { s.setPc t (.publish i) with once := .complete }
  | publish {t : T} {i : I} (hpc : s.pc t = .publish i) : Step s (.publish t)
      { s.setPc t (.published i) with threadId := Function.update s.threadId i (some t) }
  | withdraw {t : T} {i : I} (hpc : s.pc t = .published i) : Step s (.withdraw t)
      { s.setPc t .idle with threadId := Function.update s.threadId i none }
  | load {i : I} {t : T} (hi : s.threadId i = some t) :
      Step s (.load i) { s with killing := t :: s.killing }
  | kill {t : T} (ht : t ∈ s.killing) :
      Step s (.kill t) ({ s with killing := s.killing.erase t }.signal t true)
  | raise {t : T} : Step s (.raise t) (s.signal t false)
  | deliver {t : T} {byInterrupt exited : Bool} (ht : s.pending t = some byInterrupt) :
      Step s (.deliver t)
        { s with
          pending := Function.update s.pending t none
          deliveries := s.deliveries ++ [⟨byInterrupt, s.saving, deliver s.action s.old⟩]
          exited := exited }

theorem step_cases {T I H : Type*} [DecidableEq T] [DecidableEq I] {s t : State T I H}
    {a : Act T I} (hs : step s a = some t) : Step s a t := by
  simp only [step, Option.ite_none_left_eq_some] at hs
  obtain ⟨-, hs⟩ := hs
  cases a with
  | callOnce u i =>
    dsimp only at hs
    split at hs <;> cases hs
    · exact .callFirst ‹_› ‹_›
    · exact .callLater ‹_› ‹_›
    · exact .callPoisoned ‹_› ‹_›
  | sigaction u ok =>
    dsimp only at hs
    split at hs <;> cases hs
    cases ok
    · exact .sigactionFails ‹_›
    · exact .sigaction ‹_›
  | save u =>
    dsimp only at hs
    split at hs <;> cases hs
    exact .save ‹_›
  | finish u =>
    dsimp only at hs
    split at hs <;> cases hs
    exact .finish ‹_›
  | publish u =>
    dsimp only at hs
    split at hs <;> cases hs
    exact .publish ‹_›
  | withdraw u =>
    dsimp only at hs
    split at hs <;> cases hs
    exact .withdraw ‹_›
  | load i =>
    obtain ⟨u, hu, rfl⟩ := Option.map_eq_some_iff.mp hs
    exact .load hu
  | kill u =>
    obtain ⟨hu, hs⟩ := Option.ite_none_right_eq_some.mp hs
    exact Option.some.inj hs ▸ .kill hu
  | raise u => exact Option.some.inj hs ▸ .raise
  | deliver u =>
    obtain ⟨byInterrupt, hu, rfl⟩ := Option.map_eq_some_iff.mp hs
    exact .deliver hu

variable {T I H : Type*}

def Pc.inClosure : Pc H I → Bool
  | .sigaction _ | .save .. | .finish _ => true
  | _ => false

def Pc.through : Pc H I → Bool
  | .publish _ | .published _ => true
  | _ => false

/-- What a thread in the closure can rely on. -/
def Phase (prior action : Sigaction H) (old : Option (Sigaction H)) : Pc H I → Prop
  | .sigaction _ => action = prior ∧ old = none
  | .save _ saved => saved = prior ∧ action = newSigaction ∧ old = none
  | .finish _ => action = newSigaction ∧ old = some prior
  | _ => True

/-- The closure is run by one thread at most, and only until it has come to its end. -/
structure Install (prior action : Sigaction H) (old : Option (Sigaction H)) (once : Once T)
    (pc : T → Pc H I) : Prop where
  alone : ∀ u, (pc u).inClosure = true ↔ once = .running u
  phase : ∀ u, Phase prior action old (pc u)
  before : once = .incomplete ∨ once = .poisoned → action = prior ∧ old = none
  after : once = .complete → action = newSigaction ∧ old = some prior

/-- What comes of a signal: a delivery in the middle of the installation is lost, and one that an
interrupt has sent is always passed on. -/
structure Chained (prior : Sigaction H) (d : Delivery H) : Prop where
  saving : d.saving = true → d.effect = .swallowed
  settled : d.saving = false →
    d.effect = deliver prior none ∨ d.effect = interruptSigHandler (some prior)
  interrupts : d.byInterrupt = true → d.effect = interruptSigHandler (some prior)

/-- Interrupts know only threads that have come through `call_once`. -/
def Users (s : State T I H) : Prop :=
  s.once = .complete ∨ (∀ u, (s.pc u).through = false) ∧ (∀ i, s.threadId i = none) ∧
    s.killing = [] ∧ ∀ u, s.pending u ≠ some true

structure Inv (prior : Sigaction H) (s : State T I H) : Prop where
  install : Install prior s.action s.old s.once s.pc
  users : Users s
  deliveries : ∀ d ∈ s.deliveries, Chained prior d

theorem phase_of_outside {prior action : Sigaction H} {old : Option (Sigaction H)} {pc : Pc H I}
    (h : pc.inClosure = false) : Phase prior action old pc := by
  cases pc <;> trivial

section Install

variable [DecidableEq T] {prior action action' : Sigaction H} {old old' : Option (Sigaction H)}
  {once once' : Once T} {pc : T → Pc H I} {q : Pc H I} {t : T}

/-- Moves outside of the closure. -/
theorem Install.outside (h : Install prior action old once pc) (hp : (pc t).inClosure = false)
    (hq : q.inClosure = false) : Install prior action old once (Function.update pc t q) := by
  refine { h with alone := fun u => ?_, phase := fun u => ?_ } <;> by_cases hu : u = t
  · subst hu
    rw [Function.update_self, ← h.alone u, hp, hq]
  · rw [Function.update_of_ne hu]
    exact h.alone u
  · subst hu
    rw [Function.update_self]
    exact phase_of_outside hq
  · rw [Function.update_of_ne hu]
    exact h.phase u

/-- A move of the only thread that can be in the closure. -/
theorem Install.move (h : Install prior action old once pc)
    (hother : ∀ u, u ≠ t → once ≠ .running u) (hq : q.inClosure = true ↔ once' = .running t)
    (hother' : ∀ u, u ≠ t → once' ≠ .running u) (hphase : Phase prior action' old' q)
    (hbefore : once' = .incomplete ∨ once' = .poisoned → action' = prior ∧ old' = none)
    (hafter : once' = .complete → action' = newSigaction ∧ old' = some prior) :
    Install prior action' old' once' (Function.update pc t q) := by
  refine ⟨fun u => ?_, fun u => ?_, hbefore, hafter⟩ <;> by_cases hu : u = t
  · subst hu
    rwa [Function.update_self]
  · rw [Function.update_of_ne hu, h.alone u]
    exact iff_of_false (hother u hu) (hother' u hu)
  · subst hu
    rwa [Function.update_self]
  · rw [Function.update_of_ne hu]
    refine phase_of_outside ?_
    rw [← Bool.not_eq_true, h.alone u]
    exact hother u hu

omit [DecidableEq T] in
/-- The thread in the closure is the one that runs it. -/
theorem Install.running (h : Install prior action old once pc) (ht : (pc t).inClosure = true) :
    once = .running t ∧ ∀ u, u ≠ t → once ≠ .running u := by
  have honce := (h.alone t).mp ht
  refine ⟨honce, fun u hu heq => hu ?_⟩
  exact Once.running.inj (heq.symm.trans honce)

end Install

section Proofs

variable [DecidableEq T] [DecidableEq I] {prior : Sigaction H} {s s' : State T I H} {a : Act T I}

/-- The closure sets the action and the static, one after the other, and nothing else does. -/
theorem step_install (h : Install prior s.action s.old s.once s.pc) (hs : step s a = some s') :
    Install prior s'.action s'.old s'.once s'.pc := by
  cases step_cases hs with
  | @callFirst t i hpc honce =>
    obtain ⟨haction, hold⟩ := h.before (.inl honce)
    exact h.move (by simp [honce]) (by simp [Pc.inClosure]) (by simp [eq_comm]) ⟨haction, hold⟩
      (by simp) (by simp)
  | callLater hpc | callPoisoned hpc | publish hpc | withdraw hpc =>
    exact h.outside (by rw [hpc]; rfl) rfl
  | @sigaction t i hpc =>
    obtain ⟨honce, hother⟩ := h.running (by rw [hpc]; rfl)
    have hphase := h.phase t
    rw [hpc] at hphase
    refine h.move hother (iff_of_true rfl honce) hother ⟨hphase.1, rfl, hphase.2⟩ ?_ ?_ <;>
      simp [State.setPc, honce]
  | @sigactionFails t i hpc =>
    obtain ⟨-, hother⟩ := h.running (by rw [hpc]; rfl)
    have hphase := h.phase t
    rw [hpc] at hphase
    exact h.move hother (by simp [Pc.inClosure]) (by simp) trivial (fun _ => hphase) (by simp)
  | @save t i old hpc =>
    obtain ⟨honce, hother⟩ := h.running (by rw [hpc]; rfl)
    have hphase := h.phase t
    rw [hpc] at hphase
    obtain ⟨rfl, haction, -⟩ := hphase
    refine h.move hother (iff_of_true rfl honce) hother ⟨haction, rfl⟩ ?_ ?_ <;>
      simp [State.setPc, honce]
  | @finish t i hpc =>
    obtain ⟨-, hother⟩ := h.running (by rw [hpc]; rfl)
    have hphase := h.phase t
    rw [hpc] at hphase
    exact h.move hother (by simp [Pc.inClosure]) (by simp) trivial (by simp) fun _ => hphase
  | load | kill | raise | deliver => exact h

omit [DecidableEq I] in
theorem through_update {pc : T → Pc H I} {t : T} {q : Pc H I} (h : ∀ u, (pc u).through = false)
    (hq : q.through = false) (u : T) : (Function.update pc t q u).through = false := by
  by_cases hu : u = t
  · rw [hu, Function.update_self, hq]
  · rw [Function.update_of_ne hu, h u]

/-- No interrupt knows a thread before the installation is complete, and then it stays so. -/
theorem step_users (h : Inv prior s) (hs : step s a = some s') : Users s' := by
  rcases h.users with hdone | ⟨hthrough, hthread, hkilling, hpending⟩
  · left
    cases step_cases hs with
    | callFirst hpc honce => simp [hdone] at honce
    | sigactionFails hpc =>
      have honce := (h.install.running (by rw [hpc]; rfl)).1
      simp [hdone] at honce
    | finish => rfl
    | _ => exact hdone
  · have hneither : ∀ {t : T} {q : Pc H I}, s.pc t = q → q.through = true → False := by
      intro t q hpc hq
      simp [← hpc, hthrough t] at hq
    cases step_cases hs with
    | callFirst | callPoisoned | sigaction | sigactionFails | save =>
      exact .inr ⟨through_update hthrough rfl, hthread, hkilling, hpending⟩
    | callLater _ honce => exact .inl honce
    | finish => exact .inl rfl
    | publish hpc | withdraw hpc => exact (hneither hpc rfl).elim
    | load hi => simp [hthread] at hi
    | kill ht => simp [hkilling] at ht
    | @raise t =>
      refine .inr ⟨hthrough, hthread, hkilling, fun u => ?_⟩
      by_cases hu : u = t
      · simp [State.signal, hu, hpending t]
      · simpa [State.signal, hu] using hpending u
    | @deliver t =>
      refine .inr ⟨hthrough, hthread, hkilling, fun u => ?_⟩
      by_cases hu : u = t
      · simp [hu]
      · simpa [hu] using hpending u

omit [DecidableEq T] [DecidableEq I] in
theorem saving_iff : s.saving = true ↔ ∃ t i old, s.once = .running t ∧ s.pc t = .save i old := by
  unfold State.saving
  split
  · rename_i t honce
    split <;> rename_i hpc
    · exact iff_of_true rfl ⟨t, _, _, honce, hpc⟩
    · refine iff_of_false (by simp) ?_
      rintro ⟨u, i, old, honce', hpc'⟩
      obtain rfl := Once.running.inj (honce.symm.trans honce')
      exact hpc i old hpc'
  · rename_i honce
    exact iff_of_false (by simp) fun ⟨t, i, old, honce', _⟩ => honce t honce'

omit [DecidableEq T] [DecidableEq I] in
theorem chained_deliver (h : Inv prior s) {t : T} {byInterrupt : Bool}
    (ht : s.pending t = some byInterrupt) :
    Chained prior ⟨byInterrupt, s.saving, deliver s.action s.old⟩ where
  saving hsaving := by
    obtain ⟨u, i, old, -, hpc⟩ := saving_iff.mp hsaving
    have hphase := h.install.phase u
    rw [hpc] at hphase
    obtain ⟨-, haction, hold⟩ := hphase
    simp only [haction, hold]
    rfl
  settled hsaving := by
    have hprior : s.action = prior ∧ s.old = none →
        deliver s.action s.old = deliver prior none := fun ⟨haction, hold⟩ => by
      rw [haction, hold]
    have hours : s.action = newSigaction ∧ s.old = some prior →
        deliver s.action s.old = interruptSigHandler (some prior) := fun ⟨haction, hold⟩ => by
      rw [haction, hold]
      rfl
    cases honce : s.once with
    | incomplete => exact .inl (hprior (h.install.before (.inl honce)))
    | poisoned => exact .inl (hprior (h.install.before (.inr honce)))
    | complete => exact .inr (hours (h.install.after honce))
    | running u =>
      have hin := (h.install.alone u).mpr honce
      have hphase := h.install.phase u
      cases hpc : s.pc u with
      | sigaction i =>
        rw [hpc] at hphase
        exact .inl (hprior hphase)
      | finish i =>
        rw [hpc] at hphase
        exact .inr (hours hphase)
      | save i old =>
        have hsaving' := saving_iff.mpr ⟨u, i, old, honce, hpc⟩
        simp [hsaving'] at hsaving
      | idle | publish | published | panicked => simp [hpc, Pc.inClosure] at hin
  interrupts hinterrupt := by
    have hdone : s.once = .complete := h.users.resolve_right fun hnone =>
      hnone.2.2.2 t (ht.trans (congrArg some hinterrupt))
    obtain ⟨haction, hold⟩ := h.install.after hdone
    simp only [haction, hold]
    rfl

theorem step_inv (h : Inv prior s) (hs : step s a = some s') : Inv prior s' := by
  refine ⟨step_install h.install hs, step_users h hs, ?_⟩
  cases step_cases hs with
  | deliver ht =>
    refine fun d hd => (List.mem_append.mp hd).elim (h.deliveries d) fun hd => ?_
    exact List.mem_singleton.mp hd ▸ chained_deliver h ht
  | _ => exact h.deliveries

theorem reachable_chained (hr : (machine (T := T) (I := I) prior).Reachable s) : Inv prior s := by
  refine hr.invariant (fun s hs => ?_) fun _ _ _ _ h _ hs => step_inv h hs
  obtain rfl : s = initial prior := hs
  exact ⟨⟨fun u => by simp [initial, Pc.inClosure], fun u => trivial, fun _ => ⟨rfl, rfl⟩, nofun⟩,
    .inr ⟨fun _ => rfl, fun _ => rfl, rfl, nofun⟩, nofun⟩

/-- A signal is lost only between `sigaction` and the assignment, and one that an interrupt has
sent always goes through to the old action. So a function that the application has installed before
gets every other signal, in the way it asked for. -/
theorem signals_chained (hr : (machine (T := T) (I := I) prior).Reachable s) :
    ∀ d ∈ s.deliveries, Chained prior d ∧ ∀ h siginfo, prior = ⟨.function h, siginfo⟩ →
      d.effect = if d.saving then .swallowed else .calls h siginfo := by
  intro d hd
  have hchained := (reachable_chained hr).deliveries d hd
  refine ⟨hchained, ?_⟩
  rintro h siginfo rfl
  cases hsaving : d.saving with
  | true => exact hchained.saving hsaving
  | false => exact (hchained.settled hsaving).elim id id

end Proofs

def oldHandler : Sigaction Unit := ⟨.function (), false⟩

/-- A thread installs the handler while it gets a signal, and two interrupts reach it in its
turn. -/
def signals : List (Act Unit Unit) :=
  [.raise (), .deliver (), .callOnce () (), .sigaction () true, .raise (), .deliver (), .save (),
    .finish (), .publish (), .load (), .load (), .kill (), .deliver (), .withdraw (), .kill (),
    .deliver ()]

theorem oldHandler_chained : ∃ s, (machine oldHandler).exec (initial oldHandler) signals = some s ∧
    s.deliveries.map Delivery.effect =
      [.calls () false, .swallowed, .calls () false, .calls () false] ∧
    ∀ d ∈ s.deliveries, Chained oldHandler d := by
  have hrun : (machine oldHandler).exec (initial oldHandler) signals = some _ := rfl
  have hchained := signals_chained (Machine.reachable_of_exec rfl hrun)
  exact ⟨_, hrun, rfl, fun d hd => (hchained d hd).1⟩

end CompleteIo.SignalChain
