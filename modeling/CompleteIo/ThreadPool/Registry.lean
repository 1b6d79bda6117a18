import Mathlib.Logic.Function.Basic
import CompleteIo.Lib.Machine
import CompleteIo.Lib.OneToken
import CompleteIo.Lib.SwapRemove

namespace CompleteIo.Registry

/-- How far `with_concurrency` is; the number is that of the workers pushed so far. -/
inductive BuildPc
  | lock
  | spawning (k : ℕ)
  | pushing (k : ℕ)
  | done
  | panicked (k : ℕ)
  deriving DecidableEq

inductive WorkerPc
  | unborn
  | test
  -- Past that test, up to the end of its `turn`, which may wait without a timeout.
  | running
  -- Out of its loop; `pool.workers.write()` comes next.
  | lock
  | remove
  | unlock
  | finished
  | panicked
  deriving DecidableEq

structure State where
  build : BuildPc
  workers : List ℕ
  locked : Bool
  poisoned : Bool
  active : Bool
  worker : ℕ → WorkerPc

inductive Act
  | buildLock
  | createThread
  | createFails
  | push
  | buildUnlock
  | beginShutdown
  | test (w : ℕ)
  -- The `turn` of the worker returns, for which it may need an event.
  | turnEnd (w : ℕ)
  | lock (w : ℕ)
  | remove (w : ℕ)
  | unlock (w : ℕ)

def State.setWorker (s : State) (w : ℕ) (pc : WorkerPc) : State :=
  { s with worker := Function.update s.worker w pc }

/-- `position` and `swap_remove`; the `expect` panics if the worker is not found. -/
def remove (s : State) (w : ℕ) : State :=
  match s.workers.findIdx? (· = w) with
  | some i => { s with workers := swapRemove s.workers i }.setWorker w .unlock
  | none => s.setWorker w .panicked

def step (concurrency : ℕ) (s : State) : Act → Option State
  | .buildLock =>
    if s.build = .lock ∧ s.locked = false then
      some { s with build := .spawning 0, locked := true }
    else none
  -- The new thread runs at once, ahead of the push.
  | .createThread =>
    match s.build with
    | .spawning k =>
      if k < concurrency then some ({ s with build := .pushing k }.setWorker k .test) else none
    | _ => none
  | .createFails =>
    match s.build with
    | .spawning k =>
      if k < concurrency then
        some { s with build := .panicked k, locked := false, poisoned := true }
      else none
    | _ => none
  | .push =>
    match s.build with
    | .pushing k => some { s with build := .spawning (k + 1), workers := s.workers ++ [k] }
    | _ => none
  | .buildUnlock =>
    if s.build = .spawning concurrency then some { s with build := .done, locked := false }
    else none
  | .beginShutdown => if s.build = .done then some { s with active := false } else none
  | .test w =>
    if s.worker w = .test then some (s.setWorker w (if s.active then .running else .lock)) else none
  | .turnEnd w => if s.worker w = .running then some (s.setWorker w .test) else none
  -- `unwrap` panics on a poisoned lock.
  | .lock w =>
    if s.worker w = .lock ∧ s.locked = false then
      some (if s.poisoned then s.setWorker w .panicked
        else { s with locked := true }.setWorker w .remove)
    else none
  | .remove w => if s.worker w = .remove then some (remove s w) else none
  | .unlock w =>
    if s.worker w = .unlock then some ({ s with locked := false }.setWorker w .finished) else none

def initial : State where
  build := .lock
  workers := []
  locked := false
  poisoned := false
  active := true
  worker _ := .unborn

def machine (concurrency : ℕ) : Machine State Act where
  init s := s = initial
  step := step concurrency

def WorkerPc.InLoop : WorkerPc → Prop
  | .test | .running => True
  | _ => False

def WorkerPc.Registered : WorkerPc → Prop
  | .test | .running | .lock | .remove => True
  | _ => False

def WorkerPc.Guards : WorkerPc → Prop
  | .remove | .unlock => True
  | _ => False

def BuildPc.Guards : BuildPc → Prop
  | .spawning _ | .pushing _ => True
  | _ => False

def BuildPc.pushed (concurrency : ℕ) : BuildPc → ℕ
  | .lock => 0
  | .spawning k | .pushing k | .panicked k => k
  | .done => concurrency

def BuildPc.created (concurrency : ℕ) : BuildPc → ℕ
  | .pushing k => k + 1
  | pc => pc.pushed concurrency

/-- Who has the guard of `workers`: `with_concurrency` or a worker. -/
def State.Guards (s : State) : Option ℕ → Prop
  | none => s.build.Guards
  | some w => (s.worker w).Guards

/-- What each step keeps. That workers leave only after a `begin_shutdown`, for which the pool
must have been built, is why they find themselves in `workers` and the lock sound. -/
structure Inv (concurrency : ℕ) (s : State) : Prop where
  guarded : OneToken (!s.locked) s.Guards
  unbuilt : s.build ≠ .done → s.active = true
  poisoned : s.poisoned = true → ∃ k, s.build = .panicked k
  stays : s.active = true → ∀ w, s.worker w = .unborn ∨ (s.worker w).InLoop
  sound : ∀ w, s.worker w ≠ .panicked
  nodup : s.workers.Nodup
  born : ∀ w, s.worker w ≠ .unborn ↔ w < s.build.created concurrency
  registered : ∀ w, w ∈ s.workers ↔ w < s.build.pushed concurrency ∧ (s.worker w).Registered

inductive Step (concurrency : ℕ) (s : State) : Act → State → Prop
  | buildLock (hpc : s.build = .lock) (hfree : s.locked = false) :
      Step concurrency s .buildLock { s with build := .spawning 0, locked := true }
  | createThread {k : ℕ} (hpc : s.build = .spawning k) :
      Step concurrency s .createThread ({ s with build := .pushing k }.setWorker k .test)
  | createFails {k : ℕ} (hpc : s.build = .spawning k) :
      Step concurrency s .createFails
        { s with build := .panicked k, locked := false, poisoned := true }
  | push {k : ℕ} (hpc : s.build = .pushing k) :
      Step concurrency s .push
        { s with build := .spawning (k + 1), workers := s.workers ++ [k] }
  | buildUnlock (hpc : s.build = .spawning concurrency) :
      Step concurrency s .buildUnlock { s with build := .done, locked := false }
  | beginShutdown (hpc : s.build = .done) :
      Step concurrency s .beginShutdown { s with active := false }
  | test {w : ℕ} (hpc : s.worker w = .test) :
      Step concurrency s (.test w) (s.setWorker w (if s.active then .running else .lock))
  | turnEnd {w : ℕ} (hpc : s.worker w = .running) :
      Step concurrency s (.turnEnd w) (s.setWorker w .test)
  | lock {w : ℕ} (hpc : s.worker w = .lock) (hfree : s.locked = false)
      (hsound : s.poisoned = false) :
      Step concurrency s (.lock w) ({ s with locked := true }.setWorker w .remove)
  | lockFails {w : ℕ} (hpc : s.worker w = .lock) (hpoisoned : s.poisoned = true) :
      Step concurrency s (.lock w) (s.setWorker w .panicked)
  | remove {w : ℕ} (hpc : s.worker w = .remove) : Step concurrency s (.remove w) (remove s w)
  | unlock {w : ℕ} (hpc : s.worker w = .unlock) :
      Step concurrency s (.unlock w) ({ s with locked := false }.setWorker w .finished)

theorem step_cases {concurrency : ℕ} {s t : State} {a : Act} (hs : step concurrency s a = some t) :
    Step concurrency s a t := by
  cases a <;> simp only [step] at hs
  case createThread | createFails =>
    split at hs
    · rename_i hpc
      obtain ⟨-, hs⟩ := Option.ite_none_right_eq_some.mp hs
      exact Option.some.inj hs ▸ by constructor; exact hpc
    · cases hs
  case push =>
    split at hs
    · rename_i hpc
      exact Option.some.inj hs ▸ .push hpc
    · cases hs
  case lock w =>
    obtain ⟨⟨hpc, hfree⟩, hs⟩ := Option.ite_none_right_eq_some.mp hs
    by_cases hpoisoned : s.poisoned = true
    · rw [if_pos hpoisoned] at hs
      exact Option.some.inj hs ▸ .lockFails hpc hpoisoned
    · rw [if_neg hpoisoned] at hs
      exact Option.some.inj hs ▸ .lock hpc hfree (Bool.eq_false_iff.mpr hpoisoned)
  case buildLock =>
    obtain ⟨⟨hpc, hfree⟩, hs⟩ := Option.ite_none_right_eq_some.mp hs
    exact Option.some.inj hs ▸ .buildLock hpc hfree
  all_goals
    obtain ⟨hpc, hs⟩ := Option.ite_none_right_eq_some.mp hs
    exact Option.some.inj hs ▸ by constructor; exact hpc

end CompleteIo.Registry
