import CompleteIo.ThreadPool.FirstPoll
import CompleteIo.ThreadPool.SpawnDelivery

namespace CompleteIo.SpawnDelivery

variable {P W T : Type*} {x : GlobalTask.State W T} {e : CustomEvent.State P W T} {t : T}

variable [DecidableEq P] [DecidableEq W] [DecidableEq T] {s s' : State P W T} {a : Act P W T}

/-- The schedule stays within the assumptions on calls of `notify` and on the eventfd. -/
def Regular (s : State P W T) (a : Act P W T) : Prop := FewCalls s a ∧ WritesSucceed s a

theorem step_unpolled (h : GlobalTask.Unpolled s.tasks t)
    (hno : ∀ w level, a ≠ .work (.beginPoll w t level)) (hs : (machine P W T).step s a = some s') :
    GlobalTask.Unpolled s'.tasks t := by
  cases hb : link.left a with
  | none =>
    rw [State.tasks, Machine.idle_left hs hb]
    exact h
  | some b =>
    refine GlobalTask.step_unpolled h (fun w level he => ?_) (Machine.step_left hs hb)
    cases a with
    | work b' =>
      obtain rfl : b' = b := Option.some.inj hb
      exact hno w level (by rw [he])
    | _ => simp [link, he] at hb

end CompleteIo.SpawnDelivery
