import CompleteIo.Epoll.InstanceOwnership

namespace CompleteIo.EpollInstances

inductive Posted
  | panicked
  | pushed (event : Obj)
  deriving DecidableEq

def postCustomEvent (s : State) (i : ℕ) (tag : EventTag) : Posted :=
  if tag.epollFd ≠ s.fd i then .panicked else .pushed tag.ptr

section Proofs

variable {s : State} {i : ℕ} {tag : EventTag} {as : List Act}

/-- No instance has the fd number of another one that has a tag, since a tagged one never dies. -/
theorem Inv.instance_of_epollFd (h : Inv s) (htag : tag ∈ s.tags) (hi : .handle i ∈ s.values)
    (hfd : tag.epollFd = s.fd i) : tag.ptr.instance = i := by
  obtain ⟨c, hc, halive⟩ := h.inner_alive htag
  have hinner := (h.ok.counted.pos_iff hc).mp halive.1
  obtain ⟨j, e, r, rfl, -⟩ := h.tag tag htag
  exact h.distinct j i hinner (mem_refs_of_value hi) hfd

/-- Event tags are sound identities: past the comparison of the fds there is a custom event of
this very instance, and it is still allocated. -/
theorem post_sound (hrun : machine.exec initial as = some s) (hi : .handle i ∈ s.values)
    (htag : tag ∈ s.tags) :
    (postCustomEvent s i tag ≠ .panicked →
      (∃ c r, .newCustomEvent i c r ∈ as ∧ tag = ⟨.customEvent i c, s.fd i⟩) ∧
        ∃ c, s.heap.count tag.ptr = some c ∧ c.Alive) ∧
    (tag.ptr.instance ≠ i → postCustomEvent s i tag = .panicked) := by
  have hinv := reachable_inv (Machine.reachable_of_exec rfl hrun)
  have hpasses : postCustomEvent s i tag ≠ .panicked → tag.ptr.instance = i := by
    intro hpost
    refine hinv.instance_of_epollFd htag hi ?_
    by_contra hfd
    exact hpost (if_pos hfd)
  refine ⟨fun hpost => ⟨?_, hinv.customEvent_alive htag⟩, not_imp_comm.mp hpasses⟩
  have hinst := hpasses hpost
  obtain ⟨j, c, r, rfl, -⟩ := hinv.tag tag htag
  obtain rfl : j = i := hinst
  obtain ⟨r, hr⟩ := (tag_iff_newCustomEvent hrun).mp ⟨_, htag⟩
  exact ⟨c, r, hr, rfl⟩

/-- The second instance gets the fd number that the first one has given back. -/
def reusing : List Act :=
  [.new 0 3, .handle 0, .dropValue (.epoll 0), .dropValue (.handle 0), .new 1 3, .handle 1,
    .newCustomEvent 1 0 0]

theorem post_sound_reusing :
    ∃ s, machine.exec initial reusing = some s ∧ s.heap.count (.inner 0) = some ⟨0, 1⟩ ∧
      ∃ c, s.heap.count (.customEvent 1 0) = some c ∧ c.Alive := by
  refine ⟨_, rfl, rfl, ?_⟩
  refine ((@post_sound _ 1 ⟨.customEvent 1 0, 3⟩ reusing rfl ?_ ?_).1 ?_).2 <;> decide

end Proofs

end CompleteIo.EpollInstances
