import CompleteIo.Iocp.OverlappedReads

namespace CompleteIo.OverlappedReads

open OverlappedFuture (Held fate)

variable {F X T C D : Type*}

section Ledger

variable {stream : X → C} {v : View X} {l l' : Ledger X C D} {x : X} {c : C}
  [DecidableEq X] [DecidableEq C] [DecidableEq D]

/-- All transfers of a stream were returned, in order, but for those that a future holds. -/
def Rest (held : X → Prop) (l : Ledger X C D) (c : C) : Prop :=
  ∃ rest, l.transfers c = l.returned c ++ rest ∧ ∀ e ∈ rest, held e.1

omit [DecidableEq X] [DecidableEq C] [DecidableEq D] in
theorem Rest.mono {held held' : X → Prop} (hr : Rest held l c) (h : Inv stream v l)
    (hheld : ∀ y, l.buffer y ≠ none → held y → held' y) : Rest held' l c := by
  obtain ⟨rest, hrest, hall⟩ := hr
  refine ⟨rest, hrest, fun e he => hheld e.1 ?_ (hall e he)⟩
  have hmem : e ∈ l.transfers c := hrest ▸ List.mem_append_right _ he
  simp [((h.logged c e).mp hmem).2]

omit [DecidableEq X] [DecidableEq C] [DecidableEq D] in
theorem Rest.imp {held held' : X → Prop} (hr : Rest held l c) (h : ∀ y, held y → held' y) :
    Rest held' l c := by
  obtain ⟨rest, hrest, hall⟩ := hr
  exact ⟨rest, hrest, fun e he => h e.1 (hall e he)⟩

theorem Rest.transfer {held : X → Prop} {data : Option (List D)} (hr : Rest held l c)
    (hx : held x) (ht : OverlappedReads.transfer stream l x data = some l') : Rest held l' c := by
  cases data with
  | none => exact Option.some.inj ht ▸ hr
  | some data =>
    obtain ⟨channel, -, rfl⟩ := Option.map_eq_some_iff.mp ht
    obtain ⟨rest, hrest, hall⟩ := hr
    by_cases hc : c = stream x
    · subst hc
      refine ⟨rest ++ [(x, data)], ?_, ?_⟩
      · simp only [record, Function.update_self, hrest, List.append_assoc]
      · exact fun e he => (List.mem_append.mp he).elim (hall e) fun he => by
          rw [List.mem_singleton.mp he]
          exact hx
    · exact ⟨rest, by simp only [record, Function.update_of_ne hc, hrest], hall⟩

theorem abandoned_transfer {data : Option (List D)}
    (ht : OverlappedReads.transfer stream l x data = some l') : l'.abandoned = l.abandoned := by
  cases data with
  | none => rw [← Option.some.inj ht]
  | some data =>
    obtain ⟨channel, -, rfl⟩ := Option.map_eq_some_iff.mp ht
    rfl

omit [DecidableEq X] [DecidableEq D] in
theorem abandoned_giveBack : (giveBack stream l x).abandoned = l.abandoned := by
  unfold giveBack
  split <;> rfl

omit [DecidableEq X] [DecidableEq C] [DecidableEq D] in
theorem eq_singleton {rest : List (X × List D)} {e₀ : X × List D}
    (hnodup : (rest.map Prod.fst).Nodup) (hall : ∀ e ∈ rest, e.1 = e₀.1) (hmem : e₀ ∈ rest) :
    rest = [e₀] := by
  cases rest with
  | nil => cases hmem
  | cons e tail =>
    obtain rfl : tail = [] := List.eq_nil_iff_forall_not_mem.mpr fun e' he' => by
      refine (List.nodup_cons.mp hnodup).1 (List.mem_map.mpr ⟨e', he', ?_⟩)
      rw [hall e' (List.mem_cons_of_mem _ he'), hall e (List.mem_cons_self ..)]
    rw [List.mem_singleton.mp hmem]

omit [DecidableEq X] [DecidableEq D] in
/-- Where a stream has one operation at a time, a poll returns its latest transfer. -/
theorem Rest.giveBack (hr : Rest v.held l c) (h : Inv stream v l) (hx : v.held x)
    (halone : ∀ y, v.held y → stream y = stream x → y = x) :
    Rest (v.release x).held (OverlappedReads.giveBack stream l x) c := by
  obtain ⟨rest, hrest, hall⟩ := hr
  have hlogged : ∀ e ∈ rest, stream e.1 = c ∧ l.buffer e.1 = some e.2 := fun e he =>
    (h.logged c e).mp (hrest ▸ List.mem_append_right _ he)
  unfold OverlappedReads.giveBack
  split <;> rename_i hbuffer
  · refine ⟨rest, hrest, fun e he => ⟨hall e he, fun hex => ?_⟩⟩
    simp [hex ▸ (hlogged e he).2] at hbuffer
  · rename_i data
    by_cases hc : c = stream x
    · subst hc
      have hsame : ∀ e ∈ rest, e.1 = x := fun e he => halone e.1 (hall e he) (hlogged e he).1
      have hmem : (x, data) ∈ rest := by
        have hmem : (x, data) ∈ l.transfers (stream x) := (h.logged _ _).mpr ⟨rfl, hbuffer⟩
        rw [hrest] at hmem
        refine (List.mem_append.mp hmem).resolve_left fun hreturned => ?_
        exact (h.settled x (.inr ⟨_, List.mem_map_of_mem hreturned⟩)).2 hx
      have hnodup : (rest.map Prod.fst).Nodup := by
        have hnodup := h.once (stream x)
        rw [hrest, List.map_append] at hnodup
        exact (List.nodup_append.mp hnodup).2.1
      refine ⟨[], ?_, nofun⟩
      simp only [record, Function.update_self, List.append_nil, hrest]
      rw [eq_singleton hnodup hsame hmem]
    · refine ⟨rest, by simp only [record, Function.update_of_ne hc, hrest], fun e he => ?_⟩
      exact ⟨hall e he, fun hex => hc (hex ▸ (hlogged e he).1).symm⟩

end Ledger

section Proofs

variable [DecidableEq F] [DecidableEq X] [DecidableEq C] [DecidableEq D] {stream : X → C}
  {s t : State F X T C D} {a : Act F X T C D} {b : OverlappedFuture.Act F X T}
  {data : Option (List D)} {x : X}

/-- A read begins only when its stream has no other one, and none goes away before its result was
returned. -/
def InTurn (stream : X → C) (s : State F X T C D) : Act F X T C D → Prop
  | .future (.move _ (.pollBegin x _)) _ => ∀ y, Held s.futures y → stream y ≠ stream x
  | .future b _ => ∀ x, fate s.futures b ≠ some (.abandons x)
  | .arrive .. => True

omit [DecidableEq F] [DecidableEq X] [DecidableEq C] [DecidableEq D] in
theorem not_abandons {b : OverlappedFuture.Act F X T} (hok : InTurn stream s (.future b data)) :
    fate s.futures b ≠ some (.abandons x) := by
  cases b with
  | move f m =>
    cases m with
    | pollBegin y task =>
      intro hfate
      obtain ⟨fut, -, hfate⟩ := Option.bind_eq_some_iff.mp hfate
      obtain ⟨k, state, o⟩ := fut
      cases state <;> cases hfate
    | _ => exact hok x
  | _ => exact hok x

omit [DecidableEq C] [DecidableEq D] in
/-- Only a first poll begins to hold an operation, and it does so in its turn. -/
theorem alone_step (hf : OverlappedFuture.Inv s.futures)
    (h : ∀ x y, Held s.futures x → Held s.futures y → stream x = stream y → x = y)
    (hok : InTurn stream s (.future b data))
    (hfuture : OverlappedFuture.step s.futures b = some t.futures) :
    ∀ x y, Held t.futures x → Held t.futures y → stream x = stream y → x = y := by
  have hback : ∀ y, Held t.futures y →
      Held s.futures y ∨ ∃ f task, b = .move f (.pollBegin y task) := by
    intro y hy
    have heffect := OverlappedFuture.step_effect hf hfuture
    generalize fate s.futures b = o at heffect
    cases heffect with
    | none hback => exact (hback y hy).imp_right fun hbegins => hbegins.2
    | transfers _ _ hheld => exact .inl ((hheld y).mp hy)
    | completes _ _ hheld | returns _ _ hheld => exact .inl ((hheld y).mp hy).1
    | abandons _ hheld => exact .inl ((hheld y).mp hy).1
  intro x y hx hy hxy
  rcases hback x hx with hx | ⟨_, _, hx⟩ <;> rcases hback y hy with hy | ⟨_, _, hy⟩
  · exact h x y hx hy hxy
  · subst hy
    exact absurd hxy (hok x hx)
  · subst hx
    exact absurd hxy.symm (hok y hy)
  · rw [hx] at hy
    cases hy
    rfl

structure Ordered (stream : X → C) (s : State F X T C D) : Prop where
  alone : ∀ x y, Held s.futures x → Held s.futures y → stream x = stream y → x = y
  kept : s.ledger.abandoned = []
  rest : ∀ c, Rest (Held s.futures) s.ledger c

theorem future_ordered (hf : OverlappedFuture.Inv s.futures)
    (hi : Inv stream (view s.futures) s.ledger) (h : Ordered stream s)
    (hok : InTurn stream s (.future b data))
    (hs : (machine stream).step s (.future b data) = some t) : Ordered stream t := by
  have hfuture := future_step hs
  have halone := alone_step hf h.alone hok hfuture
  have hmid := inv_between hf hi hfuture
  have heffect := OverlappedFuture.step_effect hf hfuture
  generalize hfate : fate s.futures b = o at heffect
  cases heffect with
  | none hback hheld hprogress =>
    have hidle : t.ledger = s.ledger := Machine.idle_right hs (by simp [link, hfate])
    refine ⟨halone, hidle ▸ h.kept, fun c => hidle ▸ (h.rest c).mono hi fun y hy hold => ?_⟩
    exact (hheld y hold).resolve_right fun hsubmitting => hi.done y hy (.inr (.inl hsubmitting))
  | @transfers x hx hdone hheld =>
    have hledger : ledgerStep stream s.ledger (.fate (.transfers x) data) = some t.ledger :=
      Machine.step_right hs (b := .fate (.transfers x) data) (by simp [link, hfate])
    have hx : Held s.futures x := (hi.inFlight x hx).resolve_right (by simp [h.kept])
    exact ⟨halone, (abandoned_transfer hledger).trans h.kept, fun c =>
      ((h.rest c).transfer hx hledger).imp fun y => (hheld y).mpr⟩
  | @completes x hx hdone hheld =>
    have hledger : ledgerStep stream s.ledger (.fate (.completes x) data) = some t.ledger :=
      Machine.step_right hs (b := .fate (.completes x) data) (by simp [link, hfate])
    obtain ⟨l, htransfer, hl⟩ := Option.map_eq_some_iff.mp hledger
    have hbuffer : s.ledger.buffer x = none := of_not_not fun hne => hi.done x hne (.inr (.inl hx))
    have hinv := hmid.transfer hdone hbuffer (.inl hx.held) htransfer
    rw [State.ledger] at hl
    refine ⟨halone, ?_, fun c => ?_⟩
    · rw [State.ledger, ← hl, abandoned_giveBack, abandoned_transfer htransfer, h.kept]
    · have hrest := ((h.rest c).transfer hx.held htransfer).giveBack hinv hx.held fun y hy =>
        h.alone y x hy hx.held
      rw [State.ledger, ← hl]
      exact hrest.imp fun y => (hheld y).mpr
  | @returns x hx hdone hheld =>
    have hledger : ledgerStep stream s.ledger (.fate (.returns x) data) = some t.ledger :=
      Machine.step_right hs (b := .fate (.returns x) data) (by simp [link, hfate])
    refine ⟨halone, ?_, fun c => ?_⟩
    · rw [← Option.some.inj hledger, abandoned_giveBack, h.kept]
    · have hrest := (h.rest c).giveBack hmid hx fun y hy => h.alone y x hy hx
      rw [← Option.some.inj hledger]
      exact hrest.imp fun y => (hheld y).mpr
  | @abandons x => exact absurd hfate (not_abandons hok)

theorem step_ordered (hf : OverlappedFuture.Inv s.futures)
    (hi : Inv stream (view s.futures) s.ledger) (h : Ordered stream s) (hok : InTurn stream s a)
    (hs : (machine stream).step s a = some t) : Ordered stream t := by
  cases a with
  | future b data => exact future_ordered hf hi h hok hs
  | arrive c data =>
    have hidle : t.futures = s.futures := Machine.idle_left hs rfl
    have hledger : ledgerStep stream s.ledger (.arrive c data) = some t.ledger :=
      Machine.step_right hs (b := .arrive c data) rfl
    refine ⟨hidle ▸ h.alone, ?_, fun d => ?_⟩
    · rw [← Option.some.inj hledger]
      exact h.kept
    · rw [hidle, ← Option.some.inj hledger]
      exact h.rest d

theorem reachable_ordered (hr : (machine stream).ReachesUnder (InTurn stream) s) :
    Ordered stream s := by
  refine hr.invariant (I := Ordered stream) (fun s hs => ?_) fun s a t hr h hok hs =>
    step_ordered (futuresInv hr) (readsInv hr) h hok hs
  obtain ⟨hfutures, hledger⟩ : s.1 = OverlappedFuture.initial ∧ s.2 = emptyLedger := hs
  have hnone : ∀ x, ¬ Held s.futures x := by
    rintro x ⟨f, fut, hf, -⟩
    rw [State.futures, hfutures] at hf
    cases hf
  refine ⟨fun x _ hx => absurd hx (hnone x), ?_, fun c => ⟨[], ?_, fun e he => ?_⟩⟩
  · rw [State.ledger, hledger]
    rfl
  · rw [State.ledger, hledger]
    rfl
  · exact absurd he List.not_mem_nil

/-- Reads that take turns and run to their end hand out a first part of the stream, all of what
the kernel has given away once none of them is under way. -/
theorem reads_in_order (hr : (machine stream).ReachesUnder (InTurn stream) s) (c : C) :
    (s.ledger.returned c).flatMap Prod.snd <+: (s.ledger.kernel c).sent ∧
      ((∀ x, stream x = c → ¬ Held s.futures x) →
        (s.ledger.returned c).flatMap Prod.snd = (s.ledger.kernel c).received) := by
  have h := readsInv hr
  obtain ⟨rest, hrest, hall⟩ := (reachable_ordered hr).rest c
  have hmoved := h.moved c
  rw [hrest, List.flatMap_append] at hmoved
  refine ⟨?_, fun hnone => ?_⟩
  · exact (List.prefix_append _ _).trans (hmoved ▸ (s.ledger.kernel c).inOrder)
  · have hempty : rest = [] := List.eq_nil_iff_forall_not_mem.mpr fun e he => by
      have hstream := ((h.logged c e).mp (hrest ▸ List.mem_append_right _ he)).1
      exact hnone e.1 hstream (hall e he)
    rwa [hempty, List.flatMap_nil, List.append_nil] at hmoved

end Proofs

/-- Two reads, of which the first waits for its data and the second does not. -/
def inTurn : List (Act Bool ℕ Unit Unit ℕ) :=
  [.future (.create false .tcpRead) none, .future (.move false (.pollBegin 0 ())) none,
    .future (.move false (.submit .pending)) none, .future (.move false .store) none,
    .arrive () [1, 2, 3, 4], .future (.port (.complete 0)) (some [1, 2]),
    .future (.move false .poll) none, .future (.move false (.register (some ()))) none,
    .future (.move false .pollSocket) none, .future (.create true .tcpRead) none,
    .future (.move true (.pollBegin 1 ())) none,
    .future (.move true (.submit .completed)) (some [3])]

theorem inTurn_every : (machine oneStream).Every (InTurn oneStream) initial inTurn := by
  refine .cons (fun x h => nomatch h) rfl <| .cons ?_ rfl <| .cons (fun x h => nomatch h) rfl <|
    .cons (fun x h => nomatch h) rfl <| .cons trivial rfl <| .cons (fun x h => nomatch h) rfl <|
    .cons (fun x h => nomatch h) rfl <| .cons (fun x h => nomatch h) rfl <|
    .cons (fun x h => nomatch h) rfl <| .cons (fun x h => nomatch h) rfl <| .cons ?_ rfl <|
    .cons (fun x h => nomatch h) rfl trivial
  · rintro y ⟨f, fut, hf, hlive, htask⟩
    cases f <;> cases hf
    cases htask
  · rintro y ⟨f, fut, hf, hlive, htask⟩
    cases f <;> cases hf
    · exact hlive.elim
    · cases htask

theorem reads_in_order_inTurn : ∃ s, (machine oneStream).exec initial inTurn = some s ∧
    (s.ledger.returned ()).flatMap Prod.snd = [1, 2, 3] ∧
    (s.ledger.returned ()).flatMap Prod.snd <+: (s.ledger.kernel ()).sent := by
  have hrun : (machine oneStream).exec initial inTurn = some _ := rfl
  have hr := Machine.ReachesUnder.exec (.init initial_init) inTurn_every hrun
  exact ⟨_, hrun, rfl, (reads_in_order hr ()).1⟩

end CompleteIo.OverlappedReads
