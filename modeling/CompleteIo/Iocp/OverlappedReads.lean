import CompleteIo.Lib.Channel
import CompleteIo.Lib.Compose
import CompleteIo.Iocp.OperationFate

namespace CompleteIo.OverlappedReads

open OverlappedFuture (Fate Held Untransferred fate)

variable {F X T C D : Type*}

/-- The streams that the operations read from, and what has become of the data. -/
structure Ledger (X C D : Type*) where
  kernel : C → Channel D
  buffer : X → Option (List D)
  -- The transfers from each stream, the oldest first.
  transfers : C → List (X × List D)
  returned : C → List (X × List D)
  abandoned : List X

/-- An operation that fails transfers no data. -/
inductive LedgerAct (X C D : Type*)
  | arrive (c : C) (data : List D)
  | fate (fate : Fate X) (data : Option (List D))

inductive Act (F X T C D : Type*)
  | arrive (c : C) (data : List D)
  -- A step of a future or of the kernel, with what is transferred in it, if anything is.
  | future (a : OverlappedFuture.Act F X T) (data : Option (List D))

abbrev State (F X T C D : Type*) := OverlappedFuture.State F X T × Ledger X C D

abbrev State.futures (s : State F X T C D) : OverlappedFuture.State F X T := s.1
abbrev State.ledger (s : State F X T C D) : Ledger X C D := s.2

section Step

variable [DecidableEq X] [DecidableEq C] [DecidableEq D] (stream : X → C)

omit [DecidableEq X] [DecidableEq D] in
def record (logs : C → List (X × List D)) (c : C) (e : X × List D) : C → List (X × List D) :=
  Function.update logs c (logs c ++ [e])

def transfer (l : Ledger X C D) (x : X) : Option (List D) → Option (Ledger X C D)
  | none => some l
  | some data =>
    ((l.kernel (stream x)).receiveAll data).map fun channel =>
      { l with
        kernel := Function.update l.kernel (stream x) channel
        buffer := Function.update l.buffer x (some data)
        transfers := record l.transfers (stream x) (x, data) }

omit [DecidableEq X] [DecidableEq D] in
def giveBack (l : Ledger X C D) (x : X) : Ledger X C D :=
  match l.buffer x with
  | none => l
  | some data => { l with returned := record l.returned (stream x) (x, data) }

def ledgerStep (l : Ledger X C D) : LedgerAct X C D → Option (Ledger X C D)
  | .arrive c data =>
    some { l with kernel := Function.update l.kernel c ((l.kernel c).sendAll data) }
  | .fate (.transfers x) data => transfer stream l x data
  | .fate (.completes x) data => (transfer stream l x data).map (giveBack stream · x)
  | .fate (.returns x) _ => some (giveBack stream l x)
  | .fate (.abandons x) _ => some { l with abandoned := x :: l.abandoned }

def emptyLedger : Ledger X C D where
  kernel _ := .empty
  buffer _ := none
  transfers _ := []
  returned _ := []
  abandoned := []

def ledger : Machine (Ledger X C D) (LedgerAct X C D) where
  init l := l = emptyLedger
  step := ledgerStep stream

def link : Link (OverlappedFuture.State F X T) (Ledger X C D) (OverlappedFuture.Act F X T)
    (LedgerAct X C D) (Act F X T C D) where
  left
    | .future a _ => some a
    | .arrive .. => none
  right s
    | .future a data => (fate s a).map (.fate · data)
    | .arrive c data => some (.arrive c data)
  permits _ _ _ := true

def machine [DecidableEq F] : Machine (State F X T C D) (Act F X T C D) :=
  (OverlappedFuture.machine F X T).beside (ledger stream) link

end Step

structure View (X : Type*) where
  held : X → Prop
  untransferred : X → Prop
  known : X → Prop
  inProgress : X → Prop

def view (s : OverlappedFuture.State F X T) : View X where
  held := Held s
  untransferred := Untransferred s
  known x := s.tasks.count x ≠ none
  inProgress x := x ∈ s.tasks.inProgress

/-- Each operation transfers once at most, and what it has transferred was returned, is held by its
future or was abandoned. -/
structure Inv (stream : X → C) (v : View X) (l : Ledger X C D) : Prop where
  moved : ∀ c, (l.transfers c).flatMap Prod.snd = (l.kernel c).received
  logged : ∀ c e, e ∈ l.transfers c ↔ stream e.1 = c ∧ l.buffer e.1 = some e.2
  once : ∀ c, ((l.transfers c).map Prod.fst).Nodup
  done : ∀ x, l.buffer x ≠ none → ¬ v.untransferred x
  genuine : ∀ c, ∀ e ∈ l.returned c, e ∈ l.transfers c
  returnedOnce : ∀ c, ((l.returned c).map Prod.fst).Nodup
  settled : ∀ x, x ∈ l.abandoned ∨ (∃ c, x ∈ (l.returned c).map Prod.fst) →
    v.known x ∧ ¬ v.held x
  disjoint : ∀ x ∈ l.abandoned, ∀ c, x ∉ (l.returned c).map Prod.fst
  accounted : ∀ c, ∀ e ∈ l.transfers c, e ∈ l.returned c ∨ e.1 ∈ l.abandoned ∨ v.held e.1
  inFlight : ∀ x, v.inProgress x → v.held x ∨ x ∈ l.abandoned

section Ledger

variable {stream : X → C} {v w : View X} {l l' : Ledger X C D} {x : X} {c : C}

theorem Inv.of_view (h : Inv stream v l)
    (huntransferred : ∀ y, w.untransferred y → v.untransferred y)
    (hknown : ∀ y, v.known y → w.known y) (hback : ∀ y, w.held y → v.held y ∨ ¬ v.known y)
    (hheld : ∀ y, v.held y → w.held y ∨ v.untransferred y)
    (hprogress : ∀ y, w.inProgress y → w.held y ∨ v.inProgress y ∧ (v.held y → w.held y)) :
    Inv stream w l :=
  { h with
    done := fun y hy huntr => h.done y hy (huntransferred y huntr)
    settled := fun y hy => by
      obtain ⟨hk, hn⟩ := h.settled y hy
      exact ⟨hknown y hk, fun hw => (hback y hw).elim hn fun hnot => hnot hk⟩
    accounted := fun c e he => by
      refine (h.accounted c e he).imp_right (Or.imp_right fun hv => ?_)
      have hbuffer : l.buffer e.1 ≠ none := by simp [((h.logged c e).mp he).2]
      exact (hheld e.1 hv).resolve_right (h.done e.1 hbuffer)
    inFlight := fun y hy => by
      rcases hprogress y hy with hw | ⟨hv, hw⟩
      · exact .inl hw
      · exact (h.inFlight y hv).imp_left hw }

section Record

variable [DecidableEq C] {logs : C → List (X × List D)} {e e₀ : X × List D} {c₀ : C}

theorem mem_record : e ∈ record logs c₀ e₀ c ↔ e ∈ logs c ∨ c₀ = c ∧ e = e₀ := by
  by_cases hc : c = c₀
  · subst hc
    simp [record]
  · simp [record, hc, Ne.symm hc]

theorem mem_fst_record :
    x ∈ (record logs c₀ e₀ c).map Prod.fst ↔ x ∈ (logs c).map Prod.fst ∨ c₀ = c ∧ x = e₀.1 := by
  by_cases hc : c = c₀
  · subst hc
    simp [record]
  · simp [record, hc, Ne.symm hc]

theorem nodup_record (h : ∀ c, ((logs c).map Prod.fst).Nodup)
    (hnew : e₀.1 ∉ (logs c₀).map Prod.fst) (c : C) :
    ((record logs c₀ e₀ c).map Prod.fst).Nodup := by
  by_cases hc : c = c₀
  · subst hc
    rw [record, Function.update_self, List.map_append, List.map_singleton]
    exact List.nodup_append.mpr ⟨h c, List.pairwise_singleton .., fun y hy z hz => by
      rw [List.mem_singleton.mp hz]
      exact ne_of_mem_of_not_mem hy hnew⟩
  · rw [record, Function.update_of_ne hc]
    exact h c

end Record

/-- The view after a poll that ends the future of `x`, or a drop of it. -/
def View.release (v : View X) (x : X) : View X := { v with held := fun y => v.held y ∧ y ≠ x }

theorem Inv.of_release {held : X → Prop} (h : Inv stream (View.release { w with held } x) l)
    (hheld : ∀ y, w.held y ↔ held y ∧ y ≠ x) : Inv stream w l :=
  h.of_view (fun _ => id) (fun _ => id) (fun y hy => .inl ((hheld y).mp hy))
    (fun y hy => .inl ((hheld y).mpr hy)) fun y hy => .inr ⟨hy, (hheld y).mpr⟩

variable [DecidableEq X] [DecidableEq C] [DecidableEq D]

/-- The transfer of an operation that had none yet. -/
theorem Inv.transfer {data : Option (List D)} (h : Inv stream v l) (hdone : ¬ v.untransferred x)
    (hbuffer : l.buffer x = none) (hx : v.held x ∨ x ∈ l.abandoned)
    (ht : OverlappedReads.transfer stream l x data = some l') : Inv stream v l' := by
  cases data with
  | none => exact Option.some.inj ht ▸ h
  | some data =>
    obtain ⟨channel, hreceive, rfl⟩ := Option.map_eq_some_iff.mp ht
    obtain ⟨-, hreceived⟩ := Channel.receiveAll_eq_some hreceive
    have hnew : ∀ c e, e ∈ l.transfers c → e.1 ≠ x := fun c e he hex => by
      simp [hex ▸ ((h.logged c e).mp he).2] at hbuffer
    refine { h with
      moved := fun c => ?_, logged := fun c e => ?_, once := nodup_record h.once fun hmem => ?_
      done := fun y hy => ?_, genuine := fun c e he => mem_record.mpr (.inl (h.genuine c e he))
      accounted := fun c e he => ?_ }
    · by_cases hc : c = stream x
      · subst hc
        simp only [record, Function.update_self, List.flatMap_append, List.flatMap_singleton]
        rw [h.moved, hreceived]
      · simp only [record, Function.update_of_ne hc, h.moved]
    · rw [mem_record, h.logged]
      by_cases hex : e.1 = x
      · subst hex
        simp [hbuffer, Prod.ext_iff, eq_comm]
      · simp [Prod.ext_iff, hex]
    · obtain ⟨e, he, hex⟩ := List.mem_map.mp hmem
      exact hnew _ e he hex
    · by_cases hyx : y = x
      · exact hyx ▸ hdone
      · exact h.done y (by simpa [Function.update_of_ne hyx] using hy)
    · rcases mem_record.mp he with he | ⟨-, rfl⟩
      · exact h.accounted c e he
      · exact .inr hx.symm

omit [DecidableEq X] [DecidableEq D] in
/-- A poll returns what its operation has transferred, and no other poll has or will. -/
theorem Inv.giveBack (h : Inv stream v l) (hx : v.held x) (hknown : v.known x)
    (hdone : ¬ v.inProgress x) : Inv stream (v.release x) (giveBack stream l x) := by
  have hfresh : x ∉ l.abandoned ∧ ∀ c, x ∉ (l.returned c).map Prod.fst :=
    ⟨fun hmem => (h.settled x (.inl hmem)).2 hx,
      fun c hmem => (h.settled x (.inr ⟨c, hmem⟩)).2 hx⟩
  have hinFlight : ∀ y, v.inProgress y → (v.held y ∧ y ≠ x) ∨ y ∈ l.abandoned := fun y hy =>
    (h.inFlight y hy).imp_left fun hheld => ⟨hheld, fun hyx => hdone (hyx ▸ hy)⟩
  unfold OverlappedReads.giveBack
  split <;> rename_i hbuffer
  · refine { h with
      settled := fun y hy => ?_, accounted := fun c e he => ?_, inFlight := hinFlight }
    · exact ⟨(h.settled y hy).1, fun hheld => (h.settled y hy).2 hheld.1⟩
    · refine (h.accounted c e he).imp_right (Or.imp_right fun hheld => ⟨hheld, fun hex => ?_⟩)
      simp [hex ▸ ((h.logged c e).mp he).2] at hbuffer
  · rename_i data
    refine { h with
      genuine := fun c e he => ?_, returnedOnce := nodup_record h.returnedOnce (hfresh.2 _)
      settled := fun y hy => ?_, disjoint := fun y hy c hmem => ?_
      accounted := fun c e he => ?_, inFlight := hinFlight }
    · rcases mem_record.mp he with he | ⟨rfl, rfl⟩
      · exact h.genuine c e he
      · exact (h.logged _ _).mpr ⟨rfl, hbuffer⟩
    · rcases hy with hy | ⟨c, hy⟩
      · exact ⟨(h.settled y (.inl hy)).1, fun hheld => (h.settled y (.inl hy)).2 hheld.1⟩
      · rcases mem_fst_record.mp hy with hy | ⟨-, rfl⟩
        · exact ⟨(h.settled y (.inr ⟨c, hy⟩)).1,
            fun hheld => (h.settled y (.inr ⟨c, hy⟩)).2 hheld.1⟩
        · exact ⟨hknown, fun hheld => hheld.2 rfl⟩
    · rcases mem_fst_record.mp hmem with hmem | ⟨-, rfl⟩
      · exact h.disjoint y hy c hmem
      · exact hfresh.1 hy
    · rcases h.accounted c e he with hmem | hmem | hheld
      · exact .inl (mem_record.mpr (.inl hmem))
      · exact .inr (.inl hmem)
      · by_cases hex : e.1 = x
        · obtain ⟨hc, hdata⟩ := (h.logged c e).mp he
          rw [hex] at hc hdata
          refine .inl (mem_record.mpr (.inr ⟨hc, Prod.ext hex ?_⟩))
          exact Option.some.inj (hdata.symm.trans hbuffer)
        · exact .inr (.inr ⟨hheld, hex⟩)

omit [DecidableEq X] [DecidableEq D] [DecidableEq C] in
/-- An operation that is abandoned has not been returned before. -/
theorem Inv.abandon (h : Inv stream v l) (hx : v.held x) (hknown : v.known x) :
    Inv stream (v.release x) { l with abandoned := x :: l.abandoned } := by
  refine { h with
    settled := fun y hy => ?_, disjoint := fun y hy c hmem => ?_, accounted := fun c e he => ?_
    inFlight := fun y hy => ?_ }
  · by_cases hyx : y = x
    · exact ⟨hyx ▸ hknown, fun hheld => hheld.2 hyx⟩
    · have hy : y ∈ l.abandoned ∨ ∃ c, y ∈ (l.returned c).map Prod.fst :=
        hy.imp_left fun hmem => (List.mem_cons.mp hmem).resolve_left hyx
      exact ⟨(h.settled y hy).1, fun hheld => (h.settled y hy).2 hheld.1⟩
  · rcases List.mem_cons.mp hy with rfl | hy
    · exact (h.settled y (.inr ⟨c, hmem⟩)).2 hx
    · exact h.disjoint y hy c hmem
  · rcases h.accounted c e he with hmem | hmem | hheld
    · exact .inl hmem
    · exact .inr (.inl (List.mem_cons_of_mem _ hmem))
    · by_cases hex : e.1 = x
      · exact .inr (.inl (hex ▸ List.mem_cons_self ..))
      · exact .inr (.inr ⟨hheld, hex⟩)
  · rcases h.inFlight y hy with hheld | hmem
    · by_cases hyx : y = x
      · exact .inr (hyx ▸ List.mem_cons_self ..)
      · exact .inl ⟨hheld, hyx⟩
    · exact .inr (List.mem_cons_of_mem _ hmem)

omit [DecidableEq X] [DecidableEq D] in
theorem Inv.arrive {data : List D} (h : Inv stream v l) :
    Inv stream v { l with kernel := Function.update l.kernel c ((l.kernel c).sendAll data) } := by
  refine { h with moved := fun d => ?_ }
  by_cases hd : d = c
  · subst hd
    simp only [Function.update_self, h.moved]
    rfl
  · simp only [Function.update_of_ne hd, h.moved]

end Ledger

section Proofs

variable [DecidableEq F] [DecidableEq X] [DecidableEq C] [DecidableEq D] {stream : X → C}
  {s t : State F X T C D} {a : Act F X T C D} {b : OverlappedFuture.Act F X T}
  {data : Option (List D)} {x : X}

theorem future_step (hs : (machine stream).step s (.future b data) = some t) :
    OverlappedFuture.step s.futures b = some t.futures := Machine.step_left hs rfl

/-- Between the two states of a step: the futures hold what they held before, and have moved on
otherwise. -/
def between (u v : OverlappedFuture.State F X T) : View X := { view v with held := Held u }

omit [DecidableEq C] [DecidableEq D] in
theorem inv_between (hf : OverlappedFuture.Inv s.futures)
    (h : Inv stream (view s.futures) s.ledger)
    (hfuture : OverlappedFuture.step s.futures b = some t.futures) :
    Inv stream (between s.futures t.futures) s.ledger :=
  h.of_view (fun _ => OverlappedFuture.untransferred_step hf hfuture)
    (fun _ => OverlappedFuture.known_step hf hfuture) (fun _ => .inl) (fun _ => .inl) fun _ hy =>
      (OverlappedFuture.inProgress_step hf hfuture hy).symm.imp
        OverlappedFuture.Submitting.held (⟨·, id⟩)

theorem future_inv (hf : OverlappedFuture.Inv s.futures)
    (h : Inv stream (view s.futures) s.ledger)
    (hs : (machine stream).step s (.future b data) = some t) :
    Inv stream (view t.futures) t.ledger := by
  have hfuture := future_step hs
  have hinv := OverlappedFuture.step_inv hf hfuture
  have huntransferred := fun y => OverlappedFuture.untransferred_step (y := y) hf hfuture
  have hknown := fun y => OverlappedFuture.known_step (y := y) hf hfuture
  have hknownHeld : ∀ x, Held s.futures x → t.futures.tasks.count x ≠ none := by
    rintro x ⟨f, fut, hx, -, htask⟩
    exact hknown x (hf.known f fut x hx htask)
  have hmid := inv_between hf h hfuture
  have heffect := OverlappedFuture.step_effect hf hfuture
  generalize hfate : fate s.futures b = o at heffect
  cases heffect with
  | none hback hheld hprogress =>
    have hidle : t.ledger = s.ledger := Machine.idle_right hs (by simp [link, hfate])
    rw [hidle]
    refine h.of_view huntransferred hknown
      (fun y hy => (hback y hy).imp_right fun hnone => not_not_intro hnone.1)
      (fun y hy => (hheld y hy).imp_right fun hy => .inr (.inl hy)) fun y hy => ?_
    refine (hprogress y hy).symm.imp_right fun hmem => ⟨hmem, fun hy => ?_⟩
    exact (hheld y hy).resolve_right fun ⟨f, fut, hfut, hstate⟩ =>
      hf.submitting f fut y hfut hstate hmem
  | @transfers x hx hdone hheld =>
    have hledger : ledgerStep stream s.ledger (.fate (.transfers x) data) = some t.ledger :=
      Machine.step_right hs (b := .fate (.transfers x) data) (by simp [link, hfate])
    have hbuffer : s.ledger.buffer x = none := of_not_not fun hne => h.done x hne (.inr (.inr hx))
    exact (hmid.transfer hdone hbuffer (h.inFlight x hx) hledger).of_view (fun _ => id)
      (fun _ => id) (fun y hy => .inl ((hheld y).mp hy)) (fun y hy => .inl ((hheld y).mpr hy))
      fun y hy => .inr ⟨hy, (hheld y).mpr⟩
  | @completes x hx hdone hheld =>
    have hledger : ledgerStep stream s.ledger (.fate (.completes x) data) = some t.ledger :=
      Machine.step_right hs (b := .fate (.completes x) data) (by simp [link, hfate])
    obtain ⟨l, htransfer, hl⟩ := Option.map_eq_some_iff.mp hledger
    have hbuffer : s.ledger.buffer x = none := of_not_not fun hne => h.done x hne (.inr (.inl hx))
    rw [← hl]
    exact ((hmid.transfer hdone hbuffer (.inl hx.held) htransfer).giveBack hx.held
      (hknownHeld x hx.held) fun hmem => hdone (.inr (.inr hmem))).of_release hheld
  | @returns x hx hdone hheld =>
    have hledger : ledgerStep stream s.ledger (.fate (.returns x) data) = some t.ledger :=
      Machine.step_right hs (b := .fate (.returns x) data) (by simp [link, hfate])
    rw [← Option.some.inj hledger]
    exact (hmid.giveBack hx (hknownHeld x hx) hdone).of_release hheld
  | @abandons x hx hheld =>
    have hledger : ledgerStep stream s.ledger (.fate (.abandons x) data) = some t.ledger :=
      Machine.step_right hs (b := .fate (.abandons x) data) (by simp [link, hfate])
    rw [← Option.some.inj hledger]
    exact (hmid.abandon hx (hknownHeld x hx)).of_release hheld

theorem step_readsInv (hf : OverlappedFuture.Inv s.futures)
    (h : Inv stream (view s.futures) s.ledger) (hs : (machine stream).step s a = some t) :
    Inv stream (view t.futures) t.ledger := by
  cases a with
  | future b data => exact future_inv hf h hs
  | arrive c data =>
    have hidle : t.futures = s.futures := Machine.idle_left hs rfl
    have hledger : ledgerStep stream s.ledger (.arrive c data) = some t.ledger :=
      Machine.step_right hs (b := .arrive c data) rfl
    rw [hidle, ← Option.some.inj hledger]
    exact h.arrive

omit [DecidableEq X] [DecidableEq C] [DecidableEq D] in
theorem empty_inv {v : View X} (hv : ∀ x, ¬ v.inProgress x) :
    Inv stream v (emptyLedger : Ledger X C D) where
  moved _ := rfl
  logged c e := by simp [emptyLedger]
  once _ := List.nodup_nil
  done _ h := absurd rfl h
  genuine _ _ h := (List.not_mem_nil h).elim
  returnedOnce _ := List.nodup_nil
  settled x h := by simp [emptyLedger] at h
  disjoint _ h := (List.not_mem_nil h).elim
  accounted _ _ h := (List.not_mem_nil h).elim
  inFlight x h := absurd h (hv x)

theorem futuresInv {ok : State F X T C D → Act F X T C D → Prop}
    (hr : (machine stream).ReachesUnder ok s) : OverlappedFuture.Inv s.futures :=
  OverlappedFuture.reachable_inv (hr.fst fun _ _ _ _ _ => trivial)

theorem readsInv {ok : State F X T C D → Act F X T C D → Prop}
    (hr : (machine stream).ReachesUnder ok s) : Inv stream (view s.futures) s.ledger := by
  refine hr.invariant (I := fun s : State F X T C D => Inv stream (view s.futures) s.ledger)
    (fun s hs => ?_) fun s a t hr h _ hs => step_readsInv (futuresInv hr) h hs
  obtain ⟨hfutures, hledger⟩ : s.1 = OverlappedFuture.initial ∧ s.2 = emptyLedger := hs
  rw [State.futures, State.ledger, hfutures, hledger]
  exact empty_inv fun x hx => (List.not_mem_nil hx).elim

/-- What the operations transfer from a stream are its data in order. Each transfer is returned
once at most, and it is lost exactly if its future was dropped, or ended by a panic, before. -/
theorem bytes_accounted (hr : (machine stream).Reachable s) (c : C) :
    (s.ledger.transfers c).flatMap Prod.snd <+: (s.ledger.kernel c).sent ∧
      ((s.ledger.transfers c).map Prod.fst).Nodup ∧ ((s.ledger.returned c).map Prod.fst).Nodup ∧
      s.ledger.returned c ⊆ s.ledger.transfers c ∧
      ∀ e ∈ s.ledger.transfers c,
        (e.1 ∈ s.ledger.abandoned ↔ e ∉ s.ledger.returned c ∧ ¬ Held s.futures e.1) := by
  have h := readsInv hr
  refine ⟨h.moved c ▸ (s.ledger.kernel c).inOrder, h.once c, h.returnedOnce c, h.genuine c,
    fun e he => ⟨fun hmem => ⟨fun hreturned => ?_, (h.settled e.1 (.inl hmem)).2⟩, ?_⟩⟩
  · exact h.disjoint e.1 hmem c (List.mem_map_of_mem hreturned)
  · exact fun ⟨hreturned, hheld⟩ =>
      ((h.accounted c e he).resolve_left hreturned).resolve_right hheld

theorem initial_init : (machine (F := F) (T := T) (D := D) stream).init
    (OverlappedFuture.initial, emptyLedger) := ⟨rfl, rfl⟩

end Proofs

def oneStream (_ : ℕ) : Unit := ()

abbrev initial : State Bool ℕ Unit Unit ℕ := (OverlappedFuture.initial, emptyLedger)

/-- The first read has completed when the second one is polled, and is dropped after it. -/
def droppedLate : List (Act Bool ℕ Unit Unit ℕ) :=
  [.arrive () [1, 2, 3, 4], .future (.create false .tcpRead) none,
    .future (.move false (.pollBegin 0 ())) none, .future (.move false (.submit .pending)) none,
    .future (.move false .store) none, .future (.port (.complete 0)) (some [1, 2]),
    .future (.create true .tcpRead) none, .future (.move true (.pollBegin 1 ())) none,
    .future (.move true (.submit .completed)) (some [3]),
    .future (.move false (.drop true)) none]

theorem bytes_accounted_droppedLate : ∃ s, (machine oneStream).exec initial droppedLate = some s ∧
    s.ledger.transfers () = [(0, [1, 2]), (1, [3])] ∧ s.ledger.returned () = [(1, [3])] ∧
    ¬ Held s.futures 0 := by
  have hrun : (machine oneStream).exec initial droppedLate = some _ := rfl
  have hr := Machine.reachable_of_exec initial_init hrun
  have hlost := (bytes_accounted hr ()).2.2.2.2 (0, [1, 2]) (List.mem_cons_self ..)
  exact ⟨_, hrun, rfl, rfl, (hlost.mp (List.mem_cons_self ..)).2⟩

end CompleteIo.OverlappedReads
