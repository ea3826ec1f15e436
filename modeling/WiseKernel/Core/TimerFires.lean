import Mathlib.Data.Finset.Card
import Mathlib.Data.Finset.Range
import WiseKernel.Core.TimerPoll
import WiseKernel.Lib.Runs

/-!
# The timer fires when due

Polling a slot takes its due requests in the order of their ticks and leaves
none; since no request becomes due again within the call, each turn lowers the
number of those that are.
-/

namespace WiseKernel.Core.Timer

open WiseKernel.Lib

variable {env : Env} {P : ℕ → Prop} {now i j r fuel : ℕ} {s s' : State} {ev : List Event}

/-- In a call of `execute` at `now`: nothing is held, the clock has passed `now`,
and the requests of `once` that are due have reached their end. -/
structure Ready (env : Env) (now : ℕ) (s : State) : Prop where
  good : Good env s
  free : s.held = none
  clock : now ≤ env.tick s.reads
  ended : ∀ i, ∀ r ∈ s.queue i, (s.obj r).nextRun ≤ now → (s.obj r).IsOnce →
    (s.obj r).endRun ≤ now

theorem Ready.of_during (h : Ready env now s) (hd : During P now s ev s') (hg : Good env s')
    (hfree : s'.held = none) : Ready env now s' where
  good := hg
  free := hfree
  clock := Nat.le_trans h.clock (env.tick_mono hd.reads_le)
  ended i r hr hdue honce := by
    have hold : r ∈ s.queue i := (hd.moves i r hr).resolve_right (Nat.not_lt.mpr hdue)
    have hfixed := hd.fixed r (h.good.lt_of_mem hold)
    have hnot : r ∉ turned ev := by
      intro hturned
      obtain ⟨t, ht, rfl⟩ := mem_turned.mp hturned
      exact Nat.not_lt.mpr hdue (hd.done t ht i hr)
    rw [(hd.stays i r hold hnot).2] at hdue
    rw [Req.endRun_eq hfixed]
    exact h.ended i r hold hdue ((Req.isOnce_iff hfixed).mp honce)

theorem during_letGo : During P now s [] (s.letGo r) :=
  .of_calm (List.append_nil _).symm rfl rfl (Nat.le_refl _) (Nat.le_refl _) (fun _ ↦ rfl)
    (fun _ _ _ ↦ rfl) (fun _ _ ↦ rfl) (fun _ ↦ rfl) (fun _ ↦ rfl) (by simp [State.letGo])

theorem during_removeEndReq (id : ℕ) : During P now s [] (s.removeEndReq id) :=
  .of_calm (List.append_nil _).symm rfl rfl (Nat.le_refl _) (Nat.le_refl _) (fun _ ↦ rfl)
    (fun _ _ _ ↦ rfl) (fun _ _ ↦ rfl) (fun _ ↦ rfl) (fun _ ↦ rfl) (by simp [State.removeEndReq])

theorem State.get?_removeEndReq (id k : ℕ) :
    (s.removeEndReq id).reqs.get? k = if k = id then none else s.reqs.get? k := Table.get?_erase ..

theorem same_removeEndReq (id : ℕ) : Same s (s.removeEndReq id) := by
  refine ⟨fun _ ↦ rfl, fun _ _ ↦ rfl, rfl, rfl, rfl, fun k x hget ↦ ⟨?_, fun h ↦ h⟩, Nat.le_refl _,
    rfl, fun _ ↦ rfl, fun _ ↦ rfl, fun _ ↦ rfl⟩
  rw [State.get?_removeEndReq] at hget
  split_ifs at hget
  exact hget

theorem Sound.removed (hg : Sound s) (k : ℕ) :
    (s.removeEndReq (s.obj r).id).reqs.get? k ≠ some r := by
  intro hget
  rw [State.get?_removeEndReq] at hget
  split_ifs at hget with hk
  exact hk (hg.table k r hget).2.1.symm

/-- A request that has run and is not pushed again. -/
theorem Sound.finish (hg : Sound s) (hheld : s.held = some r) :
    Sound ((s.removeEndReq (s.obj r).id).letGo r) :=
  (hg.of_same (same_removeEndReq _)).letGo hheld hg.removed

theorem Good.finish (hg : Good env s) (hheld : s.held = some r) :
    Good env ((s.removeEndReq (s.obj r).id).letGo r) :=
  (hg.of_same (same_removeEndReq _)).letGo hheld hg.toSound.removed

/-- A request whose turn it is leaves its queue, and comes back for a later tick
if it does. -/
theorem Ready.turn (h : Ready env now s) (hr : r ∈ s.queue i) (hdue : (s.obj r).nextRun ≤ now)
    (hfit : Fit (s.turn env now i r)) :
    Ready env now (s.turn env now i r) ∧ ∃ t ev, t.ref = r ∧ t.slot = i ∧ turnsOf ev = [] ∧
      During (fun _ ↦ False) now s (.turn t :: ev) (s.turn env now i r) := by
  have hg := h.good
  have htake : Good env (s.take now i r) := (hg.take h.free hr).1
  have hdtake : During (fun _ ↦ False) now s _ (s.take now i r) := .take hg h.free hr hdue
  set t : Turn := ⟨r, i, (s.obj r).nextRun, (s.obj r).due, now, !(s.obj r).cancel⟩ with ht
  suffices hend : Good env (s.turn env now i r) ∧ (s.turn env now i r).held = none ∧
      ∃ ev, turnsOf ev = [] ∧
        During (fun _ ↦ False) now (s.take now i r) ev (s.turn env now i r) by
    obtain ⟨hgood, hfree, ev, hsilent, hd⟩ := hend
    have hall := hdtake.trans hg hd
    exact ⟨h.of_during hall hgood hfree, t, ev, rfl, rfl, hsilent, hall⟩
  unfold State.turn at hfit ⊢
  dsimp only at hfit ⊢
  set s₁ := s.take now i r with hs₁
  have hheld₁ : s₁.held = some r := rfl
  by_cases hcancel : (s₁.obj r).cancel = true
  · rw [if_pos hcancel]
    refine ⟨htake.letGo hheld₁ fun k hget ↦ ?_, rfl, [], rfl, during_letGo⟩
    rw [(htake.table k r hget).2.2] at hcancel
    cases hcancel
  · rw [if_neg hcancel] at hfit ⊢
    have hmark := htake.modifyReq (f := fun q ↦ { q with lastRun := now })
      (fun _ ↦ rfl) (fun _ ↦ rfl) (fun _ ↦ rfl) (fun _ ↦ rfl) r
    set s₂ := (s₁.modifyReq r fun q ↦ { q with lastRun := now }).run env r with hs₂
    have hfit₂ : Fit s₂ := by
      refine hfit.of_subset ?_
      split_ifs
      · exact List.subset_append_left _ _
      · exact List.Subset.refl _
    have hkeeps : Keeps env s₁ s₂ := hmark.trans htake (hmark.1.run hfit₂)
    obtain ⟨ev, hq⟩ := hkeeps.2 now h.clock
    have hheld₂ : s₂.held = some r := hq.held
    have hlt : r < s₁.made := htake.fresh r (.inl hheld₁)
    have hfixed : (s₂.obj r).fixed = (s.obj r).fixed := hq.fixed r hlt
    split_ifs at hfit ⊢ with hagain
    · have hi : i < s₁.slots.length :=
        Nat.lt_of_lt_of_le (State.lt_of_mem_queue hr) hdtake.length_le
      have hi₂ : i < s₂.slots.length := Nat.lt_of_lt_of_le hi hq.length_le
      have hsum : now + (s₂.obj r).interval < tickLimit :=
        hfit (.rearmed r now (s₂.obj r).interval) (List.mem_append_right _ (by simp))
      have hbound : s₂.interval i ≤ max minInterval ((s₂.obj r).interval / 2) := by
        rw [hq.interval i hi, hdtake.interval i (State.lt_of_mem_queue hr),
          Req.interval_eq hfixed]
        exact hg.slotBound i r hr
      have hnot : ¬ (s₂.obj r).IsOnce := by
        intro honce
        have hend : (s₂.obj r).endRun ≤ now := by
          rw [Req.endRun_eq hfixed]
          exact h.ended i r hr hdue ((Req.isOnce_iff hfixed).mp honce)
        rw [honce.1, Bool.false_or, decide_eq_true_eq] at hagain
        omega
      exact ⟨hkeeps.1.rearm hheld₂ hi₂ hbound hsum hnot, rfl, _,
        by rw [turnsOf_append, hq.silent]; rfl,
        hq.toDuring.trans htake (.rearm hkeeps.1 hheld₂ hi₂ hsum)⟩
    · refine ⟨hkeeps.1.finish hheld₂, rfl, _, ?_, hq.toDuring.trans htake
        ((during_removeEndReq _).trans hkeeps.1 during_letGo)⟩
      rw [turnsOf_append, hq.silent]
      rfl

/-- The requests of a slot that are due. -/
def dueSet (s : State) (now i : ℕ) : Finset ℕ :=
  (s.queue i).toFinset.filter fun r ↦ (s.obj r).nextRun ≤ now

theorem mem_dueSet : r ∈ dueSet s now i ↔ r ∈ s.queue i ∧ (s.obj r).nextRun ≤ now := by
  rw [dueSet, Finset.mem_filter, List.mem_toFinset]

theorem During.dueSet_subset (h : During P now s ev s') : dueSet s' now i ⊆ dueSet s now i := by
  intro r hr
  rw [mem_dueSet] at hr ⊢
  obtain ⟨hr, hdue⟩ := hr
  have hold : r ∈ s.queue i := (h.moves i r hr).resolve_right (Nat.not_lt.mpr hdue)
  refine ⟨hold, ?_⟩
  by_cases hturned : r ∈ turned ev
  · obtain ⟨t, ht, rfl⟩ := mem_turned.mp hturned
    exact absurd hdue (Nat.not_le.mpr (h.done t ht i hr))
  · rw [← (h.stays i r hold hturned).2]
    exact hdue

/-- A turn lowers the number of requests that are due. -/
theorem During.card_lt (h : During P now s ev s') (hr : r ∈ dueSet s now i)
    (hturned : r ∈ turned ev) : (dueSet s' now i).card < (dueSet s now i).card := by
  apply Finset.card_lt_card
  refine Finset.ssubset_iff_subset_ne.mpr ⟨h.dueSet_subset, fun heq ↦ ?_⟩
  rw [← heq, mem_dueSet] at hr
  obtain ⟨t, ht, rfl⟩ := mem_turned.mp hturned
  exact Nat.not_lt.mpr hr.2 (h.done t ht i hr.1)

/-- What polling the slot `i` does. -/
structure Drains (now i : ℕ) (s : State) (ev : List Event) (s' : State) : Prop
    extends During (fun _ ↦ False) now s ev s' where
  slot : ∀ t ∈ turnsOf ev, t.slot = i
  ordered : ((turnsOf ev).map Turn.nextRun).Pairwise (· ≤ ·)

theorem Drains.refl : Drains now i s [] s := ⟨.refl, by simp, List.Pairwise.nil⟩

/-- The first turn is of the request with the least tick. -/
theorem Drains.cons (hg : Good env s) {t : Turn} {ev₁ ev₂ : List Event} {s₁ : State}
    (hslot : t.slot = i) (hsilent : turnsOf ev₁ = [])
    (hd : During (fun _ ↦ False) now s (.turn t :: ev₁) s₁) (h : Drains now i s₁ ev₂ s')
    (hleast : ∀ x ∈ s.queue i, t.nextRun ≤ (s.obj x).nextRun) :
    Drains now i s (.turn t :: ev₁ ++ ev₂) s' := by
  have hall := hd.trans hg h.toDuring
  have hturns : turnsOf (.turn t :: ev₁ ++ ev₂) = t :: turnsOf ev₂ := by
    change turnsOf ([.turn t] ++ ev₁ ++ ev₂) = _
    rw [turnsOf_append, turnsOf_append, hsilent]
    rfl
  have hlater : ∀ t' ∈ turnsOf ev₂, t'.slot = i := h.slot
  refine ⟨hall, ?_, ?_⟩
  · rw [hturns]
    rintro t' ht'
    rcases List.mem_cons.mp ht' with rfl | ht'
    · exact hslot
    · exact hlater t' ht'
  · rw [hturns, List.map_cons, List.pairwise_cons]
    refine ⟨fun n hn ↦ ?_, h.ordered⟩
    obtain ⟨t', ht', rfl⟩ := List.mem_map.mp hn
    obtain ⟨-, hmem, hnext, -⟩ := hall.turns t' (by rw [hturns]; exact .tail _ ht')
    rw [hlater t' ht'] at hmem
    rw [hnext]
    exact hleast _ hmem

theorem Ready.drain (h : Ready env now s) (hfit : Fit (State.drain env now i fuel s).1) :
    Ready env now (State.drain env now i fuel s).1 ∧
      (∃ ev, Drains now i s ev (State.drain env now i fuel s).1) ∧
      ((State.drain env now i fuel s).2 = true →
        ∀ r ∈ (State.drain env now i fuel s).1.queue i,
          now < ((State.drain env now i fuel s).1.obj r).nextRun) ∧
      ((dueSet s now i).card < fuel → (State.drain env now i fuel s).2 = true) := by
  induction fuel generalizing s with
  | zero => exact ⟨h, ⟨[], .refl⟩, by simp [State.drain], by simp⟩
  | succ fuel ih =>
      unfold State.drain at hfit ⊢
      cases hpick : env.pick s.trace.length (fun r ↦ (s.obj r).nextRun) (s.queue i) with
      | none =>
          refine ⟨h, ⟨[], .refl⟩, fun _ r hr ↦ ?_, fun _ ↦ rfl⟩
          dsimp only at hr
          rw [env.pick_none hpick] at hr
          cases hr
      | some r =>
          have hr := env.pick_mem hpick
          have hleast := env.pick_le hpick
          simp only [hpick] at hfit ⊢
          split_ifs at hfit ⊢ with hdue
          · obtain ⟨hready, t, ev₁, rfl, hslot, hsilent, hd⟩ :=
              h.turn hr hdue (hfit.of_subset (State.trace_subset_drain fuel _))
            obtain ⟨hend, ⟨ev₂, hdrains⟩, hrest, hfuel⟩ := ih hready hfit
            have hturned : t.ref ∈ turned (.turn t :: ev₁) :=
              mem_turned.mpr ⟨t, mem_turnsOf.mpr (by simp), rfl⟩
            have hnext := (hd.turns t (mem_turnsOf.mpr (by simp))).2.2.1
            have hlt := hd.card_lt (mem_dueSet.mpr ⟨hr, hdue⟩) hturned
            refine ⟨hend, ⟨_, hdrains.cons h.good hslot hsilent hd ?_⟩, hrest, fun hcard ↦ ?_⟩
            · rw [hnext]
              exact hleast
            · exact hfuel (by omega)
          · refine ⟨h, ⟨[], .refl⟩, fun _ x hx ↦ ?_, fun _ ↦ rfl⟩
            exact Nat.lt_of_lt_of_le (Nat.not_le.mp hdue) (hleast x hx)

/-- What polling some slots does; `polled` is the test at the head of
`update_slot`. -/
structure Polls (now : ℕ) (is : List ℕ) (s : State) (ev : List Event) (s' : State) : Prop
    extends During (· ∈ is) now s ev s' where
  slot : ∀ t ∈ turnsOf ev, t.slot ∈ is
  ordered : ∀ i, (((turnsOf ev).filter (·.slot = i)).map Turn.nextRun).Pairwise (· ≤ ·)
  complete : ∀ i ∈ is, ∀ p, s.head i = some p → wrap (p.2 + p.1) ≤ now →
    ∀ r ∈ s.queue i, (s.obj r).nextRun ≤ now → r ∈ turned ev

theorem Polls.nil : Polls now [] s [] s := ⟨.refl, by simp, by simp, by simp⟩

/-- A slot that is polled first keeps its requests from the others, and the
others keep theirs. -/
theorem Polls.cons {is : List ℕ} {s₁ : State} {ev₁ ev₂ : List Event} (hg : Good env s)
    (hi : i ∉ is) (h₁ : Polls now [i] s ev₁ s₁) (h₂ : Polls now is s₁ ev₂ s') :
    Polls now (i :: is) s (ev₁ ++ ev₂) s' where
  toDuring := by
    apply (h₁.mono _).trans hg (h₂.mono _)
    · exact fun j hj ↦ List.mem_cons.mpr (.inl (List.mem_singleton.mp hj))
    · exact fun j hj ↦ List.mem_cons_of_mem i hj
  slot t ht := by
    rw [turnsOf_append, List.mem_append] at ht
    rcases ht with ht | ht
    · rw [List.mem_singleton.mp (h₁.slot t ht)]
      exact List.mem_cons_self
    · exact List.mem_cons_of_mem i (h₂.slot t ht)
  ordered j := by
    rw [turnsOf_append, List.filter_append]
    by_cases hj : j = i
    · have hnone : (turnsOf ev₂).filter (·.slot = j) = [] := by
        rw [List.filter_eq_nil_iff]
        intro t ht hslot
        rw [decide_eq_true_eq] at hslot
        exact hi (hj ▸ hslot ▸ h₂.slot t ht)
      rw [hnone, List.append_nil]
      exact h₁.ordered j
    · have hnone : (turnsOf ev₁).filter (·.slot = j) = [] := by
        rw [List.filter_eq_nil_iff]
        intro t ht hslot
        rw [decide_eq_true_eq] at hslot
        exact hj (hslot.symm.trans (List.mem_singleton.mp (h₁.slot t ht)))
      rw [hnone, List.nil_append]
      exact h₂.ordered j
  complete j hj p hp hpolled r hr hdue := by
    rw [turned_append, List.mem_append]
    by_cases hji : j = i
    · subst hji
      exact .inl (h₁.complete j (List.mem_singleton_self j) p hp hpolled r hr hdue)
    · have hj₂ : j ∈ is := (List.mem_cons.mp hj).resolve_left hji
      have hnot : r ∉ turned ev₁ := by
        intro hturned
        obtain ⟨t, ht, rfl⟩ := mem_turned.mp hturned
        obtain ⟨-, hmem, -⟩ := h₁.turns t ht
        have hslot := List.mem_singleton.mp (h₁.slot t ht)
        exact hji (hg.apart j i t.ref hr (hslot ▸ hmem))
      obtain ⟨hr₁, hnext⟩ := h₁.stays j r hr hnot
      have hhead := h₁.head j (State.lt_of_mem_queue hr) (by simpa using hji)
      rw [← hnext] at hdue
      exact .inr (h₂.complete j hj₂ p (hhead.trans hp) hpolled r hr₁ hdue)

/-- Polling a slot marks it and then takes its requests. -/
theorem Drains.polls {s₀ : State} (hg : Good env s) (hmark : During (· ∈ [i]) now s [] s₀)
    (h : Drains now i s₀ ev s') (hrest : ∀ r ∈ s'.queue i, now < (s'.obj r).nextRun) :
    Polls now [i] s ev s' := by
  have hall : During (· ∈ [i]) now s ([] ++ ev) s' :=
    hmark.trans hg (h.toDuring.mono fun _ ↦ False.elim)
  refine ⟨hall, fun t ht ↦ ?_, fun j ↦ ?_, fun j hj p _ _ r hr hdue ↦ ?_⟩
  · exact List.mem_singleton.mpr (h.slot t ht)
  · exact h.ordered.sublist (List.filter_sublist.map _)
  · rw [List.mem_singleton] at hj
    subst hj
    by_contra hnot
    obtain ⟨hr', hnext⟩ := hall.stays j r hr hnot
    have hlater := hrest r hr'
    rw [hnext] at hlater
    exact Nat.not_lt.mpr hdue hlater

/-- A slot that is not polled. -/
theorem Polls.skip (hskip : ∀ p, s.head i = some p → ¬ wrap (p.2 + p.1) ≤ now) :
    Polls now [i] s [] s := by
  refine ⟨.refl, by simp, by simp, fun j hj p hp hpolled ↦ ?_⟩
  rw [List.mem_singleton] at hj
  subst hj
  exact absurd hpolled (hskip p hp)

namespace State

/-- `sl.last_run_tick_ = now` -/
def mark (s : State) (now i : ℕ) : State :=
  { s with slots := s.slots.modify i fun sl ↦ { sl with lastRun := now } }

theorem queue_mark : (s.mark now i).queue j = s.queue j := by
  simp only [mark, queue, List.getElem?_modify]
  cases s.slots[j]? <;> split_ifs <;> rfl

theorem interval_mark : (s.mark now i).interval j = s.interval j := by
  simp only [mark, interval, List.getElem?_modify]
  cases s.slots[j]? <;> split_ifs <;> rfl

theorem head_mark (hj : j ≠ i) : (s.mark now i).head j = s.head j := by
  simp only [mark, head, List.getElem?_modify, if_neg hj.symm]
  simp

theorem lastPoll_mark (h : i < s.slots.length) (j : ℕ) :
    (s.mark now i).lastPoll j = if j = i then now else s.lastPoll j := by
  simp only [mark, lastPoll, List.getElem?_modify]
  split_ifs with hi hj hj
  · subst hi
    simp [List.getElem?_eq_getElem h]
  · exact absurd hi.symm hj
  · exact absurd hj.symm hi
  · simp

end State

theorem during_mark : During (· ∈ [i]) now s [] (s.mark now i) :=
  .of_calm (List.append_nil _).symm rfl rfl (Nat.le_refl _)
    (Nat.le_of_eq (List.length_modify ..).symm) (fun _ ↦ State.queue_mark)
    (fun _ _ hj ↦ State.head_mark (by simpa using hj)) (fun _ _ ↦ State.interval_mark)
    (fun _ ↦ rfl) (fun _ ↦ rfl) (by simp [State.mark])

theorem same_mark : Same s (s.mark now i) :=
  ⟨fun _ ↦ State.queue_mark, fun _ _ ↦ State.interval_mark, rfl, rfl, rfl,
    fun _ _ hget ↦ ⟨hget, fun hnot ↦ hnot⟩, Nat.le_refl _, rfl, fun _ ↦ rfl, fun _ ↦ rfl,
    fun _ ↦ rfl⟩

theorem Ready.mark (h : Ready env now s) : Ready env now (s.mark now i) := by
  exact h.of_during during_mark (h.good.of_same same_mark) h.free

theorem Ready.updateSlot (h : Ready env now s) (hfit : Fit (s.updateSlot env fuel now i).1) :
    Ready env now (s.updateSlot env fuel now i).1 ∧
      ((s.updateSlot env fuel now i).2 = true →
        ∃ ev, Polls now [i] s ev (s.updateSlot env fuel now i).1) ∧
      ((dueSet s now i).card < fuel → (s.updateSlot env fuel now i).2 = true) := by
  unfold State.updateSlot at hfit ⊢
  cases hslot : s.slots[i]? with
  | none =>
      refine ⟨h, fun _ ↦ ⟨[], .skip fun p hp ↦ ?_⟩, fun _ ↦ rfl⟩
      rw [State.head, hslot] at hp
      cases hp
  | some sl =>
      simp only [hslot] at hfit ⊢
      split_ifs at hfit ⊢ with hpolled
      · obtain ⟨hready, ⟨ev, hdrains⟩, hrest, hfuel⟩ := h.mark.drain hfit
        refine ⟨hready, fun hend ↦ ⟨ev, hdrains.polls h.good during_mark (hrest hend)⟩,
          fun hcard ↦ hfuel ?_⟩
        exact Nat.lt_of_le_of_lt (Finset.card_le_card during_mark.dueSet_subset) hcard
      · refine ⟨h, fun _ ↦ ⟨[], .skip fun p hp ↦ ?_⟩, fun _ ↦ rfl⟩
        rw [State.head, hslot] at hp
        cases hp
        exact hpolled

theorem Ready.poll {is : List ℕ} (hnodup : is.Nodup) (h : Ready env now s)
    (hfit : Fit (State.poll env fuel now is s).1) :
    ((State.poll env fuel now is s).2 = true → Ready env now (State.poll env fuel now is s).1 ∧
      ∃ ev, Polls now is s ev (State.poll env fuel now is s).1) ∧
    ((∀ i, (dueSet s now i).card < fuel) → (State.poll env fuel now is s).2 = true) := by
  induction is generalizing s with
  | nil => exact ⟨fun _ ↦ ⟨h, [], .nil⟩, fun _ ↦ rfl⟩
  | cons i is ih =>
      obtain ⟨hi, hnodup⟩ := List.nodup_cons.mp hnodup
      unfold State.poll at hfit ⊢
      cases hslot : s.updateSlot env fuel now i with
      | mk s₁ ended =>
          simp only [hslot] at hfit ⊢
          have hupdate : Fit (s.updateSlot env fuel now i).1 → _ := h.updateSlot
          rw [hslot] at hupdate
          cases ended with
          | false =>
              refine ⟨fun hend ↦ (nomatch hend), fun hcard ↦ ?_⟩
              exact (hupdate hfit).2.2 (hcard i)
          | true =>
              obtain ⟨hready, hpolls, -⟩ :=
                hupdate (hfit.of_subset (State.trace_subset_poll fuel is s₁))
              obtain ⟨ev₁, hpolls⟩ := hpolls rfl
              obtain ⟨hrest, hfuel⟩ := ih hnodup hready hfit
              refine ⟨fun hend ↦ ?_, fun hcard ↦ hfuel fun j ↦ ?_⟩
              · obtain ⟨hready', ev₂, hpolls₂⟩ := hrest hend
                exact ⟨hready', ev₁ ++ ev₂, .cons h.good hi hpolls hpolls₂⟩
              · exact Nat.lt_of_le_of_lt (Finset.card_le_card hpolls.dueSet_subset) (hcard j)

/-- The events of a call of `execute` from the state `s`. -/
structure FiresIn (now : ℕ) (s : State) (ev : List Event) : Prop where
  due : ∀ (i : ℕ) (sl : Slot), s.slots[i]? = some sl → sl.Polled now →
    ∀ r ∈ sl.queue, (s.obj r).nextRun ≤ now →
    ∃ a t b, ev = a ++ .turn t :: b ∧ t.ref = r ∧ t.slot = i ∧
      (t.ran = true ↔ (s.obj r).cancel = false ∧ .cancelled r ∉ a)
  once : (turned ev).Nodup
  ordered : ∀ i, (((turnsOf ev).filter (·.slot = i)).map Turn.nextRun).Pairwise (· ≤ ·)
  notEarly : ∀ t ∈ turnsOf ev, t.now = now ∧ t.nextRun ≤ now ∧ t.due ≤ now
  notNew : ∀ t ∈ turnsOf ev, t.ref < s.made
  inTime : ∀ (i : ℕ) (sl : Slot), s.slots[i]? = some sl → ∀ r ∈ sl.queue,
    sl.lastRun + max minInterval ((s.obj r).interval / 2) ≤ now → sl.Polled now

/-- `execute` returns, however often its loops may turn, and fires what is due. -/
structure Fires (env : Env) (s : State) : Prop where
  returns : ∃ bound, ∀ fuel ≥ bound, (s.execute env fuel).2 = true
  fires : ∀ fuel, (s.execute env fuel).2 = true →
    ∃ ev, (s.execute env fuel).1.trace = s.trace ++ ev ∧ FiresIn (env.tick s.reads) s ev

/-- A request of `once` has run once at most, and the requests known to the timer
sit in slots of short intervals. -/
structure Placed (s : State) : Prop where
  once : ∀ r < s.made, (s.obj r).IsOnce → runs s.trace r ≤ 1
  slot : ∀ id r, s.reqs.get? id = some r →
    ∃ (i : ℕ) (sl : Slot), s.slots[i]? = some sl ∧ r ∈ sl.queue
  bound : ∀ (i : ℕ) (sl : Slot), s.slots[i]? = some sl → ∀ r ∈ sl.queue,
    sl.interval ≤ max minInterval ((s.obj r).interval / 2)

/-- None of the steps a call takes wraps a tick or adds an action to the request
that is running. -/
def CallFits (env : Env) (s : State) (c : Call) : Prop := ∀ fuel, Fit (call env fuel s c).1

theorem State.queue_eq {sl : Slot} (h : s.slots[i]? = some sl) : s.queue i = sl.queue := by
  rw [queue, h]
  rfl

theorem State.exists_slot (h : r ∈ s.queue i) :
    ∃ sl : Slot, s.slots[i]? = some sl ∧ r ∈ sl.queue := by
  rw [queue] at h
  cases hslot : s.slots[i]? with
  | none =>
      rw [hslot] at h
      cases h
  | some sl =>
      rw [hslot] at h
      exact ⟨sl, rfl, h⟩

theorem Good.interval_le (hg : Good env s) {sl : Slot} (hslot : s.slots[i]? = some sl)
    (hr : r ∈ sl.queue) : sl.interval ≤ max minInterval ((s.obj r).interval / 2) := by
  have hbound := hg.slotBound i r (by rw [State.queue_eq hslot]; exact hr)
  rw [State.interval, hslot] at hbound
  exact hbound

theorem Polls.firesIn {is : List ℕ} (hg : Good env s) (h : Polls now is s ev s')
    (his : ∀ i < s.slots.length, i ∈ is) : FiresIn now s ev where
  due i sl hslot hpolled r hr hdue := by
    rw [← State.queue_eq hslot] at hr
    have hhead : s.head i = some (sl.interval, sl.lastRun) := by
      rw [State.head, hslot]
      rfl
    have hturned := h.complete i (his i (State.lt_of_mem_queue hr)) _ hhead hpolled r hr hdue
    obtain ⟨t, ht, rfl⟩ := mem_turned.mp hturned
    obtain ⟨a, b, hev⟩ := List.append_of_mem (mem_turnsOf.mp ht)
    have hmem := (h.turns t ht).2.1
    exact ⟨a, t, b, hev, rfl, hg.apart _ _ _ hmem hr, h.flags a t b hev⟩
  once := h.nodup
  ordered := h.ordered
  notEarly t ht := by
    obtain ⟨hnow, -, -, hle, hdue⟩ := h.turns t ht
    exact ⟨hnow, hle, hdue ▸ hle⟩
  notNew t ht := hg.lt_of_mem (h.turns t ht).2.1
  inTime i sl hslot r hr hlate := by
    have hbound := hg.interval_le hslot hr
    have hwrap : wrap (sl.lastRun + sl.interval) ≤ sl.lastRun + sl.interval := Nat.mod_le _ _
    exact Nat.le_trans hwrap (Nat.le_trans (Nat.add_le_add_left hbound _) hlate)

theorem Good.placed (hg : Good env s) (hfree : s.held = none) : Placed s where
  once := hg.once
  slot id r hget := by
    rcases (hg.table id r hget).1 with hheld | ⟨i, hr⟩
    · rw [hfree] at hheld
      cases hheld
    · exact ⟨i, State.exists_slot hr⟩
  bound _ _ hslot _ hr := hg.interval_le hslot hr

theorem Good.ready (hg : Good env s) (hfree : s.held = none) :
    Ready env (env.tick s.reads) { s with reads := s.reads + 1 } where
  good := hg.of_same ⟨fun _ ↦ rfl, fun _ _ ↦ rfl, rfl, rfl, rfl,
    fun _ _ hget ↦ ⟨hget, fun hnot ↦ hnot⟩, Nat.le_succ _, rfl, fun _ ↦ rfl, fun _ ↦ rfl,
    fun _ ↦ rfl⟩
  free := hfree
  clock := env.tick_mono (Nat.le_succ _)
  ended i r hr _ := hg.ended r (.inr ⟨i, hr⟩)

theorem dueSet_card_le (hg : Good env s) : (dueSet s now i).card ≤ s.made := by
  have hsub : dueSet s now i ⊆ Finset.range s.made := by
    intro r hr
    exact Finset.mem_range.mpr (hg.lt_of_mem (mem_dueSet.mp hr).1)
  simpa using Finset.card_le_card hsub

theorem Good.execute (hg : Good env s) (hfree : s.held = none)
    (hfit : Fit (s.execute env fuel).1) :
    ((s.execute env fuel).2 = true → Good env (s.execute env fuel).1 ∧
      (s.execute env fuel).1.held = none ∧
      ∃ ev, (s.execute env fuel).1.trace = s.trace ++ ev ∧ FiresIn (env.tick s.reads) s ev) ∧
    (s.made < fuel → (s.execute env fuel).2 = true) := by
  have hready := hg.ready hfree
  obtain ⟨hend, hfuel⟩ := hready.poll List.nodup_range hfit
  refine ⟨fun h ↦ ?_, fun h ↦ hfuel fun i ↦ Nat.lt_of_le_of_lt (dueSet_card_le hready.good) h⟩
  obtain ⟨hafter, ev, hpolls⟩ := hend h
  have hfires := hpolls.firesIn hready.good fun i hi ↦ List.mem_range.mpr hi
  exact ⟨hafter.good, hafter.free, ev, hpolls.trace,
    ⟨hfires.due, hfires.once, hfires.ordered, hfires.notEarly, hfires.notNew, hfires.inTime⟩⟩

theorem not_live_initial (r : ℕ) : ¬ initial.Live r := by
  have hqueue : ∀ i, initial.queue i = [] := fun _ ↦ rfl
  rintro (h | ⟨i, h⟩)
  · cases h
  · rw [hqueue] at h
    cases h

theorem sound_initial : Sound initial where
  nodup _ := List.nodup_nil
  apart i _ r h := absurd (.inr ⟨i, h⟩) (not_live_initial r)
  held _ _ h := by cases h
  fresh r h := absurd h (not_live_initial r)
  ids r _ h := absurd h (not_live_initial r)
  pool := (Sequence.pool_make 1 (2 ^ 32 - 1) 16 (by decide)).mono fun _ ⟨r, h, _⟩ ↦
    not_live_initial r h
  table _ _ h := by cases h

theorem good_initial : Good env initial := by
  have hnone : ∀ {i r}, r ∉ initial.queue i := by
    intro i r h
    exact not_live_initial r (.inr ⟨i, h⟩)
  exact {
    toSound := sound_initial
    slotBound := fun _ _ h ↦ absurd h hnone
    long := fun r h ↦ absurd h (not_live_initial r)
    unwrapped := fun _ _ h ↦ absurd h hnone
    ended := fun r h ↦ absurd h (not_live_initial r)
    ran := fun _ h ↦ by cases h
    waiting := fun _ _ h ↦ absurd h hnone
    once := fun _ h ↦ absurd h (Nat.not_lt_zero _) }

/-- Between two calls. -/
def Settled (env : Env) (s : State) : Prop := Good env s ∧ s.held = none

theorem Settled.call (h : Settled env s) {c : Call} (hfit : Fit (call env fuel s c).1)
    (hend : (call env fuel s c).2 = true) : Settled env (call env fuel s c).1 := by
  obtain ⟨hg, hfree⟩ := h
  cases c with
  | op o =>
      obtain ⟨hgood, hquiet⟩ := hg.perform o hfit
      obtain ⟨ev, hq⟩ := hquiet 0 (Nat.zero_le _)
      exact ⟨hgood, hq.held.trans hfree⟩
  | execute =>
      obtain ⟨hgood, hfree', -⟩ := (hg.execute hfree hfit).1 hend
      exact ⟨hgood, hfree'⟩

/-- A clock, callbacks that call nothing, and queues whose `top` is the first of the
least entries. -/
def Env.idle (tick : ℕ → ℕ) (hmono : Monotone tick) (hlt : ∀ k, tick k < tickLimit) : Env where
  tick := tick
  tick_mono := hmono
  tick_lt := hlt
  script _ _ _ := []
  pick _ key l := l.argmin key
  pick_mem h := List.argmin_mem h
  pick_le h _ hx := List.le_of_mem_argmin hx h
  pick_none h := List.argmin_eq_none.mp h

section

variable (hscript : ∀ k a id, env.script k a id = [])

include hscript

theorem callbacks_idle (id : ℕ) (l : List ℕ) (s : State) :
    l.foldl (State.callback env id) s = { s with calls := s.calls + l.length } := by
  induction l generalizing s with
  | nil => rfl
  | cons a l ih =>
      rw [List.foldl_cons, ih]
      simp [State.callback, hscript, Nat.add_assoc, Nat.add_comm 1]

theorem interval_run_idle (x : ℕ) :
    (((s.modifyReq r fun q ↦ { q with lastRun := now }).run env r).obj x).interval =
      (s.obj x).interval := by
  simp only [State.run, callbacks_idle hscript, State.modifyReq, Function.update_apply]
  split_ifs with hx
  · rw [hx]
  · rfl

/-- A turn whose callbacks call nothing. -/
theorem turn_idle : (∀ x, ((s.turn env now i r).obj x).interval = (s.obj x).interval) ∧
    ∀ e ∈ (s.turn env now i r).trace,
      e ∈ s.trace ∨ (∃ t, e = .turn t) ∨ e = .rearmed r now (s.obj r).interval := by
  have htake : ∀ e ∈ (s.take now i r).trace, e ∈ s.trace ∨ ∃ t, e = .turn t := by
    intro e he
    rcases List.mem_append.mp he with he | he
    · exact .inl he
    · exact .inr ⟨_, List.mem_singleton.mp he⟩
  have hrun : (((s.take now i r).modifyReq r fun q ↦ { q with lastRun := now }).run env r).trace =
      (s.take now i r).trace := by
    simp only [State.run, callbacks_idle hscript, State.modifyReq]
  have hinterval : ∀ x, ((((s.take now i r).modifyReq r fun q ↦ { q with lastRun := now }).run
      env r).obj x).interval = (s.obj x).interval := interval_run_idle hscript
  unfold State.turn
  dsimp only
  split_ifs
  · exact ⟨fun x ↦ rfl, fun e he ↦ (htake e he).imp_right .inl⟩
  · refine ⟨fun x ↦ ?_, fun e he ↦ ?_⟩
    · rw [← hinterval x]
      simp only [State.rearm, State.modifyReq, State.push, State.record, Function.update_apply]
      split_ifs with hx
      · rw [hx]
      · rfl
    · rcases List.mem_append.mp he with he | he
      · change e ∈ (State.run _ env r).trace at he
        rw [hrun] at he
        exact (htake e he).imp_right .inl
      · rw [← hinterval r]
        exact .inr (.inr (List.mem_singleton.mp he))
  · refine ⟨hinterval, fun e he ↦ ?_⟩
    change e ∈ (State.run _ env r).trace at he
    rw [hrun] at he
    exact (htake e he).imp_right .inl

theorem fit_drain_idle (hsum : ∀ r, now + (s.obj r).interval < tickLimit) (h : Fit s) :
    Fit (State.drain env now i fuel s).1 ∧
      ∀ r, ((State.drain env now i fuel s).1.obj r).interval = (s.obj r).interval := by
  induction fuel generalizing s with
  | zero => exact ⟨h, fun _ ↦ rfl⟩
  | succ fuel ih =>
      unfold State.drain
      split
      · exact ⟨h, fun _ ↦ rfl⟩
      · rename_i r _
        split_ifs
        · obtain ⟨hinterval, htrace⟩ : _ ∧ _ := turn_idle (i := i) (r := r) hscript
          have hnext : Fit (s.turn env now i r) := by
            intro e he
            rcases htrace e he with he | ⟨t, rfl⟩ | rfl
            · exact h e he
            · trivial
            · exact hsum r
          obtain ⟨hfit, hrest⟩ := ih (fun x ↦ by rw [hinterval]; exact hsum x) hnext
          exact ⟨hfit, fun x ↦ (hrest x).trans (hinterval x)⟩
        · exact ⟨h, fun _ ↦ rfl⟩

theorem fit_poll_idle (hsum : ∀ r, now + (s.obj r).interval < tickLimit) (h : Fit s)
    (is : List ℕ) : Fit (State.poll env fuel now is s).1 := by
  induction is generalizing s with
  | nil => exact h
  | cons i is ih =>
      have hslot : Fit (s.updateSlot env fuel now i).1 ∧
          ∀ r, ((s.updateSlot env fuel now i).1.obj r).interval = (s.obj r).interval := by
        unfold State.updateSlot
        split
        · exact ⟨h, fun _ ↦ rfl⟩
        · split_ifs
          · exact fit_drain_idle (s := s.mark now i) hscript hsum h
          · exact ⟨h, fun _ ↦ rfl⟩
      unfold State.poll
      split <;> rename_i heq <;> rw [heq] at hslot
      · exact ih (fun x ↦ by rw [hslot.2]; exact hsum x) hslot.1
      · exact hslot.1

/-- When the callbacks call nothing, `execute` wraps no tick unless a request's own
interval does it. -/
theorem callFits_idle (hsum : ∀ r, env.tick s.reads + (s.obj r).interval < tickLimit)
    (h : Fit s) : CallFits env s .execute :=
  fun _ ↦ fit_poll_idle (s := { s with reads := s.reads + 1 }) hscript hsum h _

end

/-- The first request after `repeat`. -/
theorem repeats_initial (env : Env) (interval action : ℕ) :
    ∃ s, initial.perform env (.repeats interval action) = s ∧
      s.slots = [⟨slotInterval (max minInterval interval), 0, [0]⟩] ∧ s.held = none ∧
      s.reads = 2 ∧
      s.trace = [.created 0 (env.tick 0) 0 (max minInterval interval), .added 0 none] ∧
      (∀ r, r ≠ 0 → s.obj r = default) ∧
      ∃ id, s.obj 0 = { Req.make id interval 0 0 true (env.tick 0) (env.tick 1) with
        actions := [action] } := by
  obtain ⟨id, seq, hnext⟩ := Sequence.next_of_lt
    (Sequence.make_current_lt (show 1 + 16 < 2 ^ 32 - 1 by decide))
  refine ⟨_, rfl, ?_⟩
  unfold initial
  generalize Sequence.make 1 (2 ^ 32 - 1) 16 = seq₀ at hnext
  simp only [State.perform, State.repeats, State.set, State.createSlot, clamp_eq,
    List.findIdx?_nil, hnext, State.enqueue, State.record, State.push, State.add,
    Table.get?_emplace, Table.get?_empty, if_true]
  have hclamp : max minInterval (max minInterval interval) = max minInterval interval := by omega
  simp only [Req.make, hclamp, State.modifyReq, if_true, Option.getD_some, Option.getD_none,
    List.nil_append, List.length_nil, List.modify_zero_cons, List.cons_append,
    Function.update_self, true_and]
  refine ⟨fun r hr ↦ ?_, id, rfl⟩
  rw [Function.update_of_ne hr, Function.update_of_ne hr]

/-- A clock that goes on after a request has been made. -/
def tickingEnv : Env :=
  .idle (fun k ↦ if k < 2 then 20 else 40)
    (fun a b hab ↦ by dsimp only; split_ifs <;> omega)
    (fun k ↦ by dsimp only [tickLimit]; split_ifs <;> decide)

/-- In a run without wrapped ticks every call of `execute` returns and fires
exactly the requests that are due in the slots it polls. -/
theorem fires_when_due (env : Env) (s : State)
    (h : Reaches (step env) (fun s c ↦ CallFits env s c.2) initial s) :
    Placed s ∧ (CallFits env s .execute → Fires env s) := by
  have hgood : Settled env s := by
    have hstart : Settled env initial := ⟨good_initial, rfl⟩
    refine h.invariant hstart ?_
    rintro s ⟨n, c⟩ s' hs hfit hstep
    have hcall : (call env n s c).2 = true → _ := hs.call (hfit n)
    unfold step at hstep
    dsimp only at hstep
    split at hstep
    · rename_i s₁ heq
      cases hstep
      rw [heq] at hcall
      exact hcall rfl
    · cases hstep
  refine ⟨hgood.1.placed hgood.2,
    fun hfit ↦ ⟨⟨s.made + 1, fun fuel hfuel ↦ ?_⟩, fun fuel hend ↦ ?_⟩⟩
  · exact (hgood.1.execute hgood.2 (hfit fuel)).2 hfuel
  · exact ((hgood.1.execute hgood.2 (hfit fuel)).1 hend).2.2

theorem fires_when_due_repeat :
    Placed (initial.perform tickingEnv (.repeats 10 7)) ∧
      Fires tickingEnv (initial.perform tickingEnv (.repeats 10 7)) := by
  obtain ⟨s, heq, -, -, hreads, htrace, hother, id, hobj⟩ := repeats_initial tickingEnv 10 7
  have hfit : Fit s := by
    rw [Fit, htrace]
    simp only [List.forall_mem_cons]
    refine ⟨?_, ?_, by simp⟩
    · change 20 + 0 + max 10 10 < 2 ^ 64
      decide
    · exact fun h ↦ by cases h
  have hreach : Reaches (step tickingEnv) (fun s c ↦ CallFits tickingEnv s c.2) initial s := by
    refine .head (a := (0, .op (.repeats 10 7))) (fun _ ↦ ?_) ?_ .refl
    · change Fit (initial.perform tickingEnv (.repeats 10 7))
      rw [heq]
      exact hfit
    · rw [← heq]
      rfl
  have hall := fires_when_due tickingEnv s hreach
  rw [heq]
  refine ⟨hall.1, hall.2 (callFits_idle (fun _ _ _ ↦ rfl) (fun r ↦ ?_) hfit)⟩
  rw [hreads]
  by_cases hr : r = 0
  · rw [hr, hobj]
    change 40 + max 10 10 < 2 ^ 64
    decide
  · rw [hother r hr]
    change 40 + 0 < 2 ^ 64
    decide

/-- The clock of a failing run. -/
def stuckEnv : Env := .idle (fun _ ↦ 20) monotone_const fun _ ↦ by decide

/-- The interval is so long that the next tick wraps to the one before now. -/
structure Looping (s : State) : Prop where
  slots : s.slots = [⟨10, 20, [0]⟩]
  interval : (s.obj 0).interval = 2 ^ 64 - 1
  nextRun : (s.obj 0).nextRun = 19
  repeats : (s.obj 0).repeats = true
  cancel : (s.obj 0).cancel = false

theorem Looping.turn (h : Looping s) : Looping (s.turn stuckEnv 20 0 0) := by
  have hcalls : ∀ id (l : List ℕ) (s : State), l.foldl (State.callback stuckEnv id) s =
      { s with calls := s.calls + l.length } :=
    callbacks_idle fun _ _ _ ↦ rfl
  have hturn : s.turn stuckEnv 20 0 0 =
      (((s.take 20 0 0).modifyReq 0 fun q ↦ { q with lastRun := 20 }).run stuckEnv 0).rearm
        20 0 0 := by
    have hcancel : ((s.take 20 0 0).obj 0).cancel = false := h.cancel
    have hrepeats : ((((s.take 20 0 0).modifyReq 0 fun q ↦ { q with lastRun := 20 }).run
        stuckEnv 0).obj 0).repeats = true := by
      simp only [State.run, hcalls, State.modifyReq, Function.update_self]
      exact h.repeats
    simp only [State.turn, hcancel, hrepeats, Bool.true_or, if_true, Bool.false_eq_true, if_false]
  rw [hturn]
  constructor
  · simp [State.run, hcalls, State.rearm, State.modifyReq, State.push, State.record, State.take,
      State.pop, h.slots]
  all_goals
    simp only [State.run, hcalls, State.rearm, State.modifyReq, State.push, State.record,
      Function.update_self, State.take, State.pop]
  · exact h.interval
  · rw [h.interval]
    decide
  · exact h.repeats
  · exact h.cancel

theorem Looping.drain (h : Looping s) (fuel : ℕ) :
    (State.drain stuckEnv 20 0 fuel s).2 = false := by
  induction fuel generalizing s with
  | zero => rfl
  | succ fuel ih =>
      have hqueue : s.queue 0 = [0] := by
        rw [State.queue, h.slots]
        rfl
      have hpick : stuckEnv.pick s.trace.length (fun r ↦ (s.obj r).nextRun) (s.queue 0) =
          some 0 := by
        rw [hqueue]
        rfl
      simp only [State.drain, hpick, h.nextRun]
      exact ih h.turn

/-- A `repeat` whose interval reaches past the last tick is due at once, again and
again. -/
theorem not_fires_wrapped : ¬ ∀ (env : Env) (s : State),
    Reaches (step env) (fun _ _ ↦ True) initial s → Placed s ∧ Fires env s := by
  intro hall
  obtain ⟨s, heq, hslots, hheld, hreads, -, -, id, hobj⟩ := repeats_initial stuckEnv (2 ^ 64 - 1) 7
  have hreach : Reaches (step stuckEnv) (fun _ _ ↦ True) initial s := by
    refine .head (a := (0, .op (.repeats (2 ^ 64 - 1) 7))) trivial ?_ .refl
    rw [← heq]
    rfl
  obtain ⟨bound, hreturns⟩ := (hall stuckEnv s hreach).2.returns
  have hreturn := hreturns bound (Nat.le_refl _)
  have hloop : Looping ({ s with reads := s.reads + 1 }.mark 20 0) := by
    refine ⟨?_, ?_, ?_, ?_, ?_⟩
    · simp only [State.mark, hslots]
      decide
    all_goals
      simp only [State.mark, hobj]
      rfl
  have hdrain := hloop.drain bound
  have hpoll : s.execute stuckEnv bound =
      State.poll stuckEnv bound 20 [0] { s with reads := s.reads + 1 } := by
    simp [State.execute, hslots, stuckEnv, Env.idle]
  have hupdate : ({ s with reads := s.reads + 1 } : State).updateSlot stuckEnv bound 20 0 =
      State.drain stuckEnv 20 0 bound ({ s with reads := s.reads + 1 }.mark 20 0) := by
    have hpolled : Slot.Polled 20 ⟨slotInterval (max minInterval (2 ^ 64 - 1)), 0, [0]⟩ := by
      decide
    simp only [State.updateSlot, hslots, List.getElem?_cons_zero, if_pos hpolled, State.mark]
  rw [hpoll, State.poll, hupdate] at hreturn
  split at hreturn
  · rename_i heq
    rw [heq] at hdrain
    cases hdrain
  · cases hreturn

end WiseKernel.Core.Timer
