import WiseKernel.Core.TimerCancel

/-!
# The duration of a request

`update_slot` pushes a request again if it repeats, or if its end is later than
the tick of the poll.  A request with a duration stops at its end if it does not
repeat and is due at the first poll of its slot past that end; other requests
run on, or run later than that.
-/

namespace WiseKernel.Core.Timer

open WiseKernel.Lib

/-- The poll that is under way: its tick, the tick of the one before, and the slot. -/
def Control.polled : Control → Option (ℕ × ℕ × ℕ)
  | .draining now before i _ => some (now, before, i)
  | .running now before i _ _ _ _ => some (now, before, i)
  | _ => none

/-- The tick that `execute` has read. -/
def Control.now : Control → ℕ
  | .idle => 0
  | .polling now _ => now
  | .draining now _ _ _ => now
  | .running now _ _ _ _ _ _ => now

/-- The slots are not polled past the end of the requests in them, but for the
poll that is under way. -/
structure Timed (env : Env) (poll : Option (ℕ × ℕ × ℕ)) (s : State) : Prop where
  clock : ∀ i, s.lastPoll i ≤ env.tick s.reads
  ends : ∀ r < s.made, (s.obj r).duration ≠ 0 → ∃ k interval,
    .created r (env.tick k) (s.obj r).after interval ∈ s.trace ∧
      (s.obj r).endRun = env.tick (k + 1) + (s.obj r).after + (s.obj r).duration
  early : ∀ i, ∀ r ∈ s.queue i, (s.obj r).cancel = false → (s.obj r).duration ≠ 0 →
    s.lastPoll i ≤ (s.obj r).endRun ∨ ∃ now before, poll = some (now, before, i) ∧
      before ≤ (s.obj r).endRun ∧ (s.obj r).repeats = false ∧ (s.obj r).nextRun ≤ now
  forever : ∀ r < s.made, (s.obj r).repeats = true → (s.obj r).duration = 0 →
    .cancelled r ∈ s.trace ∨ s.reqs.get? (s.obj r).id = some r

section

variable {env : Env} {s s' : State} {poll : Option (ℕ × ℕ × ℕ)} {now before i r id : ℕ}

/-- A step that makes no request and puts none into a queue. -/
theorem Timed.quiet (h : Timed env poll s) (hpoll : ∀ i, s'.lastPoll i = s.lastPoll i)
    (hreads : s.reads ≤ s'.reads) (hmade : s'.made = s.made)
    (hfixed : ∀ r, (s'.obj r).fixed = (s.obj r).fixed)
    (hcancel : ∀ r, (s'.obj r).cancel = false → (s.obj r).cancel = false)
    (hnext : ∀ r, (s'.obj r).nextRun = (s.obj r).nextRun)
    (hqueue : ∀ i, ∀ r ∈ s'.queue i, r ∈ s.queue i) (htrace : s.trace ⊆ s'.trace)
    (hreqs : ∀ r, (s.obj r).repeats = true → s.reqs.get? (s.obj r).id = some r →
      .cancelled r ∈ s'.trace ∨ s'.reqs.get? (s.obj r).id = some r) : Timed env poll s' := by
  refine ⟨fun i ↦ ?_, fun r hr hfinite ↦ ?_, fun i r hr hnot hfinite ↦ ?_,
    fun r hr hrepeats hforever ↦ ?_⟩
  · rw [hpoll]
    exact Nat.le_trans (h.clock i) (env.tick_mono hreads)
  · rw [hmade] at hr
    rw [Req.duration_eq (hfixed r)] at hfinite
    obtain ⟨k, interval, hmem, hend⟩ := h.ends r hr hfinite
    rw [Req.endRun_eq (hfixed r), Req.after_eq (hfixed r), Req.duration_eq (hfixed r)]
    exact ⟨k, interval, htrace hmem, hend⟩
  · rw [Req.duration_eq (hfixed r)] at hfinite
    rw [hpoll, hnext, Req.endRun_eq (hfixed r), Req.repeats_eq (hfixed r)]
    exact h.early i r (hqueue i r hr) (hcancel r hnot) hfinite
  · rw [hmade] at hr
    rw [Req.repeats_eq (hfixed r)] at hrepeats
    rw [Req.duration_eq (hfixed r)] at hforever
    rw [Req.id_eq (hfixed r)]
    rcases h.forever r hr hrepeats hforever with hold | hget
    · exact .inl (htrace hold)
    · exact hreqs r hrepeats hget

theorem Timed.creates {p : ℕ × ℕ × Bool × ℕ} (hs : Sound s) (ht : Timed env poll s)
    (hfit : p.2.1 ≠ 0 → env.tick (s.reads + 1) + p.2.2.2 + p.2.1 < tickLimit)
    (h : Creates env s i id (s.newReq env id p) s') : Timed env poll s' := by
  have hsub : s.trace ⊆ s'.trace := by
    rw [h.trace]
    exact List.subset_append_left ..
  have hends (hfinite : p.2.1 ≠ 0) :
      (s.newReq env id p).endRun = env.tick (s.reads + 1) + p.2.2.2 + p.2.1 :=
    Nat.mod_eq_of_lt (hfit hfinite)
  have hsplit : ∀ {x}, x < s'.made → x < s.made ∨ x = s.made := by
    intro x hx
    rw [h.made] at hx
    exact Nat.lt_succ_iff_lt_or_eq.mp hx
  refine ⟨fun j ↦ ?_, fun x hx hfinite ↦ ?_, fun j x hx hnot hfinite ↦ ?_,
    fun x hx hrepeats hforever ↦ ?_⟩
  · rw [h.lastPoll, h.reads]
    exact Nat.le_trans (ht.clock j) (env.tick_mono (Nat.le_add_right _ _))
  · rcases hsplit hx with hold | rfl
    · rw [h.obj_of_lt hold] at hfinite ⊢
      obtain ⟨k, interval, hmem, hend⟩ := ht.ends x hold hfinite
      exact ⟨k, interval, hsub hmem, hend⟩
    · rw [h.obj_made] at hfinite ⊢
      refine ⟨s.reads, (s.newReq env id p).interval, ?_, hends hfinite⟩
      rw [h.trace]
      exact List.mem_append_right _ List.mem_cons_self
  · rw [h.lastPoll]
    rcases h.queue_cases hs j x hx with ⟨hmem, hobj⟩ | ⟨rfl, rfl, hobj⟩
    · rw [hobj] at hnot hfinite ⊢
      exact ht.early j x hmem hnot hfinite
    · rw [hobj] at hfinite ⊢
      refine .inl ?_
      calc s.lastPoll j ≤ env.tick s.reads := ht.clock j
        _ ≤ env.tick (s.reads + 1) := env.tick_mono (Nat.le_succ _)
        _ ≤ env.tick (s.reads + 1) + p.2.2.2 + p.2.1 := by omega
        _ = (s.newReq env id p).endRun := (hends hfinite).symm
  · rcases hsplit hx with hold | rfl
    · rw [h.obj_of_lt hold] at hrepeats hforever ⊢
      rcases ht.forever x hold hrepeats hforever with hcancelled | hget
      · exact .inl (hsub hcancelled)
      · refine .inr ?_
        rw [h.reqs, if_neg, hget]
        intro hid
        exact (hs.pool.next h.next).1 ⟨x, (hs.table _ x hget).1, hid⟩
    · rw [h.obj_made, h.reqs]
      exact .inr (if_pos rfl)

/-- A request goes back to its queue if that is polled before its end. -/
theorem Timed.rearm (hs : Sound s) (h : Timed env poll s) (hheld : s.held = some r)
    (hi : i < s.slots.length)
    (hend : (s.obj r).duration ≠ 0 → s.lastPoll i ≤ (s.obj r).endRun) :
    Timed env poll (s.rearm now i r) := by
  have hrearms : Rearms now i r s (s.rearm now i r) := rearms_rearm hi
  have hpoll (j : ℕ) : (s.rearm now i r).lastPoll j = s.lastPoll j := State.lastPoll_push
  have hsub : s.trace ⊆ (s.rearm now i r).trace := List.subset_append_left ..
  refine ⟨fun j ↦ ?_, fun x hx hfinite ↦ ?_, fun j x hx hnot hfinite ↦ ?_,
    fun x hx hrepeats hforever ↦ ?_⟩
  · rw [hpoll]
    exact h.clock j
  · have hfixed := hrearms.fixed x
    rw [Req.duration_eq hfixed] at hfinite
    obtain ⟨k, interval, hmem, heq⟩ := h.ends x hx hfinite
    rw [Req.endRun_eq hfixed, Req.after_eq hfixed, Req.duration_eq hfixed]
    exact ⟨k, interval, hsub hmem, heq⟩
  · have hfixed := hrearms.fixed x
    rw [Req.duration_eq hfixed] at hfinite
    rw [hpoll]
    by_cases hxr : x = r
    · subst hxr
      rcases hrearms.mem_queue.mp hx with hold | ⟨rfl, -⟩
      · exact absurd hold (hs.held x j hheld)
      · rw [Req.endRun_eq hfixed]
        exact .inl (hend hfinite)
    · rw [hrearms.other x hxr] at hnot ⊢
      refine h.early j x ?_ hnot hfinite
      exact (hrearms.mem_queue.mp hx).resolve_right fun hnew ↦ hxr hnew.2
  · have hfixed := hrearms.fixed x
    rw [Req.repeats_eq hfixed] at hrepeats
    rw [Req.duration_eq hfixed] at hforever
    rw [Req.id_eq hfixed]
    exact (h.forever x hx hrepeats hforever).imp (fun hmem ↦ hsub hmem) id

theorem Timed.perform {op : Op} (hs : Sound s) (h : Timed env poll s)
    (hfit : ∀ p, op.request = some p → p.2.1 ≠ 0 →
      env.tick (s.reads + 1) + p.2.2.2 + p.2.1 < tickLimit) :
    Timed env poll (s.perform env op) ∧
      ∀ i, (s.perform env op).lastPoll i = s.lastPoll i := by
  refine (@Sound.perform_induction env s
    (fun s' ↦ Timed env poll s' ∧ ∀ i, s'.lastPoll i = s.lastPoll i) op hs
    ⟨h, fun _ ↦ rfl⟩ ?_ ?_ ?_ ?_).2
  · intro s' n i hopens
    have hobj : s'.obj = s.obj := by rw [hopens.eq]
    have hsame := hopens.same
    refine ⟨h.quiet hopens.lastPoll hsame.reads hsame.made hsame.fixed ?_ hsame.nextRun ?_ ?_ ?_,
      hopens.lastPoll⟩
    · intro r hnot
      rwa [hobj] at hnot
    · intro i r hr
      rwa [hsame.queue] at hr
    · rw [hopens.eq]
      exact List.Subset.refl _
    · intro r _ hget
      refine .inr ?_
      rw [hopens.eq]
      exact hget
  · intro s' i id p hop hcreates
    exact ⟨h.creates hs (hfit p hop) hcreates, hcreates.lastPoll⟩
  · rintro s' id action r hs' ⟨h', hpoll⟩ hget
    have hsame : Same s' (s'.add id action).2 := same_add hget
    have hkept : ∀ q : Req, ({ q with actions := q.actions ++ [action] } : Req).cancel = q.cancel :=
      fun _ ↦ rfl
    have hcancel (x : ℕ) : ((s'.add id action).2.obj x).cancel = (s'.obj x).cancel := by
      rw [State.add_eq hget]
      exact State.modifyReq_obj hkept x
    have hlast (i : ℕ) : (s'.add id action).2.lastPoll i = s'.lastPoll i := by
      rw [State.add_eq hget]
      rfl
    refine ⟨h'.quiet hlast hsame.reads hsame.made hsame.fixed ?_ hsame.nextRun ?_ ?_ ?_,
      fun i ↦ (hlast i).trans (hpoll i)⟩
    · intro x hnot
      rwa [hcancel] at hnot
    · intro i x hx
      rwa [hsame.queue] at hx
    · exact State.trace_subset_add id action
    · intro x _ hx
      refine .inr ?_
      rw [State.add_eq hget]
      exact hx
  · rintro id r - hget
    have hsame := hs.same_cancel hget
    have hlast (i : ℕ) : (s.cancel id).2.lastPoll i = s.lastPoll i := by
      rw [State.cancel_eq hget]
      rfl
    have htrace : (s.cancel id).2.trace = s.trace ++ [.cancelled r] := by
      rw [State.cancel_eq hget]
      rfl
    refine ⟨h.quiet hlast hsame.reads hsame.made hsame.fixed ?_ hsame.nextRun ?_ ?_ ?_, hlast⟩
    · intro x hnot
      refine Bool.eq_false_iff.mpr fun htrue ↦ ?_
      rw [(State.cancel_obj id x hget).mpr (.inl htrue)] at hnot
      cases hnot
    · intro i x hx
      rwa [hsame.queue] at hx
    · rw [htrace]
      exact List.subset_append_left ..
    · intro x _ hx
      rw [State.get?_cancel id _ hget, htrace]
      by_cases hid : (s.obj x).id = id
      · rw [hid, hget] at hx
        cases hx
        exact .inl (List.mem_append_right _ List.mem_cons_self)
      · rw [if_neg hid]
        exact .inr hx

end

/-! ## Runs -/

namespace Config

variable {env : Env} {c c' : Config} {now before i r : ℕ} {act : Option ℕ} {actions slots : List ℕ}

/-- The end of a request that is set does not wrap, and a request that has a
duration does not repeat and is due at the first poll of its slot past its end. -/
def EndsOnTime (env : Env) (c : Config) : Move → Prop
  | .op o => ∀ p, o.request = some p → p.2.1 ≠ 0 →
      env.tick (c.timer.reads + 1) + p.2.2.2 + p.2.1 < tickLimit
  | .poll => ∀ now i slots sl, c.control = .polling now (i :: slots) →
      c.timer.slots[i]? = some sl → sl.Polled now → ∀ r ∈ sl.queue,
      (c.timer.obj r).cancel = false → (c.timer.obj r).duration ≠ 0 →
      (c.timer.obj r).endRun < now →
      (c.timer.obj r).repeats = false ∧ (c.timer.obj r).nextRun ≤ now
  | _ => True

/-- The invariant, with what holds of the tick that `execute` has read and of the
request that is running. -/
structure OnTime (env : Env) (c : Config) : Prop where
  timed : Timed env c.control.polled c.timer
  clock : c.control ≠ .idle →
    c.control.now ≤ env.tick c.timer.reads ∧ ∀ i, c.timer.lastPoll i ≤ c.control.now
  slot : ∀ now before i, c.control.polled = some (now, before, i) →
    c.timer.lastPoll i = now ∧ before ≤ now
  run : ∀ now before i r act actions slots,
    c.control = .running now before i r act actions slots → (c.timer.obj r).duration ≠ 0 →
    before ≤ (c.timer.obj r).endRun ∧
      ((c.timer.obj r).endRun < now → (c.timer.obj r).repeats = false)

theorem onTime_op {o : Op} (hc : c.Orderly) (h : c.OnTime env) (hok : c.EndsOnTime env (.op o))
    (hnext : c.next env (.op o) = some c') : c'.OnTime env := by
  obtain ⟨-, rfl⟩ := next_op hnext
  obtain ⟨htimed, hpoll⟩ := h.timed.perform hc.sound hok
  have hframe : Frame c.timer (c.timer.perform env o) := hc.sound.perform_frame o
  refine ⟨htimed, fun hbusy ↦ ?_, fun now before i hpolled ↦ ?_, ?_⟩
  · obtain ⟨hnow, hlast⟩ := h.clock hbusy
    refine ⟨Nat.le_trans hnow (env.tick_mono hframe.reads_le), fun i ↦ ?_⟩
    rw [hpoll]
    exact hlast i
  · rw [hpoll]
    exact h.slot now before i hpolled
  · intro now before i r act actions slots hrun hfinite
    have hr : r < c.timer.made := by
      refine hc.sound.fresh r (.inl (hc.held.trans ?_))
      rw [show c.control = _ from hrun]
      rfl
    have hfixed := hframe.fixed r hr
    rw [Req.duration_eq hfixed] at hfinite
    rw [Req.endRun_eq hfixed, Req.repeats_eq hfixed]
    exact h.run now before i r act actions slots hrun hfinite

theorem onTime_execute (h : c.OnTime env) (hnext : c.next env .execute = some c') :
    c'.OnTime env := by
  obtain ⟨hc, rfl⟩ := next_execute hnext
  have htimed := h.timed
  rw [hc] at htimed
  have hreads : env.tick c.timer.reads ≤ env.tick (c.timer.reads + 1) :=
    env.tick_mono (Nat.le_succ _)
  exact ⟨⟨fun i ↦ Nat.le_trans (htimed.clock i) hreads, htimed.ends, htimed.early,
    htimed.forever⟩, fun _ ↦ ⟨hreads, htimed.clock⟩, nofun, nofun⟩

theorem onTime_poll (h : c.OnTime env) (hok : c.EndsOnTime env .poll)
    (hnext : c.next env .poll = some c') : c'.OnTime env := by
  rcases next_poll hnext with ⟨now, hc, rfl⟩ |
    ⟨now, i, slots, hc, rfl | ⟨sl, hslot, hpolled, rfl⟩⟩
  · have htimed := h.timed
    rw [hc] at htimed
    refine ⟨htimed, fun hbusy ↦ absurd rfl hbusy, ?_, ?_⟩
    · rintro _ _ _ ⟨⟩
    · rintro _ _ _ _ _ _ _ ⟨⟩
  · have htimed := h.timed
    have hclock := h.clock
    rw [hc] at htimed hclock
    have hbusy : Control.polling now (i :: slots) ≠ .idle := Control.noConfusion
    refine ⟨htimed, fun _ ↦ hclock hbusy, ?_, ?_⟩
    · rintro _ _ _ ⟨⟩
    · rintro _ _ _ _ _ _ _ ⟨⟩
  · have htimed := h.timed
    have hclock := h.clock
    rw [hc] at htimed hclock
    have hbusy : Control.polling now (i :: slots) ≠ .idle := Control.noConfusion
    obtain ⟨hnow, hle⟩ := hclock hbusy
    have hlast : c.timer.lastPoll i = sl.lastRun := by rw [State.lastPoll, hslot]; rfl
    have hmark (j : ℕ) :
        (c.timer.mark now i).lastPoll j = if j = i then now else c.timer.lastPoll j :=
      State.lastPoll_mark (List.getElem?_eq_some_iff.mp hslot).1 j
    have hbound (j : ℕ) : (c.timer.mark now i).lastPoll j ≤ now := by
      rw [hmark]
      split_ifs
      · exact Nat.le_refl _
      · exact hle j
    refine ⟨⟨fun j ↦ Nat.le_trans (hbound j) hnow, htimed.ends, fun j r hr hnot hfinite ↦ ?_,
      htimed.forever⟩, fun _ ↦ ⟨hnow, hbound⟩, ?_, ?_⟩
    · rw [State.queue_mark] at hr
      have hearly : c.timer.lastPoll j ≤ (c.timer.obj r).endRun := by
        rcases htimed.early j r hr hnot hfinite with hle | ⟨now', before, hpoll, -⟩
        · exact hle
        · cases hpoll
      rw [hmark]
      split_ifs with hj
      · subst hj
        by_cases hpast : (c.timer.obj r).endRun < now
        · rw [State.queue_eq hslot] at hr
          obtain ⟨hrepeats, hdue⟩ :=
            hok now j slots sl hc hslot hpolled r hr hnot hfinite hpast
          exact .inr ⟨now, sl.lastRun, rfl, hlast ▸ hearly, hrepeats, hdue⟩
        · exact .inl (Nat.le_of_not_lt hpast)
      · exact .inl hearly
    · rintro now' before i' hpoll
      cases hpoll
      rw [hmark, if_pos rfl, ← hlast]
      exact ⟨rfl, hle i⟩
    · rintro _ _ _ _ _ _ _ ⟨⟩

theorem onTime_pick (hc : c.Orderly) (h : c.OnTime env) (hnext : c.next env .pick = some c') :
    c'.OnTime env := by
  obtain ⟨now, before, i, slots, hdraining, hpick⟩ := next_pick hnext
  have htimed := h.timed
  have hclock := h.clock
  have hslot := h.slot
  have hheld := hc.held
  rw [hdraining] at htimed hclock hslot hheld
  have hbusy := hclock nofun
  obtain ⟨hlast, hbefore⟩ := hslot now before i rfl
  rcases hpick with ⟨rfl, hnone⟩ | ⟨r, hr, -, hturn⟩
  · refine ⟨⟨htimed.clock, htimed.ends, fun j r hr hnot hfinite ↦ ?_, htimed.forever⟩,
      fun _ ↦ hbusy, nofun, nofun⟩
    rcases htimed.early j r hr hnot hfinite with hle | ⟨now', before', hpoll, -, -, hdue⟩
    · exact .inl hle
    · cases hpoll
      exact absurd hdue (Nat.not_le.mpr (hnone r hr))
  · have hmem : ∀ j x, x ∈ (c.timer.take now i r).queue j ↔ x ∈ c.timer.queue j ∧ x ≠ r :=
      (hc.sound.take hheld hr).2.2
    have hpoll (j : ℕ) : (c.timer.take now i r).lastPoll j = c.timer.lastPoll j :=
      State.lastPoll_pop
    have htake : Timed env (some (now, before, i)) (c.timer.take now i r) := by
      refine htimed.quiet hpoll (Nat.le_refl _) rfl (fun _ ↦ rfl) (fun _ hnot ↦ hnot)
        (fun _ ↦ rfl) (fun j x hx ↦ ((hmem j x).mp hx).1) (List.subset_append_left ..) ?_
      exact fun x _ hget ↦ .inr hget
    have hle (j : ℕ) : (c.timer.take now i r).lastPoll j ≤ now := by
      rw [hpoll]
      exact hbusy.2 j
    rcases hturn with ⟨-, rfl⟩ | ⟨hnot, rfl⟩
    · refine ⟨⟨htake.clock, htake.ends, htake.early, htake.forever⟩, fun _ ↦ ⟨hbusy.1, hle⟩, ?_,
        nofun⟩
      rintro _ _ _ heq
      cases heq
      exact ⟨(hpoll i).trans hlast, hbefore⟩
    · have hcancel : ∀ q : Req, ({ q with lastRun := now } : Req).cancel = q.cancel :=
        fun _ ↦ rfl
      have hsame :=
        same_modifyReq (s := c.timer.take now i r) (f := fun q ↦ { q with lastRun := now })
        (fun _ ↦ rfl) (fun _ ↦ rfl) (fun _ ↦ rfl) (fun _ ↦ rfl) r
      refine ⟨?_, fun _ ↦ ⟨hbusy.1, hle⟩, ?_, ?_⟩
      · refine htake.quiet (fun _ ↦ rfl) (Nat.le_refl _) rfl hsame.fixed ?_ hsame.nextRun
          (fun _ _ hx ↦ hx) (List.Subset.refl _) fun x _ hget ↦ .inr hget
        intro x hx
        rwa [State.modifyReq_obj hcancel] at hx
      · rintro _ _ _ heq
        cases heq
        exact ⟨(hpoll i).trans hlast, hbefore⟩
      · intro now' before' i' x act actions slots' heq hfinite
        simp only [Control.running.injEq] at heq
        obtain ⟨rfl, rfl, rfl, rfl, -⟩ := heq
        have hfixed : (((c.timer.take now i r).modifyReq r
            fun q ↦ { q with lastRun := now }).obj r).fixed = (c.timer.obj r).fixed := hsame.fixed r
        rw [Req.duration_eq hfixed] at hfinite
        rw [Req.endRun_eq hfixed, Req.repeats_eq hfixed]
        rcases htimed.early i r hr hnot hfinite with hend | ⟨now', before', heq, hend, hrepeats, -⟩
        · rw [hlast] at hend
          exact ⟨Nat.le_trans hbefore hend, fun hpast ↦ absurd hend (Nat.not_le.mpr hpast)⟩
        · cases heq
          exact ⟨hend, fun _ ↦ hrepeats⟩

theorem onTime_call (h : c.OnTime env) (hnext : c.next env .call = some c') : c'.OnTime env := by
  obtain ⟨now, before, i, r, act, action, actions, slots, hrunning, rfl⟩ := next_call hnext
  have htimed := h.timed
  have hclock := h.clock
  have hslot := h.slot
  rw [hrunning] at htimed hclock hslot
  refine ⟨⟨htimed.clock, htimed.ends, htimed.early, htimed.forever⟩, fun _ ↦ hclock nofun,
    hslot, ?_⟩
  rintro _ _ _ _ _ _ _ heq
  cases heq
  exact h.run _ _ _ _ _ _ _ hrunning

theorem timed_finished {s : State} {poll : Option (ℕ × ℕ × ℕ)} (hs : Sound s)
    (h : Timed env poll s) (hheld : s.held = some r) (hi : i < s.slots.length)
    (hlast : s.lastPoll i = now)
    (hrun : (s.obj r).duration ≠ 0 → (s.obj r).endRun < now → (s.obj r).repeats = false) :
    Timed env poll (finished s now i r) := by
  have hcancel : ∀ q : Req, ({ q with runCount := q.runCount + 1 } : Req).cancel = q.cancel :=
    fun _ ↦ rfl
  have hsame : Same s (s.modifyReq r fun q ↦ { q with runCount := q.runCount + 1 }) :=
    same_counted
  have hfixed := hsame.fixed r
  have hcounted : Timed env poll
      (s.modifyReq r fun q ↦ { q with runCount := q.runCount + 1 }) := by
    refine h.quiet (fun _ ↦ rfl) (Nat.le_refl _) rfl hsame.fixed ?_ hsame.nextRun
      (fun _ _ hx ↦ hx) (List.Subset.refl _) fun x _ hget ↦ .inr hget
    intro x hx
    rwa [State.modifyReq_obj hcancel] at hx
  have hsound := hs.of_same hsame
  unfold finished
  set s₁ := s.modifyReq r fun q ↦ { q with runCount := q.runCount + 1 }
  dsimp only
  split_ifs with hagain
  · refine hcounted.rearm hsound hheld hi fun hfinite ↦ ?_
    rw [Req.duration_eq hfixed] at hfinite
    rw [Bool.or_eq_true, decide_eq_true_eq, Req.repeats_eq hfixed, Req.endRun_eq hfixed] at hagain
    rw [Req.endRun_eq hfixed]
    refine hlast.trans_le ?_
    by_contra hlt
    have hpast := Nat.not_le.mp hlt
    rcases hagain with hrepeats | hbefore
    · rw [hrun hfinite hpast] at hrepeats
      cases hrepeats
    · exact absurd hbefore (Nat.not_lt.mpr (Nat.le_of_lt hpast))
  · rw [Bool.or_eq_true, not_or] at hagain
    refine hcounted.quiet (fun _ ↦ rfl) (Nat.le_refl _) rfl (fun _ ↦ rfl) (fun _ hnot ↦ hnot)
      (fun _ ↦ rfl) (fun _ _ hx ↦ hx) (List.Subset.refl _) fun x hrepeats hget ↦ .inr ?_
    refine (State.get?_removeEndReq ..).trans ?_
    rw [if_neg, hget]
    intro hid
    obtain ⟨hlive, -, -⟩ := hsound.table _ x hget
    have hxr := hsound.ids x r hlive (.inl hheld) hid
    rw [hxr] at hrepeats
    exact hagain.1 hrepeats

/-- A request that does not run again is off the table. -/
theorem not_has_finished {s : State} (hrepeats : (s.obj r).repeats = false)
    (hend : (s.obj r).endRun ≤ now) : (finished s now i r).has (s.obj r).id = false := by
  have hfixed : ((s.modifyReq r fun q ↦ { q with runCount := q.runCount + 1 }).obj r).fixed =
      (s.obj r).fixed :=
    same_counted.fixed r
  unfold finished
  set s₁ := s.modifyReq r fun q ↦ { q with runCount := q.runCount + 1 }
  dsimp only
  rw [Req.repeats_eq hfixed, Req.endRun_eq hfixed, hrepeats, Req.id_eq hfixed, Bool.false_or,
    if_neg (by simpa using hend), State.has]
  have hnone : ((s₁.removeEndReq (s.obj r).id).letGo r).reqs.get? (s.obj r).id = none :=
    (State.get?_removeEndReq ..).trans (if_pos rfl)
  rw [hnone]
  rfl

theorem onTime_finish (hc : c.Orderly) (h : c.OnTime env)
    (hnext : c.next env .finish = some c') : c'.OnTime env := by
  obtain ⟨now, before, i, r, act, slots, hrunning, rfl⟩ := next_finish hnext
  have htimed := h.timed
  have hclock := h.clock
  have hslot := h.slot
  have hheld := hc.held
  rw [hrunning] at htimed hclock hslot hheld
  obtain ⟨hnow, hle⟩ := hclock nofun
  obtain ⟨hlast, hbefore⟩ := hslot now before i rfl
  have hi := hc.slot _ _ _ _ _ _ _ hrunning
  have hpoll (j : ℕ) : (finished c.timer now i r).lastPoll j = c.timer.lastPoll j := by
    unfold finished
    dsimp only
    split_ifs
    · exact State.lastPoll_push
    · rfl
  have hreads : (finished c.timer now i r).reads = c.timer.reads := by
    unfold finished
    dsimp only
    split_ifs <;> rfl
  have hfinished : Timed env (some (now, before, i)) (finished c.timer now i r) :=
    timed_finished hc.sound htimed hheld hi hlast fun hfinite ↦
      (h.run _ _ _ _ _ _ _ hrunning hfinite).2
  refine ⟨hfinished, fun _ ↦ ⟨?_, fun j ↦ ?_⟩, ?_, nofun⟩
  · rw [hreads]
    exact hnow
  · rw [hpoll]
    exact hle j
  · rintro _ _ _ heq
    cases heq
    exact ⟨(hpoll i).trans hlast, hbefore⟩

theorem OnTime.next (hc : c.Orderly) (h : c.OnTime env) {m : Move} (hok : c.EndsOnTime env m)
    (hnext : c.next env m = some c') : c'.OnTime env := by
  cases m with
  | op o => exact onTime_op hc h hok hnext
  | execute => exact onTime_execute h hnext
  | poll => exact onTime_poll h hok hnext
  | pick => exact onTime_pick hc h hnext
  | call => exact onTime_call h hnext
  | finish => exact onTime_finish hc h hnext

theorem onTime_initial : initial.OnTime env := by
  refine ⟨⟨fun i ↦ ?_, ?_, fun i r hr ↦ ?_, ?_⟩, fun hbusy ↦ absurd rfl hbusy, nofun, nofun⟩
  · exact Nat.zero_le _
  · intro r hr
    exact absurd hr (Nat.not_lt_zero r)
  · exact absurd (.inr ⟨i, hr⟩) (not_live_initial r)
  · intro r hr
    exact absurd hr (Nat.not_lt_zero r)

end Config

/-- In a run in which every request with a duration is, at the first poll of its
slot past its end, due and not one that repeats: the actions of a request are
called up to that poll; that poll takes the request off the table, and it is off
the table from then on; and a request that repeats without a duration stays until
it is cancelled. -/
theorem duration_ends (env : Env) (c : Config)
    (h : Reaches (Config.next env) (Config.EndsOnTime env) .initial c) :
    (∀ r < c.timer.made, (c.timer.obj r).duration ≠ 0 → ∃ k interval,
      .created r (env.tick k) (c.timer.obj r).after interval ∈ c.timer.trace ∧
      (c.timer.obj r).endRun =
        env.tick (k + 1) + (c.timer.obj r).after + (c.timer.obj r).duration) ∧
    (∀ now before i r act actions slots,
      c.control = .running now before i r act actions slots → (c.timer.obj r).duration ≠ 0 →
      before ≤ (c.timer.obj r).endRun ∧ ((c.timer.obj r).endRun < now →
        ∀ c', c.next env .finish = some c' → c'.timer.has (c.timer.obj r).id = false)) ∧
    (∀ id r, c.timer.reqs.get? id = some r → (c.timer.obj r).duration ≠ 0 → c.control = .idle →
      ∃ i, r ∈ c.timer.queue i ∧ c.timer.lastPoll i ≤ (c.timer.obj r).endRun) ∧
    ∀ r < c.timer.made, (c.timer.obj r).repeats = true → (c.timer.obj r).duration = 0 →
      .cancelled r ∉ c.timer.trace →
      c.timer.reqs.get? (c.timer.obj r).id = some r ∧ c.timer.Live r := by
  obtain ⟨hc, hontime⟩ : c.Orderly ∧ c.OnTime env := by
    refine @Reaches.invariant _ _ _ _ (fun c : Config ↦ c.Orderly ∧ c.OnTime env) _ _ h
      ⟨Config.orderly_initial, Config.onTime_initial⟩ ?_
    rintro c m c' ⟨hc, hontime⟩ hok hnext
    exact ⟨hc.next hnext, hontime.next hc hok hnext⟩
  refine ⟨hontime.timed.ends, ?_, ?_, ?_⟩
  · intro now before i r act actions slots hrunning hfinite
    obtain ⟨hbefore, hrepeats⟩ := hontime.run _ _ _ _ _ _ _ hrunning hfinite
    refine ⟨hbefore, fun hpast c' hfinish ↦ ?_⟩
    obtain ⟨now', before', i', r', act', slots', hrunning', rfl⟩ := Config.next_finish hfinish
    rw [hrunning] at hrunning'
    cases hrunning'
    exact Config.not_has_finished (hrepeats hpast) (Nat.le_of_lt hpast)
  · intro id r hget hfinite hidle
    obtain ⟨hlive, -, hnot⟩ := hc.sound.table id r hget
    have hheld := hc.held
    have htimed := hontime.timed
    rw [hidle] at hheld htimed
    rcases hlive with hheld' | ⟨i, hr⟩
    · rw [hheld'] at hheld
      cases hheld
    · refine ⟨i, hr, ?_⟩
      rcases htimed.early i r hr hnot hfinite with hle | ⟨now, before, hpoll, -⟩
      · exact hle
      · cases hpoll
  · intro r hr hrepeats hforever hnot
    have hget := (hontime.timed.forever r hr hrepeats hforever).resolve_left hnot
    exact ⟨hget, (hc.sound.table _ r hget).1⟩

/-- Whether a move of the ticking clock is one that ends on time. -/
def checkEnd (c : Config) : Move → Bool
  | .op o => o.request.all fun p ↦
      decide (tickingEnv.tick (c.timer.reads + 1) + p.2.2.2 + p.2.1 < tickLimit)
  | .poll =>
      match c.control with
      | .polling now (i :: _) => (c.timer.queue i).all fun r ↦
          !(c.timer.obj r).repeats && decide ((c.timer.obj r).nextRun ≤ now)
      | _ => true
  | _ => true

theorem endsOnTime_of_check {c : Config} {m : Move} (hcheck : checkEnd c m = true) :
    c.EndsOnTime tickingEnv m := by
  cases m with
  | op o =>
      intro p hp _
      simp only [checkEnd, hp, Option.all_some] at hcheck
      exact of_decide_eq_true hcheck
  | poll =>
      intro now i slots sl hc hslot _ r hr _ _ _
      rw [← State.queue_eq hslot] at hr
      simp only [checkEnd, hc, List.all_eq_true, Bool.and_eq_true, Bool.not_eq_true',
        decide_eq_true_eq] at hcheck
      exact hcheck r hr
  | _ => trivial

/-- A request that does not repeat, in the callback past its end. -/
theorem duration_ends_once : ∃ c : Config, c.control = .running 40 0 0 0 (some 7) [] [] ∧
    (c.timer.obj 0).endRun = 25 ∧
    ∀ c', c.next tickingEnv .finish = some c' → c'.timer.has (c.timer.obj 0).id = false := by
  have hrun : ∃ c, Reaches (Config.next tickingEnv) (Config.EndsOnTime tickingEnv) .initial c ∧
      (c.control == .running 40 0 0 0 (some 7) [] [] && (c.timer.obj 0).duration == 5 &&
        (c.timer.obj 0).endRun == 25) = true :=
    exists_reaches_checked
      [.op (.set 10 5 false 0), .op (.add 1 7), .execute, .poll, .pick, .call]
      checkEnd (fun _ _ ↦ endsOnTime_of_check) (by decide)
  obtain ⟨c, hreach, hlast⟩ := hrun
  rw [Bool.and_eq_true, Bool.and_eq_true, beq_iff_eq, beq_iff_eq, beq_iff_eq] at hlast
  obtain ⟨⟨hrunning, hduration⟩, hend⟩ := hlast
  refine ⟨c, hrunning, hend, ?_⟩
  have hall := (duration_ends tickingEnv c hreach).2.1 40 0 0 0 (some 7) [] [] hrunning
    (by rw [hduration]; decide)
  exact hall.2 (by rw [hend]; decide)

theorem passing_monotone :
    Monotone fun k : ℕ ↦ if k < 2 then 20 else if k < 3 then 40 else 80 := by
  intro a b hab
  dsimp only
  split_ifs <;> omega

theorem passing_lt (k : ℕ) : (if k < 2 then 20 else if k < 3 then 40 else 80) < tickLimit := by
  rw [tickLimit]
  split_ifs <;> decide

/-- A clock that passes the end of a request between two polls of its slot. -/
def passingEnv : Env :=
  .idle (fun k ↦ if k < 2 then 20 else if k < 3 then 40 else 80) passing_monotone passing_lt

/-- A request that repeats runs after its end, at one poll of its slot after another. -/
theorem not_duration_ends : ¬ ∀ (env : Env) (c : Config),
    Reaches (Config.next env) (fun _ _ ↦ True) .initial c →
    ∀ now before i r act actions slots,
      c.control = .running now before i r act actions slots → (c.timer.obj r).duration ≠ 0 →
      before ≤ (c.timer.obj r).endRun := by
  intro h
  have hrun : ∃ c, Reaches (Config.next passingEnv) (fun _ _ ↦ True) .initial c ∧
      (c.control == .running 80 40 0 0 (some 7) [] [] && (c.timer.obj 0).duration == 5 &&
        (c.timer.obj 0).endRun == 25) = true :=
    exists_reaches [.op (.set 10 5 true 0), .op (.add 1 7), .execute, .poll, .pick, .call, .finish,
      .pick, .poll, .execute, .poll, .pick, .call] (fun _ _ _ ↦ trivial) (by decide)
  obtain ⟨c, hreach, hlast⟩ := hrun
  rw [Bool.and_eq_true, Bool.and_eq_true, beq_iff_eq, beq_iff_eq, beq_iff_eq] at hlast
  obtain ⟨⟨hrunning, hduration⟩, hend⟩ := hlast
  have hle := h passingEnv c hreach 80 40 0 0 (some 7) [] [] hrunning (by rw [hduration]; decide)
  rw [hend] at hle
  exact absurd hle (by decide)

end WiseKernel.Core.Timer
