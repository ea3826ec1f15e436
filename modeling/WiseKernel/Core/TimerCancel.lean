import WiseKernel.Core.TimerSteps

/-!
# Cancelling a request

`cancel` marks the request and forgets its id; the queue of a slot, and the loop
over its actions if it is running, still have it.  From the events on, a
cancelled request stays silent unless an action of its own but the last cancels
it, and its id is another request's only after a later `set`.
-/

namespace WiseKernel.Core.Timer

open WiseKernel.Lib

/-- `timer::has` -/
def State.has (s : State) (id : ℕ) : Bool := (s.reqs.get? id).isSome

/-- What the marks and the table say about the cancelled requests. -/
structure Marked (s : State) : Prop where
  known : ∀ r, .cancelled r ∈ s.trace → r < s.made
  flag : ∀ r < s.made, (s.obj r).cancel = true ↔ .cancelled r ∈ s.trace
  reissued : ∀ pre r post, s.trace = pre ++ .cancelled r :: post → ∀ r',
    s.reqs.get? (s.obj r).id = some r' → ∃ now after interval, .created r' now after interval ∈ post

section

variable {env : Env} {s s' : State} {i r id : ℕ}

theorem State.cancel_fst (s : State) (id : ℕ) : (s.cancel id).1 = s.has id := by
  rw [State.cancel, State.has]
  cases s.reqs.get? id <;> rfl

/-- An event among those of before is followed by the new ones. -/
theorem split_of_notMem {α : Type*} {l ev pre post : List α} {a : α}
    (h : l ++ ev = pre ++ a :: post) (hnot : a ∉ ev) :
    ∃ post', l = pre ++ a :: post' ∧ post = post' ++ ev := by
  rcases List.append_eq_append_iff.mp h with ⟨mid, -, hev⟩ | ⟨mid, hl, hpost⟩
  · rw [hev] at hnot
    exact absurd (List.mem_append_right mid List.mem_cons_self) hnot
  · cases mid with
    | nil =>
        rw [List.nil_append] at hpost
        rw [← hpost] at hnot
        exact absurd List.mem_cons_self hnot
    | cons b mid =>
        obtain ⟨rfl, rfl⟩ := List.cons.inj hpost
        exact ⟨mid, hl, rfl⟩

/-- A step that cancels nothing and puts nothing into the table. -/
theorem Marked.quiet (h : Marked s) {ev : List Event} (htrace : s'.trace = s.trace ++ ev)
    (hev : ∀ r, .cancelled r ∉ ev) (hmade : s'.made = s.made)
    (hcancel : ∀ r, (s'.obj r).cancel = (s.obj r).cancel)
    (hid : ∀ r, (s'.obj r).id = (s.obj r).id)
    (hreqs : ∀ k r, s'.reqs.get? k = some r → s.reqs.get? k = some r) : Marked s' := by
  have hmem (r : ℕ) : .cancelled r ∈ s'.trace ↔ .cancelled r ∈ s.trace := by
    rw [htrace, List.mem_append]
    exact or_iff_left (hev r)
  refine ⟨?_, ?_, ?_⟩
  · intro r hr
    rw [hmade]
    exact h.known r ((hmem r).mp hr)
  · intro r hr
    rw [hcancel, hmem]
    exact h.flag r (hmade ▸ hr)
  · intro pre r post heq r' hget
    rw [htrace] at heq
    obtain ⟨post', hold, rfl⟩ := split_of_notMem heq (hev r)
    rw [hid] at hget
    obtain ⟨now, after, interval, hmem⟩ := h.reissued pre r post' hold r' (hreqs _ _ hget)
    exact ⟨now, after, interval, List.mem_append_left ev hmem⟩

theorem Marked.creates {p : ℕ × ℕ × Bool × ℕ} (hm : Marked s)
    (h : Creates env s i id (s.newReq env id p) s') : Marked s' := by
  have hmem (r : ℕ) : .cancelled r ∈ s'.trace ↔ .cancelled r ∈ s.trace := by
    simp [h.trace]
  refine ⟨?_, ?_, ?_⟩
  · intro r hr
    rw [h.made]
    exact Nat.lt_succ_of_lt (hm.known r ((hmem r).mp hr))
  · intro r hr
    rw [h.made] at hr
    rw [hmem]
    rcases Nat.lt_succ_iff_lt_or_eq.mp hr with hold | rfl
    · rw [h.obj_of_lt hold]
      exact hm.flag r hold
    · rw [h.obj_made]
      exact iff_of_false Bool.false_ne_true fun hr ↦ Nat.lt_irrefl _ (hm.known _ hr)
  · intro pre r post heq r' hget
    have hr : r < s.made := by
      refine hm.known r ((hmem r).mp ?_)
      rw [heq]
      exact List.mem_append_right pre List.mem_cons_self
    rw [h.trace] at heq
    obtain ⟨post', hold, rfl⟩ := split_of_notMem heq (by simp)
    rw [h.obj_of_lt hr, h.reqs] at hget
    split_ifs at hget with hk
    · cases hget
      exact ⟨_, _, _, List.mem_append_right post' List.mem_cons_self⟩
    · obtain ⟨now, after, interval, hmem⟩ := hm.reissued pre r post' hold r' hget
      exact ⟨now, after, interval, List.mem_append_left _ hmem⟩

theorem Marked.add {action : ℕ} (hm : Marked s) (hget : s.reqs.get? id = some r) :
    Marked (s.add id action).2 := by
  have hsame : Same s (s.add id action).2 := same_add hget
  have hcancel (x : ℕ) : ((s.add id action).2.obj x).cancel = (s.obj x).cancel := by
    have hkept : ∀ q : Req, ({ q with actions := q.actions ++ [action] } : Req).cancel =
        q.cancel := fun _ ↦ rfl
    rw [State.add_eq hget]
    exact State.modifyReq_obj hkept x
  have htrace : (s.add id action).2.trace = s.trace ++ [.added r s.held] := by
    rw [State.add_eq hget]
    rfl
  exact hm.quiet htrace (by simp) hsame.made hcancel (fun x ↦ Req.id_eq (hsame.fixed x))
    fun k x hx ↦ (hsame.reqs k x hx).1

theorem Marked.cancel (hs : Sound s) (hm : Marked s) (hget : s.reqs.get? id = some r) :
    Marked (s.cancel id).2 := by
  have hsame := hs.same_cancel hget
  have htrace : (s.cancel id).2.trace = s.trace ++ [.cancelled r] := by
    rw [State.cancel_eq hget]
    rfl
  obtain ⟨hlive, hid, -⟩ := hs.table id r hget
  refine ⟨?_, ?_, ?_⟩
  · intro x hx
    rw [htrace, List.mem_append, List.mem_singleton] at hx
    rw [hsame.made]
    rcases hx with hold | hnew
    · exact hm.known x hold
    · cases hnew
      exact hs.fresh r hlive
  · intro x hx
    rw [hsame.made] at hx
    rw [State.cancel_obj id x hget, hm.flag x hx, htrace, List.mem_append, List.mem_singleton,
      Event.cancelled.injEq]
  · intro pre x post heq r' hget'
    rw [Req.id_eq (hsame.fixed x), State.get?_cancel id _ hget] at hget'
    split_ifs at hget' with hk
    rw [htrace] at heq
    by_cases hx : x = r
    · subst hx
      exact absurd hid hk
    · obtain ⟨post', hold, rfl⟩ := split_of_notMem heq (by simpa using hx)
      obtain ⟨now, after, interval, hmem⟩ := hm.reissued pre x post' hold r' hget'
      exact ⟨now, after, interval, List.mem_append_left _ hmem⟩

theorem Marked.perform (hs : Sound s) (hm : Marked s) (op : Op) : Marked (s.perform env op) := by
  refine (@Sound.perform_induction env s Marked op hs hm ?_ ?_ ?_ ?_).2
  · intro s' n i h
    have htrace : s'.trace = s.trace ++ [] := by
      rw [List.append_nil, h.eq]
    have hobj : s'.obj = s.obj := by rw [h.eq]
    exact hm.quiet htrace (by simp) h.same.made (fun r ↦ by rw [hobj]) (fun r ↦ by rw [hobj])
      fun k r hget ↦ (h.same.reqs k r hget).1
  · intro s' i id p _ h
    exact hm.creates h
  · intro s id action r _ hm hget
    exact hm.add hget
  · intro id r _ hget
    exact hm.cancel hs hget

/-- Only a call of `cancel` marks a request. -/
theorem Sound.cancelled_of_perform (hs : Sound s) {op : Op}
    (hmem : .cancelled r ∈ (s.perform env op).trace) :
    .cancelled r ∈ s.trace ∨ ∃ id, op = .cancel id ∧ s.reqs.get? id = some r := by
  by_cases hop : ∃ id, op = .cancel id
  · obtain ⟨id, rfl⟩ := hop
    rw [State.perform] at hmem
    cases hget : s.reqs.get? id with
    | none =>
        rw [State.cancel, hget] at hmem
        exact .inl hmem
    | some x =>
        rw [State.cancel_eq hget] at hmem
        rcases List.mem_append.mp hmem with hold | hnew
        · exact .inl hold
        · cases List.mem_singleton.mp hnew
          exact .inr ⟨id, rfl, hget⟩
  · refine .inl ?_
    refine (@Sound.perform_induction env s
      (fun s' ↦ .cancelled r ∈ s'.trace → .cancelled r ∈ s.trace) op hs id ?_ ?_ ?_ ?_).2 hmem
    · intro s' n i h hr
      rw [h.eq] at hr
      exact hr
    · intro s' i id p _ h hr
      rw [h.trace] at hr
      simpa using hr
    · intro s' id action x _ ih hget hr
      rw [State.add_eq hget] at hr
      refine ih ?_
      simpa [State.record, State.modifyReq] using hr
    · intro id x heq
      exact absurd ⟨id, heq⟩ hop

/-- An id that `set` gives belongs to no request that is in a queue or running. -/
theorem Sound.fresh_id (hs : Sound s) {interval duration after : ℕ} {repeats : Bool}
    (h : (s.set env interval duration repeats after).1 = .ok id) :
    ∀ r, s.Live r → (s.obj r).id ≠ id := by
  rcases hs.set_cases interval duration repeats after with
    ⟨e, n, i, s₁, heq, -⟩ | ⟨id', i, s₁, heq, hcreates⟩ <;> rw [heq] at h
  · cases h
  · cases h
    intro r hr hid
    exact (hs.pool.next hcreates.next).1 ⟨r, hr, hid⟩

theorem State.once_eq_ok {after action : ℕ} (h : (s.once env after action).1 = .ok id) :
    (s.set env after 0 false 0).1 = .ok id := by
  unfold State.once at h
  split at h <;> rename_i heq <;> rw [heq]
  · cases h
  · exact h

theorem Sound.repeats_eq_ok (hs : Sound s) {interval action : ℕ}
    (h : (s.repeats env interval action).1 = .ok id) :
    (s.set env interval 0 true 0).1 = .ok id := by
  have hcases := @Sound.set_cases env s hs interval 0 true 0
  rcases hcases with ⟨e, n, i, s₁, heq, -⟩ | ⟨id', i, s₁, heq, hcreates⟩
  · simp only [State.repeats, heq] at h
    cases h
  · have hget : s₁.reqs.get? id' = some s.made := by
      rw [hcreates.reqs, if_pos rfl]
    simp only [State.repeats, heq, State.add_eq hget] at h
    rw [heq]
    exact h

end

/-! ## Runs -/

namespace Config

variable {env : Env} {c c' : Config}

/-- No action of a request cancels it while actions of it are left, or adds to
the vector of actions that is being read. -/
def Undisturbed (c : Config) : Move → Prop
  | .op (.cancel id) =>
      match c.control with
      | .running _ _ _ r _ (_ :: _) _ => c.timer.reqs.get? id ≠ some r
      | _ => True
  | .op (.add id _) => ∀ r, c.control.held = some r → c.timer.reqs.get? id ≠ some r
  | _ => True

theorem marked_finished {s : State} (h : Marked s) (now i r : ℕ) :
    Marked (finished s now i r) := by
  have hcounted : Marked (s.modifyReq r fun q ↦ { q with runCount := q.runCount + 1 }) := by
    have hcancel : ∀ q : Req, ({ q with runCount := q.runCount + 1 } : Req).cancel = q.cancel :=
      fun _ ↦ rfl
    have hid : ∀ q : Req, ({ q with runCount := q.runCount + 1 } : Req).id = q.id := fun _ ↦ rfl
    exact h.quiet (List.append_nil _).symm (by simp) rfl (State.modifyReq_obj hcancel)
      (State.modifyReq_obj hid) fun _ _ hget ↦ hget
  unfold finished
  set s₁ := s.modifyReq r fun q ↦ { q with runCount := q.runCount + 1 }
  dsimp only
  split_ifs
  · have hcancel : ∀ q : Req, ({ q with
        nextRun := wrap (now + q.interval), due := now + q.interval } : Req).cancel = q.cancel :=
      fun _ ↦ rfl
    have hid : ∀ q : Req, ({ q with
        nextRun := wrap (now + q.interval), due := now + q.interval } : Req).id = q.id :=
      fun _ ↦ rfl
    have htrace : (s₁.rearm now i r).trace =
        s₁.trace ++ [.rearmed r now (s₁.obj r).interval] := rfl
    exact hcounted.quiet htrace (by simp) rfl (State.modifyReq_obj hcancel)
      (State.modifyReq_obj hid) fun _ _ hget ↦ hget
  · refine hcounted.quiet (List.append_nil _).symm (by simp) rfl (fun _ ↦ rfl) (fun _ ↦ rfl) ?_
    intro k x hget
    exact ((same_removeEndReq _).reqs k x hget).1

theorem marked_next (hc : c.Orderly) (hm : Marked c.timer) {m : Move}
    (hnext : c.next env m = some c') : Marked c'.timer := by
  cases m with
  | op o =>
      obtain ⟨-, rfl⟩ := next_op hnext
      exact hm.perform hc.sound o
  | execute =>
      obtain ⟨-, rfl⟩ := next_execute hnext
      exact hm.quiet (List.append_nil _).symm (by simp) rfl (fun _ ↦ rfl) (fun _ ↦ rfl)
        fun _ _ hget ↦ hget
  | poll =>
      rcases next_poll hnext with ⟨now, -, rfl⟩ | ⟨now, i, slots, -, rfl | ⟨sl, -, -, rfl⟩⟩
      · exact hm
      · exact hm
      · exact hm.quiet (List.append_nil _).symm (by simp) rfl (fun _ ↦ rfl) (fun _ ↦ rfl)
          fun _ _ hget ↦ hget
  | pick =>
      obtain ⟨now, before, i, slots, -, ⟨rfl, -⟩ | ⟨r, hr, -, hturn⟩⟩ := next_pick hnext
      · exact hm
      · have htake : Marked (c.timer.take now i r) :=
          hm.quiet rfl (by simp) rfl (fun _ ↦ rfl) (fun _ ↦ rfl) fun _ _ hget ↦ hget
        rcases hturn with ⟨-, rfl⟩ | ⟨-, rfl⟩
        · exact htake.quiet (List.append_nil _).symm (by simp) rfl (fun _ ↦ rfl) (fun _ ↦ rfl)
            fun _ _ hget ↦ hget
        · have hcancel : ∀ q : Req, ({ q with lastRun := now } : Req).cancel = q.cancel :=
            fun _ ↦ rfl
          have hid : ∀ q : Req, ({ q with lastRun := now } : Req).id = q.id := fun _ ↦ rfl
          exact htake.quiet (List.append_nil _).symm (by simp) rfl (State.modifyReq_obj hcancel)
            (State.modifyReq_obj hid) fun _ _ hget ↦ hget
  | call =>
      obtain ⟨now, before, i, r, act, action, actions, slots, -, rfl⟩ := next_call hnext
      exact hm.quiet (List.append_nil _).symm (by simp) rfl (fun _ ↦ rfl) (fun _ ↦ rfl)
        fun _ _ hget ↦ hget
  | finish =>
      obtain ⟨now, before, i, r, act, slots, -, rfl⟩ := next_finish hnext
      exact marked_finished hm now i r

/-- A request with actions left to call is not cancelled. -/
def Silent (c : Config) : Prop :=
  ∀ now before i r act action actions slots,
    c.control = .running now before i r act (action :: actions) slots →
    .cancelled r ∉ c.timer.trace

theorem silent_next (hc : c.Orderly) (hm : Marked c.timer) (hsilent : c.Silent) {m : Move}
    (hmild : c.Undisturbed m) (hnext : c.next env m = some c') : c'.Silent := by
  intro now before i r act action actions slots heq hmem
  cases m with
  | op o =>
      obtain ⟨-, rfl⟩ := next_op hnext
      have hold := hsilent _ _ _ _ _ _ _ _ heq
      obtain ⟨id, rfl, hget⟩ := (hc.sound.cancelled_of_perform hmem).resolve_left hold
      simp only [Undisturbed, show c.control = _ from heq] at hmild
      exact hmild hget
  | execute =>
      obtain ⟨-, rfl⟩ := next_execute hnext
      cases heq
  | poll =>
      rcases next_poll hnext with ⟨now, -, rfl⟩ | ⟨now, i, slots, -, rfl | ⟨sl, -, -, rfl⟩⟩ <;>
        cases heq
  | pick =>
      obtain ⟨now, before, i, slots, -, ⟨rfl, -⟩ | ⟨x, hx, -, ⟨-, rfl⟩ | ⟨hcancel, rfl⟩⟩⟩ :=
        next_pick hnext
      · cases heq
      · cases heq
      · simp only [Control.running.injEq] at heq
        obtain ⟨-, -, -, hxr, -⟩ := heq
        rw [← hxr] at hmem
        have hlt := hc.sound.lt_of_mem hx
        have hold : .cancelled x ∈ c.timer.trace := by
          simpa [State.modifyReq, State.take, State.record, State.pop] using hmem
        rw [(hm.flag x hlt).mpr hold] at hcancel
        cases hcancel
  | call =>
      obtain ⟨now, before, i, r, act, action, actions, slots, hrun, rfl⟩ := next_call hnext
      cases heq
      exact hsilent _ _ _ _ _ _ _ _ hrun hmem
  | finish =>
      obtain ⟨now, before, i, r, act, slots, -, rfl⟩ := next_finish hnext
      cases heq

end Config

/-- In a run in which no action of a request disturbs the loop over them:
no action of a cancelled request is called; a cancelled id is known again, and can
be cancelled again, only once a later `set` has given it to another request; and
no `set`, `once` or `repeat` gives the id of a request that is in a queue. -/
theorem cancelled_silent (env : Env) (c : Config)
    (h : Reaches (Config.next env) Config.Undisturbed .initial c) :
    (∀ c' r, c.next env .call = some c' → c.control.held = some r →
      .cancelled r ∉ c.timer.trace) ∧
    (∀ pre r post, c.timer.trace = pre ++ .cancelled r :: post →
      c.timer.has (c.timer.obj r).id = true ∨ (c.timer.cancel (c.timer.obj r).id).1 = true →
      ∃ r' now after interval, .created r' now after interval ∈ post ∧
        (c.timer.obj r').id = (c.timer.obj r).id) ∧
    ∀ interval duration repeats after action id,
      (c.timer.set env interval duration repeats after).1 = .ok id ∨
        (c.timer.once env after action).1 = .ok id ∨
        (c.timer.repeats env interval action).1 = .ok id →
      ∀ i, ∀ r ∈ c.timer.queue i, (c.timer.obj r).id ≠ id := by
  obtain ⟨hc, hm, hsilent⟩ : c.Orderly ∧ Marked c.timer ∧ c.Silent := by
    refine @Reaches.invariant _ _ _ _
      (fun c : Config ↦ c.Orderly ∧ Marked c.timer ∧ c.Silent) _ _ h ?_ ?_
    · refine ⟨Config.orderly_initial, ⟨?_, ?_, ?_⟩, ?_⟩
      · intro r hr
        cases hr
      · intro r hr
        exact absurd hr (Nat.not_lt_zero r)
      · intro pre r post heq
        have hlen := congrArg List.length heq
        simp [Config.initial, Timer.initial] at hlen
      · intro _ _ _ _ _ _ _ _ heq
        cases heq
    · rintro c m c' ⟨hc, hm, hsilent⟩ hmild hnext
      exact ⟨hc.next hnext, Config.marked_next hc hm hnext,
        Config.silent_next hc hm hsilent hmild hnext⟩
  refine ⟨?_, ?_, ?_⟩
  · intro c' r hcall hheld
    obtain ⟨now, before, i, x, act, action, actions, slots, hrun, -⟩ := Config.next_call hcall
    rw [hrun] at hheld
    cases hheld
    exact hsilent _ _ _ _ _ _ _ _ hrun
  · intro pre r post heq hagain
    rw [State.cancel_fst, or_self, State.has] at hagain
    obtain ⟨r', hget⟩ := Option.isSome_iff_exists.mp hagain
    obtain ⟨now, after, interval, hmem⟩ := hm.reissued pre r post heq r' hget
    exact ⟨r', now, after, interval, hmem, (hc.sound.table _ r' hget).2.1⟩
  · intro interval duration repeats after action id hok i r hr
    have hlive : c.timer.Live r := .inr ⟨i, hr⟩
    rcases hok with hset | honce | hrepeats
    · exact hc.sound.fresh_id hset r hlive
    · exact hc.sound.fresh_id (State.once_eq_ok honce) r hlive
    · exact hc.sound.fresh_id (hc.sound.repeats_eq_ok hrepeats) r hlive

/-- With the second action of a request cancelling it. -/
theorem cancelled_silent_last : ∃ c : Config,
    (∃ r, .cancelled r ∈ c.timer.trace) ∧ c.control.isOpen = true ∧
    ∀ c' r, c.next tickingEnv .call = some c' → c.control.held = some r →
      .cancelled r ∉ c.timer.trace := by
  have hrun : ∃ c, Reaches (Config.next tickingEnv) Config.Undisturbed .initial c ∧
      (c.timer.trace.contains (.cancelled 0) && c.control.isOpen) = true :=
    exists_reaches_checked [.op (.set 10 0 true 0), .op (.add 1 7), .op (.add 1 8), .execute,
      .poll, .pick, .call, .call, .op (.cancel 1)]
      (fun c m ↦ match m with
        | .op (.cancel _) => match c.control with
          | .running _ _ _ _ _ (_ :: _) _ => false
          | _ => true
        | .op (.add _ _) => c.control.held.isNone
        | _ => true)
      (by
        intro c m hcheck
        cases m with
        | op o =>
            cases o with
            | cancel id =>
                dsimp only [Config.Undisturbed]
                split
                · rename_i hc
                  simp [hc] at hcheck
                · trivial
            | add id action =>
                intro r hr
                simp [hr] at hcheck
            | _ => trivial
        | _ => trivial)
      (by decide)
  obtain ⟨c, hreach, hlast⟩ := hrun
  rw [Bool.and_eq_true, List.contains_iff_mem] at hlast
  exact ⟨c, ⟨0, hlast.1⟩, hlast.2, (cancelled_silent tickingEnv c hreach).1⟩

/-- A request with two actions whose first cancels it: the second is called. -/
theorem not_cancelled_silent : ¬ ∀ (env : Env) (c : Config),
    Reaches (Config.next env) (fun _ _ ↦ True) .initial c →
    ∀ c' r, c.next env .call = some c' → c.control.held = some r →
      .cancelled r ∉ c.timer.trace := by
  intro h
  have hrun : ∃ c, Reaches (Config.next tickingEnv) (fun _ _ ↦ True) .initial c ∧
      (c.timer.trace.contains (.cancelled 0) && c.control.held == some 0 &&
        (c.next tickingEnv .call).isSome) = true :=
    exists_reaches [.op (.set 10 0 true 0), .op (.add 1 7), .op (.add 1 8), .execute, .poll,
      .pick, .call, .op (.cancel 1)] (fun _ _ _ ↦ trivial) (by decide)
  obtain ⟨c, hreach, hlast⟩ := hrun
  rw [Bool.and_eq_true, Bool.and_eq_true, List.contains_iff_mem, beq_iff_eq] at hlast
  obtain ⟨⟨hmem, hheld⟩, hnext⟩ := hlast
  obtain ⟨c', hcall⟩ := Option.isSome_iff_exists.mp hnext
  exact h tickingEnv c hreach c' 0 hcall hheld hmem

end WiseKernel.Core.Timer
