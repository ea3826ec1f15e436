import WiseKernel.Core.TimerFires

/-!
# The timer step by step

`execute` cut at the points where the application has the control: the loops of
`execute`, `update_slot` and `req::run` with what they have left to do as a
state.  In such a run the calls of a callback are decided as they are made, so
whatever holds in every state of every run holds whatever the callbacks do.
-/

namespace WiseKernel.Core.Timer

open WiseKernel.Lib

/-! ## What the application does -/

/-- The arguments with which an operation calls `set`. -/
def Op.request : Op → Option (ℕ × ℕ × Bool × ℕ)
  | .set interval duration again after => some (interval, duration, again, after)
  | .once after _ => some (after, 0, false, 0)
  | .repeats interval _ => some (interval, 0, true, 0)
  | .add _ _ => none
  | .cancel _ => none

/-- The request that `set` makes, with its readings of the clock. -/
def State.newReq (env : Env) (s : State) (id : ℕ) (p : ℕ × ℕ × Bool × ℕ) : Req :=
  Req.make id p.1 p.2.1 p.2.2.2 p.2.2.1 (env.tick s.reads) (env.tick (s.reads + 1))

section

variable {env : Env} {s s' : State} {i r id : ℕ} {p : ℕ × ℕ × Bool × ℕ}

theorem Sound.opens {n : ℕ} (hs : Sound s) (h : s.Opens n i s') : Sound s' := hs.of_same h.same

theorem Sound.newReq (hs : Sound s) (h : Creates env s i id (s.newReq env id p) s') : Sound s' :=
  hs.creates h rfl rfl

theorem Sound.add {action : ℕ} (hs : Sound s) (h : s.reqs.get? id = some r) :
    Sound (s.add id action).2 := hs.of_same (same_add h)

theorem Sound.cancel (hs : Sound s) (h : s.reqs.get? id = some r) : Sound (s.cancel id).2 :=
  hs.of_same (hs.same_cancel h)

/-- What is kept by each of the things an operation may do is kept by the
operation. -/
theorem Sound.perform_induction {inv : State → Prop} {op : Op} (hs : Sound s) (h : inv s)
    (hopens : ∀ s' n i, State.Opens s n i s' → inv s')
    (hcreates : ∀ s' i id p, op.request = some p →
      Creates env s i id (s.newReq env id p) s' → inv s')
    (hadd : ∀ s id action r, Sound s → inv s → s.reqs.get? id = some r → inv (s.add id action).2)
    (hcancel : ∀ id r, op = .cancel id → s.reqs.get? id = some r → inv (s.cancel id).2) :
    Sound (s.perform env op) ∧ inv (s.perform env op) := by
  have hset (interval duration : ℕ) (repeats : Bool) (after : ℕ)
      (hop : op.request = some (interval, duration, repeats, after)) :
      Sound (s.set env interval duration repeats after).2 ∧
        inv (s.set env interval duration repeats after).2 := by
    rcases hs.set_cases interval duration repeats after with
      ⟨e, n, i, s₁, heq, hs₁⟩ | ⟨id, i, s₁, heq, hs₁⟩ <;> rw [heq]
    · exact ⟨hs.opens hs₁, hopens s₁ n i hs₁⟩
    · have hs₁ : Creates env s i id (s.newReq env id (interval, duration, repeats, after)) s₁ := hs₁
      exact ⟨hs.newReq hs₁, hcreates s₁ i id _ hop hs₁⟩
  have hadded (s : State) (id action : ℕ) (hs : Sound s) (h : inv s) :
      Sound (s.add id action).2 ∧ inv (s.add id action).2 := by
    cases hget : s.reqs.get? id with
    | none =>
        rw [State.add, hget]
        exact ⟨hs, h⟩
    | some r => exact ⟨hs.add hget, hadd s id action r hs h hget⟩
  cases op with
  | set interval duration repeats after => exact hset interval duration repeats after rfl
  | once after action =>
      have hboth := hset after 0 false 0 rfl
      rw [State.perform, State.once]
      split <;> rename_i heq <;> rw [heq] at hboth
      · exact hboth
      · exact hadded _ _ action hboth.1 hboth.2
  | repeats interval action =>
      have hboth := hset interval 0 true 0 rfl
      rw [State.perform, State.repeats]
      split <;> rename_i heq <;> rw [heq] at hboth
      · exact hboth
      · exact hadded _ _ action hboth.1 hboth.2
  | add id action => exact hadded s id action hs h
  | cancel id =>
      rw [State.perform]
      cases hget : s.reqs.get? id with
      | none =>
          rw [State.cancel, hget]
          exact ⟨hs, h⟩
      | some r => exact ⟨hs.cancel hget, hcancel id r rfl hget⟩

theorem Sound.perform (hs : Sound s) (op : Op) : Sound (s.perform env op) :=
  (@perform_induction env s (fun _ ↦ True) op hs trivial (fun _ _ _ _ ↦ trivial)
    (fun _ _ _ _ _ _ ↦ trivial) (fun _ _ _ _ _ _ _ ↦ trivial) fun _ _ _ _ ↦ trivial).1

/-- What every step leaves alone: requests keep their ids and their ends, and
none that is off the table comes back. -/
structure Grows (s s' : State) : Prop where
  made_le : s.made ≤ s'.made
  reads_le : s.reads ≤ s'.reads
  fixed : ∀ r < s.made, (s'.obj r).fixed = (s.obj r).fixed
  table : ∀ id, ∀ r < s.made, s'.reqs.get? id = some r → s.reqs.get? id = some r

/-- What an operation leaves alone. -/
structure Frame (s s' : State) : Prop extends Grows s s' where
  held : s'.held = s.held
  length_le : s.slots.length ≤ s'.slots.length

theorem Grows.refl : Grows s s :=
  ⟨Nat.le_refl _, Nat.le_refl _, fun _ _ ↦ rfl, fun _ _ _ hget ↦ hget⟩

theorem Grows.trans {s'' : State} (h : Grows s s') (h' : Grows s' s'') : Grows s s'' where
  made_le := Nat.le_trans h.made_le h'.made_le
  reads_le := Nat.le_trans h.reads_le h'.reads_le
  fixed r hr := (h'.fixed r (Nat.lt_of_lt_of_le hr h.made_le)).trans (h.fixed r hr)
  table id r hr hget := h.table id r hr (h'.table id r (Nat.lt_of_lt_of_le hr h.made_le) hget)

theorem Grows.of_same (h : Same s s') : Grows s s' :=
  ⟨h.made.ge, h.reads, fun r _ ↦ h.fixed r, fun id r _ hget ↦ (h.reqs id r hget).1⟩

theorem Grows.of_creates (h : Creates env s i id (s.newReq env id p) s') : Grows s s' where
  made_le := by
    rw [h.made]
    exact Nat.le_succ _
  reads_le := by
    rw [h.reads]
    exact Nat.le_add_right _ _
  fixed r hr := by rw [h.obj_of_lt hr]
  table k r hr hget := by
    rw [h.reqs] at hget
    split_ifs at hget with hk
    · cases hget
      exact absurd hr (Nat.lt_irrefl _)
    · exact hget

theorem Sound.perform_frame (hs : Sound s) (op : Op) : Frame s (s.perform env op) := by
  refine (@perform_induction env s (Frame s) op hs ?_ ?_ ?_ ?_ ?_).2
  · exact ⟨.refl, rfl, Nat.le_refl _⟩
  · intro s' n i h
    exact ⟨.of_same h.same, h.same.held, h.length_le⟩
  · rintro s' i id p - h
    exact ⟨.of_creates h, h.held, h.length_le⟩
  · rintro s' id action r hs' ⟨hgrows, hheld, hlen⟩ hget
    have hsame : Same s' (s'.add id action).2 := same_add hget
    refine ⟨hgrows.trans (.of_same hsame), hsame.held.trans hheld, ?_⟩
    rw [State.add_eq hget]
    exact hlen
  · rintro id r - hget
    have hsame := hs.same_cancel hget
    refine ⟨.of_same hsame, hsame.held, ?_⟩
    rw [State.cancel_eq hget]
    exact Nat.le_refl _

end

/-! ## The machine -/

/-- Where the control is. -/
inductive Control
  /-- outside `execute` -/
  | idle
  /-- in the loop of `execute`, with the slots that are left -/
  | polling (now : ℕ) (slots : List ℕ)
  /-- in the loop of `update_slot` for the slot `i`, last polled at `before` -/
  | draining (now before i : ℕ) (slots : List ℕ)
  /-- in the loop of `req::run`: the action that is being called, if any, and
  the actions that are left -/
  | running (now before i r : ℕ) (act : Option ℕ) (actions slots : List ℕ)
  deriving DecidableEq, Repr

namespace Control

/-- Whether the application has the control. -/
def isOpen : Control → Bool
  | .idle => true
  | .running _ _ _ _ act _ _ => act.isSome
  | _ => false

/-- The request that `update_slot` has popped. -/
def held : Control → Option ℕ
  | .running _ _ _ r _ _ _ => some r
  | _ => none

end Control

structure Config where
  timer : State
  control : Control

inductive Move
  | op (o : Op)
  | execute
  | poll
  | pick
  | call
  | finish
  deriving DecidableEq, Repr

namespace Config

/-- The end of `req::run` and what `update_slot` does after it. -/
def finished (s : State) (now i r : ℕ) : State :=
  let s := s.modifyReq r fun q ↦ { q with runCount := q.runCount + 1 }
  if (s.obj r).repeats || now < (s.obj r).endRun then s.rearm now i r
  else (s.removeEndReq (s.obj r).id).letGo r

/-- A step; `none` where the control is elsewhere. -/
def next (env : Env) (c : Config) : Move → Option Config
  | .op o => if c.control.isOpen then some { c with timer := c.timer.perform env o } else none
  | .execute =>
      match c.control with
      | .idle =>
          some ⟨{ c.timer with reads := c.timer.reads + 1 },
            .polling (env.tick c.timer.reads) (List.range c.timer.slots.length)⟩
      | _ => none
  | .poll =>
      match c.control with
      | .polling _ [] => some { c with control := .idle }
      | .polling now (i :: slots) =>
          match c.timer.slots[i]? with
          | none => some { c with control := .polling now slots }
          | some sl =>
              if sl.Polled now then
                some ⟨c.timer.mark now i, .draining now sl.lastRun i slots⟩
              else some { c with control := .polling now slots }
      | _ => none
  | .pick =>
      match c.control with
      | .draining now before i slots =>
          match env.pick c.timer.trace.length (fun r ↦ (c.timer.obj r).nextRun)
            (c.timer.queue i) with
          | none => some { c with control := .polling now slots }
          | some r =>
              if (c.timer.obj r).nextRun ≤ now then
                let s := c.timer.take now i r
                if (s.obj r).cancel then some ⟨s.letGo r, .draining now before i slots⟩
                else
                  let s := s.modifyReq r fun q ↦ { q with lastRun := now }
                  some ⟨s, .running now before i r none (s.obj r).actions slots⟩
              else some { c with control := .polling now slots }
      | _ => none
  | .call =>
      match c.control with
      | .running now before i r _ (action :: actions) slots =>
          some ⟨{ c.timer with calls := c.timer.calls + 1 },
            .running now before i r (some action) actions slots⟩
      | _ => none
  | .finish =>
      match c.control with
      | .running now before i r _ [] slots =>
          some ⟨finished c.timer now i r, .draining now before i slots⟩
      | _ => none

def initial : Config := ⟨Timer.initial, .idle⟩

/-! ## What a step can do -/

variable {env : Env} {c c' : Config} {s : State} {control : Control}
  {now before i r : ℕ} {act : Option ℕ} {actions slots : List ℕ}

theorem next_op {o : Op} (h : c.next env (.op o) = some c') :
    c.control.isOpen = true ∧ c' = { c with timer := c.timer.perform env o } := by
  rw [next] at h
  split_ifs at h with hopen
  exact ⟨hopen, (Option.some.inj h).symm⟩

theorem next_execute (h : c.next env .execute = some c') :
    c.control = .idle ∧ c' = ⟨{ c.timer with reads := c.timer.reads + 1 },
      .polling (env.tick c.timer.reads) (List.range c.timer.slots.length)⟩ := by
  obtain ⟨s, control⟩ := c
  cases control <;> cases h
  exact ⟨rfl, rfl⟩

theorem next_poll (h : c.next env .poll = some c') :
    (∃ now, c.control = .polling now [] ∧ c' = { c with control := .idle }) ∨
    ∃ now i slots, c.control = .polling now (i :: slots) ∧
      (c' = { c with control := .polling now slots } ∨
        ∃ sl : Slot, c.timer.slots[i]? = some sl ∧ sl.Polled now ∧
          c' = ⟨c.timer.mark now i, .draining now sl.lastRun i slots⟩) := by
  obtain ⟨s, control⟩ := c
  cases control with
  | polling now slots =>
      cases slots with
      | nil =>
          cases h
          exact .inl ⟨now, rfl, rfl⟩
      | cons i slots =>
          refine .inr ⟨now, i, slots, rfl, ?_⟩
          simp only [next] at h
          split at h
          · exact .inl (Option.some.inj h).symm
          · rename_i sl hslot
            split_ifs at h with hpolled
            · exact .inr ⟨sl, hslot, hpolled, (Option.some.inj h).symm⟩
            · exact .inl (Option.some.inj h).symm
  | _ => cases h

theorem next_pick (h : c.next env .pick = some c') :
    ∃ now before i slots, c.control = .draining now before i slots ∧
      ((c' = { c with control := .polling now slots } ∧
          ∀ r ∈ c.timer.queue i, now < (c.timer.obj r).nextRun) ∨
        ∃ r ∈ c.timer.queue i, (c.timer.obj r).nextRun ≤ now ∧
          (((c.timer.obj r).cancel = true ∧
              c' = ⟨(c.timer.take now i r).letGo r, .draining now before i slots⟩) ∨
            ((c.timer.obj r).cancel = false ∧
              c' = ⟨(c.timer.take now i r).modifyReq r fun q ↦ { q with lastRun := now },
                .running now before i r none (c.timer.obj r).actions slots⟩))) := by
  obtain ⟨s, control⟩ := c
  cases control with
  | draining now before i slots =>
      refine ⟨now, before, i, slots, rfl, ?_⟩
      simp only [next] at h
      split at h
      · rename_i hpick
        refine .inl ⟨(Option.some.inj h).symm, ?_⟩
        rw [env.pick_none hpick]
        simp
      · rename_i r hpick
        split_ifs at h with hdue hcancel
        · exact .inr ⟨r, env.pick_mem hpick, hdue, .inl ⟨hcancel, (Option.some.inj h).symm⟩⟩
        · refine .inr ⟨r, env.pick_mem hpick, hdue, .inr ⟨Bool.eq_false_iff.mpr hcancel, ?_⟩⟩
          rw [← Option.some.inj h]
          simp [State.modifyReq, State.take, State.record, State.pop]
        · refine .inl ⟨(Option.some.inj h).symm, fun x hx ↦ ?_⟩
          exact Nat.lt_of_lt_of_le (Nat.not_le.mp hdue) (env.pick_le hpick x hx)
  | _ => cases h

theorem next_call (h : c.next env .call = some c') :
    ∃ now before i r act action actions slots,
      c.control = .running now before i r act (action :: actions) slots ∧
      c' = ⟨{ c.timer with calls := c.timer.calls + 1 },
        .running now before i r (some action) actions slots⟩ := by
  obtain ⟨s, control⟩ := c
  cases control with
  | running now before i r act actions slots =>
      cases actions with
      | nil => cases h
      | cons action actions =>
          cases h
          exact ⟨now, before, i, r, act, action, actions, slots, rfl, rfl⟩
  | _ => cases h

theorem next_finish (h : c.next env .finish = some c') :
    ∃ now before i r act slots, c.control = .running now before i r act [] slots ∧
      c' = ⟨finished c.timer now i r, .draining now before i slots⟩ := by
  obtain ⟨s, control⟩ := c
  cases control with
  | running now before i r act actions slots =>
      cases actions with
      | nil =>
          cases h
          exact ⟨now, before, i, r, act, slots, rfl, rfl⟩
      | cons action actions => cases h
  | _ => cases h

/-! ## The invariant of runs -/

/-- The timer is sound, and the control holds what the timer holds. -/
structure Orderly (c : Config) : Prop where
  sound : Sound c.timer
  held : c.timer.held = c.control.held
  slot : ∀ now before i r act actions slots,
    c.control = .running now before i r act actions slots → i < c.timer.slots.length

theorem orderly_initial : initial.Orderly := by
  refine ⟨sound_initial, rfl, ?_⟩
  rintro now before i r act actions slots heq
  cases heq

/-- A state that differs only in what the invariant does not look at. -/
theorem sound_quiet (hs : Sound s) {s' : State} (hslots : s'.slots = s.slots)
    (hheld : s'.held = s.held) (hmade : s'.made = s.made) (hseq : s'.seq = s.seq)
    (hreqs : s'.reqs = s.reqs) (hobj : s'.obj = s.obj) : Sound s' := by
  obtain ⟨slots, reqs, seq, made, obj, held, reads, calls, trace⟩ := s
  obtain ⟨slots', reqs', seq', made', obj', held', reads', calls', trace'⟩ := s'
  obtain rfl := hslots
  obtain rfl := hheld
  obtain rfl := hmade
  obtain rfl := hseq
  obtain rfl := hreqs
  obtain rfl := hobj
  exact ⟨hs.nodup, hs.apart, hs.held, hs.fresh, hs.ids, hs.pool, hs.table⟩

/-- `++run_count_` -/
theorem same_counted :
    Same s (s.modifyReq r fun q ↦ { q with runCount := q.runCount + 1 }) :=
  same_modifyReq (f := fun q ↦ { q with runCount := q.runCount + 1 })
    (fun _ ↦ rfl) (fun _ ↦ rfl) (fun _ ↦ rfl) (fun _ ↦ rfl) r

theorem sound_finished (hs : Sound s) (hheld : s.held = some r) (hi : i < s.slots.length) :
    Sound (finished s now i r) ∧ (finished s now i r).held = none := by
  have hcounted : Sound (s.modifyReq r fun q ↦ { q with runCount := q.runCount + 1 }) :=
    hs.of_same same_counted
  unfold finished
  dsimp only
  split_ifs
  · exact ⟨hcounted.rearm hheld hi, rfl⟩
  · exact ⟨hcounted.finish hheld, rfl⟩

theorem Orderly.next (h : c.Orderly) {m : Move} (hnext : c.next env m = some c') :
    c'.Orderly := by
  obtain ⟨hs, hheld, hslot⟩ := h
  cases m with
  | op o =>
      obtain ⟨-, rfl⟩ := next_op hnext
      have hframe : Frame c.timer (c.timer.perform env o) := hs.perform_frame o
      refine ⟨hs.perform o, hframe.held.trans hheld, ?_⟩
      intro now before i r act actions slots heq
      exact Nat.lt_of_lt_of_le (hslot now before i r act actions slots heq) hframe.length_le
  | execute =>
      obtain ⟨hidle, rfl⟩ := next_execute hnext
      rw [hidle] at hheld
      exact ⟨sound_quiet hs rfl rfl rfl rfl rfl rfl, hheld, fun _ _ _ _ _ _ _ heq ↦ nomatch heq⟩
  | poll =>
      rcases next_poll hnext with ⟨now, hc, rfl⟩ |
        ⟨now, i, slots, hc, rfl | ⟨sl, hsl, hpolled, rfl⟩⟩ <;> rw [hc] at hheld
      · exact ⟨hs, hheld, fun _ _ _ _ _ _ _ heq ↦ nomatch heq⟩
      · exact ⟨hs, hheld, fun _ _ _ _ _ _ _ heq ↦ nomatch heq⟩
      · exact ⟨hs.of_same same_mark, hheld, fun _ _ _ _ _ _ _ heq ↦ nomatch heq⟩
  | pick =>
      obtain ⟨now, before, i, slots, hc, ⟨rfl, -⟩ | ⟨r, hr, -, hturn⟩⟩ := next_pick hnext
      · rw [hc] at hheld
        exact ⟨hs, hheld, fun _ _ _ _ _ _ _ heq ↦ nomatch heq⟩
      · rw [hc] at hheld
        obtain ⟨htake, hlive, hmem⟩ :
            Sound (c.timer.take now i r) ∧ _ ∧ _ := hs.take hheld hr
        rcases hturn with ⟨hcancel, rfl⟩ | ⟨-, rfl⟩
        · refine ⟨htake.letGo rfl fun id hget ↦ ?_, rfl, fun _ _ _ _ _ _ _ heq ↦ nomatch heq⟩
          have hnot := (hs.table id r hget).2.2
          rw [hcancel] at hnot
          cases hnot
        · refine ⟨htake.of_same (same_modifyReq (f := fun q ↦ { q with lastRun := now })
            (fun _ ↦ rfl) (fun _ ↦ rfl) (fun _ ↦ rfl) (fun _ ↦ rfl) r), rfl, ?_⟩
          rintro now' before' i' r' act actions slots' heq
          cases heq
          have hlen : ((c.timer.take now i r).modifyReq r fun q ↦
              { q with lastRun := now }).slots.length = c.timer.slots.length :=
            List.length_modify ..
          rw [hlen]
          exact State.lt_of_mem_queue hr
  | call =>
      obtain ⟨now, before, i, r, act, action, actions, slots, hc, rfl⟩ := next_call hnext
      refine ⟨sound_quiet hs rfl rfl rfl rfl rfl rfl, ?_, ?_⟩
      · rw [hc] at hheld
        exact hheld
      · rintro now' before' i' r' act' actions' slots' heq
        cases heq
        exact hslot _ _ _ _ _ _ _ hc
  | finish =>
      obtain ⟨now, before, i, r, act, slots, hc, rfl⟩ := next_finish hnext
      have hi := hslot _ _ _ _ _ _ _ hc
      rw [hc] at hheld
      obtain ⟨hfinished, hnone⟩ :
          Sound (finished c.timer now i r) ∧ _ := sound_finished hs hheld hi
      exact ⟨hfinished, hnone, fun _ _ _ _ _ _ _ heq ↦ nomatch heq⟩

theorem grows_finished {s : State} : Grows s (finished s now i r) := by
  have hcounted : Grows s (s.modifyReq r fun q ↦ { q with runCount := q.runCount + 1 }) :=
    .of_same same_counted
  refine hcounted.trans ?_
  unfold finished
  set s₁ := s.modifyReq r fun q ↦ { q with runCount := q.runCount + 1 }
  dsimp only
  split_ifs
  · refine ⟨Nat.le_refl _, Nat.le_refl _, fun x _ ↦ ?_, fun _ _ _ hget ↦ hget⟩
    have hfixed : ∀ q : Req, ({ q with
        nextRun := wrap (now + q.interval), due := now + q.interval } : Req).fixed = q.fixed :=
      fun _ ↦ rfl
    exact State.modifyReq_obj hfixed x
  · exact ⟨Nat.le_refl _, Nat.le_refl _, fun _ _ ↦ rfl, fun k x _ hget ↦
      ((same_removeEndReq _).reqs k x hget).1⟩

theorem Orderly.grows (h : c.Orderly) {m : Move} (hnext : c.next env m = some c') :
    Grows c.timer c'.timer := by
  cases m with
  | op o =>
      obtain ⟨-, rfl⟩ := next_op hnext
      exact (h.sound.perform_frame o).toGrows
  | execute =>
      obtain ⟨-, rfl⟩ := next_execute hnext
      exact ⟨Nat.le_refl _, Nat.le_succ _, fun _ _ ↦ rfl, fun _ _ _ hget ↦ hget⟩
  | poll =>
      rcases next_poll hnext with ⟨now, -, rfl⟩ | ⟨now, i, slots, -, rfl | ⟨sl, -, -, rfl⟩⟩
      · exact .refl
      · exact .refl
      · exact .of_same same_mark
  | pick =>
      obtain ⟨now, before, i, slots, -, ⟨rfl, -⟩ | ⟨r, -, -, ⟨-, rfl⟩ | ⟨-, rfl⟩⟩⟩ :=
        next_pick hnext
      · exact .refl
      · exact ⟨Nat.le_refl _, Nat.le_refl _, fun _ _ ↦ rfl, fun _ _ _ hget ↦ hget⟩
      · have hfixed : ∀ q : Req, ({ q with lastRun := now } : Req).fixed = q.fixed := fun _ ↦ rfl
        exact ⟨Nat.le_refl _, Nat.le_refl _, fun x _ ↦ State.modifyReq_obj hfixed x,
          fun _ _ _ hget ↦ hget⟩
  | call =>
      obtain ⟨now, before, i, r, act, action, actions, slots, -, rfl⟩ := next_call hnext
      exact ⟨Nat.le_refl _, Nat.le_refl _, fun _ _ ↦ rfl, fun _ _ _ hget ↦ hget⟩
  | finish =>
      obtain ⟨now, before, i, r, act, slots, -, rfl⟩ := next_finish hnext
      exact grows_finished

/-! ## `execute` is such a run -/

section

variable {fuel : ℕ} {s' : State}

/-- The calls that a callback makes. -/
theorem reaches_ops (hopen : control.isOpen = true) (ops : List Op) (s : State) :
    Reaches (next env) (fun _ _ ↦ True) ⟨s, control⟩
      ⟨ops.foldl (fun s op ↦ s.perform env op) s, control⟩ := by
  induction ops generalizing s with
  | nil => exact .refl
  | cons op ops ih =>
      have hstep : next env ⟨s, control⟩ (.op op) = some ⟨s.perform env op, control⟩ := by
        simp only [next, hopen, if_true]
      exact .head trivial hstep (ih _)

theorem reaches_callbacks (id : ℕ) (actions : List ℕ) (s : State) (act : Option ℕ) :
    ∃ act', Reaches (next env) (fun _ _ ↦ True) ⟨s, .running now before i r act actions slots⟩
      ⟨actions.foldl (State.callback env id) s, .running now before i r act' [] slots⟩ := by
  induction actions generalizing s act with
  | nil => exact ⟨act, .refl⟩
  | cons action actions ih =>
      obtain ⟨act', hrest⟩ := ih (s.callback env id action) (some action)
      have hops := @reaches_ops env (.running now before i r (some action) actions slots) rfl
        (env.script s.calls action id) { s with calls := s.calls + 1 }
      exact ⟨act', .head (a := .call) trivial rfl (hops.trans hrest)⟩

theorem reaches_turn (hpick : env.pick s.trace.length (fun r ↦ (s.obj r).nextRun) (s.queue i) =
      some r) (hdue : (s.obj r).nextRun ≤ now) :
    Reaches (next env) (fun _ _ ↦ True) ⟨s, .draining now before i slots⟩
      ⟨s.turn env now i r, .draining now before i slots⟩ := by
  unfold State.turn
  dsimp only
  by_cases hcancel : ((s.take now i r).obj r).cancel = true
  · rw [if_pos hcancel]
    refine .head (a := .pick) trivial ?_ .refl
    simp only [next, hpick, if_pos hdue, if_pos hcancel]
  · rw [if_neg hcancel]
    set s₁ := (s.take now i r).modifyReq r fun q ↦ { q with lastRun := now } with hs₁
    have hstep : next env ⟨s, .draining now before i slots⟩ .pick =
        some ⟨s₁, .running now before i r none (s₁.obj r).actions slots⟩ := by
      simp only [next, hpick, if_pos hdue, if_neg hcancel, hs₁]
    obtain ⟨act, hcalls⟩ := @reaches_callbacks env now before i r slots (s₁.obj r).id
      (s₁.obj r).actions s₁ none
    exact .head trivial hstep (hcalls.trans (.head (a := .finish) trivial rfl .refl))

theorem reaches_drain (h : State.drain env now i fuel s = (s', true)) :
    Reaches (next env) (fun _ _ ↦ True) ⟨s, .draining now before i slots⟩
      ⟨s', .polling now slots⟩ := by
  induction fuel generalizing s with
  | zero => cases h
  | succ fuel ih =>
      unfold State.drain at h
      split at h
      · rename_i hpick
        cases h
        refine .head (a := .pick) trivial ?_ .refl
        simp only [next, hpick]
      · rename_i r hpick
        split_ifs at h with hdue
        · exact (reaches_turn hpick hdue).trans (ih h)
        · cases h
          refine .head (a := .pick) trivial ?_ .refl
          simp only [next, hpick, if_neg hdue]

theorem reaches_updateSlot (h : s.updateSlot env fuel now i = (s', true)) :
    Reaches (next env) (fun _ _ ↦ True) ⟨s, .polling now (i :: slots)⟩
      ⟨s', .polling now slots⟩ := by
  unfold State.updateSlot at h
  split at h
  · rename_i hslot
    cases h
    refine .head (a := .poll) trivial ?_ .refl
    simp only [next, hslot]
  · rename_i sl hslot
    split_ifs at h with hpolled
    · have hdrain : Reaches (next env) (fun _ _ ↦ True)
          ⟨s.mark now i, .draining now sl.lastRun i slots⟩ ⟨s', .polling now slots⟩ :=
        reaches_drain h
      refine .head (a := .poll) trivial ?_ hdrain
      simp only [next, hslot, if_pos hpolled]
    · cases h
      refine .head (a := .poll) trivial ?_ .refl
      simp only [next, hslot, if_neg hpolled]

theorem reaches_poll {is : List ℕ} (h : State.poll env fuel now is s = (s', true)) :
    Reaches (next env) (fun _ _ ↦ True) ⟨s, .polling now is⟩ ⟨s', .idle⟩ := by
  induction is generalizing s with
  | nil =>
      cases h
      exact .head (a := .poll) trivial rfl .refl
  | cons i is ih =>
      unfold State.poll at h
      split at h
      · rename_i s₁ hslot
        exact (reaches_updateSlot hslot).trans (ih h)
      · cases h

end

/-- A call of `execute` that returns is a run of the machine. -/
theorem reaches_execute {fuel : ℕ} {s' : State} (h : s.execute env fuel = (s', true)) :
    Reaches (next env) (fun _ _ ↦ True) ⟨s, .idle⟩ ⟨s', .idle⟩ :=
  .head (a := .execute) trivial rfl (reaches_poll h)

/-- Every history of calls is a run of the machine. -/
theorem reaches_of_calls {s' : State}
    (h : Reaches (step env) (fun _ _ ↦ True) s s') :
    Reaches (next env) (fun _ _ ↦ True) ⟨s, .idle⟩ ⟨s', .idle⟩ := by
  induction h with
  | refl => exact .refl
  | tail _ hlast ih =>
      obtain ⟨⟨fuel, c⟩, -, hstep⟩ := hlast
      refine ih.trans ?_
      unfold step at hstep
      split at hstep
      · rename_i s₂ hcall
        cases hstep
        cases c with
        | op o =>
            cases hcall
            exact .head (a := .op o) trivial rfl .refl
        | execute => exact reaches_execute hcall
      · cases hstep

end Config

end WiseKernel.Core.Timer
