import WiseKernel.Core.Timer

/-!
# The invariant of the timer

Every request the timer knows sits in the queue of one slot, or is the one that
`update_slot` holds.
-/

namespace WiseKernel.Core.Timer

open WiseKernel.Lib

/-- The turns among the events. -/
def turnsOf (l : List Event) : List Turn :=
  l.filterMap fun
    | .turn t => some t
    | _ => none

@[simp] theorem turnsOf_nil : turnsOf [] = [] := rfl

@[simp] theorem turnsOf_append (l l' : List Event) :
    turnsOf (l ++ l') = turnsOf l ++ turnsOf l' := List.filterMap_append

@[simp] theorem turnsOf_turn (t : Turn) : turnsOf [.turn t] = [t] := rfl

@[simp] theorem turnsOf_created (r now after interval : ℕ) :
    turnsOf [.created r now after interval] = [] := rfl

@[simp] theorem turnsOf_added (r : ℕ) (held : Option ℕ) : turnsOf [.added r held] = [] := rfl

@[simp] theorem turnsOf_cancelled (r : ℕ) : turnsOf [.cancelled r] = [] := rfl

@[simp] theorem turnsOf_rearmed (r now interval : ℕ) :
    turnsOf [.rearmed r now interval] = [] := rfl

theorem mem_turnsOf {l : List Event} {t : Turn} : t ∈ turnsOf l ↔ .turn t ∈ l := by
  rw [turnsOf, List.mem_filterMap]
  constructor
  · rintro ⟨e, he, heq⟩
    cases e with
    | turn t' =>
        cases heq
        exact he
    | _ => cases heq
  · intro h
    exact ⟨_, h, rfl⟩

/-- How often a request has run. -/
def runs (l : List Event) (r : ℕ) : ℕ := (turnsOf l).countP fun t ↦ t.ref = r ∧ t.ran

/-- The fields of a request that are set once. -/
def Req.fixed (q : Req) : ℕ × ℕ × ℕ × ℕ × Bool × ℕ :=
  (q.id, q.interval, q.duration, q.after, q.repeats, q.endRun)

/-- The request of a call of `once`. -/
def Req.IsOnce (q : Req) : Prop := q.repeats = false ∧ q.duration = 0 ∧ q.after = 0

section

variable {q q' : Req}

theorem Req.id_eq (h : q'.fixed = q.fixed) : q'.id = q.id := congrArg Prod.fst h

theorem Req.interval_eq (h : q'.fixed = q.fixed) : q'.interval = q.interval :=
  congrArg (fun p ↦ p.2.1) h

theorem Req.duration_eq (h : q'.fixed = q.fixed) : q'.duration = q.duration :=
  congrArg (fun p ↦ p.2.2.1) h

theorem Req.after_eq (h : q'.fixed = q.fixed) : q'.after = q.after :=
  congrArg (fun p ↦ p.2.2.2.1) h

theorem Req.repeats_eq (h : q'.fixed = q.fixed) : q'.repeats = q.repeats :=
  congrArg (fun p ↦ p.2.2.2.2.1) h

theorem Req.endRun_eq (h : q'.fixed = q.fixed) : q'.endRun = q.endRun :=
  congrArg (fun p ↦ p.2.2.2.2.2) h

theorem Req.isOnce_iff (h : q'.fixed = q.fixed) : q'.IsOnce ↔ q.IsOnce := by
  simp only [Req.fixed, Prod.mk.injEq] at h
  obtain ⟨-, -, hduration, hafter, hrepeats, -⟩ := h
  rw [Req.IsOnce, Req.IsOnce, hduration, hafter, hrepeats]

end

namespace State

variable {s s' : State} {i j r : ℕ}

/-- The polling interval of a slot. -/
def interval (s : State) (i : ℕ) : ℕ := (s.slots[i]?).elim 0 Slot.interval

/-- The request is in a queue or held. -/
def Live (s : State) (r : ℕ) : Prop := s.held = some r ∨ ∃ i, r ∈ s.queue i

theorem lt_of_mem_queue (h : r ∈ s.queue i) : i < s.slots.length := by
  by_contra hge
  rw [queue, List.getElem?_eq_none (Nat.le_of_not_lt hge)] at h
  cases h

theorem queue_push (h : i < s.slots.length) :
    (s.push i r).queue j = if j = i then s.queue i ++ [r] else s.queue j := by
  simp only [push, queue, List.getElem?_modify]
  split_ifs with hi hj hj
  · subst hi
    simp [List.getElem?_eq_getElem h]
  · exact absurd hi.symm hj
  · exact absurd hj.symm hi
  · simp

theorem queue_pop : (s.pop i r).queue j = if j = i then (s.queue i).erase r else s.queue j := by
  simp only [pop, queue, List.getElem?_modify]
  split_ifs with hi hj hj
  · subst hi
    cases s.slots[i]? <;> rfl
  · exact absurd hi.symm hj
  · exact absurd hj.symm hi
  · simp

theorem interval_push : (s.push i r).interval j = s.interval j := by
  simp only [push, interval, List.getElem?_modify]
  cases s.slots[j]? <;> split_ifs <;> rfl

theorem interval_pop : (s.pop i r).interval j = s.interval j := by
  simp only [pop, interval, List.getElem?_modify]
  cases s.slots[j]? <;> split_ifs <;> rfl

/-- What the head of `update_slot` reads of a slot. -/
def head (s : State) (i : ℕ) : Option (ℕ × ℕ) :=
  (s.slots[i]?).map fun sl ↦ (sl.interval, sl.lastRun)

theorem head_push : (s.push i r).head j = s.head j := by
  simp only [push, head, List.getElem?_modify]
  cases s.slots[j]? <;> split_ifs <;> rfl

theorem head_pop : (s.pop i r).head j = s.head j := by
  simp only [pop, head, List.getElem?_modify]
  cases s.slots[j]? <;> split_ifs <;> rfl

/-- When the slot was polled last; zero for a slot that is not there. -/
def lastPoll (s : State) (i : ℕ) : ℕ := (s.slots[i]?).elim 0 Slot.lastRun

theorem lastPoll_push : (s.push i r).lastPoll j = s.lastPoll j := by
  simp only [push, lastPoll, List.getElem?_modify]
  cases s.slots[j]? <;> split_ifs <;> rfl

theorem lastPoll_pop : (s.pop i r).lastPoll j = s.lastPoll j := by
  simp only [pop, lastPoll, List.getElem?_modify]
  cases s.slots[j]? <;> split_ifs <;> rfl

theorem interval_eq_of_head (h : s'.head i = s.head i) : s'.interval i = s.interval i := by
  have hmap : ∀ s : State, s.interval i = (s.head i).elim 0 Prod.fst := by
    intro s
    rw [interval, head]
    cases s.slots[i]? <;> rfl
  rw [hmap, hmap, h]

/-- `create_slot` finds the slot or appends it. -/
structure Opens (s : State) (n i : ℕ) (s' : State) : Prop where
  eq : s' = { s with slots := s'.slots }
  lt : i < s'.slots.length
  length_le : s.slots.length ≤ s'.slots.length
  found : s'.interval i = n
  queue : ∀ j, s'.queue j = s.queue j
  head : ∀ j < s.slots.length, s'.head j = s.head j
  lastPoll : ∀ j, s'.lastPoll j = s.lastPoll j

theorem opens_createSlot (s : State) (n : ℕ) :
    Opens s n (s.createSlot n).1 (s.createSlot n).2 := by
  unfold createSlot
  cases hfind : s.slots.findIdx? fun sl ↦ sl.interval = n with
  | some i =>
      obtain ⟨hlt, hi, -⟩ := List.findIdx?_eq_some_iff_getElem.mp hfind
      refine ⟨rfl, hlt, Nat.le_refl _, ?_, fun _ ↦ rfl, fun _ _ ↦ rfl, fun _ ↦ rfl⟩
      simpa [interval, List.getElem?_eq_getElem hlt] using hi
  | none =>
      refine ⟨rfl, by simp, by simp, by simp [interval], fun j ↦ ?_, fun j hj ↦ ?_, fun j ↦ ?_⟩
      · simp only [queue]
        rcases Nat.lt_trichotomy j s.slots.length with hj | rfl | hj
        · rw [List.getElem?_append_left hj]
        · simp
        · rw [List.getElem?_eq_none (by simp; omega), List.getElem?_eq_none (by omega)]
      · simp only [head]
        rw [List.getElem?_append_left hj]
      · simp only [lastPoll]
        rcases Nat.lt_trichotomy j s.slots.length with hj | rfl | hj
        · rw [List.getElem?_append_left hj]
        · simp
        · rw [List.getElem?_eq_none (by simp; omega), List.getElem?_eq_none (by omega)]

end State

/-- Each request is in one place, and no two of them have one id. -/
structure Sound (s : State) : Prop where
  nodup : ∀ i, (s.queue i).Nodup
  apart : ∀ i j r, r ∈ s.queue i → r ∈ s.queue j → i = j
  held : ∀ r i, s.held = some r → r ∉ s.queue i
  fresh : ∀ r, s.Live r → r < s.made
  ids : ∀ r r', s.Live r → s.Live r' → (s.obj r).id = (s.obj r').id → r = r'
  pool : s.seq.Pool fun n ↦ ∃ r, s.Live r ∧ (s.obj r).id = n
  table : ∀ id r, s.reqs.get? id = some r →
    s.Live r ∧ (s.obj r).id = id ∧ (s.obj r).cancel = false

/-- The invariant, as long as no tick wraps. -/
structure Good (env : Env) (s : State) : Prop extends Sound s where
  slotBound : ∀ i, ∀ r ∈ s.queue i, s.interval i ≤ max minInterval ((s.obj r).interval / 2)
  long : ∀ r, s.Live r → minInterval ≤ (s.obj r).interval
  unwrapped : ∀ i, ∀ r ∈ s.queue i, (s.obj r).nextRun = (s.obj r).due
  ended : ∀ r, s.Live r → (s.obj r).IsOnce → (s.obj r).endRun ≤ env.tick s.reads
  ran : ∀ t ∈ turnsOf s.trace, t.ref < s.made
  waiting : ∀ i, ∀ r ∈ s.queue i, (s.obj r).IsOnce → runs s.trace r = 0
  once : ∀ r < s.made, (s.obj r).IsOnce → runs s.trace r ≤ 1

/-- A step that only touches what the invariant does not look at; entries of
`reqs_` may go. -/
structure Same (s s' : State) : Prop where
  queue : ∀ i, s'.queue i = s.queue i
  interval : ∀ i < s.slots.length, s'.interval i = s.interval i
  held : s'.held = s.held
  made : s'.made = s.made
  seq : s'.seq = s.seq
  reqs : ∀ id r, s'.reqs.get? id = some r →
    s.reqs.get? id = some r ∧ ((s.obj r).cancel = false → (s'.obj r).cancel = false)
  reads : s.reads ≤ s'.reads
  turns : turnsOf s'.trace = turnsOf s.trace
  fixed : ∀ r, (s'.obj r).fixed = (s.obj r).fixed
  nextRun : ∀ r, (s'.obj r).nextRun = (s.obj r).nextRun
  due : ∀ r, (s'.obj r).due = (s.obj r).due

section

variable {env : Env} {s s' : State} {i j r : ℕ}

theorem Same.live (h : Same s s') : s'.Live r ↔ s.Live r := by
  simp only [State.Live, h.held, h.queue]

theorem Same.runs (h : Same s s') : runs s'.trace r = runs s.trace r := by
  rw [Timer.runs, Timer.runs, h.turns]

theorem Sound.of_same (hg : Sound s) (h : Same s s') : Sound s' where
  nodup i := by
    rw [h.queue]
    exact hg.nodup i
  apart i j r := by
    rw [h.queue, h.queue]
    exact hg.apart i j r
  held r i := by
    rw [h.held, h.queue]
    exact hg.held r i
  fresh r := by
    rw [h.live, h.made]
    exact hg.fresh r
  ids r r' := by
    rw [h.live, h.live, Req.id_eq (h.fixed r), Req.id_eq (h.fixed r')]
    exact hg.ids r r'
  pool := by
    rw [h.seq]
    apply hg.pool.mono
    rintro n ⟨r, hlive, hid⟩
    exact ⟨r, h.live.mp hlive, (Req.id_eq (h.fixed r)).symm.trans hid⟩
  table id r hget := by
    obtain ⟨hold, hcancel⟩ := h.reqs id r hget
    obtain ⟨hlive, hid, hnot⟩ := hg.table id r hold
    rw [h.live, Req.id_eq (h.fixed r)]
    exact ⟨hlive, hid, hcancel hnot⟩

theorem Good.of_same (hg : Good env s) (h : Same s s') : Good env s' where
  toSound := hg.toSound.of_same h
  slotBound i r hr := by
    rw [h.queue] at hr
    rw [h.interval i (State.lt_of_mem_queue hr), Req.interval_eq (h.fixed r)]
    exact hg.slotBound i r hr
  long r hr := by
    rw [Req.interval_eq (h.fixed r)]
    exact hg.long r (h.live.mp hr)
  unwrapped i r hr := by
    rw [h.queue] at hr
    rw [h.nextRun, h.due]
    exact hg.unwrapped i r hr
  ended r hr honce := by
    rw [Req.endRun_eq (h.fixed r)]
    have hold := hg.ended r (h.live.mp hr) ((Req.isOnce_iff (h.fixed r)).mp honce)
    exact Nat.le_trans hold (env.tick_mono h.reads)
  ran t := by
    rw [h.turns, h.made]
    exact hg.ran t
  waiting i r hr honce := by
    rw [h.queue] at hr
    rw [h.runs]
    exact hg.waiting i r hr ((Req.isOnce_iff (h.fixed r)).mp honce)
  once r hr honce := by
    rw [h.made] at hr
    rw [h.runs]
    exact hg.once r hr ((Req.isOnce_iff (h.fixed r)).mp honce)

/-- `set` has put a new request into the slot `i`. -/
structure Creates (env : Env) (s : State) (i id : ℕ) (q : Req) (s' : State) : Prop where
  next : s.seq.next = .ok (id, s'.seq)
  lt : i < s'.slots.length
  length_le : s.slots.length ≤ s'.slots.length
  queue : ∀ j, s'.queue j = if j = i then s.queue i ++ [s.made] else s.queue j
  found : s'.interval i = slotInterval q.interval
  head : ∀ j < s.slots.length, s'.head j = s.head j
  lastPoll : ∀ j, s'.lastPoll j = s.lastPoll j
  made : s'.made = s.made + 1
  obj : s'.obj = Function.update s.obj s.made q
  held : s'.held = s.held
  reads : s'.reads = s.reads + 2
  reqs : ∀ k, s'.reqs.get? k = if k = id then some s.made else s.reqs.get? k
  trace : s'.trace = s.trace ++ [.created s.made (env.tick s.reads) q.after q.interval]

theorem State.Opens.same {n : ℕ} (h : s.Opens n i s') : Same s s' where
  queue := h.queue
  interval j hj := State.interval_eq_of_head (h.head j hj)
  held := by rw [h.eq]
  made := by rw [h.eq]
  seq := by rw [h.eq]
  reqs k r hget := by
    rw [h.eq] at hget
    refine ⟨hget, fun hnot ↦ ?_⟩
    rw [h.eq]
    exact hnot
  reads := by rw [h.eq]
  turns := by rw [h.eq]
  fixed r := by rw [h.eq]
  nextRun r := by rw [h.eq]
  due r := by rw [h.eq]

theorem clamp_eq (interval : ℕ) :
    (if interval < minInterval then minInterval else interval) = max minInterval interval := by
  split_ifs <;> omega

theorem Creates.enqueue {n id : ℕ} {q : Req} {seq : Sequence} {s₀ : State} (h : s.Opens n i s₀)
    (hnone : s.reqs.get? id = none) (hnext : s.seq.next = .ok (id, seq)) (hid : q.id = id)
    (hn : n = slotInterval q.interval) :
    Creates env s i id q (s₀.enqueue i q seq (env.tick s.reads)) := by
  have hs₀ := h.eq
  have hreqs : s₀.reqs = s.reqs := by rw [hs₀]
  have hmade : s₀.made = s.made := by rw [hs₀]
  have htarget : ((s₀.reqs.emplace q.id s₀.made).get? q.id).getD s₀.made = s.made := by
    simp [Table.get?_emplace, hid, hreqs, hnone, hmade]
  unfold State.enqueue
  simp only [htarget]
  exact {
    next := hnext
    lt := by simpa [State.push, State.record] using h.lt
    length_le := by simpa [State.push, State.record] using h.length_le
    queue := fun j ↦ by
      refine (State.queue_push h.lt).trans ?_
      rw [← h.queue, ← h.queue]
    found := by
      refine State.interval_push.trans ?_
      rw [← hn]
      exact h.found
    head := fun j hj ↦ State.head_push.trans (h.head j hj)
    lastPoll := fun j ↦ State.lastPoll_push.trans (h.lastPoll j)
    made := congrArg (· + 1) hmade
    obj := by
      change Function.update s₀.obj s₀.made q = _
      rw [hmade, hs₀]
    held := by
      change s₀.held = _
      rw [hs₀]
    reads := by
      change s₀.reads + 2 = _
      rw [hs₀]
    reqs := fun k ↦ by
      change (s₀.reqs.emplace q.id s₀.made).get? k = _
      rw [Table.get?_emplace, hid, hreqs, hnone, hmade]
      rfl
    trace := by
      change s₀.trace ++ _ = _
      rw [hmade, hs₀] }

/-- The id of a new request is not that of a live one, so `emplace` inserts it. -/
theorem Sound.set_cases (hg : Sound s) (interval duration : ℕ) (repeats : Bool) (after : ℕ) :
    (∃ e n i s₁, s.set env interval duration repeats after = (.error e, s₁) ∧ s.Opens n i s₁) ∨
    ∃ id i s₁, s.set env interval duration repeats after = (.ok id, s₁) ∧
      Creates env s i id (Req.make id interval duration after repeats (env.tick s.reads)
        (env.tick (s.reads + 1))) s₁ := by
  unfold State.set
  rw [clamp_eq]
  dsimp only
  have hopens := s.opens_createSlot (slotInterval (max minInterval interval))
  generalize s.createSlot (slotInterval (max minInterval interval)) = slt at hopens ⊢
  have hreads : slt.2.reads = s.reads := by rw [hopens.eq]
  have hseq : slt.2.seq = s.seq := by rw [hopens.eq]
  simp only [hreads, hseq]
  cases hnext : s.seq.next with
  | error e => exact .inl ⟨e, _, slt.1, slt.2, rfl, hopens⟩
  | ok p =>
      obtain ⟨id, seq⟩ := p
      have hnone : s.reqs.get? id = none := by
        cases hget : s.reqs.get? id with
        | none => rfl
        | some r =>
            obtain ⟨hlive, hid, -⟩ := hg.table id r hget
            exact absurd ⟨r, hlive, hid⟩ (hg.pool.next hnext).1
      refine .inr ⟨id, slt.1, _, rfl, ?_⟩
      have hclamp : max minInterval (max minInterval interval) = max minInterval interval := by
        omega
      have hmake : Req.make id (max minInterval interval) duration after repeats
          (env.tick s.reads) (env.tick (s.reads + 1)) = Req.make id interval duration after repeats
          (env.tick s.reads) (env.tick (s.reads + 1)) := by
        simp only [Req.make, hclamp]
      rw [hmake]
      exact .enqueue hopens hnone hnext rfl rfl

namespace Creates

variable {id : ℕ} {q : Req}

theorem mem_queue (h : Creates env s i id q s') :
    r ∈ s'.queue j ↔ r ∈ s.queue j ∨ j = i ∧ r = s.made := by
  rw [h.queue]
  split_ifs with hj
  · subst hj
    simp
  · simp [hj]

theorem live (h : Creates env s i id q s') : s'.Live r ↔ s.Live r ∨ r = s.made := by
  simp only [State.Live, h.held, h.mem_queue, exists_or, exists_eq_left, or_assoc]

theorem obj_made (h : Creates env s i id q s') : s'.obj s.made = q := by
  rw [h.obj]
  exact Function.update_self ..

theorem obj_of_lt (h : Creates env s i id q s') (hr : r < s.made) : s'.obj r = s.obj r := by
  rw [h.obj]
  exact Function.update_of_ne (Nat.ne_of_lt hr) ..

theorem runs (h : Creates env s i id q s') : runs s'.trace r = runs s.trace r := by
  simp [Timer.runs, h.trace]

end Creates

theorem Sound.lt_of_mem (hg : Sound s) (h : r ∈ s.queue i) : r < s.made :=
  hg.fresh r (.inr ⟨i, h⟩)

theorem Good.runs_made (hg : Good env s) : runs s.trace s.made = 0 := by
  rw [runs, List.countP_eq_zero]
  intro t ht
  simp [Nat.ne_of_lt (hg.ran t ht)]

/-- The requests after `set`: those of before, and the new one. -/
theorem Creates.live_cases {id : ℕ} {q : Req} (hg : Sound s) (h : Creates env s i id q s') :
    ∀ r, s'.Live r → (s.Live r ∧ s'.obj r = s.obj r) ∨ (r = s.made ∧ s'.obj r = q) := by
  intro r hr
  rcases h.live.mp hr with hold | rfl
  · exact .inl ⟨hold, h.obj_of_lt (hg.fresh r hold)⟩
  · exact .inr ⟨rfl, h.obj_made⟩

theorem Creates.queue_cases {id : ℕ} {q : Req} (hg : Sound s) (h : Creates env s i id q s') :
    ∀ j r, r ∈ s'.queue j →
      (r ∈ s.queue j ∧ s'.obj r = s.obj r) ∨ (j = i ∧ r = s.made ∧ s'.obj r = q) := by
  intro j r hr
  rcases h.mem_queue.mp hr with hold | ⟨rfl, rfl⟩
  · exact .inl ⟨hold, h.obj_of_lt (hg.lt_of_mem hold)⟩
  · exact .inr ⟨rfl, rfl, h.obj_made⟩

theorem Sound.creates {id : ℕ} {q : Req} (hg : Sound s) (h : Creates env s i id q s')
    (hid : q.id = id) (hcancel : q.cancel = false) : Sound s' := by
  obtain ⟨hunused, hpool⟩ := hg.pool.next h.next
  have hlive := h.live_cases hg
  have hqueue := h.queue_cases hg
  have hnew : ∀ j, s.made ∉ s.queue j := fun j hj ↦ Nat.lt_irrefl _ (hg.lt_of_mem hj)
  exact {
    nodup := fun j ↦ by
      rw [h.queue]
      split_ifs with hj
      · refine List.nodup_append.mpr ⟨hg.nodup i, by simp, ?_⟩
        rintro r hr r' hr' rfl
        rw [List.mem_singleton.mp hr'] at hr
        exact hnew i hr
      · exact hg.nodup j
    apart := fun j k r hj hk ↦ by
      rcases hqueue j r hj with ⟨hj, -⟩ | ⟨rfl, rfl, -⟩
      · rcases hqueue k r hk with ⟨hk, -⟩ | ⟨rfl, rfl, -⟩
        · exact hg.apart j k r hj hk
        · exact absurd hj (hnew j)
      · rcases hqueue k s.made hk with ⟨hk, -⟩ | ⟨rfl, -, -⟩
        · exact absurd hk (hnew k)
        · rfl
    held := fun r j hr hj ↦ by
      rw [h.held] at hr
      rcases hqueue j r hj with ⟨hj, -⟩ | ⟨-, rfl, -⟩
      · exact hg.held r j hr hj
      · exact Nat.lt_irrefl _ (hg.fresh _ (.inl hr))
    fresh := fun r hr ↦ by
      rw [h.made]
      rcases hlive r hr with ⟨hr, -⟩ | ⟨rfl, -⟩
      · exact Nat.lt_succ_of_lt (hg.fresh r hr)
      · exact Nat.lt_succ_self _
    ids := fun r r' hr hr' heq ↦ by
      rcases hlive r hr with ⟨hr, hobj⟩ | ⟨hr, hobj⟩ <;>
        rcases hlive r' hr' with ⟨hr', hobj'⟩ | ⟨hr', hobj'⟩ <;> rw [hobj, hobj'] at heq
      · exact hg.ids r r' hr hr' heq
      · exact absurd ⟨r, hr, heq.trans hid⟩ hunused
      · exact absurd ⟨r', hr', heq.symm.trans hid⟩ hunused
      · exact hr.trans hr'.symm
    pool := by
      apply hpool.mono
      rintro n ⟨r, hr, hn⟩
      rcases hlive r hr with ⟨hr, hobj⟩ | ⟨rfl, hobj⟩ <;> rw [hobj] at hn
      · exact .inr ⟨r, hr, hn⟩
      · exact .inl (hn.symm.trans hid)
    table := fun k r hget ↦ by
      rw [h.reqs] at hget
      split_ifs at hget with hk
      · cases hget
        rw [h.obj_made]
        exact ⟨h.live.mpr (.inr rfl), hid.trans hk.symm, hcancel⟩
      · obtain ⟨hr, hold⟩ := hg.table k r hget
        rw [h.obj_of_lt (hg.fresh r hr)]
        exact ⟨h.live.mpr (.inl hr), hold⟩ }

theorem Good.creates {id : ℕ} {q : Req} (hg : Good env s) (h : Creates env s i id q s')
    (hid : q.id = id) (hcancel : q.cancel = false) (hlong : minInterval ≤ q.interval)
    (hdue : q.nextRun = q.due) (hend : q.IsOnce → q.endRun ≤ env.tick s'.reads) :
    Good env s' := by
  have hlive := h.live_cases hg.toSound
  have hqueue := h.queue_cases hg.toSound
  exact {
    toSound := hg.toSound.creates h hid hcancel
    slotBound := fun j r hr ↦ by
      rcases hqueue j r hr with ⟨hr, hobj⟩ | ⟨rfl, rfl, hobj⟩ <;> rw [hobj]
      · rw [State.interval_eq_of_head (h.head j (State.lt_of_mem_queue hr))]
        exact hg.slotBound j r hr
      · rw [h.found]
        exact slotInterval_le q.interval
    long := fun r hr ↦ by
      rcases hlive r hr with ⟨hr, hobj⟩ | ⟨rfl, hobj⟩ <;> rw [hobj]
      · exact hg.long r hr
      · exact hlong
    unwrapped := fun j r hr ↦ by
      rcases hqueue j r hr with ⟨hr, hobj⟩ | ⟨rfl, rfl, hobj⟩ <;> rw [hobj]
      · exact hg.unwrapped j r hr
      · exact hdue
    ended := fun r hr honce ↦ by
      rcases hlive r hr with ⟨hr, hobj⟩ | ⟨rfl, hobj⟩ <;> rw [hobj] at honce ⊢
      · have hold := hg.ended r hr honce
        rw [h.reads]
        exact Nat.le_trans hold (env.tick_mono (Nat.le_add_right _ _))
      · exact hend honce
    ran := fun t ht ↦ by
      rw [h.trace] at ht
      rw [h.made]
      exact Nat.lt_succ_of_lt (hg.ran t (by simpa using ht))
    waiting := fun j r hr honce ↦ by
      rw [h.runs]
      rcases hqueue j r hr with ⟨hr, hobj⟩ | ⟨-, rfl, -⟩
      · rw [hobj] at honce
        exact hg.waiting j r hr honce
      · exact hg.runs_made
    once := fun r hr honce ↦ by
      rw [h.runs]
      rw [h.made] at hr
      rcases Nat.lt_succ_iff_lt_or_eq.mp hr with hr | rfl
      · rw [h.obj_of_lt hr] at honce
        exact hg.once r hr honce
      · rw [hg.runs_made]
        exact Nat.zero_le 1 }

/-- Taking a request from its queue. -/
theorem Sound.take {now : ℕ} (hg : Sound s) (hheld : s.held = none) (hr : r ∈ s.queue i) :
    Sound (s.take now i r) ∧ (∀ x, (s.take now i r).Live x ↔ s.Live x) ∧
      ∀ j x, x ∈ (s.take now i r).queue j ↔ x ∈ s.queue j ∧ x ≠ r := by
  have hqueue : ∀ j, (s.take now i r).queue j = if j = i then (s.queue i).erase r else s.queue j :=
    fun j ↦ State.queue_pop
  have hmem : ∀ j x, x ∈ (s.take now i r).queue j ↔ x ∈ s.queue j ∧ x ≠ r := by
    intro j x
    rw [hqueue]
    split_ifs with hj
    · subst hj
      rw [(hg.nodup j).mem_erase_iff, and_comm]
    · refine ⟨fun hx ↦ ⟨hx, ?_⟩, And.left⟩
      rintro rfl
      exact hj (hg.apart j i x hx hr)
  have hlive : ∀ x, (s.take now i r).Live x ↔ s.Live x := by
    intro x
    simp only [State.Live, hmem, hheld]
    constructor
    · rintro (heq | ⟨j, hx, -⟩)
      · cases heq
        exact .inr ⟨i, hr⟩
      · exact .inr ⟨j, hx⟩
    · rintro (heq | ⟨j, hx⟩)
      · cases heq
      · by_cases hxr : x = r
        · exact .inl (congrArg some hxr.symm)
        · exact .inr ⟨j, hx, hxr⟩
  refine ⟨?_, hlive, hmem⟩
  exact {
    nodup := fun j ↦ by
      rw [hqueue]
      split_ifs
      · exact (hg.nodup i).erase r
      · exact hg.nodup j
    apart := fun j k x hj hk ↦ hg.apart j k x ((hmem j x).mp hj).1 ((hmem k x).mp hk).1
    held := fun x j hx hj ↦ by
      cases hx
      exact ((hmem j r).mp hj).2 rfl
    fresh := fun x hx ↦ hg.fresh x ((hlive x).mp hx)
    ids := fun x y hx hy ↦ hg.ids x y ((hlive x).mp hx) ((hlive y).mp hy)
    pool := by
      apply hg.pool.mono
      rintro n ⟨x, hx, hn⟩
      exact ⟨x, (hlive x).mp hx, hn⟩
    table := fun k x hget ↦ by
      rw [hlive]
      exact hg.table k x hget }

theorem Good.take {now : ℕ} (hg : Good env s) (hheld : s.held = none) (hr : r ∈ s.queue i) :
    Good env (s.take now i r) ∧
      ∀ j x, x ∈ (s.take now i r).queue j ↔ x ∈ s.queue j ∧ x ≠ r := by
  obtain ⟨hsound, hlive, hmem⟩ := hg.toSound.take hheld hr
  have hruns : ∀ x, x ≠ r → runs (s.take now i r).trace x = runs s.trace x := by
    intro x hx
    simp [runs, State.take, State.record, State.pop, hx.symm]
  refine ⟨?_, hmem⟩
  exact {
    toSound := hsound
    slotBound := fun j x hx ↦ by
      have hinterval : (s.take now i r).interval j = s.interval j := State.interval_pop
      rw [hinterval]
      exact hg.slotBound j x ((hmem j x).mp hx).1
    long := fun x hx ↦ hg.long x ((hlive x).mp hx)
    unwrapped := fun j x hx ↦ hg.unwrapped j x ((hmem j x).mp hx).1
    ended := fun x hx ↦ hg.ended x ((hlive x).mp hx)
    ran := fun t ht ↦ by
      simp only [State.take, State.record, State.pop, turnsOf_append, turnsOf_turn,
        List.mem_append, List.mem_singleton] at ht
      rcases ht with ht | rfl
      · exact hg.ran t ht
      · exact hg.lt_of_mem hr
    waiting := fun j x hx honce ↦ by
      obtain ⟨hx, hne⟩ := (hmem j x).mp hx
      rw [hruns x hne]
      exact hg.waiting j x hx honce
    once := fun x hx honce ↦ by
      by_cases hxr : x = r
      · subst hxr
        have hold := hg.waiting i x hr honce
        have hadd : runs (s.take now i x).trace x ≤ runs s.trace x + 1 := by
          simp only [runs, State.take, State.record, State.pop, turnsOf_append, turnsOf_turn,
            List.countP_append]
          exact Nat.add_le_add_left List.countP_le_length _
        omega
      · rw [hruns x hxr]
        exact hg.once x hx honce }

/-- Giving up the request held. -/
theorem Sound.live_letGo (hg : Sound s) (hheld : s.held = some r) :
    ∀ x, (s.letGo r).Live x → s.Live x ∧ x ≠ r := by
  rintro x (hx | ⟨j, hx⟩)
  · cases hx
  · refine ⟨.inr ⟨j, hx⟩, ?_⟩
    rintro rfl
    exact hg.held x j hheld hx

theorem Sound.letGo (hg : Sound s) (hheld : s.held = some r)
    (hgone : ∀ id, s.reqs.get? id ≠ some r) : Sound (s.letGo r) := by
  have hlive := hg.live_letGo hheld
  exact {
    nodup := hg.nodup
    apart := hg.apart
    held := fun x j hx ↦ by cases hx
    fresh := fun x hx ↦ hg.fresh x (hlive x hx).1
    ids := fun x y hx hy ↦ hg.ids x y (hlive x hx).1 (hlive y hy).1
    pool := by
      have hapart : ∀ n, (∃ x, (s.letGo r).Live x ∧ ((s.letGo r).obj x).id = n) →
          n ≠ (s.obj r).id ∧ ∃ x, s.Live x ∧ (s.obj x).id = n := by
        rintro n ⟨x, hx, rfl⟩
        obtain ⟨hx, hne⟩ := hlive x hx
        exact ⟨fun heq ↦ hne (hg.ids x r hx (.inl hheld) heq), x, hx, rfl⟩
      simp only [State.letGo] at hapart ⊢
      split_ifs
      · exact (hg.pool.release ⟨r, .inl hheld, rfl⟩).2.mono hapart
      · exact hg.pool.mono fun n hn ↦ (hapart n hn).2
    table := fun k x hget ↦ by
      obtain ⟨hx, hold⟩ := hg.table k x hget
      refine ⟨?_, hold⟩
      rcases hx with hx | hx
      · rw [hheld] at hx
        cases hx
        exact absurd hget (hgone k)
      · exact .inr hx }

theorem Good.letGo (hg : Good env s) (hheld : s.held = some r)
    (hgone : ∀ id, s.reqs.get? id ≠ some r) : Good env (s.letGo r) := by
  have hlive := hg.toSound.live_letGo hheld
  exact {
    toSound := hg.toSound.letGo hheld hgone
    slotBound := hg.slotBound
    long := fun x hx ↦ hg.long x (hlive x hx).1
    unwrapped := hg.unwrapped
    ended := fun x hx ↦ hg.ended x (hlive x hx).1
    ran := hg.ran
    waiting := hg.waiting
    once := hg.once }

/-- The request held goes back to its queue. -/
structure Rearms (now i r : ℕ) (s s' : State) : Prop where
  queue : ∀ j, s'.queue j = if j = i then s.queue i ++ [r] else s.queue j
  other : ∀ x, x ≠ r → s'.obj x = s.obj x
  self : s'.obj r = { s.obj r with
    nextRun := wrap (now + (s.obj r).interval), due := now + (s.obj r).interval }

theorem rearms_rearm {now : ℕ} (hi : i < s.slots.length) :
    Rearms now i r s (s.rearm now i r) where
  queue _ := State.queue_push hi
  other _ hx := Function.update_of_ne hx ..
  self := Function.update_self ..

theorem Rearms.mem_queue {now x : ℕ} (h : Rearms now i r s s') :
    x ∈ s'.queue j ↔ x ∈ s.queue j ∨ j = i ∧ x = r := by
  rw [h.queue]
  split_ifs with hj
  · subst hj
    simp
  · simp [hj]

theorem Rearms.fixed {now : ℕ} (h : Rearms now i r s s') (x : ℕ) :
    (s'.obj x).fixed = (s.obj x).fixed := by
  by_cases hx : x = r
  · rw [hx, h.self]
    rfl
  · rw [h.other x hx]

theorem live_rearm {now : ℕ} (hheld : s.held = some r) (hi : i < s.slots.length) (x : ℕ) :
    (s.rearm now i r).Live x ↔ s.Live x := by
  have h : Rearms now i r s (s.rearm now i r) := rearms_rearm hi
  have hfree : (s.rearm now i r).held = none := rfl
  simp only [State.Live, h.mem_queue, hheld, hfree, reduceCtorEq, false_or, exists_or,
    exists_eq_left, Option.some.injEq]
  rw [or_comm, eq_comm]

theorem Sound.rearm {now : ℕ} (hg : Sound s) (hheld : s.held = some r)
    (hi : i < s.slots.length) : Sound (s.rearm now i r) := by
  have h : Rearms now i r s (s.rearm now i r) := rearms_rearm hi
  have hne : ∀ {j x}, x ∈ s.queue j → x ≠ r := by
    rintro j x hx rfl
    exact hg.held x j hheld hx
  have hlive := @live_rearm s i r now hheld hi
  exact {
    nodup := fun j ↦ by
      rw [h.queue]
      split_ifs
      · refine List.nodup_append.mpr ⟨hg.nodup i, by simp, ?_⟩
        rintro x hx y hy rfl
        exact hne hx (List.mem_singleton.mp hy)
      · exact hg.nodup j
    apart := fun j k x hj hk ↦ by
      rcases h.mem_queue.mp hj with hj | ⟨hji, hxr⟩ <;>
        rcases h.mem_queue.mp hk with hk | ⟨hki, hxr'⟩
      · exact hg.apart j k x hj hk
      · exact absurd hxr' (hne hj)
      · exact absurd hxr (hne hk)
      · exact hji.trans hki.symm
    held := fun x j hx ↦ by cases hx
    fresh := fun x hx ↦ hg.fresh x ((hlive x).mp hx)
    ids := fun x y hx hy ↦ by
      rw [Req.id_eq (h.fixed x), Req.id_eq (h.fixed y)]
      exact hg.ids x y ((hlive x).mp hx) ((hlive y).mp hy)
    pool := by
      apply hg.pool.mono
      rintro n ⟨x, hx, hn⟩
      exact ⟨x, (hlive x).mp hx, (Req.id_eq (h.fixed x)).symm.trans hn⟩
    table := fun k x hget ↦ by
      obtain ⟨hx, hid, hcancel⟩ := hg.table k x hget
      refine ⟨(hlive x).mpr hx, (Req.id_eq (h.fixed x)).trans hid, ?_⟩
      by_cases hxr : x = r
      · rw [hxr, h.self, ← hxr]
        exact hcancel
      · rw [h.other x hxr]
        exact hcancel }

theorem Good.rearm {now : ℕ} (hg : Good env s) (hheld : s.held = some r)
    (hi : i < s.slots.length) (hbound : s.interval i ≤ max minInterval ((s.obj r).interval / 2))
    (hfit : now + (s.obj r).interval < tickLimit) (hnot : ¬ (s.obj r).IsOnce) :
    Good env (s.rearm now i r) := by
  have h : Rearms now i r s (s.rearm now i r) := rearms_rearm hi
  have hne : ∀ {j x}, x ∈ s.queue j → x ≠ r := by
    rintro j x hx rfl
    exact hg.held x j hheld hx
  have hlive := @live_rearm s i r now hheld hi
  have hruns : ∀ x, runs (s.rearm now i r).trace x = runs s.trace x := by
    intro x
    simp [runs, State.rearm, State.record, State.push, State.modifyReq]
  exact {
    toSound := hg.toSound.rearm hheld hi
    slotBound := fun j x hx ↦ by
      have hinterval : (s.rearm now i r).interval j = s.interval j := State.interval_push
      rw [hinterval, Req.interval_eq (h.fixed x)]
      rcases h.mem_queue.mp hx with hx | ⟨rfl, rfl⟩
      · exact hg.slotBound j x hx
      · exact hbound
    long := fun x hx ↦ by
      rw [Req.interval_eq (h.fixed x)]
      exact hg.long x ((hlive x).mp hx)
    unwrapped := fun j x hx ↦ by
      rcases h.mem_queue.mp hx with hx | ⟨rfl, rfl⟩
      · rw [h.other x (hne hx)]
        exact hg.unwrapped j x hx
      · rw [h.self]
        exact Nat.mod_eq_of_lt hfit
    ended := fun x hx honce ↦ by
      rw [Req.endRun_eq (h.fixed x)]
      exact hg.ended x ((hlive x).mp hx) ((Req.isOnce_iff (h.fixed x)).mp honce)
    ran := fun t ht ↦ by
      refine hg.ran t ?_
      simpa [State.rearm, State.record, State.push, State.modifyReq] using ht
    waiting := fun j x hx honce ↦ by
      rw [hruns]
      rw [Req.isOnce_iff (h.fixed x)] at honce
      rcases h.mem_queue.mp hx with hx | ⟨-, rfl⟩
      · exact hg.waiting j x hx honce
      · exact absurd honce hnot
    once := fun x hx honce ↦ by
      rw [hruns]
      exact hg.once x hx ((Req.isOnce_iff (h.fixed x)).mp honce) }

end

end WiseKernel.Core.Timer
