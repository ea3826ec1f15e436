import WiseKernel.Core.TimerState

/-!
# What a call of `execute` does

`During` relates the states before and after a part of a call of `execute`, with
the events of that part: callbacks add requests that are not due, and a request
that had its turn is gone or not due any more.
-/

namespace WiseKernel.Core.Timer

open WiseKernel.Lib

/-- The requests that had a turn. -/
def turned (l : List Event) : List ℕ := (turnsOf l).map Turn.ref

@[simp] theorem turned_append (l l' : List Event) : turned (l ++ l') = turned l ++ turned l' := by
  simp [turned]

theorem mem_turned {l : List Event} {r : ℕ} : r ∈ turned l ↔ ∃ t ∈ turnsOf l, t.ref = r :=
  List.mem_map

/-- A part of a call of `execute` at the tick `now`; only the slots in `P` may be
polled in it. -/
structure During (P : ℕ → Prop) (now : ℕ) (s : State) (ev : List Event) (s' : State) : Prop where
  trace : s'.trace = s.trace ++ ev
  made_le : s.made ≤ s'.made
  reads_le : s.reads ≤ s'.reads
  length_le : s.slots.length ≤ s'.slots.length
  head : ∀ i < s.slots.length, ¬ P i → s'.head i = s.head i
  interval : ∀ i < s.slots.length, s'.interval i = s.interval i
  fixed : ∀ r < s.made, (s'.obj r).fixed = (s.obj r).fixed
  cancel : ∀ r < s.made, (s'.obj r).cancel = true ↔ (s.obj r).cancel = true ∨ .cancelled r ∈ ev
  stays : ∀ i r, r ∈ s.queue i → r ∉ turned ev →
    r ∈ s'.queue i ∧ (s'.obj r).nextRun = (s.obj r).nextRun
  moves : ∀ i r, r ∈ s'.queue i → r ∈ s.queue i ∨ now < (s'.obj r).nextRun
  turns : ∀ t ∈ turnsOf ev, t.now = now ∧ t.ref ∈ s.queue t.slot ∧
    t.nextRun = (s.obj t.ref).nextRun ∧ t.nextRun ≤ now ∧ t.due = t.nextRun
  done : ∀ t ∈ turnsOf ev, ∀ i, t.ref ∈ s'.queue i → now < (s'.obj t.ref).nextRun
  nodup : (turned ev).Nodup
  flags : ∀ a t b, ev = a ++ .turn t :: b →
    (t.ran = true ↔ (s.obj t.ref).cancel = false ∧ .cancelled t.ref ∉ a)

variable {env : Env} {P Q : ℕ → Prop} {now i j r : ℕ} {s s₁ s₂ s' : State} {ev ev₁ ev₂ : List Event}

namespace During

theorem mono (h : During P now s ev s') (hPQ : ∀ i, P i → Q i) : During Q now s ev s' :=
  { h with head := fun i hi hQ ↦ h.head i hi (mt (hPQ i) hQ) }

/-- A part without turns and without changes of the queues. -/
theorem of_calm (htrace : s'.trace = s.trace ++ ev) (hturns : turnsOf ev = [])
    (hmade : s'.made = s.made) (hreads : s.reads ≤ s'.reads)
    (hlength : s.slots.length ≤ s'.slots.length) (hqueue : ∀ i, s'.queue i = s.queue i)
    (hhead : ∀ i < s.slots.length, ¬ P i → s'.head i = s.head i)
    (hinterval : ∀ i < s.slots.length, s'.interval i = s.interval i)
    (hfixed : ∀ r, (s'.obj r).fixed = (s.obj r).fixed)
    (hnext : ∀ r, (s'.obj r).nextRun = (s.obj r).nextRun)
    (hcancel : ∀ r, (s'.obj r).cancel = true ↔ (s.obj r).cancel = true ∨ .cancelled r ∈ ev) :
    During P now s ev s' where
  trace := htrace
  made_le := Nat.le_of_eq hmade.symm
  reads_le := hreads
  length_le := hlength
  head := hhead
  interval := hinterval
  fixed r _ := hfixed r
  cancel r _ := hcancel r
  stays i r hr _ := by
    rw [hqueue]
    exact ⟨hr, hnext r⟩
  moves i r hr := by
    rw [hqueue] at hr
    exact .inl hr
  turns t ht := by
    rw [hturns] at ht
    cases ht
  done t ht := by
    rw [hturns] at ht
    cases ht
  nodup := by
    rw [turned, hturns]
    exact List.nodup_nil
  flags a t b hev := by
    rw [hev] at hturns
    have ht : t ∈ turnsOf (a ++ .turn t :: b) := mem_turnsOf.mpr (by simp)
    rw [hturns] at ht
    cases ht

theorem refl : During P now s [] s :=
  of_calm (by simp) rfl rfl (Nat.le_refl _) (Nat.le_refl _) (fun _ ↦ rfl) (fun _ _ _ ↦ rfl)
    (fun _ _ ↦ rfl) (fun _ ↦ rfl) (fun _ ↦ rfl) (by simp)

/-- A turn later in the call is of a request that waited from the start. -/
theorem turn_later (h₁ : During P now s ev₁ s₁) (h₂ : During P now s₁ ev₂ s₂) {t : Turn}
    (ht : t ∈ turnsOf ev₂) :
    t.ref ∈ s.queue t.slot ∧ t.ref ∉ turned ev₁ ∧
      (s₁.obj t.ref).nextRun = (s.obj t.ref).nextRun := by
  obtain ⟨-, hmem, hnext, hdue, -⟩ := h₂.turns t ht
  have hnot : ¬ now < (s₁.obj t.ref).nextRun := by
    rw [← hnext]
    exact Nat.not_lt.mpr hdue
  have hold : t.ref ∈ s.queue t.slot := (h₁.moves _ _ hmem).resolve_right hnot
  have hfirst : t.ref ∉ turned ev₁ := by
    intro hturned
    obtain ⟨t', ht', href⟩ := mem_turned.mp hturned
    rw [← href] at hmem hnot
    exact hnot (h₁.done t' ht' _ hmem)
  exact ⟨hold, hfirst, (h₁.stays _ _ hold hfirst).2⟩

theorem trans (hg : Good env s) (h₁ : During P now s ev₁ s₁) (h₂ : During P now s₁ ev₂ s₂) :
    During P now s (ev₁ ++ ev₂) s₂ where
  trace := by rw [h₂.trace, h₁.trace, List.append_assoc]
  made_le := Nat.le_trans h₁.made_le h₂.made_le
  reads_le := Nat.le_trans h₁.reads_le h₂.reads_le
  length_le := Nat.le_trans h₁.length_le h₂.length_le
  head i hi hP := (h₂.head i (Nat.lt_of_lt_of_le hi h₁.length_le) hP).trans (h₁.head i hi hP)
  interval i hi :=
    (h₂.interval i (Nat.lt_of_lt_of_le hi h₁.length_le)).trans (h₁.interval i hi)
  fixed r hr := (h₂.fixed r (Nat.lt_of_lt_of_le hr h₁.made_le)).trans (h₁.fixed r hr)
  cancel r hr := by
    rw [h₂.cancel r (Nat.lt_of_lt_of_le hr h₁.made_le), h₁.cancel r hr, List.mem_append, or_assoc]
  stays i r hr hnot := by
    rw [turned_append, List.mem_append, not_or] at hnot
    obtain ⟨hr₁, hnext₁⟩ := h₁.stays i r hr hnot.1
    obtain ⟨hr₂, hnext₂⟩ := h₂.stays i r hr₁ hnot.2
    exact ⟨hr₂, hnext₂.trans hnext₁⟩
  moves i r hr := by
    rcases h₂.moves i r hr with hr₁ | hlater
    · rcases h₁.moves i r hr₁ with hold | hlater
      · exact .inl hold
      · by_cases hturned : r ∈ turned ev₂
        · obtain ⟨t, ht, rfl⟩ := mem_turned.mp hturned
          exact .inr (h₂.done t ht i hr)
        · rw [(h₂.stays i r hr₁ hturned).2]
          exact .inr hlater
    · exact .inr hlater
  turns t ht := by
    rw [turnsOf_append, List.mem_append] at ht
    rcases ht with ht | ht
    · exact h₁.turns t ht
    · obtain ⟨hnow, -, hnext, hrest⟩ := h₂.turns t ht
      obtain ⟨hmem, -, hkept⟩ := h₁.turn_later h₂ ht
      exact ⟨hnow, hmem, hnext.trans hkept, hrest⟩
  done t ht i hr := by
    rw [turnsOf_append, List.mem_append] at ht
    by_cases hturned : t.ref ∈ turned ev₂
    · obtain ⟨t', ht', href⟩ := mem_turned.mp hturned
      rw [← href] at hr ⊢
      exact h₂.done t' ht' i hr
    · have ht₁ : t ∈ turnsOf ev₁ :=
        ht.resolve_right fun ht₂ ↦ hturned (mem_turned.mpr ⟨t, ht₂, rfl⟩)
      rcases h₂.moves i t.ref hr with hr₁ | hlater
      · rw [(h₂.stays i t.ref hr₁ hturned).2]
        exact h₁.done t ht₁ i hr₁
      · exact hlater
  nodup := by
    rw [turned_append]
    refine List.nodup_append.mpr ⟨h₁.nodup, h₂.nodup, ?_⟩
    rintro r hr₁ r' hr₂ rfl
    obtain ⟨t, ht, rfl⟩ := mem_turned.mp hr₂
    exact (h₁.turn_later h₂ ht).2.1 hr₁
  flags a t b hev := by
    rcases List.append_eq_append_iff.mp hev with ⟨c, rfl, hc⟩ | ⟨c, hc, hb⟩
    · -- the turn is in the second part
      have ht : t ∈ turnsOf ev₂ := mem_turnsOf.mpr (by simp [hc])
      have hlt := hg.lt_of_mem (h₁.turn_later h₂ ht).1
      have hcancel := h₁.cancel t.ref hlt
      rw [h₂.flags c t b hc, ← Bool.not_eq_true, hcancel, List.mem_append, Bool.eq_false_iff]
      tauto
    · cases c with
      | nil =>
          rw [List.append_nil] at hc
          subst hc
          rw [List.nil_append] at hb
          have ht : t ∈ turnsOf ev₂ := mem_turnsOf.mpr (by simp [← hb])
          have hlt := hg.lt_of_mem (h₁.turn_later h₂ ht).1
          have hcancel := h₁.cancel t.ref hlt
          rw [h₂.flags [] t b hb.symm, ← Bool.not_eq_true, hcancel, Bool.eq_false_iff]
          simp
      | cons e c =>
          obtain ⟨rfl, rfl⟩ := List.cons.inj hb
          exact h₁.flags a t c hc

theorem creates {id : ℕ} {q : Req} (hg : Good env s) (h : Creates env s i id q s')
    (hlater : now < q.nextRun) :
    During P now s [.created s.made (env.tick s.reads) q.after q.interval] s' where
  trace := h.trace
  made_le := by
    rw [h.made]
    exact Nat.le_succ _
  reads_le := by
    rw [h.reads]
    exact Nat.le_add_right _ _
  length_le := h.length_le
  head j hj _ := h.head j hj
  interval j hj := State.interval_eq_of_head (h.head j hj)
  fixed r hr := by rw [h.obj_of_lt hr]
  cancel r hr := by
    rw [h.obj_of_lt hr]
    simp
  stays j r hr _ := by
    rw [h.obj_of_lt (hg.lt_of_mem hr)]
    exact ⟨h.mem_queue.mpr (.inl hr), rfl⟩
  moves j r hr := by
    rcases h.mem_queue.mp hr with hold | ⟨-, rfl⟩
    · exact .inl hold
    · rw [h.obj_made]
      exact .inr hlater
  turns t ht := by cases ht
  done t ht := by cases ht
  nodup := List.nodup_nil
  flags a t b hev := by
    rcases List.cons_eq_append_iff.mp hev with ⟨-, heq⟩ | ⟨a', -, heq⟩
    · cases heq
    · simp at heq

theorem take (hg : Good env s) (hheld : s.held = none) (hr : r ∈ s.queue i)
    (hdue : (s.obj r).nextRun ≤ now) :
    During P now s
      [.turn ⟨r, i, (s.obj r).nextRun, (s.obj r).due, now, !(s.obj r).cancel⟩]
      (s.take now i r) where
  trace := rfl
  made_le := Nat.le_refl _
  reads_le := Nat.le_refl _
  length_le := Nat.le_of_eq (List.length_modify ..).symm
  head _ _ _ := State.head_pop
  interval _ _ := State.interval_pop
  fixed _ _ := rfl
  cancel x _ := by simp [State.take, State.record, State.pop]
  stays j x hx hnot := by
    have hne : x ≠ r := by simpa [turned] using hnot
    exact ⟨((hg.take hheld hr).2 j x).mpr ⟨hx, hne⟩, rfl⟩
  moves j x hx := .inl (((hg.take hheld hr).2 j x).mp hx).1
  turns t ht := by
    cases List.mem_singleton.mp ht
    exact ⟨rfl, hr, rfl, hdue, (hg.unwrapped i r hr).symm⟩
  done t ht j hx := by
    cases List.mem_singleton.mp ht
    exact absurd rfl (((hg.take hheld hr).2 j r).mp hx).2
  nodup := List.nodup_singleton _
  flags a t b hev := by
    rcases List.cons_eq_append_iff.mp hev with ⟨rfl, heq⟩ | ⟨a', -, heq⟩
    · cases heq
      simp
    · simp at heq

theorem rearm (hg : Good env s) (hheld : s.held = some r) (hi : i < s.slots.length)
    (hfit : now + (s.obj r).interval < tickLimit) :
    During P now s [.rearmed r now (s.obj r).interval] (s.rearm now i r) := by
  have h : Rearms now i r s (s.rearm now i r) := rearms_rearm hi
  have hne : ∀ {j x}, x ∈ s.queue j → x ≠ r := by
    rintro j x hx rfl
    exact hg.held x j hheld hx
  exact {
    trace := rfl
    made_le := Nat.le_refl _
    reads_le := Nat.le_refl _
    length_le := Nat.le_of_eq (List.length_modify ..).symm
    head := fun _ _ _ ↦ State.head_push
    interval := fun _ _ ↦ State.interval_push
    fixed := fun x _ ↦ h.fixed x
    cancel := fun x _ ↦ by
      by_cases hx : x = r
      · rw [hx, h.self]
        simp
      · rw [h.other x hx]
        simp
    stays := fun j x hx _ ↦ by
      rw [h.other x (hne hx)]
      exact ⟨h.mem_queue.mpr (.inl hx), rfl⟩
    moves := fun j x hx ↦ by
      rcases h.mem_queue.mp hx with hold | ⟨-, rfl⟩
      · exact .inl hold
      · have hlong := hg.long x (.inl hheld)
        have hwrap : wrap (now + (s.obj x).interval) = now + (s.obj x).interval :=
          Nat.mod_eq_of_lt hfit
        have hmin : 0 < minInterval := by decide
        have hlater : now < wrap (now + (s.obj x).interval) := by omega
        rw [h.self]
        exact .inr hlater
    turns := fun t ht ↦ by cases ht
    done := fun t ht ↦ by cases ht
    nodup := List.nodup_nil
    flags := fun a t b hev ↦ by
      rcases List.cons_eq_append_iff.mp hev with ⟨-, heq⟩ | ⟨a', -, heq⟩
      · cases heq
      · simp at heq }

end During

/-- What a step must not do: let a sum of ticks pass the range of `tick_t`, or add
an action to the request whose actions are being called. -/
def Event.Fits : Event → Prop
  | .created _ now after interval => now + after + interval < tickLimit
  | .added r held => held ≠ some r
  | .rearmed _ now interval => now + interval < tickLimit
  | .cancelled _ | .turn _ => True

def Fit (s : State) : Prop := ∀ e ∈ s.trace, e.Fits

theorem Fit.of_subset (h : Fit s') (hsub : s.trace ⊆ s'.trace) : Fit s :=
  fun e he ↦ h e (hsub he)

/-- A part of the call of a callback. -/
structure Quiet (now : ℕ) (s : State) (ev : List Event) (s' : State) : Prop
    extends During (fun _ ↦ False) now s ev s' where
  held : s'.held = s.held
  silent : turnsOf ev = []

theorem Quiet.refl : Quiet now s [] s := ⟨.refl, rfl, rfl⟩

theorem Quiet.trans (hg : Good env s) (h₁ : Quiet now s ev₁ s₁) (h₂ : Quiet now s₁ ev₂ s₂) :
    Quiet now s (ev₁ ++ ev₂) s₂ :=
  ⟨h₁.toDuring.trans hg h₂.toDuring, h₂.held.trans h₁.held, by simp [h₁.silent, h₂.silent]⟩

/-- The invariant is kept, and in a call of `execute` nothing but requests that
are not due is added. -/
def Keeps (env : Env) (s s' : State) : Prop :=
  Good env s' ∧ ∀ now ≤ env.tick s.reads, ∃ ev, Quiet now s ev s'

theorem Keeps.refl (hg : Good env s) : Keeps env s s := ⟨hg, fun _ _ ↦ ⟨[], .refl⟩⟩

theorem Keeps.trans (hg : Good env s) (h₁ : Keeps env s s₁) (h₂ : Keeps env s₁ s₂) :
    Keeps env s s₂ := by
  refine ⟨h₂.1, fun now hnow ↦ ?_⟩
  obtain ⟨ev₁, hq₁⟩ := h₁.2 now hnow
  have hlater : now ≤ env.tick s₁.reads := Nat.le_trans hnow (env.tick_mono hq₁.reads_le)
  obtain ⟨ev₂, hq₂⟩ := h₂.2 now hlater
  exact ⟨ev₁ ++ ev₂, hq₁.trans hg hq₂⟩

/-- A step that leaves the slots and what the invariant looks at. -/
theorem Keeps.of_same (hg : Good env s) (ev : List Event) (h : Same s s')
    (hslots : s'.slots = s.slots)
    (htrace : s'.trace = s.trace ++ ev) (hturns : turnsOf ev = [])
    (hcancel : ∀ r, (s'.obj r).cancel = true ↔ (s.obj r).cancel = true ∨ .cancelled r ∈ ev) :
    Keeps env s s' := by
  refine ⟨hg.of_same h, fun now _ ↦ ⟨ev, .of_calm htrace hturns h.made h.reads ?_ h.queue ?_
    h.interval h.fixed h.nextRun hcancel, h.held, hturns⟩⟩
  · rw [hslots]
  · intro i _ _
    rw [State.head, hslots, State.head]

theorem State.modifyReq_obj {α : Type} {f : Req → Req} {π : Req → α} (hf : ∀ q, π (f q) = π q)
    (x : ℕ) : π ((s.modifyReq r f).obj x) = π (s.obj x) := by
  change π (Function.update s.obj r (f (s.obj r)) x) = π (s.obj x)
  by_cases hx : x = r
  · rw [hx, Function.update_self]
    exact hf _
  · rw [Function.update_of_ne hx]

theorem Same.refl : Same s s :=
  ⟨fun _ ↦ rfl, fun _ _ ↦ rfl, rfl, rfl, rfl, fun _ _ hget ↦ ⟨hget, fun hnot ↦ hnot⟩,
    Nat.le_refl _, rfl, fun _ ↦ rfl, fun _ ↦ rfl, fun _ ↦ rfl⟩

/-- Changes of fields that only the application sees. -/
theorem same_modifyReq {f : Req → Req} (hfixed : ∀ q, (f q).fixed = q.fixed)
    (hnext : ∀ q, (f q).nextRun = q.nextRun) (hdue : ∀ q, (f q).due = q.due)
    (hcancel : ∀ q, (f q).cancel = q.cancel) (r : ℕ) : Same s (s.modifyReq r f) := by
  refine ⟨fun _ ↦ rfl, fun _ _ ↦ rfl, rfl, rfl, rfl, fun k x hget ↦ ⟨hget, ?_⟩, Nat.le_refl _, rfl,
    State.modifyReq_obj hfixed, State.modifyReq_obj hnext, State.modifyReq_obj hdue⟩
  rw [State.modifyReq_obj hcancel]
  exact fun hnot ↦ hnot

theorem State.add_eq {id action : ℕ} (h : s.reqs.get? id = some r) :
    s.add id action =
      (true, (s.modifyReq r fun q ↦ { q with actions := q.actions ++ [action] }).record
      (.added r s.held)) := by
  rw [State.add, h]

theorem State.cancel_eq {id : ℕ} (h : s.reqs.get? id = some r) :
    s.cancel id = (true, ({ s.modifyReq r fun q ↦ { q with cancel := true } with
      reqs := s.reqs.erase id } : State).record (.cancelled r)) := by
  rw [State.cancel, h]

theorem same_add {id action : ℕ} (h : s.reqs.get? id = some r) : Same s (s.add id action).2 := by
  have hmodify := same_modifyReq (s := s) (f := fun q ↦ { q with actions := q.actions ++ [action] })
    (fun _ ↦ rfl) (fun _ ↦ rfl) (fun _ ↦ rfl) (fun _ ↦ rfl) r
  rw [State.add_eq h]
  refine ⟨hmodify.queue, hmodify.interval, hmodify.held, hmodify.made, hmodify.seq, hmodify.reqs,
    hmodify.reads, ?_, hmodify.fixed, hmodify.nextRun, hmodify.due⟩
  simp [State.record, State.modifyReq]

theorem State.cancel_obj (id x : ℕ) (h : s.reqs.get? id = some r) :
    ((s.cancel id).2.obj x).cancel = true ↔ (s.obj x).cancel = true ∨ x = r := by
  rw [State.cancel_eq h]
  by_cases hx : x = r
  · simp [hx, State.record, State.modifyReq]
  · simp [hx, State.record, State.modifyReq]

theorem State.get?_cancel (id k : ℕ) (h : s.reqs.get? id = some r) :
    (s.cancel id).2.reqs.get? k = if k = id then none else s.reqs.get? k := by
  rw [State.cancel_eq h]
  exact Table.get?_erase ..

theorem Sound.same_cancel (hg : Sound s) {id : ℕ} (h : s.reqs.get? id = some r) :
    Same s (s.cancel id).2 := by
  have hcancelled := fun x ↦ State.cancel_obj id x h
  have hget := fun k ↦ State.get?_cancel id k h
  rw [State.cancel_eq h] at hcancelled hget ⊢
  have hkept : ∀ {α : Type} (π : Req → α), (∀ q : Req, π { q with cancel := true } = π q) →
      ∀ x, π ((s.modifyReq r fun q ↦ { q with cancel := true }).obj x) = π (s.obj x) :=
    fun π hπ ↦ State.modifyReq_obj hπ
  refine ⟨fun _ ↦ rfl, fun _ _ ↦ rfl, rfl, rfl, rfl, ?_, Nat.le_refl _, ?_,
    hkept Req.fixed fun _ ↦ rfl, hkept Req.nextRun fun _ ↦ rfl, hkept Req.due fun _ ↦ rfl⟩
  · intro k x hrest
    rw [hget] at hrest
    split_ifs at hrest with hk
    refine ⟨hrest, fun hnot ↦ Bool.eq_false_iff.mpr fun htrue ↦ ?_⟩
    rcases (hcancelled x).mp htrue with hold | rfl
    · rw [hnot] at hold
      cases hold
    · exact hk ((hg.table k x hrest).2.1.symm.trans (hg.table id x h).2.1)
  · simp [State.record, State.modifyReq]

section

variable (hg : Good env s)

include hg

theorem Good.opens {n : ℕ} (h : s.Opens n i s') : Keeps env s s' := by
  have hsame := h.same
  have htrace : s'.trace = s.trace ++ [] := by
    rw [List.append_nil, h.eq]
  refine ⟨hg.of_same hsame, fun now _ ↦ ⟨[], .of_calm htrace rfl hsame.made hsame.reads h.length_le
    hsame.queue ?_ hsame.interval hsame.fixed hsame.nextRun ?_, hsame.held, rfl⟩⟩
  · intro j hj _
    exact h.head j hj
  · intro r
    rw [h.eq]
    simp

theorem Good.set (interval duration : ℕ) (repeats : Bool) (after : ℕ)
    (hfit : Fit (s.set env interval duration repeats after).2) :
    Keeps env s (s.set env interval duration repeats after).2 := by
  rcases hg.set_cases interval duration repeats after with
    ⟨e, n, i, s₁, heq, hopens⟩ | ⟨id, i, s₁, heq, hcreates⟩ <;> rw [heq] at hfit ⊢
  · exact hg.opens hopens
  · set q := Req.make id interval duration after repeats (env.tick s.reads)
      (env.tick (s.reads + 1)) with hq
    have hsum : env.tick s.reads + q.after + q.interval < tickLimit := by
      refine hfit (.created s.made (env.tick s.reads) q.after q.interval) ?_
      rw [hcreates.trace]
      simp
    have hnext : q.nextRun = q.due := Nat.mod_eq_of_lt hsum
    have hlong : minInterval ≤ q.interval := Nat.le_max_left _ _
    refine ⟨hg.creates hcreates rfl rfl hlong hnext ?_, fun now hnow ↦ ⟨_,
      .creates hg hcreates ?_, hcreates.held, rfl⟩⟩
    · rintro ⟨-, hduration, hafter⟩
      have hend : q.endRun = wrap (env.tick (s.reads + 1) + q.after + q.duration) := rfl
      rw [hend, hduration, hafter, hcreates.reads, wrap, Nat.add_zero, Nat.add_zero,
        Nat.mod_eq_of_lt (env.tick_lt _)]
      exact env.tick_mono (Nat.le_succ _)
    · have hmin : 0 < minInterval := by decide
      have hdue : q.due = env.tick s.reads + q.after + q.interval := rfl
      rw [hnext, hdue]
      omega

theorem Good.modifyReq {f : Req → Req} (hfixed : ∀ q, (f q).fixed = q.fixed)
    (hnext : ∀ q, (f q).nextRun = q.nextRun) (hdue : ∀ q, (f q).due = q.due)
    (hcancel : ∀ q, (f q).cancel = q.cancel) (r : ℕ) : Keeps env s (s.modifyReq r f) := by
  refine .of_same hg [] (same_modifyReq hfixed hnext hdue hcancel r) rfl (List.append_nil _).symm
    rfl fun x ↦ ?_
  rw [State.modifyReq_obj hcancel]
  simp

theorem Good.add (id action : ℕ) : Keeps env s (s.add id action).2 := by
  cases hget : s.reqs.get? id with
  | none =>
      rw [State.add, hget]
      exact .refl hg
  | some r =>
      have hsame : Same s (s.add id action).2 := same_add hget
      rw [State.add_eq hget] at hsame ⊢
      refine .of_same hg [.added r s.held] hsame rfl rfl rfl fun x ↦ ?_
      have hcancel : ∀ q : Req, ({ q with actions := q.actions ++ [action] } : Req).cancel =
          q.cancel := fun _ ↦ rfl
      have hobj := State.modifyReq_obj (s := s) (r := r) hcancel x
      simpa [State.record] using Iff.of_eq (congrArg (· = true) hobj)

theorem Good.cancel (id : ℕ) : Keeps env s (s.cancel id).2 := by
  cases hget : s.reqs.get? id with
  | none =>
      rw [State.cancel, hget]
      exact .refl hg
  | some r =>
      have hsame := hg.toSound.same_cancel hget
      have hobj := fun x ↦ State.cancel_obj id x hget
      rw [State.cancel_eq hget] at hsame hobj ⊢
      refine .of_same hg [.cancelled r] hsame rfl rfl rfl fun x ↦ (hobj x).trans ?_
      simp

end

/-! The events recorded so far stay recorded. -/

theorem State.trace_subset_set (interval duration : ℕ) (repeats : Bool) (after : ℕ) :
    s.trace ⊆ (s.set env interval duration repeats after).2.trace := by
  unfold State.set
  dsimp only
  have hopens := s.opens_createSlot
    (slotInterval (if interval < minInterval then minInterval else interval))
  generalize s.createSlot _ = slt at hopens ⊢
  have htrace : slt.2.trace = s.trace := by rw [hopens.eq]
  split
  · rw [htrace]
    exact List.Subset.refl _
  · simp [State.enqueue, State.record, State.push, htrace]

theorem State.trace_subset_add (id action : ℕ) : s.trace ⊆ (s.add id action).2.trace := by
  unfold State.add
  split
  · exact List.Subset.refl _
  · simp [State.record, State.modifyReq]

theorem State.trace_subset_perform (op : Op) : s.trace ⊆ (s.perform env op).trace := by
  cases op with
  | set interval duration repeats after => exact trace_subset_set ..
  | add id action => exact trace_subset_add ..
  | cancel id =>
      simp only [State.perform, State.cancel]
      split
      · exact List.Subset.refl _
      · simp [State.record, State.modifyReq]
  | once after action =>
      have hset : s.trace ⊆ (s.set env after 0 false 0).2.trace := trace_subset_set ..
      simp only [State.perform, State.once]
      split <;> rename_i heq <;> rw [heq] at hset
      · exact hset
      · exact List.Subset.trans hset (trace_subset_add ..)
  | repeats interval action =>
      have hset : s.trace ⊆ (s.set env interval 0 true 0).2.trace := trace_subset_set ..
      simp only [State.perform, State.repeats]
      split <;> rename_i heq <;> rw [heq] at hset
      · exact hset
      · exact List.Subset.trans hset (trace_subset_add ..)

theorem trace_subset_foldl {α : Type} {f : State → α → State}
    (hf : ∀ s a, s.trace ⊆ (f s a).trace) (l : List α) (s : State) :
    s.trace ⊆ (l.foldl f s).trace := by
  induction l generalizing s with
  | nil => exact List.Subset.refl _
  | cons a l ih => exact List.Subset.trans (hf s a) (ih _)

theorem State.trace_subset_callback (id : ℕ) (s : State) (action : ℕ) :
    s.trace ⊆ (s.callback env id action).trace :=
  trace_subset_foldl (fun _ _ ↦ trace_subset_perform _) _ { s with calls := s.calls + 1 }

theorem State.trace_subset_run : s.trace ⊆ (s.run env r).trace :=
  trace_subset_foldl (trace_subset_callback _) _ s

theorem State.trace_subset_turn : s.trace ⊆ (s.turn env now i r).trace := by
  have htake : s.trace ⊆ (s.take now i r).trace := List.subset_append_left _ _
  have hrun : s.trace ⊆
      (((s.take now i r).modifyReq r fun q ↦ { q with lastRun := now }).run env r).trace :=
    List.Subset.trans htake
      (trace_subset_run (s := (s.take now i r).modifyReq r fun q ↦ { q with lastRun := now }))
  unfold State.turn
  dsimp only
  split_ifs
  · exact htake
  · exact List.Subset.trans hrun (List.subset_append_left _ _)
  · exact hrun

theorem State.trace_subset_drain (fuel : ℕ) (s : State) :
    s.trace ⊆ (drain env now i fuel s).1.trace := by
  fun_induction drain env now i fuel s with
  | case1 s => exact List.Subset.refl _
  | case2 s fuel _ => exact List.Subset.refl _
  | case3 s fuel r _ _ ih => exact List.Subset.trans trace_subset_turn ih
  | case4 s fuel r _ _ => exact List.Subset.refl _

theorem State.trace_subset_updateSlot (fuel : ℕ) :
    s.trace ⊆ (s.updateSlot env fuel now i).1.trace := by
  unfold State.updateSlot
  split
  · exact List.Subset.refl _
  · split_ifs
    · exact trace_subset_drain fuel
        { s with slots := s.slots.modify i fun sl ↦ { sl with lastRun := now } }
    · exact List.Subset.refl _

theorem State.trace_subset_poll (fuel : ℕ) (is : List ℕ) (s : State) :
    s.trace ⊆ (poll env fuel now is s).1.trace := by
  induction is generalizing s with
  | nil => exact List.Subset.refl _
  | cons i is ih =>
      have hslot : s.trace ⊆ (s.updateSlot env fuel now i).1.trace := trace_subset_updateSlot fuel
      unfold State.poll
      split <;> rename_i heq <;> rw [heq] at hslot
      · exact List.Subset.trans hslot (ih _)
      · exact hslot

/-! The invariant through the calls of the application. -/

theorem Good.perform (hg : Good env s) (op : Op) (hfit : Fit (s.perform env op)) :
    Keeps env s (s.perform env op) := by
  -- `once` and `repeats` call `set` and then `add`
  have hthen : ∀ interval duration repeats after (action : ℕ) id s₁,
      s.set env interval duration repeats after = (.ok id, s₁) → Fit (s₁.add id action).2 →
      Keeps env s (s₁.add id action).2 := by
    intro interval duration repeats after action id s₁ heq hfit
    have hset : Keeps env s s₁ := by
      have hkeeps := hg.set interval duration repeats after
      rw [heq] at hkeeps
      exact hkeeps (hfit.of_subset (State.trace_subset_add ..))
    exact hset.trans hg (hset.1.add id action)
  cases op with
  | set interval duration repeats after => exact hg.set _ _ _ _ hfit
  | add id action => exact hg.add id action
  | cancel id => exact hg.cancel id
  | once after action =>
      simp only [State.perform, State.once] at hfit ⊢
      cases heq : s.set env after 0 false 0 with
      | mk result s₁ =>
          have hset := hg.set after 0 false 0
          rw [heq] at hfit hset
          cases result with
          | error e => exact hset hfit
          | ok id => exact hthen _ _ _ _ _ _ _ heq hfit
  | repeats interval action =>
      simp only [State.perform, State.repeats] at hfit ⊢
      cases heq : s.set env interval 0 true 0 with
      | mk result s₁ =>
          have hset := hg.set interval 0 true 0
          rw [heq] at hfit hset
          cases result with
          | error e => exact hset hfit
          | ok id => exact hthen _ _ _ _ _ _ _ heq hfit

theorem Good.foldl {α : Type} {f : State → α → State} (hsub : ∀ s a, s.trace ⊆ (f s a).trace)
    (hf : ∀ s a, Good env s → Fit (f s a) → Keeps env s (f s a)) (l : List α) (hg : Good env s)
    (hfit : Fit (l.foldl f s)) : Keeps env s (l.foldl f s) := by
  induction l generalizing s with
  | nil => exact .refl hg
  | cons a l ih =>
      have hone := hf s a hg (hfit.of_subset (trace_subset_foldl hsub l _))
      exact hone.trans hg (ih hone.1 hfit)

theorem Good.callback (hg : Good env s) (id action : ℕ)
    (hfit : Fit (s.callback env id action)) : Keeps env s (s.callback env id action) := by
  have hcount : Keeps env s { s with calls := s.calls + 1 } :=
    .of_same hg [] ⟨fun _ ↦ rfl, fun _ _ ↦ rfl, rfl, rfl, rfl,
      fun _ _ hget ↦ ⟨hget, fun hnot ↦ hnot⟩, Nat.le_refl _, rfl, fun _ ↦ rfl, fun _ ↦ rfl,
      fun _ ↦ rfl⟩ rfl (List.append_nil _).symm rfl (by simp)
  exact hcount.trans hg (hcount.1.foldl (fun _ _ ↦ State.trace_subset_perform _)
    (fun _ op hg hfit ↦ hg.perform op hfit) _ hfit)

theorem Good.run (hg : Good env s) (hfit : Fit (s.run env r)) : Keeps env s (s.run env r) := by
  have hactions := hg.foldl (State.trace_subset_callback (s.obj r).id)
    (fun _ action hg hfit ↦ hg.callback _ action hfit) (s.obj r).actions hfit
  exact hactions.trans hg (hactions.1.modifyReq
    (f := fun q ↦ { q with runCount := q.runCount + 1 })
    (fun _ ↦ rfl) (fun _ ↦ rfl) (fun _ ↦ rfl) (fun _ ↦ rfl) r)

end WiseKernel.Core.Timer
