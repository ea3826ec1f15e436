import Mathlib.Algebra.BigOperators.Group.Finset.Basic
import Mathlib.Algebra.GroupWithZero.Nat
import Mathlib.Algebra.Order.BigOperators.Group.Finset
import Mathlib.Data.Fintype.Basic
import WiseKernel.Core.SubMap

/-!
# The channel

`publish` pushes a message and then posts it to the immediate subscriptions;
`execute` pops messages and posts them to the delayed ones until it has called
more than `loop_post_limit` callbacks.  Any thread publishes at any time, a
callback among them; one thread executes.  A post calls its callbacks under the
shared lock of `sub_map`, and `purge`, which follows it every five seconds, wants
the lock alone: a post that a callback has made cannot get it.
-/

namespace WiseKernel.Core

open WiseKernel.Lib

/-- `channel`. -/
structure Channel (β C : Type) where
  queue : List (Message β)
  map : SubMap β C

namespace Channel

variable {β C : Type}

def initial : Channel β C := ⟨[], .initial⟩

/-! ## Threads -/

/-- Where `execute` stands. -/
inductive Place (β : Type)
  | idle
  /-- before `q_.pop` -/
  | pop (count : ℕ)
  /-- before `map_.post` with the message popped -/
  | post (count : ℕ) (m : Message β)
  /-- in `map_.post` -/
  | call (count : ℕ)
  /-- before the test of `loop_post_limit` -/
  | test (count : ℕ)

/-- Where a call of `map_.post` stands. -/
inductive Frame (C : Type)
  /-- the call of `publish` with this number has pushed and wants the lock -/
  | enter (call : ℕ)
  /-- the callbacks are called under the shared lock, the first of them now -/
  | inside (calls : List (ℕ × C))
  /-- before `purge_wait` -/
  | leave
  /-- in `purge`, before its lock -/
  | purge
  deriving DecidableEq

def Frame.isInside : Frame C → Bool
  | .inside _ => true
  | _ => false

def Place.isIdle : Place β → Bool
  | .idle => true
  | _ => false

end Channel

open Channel in
/-- The channel with the posts that its threads are in, the innermost first, and what
happened so far: the calls of `publish`, the numbers of those that were posted to
the immediate subscriptions, the messages posted to the delayed ones, and the
results of `execute`. -/
structure Traffic (T β C : Type) where
  chan : Channel β C
  place : Place β
  stack : T → List (Frame C)
  published : List (Topic × Message β)
  immediate : List ℕ
  delayed : List (Message β)
  executed : List ℕ

namespace Traffic

open Channel

variable {T β C : Type}

def initial : Traffic T β C := ⟨.initial, .idle, fun _ ↦ [], [], [], [], []⟩

/-- A step of the system. -/
inductive Action (T β C : Type)
  /-- `publish(m)`, or `publish(topic, m)` with a topic of its own, pushes -/
  | publish (t : T) (topic : Option Topic) (m : Message β)
  /-- `execute` is called -/
  | execute
  /-- the innermost call that the thread is in goes on -/
  | proceed (t : T)
  /-- `purge_wait`, at a time when the purge is due or not -/
  | purgeWait (t : T) (due : Bool)
  | subscribe (topic : Topic) (cond : Message β → Bool) (cb : C) (mode : SubMode)
  | unsubscribe (key : ℕ)

section

variable [DecidableEq T] (limit : ℕ) (e : T)

def goto (w : Traffic T β C) (t : T) (frames : List (Frame C)) : Traffic T β C :=
  { w with stack := Function.update w.stack t frames }

/-- Nobody has the lock of `sub_map`. -/
def Free (w : Traffic T β C) : Prop := ∀ t, ∀ f ∈ w.stack t, f.isInside = false

instance [Fintype T] (w : Traffic T β C) : Decidable w.Free :=
  inferInstanceAs (Decidable (∀ t, ∀ f ∈ w.stack t, f.isInside = false))

/-- A thread makes calls of its own and out of callbacks. -/
def mayCall (w : Traffic T β C) (t : T) : Bool :=
  match w.stack t with
  | [] => decide (t ≠ e) || w.place.isIdle
  | .inside (_ :: _) :: _ => true
  | _ => false

/-- The next block of `execute` outside of `map_.post`; the sum of the counts is its
result. -/
def proceedExecute (w : Traffic T β C) : Option (Traffic T β C) :=
  match w.place with
  | .idle => none
  | .pop count =>
      match w.chan.queue with
      | [] => some { w with place := .idle, executed := w.executed ++ [count] }
      | m :: queue => some { w with chan.queue := queue, place := .post count m }
  | .post count m =>
      let (posted, map) := w.chan.map.post m .delayed
      some ({ w with
        chan.map := map
        place := .call (count + posted.1)
        delayed := w.delayed ++ [m] }.goto e [.inside posted.2])
  | .call count => some { w with place := .test count }
  | .test count =>
      if count > limit then some { w with place := .idle, executed := w.executed ++ [count] }
      else some { w with place := .pop count }

/-- A shared lock is given while nobody has the lock alone, also to a thread that has
it already; `purge` waits until nobody has it. -/
def proceed [Fintype T] (w : Traffic T β C) (t : T) : Option (Traffic T β C) :=
  match w.stack t with
  | [] => if t = e then w.proceedExecute limit e else none
  | .enter call :: rest =>
      w.published[call]?.map fun p ↦
        let (posted, map) := w.chan.map.postAt p.1 p.2 .immediate
        { w with chan.map := map, immediate := w.immediate ++ [call] }.goto t
          (.inside posted.2 :: rest)
  | .inside [] :: rest => some (w.goto t (.leave :: rest))
  | .inside (_ :: calls) :: rest => some (w.goto t (.inside calls :: rest))
  | .leave :: _ => none
  | .purge :: rest =>
      if w.Free then some ({ w with chan.map := w.chan.map.purge }.goto t rest) else none

def step [Fintype T] (w : Traffic T β C) : Action T β C → Option (Traffic T β C)
  | .publish t topic m =>
      if w.mayCall e t then
        some ({ w with
          chan.queue := w.chan.queue ++ [m]
          published := w.published ++ [(topic.getD m.topic, m)] }.goto t
            (.enter w.published.length :: w.stack t))
      else none
  | .execute =>
      match w.place, w.stack e with
      | .idle, [] => some { w with place := .pop 0 }
      | _, _ => none
  | .proceed t => w.proceed limit e t
  | .purgeWait t due =>
      match w.stack t with
      | .leave :: rest => some (w.goto t (if due then .purge :: rest else rest))
      | _ => none
  | .subscribe topic cond cb mode =>
      if w.Free then
        match w.chan.map.subscribe topic cond cb mode with
        | .error _ => some w
        | .ok (_, map) => some { w with chan.map := map }
      else none
  | .unsubscribe key =>
      if w.Free then some { w with chan.map := (w.chan.map.unsubscribe key).2 } else none

end

/-- A post that a callback has made finds no purge due. -/
def Admits (w : Traffic T β C) : Action T β C → Prop
  | .purgeWait t true => (w.stack t).tail = []
  | _ => True

def Action.isPublish : Action T β C → Bool
  | .publish _ _ _ => true
  | _ => false

/-- The steps of calls that are under way. -/
def Action.continues : Action T β C → Bool
  | .proceed _ | .purgeWait _ _ => true
  | _ => false

end Traffic

namespace Channel

variable {β C : Type}

/-- The message that was popped and not posted yet. -/
def Place.inHand : Place β → List (Message β)
  | .post _ m => [m]
  | _ => []

/-- Whether the call of `execute` has popped a message and not returned to the
head of its loop. -/
def Place.popped : Place β → Bool
  | .post _ _ | .call _ | .test _ => true
  | _ => false

end Channel

namespace Traffic

open Channel

variable {T β C : Type} [DecidableEq T] {limit : ℕ} {e : T} {w w' : Traffic T β C}
  {a : Action T β C}

/-! ## What a step can do -/

/-- A step of `execute`, seen from the queue. -/
theorem proceedExecute_cases (h : w.proceedExecute limit e = some w') :
    (w.place.inHand = [] ∧ w.chan.queue = [] ∧ w.place.popped = false ∧ ∃ count, w' =
      { w with place := .idle, executed := w.executed ++ [count] }) ∨
    (∃ count m queue, w.place = .pop count ∧ w.chan.queue = m :: queue ∧ w' =
      { w with chan.queue := queue, place := .post count m }) ∨
    (∃ count m, w.place = .post count m ∧ w' =
      { w with
        chan.map := (w.chan.map.post m .delayed).2
        place := .call (count + (w.chan.map.post m .delayed).1.1)
        delayed := w.delayed ++ [m] }.goto e [.inside (w.chan.map.post m .delayed).1.2]) ∨
    (∃ count, w.place = .call count ∧ w' = { w with place := .test count }) ∨
    (∃ count, w.place = .test count ∧
      (w' = { w with place := .idle, executed := w.executed ++ [count] } ∨
        w' = { w with place := .pop count })) := by
  unfold proceedExecute at h
  cases hplace : w.place with
  | idle => simp [hplace] at h
  | pop count =>
      cases hqueue : w.chan.queue with
      | nil =>
          simp only [hplace, hqueue, Option.some.injEq] at h
          exact .inl ⟨rfl, rfl, rfl, count, h.symm⟩
      | cons m queue =>
          simp only [hplace, hqueue, Option.some.injEq] at h
          exact .inr (.inl ⟨count, m, queue, rfl, rfl, h.symm⟩)
  | post count m =>
      simp only [hplace, Option.some.injEq] at h
      exact .inr (.inr (.inl ⟨count, m, rfl, h.symm⟩))
  | call count =>
      simp only [hplace, Option.some.injEq] at h
      exact .inr (.inr (.inr (.inl ⟨count, rfl, h.symm⟩)))
  | test count =>
      simp only [hplace] at h
      split_ifs at h
      · exact .inr (.inr (.inr (.inr ⟨count, rfl, .inl (Option.some.inj h).symm⟩)))
      · exact .inr (.inr (.inr (.inr ⟨count, rfl, .inr (Option.some.inj h).symm⟩)))

/-- A step of a post. -/
inductive Turns (w : Traffic T β C) : Action T β C → Traffic T β C → Prop
  | enter {t : T} {call : ℕ} {p : Topic × Message β} {rest : List (Frame C)}
      (hstack : w.stack t = .enter call :: rest) (hcall : w.published[call]? = some p) :
      Turns w (.proceed t) ({ w with
        chan.map := (w.chan.map.postAt p.1 p.2 .immediate).2
        immediate := w.immediate ++ [call] }.goto t
          (.inside (w.chan.map.postAt p.1 p.2 .immediate).1.2 :: rest))
  | back {t : T} {c : ℕ × C} {calls : List (ℕ × C)} {rest : List (Frame C)}
      (hstack : w.stack t = .inside (c :: calls) :: rest) :
      Turns w (.proceed t) (w.goto t (.inside calls :: rest))
  | unlock {t : T} {rest : List (Frame C)} (hstack : w.stack t = .inside [] :: rest) :
      Turns w (.proceed t) (w.goto t (.leave :: rest))
  | pass {t : T} {rest : List (Frame C)} (hstack : w.stack t = .leave :: rest) :
      Turns w (.purgeWait t false) (w.goto t rest)
  | due {t : T} {rest : List (Frame C)} (hstack : w.stack t = .leave :: rest) :
      Turns w (.purgeWait t true) (w.goto t (.purge :: rest))
  | purge {t : T} {rest : List (Frame C)} (hstack : w.stack t = .purge :: rest)
      (hfree : w.Free) :
      Turns w (.proceed t) ({ w with chan.map := w.chan.map.purge }.goto t rest)

/-- Posts leave `execute` and its queue alone. -/
theorem Turns.same (h : w.Turns a w') : w'.place = w.place ∧ w'.chan.queue = w.chan.queue ∧
    w'.published = w.published ∧ w'.delayed = w.delayed ∧ w'.executed = w.executed := by
  cases h <;> exact ⟨rfl, rfl, rfl, rfl, rfl⟩

theorem step_cases [Fintype T] (h : w.step limit e a = some w') :
    (∃ t topic m, a = .publish t topic m ∧ w.mayCall e t = true ∧ w' =
      { w with
        chan.queue := w.chan.queue ++ [m]
        published := w.published ++ [(topic.getD m.topic, m)] }.goto t
          (.enter w.published.length :: w.stack t)) ∨
    (a = .execute ∧ w.place = .idle ∧ w.stack e = [] ∧ w' = { w with place := .pop 0 }) ∨
    (a = .proceed e ∧ w.stack e = [] ∧ w.proceedExecute limit e = some w') ∨
    w.Turns a w' ∨
    a.continues = false ∧ a.isPublish = false ∧ ∃ map, w' = { w with chan.map := map } := by
  cases a with
  | publish t topic m =>
      simp only [step] at h
      split_ifs at h with hcall
      exact .inl ⟨t, topic, m, rfl, hcall, (Option.some.inj h).symm⟩
  | execute =>
      simp only [step] at h
      split at h
      next hplace hstack => exact .inr (.inl ⟨rfl, hplace, hstack, (Option.some.inj h).symm⟩)
      · cases h
  | proceed t =>
      simp only [step, proceed] at h
      split at h
      next hstack =>
        split_ifs at h with ht
        subst ht
        exact .inr (.inr (.inl ⟨rfl, hstack, h⟩))
      next hstack =>
        obtain ⟨p, hp, rfl⟩ := Option.map_eq_some_iff.mp h
        exact .inr (.inr (.inr (.inl (.enter hstack hp))))
      next hstack =>
        cases h
        exact .inr (.inr (.inr (.inl (.unlock hstack))))
      next hstack =>
        cases h
        exact .inr (.inr (.inr (.inl (.back hstack))))
      · cases h
      next hstack =>
        split_ifs at h with hfree
        cases h
        exact .inr (.inr (.inr (.inl (.purge hstack hfree))))
  | purgeWait t due =>
      simp only [step] at h
      split at h
      next hstack =>
        cases due with
        | false =>
            cases h
            exact .inr (.inr (.inr (.inl (.pass hstack))))
        | true =>
            cases h
            exact .inr (.inr (.inr (.inl (.due hstack))))
      · cases h
  | subscribe topic cond cb mode =>
      simp only [step] at h
      split_ifs at h
      split at h
      · cases h
        exact .inr (.inr (.inr (.inr ⟨rfl, rfl, w.chan.map, rfl⟩)))
      · cases h
        exact .inr (.inr (.inr (.inr ⟨rfl, rfl, _, rfl⟩)))
  | unsubscribe key =>
      simp only [step] at h
      split_ifs at h
      cases h
      exact .inr (.inr (.inr (.inr ⟨rfl, rfl, _, rfl⟩)))

/-! ## Nothing lost, nothing twice -/

/-- What was pushed is what was posted, what is in the hand of `execute` and what
is queued, in this order. -/
def Delivers (w : Traffic T β C) : Prop :=
  w.published.map (·.2) = w.delayed ++ w.place.inHand ++ w.chan.queue

theorem Delivers.proceedExecute (h : Delivers w) (hstep : w.proceedExecute limit e = some w') :
    Delivers w' := by
  unfold Delivers at h ⊢
  rcases proceedExecute_cases hstep with ⟨hhand, -, -, count, rfl⟩ |
    ⟨count, m, queue, hplace, hqueue, rfl⟩ | ⟨count, m, hplace, rfl⟩ | ⟨count, hplace, rfl⟩ |
    ⟨count, hplace, rfl | rfl⟩
  · rw [hhand] at h
    exact h
  · rw [hplace, hqueue] at h
    simpa [Place.inHand] using h
  · rw [hplace] at h
    simpa [Place.inHand, goto] using h
  · rw [hplace] at h
    exact h
  · rw [hplace] at h
    exact h
  · rw [hplace] at h
    exact h

theorem Delivers.step [Fintype T] (h : Delivers w) (hstep : w.step limit e a = some w') :
    Delivers w' := by
  rcases step_cases hstep with ⟨t, topic, m, -, -, rfl⟩ | ⟨-, hplace, -, rfl⟩ | ⟨-, -, hexecute⟩ |
    hturns | ⟨-, -, map, rfl⟩
  · unfold Delivers at h ⊢
    simp [goto, h]
  · unfold Delivers at h ⊢
    rw [hplace] at h
    exact h
  · exact h.proceedExecute hexecute
  · obtain ⟨hplace, hqueue, hpublished, hdelayed, -⟩ := hturns.same
    unfold Delivers
    rw [hplace, hqueue, hpublished, hdelayed]
    exact h
  · exact h

/-! ## Posts inside of posts -/

/-- All posts but the innermost are in a callback, a post that purges was made by no
callback, and `execute` is in `map_.post` while it has posts. -/
structure Nested (e : T) (w : Traffic T β C) : Prop where
  inner : ∀ t f rest, w.stack t = f :: rest → ∀ g ∈ rest, ∃ c calls, g = .inside (c :: calls)
  outermost : ∀ t rest, w.stack t = .purge :: rest → rest = []
  calling : w.stack e ≠ [] → w.place = .idle ∨ ∃ count, w.place = .call count

/-- Nothing but the stack of one thread changes, and `execute` stays in its place. -/
theorem Nested.goto (h : Nested e w) {t : T} {frames : List (Frame C)}
    (hinner : ∀ f rest, frames = f :: rest → ∀ g ∈ rest, ∃ c calls, g = .inside (c :: calls))
    (houter : ∀ rest, frames = .purge :: rest → rest = [])
    (hcalling : t = e → frames ≠ [] → w.place = .idle ∨ ∃ count, w.place = .call count)
    (hstack : w'.stack = Function.update w.stack t frames) (hplace : w'.place = w.place) :
    Nested e w' := by
  have hother (u : T) (hu : u ≠ t) : w'.stack u = w.stack u := by
    rw [hstack, Function.update_of_ne hu]
  have hself : w'.stack t = frames := by rw [hstack, Function.update_self]
  refine ⟨?_, ?_, ?_⟩
  · intro u f rest hu
    by_cases hut : u = t
    · subst hut
      exact hinner f rest (hself.symm.trans hu)
    · exact h.inner u f rest ((hother u hut).symm.trans hu)
  · intro u rest hu
    by_cases hut : u = t
    · subst hut
      exact houter rest (hself.symm.trans hu)
    · exact h.outermost u rest ((hother u hut).symm.trans hu)
  · intro hne
    rw [hplace]
    by_cases het : e = t
    · refine hcalling het.symm ?_
      rw [← hself, ← het]
      exact hne
    · rw [hother e het] at hne
      exact h.calling hne

/-- A stack with another innermost post. -/
theorem Nested.turn (h : Nested e w) {t : T} {f f' : Frame C} {rest : List (Frame C)}
    (hold : w.stack t = f :: rest) (hpurge : f' = .purge → rest = [])
    (hstack : w'.stack = Function.update w.stack t (f' :: rest)) (hplace : w'.place = w.place) :
    Nested e w' := by
  refine h.goto ?_ ?_ ?_ hstack hplace
  · intro g rest' heq
    obtain ⟨-, rfl⟩ := List.cons.inj heq
    exact h.inner t f rest hold
  · intro rest' heq
    obtain ⟨hf, rfl⟩ := List.cons.inj heq
    exact hpurge hf
  · rintro rfl -
    exact h.calling (by simp [hold])

/-- The innermost post returns. -/
theorem Nested.return (h : Nested e w) {t : T} {f : Frame C} {rest : List (Frame C)}
    (hold : w.stack t = f :: rest) (hstack : w'.stack = Function.update w.stack t rest)
    (hplace : w'.place = w.place) : Nested e w' := by
  refine h.goto ?_ ?_ ?_ hstack hplace
  · rintro g rest' rfl
    intro g' hg'
    exact h.inner t f _ hold g' (List.mem_cons_of_mem g hg')
  · rintro rest' rfl
    obtain ⟨c, calls, heq⟩ := h.inner t f _ hold _ List.mem_cons_self
    cases heq
  · rintro rfl -
    exact h.calling (by simp [hold])

theorem Nested.step [Fintype T] (h : Nested e w) (hadmits : w.Admits a)
    (hstep : w.step limit e a = some w') : Nested e w' := by
  rcases step_cases hstep with ⟨t, topic, m, -, hcall, rfl⟩ | ⟨-, hplace, hempty, rfl⟩ |
    ⟨-, hempty, hexecute⟩ | hturns | ⟨-, -, map, rfl⟩
  · refine @Nested.goto _ _ _ _ e w _ h t _ ?_ ?_ ?_ rfl rfl
    · intro f rest heq g hg
      obtain ⟨-, rfl⟩ := List.cons.inj heq
      unfold mayCall at hcall
      split at hcall
      next hstack =>
        rw [hstack] at hg
        cases hg
      next hstack =>
        rw [hstack] at hg
        rcases List.mem_cons.mp hg with rfl | hg
        · exact ⟨_, _, rfl⟩
        · exact h.inner t _ _ hstack g hg
      · cases hcall
    · intro rest heq
      cases heq
    · rintro rfl -
      by_cases hstack : w.stack t = []
      · left
        rw [mayCall, hstack] at hcall
        cases hidle : w.place with
        | idle => rfl
        | pop _ | post _ _ | call _ | test _ => simp [hidle, Place.isIdle] at hcall
      · exact h.calling hstack
  · exact ⟨h.inner, h.outermost, fun hne ↦ absurd hempty hne⟩
  · rcases proceedExecute_cases hexecute with ⟨-, -, -, count, rfl⟩ | ⟨count, m, queue, -, -, rfl⟩ |
      ⟨count, m, -, rfl⟩ | ⟨count, -, rfl⟩ | ⟨count, -, rfl | rfl⟩
    · exact ⟨h.inner, h.outermost, fun hne ↦ absurd hempty hne⟩
    · exact ⟨h.inner, h.outermost, fun hne ↦ absurd hempty hne⟩
    · have hcalling : Nested e { w with
          chan.map := (w.chan.map.post m .delayed).2
          place := .call (count + (w.chan.map.post m .delayed).1.1)
          delayed := w.delayed ++ [m] } := ⟨h.inner, h.outermost, fun _ ↦ .inr ⟨_, rfl⟩⟩
      refine hcalling.goto ?_ ?_ (fun _ _ ↦ .inr ⟨_, rfl⟩) rfl rfl
      · intro f rest heq g hg
        obtain ⟨-, rfl⟩ := List.cons.inj heq
        cases hg
      · intro rest heq
        cases heq
    · exact ⟨h.inner, h.outermost, fun hne ↦ absurd hempty hne⟩
    · exact ⟨h.inner, h.outermost, fun hne ↦ absurd hempty hne⟩
    · exact ⟨h.inner, h.outermost, fun hne ↦ absurd hempty hne⟩
  · cases hturns with
    | enter hstack => exact h.turn hstack (by simp) rfl rfl
    | back hstack => exact h.turn hstack (by simp) rfl rfl
    | unlock hstack => exact h.turn hstack (by simp) rfl rfl
    | pass hstack => exact h.return hstack rfl rfl
    | due hstack =>
        refine h.turn hstack (fun _ ↦ ?_) rfl rfl
        rw [Admits, hstack] at hadmits
        exact hadmits
    | purge hstack => exact h.return hstack rfl rfl
  · exact ⟨h.inner, h.outermost, h.calling⟩

/-! ## Every publish posts once -/

/-- The calls of `publish` that have pushed and not posted yet. -/
def Pending (w : Traffic T β C) (t : T) (call : ℕ) : Prop :=
  ∃ rest, w.stack t = .enter call :: rest

/-- Every call of `publish` has posted once, or is about to. -/
structure Posts (w : Traffic T β C) : Prop where
  nodup : w.immediate.Nodup
  cover : ∀ call, call < w.published.length ↔ call ∈ w.immediate ∨ ∃ t, w.Pending t call
  apart : ∀ t call, w.Pending t call → call ∉ w.immediate
  once : ∀ t u call, w.Pending t call → w.Pending u call → t = u

omit [DecidableEq T] in
/-- A step that neither pushes nor posts. -/
theorem Posts.same (h : Posts w) (himmediate : w'.immediate = w.immediate)
    (hpublished : w'.published = w.published)
    (hpending : ∀ t call, w'.Pending t call ↔ w.Pending t call) : Posts w' := by
  refine ⟨?_, ?_, ?_, ?_⟩
  · rw [himmediate]
    exact h.nodup
  · intro call
    rw [himmediate, hpublished, h.cover]
    simp only [hpending]
  · intro t call hcall
    rw [himmediate]
    exact h.apart t call ((hpending t call).mp hcall)
  · intro t u call hcall hcall'
    exact h.once t u call ((hpending t call).mp hcall) ((hpending u call).mp hcall')

theorem pending_update {t : T} {frames : List (Frame C)}
    (hstack : w'.stack = Function.update w.stack t frames) (u : T) (call : ℕ) :
    w'.Pending u call ↔
      (u ≠ t ∧ w.Pending u call) ∨ u = t ∧ ∃ rest, frames = .enter call :: rest := by
  rw [Pending, hstack]
  by_cases hu : u = t
  · subst hu
    simp
  · simp [hu, Pending]

/-- The stack of one thread changes, and no `publish` that is about to post stands in it
before or after. -/
theorem Posts.goto (h : Posts w) {t : T} {frames : List (Frame C)}
    (hstack : w'.stack = Function.update w.stack t frames)
    (hold : ∀ call, ¬ w.Pending t call) (hnew : ∀ call rest, frames ≠ .enter call :: rest)
    (himmediate : w'.immediate = w.immediate) (hpublished : w'.published = w.published) :
    Posts w' := by
  refine h.same himmediate hpublished fun u call ↦ ?_
  rw [pending_update hstack]
  constructor
  · rintro (⟨-, hpending⟩ | ⟨-, rest, heq⟩)
    · exact hpending
    · exact absurd heq (hnew call rest)
  · intro hpending
    refine .inl ⟨?_, hpending⟩
    rintro rfl
    exact hold call hpending

omit [DecidableEq T] in
theorem not_pending {t : T} {f : Frame C} {rest : List (Frame C)} (hstack : w.stack t = f :: rest)
    (hf : ∀ call, f ≠ .enter call) (call : ℕ) : ¬ w.Pending t call := by
  rintro ⟨rest', heq⟩
  rw [hstack] at heq
  exact hf call (List.cons.inj heq).1

/-- A new call of `publish` pushes. -/
theorem Posts.publish (h : Posts w) {t : T} {p : Topic × Message β}
    (hold : ∀ call, ¬ w.Pending t call)
    (hstack : w'.stack = Function.update w.stack t (.enter w.published.length :: w.stack t))
    (himmediate : w'.immediate = w.immediate) (hpublished : w'.published = w.published ++ [p]) :
    Posts w' := by
  have hpending (u : T) (call : ℕ) :
      w'.Pending u call ↔ w.Pending u call ∨ u = t ∧ call = w.published.length := by
    rw [pending_update hstack]
    constructor
    · rintro (⟨-, hp⟩ | ⟨hu, rest, heq⟩)
      · exact .inl hp
      · refine .inr ⟨hu, ?_⟩
        have hframe := (List.cons.inj heq).1
        exact (Frame.enter.inj hframe).symm
    · rintro (hp | ⟨hu, rfl⟩)
      · refine .inl ⟨?_, hp⟩
        rintro rfl
        exact hold call hp
      · exact .inr ⟨hu, _, rfl⟩
  -- the number of the new call is nobody's
  have hfresh (u : T) : ¬ w.Pending u w.published.length := by
    intro hp
    exact Nat.lt_irrefl _ ((h.cover _).mpr (.inr ⟨u, hp⟩))
  have hunposted : w.published.length ∉ w.immediate := by
    intro hmem
    exact Nat.lt_irrefl _ ((h.cover _).mpr (.inl hmem))
  refine ⟨?_, ?_, ?_, ?_⟩
  · rw [himmediate]
    exact h.nodup
  · intro call
    simp only [himmediate, hpublished, hpending, List.length_append, List.length_singleton]
    rw [Nat.lt_succ_iff_lt_or_eq, h.cover]
    constructor
    · rintro ((hmem | ⟨u, hp⟩) | rfl)
      · exact .inl hmem
      · exact .inr ⟨u, .inl hp⟩
      · exact .inr ⟨t, .inr ⟨rfl, rfl⟩⟩
    · rintro (hmem | ⟨u, hp | ⟨-, rfl⟩⟩)
      · exact .inl (.inl hmem)
      · exact .inl (.inr ⟨u, hp⟩)
      · exact .inr rfl
  · intro u call hp
    rw [himmediate]
    rcases (hpending u call).mp hp with hp | ⟨-, rfl⟩
    · exact h.apart u call hp
    · exact hunposted
  · intro u v call hu hv
    rcases (hpending u call).mp hu with hu | ⟨rfl, rfl⟩ <;>
      rcases (hpending v _).mp hv with hv | ⟨rfl, hcall⟩
    · exact h.once u v call hu hv
    · rw [hcall] at hu
      exact absurd hu (hfresh u)
    · exact absurd hv (hfresh v)
    · rfl

/-- A call of `publish` posts. -/
theorem Posts.enter (h : Posts w) {t : T} {call : ℕ} (hcall : w.Pending t call)
    {frames : List (Frame C)} (hnew : ∀ call rest, frames ≠ .enter call :: rest)
    (hstack : w'.stack = Function.update w.stack t frames)
    (himmediate : w'.immediate = w.immediate ++ [call]) (hpublished : w'.published = w.published) :
    Posts w' := by
  have hpending (u : T) (n : ℕ) : w'.Pending u n ↔ u ≠ t ∧ w.Pending u n := by
    rw [pending_update hstack]
    constructor
    · rintro (hp | ⟨-, rest, heq⟩)
      · exact hp
      · exact absurd heq (hnew n rest)
    · exact .inl
  have hsame (n : ℕ) (hn : w.Pending t n) : n = call := by
    obtain ⟨rest, heq⟩ := hcall
    obtain ⟨rest', heq'⟩ := hn
    rw [heq] at heq'
    exact (Frame.enter.inj (List.cons.inj heq').1).symm
  refine ⟨?_, ?_, ?_, ?_⟩
  · rw [himmediate, ← List.concat_eq_append]
    exact h.nodup.concat (h.apart t call hcall)
  · intro n
    simp only [himmediate, hpublished, hpending, List.mem_append, List.mem_singleton]
    rw [h.cover]
    constructor
    · rintro (hmem | ⟨u, hp⟩)
      · exact .inl (.inl hmem)
      · by_cases hu : u = t
        · subst hu
          exact .inl (.inr (hsame n hp))
        · exact .inr ⟨u, hu, hp⟩
    · rintro ((hmem | rfl) | ⟨u, -, hp⟩)
      · exact .inl hmem
      · exact .inr ⟨t, hcall⟩
      · exact .inr ⟨u, hp⟩
  · intro u n hp
    obtain ⟨hu, hp⟩ := (hpending u n).mp hp
    rw [himmediate, List.mem_append, List.mem_singleton]
    rintro (hmem | rfl)
    · exact h.apart u n hp hmem
    · exact hu (h.once u t n hp hcall)
  · intro u v n hu hv
    exact h.once u v n ((hpending u n).mp hu).2 ((hpending v n).mp hv).2

theorem Posts.step [Fintype T] (h : Posts w) (hnested : Nested e w)
    (hstep : w.step limit e a = some w') : Posts w' := by
  -- a post that returns uncovers a callback, not a call of `publish` about to post
  have hinner (t : T) (f : Frame C) (rest : List (Frame C)) (hstack : w.stack t = f :: rest)
      (call : ℕ) (rest' : List (Frame C)) : rest ≠ .enter call :: rest' := by
    rintro rfl
    obtain ⟨c, calls, heq⟩ := hnested.inner t f _ hstack _ List.mem_cons_self
    cases heq
  rcases step_cases hstep with ⟨t, topic, m, -, hcall, rfl⟩ | ⟨-, -, -, rfl⟩ |
    ⟨-, hempty, hexecute⟩ | hturns | ⟨-, -, map, rfl⟩
  · refine @Posts.publish _ _ _ _ w _ h t _ ?_ rfl rfl rfl
    rintro call ⟨rest, heq⟩
    rw [mayCall, heq] at hcall
    cases hcall
  · exact h.same rfl rfl fun _ _ ↦ Iff.rfl
  · have hidle (call : ℕ) : ¬ w.Pending e call := by
      rintro ⟨rest, heq⟩
      rw [hempty] at heq
      cases heq
    rcases proceedExecute_cases hexecute with ⟨-, -, -, count, rfl⟩ | ⟨count, m, queue, -, -, rfl⟩ |
      ⟨count, m, -, rfl⟩ | ⟨count, -, rfl⟩ | ⟨count, -, rfl | rfl⟩
    · exact h.same rfl rfl fun _ _ ↦ Iff.rfl
    · exact h.same rfl rfl fun _ _ ↦ Iff.rfl
    · exact @Posts.goto _ _ _ _ w _ h e _ rfl hidle (by simp) rfl rfl
    · exact h.same rfl rfl fun _ _ ↦ Iff.rfl
    · exact h.same rfl rfl fun _ _ ↦ Iff.rfl
    · exact h.same rfl rfl fun _ _ ↦ Iff.rfl
  · cases hturns with
    | enter hstack => exact h.enter ⟨_, hstack⟩ (by simp) rfl rfl rfl
    | back hstack => exact h.goto rfl (not_pending hstack (by simp)) (by simp) rfl rfl
    | unlock hstack => exact h.goto rfl (not_pending hstack (by simp)) (by simp) rfl rfl
    | pass hstack =>
        exact h.goto rfl (not_pending hstack (by simp)) (hinner _ _ _ hstack) rfl rfl
    | due hstack => exact h.goto rfl (not_pending hstack (by simp)) (by simp) rfl rfl
    | purge hstack =>
        exact h.goto rfl (not_pending hstack (by simp)) (hinner _ _ _ hstack) rfl rfl
  · exact h.same rfl rfl fun _ _ ↦ Iff.rfl

/-! ## The queue runs empty -/

/-- Without new messages every call of `execute` that returns has posted one at
least, or has left nothing. -/
def Drains (total : ℕ) (w : Traffic T β C) : Prop :=
  w.chan.queue = [] ∨
    w.chan.queue.length + w.executed.length + (if w.place.popped then 1 else 0) ≤ total

theorem Drains.proceedExecute {total : ℕ} (h : Drains total w)
    (hstep : w.proceedExecute limit e = some w') : Drains total w' := by
  rcases h with hempty | hcount
  · left
    rcases proceedExecute_cases hstep with ⟨-, -, -, count, rfl⟩ | ⟨count, m, queue, -, hqueue, -⟩ |
      ⟨count, m, -, rfl⟩ | ⟨count, -, rfl⟩ | ⟨count, -, rfl | rfl⟩
    · exact hempty
    · simp [hempty] at hqueue
    · exact hempty
    · exact hempty
    · exact hempty
    · exact hempty
  · rcases proceedExecute_cases hstep with ⟨-, hqueue, -, count, rfl⟩ |
      ⟨count, m, queue, hplace, hqueue, rfl⟩ | ⟨count, m, hplace, rfl⟩ | ⟨count, hplace, rfl⟩ |
      ⟨count, hplace, rfl | rfl⟩
    · exact .inl hqueue
    · right
      simp only [hplace, hqueue, Place.popped, List.length_cons] at hcount ⊢
      simp at hcount ⊢
      omega
    · right
      simpa only [hplace, Place.popped, goto] using hcount
    · right
      simpa only [hplace, Place.popped] using hcount
    · right
      simp only [hplace, Place.popped, List.length_append, List.length_singleton] at hcount ⊢
      simp at hcount ⊢
      omega
    · right
      simp only [hplace, Place.popped] at hcount ⊢
      simp at hcount ⊢
      omega

theorem Drains.step [Fintype T] {total : ℕ} (h : Drains total w) (ha : a.isPublish = false)
    (hstep : w.step limit e a = some w') : Drains total w' := by
  rcases step_cases hstep with ⟨t, topic, m, rfl, -, -⟩ | ⟨-, hplace, -, rfl⟩ | ⟨-, -, hexecute⟩ |
    hturns | ⟨-, -, map, rfl⟩
  · simp [Action.isPublish] at ha
  · apply h.imp_right
    intro hcount
    rw [hplace] at hcount
    exact hcount
  · exact h.proceedExecute hexecute
  · obtain ⟨hplace, hqueue, -, -, hexecuted⟩ := hturns.same
    unfold Drains
    rw [hplace, hqueue, hexecuted]
    exact h
  · exact h

end Traffic

namespace Channel

variable {β C : Type}

end Channel

namespace Traffic

open Channel

variable {T β C : Type} [DecidableEq T] {limit : ℕ} {e : T} {w w' : Traffic T β C}
  {a : Action T β C}

section

variable [Fintype T]

theorem sum_update (f : List (Frame C) → ℕ) (stack : T → List (Frame C)) (t : T)
    (frames : List (Frame C)) :
    (∑ u, f (Function.update stack t frames u)) + f (stack t) = (∑ u, f (stack u)) + f frames := by
  have hrest : ∑ u ∈ Finset.univ.erase t, f (Function.update stack t frames u) =
      ∑ u ∈ Finset.univ.erase t, f (stack u) := by
    apply Finset.sum_congr rfl
    intro u hu
    rw [Function.update_of_ne (Finset.ne_of_mem_erase hu)]
  rw [← Finset.add_sum_erase _ (fun u ↦ f (Function.update stack t frames u)) (Finset.mem_univ t),
    ← Finset.add_sum_erase _ (fun u ↦ f (stack u)) (Finset.mem_univ t), hrest,
    Function.update_self]
  omega

/-- The first subscription of all. -/
def subscribed (seq : Sequence) (topic : Topic) (cb : C) (mode : SubMode) : Traffic T β C :=
  let m : SubMap β C := .initial
  let s : Sub β C := { key := 1, topic := topic, cond := fun _ ↦ true, cb := cb, mode := mode }
  let m := { m with seq := seq, allSubs := m.allSubs.emplace 1 s }
  { (initial : Traffic T β C) with
    chan.map := m.setEntries mode ((m.entries mode).subscribeMode s) }

theorem step_subscribe (hfree : w.Free) {topic : Topic} {cond : Message β → Bool} {cb : C}
    {mode : SubMode} {key : ℕ} {map : SubMap β C}
    (h : w.chan.map.subscribe topic cond cb mode = .ok (key, map)) :
    step limit e w (.subscribe topic cond cb mode) = some { w with chan.map := map } := by
  rw [step, if_pos hfree, h]

/-- The thread wants the lock alone that it has shared itself. -/
def Stuck (w : Traffic T β C) (t : T) : Prop :=
  ∃ rest, w.stack t = .purge :: rest ∧ ∃ f ∈ rest, f.isInside = true

omit [Fintype T] in
/-- A post that a callback has made purges: just what `Admits` leaves out. -/
theorem stuck_of_purgeWait (h : Nested e w) {t : T} {rest : List (Frame C)}
    (hstack : w.stack t = .leave :: rest) (hrest : rest ≠ []) :
    (w.goto t (.purge :: rest)).Stuck t := by
  refine ⟨rest, by simp [goto], ?_⟩
  obtain ⟨f, hf⟩ := List.exists_mem_of_ne_nil rest hrest
  obtain ⟨c, calls, rfl⟩ := h.inner t _ rest hstack f hf
  exact ⟨_, hf, rfl⟩

omit [Fintype T] in
theorem Stuck.turns {t : T} (h : w.Stuck t) (hturns : w.Turns a w') : w'.stack t = w.stack t := by
  obtain ⟨rest, hstack, f, hf, hinside⟩ := h
  -- another thread's post; the one that is stuck is not free to purge
  have hother {u : T} {g : Frame C} {rest' : List (Frame C)} (hu : w.stack u = g :: rest')
      (hg : g ≠ .purge) : t ≠ u := by
    rintro rfl
    rw [hstack] at hu
    exact hg (List.cons.inj hu).1.symm
  cases hturns with
  | enter hu => exact Function.update_of_ne (hother hu (by simp)) _ _
  | back hu => exact Function.update_of_ne (hother hu (by simp)) _ _
  | unlock hu => exact Function.update_of_ne (hother hu (by simp)) _ _
  | pass hu => exact Function.update_of_ne (hother hu (by simp)) _ _
  | due hu => exact Function.update_of_ne (hother hu (by simp)) _ _
  | purge hu hfree =>
      have hnot := hfree t f (by simp [hstack, hf])
      rw [hinside] at hnot
      cases hnot

/-- No step frees the thread that executes, and it posts no more. -/
theorem Stuck.step (h : w.Stuck e) (hstep : w.step limit e a = some w') :
    w'.Stuck e ∧ w'.delayed = w.delayed := by
  obtain ⟨rest, hstack, hinside⟩ := h
  rcases step_cases hstep with ⟨t, topic, m, -, hcall, rfl⟩ | ⟨-, -, hempty, -⟩ |
    ⟨-, hempty, -⟩ | hturns | ⟨-, -, map, rfl⟩
  · have hne : e ≠ t := by
      rintro rfl
      rw [mayCall, hstack] at hcall
      cases hcall
    exact ⟨⟨rest, (Function.update_of_ne hne _ _).trans hstack, hinside⟩, rfl⟩
  · rw [hstack] at hempty
    cases hempty
  · rw [hstack] at hempty
    cases hempty
  · have hsame := Stuck.turns ⟨rest, hstack, hinside⟩ hturns
    exact ⟨⟨rest, hsame.trans hstack, hinside⟩, hturns.same.2.2.2.1⟩
  · exact ⟨⟨rest, hstack, hinside⟩, rfl⟩

theorem Stuck.reaches {ok : Traffic T β C → Action T β C → Prop} (h : w.Stuck e)
    (hreach : Reaches (Traffic.step limit e) ok w w') : w'.delayed = w.delayed := by
  have hinv : w'.Stuck e ∧ w'.delayed = w.delayed :=
    @Reaches.invariant _ _ _ _ (fun w' ↦ w'.Stuck e ∧ w'.delayed = w.delayed) _ _ hreach
      ⟨h, rfl⟩ fun _ _ _ hs _ hstep ↦
        ⟨(hs.1.step hstep).1, (hs.1.step hstep).2.trans hs.2⟩
  exact hinv.2

end

end Traffic

end WiseKernel.Core
