import Mathlib.Algebra.Group.Int.Defs
import WiseKernel.Lib.Runs
import WiseKernel.Lib.Table

/-!
# The channel of the client

`Channel.cs` keeps a list of subscriptions for each topic, an index from ids to
topics, and a `Sequence` of ids.  `Unsubscribe` gives the id back to the sequence
in any case, but never takes it out of the index; and `Subscribe` has already
listed the new subscription when `indexTopic.Add` throws because it finds the id
there.  A channel is right as long as no id comes a second time.
-/

namespace WiseKernel.Client.Detail

open WiseKernel.Lib

inductive Exception
  /-- `ArgumentOutOfRangeException`, from `Reserve` -/
  | argumentOutOfRange
  /-- `InvalidOperationException`, from `Dequeue` of an empty queue -/
  | invalidOperation
  /-- `ArgumentException`, from `Add` of a key that is there -/
  | argument
  deriving DecidableEq, Repr

/-! ## Ids -/

/-- `int.MaxValue` -/
def intMaxValue : ℤ := 2 ^ 31 - 1

structure Sequence where
  pool : List ℤ := []
  current : ℤ := 0
  deriving DecidableEq, Repr

namespace Sequence

/-- The rounds of `Reserve`. -/
def reserve : ℕ → Sequence → Except Exception Unit × Sequence
  | 0, s => (.ok (), s)
  | n + 1, s =>
      if s.current = intMaxValue then (.error .argumentOutOfRange, s)
      else reserve n ⟨s.pool ++ [s.current + 1], s.current + 1⟩

def dequeue (s : Sequence) : Except Exception ℤ × Sequence :=
  match s.pool with
  | [] => (.error .invalidOperation, s)
  | id :: rest => (.ok id, { s with pool := rest })

def next (s : Sequence) : Except Exception ℤ × Sequence :=
  if s.pool.length = 0 then
    match s.reserve 16 with
    | (.error e, s) => (.error e, s)
    | (.ok (), s) => s.dequeue
  else s.dequeue

def release (s : Sequence) (id : ℤ) : Sequence := { s with pool := s.pool ++ [id] }

end Sequence

/-! ## Subscriptions -/

structure Topic where
  key : UInt32
  deriving DecidableEq, Repr

/-- `Message` of the client, with what its class has besides the topic. -/
structure Message (B : Type) where
  topic : Topic
  body : B
  deriving DecidableEq, Repr

/-- `Token`; `m` may be null. -/
structure Token (B : Type) where
  key : ℤ
  m : Option (Message B)
  deriving DecidableEq, Repr

def Token.valid {B : Type} (t : Token B) : Bool := t.key > 0 && t.m.isSome

structure Subscription (H : Type) where
  id : ℤ
  handler : H
  deriving DecidableEq, Repr

structure Channel (H : Type) where
  subscriptions : Table Topic (List (Subscription H)) := ∅
  indexTopic : Table ℤ Topic := ∅
  sequence : Sequence := {}

namespace Channel

variable {H B : Type}

/-- The loop of `Post`: the handlers that are invoked.  One that throws, as
`returns` tells, ends it. -/
def invokeAll (returns : H → Message B → Bool) (m : Message B) :
    List (Subscription H) → List H
  | [] => []
  | sub :: subs => sub.handler :: if returns sub.handler m then invokeAll returns m subs else []

def post (returns : H → Message B → Bool) (ch : Channel H) (m : Message B) : List H :=
  match ch.subscriptions.get? m.topic with
  | none => []
  | some subs => invokeAll returns m subs

/-- What `Post` returns, unless a handler throws. -/
def postedCount (returns : H → Message B → Bool) (ch : Channel H) (m : Message B) : Option ℕ :=
  if (ch.post returns m).all fun handler ↦ returns handler m then some (ch.post returns m).length
  else none

/-- The lists with a new subscription behind the others to its topic. -/
def enlist (subscriptions : Table Topic (List (Subscription H))) (topic : Topic)
    (sub : Subscription H) : Table Topic (List (Subscription H)) :=
  match subscriptions.get? topic with
  | some subs => subscriptions.insert topic (subs ++ [sub])
  | none => subscriptions.insert topic [sub]

/-- `Subscribe`, up to the token, which has the id. -/
def subscribe (ch : Channel H) (topic : Topic) (handler : H) :
    Except Exception ℤ × Channel H :=
  match ch.sequence.next with
  | (.error e, sequence) => (.error e, { ch with sequence := sequence })
  | (.ok id, sequence) =>
      let subscriptions := enlist ch.subscriptions topic ⟨id, handler⟩
      if (ch.indexTopic.get? id).isSome then
        (.error .argument, ⟨subscriptions, ch.indexTopic, sequence⟩)
      else (.ok id, ⟨subscriptions, ch.indexTopic.insert id topic, sequence⟩)

/-- `RemoveAt` of the first subscription with the id. -/
def removeById (id : ℤ) (subs : List (Subscription H)) : List (Subscription H) :=
  subs.eraseP fun sub ↦ sub.id = id

/-- The private `Unsubscribe`. -/
def unsubscribeId (ch : Channel H) (id : ℤ) : Bool × Channel H :=
  match ch.indexTopic.get? id with
  | none => (false, { ch with sequence := ch.sequence.release id })
  | some topic =>
      match ch.subscriptions.get? topic with
      | none => (false, { ch with sequence := ch.sequence.release id })
      | some subs =>
          (subs.any fun sub ↦ sub.id = id,
            { ch with
              subscriptions := ch.subscriptions.insert topic (removeById id subs)
              sequence := ch.sequence.release id })

def unsubscribe (ch : Channel H) (token : Token B) : Bool × Channel H :=
  if token.valid then ch.unsubscribeId token.key else (false, ch)

/-- The subscriptions that `Post` goes through. -/
def listed (ch : Channel H) (topic : Topic) : List (Subscription H) :=
  (ch.subscriptions.get? topic).getD []

end Channel

/-! ## One call -/

namespace Sequence

variable {s : Sequence}

/-- Below the limit every round of `Reserve` puts one id into the pool. -/
theorem reserve_of_le {n : ℕ} (h : s.current + n ≤ intMaxValue) :
    ∃ ids s', s.reserve n = (.ok (), s') ∧ s'.pool = s.pool ++ ids ∧
      s'.current = s.current + n := by
  induction n generalizing s with
  | zero => exact ⟨[], s, rfl, by simp, by simp⟩
  | succ n ih =>
      have hne : s.current ≠ intMaxValue := by omega
      obtain ⟨ids, s', hreserve, hpool, hcurrent⟩ := @ih ⟨s.pool ++ [s.current + 1], s.current + 1⟩
        (show s.current + 1 + n ≤ intMaxValue by omega)
      refine ⟨(s.current + 1) :: ids, s', ?_, ?_, ?_⟩
      · rw [reserve, if_neg hne, hreserve]
      · rw [hpool, List.append_assoc, List.singleton_append]
      · change s'.current = s.current + 1 + n at hcurrent
        omega

theorem reserve_of_lt {n : ℕ} (hle : s.current ≤ intMaxValue) (h : intMaxValue < s.current + n) :
    ∃ s', s.reserve n = (.error .argumentOutOfRange, s') ∧ s'.current = intMaxValue := by
  induction n generalizing s with
  | zero => omega
  | succ n ih =>
      rw [reserve]
      split_ifs with hmax
      · exact ⟨s, rfl, hmax⟩
      · apply ih
        · change s.current + 1 ≤ intMaxValue
          omega
        · change intMaxValue < s.current + 1 + n
          omega

theorem next_cons {id : ℤ} {rest : List ℤ} (h : s.pool = id :: rest) :
    s.next = (.ok id, { s with pool := rest }) := by
  simp [next, dequeue, h]

theorem next_reserve (hpool : s.pool = []) (h : s.current + 16 ≤ intMaxValue) :
    ∃ s', s.next = (.ok (s.current + 1), s') ∧ s'.current = s.current + 16 := by
  have hne : s.current ≠ intMaxValue := by omega
  obtain ⟨ids, s', hreserve, hids, hcurrent⟩ := @reserve_of_le ⟨[s.current + 1], s.current + 1⟩ 15
    (show s.current + 1 + (15 : ℕ) ≤ intMaxValue by omega)
  have hfirst : s.reserve 16 = (.ok (), s') := by
    rw [reserve, if_neg hne, hpool, List.nil_append, hreserve]
  refine ⟨{ s' with pool := ids }, ?_, ?_⟩
  · simp only [next, hpool, List.length_nil, if_true, hfirst, dequeue, hids,
      List.singleton_append]
  · change s'.current = s.current + 1 + (15 : ℕ) at hcurrent
    change s'.current = _
    omega

theorem next_exhausted (hpool : s.pool = []) (hle : s.current ≤ intMaxValue)
    (h : intMaxValue < s.current + 16) :
    ∃ s', s.next = (.error .argumentOutOfRange, s') ∧ s'.current = intMaxValue := by
  obtain ⟨s', hreserve, hcurrent⟩ := @reserve_of_lt s 16 hle h
  refine ⟨s', ?_, hcurrent⟩
  simp only [next, hpool, List.length_nil, if_true, hreserve]

end Sequence

namespace Channel

variable {H B : Type} {ch : Channel H}

theorem getD_enlist (subscriptions : Table Topic (List (Subscription H))) (topic t : Topic)
    (sub : Subscription H) : ((enlist subscriptions topic sub).get? t).getD [] =
      (subscriptions.get? t).getD [] ++ if t = topic then [sub] else [] := by
  rw [enlist]
  by_cases ht : t = topic
  · subst ht
    cases subscriptions.get? t <;> simp [Table.get?_insert]
  · cases subscriptions.get? topic <;> simp [Table.get?_insert, ht]

theorem post_eq (returns : H → Message B → Bool) (m : Message B) :
    ch.post returns m = invokeAll returns m (ch.listed m.topic) := by
  rw [post, listed]
  cases ch.subscriptions.get? m.topic <;> rfl

theorem invokeAll_prefix (returns : H → Message B → Bool) (m : Message B)
    (subs : List (Subscription H)) :
    invokeAll returns m subs <+: subs.map Subscription.handler := by
  induction subs with
  | nil => exact List.prefix_rfl
  | cons sub subs ih =>
      rw [invokeAll, List.map_cons, List.prefix_cons_inj]
      split_ifs
      · exact ih
      · exact List.nil_prefix

theorem invokeAll_of_returns {returns : H → Message B → Bool} {m : Message B}
    {subs : List (Subscription H)}
    (h : ∀ handler ∈ subs.map Subscription.handler, returns handler m = true) :
    invokeAll returns m subs = subs.map Subscription.handler := by
  induction subs with
  | nil => rfl
  | cons sub subs ih =>
      rw [List.map_cons, List.forall_mem_cons] at h
      rw [invokeAll, if_pos h.1, ih h.2, List.map_cons]

/-- With an id that the index does not have, the subscription is added. -/
theorem subscribe_new {id : ℤ} {sequence : Sequence} (topic : Topic) (handler : H)
    (hnext : ch.sequence.next = (.ok id, sequence)) (hindex : ch.indexTopic.get? id = none) :
    ch.subscribe topic handler = (.ok id,
      ⟨enlist ch.subscriptions topic ⟨id, handler⟩, ch.indexTopic.insert id topic, sequence⟩) := by
  simp [subscribe, hnext, hindex]

/-- With an id from the index, it is listed all the same. -/
theorem subscribe_stale {id : ℤ} {sequence : Sequence} (topic : Topic) (handler : H)
    (hnext : ch.sequence.next = (.ok id, sequence)) (hindex : ch.indexTopic.get? id ≠ none) :
    ch.subscribe topic handler = (.error .argument,
      ⟨enlist ch.subscriptions topic ⟨id, handler⟩, ch.indexTopic, sequence⟩) := by
  simp [subscribe, hnext, Option.isSome_iff_ne_none.mpr hindex]

theorem subscribe_exhausted {e : Exception} {sequence : Sequence} (topic : Topic) (handler : H)
    (hnext : ch.sequence.next = (.error e, sequence)) :
    ch.subscribe topic handler = (.error e, { ch with sequence := sequence }) := by
  simp [subscribe, hnext]

theorem unsubscribeId_none {id : ℤ} (h : ch.indexTopic.get? id = none) :
    ch.unsubscribeId id = (false, { ch with sequence := ch.sequence.release id }) := by
  simp [unsubscribeId, h]

/-- `Unsubscribe` looks through the list of the topic that the index has. -/
theorem unsubscribeId_fst {id : ℤ} {topic : Topic} (h : ch.indexTopic.get? id = some topic) :
    (ch.unsubscribeId id).1 = (ch.listed topic).any fun sub ↦ sub.id = id := by
  simp only [unsubscribeId, h, listed]
  cases ch.subscriptions.get? topic <;> rfl

theorem listed_unsubscribeId {id : ℤ} {topic : Topic} (h : ch.indexTopic.get? id = some topic)
    (t : Topic) : (ch.unsubscribeId id).2.listed t =
      if t = topic then removeById id (ch.listed t) else ch.listed t := by
  simp only [unsubscribeId, h]
  cases hsubs : ch.subscriptions.get? topic with
  | none =>
      simp only [listed]
      split_ifs with ht
      · rw [ht, hsubs]
        rfl
      · rfl
  | some subs =>
      simp only [listed, Table.get?_insert]
      split_ifs with ht
      · rw [ht, hsubs]
        rfl
      · rfl

@[simp] theorem unsubscribeId_indexTopic {id : ℤ} :
    (ch.unsubscribeId id).2.indexTopic = ch.indexTopic := by
  rw [unsubscribeId]
  split
  · rfl
  · split <;> rfl

@[simp] theorem unsubscribeId_current {id : ℤ} :
    (ch.unsubscribeId id).2.sequence.current = ch.sequence.current := by
  rw [unsubscribeId]
  split
  · rfl
  · split <;> rfl

theorem removeById_eq_filter {id : ℤ} {subs : List (Subscription H)}
    (h : (subs.map Subscription.id).Nodup) :
    removeById id subs = subs.filter fun sub ↦ sub.id ≠ id := by
  induction subs with
  | nil => rfl
  | cons sub subs ih =>
      rw [List.map_cons, List.nodup_cons] at h
      by_cases hid : sub.id = id
      · subst hid
        have hrest : ∀ other ∈ subs, other.id ≠ sub.id := by
          intro other hother heq
          exact h.1 (heq ▸ List.mem_map_of_mem hother)
        rw [removeById, List.eraseP_cons_of_pos (by simp), List.filter_cons_of_neg (by simp),
          List.filter_eq_self.mpr fun other hother ↦ by simpa using hrest other hother]
      · rw [removeById, List.eraseP_cons_of_neg (by simpa using hid),
          List.filter_cons_of_pos (by simpa using hid), ← ih h.2, removeById]

end Channel

/-! ## Histories -/

/-- A subscription that lasts. -/
structure Live (H : Type) where
  id : ℤ
  topic : Topic
  handler : H
  deriving DecidableEq, Repr

def Live.subscription {H : Type} (s : Live H) : Subscription H := ⟨s.id, s.handler⟩

/-- A call on the channel. -/
inductive Call (H B : Type)
  | subscribe (m : Message B) (handler : H)
  | unsubscribe (token : Token B)
  | post (m : Message B)
  deriving DecidableEq, Repr

/-- The channel with the live subscriptions in their order: those that
`Subscribe` returned a token for and whose id no valid token was used for since. -/
structure History (H : Type) where
  channel : Channel H := {}
  live : List (Live H) := []

namespace History

variable {H B : Type}

def initial : History H := {}

/-- The live subscriptions to a topic. -/
def subscribed (live : List (Live H)) (topic : Topic) : List (Subscription H) :=
  (live.filter fun s ↦ s.topic = topic).map Live.subscription

def step (h : History H) : Call H B → History H
  | .subscribe m handler =>
      match h.channel.subscribe m.topic handler with
      | (.ok id, channel) => ⟨channel, h.live ++ [⟨id, m.topic, handler⟩]⟩
      | (.error _, channel) => { h with channel := channel }
  | .unsubscribe token =>
      ⟨(h.channel.unsubscribe token).2,
        if token.valid then h.live.filter fun s ↦ s.id ≠ token.key else h.live⟩
  | .post _ => h

/-- What is asked of `Subscribe`. -/
structure Subscribes (h : History H) (m : Message B) (handler : H) : Prop where
  succeeds : h.live.length < intMaxValue →
    ∃ id, (h.channel.subscribe m.topic handler).1 = .ok id
  fresh : ∀ id, (h.channel.subscribe m.topic handler).1 = .ok id → ∀ s ∈ h.live, s.id ≠ id
  /-- if it throws, `Post` invokes the same handlers as before -/
  unchanged : ∀ e, (h.channel.subscribe m.topic handler).1 = .error e →
    ∀ (returns : H → Message B → Bool) (m' : Message B),
      (h.channel.subscribe m.topic handler).2.post returns m' = h.channel.post returns m'

/-- What is asked of `Unsubscribe`. -/
structure Unsubscribes (h : History H) (token : Token B) : Prop where
  result : (h.channel.unsubscribe token).1 = true ↔
    token.valid = true ∧ ∃ s ∈ h.live, s.id = token.key
  /-- it removes the subscription of the token and nothing else -/
  removes : ∀ topic, (h.channel.unsubscribe token).2.listed topic =
    if (h.channel.unsubscribe token).1 then
      (h.channel.listed topic).filter fun sub ↦ sub.id ≠ token.key
    else h.channel.listed topic

/-- What is asked of `Post`: the handlers of the live subscriptions in order, all
of them if they return. -/
structure Posts (h : History H) (m : Message B) : Prop where
  inOrder : ∀ returns, h.channel.post returns m <+:
    (subscribed h.live m.topic).map Subscription.handler
  all : ∀ returns : H → Message B → Bool,
    (∀ handler ∈ (subscribed h.live m.topic).map Subscription.handler, returns handler m = true) →
    h.channel.post returns m = (subscribed h.live m.topic).map Subscription.handler

def WellBehaved (h : History H) : Call H B → Prop
  | .subscribe m handler => Subscribes h m handler
  | .unsubscribe token => Unsubscribes h token
  | .post m => Posts h m

/-- `Subscribe` gets an id that the index does not have; or the ids are used up
and as many subscriptions are live. -/
def NewId (h : History H) : Call H B → Prop
  | .subscribe _ _ =>
      match h.channel.sequence.pool with
      | [] =>
          if h.channel.sequence.current + 16 ≤ intMaxValue then
            h.channel.indexTopic.get? (h.channel.sequence.current + 1) = none
          else intMaxValue ≤ h.live.length
      | id :: _ => h.channel.indexTopic.get? id = none
  | .unsubscribe _ => True
  | .post _ => True

/-- The lists have the live subscriptions, and the index has their ids. -/
structure Inv (h : History H) : Prop where
  current : h.channel.sequence.current ≤ intMaxValue
  listed : ∀ topic, h.channel.listed topic = subscribed h.live topic
  nodup : (h.live.map Live.id).Nodup
  index : ∀ s ∈ h.live, h.channel.indexTopic.get? s.id = some s.topic

theorem inv_initial : Inv (initial : History H) where
  current := show (0 : ℤ) ≤ intMaxValue by decide
  listed _ := rfl
  nodup := List.nodup_nil
  index _ hs := absurd hs List.not_mem_nil

section

variable {h : History H}

/-! ### Subscribe -/

theorem Inv.notMem_of_index (hinv : Inv h) {id : ℤ} (hindex : h.channel.indexTopic.get? id = none) :
    ∀ s ∈ h.live, s.id ≠ id := by
  rintro s hs rfl
  rw [hinv.index s hs] at hindex
  simp at hindex

theorem Inv.subscribes (hinv : Inv h) {id : ℤ} {sequence : Sequence} (m : Message B) (handler : H)
    (hnext : h.channel.sequence.next = (.ok id, sequence))
    (hindex : h.channel.indexTopic.get? id = none) : Subscribes h m handler := by
  have hcall := Channel.subscribe_new m.topic handler hnext hindex
  refine ⟨fun _ ↦ ⟨id, by rw [hcall]⟩, fun id' hid' ↦ ?_, fun e he ↦ ?_⟩
  · rw [hcall] at hid'
    cases hid'
    exact hinv.notMem_of_index hindex
  · rw [hcall] at he
    cases he

/-- The new subscription is behind all others. -/
theorem Inv.subscribe (hinv : Inv h) {id : ℤ} {sequence : Sequence} (m : Message B) (handler : H)
    (hnext : h.channel.sequence.next = (.ok id, sequence))
    (hcurrent : sequence.current ≤ intMaxValue)
    (hindex : h.channel.indexTopic.get? id = none) :
    Inv (h.step (.subscribe m handler : Call H B)) := by
  have hnew := hinv.notMem_of_index hindex
  simp only [step, Channel.subscribe_new m.topic handler hnext hindex]
  refine ⟨hcurrent, fun topic ↦ ?_, ?_, fun s hs ↦ ?_⟩
  · have hlisted := hinv.listed topic
    rw [Channel.listed] at hlisted
    rw [Channel.listed, Channel.getD_enlist, hlisted, subscribed, subscribed, List.filter_append,
      List.map_append]
    by_cases ht : topic = m.topic
    · simp [ht, Live.subscription]
    · simp [ht, Ne.symm ht]
  · rw [List.map_append, List.nodup_append]
    refine ⟨hinv.nodup, by simp, ?_⟩
    rintro a ha b hb rfl
    obtain ⟨s, hs, rfl⟩ := List.mem_map.mp ha
    exact hnew s hs (List.mem_singleton.mp hb)
  · change (h.channel.indexTopic.insert id m.topic).get? s.id = _
    rw [Table.get?_insert]
    rcases List.mem_append.mp hs with hold | hlast
    · rw [if_neg (hnew s hold)]
      exact hinv.index s hold
    · rw [List.mem_singleton.mp hlast, if_pos rfl]

/-- `Add` throws when the list has the new subscription already. -/
theorem not_subscribes_stale {id : ℤ} {sequence : Sequence} {m : Message B} {handler : H}
    (hnext : h.channel.sequence.next = (.ok id, sequence))
    (hindex : h.channel.indexTopic.get? id ≠ none) : ¬ Subscribes h m handler := by
  intro hsub
  have hcall := Channel.subscribe_stale m.topic handler hnext hindex
  have hpost := hsub.unchanged .argument (by rw [hcall]) (fun _ _ ↦ true) m
  rw [hcall, Channel.post_eq, Channel.post_eq, Channel.invokeAll_of_returns fun _ _ ↦ rfl,
    Channel.invokeAll_of_returns fun _ _ ↦ rfl, Channel.listed, Channel.getD_enlist, if_pos rfl,
    ← Channel.listed] at hpost
  have hlength := congrArg List.length hpost
  simp at hlength

theorem subscribes_exhausted_iff {sequence : Sequence} {e : Exception} {m : Message B}
    {handler : H} (hnext : h.channel.sequence.next = (.error e, sequence)) :
    Subscribes h m handler ↔ intMaxValue ≤ h.live.length := by
  have hcall := Channel.subscribe_exhausted m.topic handler hnext
  constructor
  · intro hsub
    by_contra hlt
    obtain ⟨id, hid⟩ := hsub.succeeds (Int.lt_of_not_ge hlt)
    rw [hcall] at hid
    cases hid
  · intro hfull
    refine ⟨fun hlt ↦ absurd hlt (Int.not_lt.mpr hfull), fun id hid ↦ ?_, fun e' _ returns m' ↦ ?_⟩
    · rw [hcall] at hid
      cases hid
    · rw [hcall, Channel.post_eq, Channel.post_eq]
      rfl

/-- `Subscribe` does what it should exactly if it gets a new id. -/
theorem Inv.subscribes_iff (hinv : Inv h) (m : Message B) (handler : H) :
    Subscribes h m handler ↔ NewId h (.subscribe m handler : Call H B) := by
  have hstale : ∀ {id : ℤ} {sequence : Sequence},
      h.channel.sequence.next = (.ok id, sequence) →
      (Subscribes h m handler ↔ h.channel.indexTopic.get? id = none) := by
    intro id sequence hnext
    refine ⟨fun hsub ↦ ?_, hinv.subscribes m handler hnext⟩
    by_contra hindex
    exact not_subscribes_stale hnext hindex hsub
  cases hpool : h.channel.sequence.pool with
  | nil =>
      simp only [NewId, hpool]
      split_ifs with hle
      · obtain ⟨sequence, hnext, -⟩ := Sequence.next_reserve hpool hle
        exact hstale hnext
      · obtain ⟨sequence, hnext, -⟩ :=
          Sequence.next_exhausted hpool hinv.current (Int.lt_of_not_ge hle)
        exact subscribes_exhausted_iff hnext
  | cons id rest =>
      simp only [NewId, hpool]
      exact hstale (Sequence.next_cons hpool)

theorem Inv.step_subscribe (hinv : Inv h) {m : Message B} {handler : H}
    (hnew : NewId h (.subscribe m handler : Call H B)) :
    Inv (h.step (.subscribe m handler : Call H B)) := by
  have hcurrent := hinv.current
  cases hpool : h.channel.sequence.pool with
  | nil =>
      simp only [NewId, hpool] at hnew
      split_ifs at hnew with hle
      · obtain ⟨sequence, hnext, hnow⟩ := Sequence.next_reserve hpool hle
        exact hinv.subscribe m handler hnext (by omega) hnew
      · obtain ⟨sequence, hnext, hnow⟩ :=
          Sequence.next_exhausted hpool hcurrent (Int.lt_of_not_ge hle)
        simp only [step, Channel.subscribe_exhausted m.topic handler hnext]
        exact ⟨Int.le_of_eq hnow, hinv.listed, hinv.nodup, hinv.index⟩
  | cons id rest =>
      simp only [NewId, hpool] at hnew
      exact hinv.subscribe m handler (Sequence.next_cons hpool) hcurrent hnew

/-! ### Unsubscribe and Post -/

theorem Inv.listed_nodup (hinv : Inv h) (topic : Topic) :
    ((h.channel.listed topic).map Subscription.id).Nodup := by
  rw [hinv.listed, subscribed, List.map_map]
  exact hinv.nodup.sublist (List.filter_sublist.map Live.id)

theorem Inv.mem_listed (hinv : Inv h) {sub : Subscription H} {topic : Topic}
    (hsub : sub ∈ h.channel.listed topic) :
    ∃ s ∈ h.live, s.topic = topic ∧ s.subscription = sub := by
  rw [hinv.listed, subscribed, List.mem_map] at hsub
  obtain ⟨s, hs, rfl⟩ := hsub
  obtain ⟨hlive, htopic⟩ := List.mem_filter.mp hs
  exact ⟨s, hlive, of_decide_eq_true htopic, rfl⟩

theorem Inv.unsubscribeId_fst (hinv : Inv h) (id : ℤ) :
    (h.channel.unsubscribeId id).1 = true ↔ ∃ s ∈ h.live, s.id = id := by
  cases hindex : h.channel.indexTopic.get? id with
  | none =>
      rw [Channel.unsubscribeId_none hindex]
      have hnot := hinv.notMem_of_index hindex
      simpa using hnot
  | some topic =>
      rw [Channel.unsubscribeId_fst hindex, List.any_eq_true]
      constructor
      · rintro ⟨sub, hsub, hid⟩
        obtain ⟨s, hs, -, rfl⟩ := hinv.mem_listed hsub
        exact ⟨s, hs, of_decide_eq_true hid⟩
      · rintro ⟨s, hs, rfl⟩
        have htopic : s.topic = topic :=
          Option.some.inj ((hinv.index s hs).symm.trans hindex)
        refine ⟨s.subscription, ?_, decide_eq_true rfl⟩
        rw [hinv.listed, subscribed]
        exact List.mem_map_of_mem (List.mem_filter.mpr ⟨hs, decide_eq_true htopic⟩)

/-- The lists lose the subscription with the id, wherever it is. -/
theorem Inv.listed_unsubscribeId (hinv : Inv h) (id : ℤ) (t : Topic) :
    (h.channel.unsubscribeId id).2.listed t =
      (h.channel.listed t).filter fun sub ↦ sub.id ≠ id := by
  have hkeep : (∀ s ∈ h.live, s.topic = t → s.id ≠ id) →
      h.channel.listed t = (h.channel.listed t).filter fun sub ↦ sub.id ≠ id := by
    intro hother
    refine (List.filter_eq_self.mpr fun sub hsub ↦ ?_).symm
    obtain ⟨s, hs, htopic, rfl⟩ := hinv.mem_listed hsub
    exact decide_eq_true (hother s hs htopic)
  cases hindex : h.channel.indexTopic.get? id with
  | none =>
      rw [Channel.unsubscribeId_none hindex]
      exact hkeep fun s hs _ ↦ hinv.notMem_of_index hindex s hs
  | some topic =>
      rw [Channel.listed_unsubscribeId hindex]
      split_ifs with ht
      · exact Channel.removeById_eq_filter (hinv.listed_nodup t)
      · apply hkeep
        rintro s hs rfl rfl
        exact ht (Option.some.inj ((hinv.index s hs).symm.trans hindex))

theorem subscribed_filter (live : List (Live H)) (id : ℤ) (t : Topic) :
    subscribed (live.filter fun s ↦ s.id ≠ id) t =
      (subscribed live t).filter fun sub ↦ sub.id ≠ id := by
  rw [subscribed, subscribed, List.filter_map, List.filter_filter, List.filter_filter]
  congr 1
  apply List.filter_congr
  intro s _
  exact Bool.and_comm _ _

theorem Inv.unsubscribes (hinv : Inv h) (token : Token B) : Unsubscribes h token := by
  cases hvalid : token.valid with
  | false =>
      refine ⟨?_, fun topic ↦ ?_⟩
      · simp [Channel.unsubscribe, hvalid]
      · simp [Channel.unsubscribe, hvalid]
  | true =>
      have hcall : h.channel.unsubscribe token = h.channel.unsubscribeId token.key := by
        rw [Channel.unsubscribe, if_pos hvalid]
      refine ⟨?_, fun topic ↦ ?_⟩
      · rw [hcall, hinv.unsubscribeId_fst, hvalid]
        simp
      · rw [hcall, hinv.listed_unsubscribeId]
        split_ifs with hresult
        · rfl
        · rw [hinv.unsubscribeId_fst] at hresult
          refine List.filter_eq_self.mpr fun sub hsub ↦ decide_eq_true fun hid ↦ hresult ?_
          obtain ⟨s, hs, -, rfl⟩ := hinv.mem_listed hsub
          exact ⟨s, hs, hid⟩

theorem Inv.step_unsubscribe (hinv : Inv h) (token : Token B) :
    Inv (h.step (.unsubscribe token)) := by
  cases hvalid : token.valid with
  | false => simpa [step, Channel.unsubscribe, hvalid] using hinv
  | true =>
      simp only [step, Channel.unsubscribe, hvalid, if_true]
      refine ⟨?_, fun topic ↦ ?_, ?_, fun s hs ↦ ?_⟩
      · rw [Channel.unsubscribeId_current]
        exact hinv.current
      · rw [hinv.listed_unsubscribeId, hinv.listed, subscribed_filter]
      · exact hinv.nodup.sublist (List.filter_sublist.map Live.id)
      · rw [Channel.unsubscribeId_indexTopic]
        exact hinv.index s (List.mem_of_mem_filter hs)

theorem Inv.posts (hinv : Inv h) (m : Message B) : Posts h m := by
  refine ⟨fun returns ↦ ?_, fun returns hreturns ↦ ?_⟩
  · rw [Channel.post_eq, hinv.listed]
    exact Channel.invokeAll_prefix returns m _
  · rw [Channel.post_eq, hinv.listed]
    exact Channel.invokeAll_of_returns hreturns

/-! ### Every call -/

theorem Inv.step (hinv : Inv h) {call : Call H B} (hnew : NewId h call) : Inv (h.step call) := by
  cases call with
  | subscribe m handler => exact hinv.step_subscribe hnew
  | unsubscribe token => exact hinv.step_unsubscribe token
  | post m => exact hinv

theorem Inv.wellBehaved_iff (hinv : Inv h) (call : Call H B) :
    WellBehaved h call ↔ NewId h call := by
  cases call with
  | subscribe m handler => exact hinv.subscribes_iff m handler
  | unsubscribe token => exact iff_of_true (hinv.unsubscribes token) trivial
  | post m => exact iff_of_true (hinv.posts m) trivial

end

/-- Over a whole history the channel is well behaved exactly if no `Subscribe`
gets an id for the second time. -/
theorem wellBehaved_iff_newId (calls : List (Call H B)) :
    Throughout step WellBehaved (initial : History H) calls ↔
      Throughout step NewId (initial : History H) calls :=
  throughout_congr inv_initial (fun _ _ hinv hnew ↦ hinv.step hnew)
    fun _ call hinv ↦ hinv.wellBehaved_iff call

/-- The id 1 is given back, and comes again behind the 16 of the first
`Reserve`. -/
theorem not_wellBehaved : ¬ Throughout step WellBehaved (initial : History ℕ)
    (.subscribe ⟨⟨7⟩, ()⟩ 0 :: .unsubscribe ⟨1, some ⟨⟨7⟩, ()⟩⟩ ::
      List.replicate 16 (.subscribe ⟨⟨7⟩, ()⟩ 1)) := by
  rintro ⟨-, -, -, -, -, -, -, -, -, -, -, -, -, -, -, -, -, hlast, -⟩
  obtain ⟨id, hid⟩ := Subscribes.succeeds hlast (by decide +kernel)
  have hok := (congrArg Except.isOk hid).trans (show _ = true from rfl)
  exact absurd hok (by decide +kernel)

end History

end WiseKernel.Client.Detail
