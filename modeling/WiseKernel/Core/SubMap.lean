import WiseKernel.Core.Sequence
import WiseKernel.Core.Topic
import WiseKernel.Lib.Runs
import WiseKernel.Lib.Table

/-!
# Subscriptions

`sub_map` keeps a copy of every subscription under its key and another one in
the entry of its mode and topic.  `unsubscribe` marks both copies, and `purge`
takes them out and gives the key back.  The body of a member function holds the
mutex, so it is one step.
-/

namespace WiseKernel.Core

open WiseKernel.Lib

/-- `message`: a topic and what the derived class adds. -/
structure Message (β : Type) where
  topic : Topic
  body : β
  deriving DecidableEq, Repr

/-- `sub::mode`. -/
inductive SubMode
  | immediate
  | delayed
  deriving DecidableEq, Repr

/-- `sub`; a callback is a name out of `C`. -/
structure Sub (β C : Type) where
  key : ℕ
  topic : Topic
  cond : Message β → Bool
  cb : C
  mode : SubMode
  postCount : ℕ := 0
  unsub : Bool := false

namespace Sub

variable {β C : Type}

def unsubscribe (s : Sub β C) : Sub β C := { s with unsub := true }

/-- `post`: whether the callback was called. -/
def post (s : Sub β C) (m : Message β) : Bool × Sub β C :=
  if !s.topic.matchTopic m.topic then (false, s)
  else if !s.cond m then (false, s)
  else (true, { s with postCount := s.postCount + 1 })

/-- Whether the callback is called for `m` in the loop of `post_topic`. -/
def receives (s : Sub β C) (m : Message β) : Bool := !s.unsub && (s.post m).1

end Sub

/-- `entry_map`: the subscriptions of a mode by topic and key. -/
abbrev EntryMap (β C : Type) := Table Topic (Table ℕ (Sub β C))

namespace EntryMap

variable {β C : Type}

/-- `subscribe_mode` with `subscribe_topic`. -/
def subscribeMode (em : EntryMap β C) (s : Sub β C) : EntryMap β C :=
  match em.get? s.topic with
  | none => em.emplace s.topic ((∅ : Table ℕ (Sub β C)).emplace s.key s)
  | some _ => em.modify s.topic fun subs ↦ subs.emplace s.key s

def unsubscribeMode (em : EntryMap β C) (s : Sub β C) : Bool × EntryMap β C :=
  match em.get? s.topic with
  | none => (false, em)
  | some subs =>
      match subs.get? s.key with
      | none => (false, em)
      | some _ => (true, em.modify s.topic fun subs ↦ subs.modify s.key Sub.unsubscribe)

/-- The loop of `post_topic`: the number of callbacks and whose they are. -/
def postSubs (m : Message β) : List (ℕ × Sub β C) → ℕ × List (ℕ × C)
  | [] => (0, [])
  | (_, s) :: rest =>
      let (count, calls) := postSubs m rest
      if s.receives m then (count + 1, (s.key, s.cb) :: calls) else (count, calls)

/-- `post_topic`. -/
def postTopic (em : EntryMap β C) (topic : Topic) (m : Message β) :
    (ℕ × List (ℕ × C)) × EntryMap β C :=
  if !topic.isValid then ((0, []), em)
  else
    match em.get? topic with
    | none => ((0, []), em)
    | some subs =>
        (postSubs m subs.toList,
          em.modify topic fun subs ↦
            subs.mapValues fun _ s ↦ if s.unsub then s else (s.post m).2)

/-- `post_mode`: the topic, then its group. -/
def postMode (em : EntryMap β C) (topic : Topic) (m : Message β) :
    (ℕ × List (ℕ × C)) × EntryMap β C :=
  let (first, em) := em.postTopic topic m
  let (second, em) := em.postTopic topic.getGroupTopic m
  ((first.1 + second.1, first.2 ++ second.2), em)

def purgeMode (em : EntryMap β C) (s : Sub β C) : EntryMap β C :=
  em.modify s.topic fun subs ↦ subs.erase s.key

end EntryMap

/-- `sub_map`. -/
structure SubMap (β C : Type) where
  entriesImmediate : EntryMap β C
  entriesDelayed : EntryMap β C
  allSubs : Table ℕ (Sub β C)
  seq : Sequence
  purgeKeys : List ℕ

namespace SubMap

variable {β C : Type}

/-- The constructor: `seq_(1, UINT32_MAX, 1000)`. -/
def initial : SubMap β C := ⟨∅, ∅, ∅, .make 1 (2 ^ 32 - 1) 1000, []⟩

theorem initial_seq : (initial : SubMap β C).seq = .make 1 (2 ^ 32 - 1) 1000 := by
  rw [initial]

def entries (m : SubMap β C) : SubMode → EntryMap β C
  | .immediate => m.entriesImmediate
  | .delayed => m.entriesDelayed

def setEntries (m : SubMap β C) (mode : SubMode) (em : EntryMap β C) : SubMap β C :=
  match mode with
  | .immediate => { m with entriesImmediate := em }
  | .delayed => { m with entriesDelayed := em }

def subscribe (m : SubMap β C) (topic : Topic) (cond : Message β → Bool) (cb : C)
    (mode : SubMode) : Except Sequence.Error (ℕ × SubMap β C) :=
  match m.seq.next with
  | .error e => .error e
  | .ok (key, seq) =>
      let s : Sub β C := { key := key, topic := topic, cond := cond, cb := cb, mode := mode }
      let m := { m with seq := seq, allSubs := m.allSubs.emplace key s }
      .ok (key, m.setEntries mode ((m.entries mode).subscribeMode s))

theorem subscribe_of_next {m : SubMap β C} {key : ℕ} {seq : Sequence}
    (hnext : m.seq.next = .ok (key, seq)) (topic : Topic) (cond : Message β → Bool) (cb : C)
    (mode : SubMode) : m.subscribe topic cond cb mode = .ok (key,
      let s : Sub β C := { key := key, topic := topic, cond := cond, cb := cb, mode := mode }
      let m := { m with seq := seq, allSubs := m.allSubs.emplace key s }
      m.setEntries mode ((m.entries mode).subscribeMode s)) := by
  simp only [subscribe, hnext]

/-- `subscribe` without a condition. -/
def subscribeAll (m : SubMap β C) (topic : Topic) (cb : C) (mode : SubMode) :
    Except Sequence.Error (ℕ × SubMap β C) :=
  m.subscribe topic (fun _ ↦ true) cb mode

def unsubscribe (m : SubMap β C) (key : ℕ) : Bool × SubMap β C :=
  match m.allSubs.get? key with
  | none => (false, m)
  | some s =>
      let m := { m with
        allSubs := m.allSubs.modify key Sub.unsubscribe
        purgeKeys := m.purgeKeys ++ [key] }
      let (found, em) := (m.entries s.mode).unsubscribeMode s
      (found, m.setEntries s.mode em)

def clear (m : SubMap β C) : SubMap β C :=
  { m with entriesDelayed := ∅, entriesImmediate := ∅, allSubs := ∅ }

/-- `post` with a topic of its own. -/
def postAt (m : SubMap β C) (topic : Topic) (msg : Message β) (mode : SubMode) :
    (ℕ × List (ℕ × C)) × SubMap β C :=
  let (posted, em) := (m.entries mode).postMode topic msg
  (posted, m.setEntries mode em)

/-- `post` under the topic of the message. -/
def post (m : SubMap β C) (msg : Message β) (mode : SubMode) :
    (ℕ × List (ℕ × C)) × SubMap β C :=
  m.postAt msg.topic msg mode

/-- The body of the loop of `purge`. -/
def purgeKey (m : SubMap β C) (key : ℕ) : SubMap β C :=
  match m.allSubs.get? key with
  | none => m
  | some s =>
      { m with
        entriesImmediate := m.entriesImmediate.purgeMode s
        entriesDelayed := m.entriesDelayed.purgeMode s
        seq := m.seq.release key
        allSubs := m.allSubs.erase key }

def purge (m : SubMap β C) : SubMap β C :=
  { m.purgeKeys.foldl purgeKey m with purgeKeys := [] }

end SubMap

end WiseKernel.Core
