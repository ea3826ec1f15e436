import WiseKernel.Core.Subscriptions

/-!
# Who is called

`post` looks up the topic of the message and then the topic of its group.  A
message whose type is 0 has one topic for both, so a subscription to the group
is called twice; and the group with the key 0 is not looked up at all.  Apart
from this every live subscription that matches is called once.
-/

namespace WiseKernel.Core

open WiseKernel.Lib

variable {β C : Type}

namespace SubMap

/-- A map with what it stands for: the subscriptions made and not given up. -/
structure History (β C : Type) where
  map : SubMap β C
  live : Table ℕ (Sub β C)

namespace History

def initial : History β C := ⟨.initial, ∅⟩

def step (h : History β C) (op : Op β C) : History β C where
  map := h.map.step op
  live :=
    match op with
    | .subscribe topic cond cb mode =>
        match h.map.subscribe topic cond cb mode with
        | .error _ => h.live
        | .ok (key, _) =>
            h.live.insert key { key := key, topic := topic, cond := cond, cb := cb, mode := mode }
    | .unsubscribe key => if (h.map.unsubscribe key).1 then h.live.erase key else h.live
    | .clear => ∅
    | .post _ _ | .postAt _ _ _ | .purge => h.live

/-- The live subscriptions are the ones not unsubscribed, and a queued key is
neither live nor in the pool. -/
structure Inv (h : History β C) : Prop where
  book : Bookkept h.map
  live : ∀ key s, h.live.get? key = some s ↔ h.map.allSubs.get? key = some s ∧ s.unsub = false
  queued : ∀ key ∈ h.map.purgeKeys, Silent h.map key
  pool : h.map.seq.Pool fun key ↦ (h.map.allSubs.get? key).isSome ∨ key ∈ h.map.purgeKeys

theorem inv_initial : Inv (initial : History β C) where
  book := bookkept_initial
  live key s := by
    rw [initial, initial_allSubs]
    simp
  queued key hkey := absurd hkey (by simp [initial, SubMap.initial])
  pool := by
    apply bookkept_initial.pool.mono
    rintro key (hall | hqueued)
    · exact hall
    · simp [initial, SubMap.initial] at hqueued

variable {h : History β C}

theorem Inv.subscribe (hinv : Inv h) {topic : Topic} {cond : Message β → Bool} {cb : C}
    {mode : SubMode} : Inv (h.step (.subscribe topic cond cb mode)) := by
  cases hsub : h.map.subscribe topic cond cb mode with
  | error e =>
      have hsame : h.step (.subscribe topic cond cb mode) = h := by
        simp only [step, SubMap.step, hsub]
      rwa [hsame]
  | ok p =>
      obtain ⟨key, m'⟩ := p
      obtain ⟨hall, -, hpurge, -⟩ := hinv.book.subscribe_eq hsub
      have hfree := hinv.book.subscribe_key hsub
      -- the key comes from the pool, so it is not a queued one either
      have hnext : ¬ ((h.map.allSubs.get? key).isSome ∨ key ∈ h.map.purgeKeys) ∧
          m'.seq.Pool fun k ↦ k = key ∨ (h.map.allSubs.get? k).isSome ∨ k ∈ h.map.purgeKeys := by
        unfold SubMap.subscribe at hsub
        cases hn : h.map.seq.next with
        | error e => simp [hn] at hsub
        | ok p =>
            obtain ⟨key', seq⟩ := p
            simp only [hn, Except.ok.injEq, Prod.mk.injEq] at hsub
            obtain ⟨rfl, rfl⟩ := hsub
            rw [seq_setEntries]
            exact hinv.pool.next hn
      have hbook := hinv.book.step (.subscribe topic cond cb mode)
      simp only [SubMap.step, hsub] at hbook
      simp only [step, SubMap.step, hsub]
      refine ⟨hbook, fun k s ↦ ?_, fun k hk s hs ↦ ?_, ?_⟩
      · simp only [Table.get?_insert, hall]
        split_ifs with hkey
        · constructor
          · intro hs
            obtain rfl := Option.some.inj hs
            exact ⟨rfl, rfl⟩
          · exact fun hs ↦ hs.1
        · exact hinv.live k s
      · simp only [hpurge] at hk
        have hne : k ≠ key := by
          rintro rfl
          exact hnext.1 (.inr hk)
        rw [hall, if_neg hne] at hs
        exact hinv.queued k hk s hs
      · apply hnext.2.mono
        intro k hk
        simp only [hall, hpurge] at hk
        split_ifs at hk with hkey
        · exact .inl hkey
        · exact .inr hk

theorem Inv.unsubscribe (hinv : Inv h) (key : ℕ) : Inv (h.step (.unsubscribe key)) := by
  cases hkey : h.map.allSubs.get? key with
  | none =>
      have hsame : h.step (.unsubscribe key) = h := by
        simp [step, SubMap.step, unsubscribe_of_none hkey]
      rwa [hsame]
  | some s =>
      obtain ⟨htrue, hall, -, hseq, hpurge⟩ := hinv.book.unsubscribe_eq hkey
      simp only [step, SubMap.step, htrue, if_true]
      refine ⟨hinv.book.unsubscribe key, fun k s' ↦ ?_, fun k hk s' hs' ↦ ?_, ?_⟩
      · rw [Table.get?_erase, hall]
        split_ifs with hk
        · refine iff_of_false (by simp) ?_
          rintro ⟨hs', hunsub⟩
          obtain rfl := Option.some.inj hs'
          exact absurd hunsub (by simp [Sub.unsubscribe])
        · exact hinv.live k s'
      · simp only [hall] at hs'
        split_ifs at hs' with hkk
        · obtain rfl := Option.some.inj hs'
          rfl
        · simp only [hpurge, List.mem_append, List.mem_singleton] at hk
          exact hinv.queued k (hk.resolve_right hkk) s' hs'
      · rw [hseq]
        apply hinv.pool.mono
        intro k hk
        simp only [hall, hpurge, List.mem_append, List.mem_singleton] at hk
        by_cases hkk : k = key
        · simp [hkk, hkey]
        · simpa [hkk] using hk

theorem Inv.postAt (hinv : Inv h) (topic : Topic) (msg : Message β) (mode : SubMode) :
    Inv ⟨(h.map.postAt topic msg mode).2, h.live⟩ := by
  refine ⟨hinv.book.postAt topic msg mode, fun key s ↦ ?_, fun key hkey s hs ↦ ?_, ?_⟩
  · simp only [SubMap.postAt, allSubs_setEntries]
    exact hinv.live key s
  · simp only [SubMap.postAt, allSubs_setEntries, purgeKeys_setEntries] at hkey hs
    exact hinv.queued key hkey s hs
  · simp only [SubMap.postAt, seq_setEntries, allSubs_setEntries, purgeKeys_setEntries]
    exact hinv.pool

theorem Inv.purge (hinv : Inv h) : Inv (h.step .purge) := by
  obtain ⟨released, -, hreleased, hall⟩ := hinv.book.released h.map.purgeKeys
  have hall' : ∀ k, h.map.purge.allSubs.get? k =
      if k ∈ released then none else h.map.allSubs.get? k := hall
  refine ⟨hinv.book.purge, fun key s ↦ ?_, fun key hkey ↦ ?_, ?_⟩
  · simp only [step, SubMap.step, hall', hinv.live]
    split_ifs with hmem
    · -- only marked subscriptions are released
      refine iff_of_false ?_ (by simp)
      rintro ⟨hs, hunsub⟩
      simp [hinv.queued key (hreleased key hmem).1 s hs] at hunsub
    · exact Iff.rfl
  · simp [step, SubMap.step, SubMap.purge] at hkey
  · apply hinv.book.purge.pool.mono
    rintro key (hsome | hqueued)
    · exact hsome
    · simp [step, SubMap.step, SubMap.purge] at hqueued

theorem Inv.clear (hinv : Inv h) : Inv (h.step .clear) := by
  refine ⟨hinv.book.clear, fun key s ↦ ?_, fun key _ s hs ↦ ?_, ?_⟩
  · simp [step, SubMap.step, SubMap.clear]
  · simp [step, SubMap.step, SubMap.clear] at hs
  · apply hinv.pool.mono
    intro key hkey
    simpa [step, SubMap.step, SubMap.clear] using Or.inr hkey

theorem Inv.step (hinv : Inv h) (op : Op β C) : Inv (h.step op) := by
  cases op with
  | subscribe topic cond cb mode => exact hinv.subscribe
  | unsubscribe key => exact hinv.unsubscribe key
  | post msg mode => exact hinv.postAt msg.topic msg mode
  | postAt topic msg mode => exact hinv.postAt topic msg mode
  | purge => exact hinv.purge
  | clear => exact hinv.clear

/-- The history of a list of calls. -/
def after (ops : List (Op β C)) : History β C := ops.foldl History.step initial

theorem inv_after (ops : List (Op β C)) : Inv (after ops) :=
  foldl_invariant inv_initial fun _ op hinv ↦ hinv.step op

/-! ## Posting under one topic -/

/-- A live subscription of this mode and topic whose condition holds. -/
def Listens (live : Table ℕ (Sub β C)) (msg : Message β) (mode : SubMode) (topic : Topic)
    (key : ℕ) : Prop :=
  ∃ s, live.get? key = some s ∧ s.mode = mode ∧ s.topic = topic ∧ s.cond msg = true

theorem postSubs_eq (msg : Message β) (subs : List (ℕ × Sub β C)) :
    (EntryMap.postSubs msg subs).2 =
      (subs.filter fun p ↦ p.2.receives msg).map fun p ↦ (p.2.key, p.2.cb) := by
  induction subs with
  | nil => rfl
  | cons p subs ih =>
      simp only [EntryMap.postSubs, List.filter_cons]
      split_ifs
      · rw [List.map_cons, ih]
      · exact ih

theorem postSubs_count (msg : Message β) (subs : List (ℕ × Sub β C)) :
    (EntryMap.postSubs msg subs).1 = (EntryMap.postSubs msg subs).2.length := by
  induction subs with
  | nil => rfl
  | cons p subs ih =>
      simp only [EntryMap.postSubs]
      split_ifs
      · rw [List.length_cons, ih]
      · exact ih

theorem postTopic_count (em : EntryMap β C) (topic : Topic) (msg : Message β) :
    (em.postTopic topic msg).1.1 = (em.postTopic topic msg).1.2.length := by
  unfold EntryMap.postTopic
  split_ifs
  · rfl
  · cases em.get? topic with
    | none => rfl
    | some subs => exact postSubs_count msg subs.toList

/-- The entries of a mode hold the copies of the subscriptions of that mode. -/
def Copies (h : History β C) (em : EntryMap β C) (mode : SubMode) : Prop :=
  ∀ topic key, (em.find topic key).map Sub.base =
    (h.map.allSubs.get? key).filter fun s ↦ s.mode = mode ∧ s.topic = topic

theorem Copies.postTopic {em : EntryMap β C} {mode : SubMode} (hem : Copies h em mode)
    (topic : Topic) (msg : Message β) : Copies h (em.postTopic topic msg).2 mode := by
  intro t k
  rw [EntryMap.find_postTopic]
  exact hem t k

theorem Copies.all_of_find {em : EntryMap β C} {mode : SubMode} (hem : Copies h em mode)
    {topic : Topic} {key : ℕ} {s : Sub β C} (hs : em.find topic key = some s) :
    h.map.allSubs.get? key = some s.base ∧ s.mode = mode ∧ s.topic = topic := by
  have hcopy := hem topic key
  rw [hs, Option.map_some, eq_comm, Option.filter_eq_some_iff] at hcopy
  obtain ⟨hall, hplace⟩ := hcopy
  exact ⟨hall, of_decide_eq_true hplace⟩

/-- A subscription in an entry is called when it is live, the topic matches and
the condition holds. -/
theorem receives_iff (s : Sub β C) (msg : Message β) :
    s.receives msg = true ↔ s.unsub = false ∧ s.topic.matchTopic msg.topic = true ∧
      s.cond msg = true := by
  simp only [Sub.receives, Sub.post]
  cases s.unsub <;> cases s.topic.matchTopic msg.topic <;> cases s.cond msg <;> simp

/-- The subscriptions of one entry that are called. -/
theorem Inv.find_receives_iff (hinv : Inv h) {em : EntryMap β C} {mode : SubMode}
    (hem : Copies h em mode) (topic : Topic) (msg : Message β) (key : ℕ) :
    (∃ s, em.find topic key = some s ∧ s.receives msg = true) ↔
      topic.matchTopic msg.topic = true ∧ Listens h.live msg mode topic key := by
  constructor
  · rintro ⟨s, hfind, hs⟩
    obtain ⟨hall, hmode, htopic⟩ := hem.all_of_find hfind
    obtain ⟨hunsub, hmatch, hcond⟩ := (receives_iff s msg).mp hs
    rw [htopic] at hmatch
    exact ⟨hmatch, s.base, (hinv.live key _).mpr ⟨hall, hunsub⟩, hmode, htopic, hcond⟩
  · rintro ⟨hmatch, s, hlive, hmode, htopic, hcond⟩
    obtain ⟨hall, hunsub⟩ := (hinv.live key s).mp hlive
    have hcopy := hem topic key
    rw [hall, Option.filter_some, if_pos (by simp [hmode, htopic])] at hcopy
    obtain ⟨s', hfind, rfl⟩ := Option.map_eq_some_iff.mp hcopy
    refine ⟨s', hfind, (receives_iff s' msg).mpr ⟨hunsub, ?_, hcond⟩⟩
    rw [← htopic] at hmatch
    exact hmatch

/-- The keys called under one topic. -/
theorem Inv.keys_postTopic (hinv : Inv h) {em : EntryMap β C} {mode : SubMode}
    (hem : Copies h em mode) (topic : Topic) (msg : Message β) :
    ((em.postTopic topic msg).1.2.map Prod.fst).Nodup ∧
      ∀ key, key ∈ (em.postTopic topic msg).1.2.map Prod.fst ↔
        topic.isValid = true ∧ topic.matchTopic msg.topic = true ∧
          Listens h.live msg mode topic key := by
  unfold EntryMap.postTopic
  split_ifs with hvalid
  · refine ⟨List.nodup_nil, fun key ↦ iff_of_false (by simp) ?_⟩
    rintro ⟨hvalid', -⟩
    simp [hvalid'] at hvalid
  · cases hsubs : em.get? topic with
    | none =>
        refine ⟨List.nodup_nil, fun key ↦ iff_of_false (by simp) ?_⟩
        rintro ⟨-, hlistens⟩
        obtain ⟨s, hfind, -⟩ := (hinv.find_receives_iff hem topic msg key).mpr hlistens
        simp [EntryMap.find, hsubs] at hfind
    | some subs =>
        have hfind : ∀ key s, (key, s) ∈ subs.toList ↔ em.find topic key = some s := by
          intro key s
          rw [Table.mem_toList, EntryMap.find, hsubs, Option.bind_some]
        have hkeys : ∀ p ∈ subs.toList, p.2.key = p.1 := by
          rintro ⟨key, s⟩ hp
          have hall := (hem.all_of_find ((hfind key s).mp hp)).1
          exact (hinv.book.keys key _ hall).1
        have heq : (EntryMap.postSubs msg subs.toList).2.map Prod.fst =
            (subs.toList.filter fun p ↦ p.2.receives msg).map Prod.fst := by
          rw [postSubs_eq, List.map_map]
          apply List.map_congr_left
          intro p hp
          exact hkeys p (List.mem_filter.mp hp).1
        simp only [heq]
        constructor
        · exact (List.filter_sublist.map _).nodup subs.keys_nodup
        · intro key
          simp only [Bool.not_eq_true', Bool.not_eq_false] at hvalid
          rw [← hinv.find_receives_iff hem topic msg key]
          simp only [hvalid, true_and, List.mem_map, List.mem_filter]
          constructor
          · rintro ⟨⟨k, s⟩, ⟨hmem, hs⟩, rfl⟩
            exact ⟨s, (hfind k s).mp hmem, hs⟩
          · rintro ⟨s, hs, hreceives⟩
            exact ⟨(key, s), ⟨(hfind key s).mpr hs, hreceives⟩, rfl⟩

/-! ## Posting a message -/

/-- Whether a message of a mode is for the subscription under `key`. -/
def due (live : Table ℕ (Sub β C)) (msg : Message β) (mode : SubMode) (key : ℕ) : Bool :=
  match live.get? key with
  | none => false
  | some s => s.mode = mode && s.topic.matchTopic msg.topic && s.cond msg

/-- Every subscription that the message is for is called once, no other one is,
and the calls are counted. -/
structure ExactlyOnce (live : Table ℕ (Sub β C)) (msg : Message β) (mode : SubMode)
    (posted : ℕ × List (ℕ × C)) : Prop where
  calls : ∀ key, (posted.2.map Prod.fst).count key = if due live msg mode key then 1 else 0
  callback : ∀ c ∈ posted.2, ∃ s, live.get? c.1 = some s ∧ s.cb = c.2
  count : posted.1 = posted.2.length

/-- The group of the topic is another topic, and a valid one; or nobody listens
to it. -/
def Separate (live : Table ℕ (Sub β C)) (msg : Message β) (mode : SubMode) : Prop :=
  (msg.topic.getType ≠ 0 ∧ msg.topic.getGroupTopic.isValid = true) ∨
    ∀ key, ¬ Listens live msg mode msg.topic.getGroupTopic key

theorem due_iff (live : Table ℕ (Sub β C)) (msg : Message β) (mode : SubMode) (key : ℕ) :
    due live msg mode key = true ↔ Listens live msg mode msg.topic key ∨
      Listens live msg mode msg.topic.getGroupTopic key := by
  unfold due Listens
  cases hlive : live.get? key with
  | none => simp
  | some s =>
      simp only [Bool.and_eq_true, decide_eq_true_eq, Topic.matchTopic_iff, Option.some.injEq,
        exists_eq_left']
      tauto

/-- The two lookups of `post`. -/
theorem post_fst (m : SubMap β C) (msg : Message β) (mode : SubMode) :
    (m.post msg mode).1 =
      (((m.entries mode).postTopic msg.topic msg).1.1 +
        (((m.entries mode).postTopic msg.topic msg).2.postTopic msg.topic.getGroupTopic msg).1.1,
      ((m.entries mode).postTopic msg.topic msg).1.2 ++
        (((m.entries mode).postTopic msg.topic msg).2.postTopic msg.topic.getGroupTopic msg).1.2) :=
  rfl

/-- How often a key is called: for the topic, and for its group. -/
theorem Inv.count_post (hinv : Inv h) (msg : Message β) (hvalid : msg.topic.isValid = true)
    (mode : SubMode) (key : ℕ) [Decidable (Listens h.live msg mode msg.topic key)]
    [Decidable (Listens h.live msg mode msg.topic.getGroupTopic key)] :
    ((h.map.post msg mode).1.2.map Prod.fst).count key =
      (if Listens h.live msg mode msg.topic key then 1 else 0) +
        if msg.topic.getGroupTopic.isValid = true ∧
          Listens h.live msg mode msg.topic.getGroupTopic key then 1 else 0 := by
  have hem : Copies h (h.map.entries mode) mode := hinv.book.copies mode
  obtain ⟨hnodup, hmem⟩ := hinv.keys_postTopic hem msg.topic msg
  obtain ⟨hnodup', hmem'⟩ :=
    hinv.keys_postTopic (hem.postTopic msg.topic msg) msg.topic.getGroupTopic msg
  have hself : msg.topic.matchTopic msg.topic = true := Topic.matchTopic_iff.mpr (.inl rfl)
  have hgroup : msg.topic.getGroupTopic.matchTopic msg.topic = true :=
    Topic.matchTopic_iff.mpr (.inr rfl)
  rw [post_fst, List.map_append, List.count_append, hnodup.count, hnodup'.count]
  congr 1
  · exact if_congr (by simp [hmem, hvalid, hself]) rfl rfl
  · exact if_congr (by simp [hmem', hgroup]) rfl rfl

theorem Inv.callback_post (hinv : Inv h) (msg : Message β) (mode : SubMode) :
    ∀ c ∈ (h.map.post msg mode).1.2, ∃ s, h.live.get? c.1 = some s ∧ s.cb = c.2 := by
  have hem : Copies h (h.map.entries mode) mode := hinv.book.copies mode
  have hone : ∀ em topic, Copies h em mode → ∀ c ∈ (EntryMap.postTopic em topic msg).1.2,
      ∃ s, h.live.get? c.1 = some s ∧ s.cb = c.2 := by
    intro em topic hem c hc
    obtain ⟨key, s, hfind, hs, rfl⟩ := mem_postTopic hc
    have hall := (hem.all_of_find hfind).1
    have hkey : s.key = key := (hinv.book.keys key _ hall).1
    refine ⟨s.base, (hinv.live _ _).mpr ⟨?_, ((receives_iff s msg).mp hs).1⟩, rfl⟩
    rw [hkey]
    exact hall
  intro c hc
  rcases List.mem_append.mp hc with hfirst | hsecond
  · exact hone _ _ hem c hfirst
  · exact hone _ _ (hem.postTopic msg.topic msg) c hsecond

theorem count_fst (m : SubMap β C) (msg : Message β) (mode : SubMode) :
    (m.post msg mode).1.1 = (m.post msg mode).1.2.length := by
  rw [post_fst, List.length_append, postTopic_count, postTopic_count]

theorem Inv.listens_apart {msg : Message β} {mode : SubMode} (htype : msg.topic.getType ≠ 0)
    {key : ℕ} (hl : Listens h.live msg mode msg.topic key) :
    ¬ Listens h.live msg mode msg.topic.getGroupTopic key := by
  obtain ⟨s, hs, -, htopic, -⟩ := hl
  rintro ⟨s', hs', -, htopic', -⟩
  obtain rfl := Option.some.inj (hs.symm.trans hs')
  exact htype (Topic.getGroupTopic_eq_self_iff.mp (htopic'.symm.trans htopic))

/-- A message of the type 0 is given twice to a subscription to its group. -/
theorem Inv.not_exactlyOnce_type_zero (hinv : Inv h) {msg : Message β}
    (hvalid : msg.topic.isValid = true) (htype : msg.topic.getType = 0) {mode : SubMode} {key : ℕ}
    (hl : Listens h.live msg mode msg.topic key) :
    ¬ ExactlyOnce h.live msg mode (h.map.post msg mode).1 := by
  classical
  intro hexactly
  have hcalls := hexactly.calls key
  rw [hinv.count_post msg hvalid mode key, Topic.getGroupTopic_eq_self_iff.mpr htype,
    if_pos hl, if_pos ⟨hvalid, hl⟩, if_pos ((due_iff _ _ _ _).mpr (.inl hl))] at hcalls
  simp at hcalls

/-- The group with the key 0 is not looked up. -/
theorem Inv.not_exactlyOnce_group_zero (hinv : Inv h) {msg : Message β}
    (hvalid : msg.topic.isValid = true) (htype : msg.topic.getType ≠ 0)
    (hgroup : ¬ msg.topic.getGroupTopic.isValid = true) {mode : SubMode} {key : ℕ}
    (hl : Listens h.live msg mode msg.topic.getGroupTopic key) :
    ¬ ExactlyOnce h.live msg mode (h.map.post msg mode).1 := by
  classical
  intro hexactly
  have hnone : ¬ Listens h.live msg mode msg.topic key :=
    fun hself ↦ Inv.listens_apart htype hself hl
  have hcalls := hexactly.calls key
  rw [hinv.count_post msg hvalid mode key, if_neg hnone, if_neg fun hand ↦ hgroup hand.1,
    if_pos ((due_iff _ _ _ _).mpr (.inr hl))] at hcalls
  simp at hcalls

theorem Inv.exactlyOnce (hinv : Inv h) {msg : Message β} (hvalid : msg.topic.isValid = true)
    {mode : SubMode} (hseparate : Separate h.live msg mode) :
    ExactlyOnce h.live msg mode (h.map.post msg mode).1 := by
  classical
  refine ⟨fun key ↦ ?_, hinv.callback_post msg mode, count_fst h.map msg mode⟩
  rw [hinv.count_post msg hvalid mode key]
  rcases hseparate with ⟨htype, hgroup⟩ | hnobody
  · by_cases hl : Listens h.live msg mode msg.topic key
    · have hdue := (due_iff _ _ _ _).mpr (Or.inl hl)
      simp [hl, Inv.listens_apart htype hl, hdue]
    · by_cases hg : Listens h.live msg mode msg.topic.getGroupTopic key
      · have hdue := (due_iff _ _ _ _).mpr (Or.inr hg)
        simp [hl, hg, hgroup, hdue]
      · have hdue : ¬ due h.live msg mode key = true := by
          rw [due_iff]
          tauto
        simp [hl, hg, hdue]
  · have hiff : due h.live msg mode key = true ↔ Listens h.live msg mode msg.topic key := by
      rw [due_iff]
      exact or_iff_left (hnobody key)
    by_cases hl : Listens h.live msg mode msg.topic key
    · simp [hl, hiff.mpr hl, hnobody key]
    · simp [hl, mt hiff.mp hl, hnobody key]

/-- Over any history, `post` calls every matching live subscription exactly once
if and only if the group of the topic is another valid topic or nobody listens
to it. -/
theorem post_exactlyOnce_iff (ops : List (Op β C)) (msg : Message β)
    (hvalid : msg.topic.isValid = true) (mode : SubMode) :
    ExactlyOnce (after ops).live msg mode ((after ops).map.post msg mode).1 ↔
      Separate (after ops).live msg mode := by
  have hinv := inv_after ops
  constructor
  · intro hexactly
    by_contra hnot
    obtain ⟨hsame, hlistens⟩ := not_or.mp hnot
    push Not at hlistens
    obtain ⟨key, hkey⟩ := hlistens
    by_cases htype : msg.topic.getType = 0
    · rw [Topic.getGroupTopic_eq_self_iff.mpr htype] at hkey
      exact hinv.not_exactlyOnce_type_zero hvalid htype hkey hexactly
    · exact hinv.not_exactlyOnce_group_zero hvalid htype (fun hv ↦ hsame ⟨htype, hv⟩) hkey hexactly
  · exact hinv.exactlyOnce hvalid

/-- A subscription to a type and one to its group, and a message of that
type. -/
theorem post_exactlyOnce_typed :
    ExactlyOnce
      (after [.subscribe (.make 1 2 3) (fun _ ↦ true) 10 .delayed,
        .subscribe (.make 1 2 0) (fun _ ↦ true) 20 .delayed] : History Unit ℕ).live
      ⟨.make 1 2 3, ()⟩ .delayed
      ((after [.subscribe (.make 1 2 3) (fun _ ↦ true) 10 .delayed,
        .subscribe (.make 1 2 0) (fun _ ↦ true) 20 .delayed] : History Unit ℕ).map.post
        ⟨.make 1 2 3, ()⟩ .delayed).1 :=
  (post_exactlyOnce_iff _ ⟨.make 1 2 3, ()⟩ (by decide) .delayed).mpr (.inl (by decide))

theorem subscribe_of_lt {m : SubMap β C} (hseq : m.seq.current < m.seq.high) (topic : Topic)
    (cond : Message β → Bool) (cb : C) (mode : SubMode) :
    ∃ key m', m.subscribe topic cond cb mode = .ok (key, m') := by
  obtain ⟨key, seq, hnext⟩ := Sequence.next_of_lt hseq
  exact ⟨_, _, subscribe_of_next hnext topic cond cb mode⟩

theorem listens_subscribe (hseq : h.map.seq.current < h.map.seq.high) (topic : Topic) (cb : C)
    (mode : SubMode) (msg : Message β) :
    ∃ key, Listens (h.step (.subscribe topic (fun _ ↦ true) cb mode)).live msg mode topic key := by
  obtain ⟨key, m', hsub⟩ := subscribe_of_lt hseq topic (fun _ ↦ true) cb mode
  refine ⟨key, { key := key, topic := topic, cond := fun _ ↦ true, cb := cb, mode := mode }, ?_,
    rfl, rfl, rfl⟩
  simp only [step, hsub, Table.get?_insert, if_true]

theorem not_exactlyOnce_group :
    ¬ ExactlyOnce
      (after [.subscribe (.make 1 2 0) (fun _ ↦ true) 10 .delayed] : History Unit ℕ).live
      ⟨.make 1 2 0, ()⟩ .delayed
      ((after [.subscribe (.make 1 2 0) (fun _ ↦ true) 10 .delayed] : History Unit ℕ).map.post
        ⟨.make 1 2 0, ()⟩ .delayed).1 := by
  have hseq :
      (initial : History Unit ℕ).map.seq.current < (initial : History Unit ℕ).map.seq.high := by
    rw [initial, initial_seq]
    exact Sequence.make_current_lt (by decide)
  obtain ⟨key, hkey⟩ := listens_subscribe hseq (.make 1 2 0) 10 .delayed ⟨.make 1 2 0, ()⟩
  exact (inv_after _).not_exactlyOnce_type_zero (by decide) (by decide) hkey

end History

end SubMap

end WiseKernel.Core
