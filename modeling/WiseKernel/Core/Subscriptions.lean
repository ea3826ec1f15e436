import WiseKernel.Core.SubMap

/-!
# The two copies of a subscription

What every history of calls on a `sub_map` keeps: the copy in the entry of a
mode and a topic and the copy under the key are the same but for the post count,
and a key is either in use or in the pool.
-/

namespace WiseKernel.Core

open WiseKernel.Lib

variable {β C : Type}

/-- A subscription without its post count, which only the copy in the entry
has. -/
def Sub.base (s : Sub β C) : Sub β C := { s with postCount := 0 }

@[simp] theorem Sub.base_post (s : Sub β C) (m : Message β) : (s.post m).2.base = s.base := by
  simp only [Sub.post]
  split_ifs <;> rfl

namespace EntryMap

/-- The copy under a topic and a key. -/
def find (em : EntryMap β C) (topic : Topic) (key : ℕ) : Option (Sub β C) :=
  (em.get? topic).bind fun subs ↦ subs.get? key

variable {em : EntryMap β C} {s : Sub β C} {t : Topic} {k : ℕ}

theorem find_subscribeMode : (em.subscribeMode s).find t k =
    if t = s.topic ∧ k = s.key then some ((em.find t k).getD s) else em.find t k := by
  by_cases ht : t = s.topic
  · subst ht
    cases h : em.get? s.topic with
    | none =>
        simp only [subscribeMode, h, find, Table.get?_emplace, if_true, Option.getD_none,
          Option.bind_some, true_and, Option.bind_none, Table.get?_empty]
    | some subs =>
        simp only [subscribeMode, h, find, Table.get?_modify, if_true, Option.map_some,
          Option.bind_some, Table.get?_emplace, true_and]
        split_ifs with hk
        · rw [hk]
        · rfl
  · have hne : ¬ (t = s.topic ∧ k = s.key) := fun h ↦ ht h.1
    rw [if_neg hne]
    cases h : em.get? s.topic with
    | none => simp only [subscribeMode, h, find, Table.get?_emplace, if_neg ht]
    | some subs => simp only [subscribeMode, h, find, Table.get?_modify, if_neg ht]

theorem unsubscribeMode_fst : (em.unsubscribeMode s).1 = (em.find s.topic s.key).isSome := by
  unfold unsubscribeMode find
  cases em.get? s.topic with
  | none => rfl
  | some subs =>
      simp only [Option.bind_some]
      cases subs.get? s.key <;> rfl

theorem find_unsubscribeMode : (em.unsubscribeMode s).2.find t k =
    if t = s.topic ∧ k = s.key then (em.find t k).map Sub.unsubscribe else em.find t k := by
  by_cases ht : t = s.topic
  · subst ht
    unfold unsubscribeMode find
    cases h : em.get? s.topic with
    | none => simp [h]
    | some subs =>
        cases hk : subs.get? s.key with
        | none =>
            simp only [hk, h, Option.bind_some, true_and]
            split_ifs with hkey
            · simp [hkey, hk]
            · rfl
        | some s' =>
            simp only [hk, h, Option.bind_some, true_and, Table.get?_modify, if_true,
              Option.map_some]
  · have hne : ¬ (t = s.topic ∧ k = s.key) := fun h ↦ ht h.1
    rw [if_neg hne]
    unfold unsubscribeMode find
    cases h : em.get? s.topic with
    | none => rfl
    | some subs =>
        cases hk : subs.get? s.key with
        | none => simp only [hk]
        | some s' => simp only [hk, Table.get?_modify, if_neg ht]

/-- `post_topic` counts, and changes nothing else. -/
theorem find_postTopic (topic : Topic) (m : Message β) :
    ((em.postTopic topic m).2.find t k).map Sub.base = (em.find t k).map Sub.base := by
  unfold postTopic
  split_ifs
  · rfl
  · cases h : em.get? topic with
    | none => rfl
    | some subs =>
        simp only [find, Table.get?_modify]
        split_ifs with ht
        · rw [ht, h]
          simp only [Option.map_some, Option.bind_some, Table.get?_mapValues, Option.map_map]
          congr 1
          funext s
          simp only [Function.comp_apply]
          split_ifs
          · rfl
          · exact s.base_post m
        · rfl

theorem find_postMode (topic : Topic) (m : Message β) :
    ((em.postMode topic m).2.find t k).map Sub.base = (em.find t k).map Sub.base :=
  (find_postTopic _ m).trans (find_postTopic _ m)

theorem find_purgeMode : (em.purgeMode s).find t k =
    if t = s.topic ∧ k = s.key then none else em.find t k := by
  simp only [purgeMode, find, Table.get?_modify]
  by_cases ht : t = s.topic
  · subst ht
    cases em.get? s.topic with
    | none => simp
    | some subs => simp [Table.get?_erase]
  · simp [ht]

end EntryMap

namespace SubMap

/-- A call on a `sub_map`. -/
inductive Op (β C : Type)
  | subscribe (topic : Topic) (cond : Message β → Bool) (cb : C) (mode : SubMode)
  | unsubscribe (key : ℕ)
  | post (m : Message β) (mode : SubMode)
  | postAt (topic : Topic) (m : Message β) (mode : SubMode)
  | purge
  | clear

/-- The map after a call; a `subscribe` that throws changes nothing. -/
def step (m : SubMap β C) : Op β C → SubMap β C
  | .subscribe topic cond cb mode =>
      match m.subscribe topic cond cb mode with
      | .error _ => m
      | .ok (_, m) => m
  | .unsubscribe key => (m.unsubscribe key).2
  | .post msg mode => (m.post msg mode).2
  | .postAt topic msg mode => (m.postAt topic msg mode).2
  | .purge => m.purge
  | .clear => m.clear

section

variable {m : SubMap β C} {mode mode' : SubMode} {em : EntryMap β C}

theorem entries_congr {m m' : SubMap β C} (himm : m'.entriesImmediate = m.entriesImmediate)
    (hdel : m'.entriesDelayed = m.entriesDelayed) : m'.entries mode = m.entries mode := by
  cases mode with
  | immediate => exact himm
  | delayed => exact hdel

theorem entries_setEntries :
    (m.setEntries mode em).entries mode' = if mode' = mode then em else m.entries mode' := by
  cases mode <;> cases mode' <;> rfl

@[simp] theorem allSubs_setEntries : (m.setEntries mode em).allSubs = m.allSubs := by
  cases mode <;> rfl

@[simp] theorem seq_setEntries : (m.setEntries mode em).seq = m.seq := by
  cases mode <;> rfl

@[simp] theorem purgeKeys_setEntries : (m.setEntries mode em).purgeKeys = m.purgeKeys := by
  cases mode <;> rfl

end

/-- The copies agree, and the keys in use are not in the pool. -/
structure Bookkept (m : SubMap β C) : Prop where
  copies : ∀ mode topic key, ((m.entries mode).find topic key).map Sub.base =
    (m.allSubs.get? key).filter fun s ↦ s.mode = mode ∧ s.topic = topic
  keys : ∀ key s, m.allSubs.get? key = some s → s.key = key ∧ s.base = s
  pool : m.seq.Pool fun key ↦ (m.allSubs.get? key).isSome

theorem initial_allSubs : (initial : SubMap β C).allSubs = ∅ := by
  rw [initial]

theorem bookkept_initial : Bookkept (initial : SubMap β C) where
  copies mode topic key := by
    cases mode <;> rfl
  keys key s h := absurd h (by rw [initial_allSubs]; simp)
  pool := by
    rw [initial_seq, initial_allSubs]
    apply (Sequence.pool_make 1 (2 ^ 32 - 1) 1000 (by decide)).mono
    simp

variable {m m' : SubMap β C}

theorem Bookkept.find_of_none (h : Bookkept m) {key : ℕ} (hkey : m.allSubs.get? key = none)
    (mode : SubMode) (topic : Topic) : (m.entries mode).find topic key = none := by
  have hcopy := h.copies mode topic key
  rw [hkey] at hcopy
  simpa using hcopy

/-- The copy of a subscription in the entry of its mode and topic. -/
theorem Bookkept.find_of_some (h : Bookkept m) {key : ℕ} {s : Sub β C}
    (hkey : m.allSubs.get? key = some s) :
    ∃ s', (m.entries s.mode).find s.topic key = some s' ∧ s'.base = s := by
  have hcopy := h.copies s.mode s.topic key
  rw [hkey, Option.filter_some] at hcopy
  simpa using hcopy

/-- `subscribe` returns a key that is not in use. -/
theorem Bookkept.subscribe_key (h : Bookkept m) {topic : Topic} {cond : Message β → Bool} {cb : C}
    {mode : SubMode} {key : ℕ} (hsub : m.subscribe topic cond cb mode = .ok (key, m')) :
    m.allSubs.get? key = none := by
  unfold subscribe at hsub
  cases hnext : m.seq.next with
  | error e => simp [hnext] at hsub
  | ok p =>
      obtain ⟨key', seq⟩ := p
      simp only [hnext, Except.ok.injEq, Prod.mk.injEq] at hsub
      obtain ⟨rfl, -⟩ := hsub
      simpa using (h.pool.next hnext).1

/-- What `subscribe` adds. -/
theorem Bookkept.subscribe_eq (h : Bookkept m) {topic : Topic} {cond : Message β → Bool} {cb : C}
    {mode : SubMode} {key : ℕ} (hsub : m.subscribe topic cond cb mode = .ok (key, m')) :
    let s : Sub β C := { key := key, topic := topic, cond := cond, cb := cb, mode := mode }
    (∀ k, m'.allSubs.get? k = if k = key then some s else m.allSubs.get? k) ∧
    (∀ mode' t k, (m'.entries mode').find t k =
      if mode' = mode ∧ t = topic ∧ k = key then some s else (m.entries mode').find t k) ∧
    m'.purgeKeys = m.purgeKeys ∧ m'.seq.Pool fun k ↦ k = key ∨ (m.allSubs.get? k).isSome := by
  have hfree := h.subscribe_key hsub
  unfold subscribe at hsub
  cases hnext : m.seq.next with
  | error e => simp [hnext] at hsub
  | ok p =>
      obtain ⟨key', seq⟩ := p
      simp only [hnext, Except.ok.injEq, Prod.mk.injEq] at hsub
      obtain ⟨rfl, rfl⟩ := hsub
      refine ⟨fun k ↦ ?_, fun mode' t k ↦ ?_, by simp, by simpa using (h.pool.next hnext).2⟩
      · rw [allSubs_setEntries, Table.get?_emplace, hfree, Option.getD_none]
      · rw [entries_setEntries]
        have hentries : ∀ mode' allSubs seq,
            entries { m with allSubs := allSubs, seq := seq } mode' =
            m.entries mode' := fun _ _ _ ↦ entries_congr rfl rfl
        simp only [hentries]
        by_cases hmode : mode' = mode
        · subst hmode
          rw [if_pos rfl, EntryMap.find_subscribeMode]
          simp only [true_and]
          refine ite_congr rfl (fun hkey ↦ ?_) fun _ ↦ rfl
          rw [hkey.2, h.find_of_none hfree, Option.getD_none]
        · have hne : ¬ (mode' = mode ∧ t = topic ∧ k = key') := fun hand ↦ hmode hand.1
          rw [if_neg hmode, if_neg hne]

theorem Bookkept.subscribe (h : Bookkept m) {topic : Topic} {cond : Message β → Bool} {cb : C}
    {mode : SubMode} {key : ℕ} (hsub : m.subscribe topic cond cb mode = .ok (key, m')) :
    Bookkept m' := by
  obtain ⟨hall, hentries, -, hpool⟩ := h.subscribe_eq hsub
  have hfree := h.subscribe_key hsub
  refine ⟨fun mode' t k ↦ ?_, fun k s ↦ ?_, ?_⟩
  · rw [hall, hentries]
    by_cases hk : k = key
    · subst hk
      rw [if_pos rfl]
      by_cases hplace : mode' = mode ∧ t = topic
      · simp [hplace, Sub.base, Option.filter_some]
      · have hne : ¬ (mode' = mode ∧ t = topic ∧ k = k) := fun hand ↦ hplace ⟨hand.1, hand.2.1⟩
        rw [if_neg hne, h.find_of_none hfree, Option.map_none, Option.filter_some, if_neg]
        rintro hsame
        have hsame' := of_decide_eq_true hsame
        exact hplace ⟨hsame'.1.symm, hsame'.2.symm⟩
    · have hne : ¬ (mode' = mode ∧ t = topic ∧ k = key) := fun hand ↦ hk hand.2.2
      rw [if_neg hne, if_neg hk]
      exact h.copies mode' t k
  · rw [hall]
    split_ifs with hk
    · intro hs
      obtain rfl := Option.some.inj hs
      exact ⟨hk.symm, rfl⟩
    · exact h.keys k s
  · apply hpool.mono
    intro k hk
    rw [hall] at hk
    split_ifs at hk with hkey
    · exact .inl hkey
    · exact .inr hk

/-- `unsubscribe` marks both copies and queues the key. -/
theorem Bookkept.unsubscribe_eq (h : Bookkept m) {key : ℕ} {s : Sub β C}
    (hkey : m.allSubs.get? key = some s) :
    (m.unsubscribe key).1 = true ∧
    (∀ k, (m.unsubscribe key).2.allSubs.get? k =
      if k = key then some s.unsubscribe else m.allSubs.get? k) ∧
    (∀ mode t k, ((m.unsubscribe key).2.entries mode).find t k =
      if mode = s.mode ∧ t = s.topic ∧ k = key then
        ((m.entries mode).find t k).map Sub.unsubscribe
      else (m.entries mode).find t k) ∧
    (m.unsubscribe key).2.seq = m.seq ∧
    (m.unsubscribe key).2.purgeKeys = m.purgeKeys ++ [key] := by
  have hsame := (h.keys key s hkey).1
  have hentries : ∀ mode allSubs purgeKeys,
      entries { m with allSubs := allSubs, purgeKeys := purgeKeys } mode = m.entries mode :=
    fun _ _ _ ↦ entries_congr rfl rfl
  simp only [SubMap.unsubscribe, hkey, hentries]
  refine ⟨?_, fun k ↦ ?_, fun mode t k ↦ ?_, by simp, by simp⟩
  · obtain ⟨s', hfind, -⟩ := h.find_of_some hkey
    rw [EntryMap.unsubscribeMode_fst, hsame, hfind]
    rfl
  · rw [allSubs_setEntries, Table.get?_modify]
    split_ifs with hk
    · rw [hk, hkey, Option.map_some]
    · rfl
  · rw [entries_setEntries]
    simp only [hentries]
    by_cases hmode : mode = s.mode
    · subst hmode
      rw [if_pos rfl, EntryMap.find_unsubscribeMode, hsame]
      simp only [true_and]
    · have hne : ¬ (mode = s.mode ∧ t = s.topic ∧ k = key) := fun hand ↦ hmode hand.1
      rw [if_neg hmode, if_neg hne]

theorem unsubscribe_of_none {key : ℕ} (hkey : m.allSubs.get? key = none) :
    m.unsubscribe key = (false, m) := by
  simp [SubMap.unsubscribe, hkey]

theorem Bookkept.unsubscribe (h : Bookkept m) (key : ℕ) : Bookkept (m.unsubscribe key).2 := by
  cases hkey : m.allSubs.get? key with
  | none => rwa [unsubscribe_of_none hkey]
  | some s =>
      obtain ⟨-, hall, hentries, hseq, -⟩ := h.unsubscribe_eq hkey
      obtain ⟨hsame, hbase⟩ := h.keys key s hkey
      refine ⟨fun mode t k ↦ ?_, fun k s' ↦ ?_, ?_⟩
      · rw [hall, hentries]
        by_cases hk : k = key
        · subst hk
          have hcopy := h.copies mode t k
          rw [hkey, Option.filter_some] at hcopy
          rw [if_pos rfl, Option.filter_some]
          by_cases hplace : s.mode = mode ∧ s.topic = t
          · obtain ⟨rfl, rfl⟩ := hplace
            obtain ⟨s', hfind, hs'⟩ := h.find_of_some hkey
            rw [if_pos ⟨rfl, rfl, rfl⟩, hfind]
            simp only [Option.map_some, Sub.unsubscribe, and_self, decide_true, if_true]
            rw [← hs']
            rfl
          · have hne : ¬ (mode = s.mode ∧ t = s.topic ∧ k = k) :=
              fun hand ↦ hplace ⟨hand.1.symm, hand.2.1.symm⟩
            have hnot : ¬ decide (s.mode = mode ∧ s.topic = t) = true :=
              fun hand ↦ hplace (of_decide_eq_true hand)
            rw [if_neg hne, hcopy, if_neg hnot]
            exact (if_neg hnot).symm
        · have hne : ¬ (mode = s.mode ∧ t = s.topic ∧ k = key) := fun hand ↦ hk hand.2.2
          rw [if_neg hne, if_neg hk]
          exact h.copies mode t k
      · rw [hall]
        split_ifs with hk
        · intro hs'
          obtain rfl := Option.some.inj hs'
          exact ⟨hsame.trans hk.symm, by rw [← hbase]; rfl⟩
        · exact h.keys k s'
      · rw [hseq]
        apply h.pool.mono
        intro k hk
        rw [hall] at hk
        split_ifs at hk with hkk
        · simp [hkk, hkey]
        · exact hk

theorem Bookkept.postAt (h : Bookkept m) (topic : Topic) (msg : Message β) (mode : SubMode) :
    Bookkept (m.postAt topic msg mode).2 := by
  refine ⟨fun mode' t k ↦ ?_, fun k s ↦ ?_, ?_⟩
  · simp only [SubMap.postAt, entries_setEntries, allSubs_setEntries]
    split_ifs with hmode
    · rw [EntryMap.find_postMode, hmode]
      exact h.copies mode t k
    · exact h.copies mode' t k
  · simp only [SubMap.postAt, allSubs_setEntries]
    exact h.keys k s
  · simp only [SubMap.postAt, seq_setEntries, allSubs_setEntries]
    exact h.pool

theorem Bookkept.purgeKey (h : Bookkept m) (key : ℕ) : Bookkept (m.purgeKey key) := by
  cases hkey : m.allSubs.get? key with
  | none =>
      rw [SubMap.purgeKey, hkey]
      exact h
  | some s =>
      have hsame := (h.keys key s hkey).1
      have hentries : ∀ mode t k, ((m.purgeKey key).entries mode).find t k =
          if t = s.topic ∧ k = key then none else (m.entries mode).find t k := by
        intro mode t k
        simp only [SubMap.purgeKey, hkey]
        cases mode with
        | immediate =>
            change (m.entriesImmediate.purgeMode s).find t k = _
            rw [EntryMap.find_purgeMode, hsame]
            rfl
        | delayed =>
            change (m.entriesDelayed.purgeMode s).find t k = _
            rw [EntryMap.find_purgeMode, hsame]
            rfl
      have hall : ∀ k, (m.purgeKey key).allSubs.get? k =
          if k = key then none else m.allSubs.get? k := by
        intro k
        simp only [SubMap.purgeKey, hkey, Table.get?_erase]
      refine ⟨fun mode t k ↦ ?_, fun k s' ↦ ?_, ?_⟩
      · rw [hentries, hall]
        by_cases hk : k = key
        · subst hk
          rw [if_pos rfl, Option.filter_none]
          split_ifs with hplace
          · rfl
          · have hcopy := h.copies mode t k
            rw [hkey, Option.filter_some, if_neg] at hcopy
            · exact hcopy
            · intro hsame'
              exact hplace ⟨(of_decide_eq_true hsame').2.symm, rfl⟩
        · have hne : ¬ (t = s.topic ∧ k = key) := fun hand ↦ hk hand.2
          rw [if_neg hne, if_neg hk]
          exact h.copies mode t k
      · rw [hall]
        split_ifs
        · simp
        · exact h.keys k s'
      · have hpool := (h.pool.release (n := key) (by simp [hkey])).2
        have hseq : (m.purgeKey key).seq = m.seq.release key := by
          simp only [SubMap.purgeKey, hkey]
        rw [hseq]
        apply hpool.mono
        intro k hk
        rw [hall] at hk
        split_ifs at hk with hkk
        · simp at hk
        · exact ⟨hkk, hk⟩

theorem Bookkept.purgeKeys (h : Bookkept m) (keys : List ℕ) :
    Bookkept (keys.foldl SubMap.purgeKey m) :=
  foldl_invariant h fun _ key h ↦ h.purgeKey key

theorem Bookkept.purge (h : Bookkept m) : Bookkept m.purge := by
  obtain ⟨hcopies, hkeys, hpool⟩ := h.purgeKeys m.purgeKeys
  refine ⟨fun mode t k ↦ ?_, hkeys, hpool⟩
  have hentries : m.purge.entries mode = (m.purgeKeys.foldl SubMap.purgeKey m).entries mode :=
    entries_congr rfl rfl
  rw [hentries]
  exact hcopies mode t k

theorem Bookkept.clear (h : Bookkept m) : Bookkept m.clear := by
  refine ⟨fun mode t k ↦ ?_, fun k s hs ↦ ?_, ?_⟩
  · cases mode <;> rfl
  · simp [SubMap.clear] at hs
  · apply h.pool.mono
    simp [SubMap.clear]

theorem Bookkept.step (h : Bookkept m) (op : Op β C) : Bookkept (m.step op) := by
  cases op with
  | subscribe topic cond cb mode =>
      simp only [SubMap.step]
      cases hsub : m.subscribe topic cond cb mode with
      | error e => exact h
      | ok p => exact h.subscribe hsub
  | unsubscribe key => exact h.unsubscribe key
  | post msg mode => exact h.postAt msg.topic msg mode
  | postAt topic msg mode => exact h.postAt topic msg mode
  | purge => exact h.purge
  | clear => exact h.clear

/-! ## Keys given back -/

/-- A key of the purge list goes back to the pool if it is still in use, and is
not in use any more. -/
theorem Bookkept.released (h : Bookkept m) (keys : List ℕ) :
    ∃ released, (keys.foldl SubMap.purgeKey m).seq.seqs = m.seq.seqs ++ released ∧
      (∀ k ∈ released, k ∈ keys ∧ (m.allSubs.get? k).isSome = true) ∧
      ∀ k, (keys.foldl SubMap.purgeKey m).allSubs.get? k =
        if k ∈ released then none else m.allSubs.get? k := by
  induction keys generalizing m with
  | nil => exact ⟨[], by simp, by simp, by simp⟩
  | cons key keys ih =>
      obtain ⟨released, hseqs, hused, hall⟩ := ih (h.purgeKey key)
      rw [List.foldl_cons]
      cases hkey : m.allSubs.get? key with
      | none =>
          have hsame : m.purgeKey key = m := by
            rw [SubMap.purgeKey, hkey]
          rw [hsame] at hseqs hused hall ⊢
          exact ⟨released, hseqs,
            fun k hk ↦ ⟨List.mem_cons_of_mem _ (hused k hk).1, (hused k hk).2⟩,
            hall⟩
      | some s =>
          have hrelease := (h.pool.release (n := key) (by simp [hkey])).1
          have hseq : (m.purgeKey key).seq = m.seq.release key := by
            simp only [SubMap.purgeKey, hkey]
          have hone : ∀ k, (m.purgeKey key).allSubs.get? k =
              if k = key then none else m.allSubs.get? k := by
            intro k
            simp only [SubMap.purgeKey, hkey, Table.get?_erase]
          refine ⟨key :: released, ?_, fun k hk ↦ ?_, fun k ↦ ?_⟩
          · rw [hseqs, hseq, hrelease, List.append_assoc, List.singleton_append]
          · rcases List.mem_cons.mp hk with rfl | hk
            · simp [hkey]
            · obtain ⟨hmem, hsome⟩ := hused k hk
              rw [hone] at hsome
              split_ifs at hsome
              · simp at hsome
              · exact ⟨List.mem_cons_of_mem _ hmem, hsome⟩
          · rw [hall, hone]
            by_cases hmem : k ∈ released
            · simp [hmem]
            · by_cases hk : k = key
              · simp [hk]
              · simp [hmem, hk]

/-! ## Calls -/

/-- The callbacks that a call runs, each with the key of its subscription. -/
def calls (m : SubMap β C) : Op β C → List (ℕ × C)
  | .post msg mode => (m.post msg mode).1.2
  | .postAt topic msg mode => (m.postAt topic msg mode).1.2
  | _ => []

theorem mem_postSubs {msg : Message β} {subs : List (ℕ × Sub β C)} {c : ℕ × C} :
    c ∈ (EntryMap.postSubs msg subs).2 ↔
      ∃ k s, (k, s) ∈ subs ∧ s.receives msg = true ∧ (s.key, s.cb) = c := by
  induction subs with
  | nil => simp [EntryMap.postSubs]
  | cons p subs ih =>
      obtain ⟨k, s⟩ := p
      simp only [EntryMap.postSubs, List.mem_cons, Prod.mk.injEq]
      split_ifs with hs
      · rw [List.mem_cons, ih]
        constructor
        · rintro (rfl | ⟨k', s', hmem, hrest⟩)
          · exact ⟨k, s, .inl ⟨rfl, rfl⟩, hs, rfl⟩
          · exact ⟨k', s', .inr hmem, hrest⟩
        · rintro ⟨k', s', ⟨rfl, rfl⟩ | hmem, hrest⟩
          · exact .inl hrest.2.symm
          · exact .inr ⟨k', s', hmem, hrest⟩
      · rw [ih]
        constructor
        · rintro ⟨k', s', hmem, hrest⟩
          exact ⟨k', s', .inr hmem, hrest⟩
        · rintro ⟨k', s', ⟨rfl, rfl⟩ | hmem, hrest⟩
          · exact absurd hrest.1 hs
          · exact ⟨k', s', hmem, hrest⟩

theorem mem_postTopic {em : EntryMap β C} {topic : Topic} {msg : Message β} {c : ℕ × C}
    (hc : c ∈ (em.postTopic topic msg).1.2) :
    ∃ k s, em.find topic k = some s ∧ s.receives msg = true ∧ (s.key, s.cb) = c := by
  unfold EntryMap.postTopic at hc
  split_ifs at hc
  · simp at hc
  · cases hsubs : em.get? topic with
    | none => simp [hsubs] at hc
    | some subs =>
        simp only [hsubs] at hc
        obtain ⟨k, s, hmem, hrest⟩ := mem_postSubs.mp hc
        refine ⟨k, s, ?_, hrest⟩
        rw [EntryMap.find, hsubs, Option.bind_some]
        exact Table.mem_toList.mp hmem

theorem find_postTopic_some {em : EntryMap β C} {topic t : Topic} {msg : Message β} {k : ℕ}
    {s : Sub β C} (h : (em.postTopic topic msg).2.find t k = some s) :
    ∃ s', em.find t k = some s' ∧ s'.base = s.base := by
  have hbase : ((em.postTopic topic msg).2.find t k).map Sub.base = (em.find t k).map Sub.base :=
    EntryMap.find_postTopic topic msg
  rw [h, Option.map_some] at hbase
  obtain ⟨s', hfind, hs'⟩ := Option.map_eq_some_iff.mp hbase.symm
  exact ⟨s', hfind, hs'⟩

/-- A callback that runs belongs to a subscription that is not unsubscribed. -/
theorem Bookkept.mem_postAt (h : Bookkept m) {topic : Topic} {msg : Message β} {mode : SubMode}
    {c : ℕ × C} (hc : c ∈ (m.postAt topic msg mode).1.2) :
    ∃ s, m.allSubs.get? c.1 = some s ∧ s.unsub = false := by
  have hcopy : ∀ t k s, (m.entries mode).find t k = some s → m.allSubs.get? k = some s.base := by
    intro t k s hfind
    have hcopies := h.copies mode t k
    rw [hfind, Option.map_some] at hcopies
    exact (Option.filter_eq_some_iff.mp hcopies.symm).1
  have hmem : ∃ t k s, (m.entries mode).find t k = some s ∧ s.unsub = false ∧ s.key = c.1 := by
    rcases List.mem_append.mp hc with hfirst | hsecond
    · obtain ⟨k, s, hfind, hs, rfl⟩ := mem_postTopic hfirst
      exact ⟨_, k, s, hfind, by simpa using (Bool.and_eq_true_iff.mp hs).1, rfl⟩
    · obtain ⟨k, s, hfind, hs, rfl⟩ := mem_postTopic hsecond
      obtain ⟨s', hfind', hbase⟩ := find_postTopic_some hfind
      have hunsub : s'.base.unsub = s.base.unsub := congrArg Sub.unsub hbase
      have hkey : s'.base.key = s.base.key := congrArg Sub.key hbase
      have hlive : s.unsub = false := by simpa using (Bool.and_eq_true_iff.mp hs).1
      exact ⟨_, k, s', hfind', hunsub.trans hlive, hkey⟩
  obtain ⟨t, k, s, hfind, hunsub, hkey⟩ := hmem
  have hall := hcopy t k s hfind
  have hk : s.key = k := (h.keys k _ hall).1
  rw [← hkey, hk]
  exact ⟨_, hall, hunsub⟩

/-- Nothing under `key` is called any more. -/
def Silent (m : SubMap β C) (key : ℕ) : Prop :=
  ∀ s, m.allSubs.get? key = some s → s.unsub = true

/-- The call is a `subscribe` that returns `key`. -/
def Returns (key : ℕ) (m : SubMap β C) (op : Op β C) : Prop :=
  ∃ topic cond cb mode m', op = .subscribe topic cond cb mode ∧
    m.subscribe topic cond cb mode = .ok (key, m')

theorem Bookkept.silent_calls (h : Bookkept m) {key : ℕ} (hs : Silent m key) (op : Op β C) :
    ∀ c ∈ calls m op, c.1 ≠ key := by
  have hpost : ∀ topic msg mode, ∀ c ∈ (m.postAt topic msg mode).1.2, c.1 ≠ key := by
    rintro topic msg mode c hc rfl
    obtain ⟨s, hall, hunsub⟩ := h.mem_postAt hc
    simp [hs s hall] at hunsub
  cases op with
  | post msg mode => exact hpost msg.topic msg mode
  | postAt topic msg mode => exact hpost topic msg mode
  | subscribe | unsubscribe | purge | clear => simp [calls]

theorem Bookkept.silent_step (h : Bookkept m) {key : ℕ} (hs : Silent m key) {op : Op β C}
    (hop : ¬ Returns key m op) : Silent (m.step op) key := by
  cases op with
  | subscribe topic cond cb mode =>
      simp only [SubMap.step]
      cases hsub : m.subscribe topic cond cb mode with
      | error e => exact hs
      | ok p =>
          obtain ⟨key', m'⟩ := p
          have hne : key ≠ key' := by
            rintro rfl
            exact hop ⟨topic, cond, cb, mode, m', rfl, hsub⟩
          intro s hall
          rw [(h.subscribe_eq hsub).1, if_neg hne] at hall
          exact hs s hall
  | unsubscribe key' =>
      cases hkey : m.allSubs.get? key' with
      | none => simpa only [SubMap.step, unsubscribe_of_none hkey] using hs
      | some s =>
          intro s' hall
          simp only [SubMap.step, (h.unsubscribe_eq hkey).2.1] at hall
          split_ifs at hall with hk
          · obtain rfl := Option.some.inj hall
            rfl
          · exact hs s' hall
  | post msg mode | postAt topic msg mode =>
      intro s hall
      simp only [SubMap.step, SubMap.post, SubMap.postAt, allSubs_setEntries] at hall
      exact hs s hall
  | purge =>
      obtain ⟨released, -, -, hall⟩ := h.released m.purgeKeys
      intro s hkey
      rw [SubMap.step, SubMap.purge, hall] at hkey
      split_ifs at hkey
      exact hs s hkey
  | clear =>
      intro s hall
      simp [SubMap.step, SubMap.clear] at hall

theorem Bookkept.silent_throughout (h : Bookkept m) {key : ℕ} (hs : Silent m key)
    {later : List (Op β C)}
    (hlater : Throughout SubMap.step (fun m op ↦ ¬ Returns key m op) m later) :
    Throughout SubMap.step (fun m op ↦ ∀ c ∈ calls m op, c.1 ≠ key) m later := by
  induction later generalizing m with
  | nil => trivial
  | cons op later ih =>
      exact ⟨h.silent_calls hs op, ih (h.step op) (h.silent_step hs hlater.1) hlater.2⟩

theorem bookkept_history (ops : List (Op β C)) : Bookkept (ops.foldl SubMap.step initial) :=
  foldl_invariant bookkept_initial fun _ op h ↦ h.step op

/-- The bookkeeping of the subscriptions after any history of calls. -/
theorem subscriptions_bookkept (ops : List (Op β C)) :
    let m := ops.foldl SubMap.step initial
    (∀ mode topic key, ((m.entries mode).find topic key).isSome = true ↔
      ∃ s, m.allSubs.get? key = some s ∧ s.mode = mode ∧ s.topic = topic) ∧
    (∀ key s s', m.allSubs.get? key = some s → (m.entries s.mode).find s.topic key = some s' →
      s'.unsub = s.unsub) ∧
    (∀ key, (m.unsubscribe key).1 = true → ∀ later,
      Throughout SubMap.step (fun m op ↦ ¬ Returns key m op) (m.unsubscribe key).2 later →
      Throughout SubMap.step (fun m op ↦ ∀ c ∈ calls m op, c.1 ≠ key) (m.unsubscribe key).2 later) ∧
    (∀ topic cond cb mode key m', m.subscribe topic cond cb mode = .ok (key, m') →
      m.allSubs.get? key = none) ∧
    (∃ released, m.purge.seq.seqs = m.seq.seqs ++ released ∧ released.Nodup ∧
      ∀ key ∈ released, (m.allSubs.get? key).isSome = true ∧ key ∉ m.seq.seqs ∧
        m.purge.allSubs.get? key = none) ∧
    (∀ key s, m.allSubs.get? key = some s → s.key = key ∧ key ∉ m.seq.seqs) := by
  intro m
  have h : Bookkept m := bookkept_history ops
  refine ⟨fun mode topic key ↦ ?_, fun key s s' hall hfind ↦ ?_, fun key htrue later hlater ↦ ?_,
    fun topic cond cb mode key m' hsub ↦ h.subscribe_key hsub, ?_, fun key s hall ↦ ?_⟩
  · have hcopy := congrArg Option.isSome (h.copies mode topic key)
    rw [Option.isSome_map] at hcopy
    rw [hcopy, Option.isSome_filter, Option.any_eq_true]
    simp
  · obtain ⟨s'', hfind', hbase⟩ := h.find_of_some hall
    obtain rfl := Option.some.inj (hfind.symm.trans hfind')
    rw [← hbase]
    rfl
  · refine (h.unsubscribe key).silent_throughout ?_ hlater
    cases hkey : m.allSubs.get? key with
    | none => simp [unsubscribe_of_none hkey] at htrue
    | some s =>
        intro s' hall
        rw [(h.unsubscribe_eq hkey).2.1, if_pos rfl] at hall
        obtain rfl := Option.some.inj hall
        rfl
  · obtain ⟨released, hseqs, hused, hall⟩ := h.released m.purgeKeys
    have hnodup := h.purge.pool.nodup
    change (m.purgeKeys.foldl SubMap.purgeKey m).seq.seqs.Nodup at hnodup
    rw [hseqs, List.nodup_append] at hnodup
    refine ⟨released, hseqs, hnodup.2.1, fun key hkey ↦ ⟨(hused key hkey).2, fun hmem ↦ ?_, ?_⟩⟩
    · exact hnodup.2.2 key hmem key hkey rfl
    · exact (hall key).trans (if_pos hkey)
  · exact ⟨(h.keys key s hall).1, fun hmem ↦ h.pool.apart key hmem (by simp [hall])⟩

end SubMap

end WiseKernel.Core
