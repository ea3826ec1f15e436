import WiseKernel.Core.Channel
import WiseKernel.Core.Delivery

/-!
# Publishing under a separate topic

`publish(topic, m)` posts under the topic and its group.  It does not post under
the topic of the message after that, and a subscription is only called if it
matches the topic of the message.
-/

namespace WiseKernel.Core

open WiseKernel.Lib

theorem Topic.getGroupTopic_idem (t : Topic) : t.getGroupTopic.getGroupTopic = t.getGroupTopic := by
  apply Topic.ext_toNat
  rw [Topic.getGroupTopic_toNat, Topic.getGroupTopic_toNat]
  omega

variable {β C : Type}

namespace Channel

/-- `publish(topic, m)`: the count, the callbacks and the channel after it. -/
def publishAt (s : Channel β C) (topic : Topic) (m : Message β) :
    (ℕ × List (ℕ × C)) × Channel β C :=
  let s := { s with queue := s.queue ++ [m] }
  let (posted, map) := s.map.postAt topic m .immediate
  (posted, { s with map := map })

end Channel

/-- Without another thread in between, the two steps of a call are `publishAt`. -/
theorem Traffic.step_publish_proceed {T : Type} [DecidableEq T] [Fintype T] (limit : ℕ) (e : T)
    (w : Traffic T β C) (t : T) (topic : Topic) (m : Message β) (hcall : w.mayCall e t = true) :
    ∃ w', (w.step limit e (.publish t (some topic) m)).bind
        (fun w ↦ w.step limit e (.proceed t)) = some w' ∧
      w'.chan = (w.chan.publishAt topic m).2 := by
  simp only [step, hcall, if_true, Option.bind_some, proceed, goto, Function.update_self,
    List.getElem?_concat_length, Option.map_some, Option.getD_some]
  exact ⟨_, rfl, rfl⟩

namespace SubMap.History

/-- Whom a posting of `msg` under the topic is for: the live immediate subscriptions
to it or to its group whose condition holds. -/
def Audience (live : Table ℕ (Sub β C)) (msg : Message β) (topic : Topic) (key : ℕ) : Prop :=
  Listens live msg .immediate topic key ∨ Listens live msg .immediate topic.getGroupTopic key

/-- First the audience of the topic is called, then that of the topic of the message;
the calls are counted, and the message is queued once. -/
structure ReachesBoth (live : Table ℕ (Sub β C)) (s : Channel β C) (topic : Topic)
    (msg : Message β) (result : (ℕ × List (ℕ × C)) × Channel β C) : Prop where
  turns : ∃ first second, result.1.2 = first ++ second ∧
    (first.map Prod.fst).Nodup ∧ (second.map Prod.fst).Nodup ∧
    (∀ key, key ∈ first.map Prod.fst ↔ Audience live msg topic key) ∧
    ∀ key, key ∈ second.map Prod.fst ↔ Audience live msg msg.topic key
  count : result.1.1 = result.1.2.length
  queue : result.2.queue = s.queue ++ [msg]

/-- Nobody listens, or the topic is the group of the message's topic and all that
listen to the message do so by that group. -/
def GroupOnly (live : Table ℕ (Sub β C)) (topic : Topic) (msg : Message β) : Prop :=
  (∀ key, ¬ Audience live msg topic key ∧ ¬ Audience live msg msg.topic key) ∨
    topic = msg.topic.getGroupTopic ∧ topic.isValid = true ∧
      ∀ key, Audience live msg msg.topic key → Listens live msg .immediate topic key

variable {h : History β C} {live : Table ℕ (Sub β C)} {msg : Message β} {mode : SubMode}
  {t t' : Topic} {key : ℕ}

theorem Listens.topic_eq (hl : Listens live msg mode t key) (hl' : Listens live msg mode t' key) :
    t = t' := by
  obtain ⟨s, hs, -, htopic, -⟩ := hl
  obtain ⟨s', hs', -, htopic', -⟩ := hl'
  obtain rfl := Option.some.inj (hs.symm.trans hs')
  exact htopic.symm.trans htopic'

/-- The keys called under the topic and under its group. -/
theorem Inv.postAt_calls (hinv : Inv h) (topic : Topic) (msg : Message β) :
    ∃ own group, (h.map.postAt topic msg .immediate).1.2 = own ++ group ∧
      (own.map Prod.fst).Nodup ∧ (group.map Prod.fst).Nodup ∧
      (∀ key, key ∈ own.map Prod.fst ↔ topic.isValid = true ∧
        topic.matchTopic msg.topic = true ∧ Listens h.live msg .immediate topic key) ∧
      ∀ key, key ∈ group.map Prod.fst ↔ topic.getGroupTopic.isValid = true ∧
        topic.getGroupTopic.matchTopic msg.topic = true ∧
          Listens h.live msg .immediate topic.getGroupTopic key := by
  have hem : Copies h (h.map.entries .immediate) .immediate := hinv.book.copies .immediate
  obtain ⟨hnodup, hmem⟩ := hinv.keys_postTopic hem topic msg
  obtain ⟨hnodup', hmem'⟩ :=
    hinv.keys_postTopic (hem.postTopic topic msg) topic.getGroupTopic msg
  exact ⟨_, _, rfl, hnodup, hnodup', hmem, hmem'⟩

theorem count_postAt (m : SubMap β C) (topic : Topic) (msg : Message β) :
    (m.postAt topic msg .immediate).1.1 = (m.postAt topic msg .immediate).1.2.length := by
  change ((m.entries .immediate).postTopic topic msg).1.1 +
      ((((m.entries .immediate).postTopic topic msg).2).postTopic topic.getGroupTopic msg).1.1 =
    (((m.entries .immediate).postTopic topic msg).1.2 ++
      ((((m.entries .immediate).postTopic topic msg).2).postTopic
        topic.getGroupTopic msg).1.2).length
  rw [List.length_append, postTopic_count, postTopic_count]

/-- A subscription that is called belongs to both audiences. -/
theorem audience_of_match (hmatch : t.matchTopic msg.topic = true)
    (hl : Listens live msg .immediate t key) : Audience live msg msg.topic key := by
  rcases Topic.matchTopic_iff.mp hmatch with rfl | rfl
  · exact .inl hl
  · exact .inr hl

theorem Inv.reachesBoth (hinv : Inv h) (s : Channel β C) (hmap : s.map = h.map)
    (hgroup : GroupOnly h.live t msg) : ReachesBoth h.live s t msg (s.publishAt t msg) := by
  obtain ⟨own, group, hcalls, hnodup, hnodup', hown, hgroup'⟩ := hinv.postAt_calls t msg
  have hresult : (s.publishAt t msg).1 = (h.map.postAt t msg .immediate).1 := by
    rw [← hmap]
    rfl
  refine ⟨?_, ?_, rfl⟩
  · refine ⟨own, group, hresult ▸ hcalls, hnodup, hnodup', ?_, ?_⟩
    · intro key
      rw [hown]
      rcases hgroup with hnone | ⟨rfl, hvalid, -⟩
      · refine iff_of_false ?_ (hnone key).1
        rintro ⟨-, -, hl⟩
        exact (hnone key).1 (.inl hl)
      · have hmatch : msg.topic.getGroupTopic.matchTopic msg.topic = true :=
          Topic.matchTopic_iff.mpr (.inr rfl)
        rw [Audience, Topic.getGroupTopic_idem, or_self]
        exact ⟨fun hk ↦ hk.2.2, fun hl ↦ ⟨hvalid, hmatch, hl⟩⟩
    · intro key
      rw [hgroup']
      rcases hgroup with hnone | ⟨rfl, hvalid, hall⟩
      · refine iff_of_false ?_ (hnone key).2
        rintro ⟨-, -, hl⟩
        exact (hnone key).1 (.inr hl)
      · have hmatch : msg.topic.getGroupTopic.matchTopic msg.topic = true :=
          Topic.matchTopic_iff.mpr (.inr rfl)
        rw [Topic.getGroupTopic_idem]
        exact ⟨fun hk ↦ .inr hk.2.2, fun haudience ↦ ⟨hvalid, hmatch, hall key haudience⟩⟩
  · rw [hresult]
    exact count_postAt h.map t msg

theorem Inv.groupOnly (hinv : Inv h) (s : Channel β C) (hmap : s.map = h.map)
    (hboth : ReachesBoth h.live s t msg (s.publishAt t msg)) : GroupOnly h.live t msg := by
  obtain ⟨own, group, hcalls, hnodup, hnodup', hown, hgroup⟩ := hinv.postAt_calls t msg
  obtain ⟨⟨first, second, hsplit, -, -, hfirst, hsecond⟩, -, -⟩ := hboth
  have hresult : (s.publishAt t msg).1 = (h.map.postAt t msg .immediate).1 := by
    rw [← hmap]
    rfl
  have heq :
      first.map Prod.fst ++ second.map Prod.fst = own.map Prod.fst ++ group.map Prod.fst := by
    rw [← List.map_append, ← List.map_append, ← hcalls, ← hsplit, hresult]
  have hboth : ∀ key ∈ own.map Prod.fst ++ group.map Prod.fst,
      Audience h.live msg t key ∧ Audience h.live msg msg.topic key := by
    intro key hkey
    rcases List.mem_append.mp hkey with hkey | hkey
    · obtain ⟨-, hmatch, hl⟩ := (hown key).mp hkey
      exact ⟨.inl hl, audience_of_match hmatch hl⟩
    · obtain ⟨-, hmatch, hl⟩ := (hgroup key).mp hkey
      exact ⟨.inr hl, audience_of_match hmatch hl⟩
  by_cases hapart : ∀ key ∈ own.map Prod.fst, key ∉ group.map Prod.fst
  · -- nobody is called twice, so nobody belongs to both audiences
    have hall : (first.map Prod.fst ++ second.map Prod.fst).Nodup := by
      rw [heq, List.nodup_append]
      refine ⟨hnodup, hnodup', ?_⟩
      rintro key hkey _ hkey' rfl
      exact hapart key hkey hkey'
    have hnone (key : ℕ) : key ∉ own.map Prod.fst ++ group.map Prod.fst := by
      intro hkey
      obtain ⟨hself, hmsg⟩ := hboth key hkey
      exact (List.nodup_append.mp hall).2.2 key ((hfirst key).mpr hself) key
        ((hsecond key).mpr hmsg) rfl
    refine .inl fun key ↦ ⟨fun hself ↦ hnone key ?_, fun hmsg ↦ hnone key ?_⟩
    · rw [← heq]
      exact List.mem_append_left _ ((hfirst key).mpr hself)
    · rw [← heq]
      exact List.mem_append_right _ ((hsecond key).mpr hmsg)
  · push Not at hapart
    obtain ⟨key, hkey, hkey'⟩ := hapart
    obtain ⟨hvalid, hmatch, hl⟩ := (hown key).mp hkey
    have hself : t = t.getGroupTopic := hl.topic_eq ((hgroup key).mp hkey').2.2
    have htopic : t = msg.topic.getGroupTopic := by
      rcases Topic.matchTopic_iff.mp hmatch with rfl | rfl
      · exact hself
      · rfl
    refine .inr ⟨htopic, hvalid, fun k hmsg ↦ ?_⟩
    have hcalled := List.mem_append_right (first.map Prod.fst) ((hsecond k).mpr hmsg)
    rw [heq] at hcalled
    rcases List.mem_append.mp hcalled with hk | hk
    · exact ((hown k).mp hk).2.2
    · rw [hself]
      exact ((hgroup k).mp hk).2.2

/-- The channel with the subscriptions that a history of calls has made. -/
def channelAfter (s : Channel β C) (ops : List (Op β C)) : Channel β C :=
  { s with map := (after ops).map }

theorem groupOnly_of_reaches {ops : List (Op β C)} {s : Channel β C}
    (hboth : ReachesBoth (after ops).live (channelAfter s ops) t msg
      ((channelAfter s ops).publishAt t msg)) : GroupOnly (after ops).live t msg :=
  (inv_after ops).groupOnly _ rfl hboth

/-- Over any history of calls, `publish(topic, m)` reaches both audiences in turn
if and only if there is nobody to reach, or the topic is the group of the message's
topic and nobody listens to the message but by that group. -/
theorem publish_reaches_iff (ops : List (Op β C)) (s : Channel β C) (topic : Topic)
    (msg : Message β) :
    ReachesBoth (after ops).live (channelAfter s ops) topic msg
        ((channelAfter s ops).publishAt topic msg) ↔
      GroupOnly (after ops).live topic msg :=
  ⟨groupOnly_of_reaches, (inv_after ops).reachesBoth _ rfl⟩

/-- A message published under an unrelated topic does not reach those that listen to
the topic of the message. -/
theorem not_publish_reaches : ¬ ∀ (ops : List (Op Unit ℕ)) (s : Channel Unit ℕ) (topic : Topic)
    (msg : Message Unit), ReachesBoth (after ops).live (channelAfter s ops) topic msg
      ((channelAfter s ops).publishAt topic msg) := by
  intro hall
  have hboth := hall [.subscribe (.make 1 2 3) (fun _ ↦ true) 10 .immediate] .initial
    (.make 4 5 6) ⟨.make 1 2 3, ()⟩
  have hseq :
      (initial : History Unit ℕ).map.seq.current < (initial : History Unit ℕ).map.seq.high := by
    rw [initial, initial_seq]
    exact Sequence.make_current_lt (by decide)
  obtain ⟨key, hkey⟩ :=
    listens_subscribe hseq (.make 1 2 3) 10 .immediate (⟨.make 1 2 3, ()⟩ : Message Unit)
  rcases groupOnly_of_reaches hboth with hnone | ⟨htopic, -⟩
  · exact (hnone key).2 (.inl hkey)
  · exact absurd htopic (by decide)

end SubMap.History

end WiseKernel.Core
