import WiseKernel.Net.TcpSession

/-!
# The end of a session

`close` marks a session as destroyed only when no operation is under way, but
`error` tells the protocol in any case, and the node drops the session then.
There is one chain of reads, so the protocol is told once; it is told with
nothing under way as long as `error` does not find a write under way.
-/

namespace WiseKernel.Net

namespace TcpSession

variable {T : Type} [DecidableEq T] {s s' : TcpSession T} {t : T} {p : Place} {turn turn' : Turn T}

omit [DecidableEq T] in
@[simp] theorem closeBlock_reads : s.closeBlock.reads = s.reads := by
  obtain ⟨_, _, h⟩ := closeBlock_eq (s := s)
  rw [h]

omit [DecidableEq T] in
@[simp] theorem closeBlock_recving : s.closeBlock.recving = s.recving := by
  obtain ⟨_, _, h⟩ := closeBlock_eq (s := s)
  rw [h]

omit [DecidableEq T] in
@[simp] theorem closeBlock_errors : s.closeBlock.errors = s.errors := by
  obtain ⟨_, _, h⟩ := closeBlock_eq (s := s)
  rw [h]

omit [DecidableEq T] in
@[simp] theorem closeBlock_sending : s.closeBlock.sending = s.sending := by
  obtain ⟨_, _, h⟩ := closeBlock_eq (s := s)
  rw [h]

omit [DecidableEq T] in
theorem closeBlock_isOpen (h : s.destroyed = false ∨ s.isOpen = false) :
    s.closeBlock.isOpen = false := by
  unfold closeBlock
  dsimp only
  split_ifs with hdestroyed
  · rcases h with hnot | hclosed
    · exact absurd hdestroyed (by simp [hnot])
    · exact hclosed
  · rfl
  · rfl

/-! ## One read at a time -/

/-- In the chain of reads: `request_recv`, the completion, `error`. -/
def Place.receives : Place → Bool
  | .checkRecv _ | .startRead | .clearRecving _ | .close true | .report => true
  | _ => false

/-- Between setting and clearing `recving_`. -/
def Place.reading : Place → Bool
  | .startRead | .clearRecving _ => true
  | _ => false

/-- Who has the chain of reads, a thread or a read under way; nobody once it
has ended. -/
structure Receives (s : TcpSession T) (turn : Turn T) : Prop where
  places : ∀ t, (s.place t).receives = true ↔ turn = .thread t
  reads : s.reads = if turn = .flight then 1 else 0
  flag : s.recving = true ↔ turn = .flight ∨ ∃ t, turn = .thread t ∧ (s.place t).reading = true
  errors : s.errors ≤ if turn = .free then 1 else 0

theorem receives_initial (t : T) : Receives (initial t) (.thread t) where
  places u := by
    by_cases h : u = t
    · subst h
      simp [initial, Place.receives]
    · simp [initial, h, Place.receives, Ne.symm h]
  reads := rfl
  flag := by simp [initial, Place.reading]
  errors := Nat.le_refl 0

/-- The sending side does not touch any of this. -/
theorem Receives.frame (h : Receives s turn) (hplace : s'.place = s.place)
    (hreads : s'.reads = s.reads) (hrecving : s'.recving = s.recving)
    (herrors : s'.errors = s.errors) : Receives s' turn where
  places u := by rw [hplace, h.places]
  reads := by rw [hreads, h.reads]
  flag := by rw [hrecving, hplace, h.flag]
  errors := by rw [herrors]; exact h.errors

/-- A thread that is not in the chain moves on. -/
theorem Receives.move (h : Receives s turn) (hold : (s.place t).receives = false)
    (hnew : p.receives = false) : Receives (s.goto t p) turn where
  places := places_move h.places hold hnew
  reads := h.reads
  flag := by
    change s.recving = true ↔ _
    rw [h.flag]
    apply or_congr_right
    constructor
    · rintro ⟨u, hu, hreading⟩
      have hne : u ≠ t := by
        rintro rfl
        rw [(h.places u).mpr hu] at hold
        exact absurd hold (by decide)
      exact ⟨u, hu, by rwa [goto_place_of_ne hne]⟩
    · rintro ⟨u, hu, hreading⟩
      have hne : u ≠ t := by
        rintro rfl
        rw [(h.places u).mpr hu] at hold
        exact absurd hold (by decide)
      exact ⟨u, hu, by rwa [goto_place_of_ne hne] at hreading⟩
  errors := h.errors

/-- A step of the chain: the thread `t` is the only one in it. -/
theorem Receives.pass (h : Receives s turn) (hold : ∀ u ≠ t, turn ≠ .thread u)
    (hnew : ∀ u ≠ t, turn' ≠ .thread u) (hp : p.receives = true ↔ turn' = .thread t)
    (hplace : s'.place = s.place) (hreads : s'.reads = if turn' = .flight then 1 else 0)
    (hflag : s'.recving = true ↔ turn' = .flight ∨ turn' = .thread t ∧ p.reading = true)
    (herrors : s'.errors ≤ if turn' = .free then 1 else 0) :
    Receives (s'.goto t p) turn' where
  places := by
    have hplaces : ∀ u, (s'.place u).receives = true ↔ turn = .thread u := by
      rw [hplace]
      exact h.places
    exact places_goto hplaces hold hnew hp
  reads := hreads
  flag := by
    change s'.recving = true ↔ _
    rw [hflag]
    apply or_congr_right
    constructor
    · rintro ⟨hturn, hreading⟩
      exact ⟨t, hturn, by rwa [goto_place_self]⟩
    · rintro ⟨u, hturn, hreading⟩
      have hu : u = t := by
        by_contra hne
        exact hnew u hne hturn
      subst hu
      exact ⟨hturn, by rwa [goto_place_self] at hreading⟩
  errors := herrors

theorem Receives.recving_of_thread (h : Receives s (.thread t)) :
    s.recving = (s.place t).reading := by
  rw [Bool.eq_iff_iff, h.flag]
  simp

theorem Receives.proceed (h : Receives s turn) (hstep : s.proceed t = some s') :
    ∃ turn', Receives s' turn' := by
  have hturn : (s.place t).receives = true → Receives s (.thread t) := by
    intro hreceives
    rwa [← (h.places t).mp hreceives]
  have hother : ∀ u ≠ t, (Turn.thread t : Turn T) ≠ .thread u := by
    intro u hu heq
    exact hu (Turn.thread.inj heq).symm
  unfold TcpSession.proceed at hstep
  cases hplace : s.place t with
  | idle => simp [hplace] at hstep
  | append data =>
      simp only [hplace, Option.map_eq_some_iff] at hstep
      obtain ⟨b, -, rfl⟩ := hstep
      have hframe : Receives { s with sendBuffer := b, appended := s.appended ++ data } turn :=
        h.frame rfl rfl rfl rfl
      exact ⟨turn, hframe.move (by simp [hplace, Place.receives]) rfl⟩
  | checkSend =>
      simp only [hplace] at hstep
      split_ifs at hstep
      · obtain rfl := Option.some.inj hstep
        exact ⟨turn, h.move (by simp [hplace, Place.receives]) rfl⟩
      · obtain rfl := Option.some.inj hstep
        have hframe : Receives { s with sending := true } turn := h.frame rfl rfl rfl rfl
        exact ⟨turn, hframe.move (by simp [hplace, Place.receives]) rfl⟩
  | transfer =>
      simp only [hplace] at hstep
      obtain rfl := Option.some.inj hstep
      refine ⟨turn, Receives.move (h.frame rfl rfl rfl rfl) ?_ rfl⟩
      simp [hplace, Place.receives]
  | startWrite =>
      simp only [hplace] at hstep
      obtain rfl := Option.some.inj hstep
      refine ⟨turn, Receives.move (h.frame rfl rfl rfl rfl) ?_ rfl⟩
      simp [hplace, Place.receives]
  | release =>
      simp only [hplace] at hstep
      obtain rfl := Option.some.inj hstep
      refine ⟨turn, Receives.move (h.frame rfl rfl rfl rfl) ?_ rfl⟩
      simp [hplace, Place.receives]
  | clearSending =>
      simp only [hplace] at hstep
      obtain rfl := Option.some.inj hstep
      refine ⟨turn, Receives.move (h.frame rfl rfl rfl rfl) ?_ rfl⟩
      simp [hplace, Place.receives]
  | checkRecv begun =>
      simp only [hplace] at hstep
      have ht := hturn (by simp [hplace, Place.receives])
      have hrecving : s.recving = false := by simp [ht.recving_of_thread, hplace, Place.reading]
      have hreads : s.reads = 0 := ht.reads
      have herrors : s.errors = 0 := Nat.le_zero.mp ht.errors
      split_ifs at hstep
      · obtain rfl := Option.some.inj hstep
        exact ⟨.free, ht.pass hother (by simp) (by simp [Place.receives]) rfl hreads
          (by simp [hrecving]) (by simp [herrors])⟩
      · obtain rfl := Option.some.inj hstep
        exact ⟨.thread t, ht.pass hother hother (by simp [Place.receives]) rfl hreads
          (by simp [hrecving, Place.reading]) (by simp [herrors])⟩
      · obtain rfl := Option.some.inj hstep
        exact ⟨.thread t, ht.pass hother hother (by simp [Place.receives]) rfl hreads
          (by simp [Place.reading]) (by simp [herrors])⟩
  | startRead =>
      simp only [hplace] at hstep
      obtain rfl := Option.some.inj hstep
      have ht := hturn (by simp [hplace, Place.receives])
      have hrecving : s.recving = true := by simp [ht.recving_of_thread, hplace, Place.reading]
      have hreads : s.reads = 0 := ht.reads
      exact ⟨.flight, ht.pass hother (by simp) (by simp [Place.receives]) rfl (by simp [hreads])
        (by simp [hrecving]) ht.errors⟩
  | clearRecving receipt =>
      simp only [hplace] at hstep
      obtain rfl := Option.some.inj hstep
      have ht := hturn (by simp [hplace, Place.receives])
      refine ⟨.thread t, ht.pass hother hother ?_ rfl ht.reads ?_ ht.errors⟩
      · split_ifs <;> simp [Place.receives]
      · split_ifs <;> simp [Place.reading]
  | close report =>
      simp only [hplace] at hstep
      obtain rfl := Option.some.inj hstep
      have hframe : Receives s.closeBlock turn :=
        h.frame closeBlock_place closeBlock_reads closeBlock_recving closeBlock_errors
      cases report with
      | false => exact ⟨turn, hframe.move (by simp [hplace, Place.receives]) rfl⟩
      | true =>
          have ht := hturn (by simp [hplace, Place.receives])
          have hrecving : s.recving = false := by
            simp [ht.recving_of_thread, hplace, Place.reading]
          refine ⟨.thread t, ht.pass hother hother (by simp [Place.receives]) closeBlock_place
            ?_ ?_ ?_⟩
          · rw [closeBlock_reads]
            exact ht.reads
          · rw [closeBlock_recving]
            simp [hrecving, Place.reading]
          · rw [closeBlock_errors]
            exact ht.errors
  | report =>
      simp only [hplace] at hstep
      obtain rfl := Option.some.inj hstep
      have ht := hturn (by simp [hplace, Place.receives])
      have hrecving : s.recving = false := by simp [ht.recving_of_thread, hplace, Place.reading]
      have herrors : s.errors = 0 := Nat.le_zero.mp ht.errors
      exact ⟨.free, ht.pass hother (by simp) (by simp [Place.receives]) rfl ht.reads
        (by simp [hrecving]) (by simp [herrors])⟩

theorem Receives.step (h : Receives s turn) {act : Action T} (hstep : s.step act = some s') :
    ∃ turn', Receives s' turn' := by
  cases act with
  | send t data =>
      simp only [TcpSession.step] at hstep
      split_ifs at hstep with hplace hopen
      · obtain rfl := Option.some.inj hstep
        exact ⟨turn, h.move (by rw [hplace]; rfl) rfl⟩
      · obtain rfl := Option.some.inj hstep
        exact ⟨turn, h⟩
  | disconnect t =>
      simp only [TcpSession.step] at hstep
      split_ifs at hstep with hplace
      obtain rfl := Option.some.inj hstep
      exact ⟨turn, h.move (by rw [hplace]; rfl) rfl⟩
  | writeCompleted t i =>
      simp only [TcpSession.step] at hstep
      split_ifs at hstep with hwrite
      obtain rfl := Option.some.inj hstep
      refine ⟨turn, Receives.move (h.frame rfl rfl rfl rfl) ?_ rfl⟩
      simp [hwrite.1, Place.receives]
  | readCompleted t receipt =>
      simp only [TcpSession.step] at hstep
      split_ifs at hstep with hread
      obtain rfl := Option.some.inj hstep
      obtain rfl : turn = .flight := by
        by_contra hne
        have hreads := h.reads
        rw [if_neg hne] at hreads
        omega
      have hreads : s.reads = 1 := h.reads
      have hrecving : s.recving = true := h.flag.mpr (.inl rfl)
      exact ⟨.thread t, h.pass (by simp) (by simp [eq_comm]) (by simp [Place.receives]) rfl
        (by simp [hreads]) (by simp [hrecving, Place.reading]) h.errors⟩
  | proceed t => exact h.proceed hstep

theorem ReachedWhile.receives {ok : TcpSession T → Action T → Prop}
    (h : ReachedWhile ok (initial t) s) : ∃ turn, Receives s turn := by
  induction h with
  | refl => exact ⟨.thread t, receives_initial t⟩
  | tail _ hstep ih =>
      obtain ⟨turn, hreceives⟩ := ih
      obtain ⟨act, -, hact⟩ := hstep
      exact hreceives.step hact

/-! ## Nothing under way behind an error -/

/-- A step that neither closes nor reports: a write starts only on an open
socket. -/
structure Keeps (s s' : TcpSession T) : Prop where
  isOpen : s'.isOpen = s.isOpen
  destroyed : s'.destroyed = s.destroyed
  sending : s'.sending = true → s.sending = true ∨ s.isOpen = true
  errors : s'.errors = s.errors
  places : ∀ t, s'.place t = .report → s.place t = .report

theorem keeps_goto (hp : p ≠ .report) (hopen : s'.isOpen = s.isOpen)
    (hdestroyed : s'.destroyed = s.destroyed)
    (hsending : s'.sending = true → s.sending = true ∨ s.isOpen = true)
    (herrors : s'.errors = s.errors) (hplace : s'.place = s.place) :
    Keeps s (s'.goto t p) where
  isOpen := hopen
  destroyed := hdestroyed
  sending := hsending
  errors := herrors
  places u hu := by
    by_cases hut : u = t
    · subst hut
      rw [goto_place_self] at hu
      exact absurd hu hp
    · rwa [goto_place_of_ne hut, hplace] at hu

/-- What a step can do to the socket and to the count of errors. -/
theorem step_cases {act : Action T} (hstep : s.step act = some s') :
    Keeps s s' ∨
    (∃ t report, act = .proceed t ∧ s.place t = .close report ∧
      s' = s.closeBlock.goto t (if report then .report else .idle)) ∨
    (∃ t, act = .proceed t ∧ s.place t = .report ∧
      s' = { s with errors := s.errors + 1 }.goto t .idle) := by
  cases act with
  | send t data =>
      left
      simp only [TcpSession.step] at hstep
      split_ifs at hstep
      · obtain rfl := Option.some.inj hstep
        exact keeps_goto (by simp) rfl rfl .inl rfl rfl
      · obtain rfl := Option.some.inj hstep
        exact ⟨rfl, rfl, .inl, rfl, fun _ ↦ id⟩
  | disconnect t | writeCompleted t i | readCompleted t receipt =>
      left
      simp only [TcpSession.step] at hstep
      split_ifs at hstep
      obtain rfl := Option.some.inj hstep
      exact keeps_goto (by simp) rfl rfl .inl rfl rfl
  | proceed t =>
      simp only [TcpSession.step, TcpSession.proceed] at hstep
      cases hplace : s.place t with
      | idle => simp [hplace] at hstep
      | append data =>
          simp only [hplace, Option.map_eq_some_iff] at hstep
          obtain ⟨b, -, rfl⟩ := hstep
          exact .inl (keeps_goto (by simp) rfl rfl .inl rfl rfl)
      | checkSend =>
          simp only [hplace] at hstep
          split_ifs at hstep with hreturn
          · obtain rfl := Option.some.inj hstep
            exact .inl (keeps_goto (by simp) rfl rfl .inl rfl rfl)
          · obtain rfl := Option.some.inj hstep
            simp only [Bool.or_eq_true, not_or] at hreturn
            exact .inl (keeps_goto (by simp) rfl rfl (fun _ ↦ .inr (by simpa using hreturn.1.2))
              rfl rfl)
      | checkRecv begun =>
          simp only [hplace] at hstep
          split_ifs at hstep <;> obtain rfl := Option.some.inj hstep <;>
            exact .inl (keeps_goto (by simp) rfl rfl .inl rfl rfl)
      | clearSending =>
          simp only [hplace] at hstep
          obtain rfl := Option.some.inj hstep
          exact .inl (keeps_goto (by simp) rfl rfl (by simp) rfl rfl)
      | clearRecving receipt =>
          simp only [hplace] at hstep
          obtain rfl := Option.some.inj hstep
          exact .inl (keeps_goto (by split_ifs <;> simp) rfl rfl .inl rfl rfl)
      | transfer | startWrite | release | startRead =>
          simp only [hplace] at hstep
          obtain rfl := Option.some.inj hstep
          exact .inl (keeps_goto (by simp) rfl rfl .inl rfl rfl)
      | close report =>
          simp only [hplace] at hstep
          exact .inr (.inl ⟨t, report, rfl, hplace, (Option.some.inj hstep).symm⟩)
      | report =>
          simp only [hplace] at hstep
          exact .inr (.inr ⟨t, rfl, hplace, (Option.some.inj hstep).symm⟩)

/-- The socket is closed and no write is under way. -/
structure Settled (s : TcpSession T) : Prop where
  closed : s.isOpen = false
  quiet : s.sending = false

/-- Nothing opens the socket again, and a closed one is not written to. -/
theorem Settled.step (h : Settled s) {act : Action T} (hstep : s.step act = some s') :
    Settled s' := by
  rcases step_cases hstep with hkeeps | ⟨t, report, -, -, rfl⟩ | ⟨t, -, -, rfl⟩
  · refine ⟨hkeeps.isOpen.trans h.closed, ?_⟩
    by_contra hsending
    rcases hkeeps.sending (by simpa using hsending) with hs | hopen
    · simp [h.quiet] at hs
    · simp [h.closed] at hopen
  · exact ⟨closeBlock_isOpen (.inr h.closed), closeBlock_sending.trans h.quiet⟩
  · exact ⟨h.closed, h.quiet⟩

/-- A destroyed session is closed, and one that tells or has told its protocol
is settled. -/
structure Told (s : TcpSession T) : Prop where
  destroyed : s.destroyed = true → s.isOpen = false
  settled : (∃ t, s.place t = .report) ∨ 0 < s.errors → Settled s

theorem told_initial (t : T) : Told (initial t) where
  destroyed := by simp [initial]
  settled := by
    rintro (⟨u, hu⟩ | herrors)
    · by_cases hut : u = t <;> simp [initial, hut] at hu
    · simp [initial] at herrors

/-- `error` comes to its `close` with no write under way, so that `close` does
not put the end of the session off. -/
def NotDeferred (s : TcpSession T) (act : Action T) : Prop :=
  ∀ t, act = .proceed t → s.place t = .close true → s.sending = false

theorem Told.step (h : Told s) {act : Action T} (hok : NotDeferred s act)
    (hstep : s.step act = some s') : Told s' := by
  rcases step_cases hstep with hkeeps | ⟨t, report, rfl, hplace, rfl⟩ | ⟨t, -, hplace, rfl⟩
  · constructor
    · rw [hkeeps.destroyed, hkeeps.isOpen]
      exact h.destroyed
    · intro htold
      apply (h.settled _).step hstep
      rw [hkeeps.errors] at htold
      exact htold.imp_left fun ⟨u, hu⟩ ↦ ⟨u, hkeeps.places u hu⟩
  · have hclosed : s.closeBlock.isOpen = false := by
      apply closeBlock_isOpen
      cases hdestroyed : s.destroyed with
      | false => exact .inl rfl
      | true => exact .inr (h.destroyed hdestroyed)
    refine ⟨fun _ ↦ hclosed, ?_⟩
    intro htold
    by_cases hbefore : (∃ u, s.place u = .report) ∨ 0 < s.errors
    · exact (h.settled hbefore).step hstep
    · -- the thread itself is about to tell, so it came from `error`
      have hreport : report = true := by
        by_contra hfalse
        apply hbefore
        rcases htold with ⟨u, hu⟩ | herrors
        · left
          have hut : u ≠ t := by
            rintro rfl
            simp [hfalse] at hu
          exact ⟨u, by rwa [goto_place_of_ne hut, closeBlock_place] at hu⟩
        · right
          have hkept : s.closeBlock.errors = s.errors := closeBlock_errors
          rwa [← hkept]
      rw [hreport] at hplace
      exact ⟨hclosed, closeBlock_sending.trans (hok t rfl hplace)⟩
  · have hsettled : Settled s := h.settled (.inl ⟨t, hplace⟩)
    exact ⟨fun _ ↦ hsettled.closed, fun _ ↦ ⟨hsettled.closed, hsettled.quiet⟩⟩

theorem ReachedWhile.told (h : ReachedWhile NotDeferred (initial t) s) : Told s := by
  induction h with
  | refl => exact told_initial t
  | tail _ hstep ih =>
      obtain ⟨act, hok, hact⟩ := hstep
      exact ih.step hok hact

/-- The protocol has been told at most once, and from then on nothing is under
way: the destructor's assertions hold. -/
def TornDown (s : TcpSession T) : Prop :=
  s.errors ≤ 1 ∧
    (0 < s.errors → s.recving = false ∧ s.sending = false ∧ s.isOpen = false ∧
      s.reads = 0 ∧ s.writes = [])

/-- Every session in which `error` never meets a write under way is torn down
once and with nothing under way. -/
theorem tornDown_of_notDeferred (h : ReachedWhile NotDeferred (initial t) s) : TornDown s := by
  obtain ⟨turn, hreceives⟩ := h.receives
  obtain ⟨sender, hsends⟩ := h.sends
  have htold := h.told
  have herrors := hreceives.errors
  constructor
  · split_ifs at herrors <;> omega
  · intro hpos
    obtain rfl : turn = .free := by
      by_contra hne
      rw [if_neg hne] at herrors
      omega
    have hsettled : Settled s := htold.settled (.inr hpos)
    obtain rfl : sender = .free := by
      by_contra hne
      have hsending := hsends.flag.mpr hne
      simp [hsettled.quiet] at hsending
    refine ⟨?_, hsettled.quiet, hsettled.closed, hreceives.reads, ?_⟩
    · by_contra hrecving
      have hflag := hreceives.flag.mp (by simpa using hrecving)
      simp at hflag
    · exact List.length_eq_zero_iff.mp hsends.writes

/-- A read that fails on an otherwise quiet session. -/
def readFails : List (Action Bool) :=
  [.readCompleted false .failed, .proceed false, .proceed false, .proceed false]

theorem tornDown_of_notDeferred_read :
    ∃ s : TcpSession Bool, (initial false).run (begun ++ readFails) = some s ∧ s.errors = 1 ∧
      TornDown s := by
  refine ⟨_, rfl, rfl, tornDown_of_notDeferred (t := false) ?_⟩
  -- no write is ever under way, so no step is deferred
  refine .head ⟨.proceed false, fun _ _ _ ↦ rfl, rfl⟩ ?_
  refine .head ⟨.proceed false, fun _ _ _ ↦ rfl, rfl⟩ ?_
  refine .head ⟨.readCompleted false .failed, fun _ _ _ ↦ rfl, rfl⟩ ?_
  refine .head ⟨.proceed false, fun _ _ _ ↦ rfl, rfl⟩ ?_
  refine .head ⟨.proceed false, fun _ _ _ ↦ rfl, rfl⟩ ?_
  exact .single ⟨.proceed false, fun _ _ _ ↦ rfl, rfl⟩

/-- A read fails while a write is under way: the protocol is told, and the
write is still there. -/
theorem not_tornDown_write :
    ∃ s : TcpSession Bool, Reachable s ∧ s.errors = 1 ∧ s.sending = true ∧
      s.writes = [[1, 2]] ∧ ¬ TornDown s := by
  obtain ⟨s, hrun⟩ : ∃ s, (initial false).run (sendTwo ++ readFails) = some s := ⟨_, rfl⟩
  have herrors : ((initial false).run (sendTwo ++ readFails)).map TcpSession.errors = some 1 := by
    rfl
  have hsending : ((initial false).run (sendTwo ++ readFails)).map TcpSession.sending =
      some true := by rfl
  have hwrites : ((initial false).run (sendTwo ++ readFails)).map TcpSession.writes =
      some [[1, 2]] := by rfl
  rw [hrun, Option.map_some, Option.some.injEq] at herrors hsending hwrites
  refine ⟨s, ⟨false, reachedWhile_of_run hrun⟩, herrors, hsending, hwrites, ?_⟩
  rintro ⟨-, htorn⟩
  have hquiet := (htorn (by omega)).2.1
  simp [hsending] at hquiet

end TcpSession

end WiseKernel.Net
