import WiseKernel.Client.Session

/-!
# The network of the client

`OnNewSocket` lets a session receive before it adds it to the table and announces it, so that the
callbacks of the socket run beside it.  `OnSessionError` takes the session out of the table,
disposes it and tells the subscribers.
-/

namespace WiseKernel.Client

open WiseKernel.Lib

/-- Where `OnNewSocket` is with a session; `refused` when `BeginRecv` has failed. -/
inductive Network.Opener where
  | adding
  | announcing
  | opened
  | refused
  deriving DecidableEq, Repr

/-- What a call of `OnSessionError` does next. -/
inductive Network.Stage where
  | removing
  | disposing
  | posting
  deriving DecidableEq, Repr

/-- Where `OnSessionError` is called: inside the `try` of `OnRecvCompleted`, whose `catch` leads
to a second call when a subscriber throws, or behind it. -/
inductive Network.Site where
  | inside
  | behind
  | again
  deriving DecidableEq, Repr

inductive Network.Handling where
  | idle
  | running (stage : Network.Stage) (site : Network.Site)
  | done (site : Network.Site)
  deriving DecidableEq, Repr

/-- A session, whether a `BeginReceive` of it is under way, and the calls about it. -/
structure Network.Entry (P : Type) where
  session : Session P
  opener : Network.Opener
  receiving : Bool
  handling : Network.Handling

/-- `SysSessionReady` and `SysSessionClosed`. -/
inductive Network.SystemMessage where
  | sessionReady (session : ℕ)
  | sessionClosed (session : ℕ)
  deriving DecidableEq, Repr

/-- `Network`, with the sessions numbered as they are made; an exception that nobody catches ends
the process. -/
structure Network (P : Type) where
  entries : List (Network.Entry P)
  sessions : List ℕ
  posted : List Network.SystemMessage
  crashed : Bool

namespace Network

variable {P S : Type}

def initial : Network P := ⟨[], [], [], false⟩

/-- How a call of `OnRecvCompleted` ends: with the next `BeginReceive`, with bytes that
`Protocol.OnRecv` refuses, with the end of the connection or an exception, or with the exception
of a socket that was closed here. -/
inductive Received where
  | more
  | refused
  | ended
  | silent
  deriving DecidableEq, Repr

inductive Action (P : Type) where
  | newSocket (begun : Bool)
  | addSession (i : ℕ)
  | announce (i : ℕ)
  | received (i : ℕ) (result : Received)
  | sessionError (i : ℕ) (returns : Bool)
  | send (i : ℕ) (a : Session.Action P)

/-- Whether the subscribers of a closing notice return, or throw what the `catch` around the call
passes over. -/
def Action.returns : Action P → Bool
  | .sessionError _ returns => returns
  | _ => true

def setEntry (s : Network P) (i : ℕ) (e : Entry P) : Network P :=
  { s with entries := s.entries.set i e }

def newSocket (s : Network P) (begun : Bool) : Network P :=
  { s with
    entries := s.entries ++ [⟨.initial none, if begun then .adding else .refused, begun, .idle⟩] }

def addSession (s : Network P) (i : ℕ) (e : Entry P) : Option (Network P) :=
  if e.opener = .adding then
    some { s.setEntry i { e with opener := .announcing } with sessions := s.sessions ++ [i] }
  else none

def announce (s : Network P) (i : ℕ) (e : Entry P) : Option (Network P) :=
  if e.opener = .announcing then
    some { s.setEntry i { e with opener := .opened } with posted := s.posted ++ [.sessionReady i] }
  else none

def received (s : Network P) (i : ℕ) (e : Entry P) (result : Received) : Option (Network P) :=
  if e.receiving then
    match result with
    | .more => some s
    | .refused =>
        some (s.setEntry i { e with receiving := false, handling := .running .removing .inside })
    | .ended =>
        some (s.setEntry i { e with receiving := false, handling := .running .removing .behind })
    | .silent => some (s.setEntry i { e with receiving := false })
  else none

/-- The next step of `OnSessionError`. -/
def sessionError (s : Network P) (i : ℕ) (e : Entry P) (returns : Bool) : Option (Network P) :=
  match e.handling with
  | .running .removing site =>
      some { s.setEntry i { e with handling := .running .disposing site } with
        sessions := s.sessions.filter (· ≠ i) }
  | .running .disposing site =>
      some (s.setEntry i { e with
        session := { e.session with disposed := true }
        handling := .running .posting site })
  | .running .posting site =>
      if returns then
        some { s.setEntry i { e with handling := .done site } with
          posted := s.posted ++ [.sessionClosed i] }
      else
        match site with
        | .inside =>
            some { s.setEntry i { e with handling := .running .removing .again } with
              posted := s.posted ++ [.sessionClosed i] }
        | .behind | .again =>
            some { s.setEntry i { e with handling := .done site } with
              posted := s.posted ++ [.sessionClosed i]
              crashed := true }
  | .idle | .done _ => none

def step (E : Env P S) (s : Network P) (a : Action P) : Option (Network P) :=
  if s.crashed then none
  else
    match a with
    | .newSocket begun => some (s.newSocket begun)
    | .addSession i => s.entries[i]?.bind fun e ↦ s.addSession i e
    | .announce i => s.entries[i]?.bind fun e ↦ s.announce i e
    | .received i result => s.entries[i]?.bind fun e ↦ s.received i e result
    | .sessionError i returns => s.entries[i]?.bind fun e ↦ s.sessionError i e returns
    | .send i a =>
        s.entries[i]?.bind fun e ↦
          (e.session.step E a).map fun session ↦ s.setEntry i { e with session := session }

/-! ## Moves -/

variable {E : Env P S} {s s' : Network P} {a : Action P} {i j : ℕ} {e e' : Entry P}
  {sessions sessions' : List ℕ} {told : List SystemMessage} {returns : Bool}

/-- What happens to one session, with the table and the notices. -/
inductive Moves (E : Env P S) (i : ℕ) (e : Entry P) (sessions : List ℕ) :
    Bool → Entry P → List ℕ → List SystemMessage → Prop
  | add (h : e.opener = .adding) :
      Moves E i e sessions true { e with opener := .announcing } (sessions ++ [i]) []
  | announce (h : e.opener = .announcing) :
      Moves E i e sessions true { e with opener := .opened } sessions [.sessionReady i]
  | more : Moves E i e sessions true e sessions []
  | silent : Moves E i e sessions true { e with receiving := false } sessions []
  | fail (site : Site) (h : e.receiving = true) (hsite : site ≠ .again) :
      Moves E i e sessions true
        { e with receiving := false, handling := .running .removing site } sessions []
  | remove (returns : Bool) (site : Site) (h : e.handling = .running .removing site) :
      Moves E i e sessions returns { e with handling := .running .disposing site }
        (sessions.filter (· ≠ i)) []
  | dispose (returns : Bool) (site : Site) (h : e.handling = .running .disposing site) :
      Moves E i e sessions returns
        { e with
          session := { e.session with disposed := true }
          handling := .running .posting site }
        sessions []
  | post (returns : Bool) (site : Site) (h : e.handling = .running .posting site) :
      Moves E i e sessions returns { e with handling := .done site } sessions [.sessionClosed i]
  | repeats (h : e.handling = .running .posting .inside) :
      Moves E i e sessions false { e with handling := .running .removing .again } sessions
        [.sessionClosed i]
  | send (b : Session.Action P) (session : Session P) (h : e.session.step E b = some session) :
      Moves E i e sessions true { e with session := session } sessions []

theorem moves_received {result : Received} (he : s.entries[i]? = some e)
    (h : s.received i e result = some s') : ∃ e', s'.entries = s.entries.set i e' ∧
      s'.posted = s.posted ++ [] ∧ Moves E i e s.sessions true e' s'.sessions [] := by
  unfold received at h
  split_ifs at h with hreceiving
  cases result with
  | more =>
      cases h
      refine ⟨e, ?_, (List.append_nil _).symm, .more⟩
      obtain ⟨hi, rfl⟩ := List.getElem?_eq_some_iff.mp he
      exact (List.set_getElem_self hi).symm
  | refused =>
      cases h
      exact ⟨_, rfl, (List.append_nil _).symm, .fail .inside hreceiving Site.noConfusion⟩
  | ended =>
      cases h
      exact ⟨_, rfl, (List.append_nil _).symm, .fail .behind hreceiving Site.noConfusion⟩
  | silent =>
      cases h
      exact ⟨_, rfl, (List.append_nil _).symm, .silent⟩

theorem moves_sessionError (h : s.sessionError i e returns = some s') : ∃ e' told,
    s'.entries = s.entries.set i e' ∧ s'.posted = s.posted ++ told ∧
      Moves E i e s.sessions returns e' s'.sessions told := by
  rw [sessionError] at h
  cases hhandling : e.handling with
  | idle | done => simp [hhandling] at h
  | running stage site =>
      cases stage with
      | removing =>
          simp only [hhandling, Option.some.injEq] at h
          subst h
          exact ⟨_, [], rfl, (List.append_nil _).symm, .remove returns site hhandling⟩
      | disposing =>
          simp only [hhandling, Option.some.injEq] at h
          subst h
          exact ⟨_, [], rfl, (List.append_nil _).symm, .dispose returns site hhandling⟩
      | posting =>
          simp only [hhandling] at h
          split_ifs at h with hreturns
          · cases h
            exact ⟨_, _, rfl, rfl, .post returns site hhandling⟩
          · rw [Bool.not_eq_true] at hreturns
            subst hreturns
            cases site with
            | inside =>
                cases h
                exact ⟨_, _, rfl, rfl, .repeats hhandling⟩
            | behind | again =>
                cases h
                exact ⟨_, _, rfl, rfl, .post false _ hhandling⟩

/-- A step makes a session or moves one. -/
theorem step_cases (h : s.step E a = some s') : (∃ begun, s' = s.newSocket begun) ∨
    ∃ i e e' told, s.entries[i]? = some e ∧ s'.entries = s.entries.set i e' ∧
      s'.posted = s.posted ++ told ∧ Moves E i e s.sessions a.returns e' s'.sessions told := by
  unfold step at h
  split_ifs at h
  cases a with
  | newSocket begun => exact .inl ⟨begun, (Option.some.inj h).symm⟩
  | addSession i =>
      obtain ⟨e, he, hadd⟩ := Option.bind_eq_some_iff.mp h
      rw [addSession] at hadd
      split_ifs at hadd with hopener
      cases hadd
      exact .inr ⟨i, e, _, [], he, rfl, (List.append_nil _).symm, .add hopener⟩
  | announce i =>
      obtain ⟨e, he, hannounce⟩ := Option.bind_eq_some_iff.mp h
      rw [announce] at hannounce
      split_ifs at hannounce with hopener
      cases hannounce
      exact .inr ⟨i, e, _, _, he, rfl, rfl, .announce hopener⟩
  | received i result =>
      obtain ⟨e, he, hreceived⟩ := Option.bind_eq_some_iff.mp h
      obtain ⟨e', hentries, hposted, hmoves⟩ := moves_received he hreceived
      exact .inr ⟨i, e, e', [], he, hentries, hposted, hmoves⟩
  | sessionError i returns =>
      obtain ⟨e, he, herror⟩ := Option.bind_eq_some_iff.mp h
      obtain ⟨e', told, hentries, hposted, hmoves⟩ := moves_sessionError herror
      exact .inr ⟨i, e, e', told, he, hentries, hposted, hmoves⟩
  | send i b =>
      obtain ⟨e, he, hsend⟩ := Option.bind_eq_some_iff.mp h
      obtain ⟨session, hsession, rfl⟩ := Option.map_eq_some_iff.mp hsend
      exact .inr ⟨i, e, _, [], he, rfl, (List.append_nil _).symm, .send b session hsession⟩

/-! ## Notices -/

/-- The closing notices that have been posted. -/
def Handling.closings : Handling → ℕ
  | .idle | .running _ .inside | .running _ .behind => 0
  | .running _ .again | .done .inside | .done .behind => 1
  | .done .again => 2

theorem Handling.closings_le (h : Handling) : h.closings ≤ 2 := by
  cases h with
  | idle => exact Nat.zero_le _
  | running stage site => cases site <;> simp [closings]
  | done site => cases site <;> simp [closings]

def SystemMessage.session : SystemMessage → ℕ
  | .sessionReady i | .sessionClosed i => i

structure Tracked (posted : List SystemMessage) (i : ℕ) (e : Entry P) : Prop where
  listless : e.session.Listless
  receiving : e.receiving = true → e.handling = .idle
  ready : posted.count (.sessionReady i) = if e.opener = .opened then 1 else 0
  closed : posted.count (.sessionClosed i) = e.handling.closings

structure Inv (s : Network P) : Prop where
  tracked : ∀ i e, s.entries[i]? = some e → Tracked s.posted i e
  known : ∀ m ∈ s.posted, m.session < s.entries.length

theorem Inv.count_eq_zero (h : Inv s) {m : SystemMessage} (hm : m.session = i)
    (hi : s.entries.length ≤ i) : s.posted.count m = 0 := by
  refine List.count_eq_zero.mpr fun hmem ↦ ?_
  have hknown := h.known m hmem
  omega

theorem getElem?_newSocket {begun : Bool} (he : (s.newSocket begun).entries[i]? = some e) :
    s.entries[i]? = some e ∨ i = s.entries.length ∧
      e = ⟨.initial none, if begun then .adding else .refused, begun, .idle⟩ := by
  rw [newSocket] at he
  rcases Nat.lt_or_ge i s.entries.length with hi | hi
  · rw [List.getElem?_append_left hi] at he
    exact .inl he
  · rw [List.getElem?_append_right hi] at he
    cases hzero : i - s.entries.length with
    | succ n => rw [hzero] at he; cases he
    | zero =>
        rw [hzero] at he
        exact .inr ⟨by omega, (Option.some.inj he).symm⟩

theorem count_ready (posted : List SystemMessage) (i j : ℕ) :
    (posted ++ [SystemMessage.sessionReady i]).count (.sessionReady j) =
      posted.count (.sessionReady j) + if i = j then 1 else 0 := by
  rw [List.count_append, List.count_singleton]
  simp

theorem count_closed (posted : List SystemMessage) (i j : ℕ) :
    (posted ++ [SystemMessage.sessionClosed i]).count (.sessionClosed j) =
      posted.count (.sessionClosed j) + if i = j then 1 else 0 := by
  rw [List.count_append, List.count_singleton]
  simp

theorem count_ready_closed (posted : List SystemMessage) (i j : ℕ) :
    (posted ++ [SystemMessage.sessionClosed i]).count (.sessionReady j) =
      posted.count (.sessionReady j) := by
  rw [List.count_append, List.count_singleton]
  simp

theorem count_closed_ready (posted : List SystemMessage) (i j : ℕ) :
    (posted ++ [SystemMessage.sessionReady i]).count (.sessionClosed j) =
      posted.count (.sessionClosed j) := by
  rw [List.count_append, List.count_singleton]
  simp

theorem Moves.told_session (h : Moves E i e sessions returns e' sessions' told) :
    ∀ m ∈ told, m.session = i := by
  cases h with
  | announce | post | repeats =>
      intro m hm
      rw [List.mem_singleton.mp hm]
      rfl
  | _ => exact fun m hm ↦ absurd hm List.not_mem_nil

theorem Tracked.others {posted : List SystemMessage} (h : Tracked posted j e)
    (htold : ∀ m ∈ told, m.session = i) (hne : i ≠ j) : Tracked (posted ++ told) j e := by
  have hready : told.count (.sessionReady j) = 0 :=
    List.count_eq_zero.mpr fun hm ↦ hne (htold _ hm).symm
  have hclosed : told.count (.sessionClosed j) = 0 :=
    List.count_eq_zero.mpr fun hm ↦ hne (htold _ hm).symm
  refine ⟨h.listless, h.receiving, ?_, ?_⟩
  · rw [List.count_append, hready]
    exact h.ready
  · rw [List.count_append, hclosed]
    exact h.closed

theorem Tracked.not_receiving {posted : List SystemMessage} (h : Tracked posted i e)
    {stage : Stage} {site : Site} (hhandling : e.handling = .running stage site) :
    e.receiving ≠ true := by
  intro hreceiving
  rw [h.receiving hreceiving] at hhandling
  cases hhandling

/-- What one session's move does to its notices. -/
theorem Tracked.moves {posted : List SystemMessage} (h : Tracked posted i e)
    (hmoves : Moves E i e sessions returns e' sessions' told) : Tracked (posted ++ told) i e' := by
  cases hmoves with
  | add hopener =>
      rw [List.append_nil]
      refine ⟨h.listless, h.receiving, h.ready.trans ?_, h.closed⟩
      rw [hopener]
      rfl
  | announce hopener =>
      have hready := h.ready
      rw [hopener] at hready
      refine ⟨h.listless, h.receiving, ?_, ?_⟩
      · rw [count_ready, hready, if_pos rfl]
        rfl
      · rw [count_closed_ready]
        exact h.closed
  | more =>
      rw [List.append_nil]
      exact h
  | silent =>
      rw [List.append_nil]
      exact ⟨h.listless, fun hfalse ↦ absurd hfalse Bool.false_ne_true, h.ready, h.closed⟩
  | fail site hreceiving hsite =>
      have hclosed := h.closed
      rw [h.receiving hreceiving] at hclosed
      rw [List.append_nil]
      refine ⟨h.listless, fun hfalse ↦ absurd hfalse Bool.false_ne_true, h.ready, hclosed.trans ?_⟩
      cases site with
      | inside | behind => rfl
      | again => exact absurd rfl hsite
  | remove _ site hhandling =>
      have hclosed := h.closed
      rw [hhandling] at hclosed
      rw [List.append_nil]
      exact ⟨h.listless, fun hreceiving ↦ absurd hreceiving (h.not_receiving hhandling), h.ready,
        hclosed.trans (by cases site <;> rfl)⟩
  | dispose _ site hhandling =>
      have hclosed := h.closed
      rw [hhandling] at hclosed
      rw [List.append_nil]
      exact ⟨⟨h.listless.accumulated, h.listless.packing, h.listless.writing⟩,
        fun hreceiving ↦ absurd hreceiving (h.not_receiving hhandling), h.ready,
        hclosed.trans (by cases site <;> rfl)⟩
  | post _ site hhandling =>
      have hclosed := h.closed
      rw [hhandling] at hclosed
      refine ⟨h.listless, fun hreceiving ↦ absurd hreceiving (h.not_receiving hhandling), ?_, ?_⟩
      · rw [count_ready_closed]
        exact h.ready
      · rw [count_closed, hclosed, if_pos rfl]
        cases site <;> rfl
  | repeats hhandling =>
      have hclosed := h.closed
      rw [hhandling] at hclosed
      refine ⟨h.listless, fun hreceiving ↦ absurd hreceiving (h.not_receiving hhandling), ?_, ?_⟩
      · rw [count_ready_closed]
        exact h.ready
      · rw [count_closed, hclosed, if_pos rfl]
        rfl
  | send b session hsession =>
      rw [List.append_nil]
      exact ⟨(h.listless.step hsession).1, h.receiving, h.ready, h.closed⟩

theorem inv_initial : Inv (initial : Network P) where
  tracked i e he := by cases he
  known m hm := absurd hm List.not_mem_nil

theorem Inv.newSocket (h : Inv s) (begun : Bool) : Inv (s.newSocket begun) := by
  have hlength : s.entries.length < (s.newSocket begun).entries.length := by
    rw [Network.newSocket, List.length_append]
    exact Nat.lt_succ_self _
  refine ⟨fun i e he ↦ ?_, fun m hm ↦ (h.known m hm).trans hlength⟩
  rcases getElem?_newSocket he with hold | ⟨hi, rfl⟩
  · exact h.tracked i e hold
  · refine ⟨⟨rfl, rfl, rfl⟩, fun _ ↦ rfl, ?_, h.count_eq_zero rfl hi.ge⟩
    cases begun <;> exact h.count_eq_zero rfl hi.ge

theorem Inv.step (h : Inv s) (hstep : s.step E a = some s') : Inv s' := by
  rcases step_cases hstep with ⟨begun, rfl⟩ | ⟨i, e, e', told, he, hentries, hposted, hmoves⟩
  · exact h.newSocket begun
  · have hi := (List.getElem?_eq_some_iff.mp he).1
    refine ⟨fun j e'' he'' ↦ ?_, fun m hm ↦ ?_⟩
    · rw [hposted]
      rw [hentries] at he''
      by_cases hij : i = j
      · subst hij
        rw [List.getElem?_set_self hi] at he''
        cases he''
        exact (h.tracked i e he).moves hmoves
      · rw [List.getElem?_set_ne hij] at he''
        exact (h.tracked j e'' he'').others hmoves.told_session hij
    · rw [hentries, List.length_set]
      rw [hposted] at hm
      rcases List.mem_append.mp hm with hm | hm
      · exact h.known m hm
      · rw [hmoves.told_session m hm]
        exact hi

variable {ok : Network P → Action P → Prop}

theorem inv_of_reaches (h : Reaches (step E) ok initial s) : Inv s :=
  h.invariant inv_initial fun _ _ _ hinv _ hstep ↦ hinv.step hstep

/-- No second call of `OnSessionError`. -/
def Handling.Once : Handling → Prop
  | .running _ site | .done site => site ≠ .again
  | .idle => True

theorem Handling.Once.closings_le {h : Handling} (hh : h.Once) : h.closings ≤ 1 := by
  cases h with
  | idle => exact Nat.zero_le _
  | running stage site => cases site <;> simp [closings]
  | done site =>
      cases site with
      | inside | behind => exact le_rfl
      | again => exact absurd rfl hh

theorem Moves.once (h : Moves E i e sessions true e' sessions' told) (honce : e.handling.Once) :
    e'.handling.Once := by
  cases h with
  | fail site _ hsite => exact hsite
  | remove _ site hhandling | dispose _ site hhandling | post _ site hhandling =>
      rw [hhandling] at honce
      exact honce
  | _ => exact honce

/-- While no subscriber throws, `OnSessionError` is not called a second time. -/
theorem once_of_reaches (hok : ∀ s a, ok s a → a.returns = true)
    (h : Reaches (step E) ok initial s) :
    ∀ (i : ℕ) (e : Entry P), s.entries[i]? = some e → e.handling.Once := by
  refine @Reaches.invariant _ _ _ _ (fun s : Network P ↦ ∀ (i : ℕ) (e : Entry P),
    s.entries[i]? = some e → e.handling.Once) _ _ h (fun i e he ↦ by cases he) ?_
  intro s a s' hinv hallowed hstep j e'' he''
  rcases step_cases hstep with ⟨begun, rfl⟩ | ⟨i, e, e', told, he, hentries, -, hmoves⟩
  · rcases getElem?_newSocket he'' with hold | ⟨-, rfl⟩
    · exact hinv j e'' hold
    · exact trivial
  · rw [hentries] at he''
    by_cases hij : i = j
    · subst hij
      rw [List.getElem?_set_self (List.getElem?_eq_some_iff.mp he).1] at he''
      cases he''
      rw [hok s a hallowed] at hmoves
      exact hmoves.once (hinv i e he)
    · rw [List.getElem?_set_ne hij] at he''
      exact hinv j e'' he''

/-- A session is announced at most once.  Its end is told at most twice, at most once when no
subscriber throws, and it receives nothing afterwards; its sends never fail, as there are none. -/
theorem notices (h : Reaches (step E) ok initial s) (i : ℕ) :
    s.posted.count (.sessionReady i) ≤ 1 ∧ s.posted.count (.sessionClosed i) ≤ 2 ∧
      ((∀ s a, ok s a → a.returns = true) → s.posted.count (.sessionClosed i) ≤ 1) ∧
      ∀ e, s.entries[i]? = some e →
        (.sessionClosed i ∈ s.posted → e.receiving = false) ∧
        ∀ b, Session.Fails E e.session b → e.session.step E b = none := by
  have hinv := inv_of_reaches h
  cases he : s.entries[i]? with
  | none =>
      have hi := List.getElem?_eq_none_iff.mp he
      rw [hinv.count_eq_zero (m := .sessionReady i) rfl hi,
        hinv.count_eq_zero (m := .sessionClosed i) rfl hi]
      exact ⟨Nat.zero_le _, Nat.zero_le _, fun _ ↦ Nat.zero_le _, fun e he ↦ by cases he⟩
  | some e =>
      have htracked := hinv.tracked i e he
      refine ⟨?_, ?_, fun hok ↦ ?_, ?_⟩
      · rw [htracked.ready]
        split_ifs
        · exact le_rfl
        · exact Nat.zero_le _
      · rw [htracked.closed]
        exact e.handling.closings_le
      · rw [htracked.closed]
        exact (once_of_reaches hok h i e he).closings_le
      · intro _ hsome
        cases hsome
        refine ⟨fun hmem ↦ ?_, fun b hfails ↦ ?_⟩
        · by_contra hreceiving
          have hzero := htracked.closed
          rw [htracked.receiving (Bool.not_eq_false _ ▸ hreceiving)] at hzero
          exact List.count_eq_zero.mp hzero hmem
        · have hlistless := htracked.listless
          cases b with
          | pack => simp [Session.step, Session.pack, hlistless.packing]
          | write result => simp [Session.step, Session.write, hlistless.packing]
          | completed result => simp [Session.step, Session.completed, hlistless.writing]
          | check | add | begin | dispose => exact hfails.elim

/-- A subscriber throws at the first notice of the end and gets another one. -/
theorem notices_again : ∃ s : Network (List UInt8),
    s.posted = [.sessionReady 0, .sessionClosed 0, .sessionClosed 0] ∧
      s.posted.count (.sessionClosed 0) ≤ 2 := by
  obtain ⟨s, hreach, hposted⟩ := @exists_reaches _ _ (step numberedEnv) (fun _ _ ↦ True) initial
    [.newSocket true, .addSession 0, .announce 0, .received 0 .refused, .sessionError 0 true,
      .sessionError 0 true, .sessionError 0 false, .sessionError 0 true, .sessionError 0 true,
      .sessionError 0 true]
    (fun s ↦ s.posted == [.sessionReady 0, .sessionClosed 0, .sessionClosed 0])
    (fun _ _ _ ↦ trivial) rfl
  exact ⟨s, eq_of_beq hposted, (notices hreach 0).2.1⟩

/-! ## The table -/

/-- `RemoveSession` is through. -/
def Handling.removed : Handling → Bool
  | .idle | .running .removing _ => false
  | .running .disposing _ | .running .posting _ | .done _ => true

/-- The session stands in the table until `RemoveSession`, and for ever when that was through
before it was added. -/
structure Listed (early : Bool) (s : Network P) (i : ℕ) : Prop where
  added : ∀ e, s.entries[i]? = some e → e.opener = .announcing ∨ e.opener = .opened
  early_removed : ∀ e, s.entries[i]? = some e → early = true → e.handling.removed = true
  mem_iff : ∀ e, s.entries[i]? = some e →
    (i ∈ s.sessions ↔ early = true ∨ e.handling.removed = false)

theorem Listed.moves {early : Bool} (h : Listed early s i) (he : s.entries[i]? = some e)
    (hidle : e.receiving = true → e.handling = .idle)
    (hmoves : Moves E i e s.sessions true e' sessions' told) :
    (e'.opener = .announcing ∨ e'.opener = .opened) ∧
      (early = true → e'.handling.removed = true) ∧
      (i ∈ sessions' ↔ early = true ∨ e'.handling.removed = false) := by
  have hadded := h.added e he
  have hearly := h.early_removed e he
  have hiff := h.mem_iff e he
  cases hmoves with
  | add hopener => rw [hopener] at hadded; simp at hadded
  | announce => exact ⟨.inr rfl, hearly, hiff⟩
  | more | silent | send => exact ⟨hadded, hearly, hiff⟩
  | fail site hreceiving =>
      rw [hidle hreceiving] at hearly hiff
      exact ⟨hadded, hearly, hiff⟩
  | remove _ site hhandling =>
      rw [hhandling] at hearly
      refine ⟨hadded, fun _ ↦ rfl, iff_of_false ?_ ?_⟩
      · simp
      · rintro (htrue | hfalse)
        · exact absurd (hearly htrue) Bool.false_ne_true
        · cases hfalse
  | dispose _ site hhandling | post _ site hhandling =>
      rw [hhandling] at hiff
      exact ⟨hadded, fun _ ↦ rfl, hiff⟩

theorem Moves.mem_other (h : Moves E i e sessions returns e' sessions' told) (hne : i ≠ j) :
    j ∈ sessions' ↔ j ∈ sessions := by
  cases h with
  | add => simp [hne.symm]
  | remove => simp [hne.symm]
  | _ => exact Iff.rfl

theorem Listed.step {early : Bool} (h : Listed early s i) (hinv : Inv s)
    (hi : i < s.entries.length) (hreturns : a.returns = true) (hstep : s.step E a = some s') :
    Listed early s' i := by
  rcases step_cases hstep with ⟨begun, rfl⟩ | ⟨j, e, e', told, he, hentries, -, hmoves⟩
  · have hsame : (s.newSocket begun).entries[i]? = s.entries[i]? := List.getElem?_append_left hi
    refine ⟨?_, ?_, ?_⟩
    · rw [hsame]
      exact h.added
    · rw [hsame]
      exact h.early_removed
    · rw [hsame]
      exact h.mem_iff
  · by_cases hji : j = i
    · subst hji
      rw [hreturns] at hmoves
      obtain ⟨hadded, hearly, hiff⟩ := h.moves he (hinv.tracked j e he).receiving hmoves
      have hself : s'.entries[j]? = some e' := by rw [hentries, List.getElem?_set_self hi]
      refine ⟨?_, ?_, ?_⟩ <;> rw [hself] <;> intro e'' hsome <;> cases hsome
      · exact hadded
      · exact hearly
      · exact hiff
    · have hsame : s'.entries[i]? = s.entries[i]? := by rw [hentries, List.getElem?_set_ne hji]
      refine ⟨?_, ?_, ?_⟩
      · rw [hsame]
        exact h.added
      · rw [hsame]
        exact h.early_removed
      · intro e he
        rw [hsame] at he
        exact (hmoves.mem_other hji).trans (h.mem_iff e he)

theorem length_le_of_step (h : s.step E a = some s') : s.entries.length ≤ s'.entries.length := by
  rcases step_cases h with ⟨begun, rfl⟩ | ⟨i, e, e', told, -, hentries, -⟩
  · rw [newSocket, List.length_append]
    exact Nat.le_add_right _ _
  · rw [hentries, List.length_set]

theorem Listed.of_addSession (he : s.entries[i]? = some e)
    (hstep : s.step E (.addSession i) = some s') : Listed e.handling.removed s' i := by
  unfold Network.step at hstep
  split_ifs at hstep
  dsimp only at hstep
  rw [he, Option.bind_some, addSession] at hstep
  split_ifs at hstep
  cases hstep
  have hself : (s.entries.set i { e with opener := .announcing })[i]? =
      some { e with opener := .announcing } :=
    List.getElem?_set_self (List.getElem?_eq_some_iff.mp he).1
  refine ⟨?_, ?_, ?_⟩ <;> intro e'' he'' <;> rw [setEntry, hself] at he'' <;> cases he''
  · exact .inl rfl
  · exact fun hremoved ↦ hremoved
  · refine iff_of_true (List.mem_append_right _ (List.mem_singleton_self i)) ?_
    cases e.handling.removed
    · exact .inr rfl
    · exact .inl rfl

/-- While no subscriber throws, a session that has been added is in the table exactly until
`RemoveSession`; when that was through before, it is in the table for ever. -/
theorem mem_sessions_iff (h : Reaches (step E) (fun _ a ↦ a.returns = true) initial s)
    {s₁ : Network P} (hadd : s.step E (.addSession i) = some s₁)
    (hlater : Reaches (step E) (fun _ a ↦ a.returns = true) s₁ s')
    (he : s.entries[i]? = some e) (he' : s'.entries[i]? = some e') :
    i ∈ s'.sessions ↔ e.handling.removed = true ∨ e'.handling.removed = false := by
  have hlast : Inv s' ∧ i < s'.entries.length ∧ Listed e.handling.removed s' i := by
    refine @Reaches.invariant _ _ _ _
      (fun t ↦ Inv t ∧ i < t.entries.length ∧ Listed e.handling.removed t i) _ _ hlater ?_ ?_
    · have hi := (List.getElem?_eq_some_iff.mp he).1
      exact ⟨(inv_of_reaches h).step hadd, hi.trans_le (length_le_of_step hadd),
        .of_addSession he hadd⟩
    · rintro t b t' ⟨hinv, hi, hlisted⟩ hreturns hstep
      exact ⟨hinv.step hstep, hi.trans_le (length_le_of_step hstep),
        hlisted.step hinv hi hreturns hstep⟩
  exact hlast.2.2.mem_iff e' he'

/-- A session that is lost before it is added. -/
def lost : Network (List UInt8) :=
  ⟨[⟨{ Session.initial none with disposed := true }, .adding, false, .done .behind⟩], [],
    [.sessionClosed 0], false⟩

def lostRun : List (Action (List UInt8)) :=
  [.newSocket true, .received 0 .ended, .sessionError 0 true, .sessionError 0 true,
    .sessionError 0 true]

theorem mem_sessions_iff_lost : ∃ s' : Network (List UInt8),
    Reaches (step numberedEnv) (fun _ a ↦ a.returns = true) initial s' ∧
      s'.posted = [.sessionClosed 0, .sessionReady 0] ∧ 0 ∈ s'.sessions := by
  have hlost : Reaches (step numberedEnv) (fun _ a ↦ a.returns = true) initial lost := by
    refine @Reaches.of_foldlM _ _ _ _ _ _ lostRun (fun s a ha ↦ ?_) rfl
    exact of_decide_eq_true (List.all_eq_true.mp (by decide :
      lostRun.all (fun a ↦ decide (a.returns = true)) = true) a ha)
  have hadd : ∃ s₁, lost.step numberedEnv (.addSession 0) = some s₁ := ⟨_, rfl⟩
  obtain ⟨s₁, hadd⟩ := hadd
  have hlater : ∃ s', Reaches (step numberedEnv) (fun _ a ↦ a.returns = true) s₁ s' ∧
      s'.posted = [.sessionClosed 0, .sessionReady 0] ∧
      s'.entries[0]? = some
        ⟨{ Session.initial none with disposed := true }, .opened, false, .done .behind⟩ := by
    cases hadd
    exact ⟨_, .head (a := .announce 0) rfl rfl .refl, rfl, rfl⟩
  obtain ⟨s', hreach, hposted, he'⟩ := hlater
  exact ⟨s', hlost.trans (.head rfl hadd hreach), hposted,
    (mem_sessions_iff hlost hadd hreach rfl he').mpr (.inl rfl)⟩

end Network

end WiseKernel.Client
