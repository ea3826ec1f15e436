import WiseKernel.Client.Bounds
import WiseKernel.Client.Lockstep

/-!
# Hostile bytes

`OnRecv` on any bytes, from any receive buffer that earlier calls may have
left.  The length field is the peer's, and nothing compares it with the size of
a header or with what has arrived: an access may leave the array, a packet may
be read from stale bytes, and the loop may stand still.
-/

namespace WiseKernel.Client

open WiseKernel.Lib WiseKernel.Net

/-! ## The loop -/

section

variable {P S : Type}

/-- An iteration comes to a frame of a registered class that is not too large. -/
structure Admits (E : Env P S) (n : ℕ) (st : LoopState P S) (created : P) (messageLength : ℕ) :
    Prop where
  header : st.currentPosition + 8 ≤ n
  length : getMessageLength st.recvBuf st.currentPosition = .ok messageLength
  max : (messageLength : ℤ) ≤ E.settings.maxPacketSize
  registered : ∃ topic, getMessageTopic st.recvBuf st.currentPosition = .ok topic ∧
    E.factory topic = some created

/-- `Unpack` where `OnRecv` calls it. -/
def unpackAt (E : Env P S) (st : LoopState P S) (created : P) (r : Received) : Unpacked P S :=
  E.ops.unpack created st.packer
    ((r.packetBuf.buffer.take r.packetBuf.length).drop (st.currentPosition + headerSize.toNat))

/-- An iteration posts a packet. -/
structure Posts (E : Env P S) (n : ℕ) (st : LoopState P S) (created : P) (messageLength : ℕ)
    (r : Received) : Prop where
  admits : Admits E n st created messageLength
  modified : modifyRecv E.runtime E.settings (E.ops.flags created) st.mods st.recvBuf
    st.currentPosition = .ok r
  code : r.code = .success
  accepted : (unpackAt E st created r).ending = .accepted

variable {E : Env P S} {n : ℕ} {st st' : LoopState P S}

theorem onRecvStep_eq_leave : onRecvStep E n st = .leave ↔ n < st.currentPosition + 8 := by
  have hhs : (headerSize : ℤ) = 8 := rfl
  constructor
  · intro h
    by_contra hnot
    unfold onRecvStep at h
    rw [if_neg (by omega)] at h
    split at h
    · cases h
    · split_ifs at h
      split at h
      · cases h
      · split at h
        · cases h
        · split at h
          · cases h
          · split_ifs at h
            unfold deliver at h
            dsimp only at h
            split at h <;> cases h
  · intro h
    rw [onRecvStep, if_pos (by omega)]

theorem Admits.onRecvStep_eq {created : P} {messageLength : ℕ}
    (h : Admits E n st created messageLength) :
    onRecvStep E n st =
      match modifyRecv E.runtime E.settings (E.ops.flags created) st.mods st.recvBuf
          st.currentPosition with
      | .error f => .stop (.faulted f) st
      | .ok r =>
          if r.code ≠ .success then
            .stop (.returned r.code) { st with recvBuf := r.packetBuf, mods := r.mods }
          else deliver E st created messageLength r := by
  have hhs : (headerSize : ℤ) = 8 := rfl
  have hheader := h.header
  have hmax := h.max
  obtain ⟨topic, htopic, hcreated⟩ := h.registered
  rw [onRecvStep, if_neg (by omega), h.length]
  dsimp only
  rw [if_neg (by omega), htopic]
  dsimp only
  rw [hcreated]
  all_goals rfl

/-- The next state of the loop. -/
theorem Posts.onRecvStep_eq {created : P} {messageLength : ℕ} {r : Received}
    (h : Posts E n st created messageLength r) :
    ∃ st', onRecvStep E n st = .next st' ∧
      st'.currentPosition = st.currentPosition + messageLength ∧
      st'.totalProcessedLen = st.totalProcessedLen + messageLength ∧
      st'.recvBuf.length = st.recvBuf.length := by
  have haccepted := h.accepted
  have hsame := modifyRecv_sameSize h.modified
  rw [h.admits.onRecvStep_eq, h.modified]
  dsimp only
  rw [if_neg (by simp [h.code])]
  unfold deliver
  dsimp only
  unfold unpackAt at haccepted
  rw [haccepted]
  exact ⟨_, rfl, rfl, rfl, hsame.length⟩

/-- An iteration that does not leave the loop either admits a frame or returns
a code. -/
theorem admits_or_returns (hin : n ≤ st.recvBuf.length) (hheader : st.currentPosition + 8 ≤ n) :
    (∃ created messageLength, Admits E n st created messageLength) ∨
      ∃ code, onRecvStep E n st = .stop (.returned code) st := by
  have hhs : (headerSize : ℤ) = 8 := rfl
  have hhead : st.currentPosition + 8 ≤ st.recvBuf.buffer.length :=
    (hheader.trans hin).trans st.recvBuf.length_le
  cases hlen : getMessageLength st.recvBuf st.currentPosition with
  | error f => exact absurd hlen (getMessageLength_ne_error hhead f)
  | ok messageLength =>
      by_cases hmax : E.settings.maxPacketSize < messageLength
      · refine .inr ⟨.failTooLargeMessage, ?_⟩
        rw [onRecvStep, if_neg (by omega), hlen]
        dsimp only
        rw [if_pos hmax]
      · cases htopic : getMessageTopic st.recvBuf st.currentPosition with
        | error f => exact absurd htopic (getMessageTopic_ne_error hhead f)
        | ok topic =>
            cases hcreated : E.factory topic with
            | none =>
                refine .inr ⟨.failMessageNotRegistered, ?_⟩
                rw [onRecvStep, if_neg (by omega), hlen]
                dsimp only
                rw [if_neg hmax, htopic]
                dsimp only
                rw [hcreated]
            | some created =>
                exact .inl ⟨created, messageLength, hheader, hlen, by omega, topic, htopic,
                  hcreated⟩

theorem Admits.posts_or_stops {created : P} {messageLength : ℕ}
    (h : Admits E n st created messageLength) :
    (∃ r, Posts E n st created messageLength r) ∨
      ∃ e st', onRecvStep E n st = .stop e st' ∧
        (e = .faulted .outside → modifyRecv E.runtime E.settings (E.ops.flags created) st.mods
          st.recvBuf st.currentPosition = .error .outside) := by
  rw [h.onRecvStep_eq]
  cases hmod : modifyRecv E.runtime E.settings (E.ops.flags created) st.mods st.recvBuf
      st.currentPosition with
  | error f =>
      refine .inr ⟨_, _, rfl, fun hf ↦ ?_⟩
      rw [Exit.faulted.inj hf]
  | ok r =>
      dsimp only
      by_cases hcode : r.code = .success
      · rw [if_neg (by simp [hcode])]
        unfold deliver
        dsimp only
        cases hending : (unpackAt E st created r).ending with
        | accepted => exact .inl ⟨r, h, hmod, hcode, hending⟩
        | refused =>
            unfold unpackAt at hending
            rw [hending]
            exact .inr ⟨_, _, rfl, fun hf ↦ by cases hf⟩
        | thrown =>
            unfold unpackAt at hending
            rw [hending]
            exact .inr ⟨_, _, rfl, fun hf ↦ by cases hf⟩
      · rw [if_pos hcode]
        exact .inr ⟨_, _, rfl, fun hf ↦ by cases hf⟩

/-! ## Calls -/

/-- The number of bytes that the loop works on. -/
def recvBufLength (E : Env P S) (proto : Protocol S) (buf : List UInt8) (recvLen : ℕ) : ℕ :=
  (proto.received E.runtime buf recvLen).position

/-- The states in which the condition of the loop is tested. -/
def Reached (E : Env P S) (proto : Protocol S) (buf : List UInt8) (recvLen : ℕ)
    (st : LoopState P S) : Prop :=
  Relation.ReflTransGen
    (fun st st' ↦ onRecvStep E (recvBufLength E proto buf recvLen) st = .next st')
    (proto.enter E.runtime buf recvLen) st

/-- The call ends, no access leaves an array, every iteration that goes on
moves forward, and every packet posted has been read from bytes received and
of its own frame. -/
structure Safe (E : Env P S) (proto : Protocol S) (buf : List UInt8) (recvLen : ℕ) : Prop where
  ends : ∃ fuel o, onRecv E fuel proto buf recvLen = some o ∧ o.exit ≠ .faulted .outside
  forward : ∀ st st', Reached E proto buf recvLen st →
    onRecvStep E (recvBufLength E proto buf recvLen) st = .next st' →
      st.currentPosition < st'.currentPosition
  within : ∀ st created messageLength r, Reached E proto buf recvLen st →
    Posts E (recvBufLength E proto buf recvLen) st created messageLength r →
      st.currentPosition + 8 + (unpackAt E st created r).used ≤
        recvBufLength E proto buf recvLen ∧
      8 + (unpackAt E st created r).used ≤ messageLength

/-- The bytes are such that the modifiers in force find lengths within the
array, the frames that are posted have arrived and are as long as their packets
need, and what is left fits into the caller's array. -/
structure Tame (E : Env P S) (proto : Protocol S) (buf : List UInt8) (recvLen : ℕ) : Prop where
  array : recvLen ≤ buf.length
  inRange : ∀ st created messageLength, Reached E proto buf recvLen st →
    Admits E (recvBufLength E proto buf recvLen) st created messageLength →
      InRange E.runtime E.settings (E.settings.inForce (E.ops.flags created)) st.mods st.recvBuf
        st.currentPosition
  complete : ∀ st created messageLength r, Reached E proto buf recvLen st →
    Posts E (recvBufLength E proto buf recvLen) st created messageLength r →
      8 + (unpackAt E st created r).used ≤ messageLength ∧
      st.currentPosition + messageLength ≤ recvBufLength E proto buf recvLen
  room : ∀ st, Reached E proto buf recvLen st → 8 ≤ recvBufLength E proto buf recvLen →
    recvBufLength E proto buf recvLen < st.currentPosition + 8 →
      recvBufLength E proto buf recvLen - st.currentPosition ≤ buf.length

/-- What the loop keeps. -/
structure Kept (n : ℕ) (st : LoopState P S) : Prop where
  total : st.totalProcessedLen = st.currentPosition
  inside : n ≤ st.recvBuf.length

variable {proto : Protocol S} {buf : List UInt8} {recvLen : ℕ}

/-- Every iteration that goes on posts a packet. -/
theorem Kept.posts_of_next (hkept : Kept n st) (h : onRecvStep E n st = .next st') :
    ∃ created messageLength r, Posts E n st created messageLength r := by
  rcases Nat.lt_or_ge n (st.currentPosition + 8) with hlt | hge
  · rw [onRecvStep_eq_leave.mpr hlt] at h
    cases h
  · rcases admits_or_returns (E := E) hkept.inside hge with ⟨created, len, hadm⟩ | ⟨code, hstop⟩
    · rcases hadm.posts_or_stops with ⟨r, hposts⟩ | ⟨e, st₁, hstop, -⟩
      · exact ⟨created, len, r, hposts⟩
      · rw [hstop] at h
        cases h
    · rw [hstop] at h
      cases h

theorem Posts.next_eq {created : P} {messageLength : ℕ} {r : Received}
    (h : Posts E n st created messageLength r) (hnext : onRecvStep E n st = .next st') :
    st'.currentPosition = st.currentPosition + messageLength ∧
      st'.totalProcessedLen = st.totalProcessedLen + messageLength ∧
      st'.recvBuf.length = st.recvBuf.length := by
  obtain ⟨st₁, hstep, hrest⟩ := h.onRecvStep_eq
  rw [hstep] at hnext
  cases hnext
  exact hrest

theorem Kept.next (hkept : Kept n st) (h : onRecvStep E n st = .next st') : Kept n st' := by
  obtain ⟨created, len, r, hposts⟩ := hkept.posts_of_next h
  obtain ⟨hcur, htotal, hlength⟩ := hposts.next_eq h
  constructor
  · rw [htotal, hcur, hkept.total]
  · rw [hlength]
    exact hkept.inside

theorem Reached.kept (h : Reached E proto buf recvLen st) :
    Kept (recvBufLength E proto buf recvLen) st := by
  induction h with
  | refl => exact ⟨rfl, Nat.le_max_right _ _⟩
  | tail _ hstep ih => exact ih.next hstep

/-- What a call ends with is what it ends with from every state it reaches. -/
theorem Reached.onRecvLoop_eq (h : Reached E proto buf recvLen st) {fuel : ℕ} {o : Outcome P S}
    (hrun : onRecvLoop E (recvBufLength E proto buf recvLen) buf fuel
      (proto.enter E.runtime buf recvLen) = some o) :
    ∃ fuel, onRecvLoop E (recvBufLength E proto buf recvLen) buf fuel st = some o := by
  induction h with
  | refl => exact ⟨fuel, hrun⟩
  | tail _ hstep ih =>
      obtain ⟨fuel, hrun⟩ := ih
      cases fuel with
      | zero => cases hrun
      | succ fuel =>
          rw [onRecvLoop, hstep] at hrun
          exact ⟨fuel, hrun⟩

/-- The copy behind the loop leaves an array when more has been processed than
received, or when the caller's array is too small. -/
theorem Kept.carryOver_exit (hkept : Kept n st) (buf : List UInt8) :
    (carryOver n st buf).exit = .faulted .outside ↔
      ¬ (st.currentPosition ≤ n ∧ n - st.currentPosition ≤ buf.length) := by
  have hle := hkept.inside.trans st.recvBuf.length_le
  have htotal := hkept.total
  constructor
  · rintro hexit ⟨hcur, hroom⟩
    have htail : (window st.recvBuf.buffer st.currentPosition (n - st.currentPosition)).length =
        n - st.currentPosition := length_window (by omega)
    have hcut : st.recvBuf.buffer = st.recvBuf.buffer.take st.currentPosition ++
        window st.recvBuf.buffer st.currentPosition (n - st.currentPosition) ++
        st.recvBuf.buffer.drop n := by
      rw [window, List.append_assoc,
        show n = st.currentPosition + (n - st.currentPosition) by omega,
        ← List.drop_drop, Nat.add_sub_cancel_left, List.take_append_drop, List.take_append_drop]
    have hpre : (st.recvBuf.buffer.take st.currentPosition).length = st.currentPosition := by
      rw [List.length_take]
      omega
    rw [carryOver_eq hcut (by rw [hpre, htotal]) (by rw [hpre, htail]; omega)
      (by rw [htail]; exact hroom)] at hexit
    cases hexit
  · intro hout
    have herr : (st.recvBuf.peek st.totalProcessedLen ((n : ℤ) - st.totalProcessedLen) >>=
        writeArray buf 0) = .error .outside := by
      by_cases hcur : st.currentPosition ≤ n
      · cases hpeek : st.recvBuf.peek st.totalProcessedLen ((n : ℤ) - st.totalProcessedLen) with
        | error e =>
            rw [(readArray_eq_error.mp hpeek).1]
            rfl
        | ok bytes =>
            have hlen := length_of_readArray hpeek
            change writeArray buf 0 bytes = _
            rw [writeArray, if_neg (by omega)]
      · exact Call.bind_eq_error.mpr (.inl (readArray_eq_error.mpr ⟨rfl, by omega⟩))
    unfold carryOver
    dsimp only
    rw [herr]

theorem onRecv_eq_loop (hle : recvLen ≤ buf.length) (h8 : 8 ≤ recvBufLength E proto buf recvLen)
    (fuel : ℕ) :
    onRecv E fuel proto buf recvLen =
      onRecvLoop E (recvBufLength E proto buf recvLen) buf fuel
        (proto.enter E.runtime buf recvLen) := by
  unfold recvBufLength at h8
  rw [onRecv, if_neg (by omega)]
  dsimp only
  rw [if_neg]
  · rfl
  · change ¬ _ < (8 : ℤ)
    omega

/-- In a safe call no state that is reached ends outside an array. -/
theorem Safe.onRecvLoop_exit (h : Safe E proto buf recvLen) (hle : recvLen ≤ buf.length)
    (h8 : 8 ≤ recvBufLength E proto buf recvLen) (hreach : Reached E proto buf recvLen st) :
    ∃ fuel o, onRecvLoop E (recvBufLength E proto buf recvLen) buf fuel st = some o ∧
      o.exit ≠ .faulted .outside := by
  obtain ⟨fuel, o, hrun, hexit⟩ := h.ends
  rw [onRecv_eq_loop hle h8] at hrun
  obtain ⟨fuel', hrun'⟩ := hreach.onRecvLoop_eq hrun
  exact ⟨fuel', o, hrun', hexit⟩

theorem Safe.onRecvStep_ne (h : Safe E proto buf recvLen) (hle : recvLen ≤ buf.length)
    (h8 : 8 ≤ recvBufLength E proto buf recvLen) (hreach : Reached E proto buf recvLen st) :
    onRecvStep E (recvBufLength E proto buf recvLen) st ≠ .stop (.faulted .outside) st' := by
  intro hstop
  obtain ⟨fuel, o, hrun, hexit⟩ := h.onRecvLoop_exit hle h8 hreach
  cases fuel with
  | zero => cases hrun
  | succ fuel =>
      rw [onRecvLoop, hstop] at hrun
      obtain rfl := Option.some.inj hrun
      exact hexit rfl

theorem Safe.leaves (h : Safe E proto buf recvLen) (hle : recvLen ≤ buf.length)
    (h8 : 8 ≤ recvBufLength E proto buf recvLen) (hreach : Reached E proto buf recvLen st)
    (hlt : recvBufLength E proto buf recvLen < st.currentPosition + 8) :
    st.currentPosition ≤ recvBufLength E proto buf recvLen ∧
      recvBufLength E proto buf recvLen - st.currentPosition ≤ buf.length := by
  obtain ⟨fuel, o, hrun, hexit⟩ := h.onRecvLoop_exit hle h8 hreach
  cases fuel with
  | zero => cases hrun
  | succ fuel =>
      rw [onRecvLoop, onRecvStep_eq_leave.mpr hlt] at hrun
      obtain rfl := Option.some.inj hrun
      by_contra hout
      exact hexit ((hreach.kept.carryOver_exit buf).mpr hout)

theorem Safe.tame (hR : E.runtime.Unpads) (h : Safe E proto buf recvLen) :
    Tame E proto buf recvLen := by
  have hle : recvLen ≤ buf.length := by
    by_contra hnot
    obtain ⟨fuel, o, hrun, hexit⟩ := h.ends
    rw [onRecv, if_pos (by omega)] at hrun
    obtain rfl := Option.some.inj hrun
    exact hexit rfl
  refine ⟨hle, fun st created len hreach hadm ↦ ?_, fun st created len r hreach hposts ↦ ?_,
    fun st hreach h8 hlt ↦ (h.leaves hle h8 hreach hlt).2⟩
  · have hheader := hadm.header
    have hhead : st.currentPosition + 8 ≤ st.recvBuf.buffer.length :=
      (hheader.trans hreach.kept.inside).trans st.recvBuf.length_le
    by_contra hout
    have hstop : onRecvStep E (recvBufLength E proto buf recvLen) st =
        .stop (.faulted .outside) st := by
      rw [hadm.onRecvStep_eq, (modifyRecv_eq_outside hR hhead).mpr hout]
    exact h.onRecvStep_ne hle (by omega) hreach hstop
  · have hheader := hposts.admits.header
    refine ⟨(h.within st created len r hreach hposts).2, ?_⟩
    by_contra hbeyond
    -- the next test of the condition leaves the loop behind the bytes received
    obtain ⟨st', hstep, hcur, -, -⟩ := hposts.onRecvStep_eq
    have hreach' : Reached E proto buf recvLen st' := hreach.tail hstep
    have hin := (h.leaves hle (by omega) hreach' (by omega)).1
    omega

theorem Tame.onRecvLoop_ends (hR : E.runtime.Unpads) (h : Tame E proto buf recvLen)
    (h8 : 8 ≤ recvBufLength E proto buf recvLen) :
    ∀ rest (st : LoopState P S), Reached E proto buf recvLen st →
      st.currentPosition + rest = recvBufLength E proto buf recvLen →
      ∃ fuel o, onRecvLoop E (recvBufLength E proto buf recvLen) buf fuel st = some o ∧
        o.exit ≠ .faulted .outside := by
  intro rest
  -- on the bytes that are not yet processed
  induction rest using Nat.strong_induction_on with
  | _ rest ih =>
      intro st hreach hrest
      have hkept := hreach.kept
      rcases Nat.lt_or_ge (recvBufLength E proto buf recvLen) (st.currentPosition + 8)
        with hlt | hge
      · have hroom := h.room st hreach h8 hlt
        refine ⟨1, _, by rw [onRecvLoop, onRecvStep_eq_leave.mpr hlt], ?_⟩
        intro hexit
        exact (hkept.carryOver_exit buf).mp hexit ⟨by omega, hroom⟩
      · rcases admits_or_returns (E := E) hkept.inside hge with
          ⟨created, len, hadm⟩ | ⟨code, hstop⟩
        · rcases hadm.posts_or_stops with ⟨r, hposts⟩ | ⟨e, st₁, hstop, hout⟩
          · obtain ⟨hused, harrived⟩ := h.complete st created len r hreach hposts
            obtain ⟨st', hstep, hcur, -, -⟩ := hposts.onRecvStep_eq
            obtain ⟨fuel, o, hrun, hexit⟩ := ih (rest - len) (by omega) st' (hreach.tail hstep)
              (by omega)
            exact ⟨fuel + 1, o, by rw [onRecvLoop, hstep]; exact hrun, hexit⟩
          · refine ⟨1, _, by rw [onRecvLoop, hstop], ?_⟩
            intro hexit
            have hhead : st.currentPosition + 8 ≤ st.recvBuf.buffer.length :=
              (hge.trans hkept.inside).trans st.recvBuf.length_le
            exact (modifyRecv_eq_outside hR hhead).mp (hout hexit)
              (h.inRange st created len hreach hadm)
        · exact ⟨1, _, by rw [onRecvLoop, hstop], fun hexit ↦ by cases hexit⟩

/-- Any call, from any receive buffer. -/
theorem safe_iff (hR : E.runtime.Unpads) (proto : Protocol S) (buf : List UInt8) (recvLen : ℕ) :
    Safe E proto buf recvLen ↔ Tame E proto buf recvLen := by
  refine ⟨Safe.tame hR, fun h ↦ ⟨?_, ?_, ?_⟩⟩
  · rcases Nat.lt_or_ge (recvBufLength E proto buf recvLen) 8 with hlt | hge
    · have harray := h.array
      refine ⟨0, ⟨.returned .success, { proto with
        recvBuf := proto.received E.runtime buf recvLen }, [], buf⟩, ?_, by simp⟩
      rw [onRecv, if_neg (by omega)]
      dsimp only
      rw [if_pos]
      change _ < (8 : ℤ)
      unfold recvBufLength at hlt
      omega
    · obtain ⟨fuel, o, hrun, hexit⟩ := h.onRecvLoop_ends hR hge
        (recvBufLength E proto buf recvLen) (proto.enter E.runtime buf recvLen) .refl
        (Nat.zero_add _)
      exact ⟨fuel, o, by rw [onRecv_eq_loop h.array hge]; exact hrun, hexit⟩
  · intro st st' hreach hstep
    obtain ⟨created, len, r, hposts⟩ := hreach.kept.posts_of_next hstep
    obtain ⟨hused, -⟩ := h.complete st created len r hreach hposts
    have hcur := (hposts.next_eq hstep).1
    omega
  · intro st created len r hreach hposts
    obtain ⟨hused, harrived⟩ := h.complete st created len r hreach hposts
    exact ⟨by omega, hused⟩

end

/-! ## A frame that is what it says, and one of length zero -/

theorem Runtime.Unpads.answering {R : Runtime} (h : R.Unpads) (a : Answer) :
    (R.answering a).Unpads := by
  intro k iv text plain hplain
  rw [← a.length_exchange k iv [] text]
  exact h k iv (a.exchange k iv [] text) plain hplain

theorem paddingRuntime_unpads {sha1 : List UInt8 → { l : List UInt8 // l.length = 20 }} :
    (paddingRuntime sha1).Unpads := by
  intro k iv text plain h
  obtain ⟨b, -, rfl⟩ := Option.map_eq_some_iff.mp h
  rw [List.length_take]
  omega

theorem sampleRuntime_unpads : sampleRuntime.Unpads :=
  (paddingRuntime_unpads.answering sampleAnswer).answering secondAnswer

/-- A first frame of the record class, with any length in its header. -/
def hostileFrame (len : ℕ) (body : List UInt8) : List UInt8 := header len 0x02010001 ++ body ++ []

section

variable (n len : ℕ) (scratch body : List UInt8)

theorem recvBufLength_record :
    recvBufLength (recordEnv {} {} n) (.initial scratch) (hostileFrame len body)
      (8 + body.length) = 8 + body.length :=
  (received_frame rfl sampleRuntime len 0x02010001 body []).2.1

theorem admits_record (hlen : len ≤ 512 * 1024) :
    Admits (recordEnv {} {} n) (8 + body.length)
      ((Protocol.initial scratch).enter sampleRuntime (hostileFrame len body) (8 + body.length))
      [] len := by
  have hempty : (Protocol.initial scratch).recvBuf.position = 0 := rfl
  obtain ⟨hframed, -, -⟩ := received_frame hempty sampleRuntime len 0x02010001 body []
  have htopic := hframed.getMessageTopic_eq (Eq.refl ((0 : ℕ) : ℤ))
  have hlength := hframed.getMessageLength_eq (Eq.refl ((0 : ℕ) : ℤ))
  rw [Nat.mod_eq_of_lt (by omega)] at hlength
  refine ⟨?_, hlength, ?_, _, htopic, rfl⟩
  · change 0 + 8 ≤ _
    omega
  · change (len : ℤ) ≤ 512 * 1024
    omega

variable {n len}

/-- No modifier is in force, so every frame of the class that is admitted is
posted. -/
theorem Admits.posts_record {m : ℕ} {st : LoopState (List UInt8) (List UInt8)}
    {created : List UInt8} (h : Admits (recordEnv {} {} n) m st created len) :
    Posts (recordEnv {} {} n) m st created len ⟨.success, st.mods, st.recvBuf⟩ where
  admits := h
  modified := rfl
  code := rfl
  accepted := rfl

theorem safe_record :
    Safe (recordEnv {} {} 1) (.initial [0]) (hostileFrame 9 [5]) 9 := by
  have hlength : recvBufLength (recordEnv {} {} 1) (.initial [0]) (hostileFrame 9 [5]) 9 = 9 :=
    recvBufLength_record 1 9 [0] [5]
  have hfirst := (admits_record 1 9 [0] [5] (by decide)).posts_record
  -- behind the one frame the loop stands at the end of the bytes
  have hreached : ∀ st, Reached (recordEnv {} {} 1) (.initial [0]) (hostileFrame 9 [5]) 9 st →
      st = (Protocol.initial [0]).enter sampleRuntime (hostileFrame 9 [5]) 9 ∨
        st.currentPosition = 9 := by
    intro st hreach
    induction hreach with
    | refl => exact .inl rfl
    | tail hreach hstep ih =>
        rw [hlength] at hstep
        rcases ih with rfl | hend
        · exact .inr (hfirst.next_eq hstep).1
        · rw [onRecvStep_eq_leave.mpr (by rw [hend]; decide)] at hstep
          cases hstep
  refine (safe_iff sampleRuntime_unpads _ _ _).mpr ⟨by decide, ?_, ?_, ?_⟩
  · intro st created len _ _
    exact ⟨fun h ↦ (Bool.false_ne_true h).elim, fun h ↦ (Bool.false_ne_true h).elim,
      fun h ↦ (Bool.false_ne_true h).elim⟩
  · intro st created len r hreach hposts
    rw [hlength] at hposts ⊢
    rcases hreached st hreach with rfl | hend
    · obtain rfl : len = 9 := Except.ok.inj (hposts.admits.length.symm.trans hfirst.admits.length)
      exact ⟨Nat.le_refl 9, Nat.le_refl 9⟩
    · have hheader := hposts.admits.header
      omega
  · intro st hreach _ hlt
    rw [hlength] at hlt ⊢
    rcases hreached st hreach with rfl | hend
    · exact absurd hlt (by decide)
    · rw [hend]
      decide

/-- A class without fields and a length field of zero: the loop does not move. -/
theorem not_safe_zero :
    hostileFrame 0 [] = [0, 0, 0, 0, 0x01, 0x00, 0x01, 0x02] ∧
      ¬ Safe (recordEnv {} {} 0) (.initial []) (hostileFrame 0 []) 8 := by
  refine ⟨rfl, fun h ↦ ?_⟩
  have hposts := (admits_record 0 0 [] [] (by decide)).posts_record
  rw [← recvBufLength_record 0 0 [] []] at hposts
  obtain ⟨st', hstep, hcur, -⟩ := hposts.onRecvStep_eq
  have hforward := h.forward _ st' .refl hstep
  rw [hcur] at hforward
  exact Nat.lt_irrefl _ hforward

end

end WiseKernel.Client
