import WiseKernel.Client.Frames

/-!
# The client's modifiers on any frame

Where the accesses of `ModifyRecv` leave the array, for any length field and
any contents of the frame.
-/

namespace WiseKernel.Client

open WiseKernel.Lib WiseKernel.Net

/-! ## Accesses that leave an array -/

theorem Call.bind_eq_error {α β : Type} {x : Call α} {f : α → Call β} {e : Fault} :
    (x >>= f) = .error e ↔ x = .error e ∨ ∃ a, x = .ok a ∧ f a = .error e := by
  constructor
  · intro h
    cases x with
    | error e' =>
        obtain rfl : e' = e := Except.error.inj h
        exact .inl rfl
    | ok a => exact .inr ⟨a, rfl, h⟩
  · rintro (rfl | ⟨a, rfl, h⟩)
    · rfl
    · exact h

theorem readArray_eq_error {arr : List UInt8} {offset count : ℤ} {e : Fault} :
    readArray arr offset count = .error e ↔
      e = .outside ∧ ¬ (0 ≤ offset ∧ 0 ≤ count ∧ offset + count ≤ arr.length) := by
  unfold readArray
  split_ifs with h
  · simp [h]
  · simp [h, eq_comm]

theorem length_of_readArray {arr bytes : List UInt8} {offset count : ℤ}
    (h : readArray arr offset count = .ok bytes) : (bytes.length : ℤ) = count := by
  unfold readArray at h
  split_ifs at h with hin
  obtain rfl := Except.ok.inj h
  rw [length_window (by omega)]
  omega

namespace BackedStream

variable {s s' : BackedStream}

theorem poke_eq_error {offset : ℤ} {bytes : List UInt8} {e : Fault} :
    s.poke offset bytes = .error e ↔
      e = .outside ∧ ¬ (0 ≤ offset ∧ offset + bytes.length ≤ s.buffer.length) := by
  unfold poke
  split_ifs with h
  · simp [h]
  · simp [h, eq_comm]

/-- Writing through `GetBuffer()` changes neither the array's size nor the
stream's. -/
theorem poke_keeps {offset : ℤ} {bytes : List UInt8} (h : s.poke offset bytes = .ok s') :
    s'.buffer.length = s.buffer.length ∧ s'.length = s.length := by
  unfold poke at h
  split_ifs at h with hin
  obtain rfl := Except.ok.inj h
  exact ⟨length_overwrite (by omega), rfl⟩

end BackedStream

theorem setMessageLength_ne_error {s : BackedStream} {cp : ℕ} (hhead : cp + 8 ≤ s.buffer.length)
    (v : ℕ) (e : Fault) : setMessageLength s cp v ≠ .error e := by
  intro h
  refine (BackedStream.poke_eq_error.mp h).2 ⟨by omega, ?_⟩
  change (cp : ℤ) + (4 : ℕ) ≤ _
  omega

theorem getMessageLength_ne_error {s : BackedStream} {cp : ℕ} (hhead : cp + 8 ≤ s.buffer.length)
    (e : Fault) : getMessageLength s cp ≠ .error e := by
  intro h
  rcases Call.bind_eq_error.mp h with h | ⟨_, _, h⟩
  · exact (readArray_eq_error.mp h).2 ⟨by omega, by omega, by omega⟩
  · cases h

theorem getMessageTopic_ne_error {s : BackedStream} {cp : ℕ} (hhead : cp + 8 ≤ s.buffer.length)
    (e : Fault) : getMessageTopic s cp ≠ .error e := by
  intro h
  rcases Call.bind_eq_error.mp h with h | ⟨_, _, h⟩
  · rcases Call.bind_eq_error.mp h with h | ⟨_, _, h⟩
    · refine (readArray_eq_error.mp h).2 ⟨?_, by omega, ?_⟩
      · change 0 ≤ (cp : ℤ) + 4
        omega
      · change (cp : ℤ) + 4 + 4 ≤ _
        omega
    · cases h
  · cases h

/-! ## The modifiers -/

section

variable {R : Runtime} {s : BackedStream} {cp len : ℕ}

theorem SequenceModifier.modifyRecv_eq_error {m : SequenceModifier}
    (hhead : cp + 8 ≤ s.buffer.length) (hlen : getMessageLength s cp = .ok len) {e : Fault} :
    m.modifyRecv s cp = .error e ↔
      e = .outside ∧ ¬ (1 ≤ cp + len ∧ cp + len ≤ s.buffer.length) := by
  have hstep : m.modifyRecv s cp = s.peek ((cp : ℤ) + len - 1) 1 >>= fun seq ↦
      if seq ≠ [m.recvSeq] then return (.failInvalidRecvSequence, m, s)
      else do
        let s ← setMessageLength s cp ((len + 2 ^ 32 - 1) % 2 ^ 32)
        return (.success, { m with recvSeq := m.recvSeq + 1 }, s) := by
    rw [SequenceModifier.modifyRecv, hlen]
    rfl
  rw [hstep, Call.bind_eq_error]
  constructor
  · rintro (h | ⟨seq, -, h⟩)
    · obtain ⟨he, hout⟩ := readArray_eq_error.mp h
      exact ⟨he, by omega⟩
    · split_ifs at h
      · cases h
      · rcases Call.bind_eq_error.mp h with h | ⟨_, _, h⟩
        · exact absurd h (setMessageLength_ne_error hhead _ _)
        · cases h
  · rintro ⟨rfl, hout⟩
    exact .inl (readArray_eq_error.mpr ⟨rfl, by omega⟩)

/-- The comparison leaves the array where this ends within the four bytes and
agrees as far as it goes. -/
theorem ChecksumModifier.equalAt_eq_error {index : ℕ} (hindex : index ≤ s.buffer.length)
    (bs : List UInt8) {e : Fault} :
    equalAt s index bs = .error e ↔
      e = .outside ∧ s.buffer.length < index + bs.length ∧ s.buffer.drop index <+: bs := by
  induction bs generalizing index with
  | nil =>
      constructor
      · intro h
        cases h
      · rintro ⟨-, hlt, -⟩
        simp only [List.length_nil] at hlt
        omega
  | cons b bs ih =>
      rw [equalAt]
      rcases Nat.lt_or_ge index s.buffer.length with hlt | hge
      · have hdrop := List.drop_eq_getElem_cons hlt
        have hpeek : s.peek index 1 = .ok [s.buffer[index]] := by
          refine BackedStream.peek_cut (s.buffer.take index) _ (s.buffer.drop (index + 1)) ?_ ?_ rfl
          · rw [List.append_assoc, List.singleton_append, ← hdrop, List.take_append_drop]
          · simp [Nat.min_eq_left hlt.le]
        rw [hpeek, hdrop, List.cons_prefix_cons, List.length_cons]
        change (if [s.buffer[index]] = [b] then equalAt s ((index : ℤ) + 1) bs
          else .ok false) = .error e ↔ _
        by_cases hb : s.buffer[index] = b
        · rw [if_pos (by rw [hb]), show (index : ℤ) + 1 = (index + 1 : ℕ) by omega, ih hlt]
          constructor
          · rintro ⟨he, hlen, hpre⟩
            exact ⟨he, by omega, hb, hpre⟩
          · rintro ⟨he, hlen, -, hpre⟩
            exact ⟨he, by omega, hpre⟩
        · rw [if_neg (by simpa using hb)]
          constructor
          · intro h
            cases h
          · rintro ⟨-, -, hb', -⟩
            exact absurd hb' hb
      · have hend : index = s.buffer.length := by omega
        have hpeek : s.peek index 1 = .error .outside := readArray_eq_error.mpr ⟨rfl, by omega⟩
        rw [hpeek, hend, List.drop_length]
        constructor
        · intro h
          cases h
          exact ⟨rfl, by simp, List.nil_prefix⟩
        · rintro ⟨rfl, -, -⟩
          rfl

/-- The frame has no body to check, or the four bytes and what is before them
lie in the array as far as they are compared. -/
def ChecksumModifier.Inside (R : Runtime) (s : BackedStream) (cp len : ℕ) : Prop :=
  len = 8 ∨ 12 ≤ len ∧ cp + len - 4 ≤ s.buffer.length ∧
    (s.buffer.length < cp + len →
      ¬ s.buffer.drop (cp + len - 4) <+:
        (computeHash R (window s.buffer (cp + 8) (len - 12))).take 4)

theorem ChecksumModifier.modifyRecv_eq_error (hhead : cp + 8 ≤ s.buffer.length)
    (hlen : getMessageLength s cp = .ok len) {e : Fault} :
    modifyRecv R s cp = .error e ↔ e = .outside ∧ ¬ ChecksumModifier.Inside R s cp len := by
  have hstep : modifyRecv R s cp = if (len : ℤ) = headerSize then return (.success, s)
      else do
        let payload ← s.peek (cp + headerSize) (len - headerSize - 4)
        let equal ← equalAt s (cp + ((len : ℤ) - 4)) ((computeHash R payload).take 4)
        if equal = false then return (.failInvalidCrc, s)
        else
          let s ← setMessageLength s cp (len - 4)
          return (.success, s) := by
    rw [ChecksumModifier.modifyRecv, hlen]
    rfl
  have hhs : (headerSize : ℤ) = 8 := rfl
  rw [hstep]
  by_cases h8 : len = 8
  · rw [if_pos (by omega)]
    constructor
    · intro h
      cases h
    · rintro ⟨-, hnot⟩
      exact absurd (.inl h8) hnot
  · rw [if_neg (by omega), Call.bind_eq_error]
    constructor
    · rintro (h | ⟨payload, hpayload, h⟩)
      · obtain ⟨he, hout⟩ := readArray_eq_error.mp h
        refine ⟨he, ?_⟩
        rintro (h8' | ⟨h12, hin, -⟩)
        · exact h8 h8'
        · omega
      · have hrange : 12 ≤ len ∧ cp + len - 4 ≤ s.buffer.length := by
          by_contra hnot
          have herr : s.peek (cp + headerSize) ((len : ℤ) - headerSize - 4) = .error .outside :=
            readArray_eq_error.mpr ⟨rfl, by omega⟩
          rw [hpayload] at herr
          cases herr
        obtain ⟨h12, hin⟩ := hrange
        have hwindow : payload = window s.buffer (cp + 8) (len - 12) := by
          change readArray _ _ _ = _ at hpayload
          rw [readArray, if_pos (by omega)] at hpayload
          obtain rfl := Except.ok.inj hpayload
          congr 1
          omega
        rcases Call.bind_eq_error.mp h with h | ⟨equal, -, h⟩
        · rw [show (cp : ℤ) + ((len : ℤ) - 4) = (cp + len - 4 : ℕ) by omega,
            equalAt_eq_error hin, length_take_computeHash, hwindow] at h
          obtain ⟨he, hlt, hpre⟩ := h
          refine ⟨he, ?_⟩
          rintro (h8' | ⟨-, -, hnot⟩)
          · exact h8 h8'
          · exact hnot (by omega) hpre
        · split_ifs at h
          · cases h
          · rcases Call.bind_eq_error.mp h with h | ⟨_, _, h⟩
            · exact absurd h (setMessageLength_ne_error hhead _ _)
            · cases h
    · rintro ⟨rfl, hnot⟩
      by_cases hrange : 12 ≤ len ∧ cp + len - 4 ≤ s.buffer.length
      · obtain ⟨h12, hin⟩ := hrange
        have hpeek : s.peek (cp + headerSize) ((len : ℤ) - headerSize - 4) =
            .ok (window s.buffer (cp + 8) (len - 12)) := by
          change readArray _ _ _ = _
          rw [readArray, if_pos (by omega)]
          congr 2
          omega
        refine .inr ⟨_, hpeek, Call.bind_eq_error.mpr (.inl ?_)⟩
        rw [show (cp : ℤ) + ((len : ℤ) - 4) = (cp + len - 4 : ℕ) by omega,
          equalAt_eq_error hin, length_take_computeHash]
        by_contra hok
        refine hnot (.inr ⟨h12, hin, fun hlt hpre ↦ hok ⟨rfl, by omega, hpre⟩⟩)
      · exact .inl (readArray_eq_error.mpr ⟨rfl, by omega⟩)

/-- What is documented of decryption: the padding is taken away. -/
def Runtime.Unpads (R : Runtime) : Prop :=
  ∀ k iv text plain, R.decrypt k iv text = some plain → plain.length ≤ text.length

theorem Cipher.updateHash_all (R : Runtime) (c : Cipher) (data : List UInt8) :
    ∃ hashed, c.updateHash R data 0 data.length = .ok hashed ∧
      ∀ interval, hashed.complete interval ≠ .error .outside := by
  have hread : readArray data 0 (min (data.length : ℤ) 64) = .ok (data.take 64) := by
    refine readArray_cut [] (data.take 64) (data.drop 64) ?_ rfl ?_
    · rw [List.nil_append, List.take_append_drop]
    · rw [List.length_take]
      omega
  obtain ⟨rest, hfront⟩ := BackedStream.write_front (s := c.hashStream) R.grow
    (R.sha1 (c.chained R data).buffer).1
  refine ⟨{ c with
    workStream := c.chained R data
    hashStream := (c.hashStream.seek 0).write R.grow (R.sha1 (c.chained R data).buffer).1 },
    ?_, fun interval ↦ ?_⟩
  · rw [Cipher.updateHash, hread]
    rfl
  · have hlen : blockSize ≤ ((c.hashStream.seek 0).write R.grow
        (R.sha1 (c.chained R data).buffer).1).buffer.length := by
      rw [hfront, List.length_append, (R.sha1 (c.chained R data).buffer).2, blockSize]
      omega
    unfold Cipher.complete
    rw [dif_pos hlen]
    split_ifs <;> simp

theorem CipherModifier.modifyRecv_eq_outside {S : Settings} (hR : R.Unpads)
    {m : CipherModifier} (hhead : cp + 8 ≤ s.buffer.length)
    (hlen : getMessageLength s cp = .ok len) :
    m.modifyRecv R S s cp = .error .outside ↔ ¬ (8 ≤ len ∧ cp + len ≤ s.buffer.length) := by
  have hhs : (headerSize : ℤ) = 8 := rfl
  have hstep : m.modifyRecv R S s cp =
      s.peek (cp + headerSize) ((len : ℤ) - headerSize) >>= fun text ↦
        (R.decrypt m.recevier.key m.recevier.iv text).elim (.error .cryptographic) fun plain ↦ do
          let s ← s.poke (cp + headerSize) plain
          let recevier ← m.recevier.updateHash R plain 0 plain.length
          let recevier ← recevier.complete S.cipherKeyChangeInterval
          let s ← setMessageLength s cp ((plain.length + headerSize.toNat) % 2 ^ 32)
          return ({ m with recevier := recevier }, s) := by
    rw [CipherModifier.modifyRecv, hlen]
    change s.peek (cp + headerSize) ((len : ℤ) - headerSize) >>= _ = _
    congr 1
    funext text
    cases R.decrypt m.recevier.key m.recevier.iv text <;> rfl
  rw [hstep, Call.bind_eq_error]
  constructor
  · rintro (h | ⟨text, htext, h⟩)
    · have hout := (readArray_eq_error.mp h).2
      omega
    · rintro ⟨h8, hin⟩
      have htextLen := length_of_readArray htext
      cases hdec : R.decrypt m.recevier.key m.recevier.iv text with
      | none =>
          rw [hdec] at h
          cases h
      | some plain =>
          rw [hdec] at h
          have hplain := hR _ _ _ _ hdec
          rcases Call.bind_eq_error.mp h with h | ⟨s₁, hpoke, h⟩
          · exact (BackedStream.poke_eq_error.mp h).2 (by omega)
          · obtain ⟨hashed, hupdate, hcomplete⟩ := Cipher.updateHash_all R m.recevier plain
            change (m.recevier.updateHash R plain 0 plain.length >>= _) = _ at h
            rw [hupdate] at h
            change (hashed.complete S.cipherKeyChangeInterval >>= _) = _ at h
            rcases Call.bind_eq_error.mp h with h | ⟨_, -, h⟩
            · exact hcomplete _ h
            · rcases Call.bind_eq_error.mp h with h | ⟨_, _, h⟩
              · have hkeeps := (BackedStream.poke_keeps hpoke).1
                exact absurd h (setMessageLength_ne_error (by omega) _ _)
              · cases h
  · intro hout
    exact .inl (readArray_eq_error.mpr ⟨rfl, by omega⟩)

/-! ## The pipeline -/

/-- `ModifyRecv` up to the checksum. -/
def afterCipher (R : Runtime) (S : Settings) (on : Flags) (m : Modifiers) (s : BackedStream)
    (cp : ℕ) : Call Received :=
  Received.stage on.enableCipher (Received.cipher R S cp) ⟨.success, m, s⟩

/-- `ModifyRecv` up to the sequence number. -/
def afterChecksum (R : Runtime) (S : Settings) (on : Flags) (m : Modifiers) (s : BackedStream)
    (cp : ℕ) : Call Received :=
  afterCipher R S on m s cp >>= Received.stage on.enableChecksum (Received.checksum R cp)

theorem modifyRecv_eq_bind (R : Runtime) (S : Settings) (flags : Flags) (m : Modifiers)
    (s : BackedStream) (cp : ℕ) :
    modifyRecv R S flags m s cp = afterChecksum R S (S.inForce flags) m s cp >>=
      Received.stage (S.inForce flags).enableSequence (Received.sequence cp) := by
  unfold modifyRecv afterChecksum afterCipher
  rw [bind_assoc]

/-- Each modifier in force finds a length that keeps it within the array. -/
structure InRange (R : Runtime) (S : Settings) (on : Flags) (m : Modifiers) (s : BackedStream)
    (cp : ℕ) : Prop where
  cipher : on.enableCipher = true → ∀ len, getMessageLength s cp = .ok len →
    8 ≤ len ∧ cp + len ≤ s.buffer.length
  checksum : on.enableChecksum = true → ∀ r, afterCipher R S on m s cp = .ok r →
    ∀ len, getMessageLength r.packetBuf cp = .ok len →
      ChecksumModifier.Inside R r.packetBuf cp len
  sequence : on.enableSequence = true → ∀ r, afterChecksum R S on m s cp = .ok r →
    r.code = .success → ∀ len, getMessageLength r.packetBuf cp = .ok len →
      1 ≤ cp + len ∧ cp + len ≤ r.packetBuf.buffer.length

/-- The arrays and streams of two states have the same sizes. -/
structure SameSize (s s' : BackedStream) : Prop where
  buffer : s'.buffer.length = s.buffer.length
  length : s'.length = s.length

theorem SameSize.of_poke {s' : BackedStream} {offset : ℤ} {bytes : List UInt8}
    (h : s.poke offset bytes = .ok s') : SameSize s s' :=
  ⟨(BackedStream.poke_keeps h).1, (BackedStream.poke_keeps h).2⟩

theorem SameSize.trans {s₁ s₂ s₃ : BackedStream} (h : SameSize s₁ s₂) (h' : SameSize s₂ s₃) :
    SameSize s₁ s₃ :=
  ⟨h'.buffer.trans h.buffer, h'.length.trans h.length⟩

theorem afterCipher_sameSize {S : Settings} {on : Flags} {m : Modifiers} {r : Received}
    (h : afterCipher R S on m s cp = .ok r) : SameSize s r.packetBuf := by
  unfold afterCipher Received.stage at h
  split_ifs at h
  · obtain ⟨x, hx, h⟩ := Call.bind_eq_ok.mp h
    obtain rfl := Except.ok.inj h
    obtain ⟨_, -, hx⟩ := Call.bind_eq_ok.mp hx
    obtain ⟨text, -, hx⟩ := Call.bind_eq_ok.mp hx
    cases hdec : R.decrypt m.cipher.recevier.key m.cipher.recevier.iv text with
    | none =>
        rw [hdec] at hx
        cases hx
    | some plain =>
        rw [hdec] at hx
        obtain ⟨s₁, hpoke, hx⟩ := Call.bind_eq_ok.mp hx
        obtain ⟨_, -, hx⟩ := Call.bind_eq_ok.mp hx
        obtain ⟨_, -, hx⟩ := Call.bind_eq_ok.mp hx
        obtain ⟨s₂, hset, hx⟩ := Call.bind_eq_ok.mp hx
        obtain rfl := Except.ok.inj hx
        exact (SameSize.of_poke hpoke).trans (.of_poke hset)
  · obtain rfl := Except.ok.inj h
    exact ⟨rfl, rfl⟩

theorem ChecksumModifier.modifyRecv_sameSize {x : Code × BackedStream}
    (h : ChecksumModifier.modifyRecv R s cp = .ok x) : SameSize s x.2 := by
  obtain ⟨len, -, h⟩ := Call.bind_eq_ok.mp h
  dsimp only at h
  split_ifs at h
  · obtain rfl := Except.ok.inj h
    exact ⟨rfl, rfl⟩
  · obtain ⟨_, -, h⟩ := Call.bind_eq_ok.mp h
    obtain ⟨_, -, h⟩ := Call.bind_eq_ok.mp h
    split_ifs at h
    · obtain rfl := Except.ok.inj h
      exact ⟨rfl, rfl⟩
    · obtain ⟨s₁, hset, h⟩ := Call.bind_eq_ok.mp h
      obtain rfl := Except.ok.inj h
      exact .of_poke hset

theorem afterChecksum_sameSize {S : Settings} {on : Flags} {m : Modifiers} {r : Received}
    (h : afterChecksum R S on m s cp = .ok r) : SameSize s r.packetBuf := by
  obtain ⟨r₁, hcipher, h⟩ := Call.bind_eq_ok.mp h
  have hsame := afterCipher_sameSize hcipher
  unfold Received.stage at h
  split_ifs at h
  · obtain ⟨x, hx, h⟩ := Call.bind_eq_ok.mp h
    obtain rfl := Except.ok.inj h
    exact hsame.trans (ChecksumModifier.modifyRecv_sameSize hx)
  · obtain rfl := Except.ok.inj h
    exact hsame

theorem modifyRecv_sameSize {S : Settings} {flags : Flags} {m : Modifiers} {r : Received}
    (h : modifyRecv R S flags m s cp = .ok r) : SameSize s r.packetBuf := by
  rw [modifyRecv_eq_bind] at h
  obtain ⟨r₁, hchecksum, h⟩ := Call.bind_eq_ok.mp h
  have hsame := afterChecksum_sameSize hchecksum
  unfold Received.stage at h
  split_ifs at h
  · obtain ⟨x, hx, h⟩ := Call.bind_eq_ok.mp h
    obtain rfl := Except.ok.inj h
    obtain ⟨len, -, hx⟩ := Call.bind_eq_ok.mp hx
    obtain ⟨seq, -, hx⟩ := Call.bind_eq_ok.mp hx
    split_ifs at hx
    · obtain rfl := Except.ok.inj hx
      exact hsame
    · obtain ⟨s₁, hset, hx⟩ := Call.bind_eq_ok.mp hx
      obtain rfl := Except.ok.inj hx
      exact hsame.trans (.of_poke hset)
  · obtain rfl := Except.ok.inj h
    exact hsame

theorem afterCipher_code {S : Settings} {on : Flags} {m : Modifiers} {r : Received}
    (h : afterCipher R S on m s cp = .ok r) : r.code = .success := by
  unfold afterCipher Received.stage at h
  split_ifs at h
  · obtain ⟨x, -, h⟩ := Call.bind_eq_ok.mp h
    obtain rfl := Except.ok.inj h
    rfl
  · obtain rfl := Except.ok.inj h
    rfl

/-- Where `ModifyRecv` leaves the array. -/
theorem modifyRecv_eq_outside {S : Settings} (hR : R.Unpads) {flags : Flags} {m : Modifiers}
    (hhead : cp + 8 ≤ s.buffer.length) :
    modifyRecv R S flags m s cp = .error .outside ↔ ¬ InRange R S (S.inForce flags) m s cp := by
  have hlength : ∀ s' : BackedStream, cp + 8 ≤ s'.buffer.length →
      ∃ len, getMessageLength s' cp = .ok len := by
    intro s' hs'
    cases hlen : getMessageLength s' cp with
    | error e => exact absurd hlen (getMessageLength_ne_error hs' e)
    | ok len => exact ⟨len, rfl⟩
  set on := S.inForce flags with hon
  rw [modifyRecv_eq_bind, ← hon]
  constructor
  · intro h hrange
    rcases Call.bind_eq_error.mp h with h | ⟨r, hr, h⟩
    · rcases Call.bind_eq_error.mp h with h | ⟨r, hr, h⟩
      · unfold afterCipher Received.stage at h
        split_ifs at h with hcipher
        · obtain ⟨len, hlen⟩ := hlength s hhead
          rcases Call.bind_eq_error.mp h with h | ⟨_, _, h⟩
          · exact (CipherModifier.modifyRecv_eq_outside hR hhead hlen).mp h
              (hrange.cipher hcipher.2 len hlen)
          · cases h
        · cases h
      · unfold Received.stage at h
        split_ifs at h with hchecksum
        · have hsame := afterCipher_sameSize hr
          obtain ⟨len, hlen⟩ := hlength r.packetBuf (by rw [hsame.buffer]; exact hhead)
          rcases Call.bind_eq_error.mp h with h | ⟨_, _, h⟩
          · exact ((ChecksumModifier.modifyRecv_eq_error (by rw [hsame.buffer]; exact hhead)
              hlen).mp h).2 (hrange.checksum hchecksum.2 r hr len hlen)
          · cases h
        · cases h
    · unfold Received.stage at h
      split_ifs at h with hsequence
      · have hsame := afterChecksum_sameSize hr
        obtain ⟨len, hlen⟩ := hlength r.packetBuf (by rw [hsame.buffer]; exact hhead)
        rcases Call.bind_eq_error.mp h with h | ⟨_, _, h⟩
        · exact ((SequenceModifier.modifyRecv_eq_error (by rw [hsame.buffer]; exact hhead)
            hlen).mp h).2 (hrange.sequence hsequence.2 r hr hsequence.1 len hlen)
        · cases h
      · cases h
  · -- the first modifier that is out of range ends the call
    intro hnot
    by_contra hok
    refine hnot ⟨fun hcipher len hlen ↦ ?_, fun hchecksum r hr len hlen ↦ ?_,
      fun hsequence r hr hcode len hlen ↦ ?_⟩
    · by_contra hout
      refine hok (Call.bind_eq_error.mpr (.inl (Call.bind_eq_error.mpr (.inl ?_))))
      rw [afterCipher, Received.stage, if_pos ⟨rfl, hcipher⟩]
      exact Call.bind_eq_error.mpr (.inl
        ((CipherModifier.modifyRecv_eq_outside hR hhead hlen).mpr hout))
    · by_contra hout
      have hsame := afterCipher_sameSize hr
      refine hok (Call.bind_eq_error.mpr (.inl (Call.bind_eq_error.mpr (.inr ⟨r, hr, ?_⟩))))
      rw [Received.stage, if_pos ⟨afterCipher_code hr, hchecksum⟩]
      exact Call.bind_eq_error.mpr (.inl ((ChecksumModifier.modifyRecv_eq_error
        (by rw [hsame.buffer]; exact hhead) hlen).mpr ⟨rfl, hout⟩))
    · by_contra hout
      have hsame := afterChecksum_sameSize hr
      refine hok (Call.bind_eq_error.mpr (.inr ⟨r, hr, ?_⟩))
      rw [Received.stage, if_pos ⟨hcode, hsequence⟩]
      exact Call.bind_eq_error.mpr (.inl ((SequenceModifier.modifyRecv_eq_error
        (by rw [hsame.buffer]; exact hhead) hlen).mpr ⟨rfl, hout⟩))

end

end WiseKernel.Client
