import WiseKernel.Net.ModifiedStreams

/-!
# What `send` hands over

The bytes a call of `send` gives to the socket or, with the loopback switch,
to `on_recv` of the same object: when the two are the same, and how long they
are.  Only the path to the socket stores the length field a second time, and
no path compares the length with the limit that the receiver enforces.
-/

namespace WiseKernel.Net

open WiseKernel.Lib

variable {P : Type} {E : Env P}

def Env.withLoopback (E : Env P) (on : Bool) : Env P :=
  { E with cfg := { E.cfg with enableLoopback := on } }

/-- The bytes a call of `send` hands over, if any. -/
def handedOver (x : Run (Result × Modifiers × Option Output)) : Option (List UInt8) :=
  match x.out with
  | .ok (_, _, o) => o.map Output.bytes
  | .error _ => none

/-- The options in force for a packet, and the length of its body on the wire. -/
def Env.wireLength (E : Env P) (p : P) : ℕ :=
  (E.cfg.inForce (E.ops.flags p)).wireLength (E.ops.pack p).1.length

def Env.Completes (E : Env P) (p : P) : Prop :=
  E.cfg.Completes (E.ops.flags p) (E.ops.pack p).1.length

/-- With a key change interval of zero the cipher divides by zero. -/
theorem sendModified_of_not_completes {B : Botan} {cfg : Config} (hB : B.Lawful) {flags : Flags}
    (m : Modifiers) {header body : List UInt8} (hint : ¬ cfg.Completes flags body.length)
    (h : header.length = 8) :
    (sendModified B cfg flags m (header ++ body)).out = .error .undefined := by
  obtain ⟨hon, hne, hzero⟩ : (cfg.inForce flags).enableCipher = true ∧
      (cfg.inForce flags).checkedLength body.length ≠ 0 ∧ cfg.keyChangeInterval = 0 := by
    simpa [Config.Completes] using hint
  obtain ⟨crc, hcrc⟩ := wrapChecksum_isSome hB (cfg.inForce flags).enableChecksum
    (wrapSequence (cfg.inForce flags).enableSequence m body).2
  obtain ⟨h₁, hk₁, hout₁⟩ := stage_sequencer_send (cfg.inForce flags).enableSequence m h body
  obtain ⟨h₂, hk₂, hout₂⟩ := stage_checksum_send
    (wrapSequence (cfg.inForce flags).enableSequence m body).1 hk₁.length_eq hcrc
  have hcrcNe : crc ≠ [] := by
    rwa [← length_wrapChecksum hcrc, ne_eq, List.length_eq_zero_iff] at hne
  obtain ⟨text, htext, -⟩ := Cipher.encrypt_isSome hB
    (wrapSequence (cfg.inForce flags).enableSequence m body).1.cipher.sender crc
  have hcipher := Cipher.onSend_front hB cfg.keyChangeInterval _ hk₂.length_eq hcrcNe htext
  rw [if_pos hzero] at hcipher
  have hout₃ : (Sending.stage (cfg.inForce flags).enableCipher (Sending.cipher B cfg)
      ⟨.ok, (wrapSequence (cfg.inForce flags).enableSequence m body).1, h₂ ++ crc⟩).out =
        .error .undefined := by
    rw [Sending.stage, hon]
    exact Traced.bind_of_error hcipher _
  change (Sending.stage (cfg.inForce flags).enableSequence Sending.sequencer _ >>= _).out = _
  rw [Traced.bind_of_ok hout₁]
  change (Sending.stage (cfg.inForce flags).enableChecksum (Sending.checksum B) _ >>= _).out = _
  rw [Traced.bind_of_ok hout₂]
  exact Traced.bind_of_error hout₃ _

theorem needsToModify_of_not_completes {p : P} (h : ¬ E.Completes p) :
    needsToModify E.cfg (E.ops.flags p) = true := by
  by_contra hneed
  apply h
  intro hon
  simp only [needsToModify, Bool.not_eq_true, Bool.or_eq_false_iff] at hneed
  simp [Config.inForce, hneed.1.1] at hon

theorem take_packedHeader (E : Env P) (p : P) :
    (packedHeader E p).take 4 = fieldBytes ((8 + (E.ops.pack p).1.length) % 2 ^ 32) := rfl

/-- The frame of a packet that packs, on both paths. -/
theorem sendFrame_outcome (hB : E.botan.Lawful) {p : P} (hpack : (E.ops.pack p).2 = true)
    (s : Modifiers) (hint : E.Completes p) :
    ∃ s' header' wire, wrapBody E.botan E.cfg (E.ops.flags p) s (E.ops.pack p).1 =
        some (s', wire) ∧
      HeaderKept (packedHeader E p) (E.ops.pack p).1 header' wire ∧
      (sendFrame E s p).out = .ok (.ok, s', some (if E.cfg.enableLoopback
        then .loopback (header' ++ wire)
        else .tcp (wireHeader (packedHeader E p) (E.ops.pack p).1 wire ++ wire))) := by
  cases hneed : needsToModify E.cfg (E.ops.flags p) with
  | false =>
      refine ⟨s, packedHeader E p, (E.ops.pack p).1, wrapBody_of_not_needed hneed _ _,
        .refl (length_packedHeader E p) _, ?_⟩
      simp [sendFrame, pack_eq hpack, hneed, wireHeader]
  | true =>
      obtain ⟨s', wire, hwrap⟩ := wrapBody_isSome hB E.cfg (E.ops.flags p) s (E.ops.pack p).1
      obtain ⟨header', hkept, hsend⟩ := sendModified_of_wrapBody hB hint
        (length_packedHeader E p) hwrap
      refine ⟨s', header', wire, hwrap, hkept, ?_⟩
      simpa [sendFrame, pack_eq hpack, hneed] using hsend

theorem sendFrame_of_not_completes (hB : E.botan.Lawful) {p : P} (hpack : (E.ops.pack p).2 = true)
    (s : Modifiers) (hint : ¬ E.Completes p) : (sendFrame E s p).out = .error .undefined := by
  have hneed := needsToModify_of_not_completes hint
  have hsend := sendModified_of_not_completes hB s hint (length_packedHeader E p)
  simpa [sendFrame, pack_eq hpack, hneed] using hsend

/-! ## The two paths -/

/-- The second byte of a length, which `update_length_field` stores three
times, is also its third and its fourth. -/
def UpperRepeated (n : ℕ) : Prop :=
  n / 2 ^ 16 % 256 = n / 2 ^ 8 % 256 ∧ n / 2 ^ 24 % 256 = n / 2 ^ 8 % 256

instance (n : ℕ) : Decidable (UpperRepeated n) := by
  unfold UpperRepeated
  infer_instance

theorem ofNat_byte_inj (a b : ℕ) :
    UInt8.ofNat (a &&& 0xFF) = UInt8.ofNat (b &&& 0xFF) ↔ a % 256 = b % 256 := by
  rw [← UInt8.toNat_inj, UInt8.toNat_ofNat', UInt8.toNat_ofNat',
    show 0xFF = 2 ^ 8 - 1 from rfl, Nat.and_two_pow_sub_one_eq_mod,
    Nat.and_two_pow_sub_one_eq_mod, Nat.mod_mod, Nat.mod_mod]

/-- `update_length_field` stores what `set_length` stores for these lengths
and no others. -/
theorem relabel_eq_iff (header : List UInt8) (n : ℕ) :
    relabel header n = fieldBytes (n % 2 ^ 32) ++ header.drop 4 ↔ UpperRepeated n := by
  rw [relabel, List.append_left_inj, fieldBytes]
  simp only [List.cons.injEq, ofNat_byte_inj, and_true, Nat.shiftRight_eq_div_pow]
  unfold UpperRepeated
  omega

/-- Two length fields in front of the same bytes have the same value only when
they are the same. -/
theorem getLength_inj {xs ys rest rest' : List UInt8} (hx : xs.length = 4) (hy : ys.length = 4)
    (h : getLength (xs ++ rest) 0 = getLength (ys ++ rest') 0) : xs = ys := by
  have hval : ∀ zs : List UInt8, zs.length = 4 → ∀ r, getLength (zs ++ r) 0 = leValue zs := by
    intro zs hz r
    rcases zs with - | ⟨a, - | ⟨b, - | ⟨c, - | ⟨d, - | ⟨e, zs⟩⟩⟩⟩⟩ <;> simp at hz
    rw [getLength, fieldValue_eq]
    rfl
  rw [hval xs hx, hval ys hy] at h
  have hbytes := congrArg (leBytes 4) h
  rwa [← hx, leBytes_leValue, hx, ← hy, leBytes_leValue] at hbytes

/-- The loopback path gets the bytes that the socket would get. -/
def SameBytes (E : Env P) (s : Modifiers) (p : P) : Prop :=
  handedOver (sendFrame (E.withLoopback true) s p) =
    handedOver (sendFrame (E.withLoopback false) s p)

/-- The length field of the frame behind the modifiers, before `send_modified`
stores it again, is the size of the buffer. -/
def LengthStored (E : Env P) (s : Modifiers) (p : P) : Prop :=
  ∀ bytes ∈ handedOver (sendFrame (E.withLoopback true) s p),
    getLength bytes 0 = bytes.length % 2 ^ 32

/-- Nothing is handed over, the modifiers add nothing, or the length of the
frame has its upper bytes repeated. -/
def Storable (E : Env P) (p : P) : Prop :=
  ¬ E.Completes p ∨ E.wireLength p = (E.ops.pack p).1.length ∨
    UpperRepeated (headerLength + E.wireLength p)

theorem handedOver_send (hB : E.botan.Lawful) {p : P} (hpack : (E.ops.pack p).2 = true)
    (s : Modifiers) (hint : E.Completes p) :
    ∃ header' wire, HeaderKept (packedHeader E p) (E.ops.pack p).1 header' wire ∧
      wire.length = E.wireLength p ∧
      handedOver (sendFrame (E.withLoopback true) s p) = some (header' ++ wire) ∧
      handedOver (sendFrame (E.withLoopback false) s p) =
        some (wireHeader (packedHeader E p) (E.ops.pack p).1 wire ++ wire) := by
  obtain ⟨s₁, header', wire, hwrap, hkept, hloop⟩ :=
    sendFrame_outcome (E := E.withLoopback true) hB hpack s hint
  obtain ⟨s₂, header₂, wire₂, hwrap₂, hkept₂, htcp⟩ :=
    sendFrame_outcome (E := E.withLoopback false) hB hpack s hint
  -- the switch does not reach the modifiers, so both paths carry one body
  obtain ⟨rfl, rfl⟩ : s₁ = s₂ ∧ wire = wire₂ := by
    simpa using hwrap.symm.trans hwrap₂
  refine ⟨header', wire, hkept, length_wrapBody hB hwrap, ?_, ?_⟩
  · simp only [handedOver, hloop]
    rfl
  · simp only [handedOver, htcp]
    rfl

/-- The length field on the two paths: as the modifiers leave it, and as it is
stored again when the frame has grown. -/
theorem grown_length_field {header body header' wire : List UInt8}
    (hfield : header.take 4 = fieldBytes ((8 + body.length) % 2 ^ 32))
    (hkept : HeaderKept header body header' wire) :
    (header' ++ wire = wireHeader header body wire ++ wire ↔
      wire.length = body.length ∨ UpperRepeated (8 + wire.length)) ∧
    (getLength (header' ++ wire) 0 = (header' ++ wire).length % 2 ^ 32 ↔
      wire.length = body.length ∨ UpperRepeated (8 + wire.length)) := by
  have hlen : (header' ++ wire).length = 8 + wire.length := by
    rw [List.length_append, hkept.length_eq]
  rw [hlen]
  rcases hkept.body_le.lt_or_eq with hgrow | hkeep
  · have hne : wire.length ≠ body.length := by omega
    have hiff := relabel_eq_iff header (8 + wire.length)
    rw [hkept.relabelled hgrow, wireHeader, if_pos hgrow, List.append_left_inj]
    constructor
    · rw [hiff, or_iff_right hne]
    have hstored : getLength (fieldBytes ((8 + wire.length) % 2 ^ 32) ++ header.drop 4 ++ wire) 0 =
        (8 + wire.length) % 2 ^ 32 := by
      have hread := fieldValue_fieldBytes [] ((8 + wire.length) % 2 ^ 32)
        (header.drop 4 ++ wire) (Eq.refl 0)
      simpa [getLength] using hread
    constructor
    · intro heq
      right
      rw [← hiff, relabel, List.append_left_inj]
      have hvalues := heq.trans hstored.symm
      rw [relabel, List.append_assoc, List.append_assoc] at hvalues
      exact getLength_inj rfl rfl hvalues
    · rintro (heq | hup)
      · exact absurd heq hne
      · rw [hiff.mpr hup, hstored]
  · have hsame := hkept.same hkeep.symm
    refine ⟨by simp [hsame, wireHeader, hkeep], ?_⟩
    have hread := fieldValue_fieldBytes [] ((8 + body.length) % 2 ^ 32)
      (header.drop 4 ++ wire) (Eq.refl 0)
    rw [List.nil_append, ← hfield, ← List.append_assoc, List.take_append_drop,
      Nat.mod_mod] at hread
    simp [hsame, getLength, hread, hkeep]

theorem storable_of_completes {p : P} (hint : E.Completes p) {n : ℕ} (hn : n = E.wireLength p) :
    Storable E p ↔ n = (E.ops.pack p).1.length ∨ UpperRepeated (8 + n) := by
  simp [Storable, hint, hn, headerLength]

theorem handedOver_of_not_completes (hB : E.botan.Lawful) {p : P}
    (hpack : (E.ops.pack p).2 = true) (s : Modifiers) (hint : ¬ E.Completes p) (on : Bool) :
    handedOver (sendFrame (E.withLoopback on) s p) = none := by
  have herr := sendFrame_of_not_completes (E := E.withLoopback on) hB hpack s hint
  simp [handedOver, herr]

theorem sameBytes_iff_storable (hB : E.botan.Lawful) {p : P} (hpack : (E.ops.pack p).2 = true)
    (s : Modifiers) : SameBytes E s p ↔ Storable E p := by
  by_cases hint : E.Completes p
  · obtain ⟨header', wire, hkept, hwire, hloop, htcp⟩ := handedOver_send hB hpack s hint
    obtain ⟨hbytes, -⟩ := grown_length_field (take_packedHeader E p) hkept
    rw [storable_of_completes hint hwire, ← hbytes, SameBytes, hloop, htcp, Option.some.injEq]
  · have hstop := handedOver_of_not_completes hB hpack s hint
    exact iff_of_true (by rw [SameBytes, hstop, hstop]) (.inl hint)

theorem lengthStored_iff_storable (hB : E.botan.Lawful) {p : P} (hpack : (E.ops.pack p).2 = true)
    (s : Modifiers) : LengthStored E s p ↔ Storable E p := by
  by_cases hint : E.Completes p
  · obtain ⟨header', wire, hkept, hwire, hloop, -⟩ := handedOver_send hB hpack s hint
    obtain ⟨-, hfield⟩ := grown_length_field (take_packedHeader E p) hkept
    rw [storable_of_completes hint hwire, ← hfield, LengthStored, hloop]
    simp only [Option.mem_some_iff, forall_eq']
  · refine iff_of_true ?_ (.inl hint)
    rw [LengthStored, handedOver_of_not_completes hB hpack s hint]
    simp

/-- The loopback path carries the bytes of the network path, and the length
field is right before it is stored again, for these packets and no others. -/
theorem loopback_iff (hB : E.botan.Lawful) {p : P} (hpack : (E.ops.pack p).2 = true)
    (s : Modifiers) :
    (SameBytes E s p ↔ Storable E p) ∧ (LengthStored E s p ↔ Storable E p) :=
  ⟨sameBytes_iff_storable hB hpack s, lengthStored_iff_storable hB hpack s⟩

/-- A message that is all body, under the default configuration. -/
def defaultBlobEnv (flags : Flags) (n : ℕ) : Env (List UInt8) :=
  { blobEnv n with
    ops := { blobOps n with flags := fun _ ↦ flags }
    cfg := {} }

theorem wireLength_sequencedBlob (n : ℕ) :
    (defaultBlobEnv { enableSequence := true } n).wireLength (List.replicate n 0) = n + 1 := by
  simp [Env.wireLength, defaultBlobEnv, blobEnv, blobOps, Config.inForce, Flags.wireLength,
    Flags.checkedLength]

theorem completes_defaultBlob (flags : Flags) (n : ℕ) (p : List UInt8) :
    (defaultBlobEnv flags n).Completes p := by
  intro _ _
  exact (by decide : (1024 : ℕ) ≠ 0)

theorem loopback_iff_blob :
    SameBytes (defaultBlobEnv { enableSequence := true } 2) .initial (List.replicate 2 0) ∧
      LengthStored (defaultBlobEnv { enableSequence := true } 2) .initial
        (List.replicate 2 0) := by
  obtain ⟨hbytes, hfield⟩ := loopback_iff (E := defaultBlobEnv { enableSequence := true } 2)
    (p := List.replicate 2 0) sampleBotan_lawful rfl .initial
  have hstorable : Storable (defaultBlobEnv { enableSequence := true } 2)
      (List.replicate 2 0) := by
    right
    right
    rw [wireLength_sequencedBlob]
    decide
  exact ⟨hbytes.mpr hstorable, hfield.mpr hstorable⟩

/-- A frame of 300 bytes, far below the limit, differs on the two paths. -/
theorem not_sameBytes_blob :
    headerLength + (defaultBlobEnv { enableSequence := true } 291).wireLength
        (List.replicate 291 0) ≤
      (defaultBlobEnv { enableSequence := true } 291).cfg.maxPacketLength ∧
    ¬ SameBytes (defaultBlobEnv { enableSequence := true } 291) .initial
      (List.replicate 291 0) ∧
    ¬ LengthStored (defaultBlobEnv { enableSequence := true } 291) .initial
      (List.replicate 291 0) := by
  have hpack : ((defaultBlobEnv { enableSequence := true } 291).ops.pack
      (List.replicate 291 0)).2 = true := rfl
  have hnot : ¬ Storable (defaultBlobEnv { enableSequence := true } 291)
      (List.replicate 291 0) := by
    rw [storable_of_completes (completes_defaultBlob _ _ _) (wireLength_sequencedBlob 291).symm]
    have hbody : ((defaultBlobEnv { enableSequence := true } 291).ops.pack
        (List.replicate 291 0)).1.length = 291 := List.length_replicate
    rw [hbody]
    decide
  rw [sameBytes_iff_storable sampleBotan_lawful hpack,
    lengthStored_iff_storable sampleBotan_lawful hpack, wireLength_sequencedBlob]
  exact ⟨by decide, hnot, hnot⟩

/-! ## The length of what is sent -/

theorem Received.stage_value {on : Bool} {f : Received → Run Received} {r r' : Received}
    {v : Reason} (hf : ∀ r'', (f r).out = .ok r'' → r''.rc.value ≠ v) (hr : r.rc.value ≠ v)
    (h : (Received.stage on f r).out = .ok r') : r'.rc.value ≠ v := by
  unfold Received.stage at h
  split_ifs at h
  · exact hf r' h
  · obtain rfl : r = r' := by simpa using h
    exact hr

theorem Checksum.onRecv_value {B : Botan} {hlen : ℕ} {bytes : List UInt8} {pos len : ℕ}
    {res : Result × ℕ} (h : (Checksum.onRecv B hlen bytes pos len).out = .ok res) :
    res.1.value ≠ .failBitsMaxPacketSize := by
  unfold Checksum.onRecv at h
  split_ifs at h with hlen
  · obtain rfl : _ = res := by simpa using h
    simp [Result.ok]
  · cases hcrc : B.crc32 with
    | none =>
        obtain rfl : _ = res := by simpa [hcrc] using h
        simp [Result.fail]
    | some hash =>
        simp only [hcrc, Traced.bind_eq_ok] at h
        obtain ⟨-, -, -, -, payload, -, -, -, crc, -, h⟩ := h
        split_ifs at h with heq
        · obtain ⟨newLen, -, h⟩ := Traced.bind_eq_ok.mp h
          obtain rfl : _ = res := by simpa using h
          simp [Result.ok]
        · obtain rfl : _ = res := by simpa using h
          simp [Result.fail]

theorem Sequencer.onRecv_value {s : Sequencer} {bytes : List UInt8} {pos len : ℕ}
    {res : Result × Sequencer × ℕ} (h : (s.onRecv bytes pos len).out = .ok res) :
    res.1.value ≠ .failBitsMaxPacketSize := by
  simp only [Sequencer.onRecv, Traced.bind_eq_ok] at h
  obtain ⟨-, -, seq, -, h⟩ := h
  split_ifs at h with heq
  · obtain ⟨newLen, -, h⟩ := Traced.bind_eq_ok.mp h
    obtain rfl : _ = res := by simpa using h
    simp [Result.ok]
  · obtain rfl : _ = res := by simpa using h
    simp [Result.fail]

/-- No modifier answers with the reason of the length guard. -/
theorem recvModified_value {B : Botan} {cfg : Config} {flags : Flags} {m : Modifiers}
    {bytes : List UInt8} {pos len : ℕ} {r : Received}
    (h : (recvModified B cfg flags m bytes pos len).out = .ok r) :
    r.rc.value ≠ .failBitsMaxPacketSize := by
  simp only [recvModified, Traced.bind_eq_ok] at h
  obtain ⟨r₁, h₁, r₂, h₂, h₃⟩ := h
  have hr₁ : r₁.rc.value ≠ .failBitsMaxPacketSize := by
    refine Received.stage_value ?_ (by simp [Result.ok]) h₁
    intro r' h
    obtain ⟨c, -, h⟩ := Traced.bind_eq_ok.mp h
    obtain rfl : _ = r' := by simpa using h
    simp [Result.ok]
  have hr₂ : r₂.rc.value ≠ .failBitsMaxPacketSize := by
    refine Received.stage_value ?_ hr₁ h₂
    intro r' h
    obtain ⟨c, hc, h⟩ := Traced.bind_eq_ok.mp h
    obtain rfl : _ = r' := by simpa using h
    exact Checksum.onRecv_value hc
  refine Received.stage_value ?_ hr₂ h₃
  intro r' h
  obtain ⟨c, hc, h⟩ := Traced.bind_eq_ok.mp h
  obtain rfl : _ = r' := by simpa using h
  exact Sequencer.onRecv_value hc

/-- The iteration returns with the reason of the length guard. -/
def Refuses (E : Env P) (st : LoopState P) : Prop :=
  ∃ st', onRecvStep E st = .stop (.returned (.fail .failBitsMaxPacketSize)) st'

/-- Where at least a header has arrived, the guard's reason is given for a
length field above the limit and for no other. -/
theorem refuses_iff_length {st : LoopState P}
    (hsize : st.iter + headerLength ≤ st.recvBuf.size) :
    Refuses E st ↔ E.cfg.maxPacketLength < getLength st.recvBuf.bytes st.iter := by
  have hremained : leSize headerLength st.remainedLen := by
    right
    simp only [LoopState.remainedLen]
    omega
  unfold Refuses onRecvStep
  rw [if_neg (not_not_intro hremained)]
  by_cases hmax : E.cfg.maxPacketLength < getLength st.recvBuf.bytes st.iter
  · simp only [hmax, if_true, iff_true]
    exact ⟨st, rfl⟩
  · simp only [hmax, if_false, iff_false, not_exists]
    intro st' heq
    split_ifs at heq with hshort
    cases hmp : E.factory (getTopic st.recvBuf.bytes (st.iter + 4)) with
    | none => simp [hmp, Result.fail] at heq
    | some mp =>
        simp only [hmp] at heq
        cases hrecv : (recvModified E.botan E.cfg (E.ops.flags mp) st.mods st.recvBuf.bytes
            st.processedLen (getLength st.recvBuf.bytes st.iter)).out with
        | error a => simp [hrecv] at heq
        | ok r =>
            simp only [hrecv] at heq
            split_ifs at heq with hrc
            · apply recvModified_value hrecv
              have hrc := (Exit.returned.inj (Step.stop.inj heq).1)
              rw [hrc]
              rfl
            · unfold deliver at heq
              dsimp only at heq
              split_ifs at heq <;> simp [Result.fail] at heq

/-- The receiver has come to a frame somewhere in its buffer. -/
def LoopState.StandsAt (st : LoopState P) (frame : List UInt8) : Prop :=
  ∃ pre post, st.recvBuf.bytes = pre ++ frame ++ post ∧ st.iter = pre.length

theorem refuses_iff {header body wire : List UInt8} (hh : header.length = 8)
    (hfield : header.take 4 = fieldBytes ((8 + body.length) % 2 ^ 32))
    (hle : body.length ≤ wire.length) {st : LoopState P}
    (hst : st.StandsAt (wireHeader header body wire ++ wire)) :
    Refuses E st ↔ E.cfg.maxPacketLength < (8 + wire.length) % 2 ^ 32 := by
  obtain ⟨pre, post, hbytes, hiter⟩ := hst
  obtain ⟨rest, hwire, hrest⟩ : ∃ rest, wireHeader header body wire =
      fieldBytes ((8 + wire.length) % 2 ^ 32) ++ rest ∧ rest.length = 4 := by
    refine ⟨header.drop 4, ?_, by simp [hh]⟩
    unfold wireHeader
    split_ifs with hgrow
    · rfl
    · rw [show wire.length = body.length by omega, ← hfield, List.take_append_drop]
  have hlen : st.iter + headerLength ≤ st.recvBuf.size := by
    simp only [ResizeBuffer.size, hbytes, hwire, List.length_append, hrest, hiter,
      length_fieldBytes, headerLength]
    omega
  have hvalue : getLength st.recvBuf.bytes st.iter = (8 + wire.length) % 2 ^ 32 := by
    have hread := fieldValue_fieldBytes pre ((8 + wire.length) % 2 ^ 32)
      (rest ++ wire ++ post) hiter
    rw [getLength, hbytes, hwire]
    simpa using hread
  rw [refuses_iff_length hlen, hvalue]

theorem length_tcp {p : P} {wire : List UInt8} (hwire : wire.length = E.wireLength p) :
    (wireHeader (packedHeader E p) (E.ops.pack p).1 wire ++ wire).length =
      headerLength + E.wireLength p := by
  rw [List.length_append, hwire, wireHeader]
  split_ifs
  · simp [length_packedHeader, length_fieldBytes, headerLength]
  · simp [length_packedHeader, headerLength]

/-- Without the loopback the session gets the frame, and its answer is returned. -/
theorem send_of_socket (hB : E.botan.Lawful) (hloop : E.cfg.enableLoopback = false) (fuel : ℕ)
    (session : List UInt8 → Result) (proto : BitsProtocol) {p : P}
    (hpack : (E.ops.pack p).2 = true) (hint : E.Completes p) :
    ∃ mods bytes, bytes.length = headerLength + E.wireLength p ∧
      send E fuel session proto p =
        some ⟨.returned (session bytes), { proto with mods }, [], some bytes⟩ ∧
      ∀ st : LoopState P, st.StandsAt bytes → (Refuses E st ↔
        E.cfg.maxPacketLength < (headerLength + E.wireLength p) % 2 ^ 32) := by
  obtain ⟨mods, header', wire, hwrap, hkept, hsend⟩ := sendFrame_outcome hB hpack proto.mods hint
  have hwire : wire.length = E.wireLength p := length_wrapBody hB hwrap
  rw [hloop, if_neg Bool.false_ne_true] at hsend
  refine ⟨mods, _, length_tcp hwire, ?_, ?_⟩
  · rw [send, hsend]
  · intro st hst
    rw [← hwire]
    exact refuses_iff (length_packedHeader E p) (take_packedHeader E p) hkept.body_le hst

/-- With the loopback the frame goes to `on_recv`, whose result is returned. -/
theorem send_of_loopback (hB : E.botan.Lawful) (hloop : E.cfg.enableLoopback = true) (fuel : ℕ)
    (session : List UInt8 → Result) (proto : BitsProtocol) {p : P}
    (hpack : (E.ops.pack p).2 = true) (hint : E.Completes p) :
    ∃ mods bytes, bytes.length = headerLength + E.wireLength p ∧
      send E fuel session proto p =
        (onRecv E fuel { proto with mods } bytes).map
          fun (e, proto, ps) ↦ ⟨e, proto, ps, none⟩ := by
  obtain ⟨mods, header', wire, hwrap, hkept, hsend⟩ := sendFrame_outcome hB hpack proto.mods hint
  rw [hloop, if_pos rfl] at hsend
  refine ⟨mods, header' ++ wire, ?_, ?_⟩
  · rw [List.length_append, hkept.length_eq, length_wrapBody hB hwrap]
    rfl
  · rw [send, hsend]

/-- `send` does not look at the limit.  A packet that does not pack leaves nothing.
The frame of one that packs is given to the session at whatever length the
modifiers give it, the session answers, and the peer refuses the frame exactly
when its length field is above the limit; with the loopback the frame is given
to `on_recv`, and that call answers. -/
theorem send_unchecked (hB : E.botan.Lawful) (fuel : ℕ) (session : List UInt8 → Result)
    (proto : BitsProtocol) (p : P) :
    ((E.ops.pack p).2 = false → send E fuel session proto p =
      some ⟨.returned (.fail .failBitsPackError), proto, [], none⟩) ∧
    ((E.ops.pack p).2 = true → ¬ E.Completes p →
      send E fuel session proto p = some ⟨.aborted .undefined, proto, [], none⟩) ∧
    ((E.ops.pack p).2 = true → E.Completes p → E.cfg.enableLoopback = false →
      ∃ mods bytes, bytes.length = headerLength + E.wireLength p ∧
        send E fuel session proto p =
          some ⟨.returned (session bytes), { proto with mods }, [], some bytes⟩ ∧
        ∀ st : LoopState P, st.StandsAt bytes → (Refuses E st ↔
          E.cfg.maxPacketLength < (headerLength + E.wireLength p) % 2 ^ 32)) ∧
    ((E.ops.pack p).2 = true → E.Completes p → E.cfg.enableLoopback = true →
      ∃ mods bytes, bytes.length = headerLength + E.wireLength p ∧
        send E fuel session proto p = (onRecv E fuel { proto with mods } bytes).map
          fun (e, proto, ps) ↦ ⟨e, proto, ps, none⟩) := by
  refine ⟨?_, ?_, ?_, ?_⟩
  · intro hpack
    simp [send, sendFrame, pack, hpack]
  · intro hpack hint
    rw [send, sendFrame_of_not_completes hB hpack proto.mods hint]
  · intro hpack hint hloop
    exact send_of_socket hB hloop fuel session proto hpack hint
  · intro hpack hint hloop
    exact send_of_loopback hB hloop fuel session proto hpack hint

/-- A short packet reaches the session, whose answer is returned. -/
theorem send_unchecked_blob :
    ∃ mods bytes, send (defaultBlobEnv {} 2) 9 (fun _ ↦ .ok) .initial (List.replicate 2 0) =
        some ⟨.returned .ok, { BitsProtocol.initial with mods }, [], some bytes⟩ ∧
      bytes.length = 10 ∧
      ∀ st : LoopState (List UInt8), st.StandsAt bytes → ¬ Refuses (defaultBlobEnv {} 2) st := by
  obtain ⟨-, -, hsent, -⟩ := send_unchecked (E := defaultBlobEnv {} 2) sampleBotan_lawful 9
    (fun _ ↦ .ok) .initial (List.replicate 2 0)
  obtain ⟨mods, bytes, hlen, hsend, hrefuses⟩ := hsent rfl (completes_defaultBlob _ _ _) rfl
  refine ⟨mods, bytes, hsend, hlen, ?_⟩
  intro st hst
  rw [hrefuses st hst]
  decide

/-- `n` zero bytes without modifiers, when the session answers `ok`. -/
theorem send_zeros (n : ℕ) :
    ∃ mods bytes, bytes.length = headerLength + n ∧
      send (defaultBlobEnv {} n) 9 (fun _ ↦ .ok) .initial (List.replicate n 0) =
        some ⟨.returned .ok, { BitsProtocol.initial with mods }, [], some bytes⟩ ∧
      ∀ st : LoopState (List UInt8), st.StandsAt bytes → (Refuses (defaultBlobEnv {} n) st ↔
        512 * 1024 < (headerLength + n) % 2 ^ 32) := by
  have hlength : (defaultBlobEnv {} n).wireLength (List.replicate n 0) = n :=
    List.length_replicate
  have hsent := send_of_socket (E := defaultBlobEnv {} n) sampleBotan_lawful rfl 9 (fun _ ↦ .ok)
    .initial (p := List.replicate n 0) rfl (completes_defaultBlob _ _ _)
  rw [hlength] at hsent
  exact hsent

/-- A body of 512 KiB is sent with success, 8 bytes above the limit, and refused by
every peer with the same configuration. -/
theorem send_above_limit :
    ∃ mods bytes,
      send (defaultBlobEnv {} 524288) 9 (fun _ ↦ .ok) .initial (List.replicate 524288 0) =
        some ⟨.returned .ok, { BitsProtocol.initial with mods }, [], some bytes⟩ ∧
      (defaultBlobEnv {} 524288).cfg.maxPacketLength < bytes.length ∧
      ∀ st : LoopState (List UInt8), st.StandsAt bytes →
        Refuses (defaultBlobEnv {} 524288) st := by
  obtain ⟨mods, bytes, hlen, hsend, hrefuses⟩ := send_zeros 524288
  refine ⟨mods, bytes, hsend, ?_, ?_⟩
  · change 512 * 1024 < bytes.length
    rw [hlen]
    decide
  · intro st hst
    rw [hrefuses st hst]
    decide

end WiseKernel.Net
