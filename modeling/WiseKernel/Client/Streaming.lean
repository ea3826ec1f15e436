import Mathlib.Data.List.Forall2
import WiseKernel.Client.Packer
import WiseKernel.Packing.RoundTrip

/-!
# The client on a stream

What every overload of the client writes, and what it reads back, in terms of
the server's wire format.
-/

namespace WiseKernel.Client

open WiseKernel.Lib WiseKernel.Packing

/-! ## Writing -/

namespace MemoryStream

theorem write_nil (s : MemoryStream) : s.write [] = s := by
  ext1
  · simp [write, overwrite]
  · rfl

theorem write_write (s : MemoryStream) (xs ys : List UInt8) :
    (s.write xs).write ys = s.write (xs ++ ys) := by
  ext1
  · exact overwrite_overwrite s.inside xs ys
  · simp [write, Nat.add_assoc]

end MemoryStream

/-- The call writes `bytes` and does nothing else. -/
def Writes (f : MemoryStream → MemoryStream) (bytes : List UInt8) : Prop :=
  ∀ s, f s = s.write bytes

theorem Writes.then {f g : MemoryStream → MemoryStream} {xs ys : List UInt8} (h : Writes f xs)
    (h' : Writes g ys) : Writes (fun s ↦ g (f s)) (xs ++ ys) := by
  intro s
  change g (f s) = _
  rw [h s, h' _, s.write_write]

theorem ofBitVec_extract {w : ℕ} (x : BitVec w) (k : ℕ) :
    UInt8.ofBitVec (x.extractLsb' k 8) = UInt8.ofNat (x.toNat / 2 ^ k) := by
  apply UInt8.toNat_inj.mp
  rw [UInt8.toNat_ofNat']
  change (x.extractLsb' k 8).toNat = _
  rw [BitVec.extractLsb'_toNat, Nat.shiftRight_eq_div_pow]

theorem getLsbD_mask {w i : ℕ} (h : i < 8) (hw : 8 ≤ w) : (0xff#w).getLsbD i = true := by
  have hi : ∀ j < 8, Nat.testBit 255 j = true := by decide
  rw [BitVec.getLsbD_ofNat, hi i h, Bool.and_true]
  exact decide_eq_true (Nat.lt_of_lt_of_le h hw)

/-- Whatever comes in from the left of a shift, the mask drops it. -/
theorem signedByte_eq {w : ℕ} (x : BitVec w) {k : ℕ} (h : k + 8 ≤ w) :
    signedByte x k = UInt8.ofNat (x.toNat / 2 ^ k) := by
  rw [← ofBitVec_extract, signedByte]
  congr 1
  apply BitVec.eq_of_getLsbD_eq
  intro i hi
  rw [BitVec.getLsbD_setWidth, BitVec.getLsbD_and, getLsbD_mask hi (by omega),
    BitVec.getLsbD_sshiftRight, BitVec.getLsbD_extractLsb']
  simp [hi, show ¬ w ≤ i by omega, show k + i < w by omega]

theorem unsignedByte_eq {w : ℕ} (x : BitVec w) {k : ℕ} (h : k + 8 ≤ w) :
    unsignedByte x k = UInt8.ofNat (x.toNat / 2 ^ k) := by
  rw [← ofBitVec_extract, unsignedByte]
  congr 1
  apply BitVec.eq_of_getLsbD_eq
  intro i hi
  rw [BitVec.getLsbD_setWidth, BitVec.getLsbD_and, getLsbD_mask hi (by omega),
    BitVec.getLsbD_ushiftRight, BitVec.getLsbD_extractLsb']
  simp [hi]

/-- A `short` is widened with its sign, which the two bytes do not reach. -/
theorem signedByte_signExtend (s : BitVec 16) {k : ℕ} (h : k + 8 ≤ 16) :
    signedByte (s.signExtend 32) k = UInt8.ofNat (s.toNat / 2 ^ k) := by
  rw [signedByte_eq _ (by omega), ← ofBitVec_extract, ← ofBitVec_extract]
  congr 1
  apply BitVec.eq_of_getLsbD_eq
  intro i hi
  rw [BitVec.getLsbD_extractLsb', BitVec.getLsbD_extractLsb', BitVec.getLsbD_signExtend]
  simp [hi, show k + i < 16 by omega, show k + i < 32 by omega]

theorem signedByte_setWidth (s : BitVec 16) {k : ℕ} (h : k + 8 ≤ 16) :
    signedByte (s.setWidth 32) k = UInt8.ofNat (s.toNat / 2 ^ k) := by
  rw [signedByte_eq _ (by omega), BitVec.toNat_setWidth, Nat.mod_eq_of_lt]
  exact Nat.lt_trans s.isLt (by decide)

theorem writes_packAll (buf : List UInt8) : Writes (packAll buf) buf := fun _ ↦ rfl

theorem writes_packSByte (b : Scalar.i8.Val) : Writes (packSByte b) (leBytes 1 b.toNat) := by
  have hbyte : UInt8.ofNat b.toNat = UInt8.ofBitVec b := by
    apply UInt8.toNat_inj.mp
    exact Nat.mod_eq_of_lt b.isLt
  rw [leBytes, hbyte]
  exact writes_packAll _

/-- The overloads for numbers of more than one byte. -/
theorem writes_shifts {f : ℕ → UInt8} {n x : ℕ}
    (h : ∀ k, k + 8 ≤ 8 * n → f k = UInt8.ofNat (x / 2 ^ k)) :
    Writes (packAll ((List.range n).map fun i ↦ f (8 * i))) (leBytes n x) := by
  have hbytes : ((List.range n).map fun i ↦ f (8 * i)) = leBytes n x := by
    rw [leBytes_eq_map]
    apply List.map_congr_left
    intro i hi
    have hlt := List.mem_range.mp hi
    exact h (8 * i) (by omega)
  rw [hbytes]
  exact writes_packAll _

theorem writes_packShort (v : Scalar.i16.Val) : Writes (packShort v) (leBytes 2 v.toNat) :=
  writes_shifts (n := 2) fun _ hk ↦ signedByte_signExtend v hk

theorem writes_packUShort (v : Scalar.u16.Val) : Writes (packUShort v) (leBytes 2 v.toNat) :=
  writes_shifts (n := 2) fun _ hk ↦ signedByte_setWidth v hk

theorem writes_packInt (v : Scalar.i32.Val) : Writes (packInt v) (leBytes 4 v.toNat) :=
  writes_shifts (n := 4) fun _ hk ↦ signedByte_eq v hk

theorem writes_packUInt (v : Scalar.u32.Val) : Writes (packUInt v) (leBytes 4 v.toNat) :=
  writes_shifts (n := 4) fun _ hk ↦ unsignedByte_eq v hk

theorem writes_packLong (v : Scalar.i64.Val) : Writes (packLong v) (leBytes 8 v.toNat) :=
  writes_shifts (n := 8) fun _ hk ↦ signedByte_eq v hk

theorem writes_packULong (v : Scalar.u64.Val) : Writes (packULong v) (leBytes 8 v.toNat) :=
  writes_shifts (n := 8) fun _ hk ↦ unsignedByte_eq v hk

theorem writes_packFloat (v : Scalar.float.Val) : Writes (packFloat v) (leBytes 4 v.toNat) := by
  have hbyte (b : UInt8) : Writes (packSByte b.toBitVec) [b] := writes_packAll _
  exact (((hbyte _).then (hbyte _)).then (hbyte _)).then (hbyte _)

theorem writes_packScalar (s : Scalar) (v : s.Val) :
    Writes (packScalar s v) (scalarBytes true v) := by
  cases s with
  | u8 => exact writes_packSByte v
  | u16 => exact writes_packUShort v
  | u32 => exact writes_packUInt v
  | u64 => exact writes_packULong v
  | i8 => exact writes_packSByte v
  | i16 => exact writes_packShort v
  | i32 => exact writes_packInt v
  | i64 => exact writes_packLong v
  | float => exact writes_packFloat v
  | double => exact writes_packLong v

theorem writes_packBool (b : Bool) : Writes (packBool b) (boolBytes true b) :=
  writes_packSByte _

theorem writes_packLen (n : ℕ) : Writes (packUShort (BitVec.ofNat _ n)) (lenBytes true n) :=
  writes_packUShort _

theorem writes_packString (E : Utf8Encoding) (cs : List Char) :
    Writes (packString E (utf16 cs)) (stringBytes true (utf8 cs)) := by
  have h := (writes_packLen (utf8 cs).length).then (writes_packAll (utf8 cs))
  intro s
  simp only [packString, E.getBytes_utf16]
  exact h s

theorem writes_packDate (d : Date) : Writes (packDate d) (dateBytes true d) := by
  have h := ((writes_packShort d.year).then (writes_packShort d.month)).then
    (writes_packShort d.day)
  rw [List.append_assoc] at h
  exact h

theorem writes_packTimestamp (t : Timestamp) :
    Writes (packTimestamp t) (timestampBytes true t) := by
  have h := ((((((writes_packShort t.year).then (writes_packShort t.month)).then
    (writes_packShort t.day)).then (writes_packShort t.hour)).then
      (writes_packShort t.min)).then (writes_packShort t.sec)).then (writes_packInt t.fract)
  simp only [List.append_assoc] at h
  exact h

section

variable {α β : Type} {pack : β → MemoryStream → MemoryStream} {encode : α → List UInt8}

theorem writes_packEach {vec : List α} {lst : List β}
    (h : List.Forall₂ (fun x y ↦ Writes (pack y) (encode x)) vec lst) :
    Writes (packEach pack lst) (vec.flatMap encode) := by
  induction h with
  | nil =>
      intro s
      exact s.write_nil.symm
  | cons hxy _ ih => exact hxy.then ih

theorem writes_packList {vec : List α} {lst : List β}
    (h : List.Forall₂ (fun x y ↦ Writes (pack y) (encode x)) vec lst) :
    Writes (packList pack lst) (vectorBytes true encode vec) := by
  rw [vectorBytes, h.length_eq]
  exact (writes_packLen lst.length).then (writes_packEach h)

end

/-! ## Reading -/

namespace MemoryStream

def At (s : MemoryStream) (bytes : List UInt8) : Prop :=
  ∃ post, s.bytes.drop s.position = bytes ++ post

theorem advance_zero (s : MemoryStream) : s.advance 0 = s := by
  ext1
  · rfl
  · exact Nat.min_eq_left s.inside

theorem advance_advance (s : MemoryStream) (m n : ℕ) :
    (s.advance m).advance n = s.advance (m + n) := by
  ext1
  · rfl
  · simp only [advance]
    omega

theorem At.position {s : MemoryStream} {bytes : List UInt8} (h : s.At bytes) :
    (s.advance bytes.length).position = s.position + bytes.length := by
  obtain ⟨post, hpost⟩ := h
  have hlen := congrArg List.length hpost
  have hin := s.inside
  simp only [List.length_drop, List.length_append] at hlen
  exact Nat.min_eq_left (by omega)

theorem At.left {s : MemoryStream} {xs ys : List UInt8} (h : s.At (xs ++ ys)) : s.At xs := by
  obtain ⟨post, hpost⟩ := h
  exact ⟨ys ++ post, by rw [hpost, List.append_assoc]⟩

theorem At.right {s : MemoryStream} {xs ys : List UInt8} (h : s.At (xs ++ ys)) :
    (s.advance xs.length).At ys := by
  have hpos := h.left.position
  obtain ⟨post, hpost⟩ := h
  refine ⟨post, ?_⟩
  rw [hpos]
  change s.bytes.drop (s.position + xs.length) = _
  rw [← List.drop_drop, hpost, List.append_assoc, List.drop_left]

theorem At.read {s : MemoryStream} {bytes : List UInt8} (h : s.At bytes) :
    s.read bytes.length = (bytes, s.advance bytes.length) := by
  obtain ⟨post, hpost⟩ := h
  rw [MemoryStream.read, window, hpost, List.take_left]

end MemoryStream

/-- At `bytes` the call returns `v` and moves the position over them. -/
def Yields {α : Type} (a : Unpacking α) (bytes : List UInt8) (v : α) : Prop :=
  ∀ r : Reader, r.stream.At bytes →
    ∃ r', a r = .ok (v, r') ∧ r'.stream = r.stream.advance bytes.length

section

variable {α β : Type} {a : Unpacking α} {f : α → Unpacking β} {xs ys : List UInt8} {v : α} {w : β}

theorem yields_pure (v : α) : Yields (pure v) [] v :=
  fun r _ ↦ ⟨r, rfl, r.stream.advance_zero.symm⟩

theorem Yields.bind (h : Yields a xs v) (h' : Yields (f v) ys w) :
    Yields (a >>= f) (xs ++ ys) w := by
  intro r hat
  obtain ⟨r₁, ha, hr₁⟩ := h r hat.left
  obtain ⟨r₂, hf, hr₂⟩ := h' r₁ (by rw [hr₁]; exact hat.right)
  refine ⟨r₂, ?_, ?_⟩
  · change (a r).bind _ = _
    rw [ha]
    exact hf
  · rw [hr₂, hr₁, MemoryStream.advance_advance, List.length_append]

theorem Yields.map (h : Yields a xs v) (g : α → β) :
    Yields (a >>= fun x ↦ pure (g x)) xs (g v) := by
  have hb : Yields (a >>= fun x ↦ pure (g x)) (xs ++ []) (g v) := h.bind (yields_pure (g v))
  rwa [List.append_nil] at hb

/-- When all bytes asked for are there, what the array held before does not
show. -/
theorem yields_unpackAll {b : Scratch} {bytes : List UInt8} {g : List UInt8 → α}
    (h : ∀ rest, g (bytes ++ rest) = v) :
    Yields (unpackAll b bytes.length >>= fun buf ↦ pure (g buf)) bytes v := by
  intro r hat
  refine ⟨⟨Function.update r.scratch b (overwrite (r.scratch b) 0 bytes),
    r.stream.advance bytes.length⟩, ?_, rfl⟩
  have hread : unpackAll b bytes.length r = .ok (overwrite (r.scratch b) 0 bytes,
      ⟨Function.update r.scratch b (overwrite (r.scratch b) 0 bytes),
        r.stream.advance bytes.length⟩) := by
    simp only [unpackAll, hat.read]
  have hvalue : g (overwrite (r.scratch b) 0 bytes) = v := h _
  generalize unpackAll b bytes.length = c at hread ⊢
  change (c r).bind _ = _
  rw [hread, ← hvalue]
  rfl

theorem yields_unpackNew (bytes : List UInt8) : Yields (unpackNew bytes.length) bytes bytes := by
  intro r hat
  refine ⟨{ r with stream := r.stream.advance bytes.length }, ?_, rfl⟩
  simp [unpackNew, hat.read, overwrite]

end

theorem toNat_placed {w : ℕ} (buf : List UInt8) (i : ℕ) {k : ℕ} (h : k + 8 ≤ w) :
    (placed w buf i k).toNat = 2 ^ k * (buf.getD i 0).toNat := by
  have hb := (buf.getD i 0).toNat_lt
  have hlt : 2 ^ k * (buf.getD i 0).toNat < 2 ^ w := by
    calc 2 ^ k * (buf.getD i 0).toNat < 2 ^ k * 2 ^ 8 :=
          Nat.mul_lt_mul_of_pos_left hb (Nat.two_pow_pos k)
      _ = 2 ^ (k + 8) := (pow_add 2 k 8).symm
      _ ≤ 2 ^ w := Nat.pow_le_pow_right (by decide) h
  have hmask : (0xff#w).toNat = 2 ^ 8 - 1 := by
    rw [BitVec.toNat_ofNat]
    exact Nat.mod_eq_of_lt (Nat.lt_of_lt_of_le (by decide)
      (Nat.pow_le_pow_right (by decide) (by omega : 8 ≤ w)))
  have hbyte : ((buf.getD i 0).toBitVec.setWidth w).toNat = (buf.getD i 0).toNat := by
    rw [BitVec.toNat_setWidth]
    exact Nat.mod_eq_of_lt (Nat.lt_of_lt_of_le hb
      (Nat.pow_le_pow_right (by decide) (by omega : 8 ≤ w)))
  rw [placed, BitVec.toNat_shiftLeft, BitVec.toNat_and, hmask, hbyte,
    Nat.and_two_pow_sub_one_of_lt_two_pow hb, Nat.shiftLeft_eq, Nat.mul_comm, Nat.mod_eq_of_lt hlt]

/-- The bytes of a number meet without touching. -/
theorem toNat_or_placed {w : ℕ} {x : BitVec w} (buf : List UInt8) (i : ℕ) {k n : ℕ}
    (h : k + 8 ≤ w) (hx : x.toNat = 2 ^ (k + 8) * n) :
    (x ||| placed w buf i k).toNat = 2 ^ k * ((buf.getD i 0).toNat + 256 * n) := by
  have hb := (buf.getD i 0).toNat_lt
  have hlt : 2 ^ k * (buf.getD i 0).toNat < 2 ^ (k + 8) := by
    rw [pow_add]
    exact Nat.mul_lt_mul_of_pos_left hb (Nat.two_pow_pos k)
  rw [BitVec.toNat_or, hx, toNat_placed buf i h, ← Nat.two_pow_add_eq_or_of_lt hlt, pow_add]
  ring

theorem toNat_leValue {s : Scalar} (v : s.Val) : leValue (leBytes s.size v.toNat) = v.toNat := by
  rw [leValue_leBytes, Nat.mod_eq_of_lt (toNat_lt_pow v)]

theorem yields_unpackSByte (v : Scalar.i8.Val) : Yields unpackSByte (leBytes 1 v.toNat) v := by
  apply yields_unpackAll
  intro rest
  apply BitVec.eq_of_toNat_eq
  exact Nat.mod_eq_of_lt v.isLt

theorem yields_unpackShort (v : Scalar.i16.Val) : Yields unpackShort (leBytes 2 v.toNat) v := by
  apply yields_unpackAll
  intro rest
  let buf := leBytes 2 v.toNat ++ rest
  have h₁ := toNat_placed (w := 32) buf 1 (k := 8) (by decide)
  have h₀ := toNat_or_placed (w := 32) buf 0 (k := 0) (by decide) h₁
  have hvalue := toNat_leValue v
  have hsum : (placed 32 buf 1 8 ||| placed 32 buf 0 0).toNat = v.toNat := by
    refine h₀.trans ?_
    simpa [buf, leBytes, leValue, Scalar.size] using hvalue
  apply BitVec.eq_of_toNat_eq
  rw [BitVec.toNat_setWidth, hsum]
  exact Nat.mod_eq_of_lt v.isLt

theorem yields_unpackInt (v : Scalar.i32.Val) : Yields unpackInt (leBytes 4 v.toNat) v := by
  apply yields_unpackAll
  intro rest
  let buf := leBytes 4 v.toNat ++ rest
  have h₃ := toNat_placed (w := 32) buf 3 (k := 24) (by decide)
  have h₂ := toNat_or_placed (w := 32) buf 2 (k := 16) (by decide) h₃
  have h₁ := toNat_or_placed (w := 32) buf 1 (k := 8) (by decide) h₂
  have h₀ := toNat_or_placed (w := 32) buf 0 (k := 0) (by decide) h₁
  have hvalue := toNat_leValue v
  apply BitVec.eq_of_toNat_eq
  refine h₀.trans ?_
  simpa [buf, leBytes, leValue, Scalar.size] using hvalue

theorem yields_unpackLong (v : Scalar.i64.Val) : Yields unpackLong (leBytes 8 v.toNat) v := by
  apply yields_unpackAll
  intro rest
  let buf := leBytes 8 v.toNat ++ rest
  have h₇ := toNat_placed (w := 64) buf 7 (k := 56) (by decide)
  have h₆ := toNat_or_placed (w := 64) buf 6 (k := 48) (by decide) h₇
  have h₅ := toNat_or_placed (w := 64) buf 5 (k := 40) (by decide) h₆
  have h₄ := toNat_or_placed (w := 64) buf 4 (k := 32) (by decide) h₅
  have h₃ := toNat_or_placed (w := 64) buf 3 (k := 24) (by decide) h₄
  have h₂ := toNat_or_placed (w := 64) buf 2 (k := 16) (by decide) h₃
  have h₁ := toNat_or_placed (w := 64) buf 1 (k := 8) (by decide) h₂
  have h₀ := toNat_or_placed (w := 64) buf 0 (k := 0) (by decide) h₁
  have hvalue := toNat_leValue v
  apply BitVec.eq_of_toNat_eq
  refine h₀.trans ?_
  simpa [buf, leBytes, leValue, Scalar.size] using hvalue

theorem yields_unpackFloat (v : Scalar.float.Val) : Yields unpackFloat (leBytes 4 v.toNat) v :=
  yields_unpackAll fun _ ↦ ofNat_leValue v

theorem yields_unpackScalar (s : Scalar) (v : s.Val) :
    Yields (unpackScalar s) (scalarBytes true v) v := by
  cases s with
  | u8 => exact yields_unpackSByte v
  | u16 => exact yields_unpackShort v
  | u32 => exact yields_unpackInt v
  | u64 => exact yields_unpackLong v
  | i8 => exact yields_unpackSByte v
  | i16 => exact yields_unpackShort v
  | i32 => exact yields_unpackInt v
  | i64 => exact yields_unpackLong v
  | float => exact yields_unpackFloat v
  | double => exact yields_unpackLong v

theorem yields_unpackBool (b : Bool) : Yields unpackBool (boolBytes true b) b := by
  have h := (yields_unpackSByte (if b then 1 else 0)).map fun sv ↦ sv != 0
  cases b
  · exact h
  · exact h

theorem yields_unpackEnum {isDefined : Scalar.i32.Val → Bool} {v : Scalar.i32.Val}
    (hdef : isDefined v = true) :
    Yields (unpackEnum isDefined) (scalarBytes true (s := .i32) v) v := by
  have hrest : Yields (if isDefined v then pure v else throw .argumentOutOfRange) [] v := by
    rw [if_pos hdef]
    exact yields_pure v
  have h : Yields (unpackEnum isDefined) (leBytes 4 v.toNat ++ []) v :=
    (yields_unpackInt v).bind hrest
  rw [List.append_nil] at h
  exact h

theorem yields_unpackDate (d : Date) : Yields unpackDate (dateBytes true d) d := by
  refine (yields_unpackShort d.year).bind ?_
  refine (yields_unpackShort d.month).bind ?_
  exact (yields_unpackShort d.day).map _

theorem yields_unpackTimestamp (t : Timestamp) :
    Yields unpackTimestamp (timestampBytes true t) t := by
  refine (yields_unpackShort t.year).bind ?_
  refine (yields_unpackShort t.month).bind ?_
  refine (yields_unpackShort t.day).bind ?_
  refine (yields_unpackShort t.hour).bind ?_
  refine (yields_unpackShort t.min).bind ?_
  refine (yields_unpackShort t.sec).bind ?_
  exact (yields_unpackInt t.fract).map _

theorem toNat_ofNat_len {n : ℕ} (h : n < 2 ^ 16) :
    (BitVec.ofNat (8 * Scalar.u16.size) n).toNat = n := by
  rw [BitVec.toNat_ofNat]
  exact Nat.mod_eq_of_lt h

/-- The server's limits keep a length within 16 bits. -/
theorem lt_of_le_maxContainerSize {n : ℕ} (h : n ≤ maxContainerSize) : n < 2 ^ 16 :=
  Nat.lt_of_le_of_lt h (by decide)

theorem yields_unpackLen (n : ℕ) :
    Yields unpackUShort (lenBytes true n) (BitVec.ofNat _ n) :=
  yields_unpackShort _

theorem yields_unpackString_of_lt (E : Utf8Encoding) {cs : List Char}
    (h : (utf8 cs).length < 2 ^ 16) :
    Yields (unpackString E) (stringBytes true (utf8 cs)) (utf16 cs) := by
  refine (yields_unpackLen _).bind ?_
  have hlen := toNat_ofNat_len h
  cases hcs : utf8 cs with
  | nil =>
      -- only the empty text has no bytes
      have hempty : utf16 cs = [] := by
        rw [← E.getString_utf8 cs, hcs]
        exact E.getString_utf8 []
      rw [hempty]
      exact yields_pure []
  | cons b bs =>
      rw [hcs] at hlen
      have hne : BitVec.ofNat (8 * Scalar.u16.size) (b :: bs).length ≠ 0 := by
        intro hzero
        rw [hzero] at hlen
        exact absurd hlen (by simp)
      rw [if_neg hne, hlen, ← hcs, ← E.getString_utf8 cs]
      exact (yields_unpackNew (utf8 cs)).map E.getString

theorem yields_unpackString (E : Utf8Encoding) {cs : List Char}
    (h : (utf8 cs).length ≤ maxContainerSize) :
    Yields (unpackString E) (stringBytes true (utf8 cs)) (utf16 cs) :=
  yields_unpackString_of_lt E (lt_of_le_maxContainerSize h)

section

variable {α β : Type} {unpack : Unpacking β} {encode : α → List UInt8}

theorem yields_unpackEach {vec : List α} {lst : List β}
    (h : List.Forall₂ (fun x y ↦ Yields unpack (encode x) y) vec lst) :
    ∀ done, Yields (unpackEach unpack lst.length done) (vec.flatMap encode) (done ++ lst) := by
  induction h with
  | nil =>
      intro done
      rw [List.append_nil]
      exact yields_pure done
  | @cons x y xs ys hxy _ ih =>
      intro done
      have hrest := ih (done ++ [y])
      rw [List.append_assoc, List.singleton_append] at hrest
      exact hxy.bind hrest

/-- What is read is added to the list. -/
theorem yields_unpackList_append {vec : List α} {lst : List β} (hlen : vec.length < 2 ^ 16)
    (h : List.Forall₂ (fun x y ↦ Yields unpack (encode x) y) vec lst) (target : List β) :
    Yields (unpackList unpack target) (vectorBytes true encode vec) (target ++ lst) := by
  refine (yields_unpackLen _).bind ?_
  rw [toNat_ofNat_len hlen, h.length_eq]
  exact yields_unpackEach h target

theorem yields_unpackList {vec : List α} {lst : List β} (hlen : vec.length ≤ maxContainerSize)
    (h : List.Forall₂ (fun x y ↦ Yields unpack (encode x) y) vec lst) :
    Yields (unpackList unpack []) (vectorBytes true encode vec) lst :=
  yields_unpackList_append (lt_of_le_maxContainerSize hlen) h []

end

end WiseKernel.Client
