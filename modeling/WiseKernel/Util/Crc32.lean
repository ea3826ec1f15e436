import Mathlib.Algebra.Group.Nat.Defs
import Mathlib.Logic.Function.Iterate
import Mathlib.Tactic.Common
import WiseKernel.Lib.Crc

/-!
# CRC-32

`crc32` of the kernel and `Crc32` of the client.  Both look an octet up in a table; the
kernel in registers of the type `std::uint_fast32_t`, which has 32 bits on some platforms
and 64 on others.
-/

namespace WiseKernel.Util

open WiseKernel.Lib

/-! ## The kernel -/

section

-- the number of bits of `std::uint_fast32_t`
variable (w : ℕ)

def reversedPolynomial : BitVec w := 0xEDB88320#w

/-- One round of the inner loop of `byte_checksum`. -/
def checksumRound (checksum : BitVec w) : BitVec w :=
  (checksum >>> 1) ^^^ (if checksum &&& 1#w ≠ 0#w then reversedPolynomial w else 0#w)

def byteChecksum (n : ℕ) : BitVec w := (checksumRound w)^[8] (BitVec.ofNat w n)

def generateCrcLookupTable : List (BitVec w) := (List.range 256).map (byteChecksum w)

def crc32 (bytes : List UInt8) : BitVec w :=
  0xFFFFFFFF#w &&& ~~~(bytes.foldl
    (fun checksum value ↦
      (generateCrcLookupTable w).getD
          ((checksum ^^^ value.toBitVec.setWidth w) &&& 0xFF#w).toNat 0#w ^^^ (checksum >>> 8))
    (~~~0#w &&& 0xFFFFFFFF#w))

end

/-! ## The client -/

namespace Crc32

def defaultPolynomial : UInt32 := 0xedb88320

def defaultSeed : UInt32 := 0xffffffff

def entryRound (polynomial entry : UInt32) : UInt32 :=
  if entry &&& 1 = 1 then (entry >>> 1) ^^^ polynomial else entry >>> 1

/-- The table that is kept for the default polynomial is the one that is made for it. -/
def initializeTable (polynomial : UInt32) : List UInt32 :=
  (List.range 256).map fun i ↦ (entryRound polynomial)^[8] (UInt32.ofNat i)

/-- The loop over `buffer[i]`; an index outside the array throws. -/
def calculateHash (table : List UInt32) (hash : UInt32) (buffer : List UInt8) (i : ℕ) :
    ℕ → Option UInt32
  | 0 => some hash
  | size + 1 => do
      let octet ← buffer[i]?
      let entry ← table[(octet.toUInt32 ^^^ (hash &&& 0xff)).toNat]?
      calculateHash table ((hash >>> 8) ^^^ entry) buffer (i + 1) size

def compute (polynomial seed : UInt32) (buffer : List UInt8) : Option UInt32 := do
  let hash ← calculateHash (initializeTable polynomial) seed buffer 0 buffer.length
  return ~~~hash

/-- The bytes of `UInt32ToBigEndianBytes`. -/
def toBigEndianBytes (n : UInt32) : List UInt8 :=
  [(n >>> 24).toUInt8, (n >>> 16).toUInt8, (n >>> 8).toUInt8, n.toUInt8]

end Crc32

/-- `Crc32`, a `HashAlgorithm`. -/
structure Crc32 where
  seed : UInt32
  table : List UInt32
  hash : UInt32

namespace Crc32

def new (polynomial seed : UInt32) : Crc32 := ⟨seed, initializeTable polynomial, seed⟩

def initializeHash (c : Crc32) : Crc32 := { c with hash := c.seed }

def hashCore (c : Crc32) (array : List UInt8) (ibStart cbSize : ℕ) : Option Crc32 := do
  let hash ← calculateHash c.table c.hash array ibStart cbSize
  return { c with hash := hash }

def hashFinal (c : Crc32) : List UInt8 := toBigEndianBytes (~~~c.hash)

end Crc32

/-! ## The register of both -/

/-- The bits of a text, octet by octet and the lowest first. -/
def bits (bytes : List UInt8) : List Bool := bytes.flatMap fun b ↦ Crc.octetBits b.toBitVec

section

variable {w : ℕ}

theorem feedAll_bits_cons (hw : 8 ≤ w) (poly c : BitVec w) (b : UInt8) (bytes : List UInt8) :
    Crc.feedAll poly c (bits (b :: bytes)) =
      Crc.feedAll poly (Crc.shifts poly 8 (c ^^^ b.toBitVec.setWidth w)) (bits bytes) := by
  rw [bits, List.flatMap_cons, Crc.feedAll_append, Crc.feedAll_octetBits hw, bits]

/-- The table step of either side. -/
theorem shifts_octet (poly c : BitVec w) (b : BitVec 8) :
    Crc.shifts poly 8 (c ^^^ b.setWidth w) =
      Crc.shifts poly 8 ((c ^^^ b.setWidth w) &&& 255#w) ^^^ (c >>> 8) := by
  have hb : b.setWidth w >>> 8 = 0#w := by
    apply BitVec.eq_of_getLsbD_eq
    intro i hi
    simp
  rw [Crc.shifts_eight, BitVec.ushiftRight_xor_distrib, hb, BitVec.xor_zero]

theorem iterate_eq_shifts (poly c : BitVec w) (n : ℕ) :
    (Crc.shift poly)^[n] c = Crc.shifts poly n c := by
  induction n generalizing c with
  | zero => rfl
  | succ n ih => rw [Function.iterate_succ_apply, ih, Crc.shifts]

theorem and_one_eq_zero_iff (hw : 0 < w) (c : BitVec w) :
    c &&& 1#w = 0#w ↔ c.getLsbD 0 = false := by
  constructor
  · intro h
    have hbit := congrArg (fun x ↦ x.getLsbD 0) h
    simpa [hw] using hbit
  · intro h
    apply BitVec.eq_of_getLsbD_eq
    intro i hi
    cases i with
    | zero => simp [h]
    | succ i => simp

theorem checksumRound_eq_shift (hw : 0 < w) :
    checksumRound w = Crc.shift (reversedPolynomial w) := by
  funext c
  rw [checksumRound, Crc.shift]
  cases hbit : c.getLsbD 0 with
  | false =>
      have hzero := (and_one_eq_zero_iff hw c).mpr hbit
      simp [hzero]
  | true =>
      have hne : c &&& 1#w ≠ 0#w := by
        intro hzero
        rw [(and_one_eq_zero_iff hw c).mp hzero] at hbit
        cases hbit
      simp [hne]

theorem toNat_and_255_lt (hw : 8 ≤ w) (x : BitVec w) : (x &&& 255#w).toNat < 256 := by
  have hpow : 2 ^ 8 ≤ 2 ^ w := Nat.pow_le_pow_right (by decide) hw
  rw [BitVec.toNat_and, BitVec.toNat_ofNat, Nat.mod_eq_of_lt (by omega)]
  exact Nat.lt_succ_of_le Nat.and_le_right

theorem lookup_eq_shifts (hw : 8 ≤ w) (x : BitVec w) :
    (generateCrcLookupTable w).getD (x &&& 0xFF#w).toNat 0#w =
      Crc.shifts (reversedPolynomial w) 8 (x &&& 255#w) := by
  have hlt := toNat_and_255_lt hw x
  have hget : (generateCrcLookupTable w)[(x &&& 255#w).toNat]? =
      some (byteChecksum w (x &&& 255#w).toNat) := by
    rw [generateCrcLookupTable, List.getElem?_map, List.getElem?_range hlt]
    rfl
  rw [List.getD_eq_getElem?_getD, hget, Option.getD_some, byteChecksum,
    checksumRound_eq_shift (by omega), iterate_eq_shifts, BitVec.ofNat_toNat, BitVec.setWidth_eq]

theorem crc32_eq_feedAll (hw : 8 ≤ w) (bytes : List UInt8) :
    crc32 w bytes = 0xFFFFFFFF#w &&&
      ~~~Crc.feedAll (reversedPolynomial w) (~~~0#w &&& 0xFFFFFFFF#w) (bits bytes) := by
  rw [crc32]
  congr 2
  generalize ~~~0#w &&& 0xFFFFFFFF#w = c
  induction bytes generalizing c with
  | nil => rfl
  | cons b bytes ih =>
      rw [List.foldl_cons, ih, feedAll_bits_cons hw, lookup_eq_shifts hw, ← shifts_octet]

/-! ## Registers of different widths -/

theorem setWidth_shift (hw : 32 ≤ w) (c : BitVec 32) :
    Crc.shift (reversedPolynomial w) (c.setWidth w) =
      (Crc.shift (reversedPolynomial 32) c).setWidth w := by
  have hpoly : reversedPolynomial w = (reversedPolynomial 32).setWidth w := by
    rw [reversedPolynomial, reversedPolynomial,
      BitVec.setWidth_ofNat_of_le_of_lt hw (by decide)]
  have hmove : (c.setWidth w) >>> 1 = (c >>> 1).setWidth w := by
    rw [BitVec.setWidth_ushiftRight hw]
  have hbit : (c.setWidth w).getLsbD 0 = c.getLsbD 0 := by
    rw [BitVec.getLsbD_setWidth]
    simp
    omega
  rw [Crc.shift, Crc.shift, hbit, hmove, hpoly]
  split_ifs
  · rw [BitVec.setWidth_xor]
  · rfl

theorem setWidth_shifts (hw : 32 ≤ w) (n : ℕ) (c : BitVec 32) :
    Crc.shifts (reversedPolynomial w) n (c.setWidth w) =
      (Crc.shifts (reversedPolynomial 32) n c).setWidth w := by
  induction n generalizing c with
  | zero => rfl
  | succ n ih => rw [Crc.shifts, setWidth_shift hw, ih, Crc.shifts]

/-- The wider register never uses its higher bits. -/
theorem setWidth_feedAll (hw : 32 ≤ w) (c : BitVec 32) (bytes : List UInt8) :
    Crc.feedAll (reversedPolynomial w) (c.setWidth w) (bits bytes) =
      (Crc.feedAll (reversedPolynomial 32) c (bits bytes)).setWidth w := by
  induction bytes generalizing c with
  | nil => rfl
  | cons b bytes ih =>
      have hb : b.toBitVec.setWidth w = (b.toBitVec.setWidth 32).setWidth w := by
        rw [BitVec.setWidth_setWidth (by omega)]
      rw [feedAll_bits_cons (by omega), feedAll_bits_cons (by decide), hb, ← BitVec.setWidth_xor,
        setWidth_shifts hw, ih]

/-- What the kernel computes is the register of 32 bits, on every platform. -/
theorem crc32_eq_setWidth (hw : 32 ≤ w) (bytes : List UInt8) :
    crc32 w bytes =
      (~~~Crc.feedAll (reversedPolynomial 32) 0xFFFFFFFF#32 (bits bytes)).setWidth w := by
  have hones : ∀ i, (0xFFFFFFFF#w).getLsbD i = decide (i < 32) := by
    intro i
    rw [BitVec.getLsbD_ofNat, show (0xFFFFFFFF : ℕ) = 2 ^ 32 - 1 by rfl,
      Nat.testBit_two_pow_sub_one]
    by_cases hi : i < 32
    · have hiw : i < w := by omega
      simp [hi, hiw]
    · simp [hi]
  have hstart : ~~~0#w &&& 0xFFFFFFFF#w = (0xFFFFFFFF#32).setWidth w := by
    rw [BitVec.setWidth_ofNat_of_le_of_lt hw (by decide)]
    simp
  rw [crc32_eq_feedAll (by omega), hstart, setWidth_feedAll hw]
  generalize Crc.feedAll _ _ _ = c
  apply BitVec.eq_of_getLsbD_eq
  intro i hi
  simp only [BitVec.getLsbD_and, BitVec.getLsbD_not, BitVec.getLsbD_setWidth, hones, hi]
  by_cases h32 : i < 32
  · simp [h32]
  · simp [h32]

end

/-! ## The client computes with the register of 32 bits -/

namespace Crc32

theorem and_one_eq_one_iff (entry : UInt32) :
    entry &&& 1 = 1 ↔ entry.toBitVec.getLsbD 0 = true := by
  have hzero := and_one_eq_zero_iff (by decide) entry.toBitVec
  constructor
  · intro h
    cases hbit : entry.toBitVec.getLsbD 0 with
    | true => rfl
    | false =>
        have hword := congrArg UInt32.toBitVec h
        rw [UInt32.toBitVec_and] at hword
        exact absurd ((hzero.mpr hbit).symm.trans hword) (by decide)
  · intro h
    apply UInt32.toBitVec_inj.mp
    rw [UInt32.toBitVec_and]
    apply BitVec.eq_of_getLsbD_eq
    intro i hi
    cases i with
    | zero => simp [h]
    | succ i => simp

theorem toBitVec_entryRound (polynomial entry : UInt32) :
    (entryRound polynomial entry).toBitVec = Crc.shift polynomial.toBitVec entry.toBitVec := by
  rw [entryRound, Crc.shift]
  by_cases hbit : entry &&& 1 = 1
  · rw [if_pos hbit, if_pos ((and_one_eq_one_iff entry).mp hbit)]
    rfl
  · rw [if_neg hbit, if_neg (fun h ↦ hbit ((and_one_eq_one_iff entry).mpr h))]
    rfl

theorem toBitVec_iterate (polynomial entry : UInt32) (n : ℕ) :
    ((entryRound polynomial)^[n] entry).toBitVec =
      Crc.shifts polynomial.toBitVec n entry.toBitVec := by
  induction n generalizing entry with
  | zero => rfl
  | succ n ih => rw [Function.iterate_succ_apply, ih, toBitVec_entryRound, Crc.shifts]

/-- Every octet has its entry. -/
theorem getElem?_initializeTable (polynomial : UInt32) (x : UInt32) :
    ∃ entry, (initializeTable polynomial)[(x &&& 0xff).toNat]? = some entry ∧
      entry.toBitVec = Crc.shifts polynomial.toBitVec 8 (x.toBitVec &&& 255#32) := by
  have hlt : (x &&& 0xff).toNat < 256 := toNat_and_255_lt (by decide) x.toBitVec
  refine ⟨(entryRound polynomial)^[8] (UInt32.ofNat (x &&& 0xff).toNat), ?_, ?_⟩
  · rw [initializeTable, List.getElem?_map, List.getElem?_range hlt]
    rfl
  · rw [toBitVec_iterate, UInt32.ofNat_toNat, UInt32.toBitVec_and]
    rfl

theorem toUInt32_xor_and (octet : UInt8) (hash : UInt32) :
    octet.toUInt32 ^^^ (hash &&& 0xff) = (hash ^^^ octet.toUInt32) &&& 0xff := by
  apply UInt32.toBitVec_inj.mp
  apply BitVec.eq_of_getLsbD_eq
  intro i hi
  have hmask : ((0xff : UInt32).toBitVec).getLsbD i = decide (i < 8) := by
    change (255#32).getLsbD i = _
    rw [BitVec.getLsbD_ofNat, show (255 : ℕ) = 2 ^ 8 - 1 by rfl, Nat.testBit_two_pow_sub_one]
    simp [hi]
  have hoctet : octet.toUInt32.toBitVec.getLsbD i = octet.toBitVec.getLsbD i := by
    change (octet.toBitVec.setWidth 32).getLsbD i = _
    rw [BitVec.getLsbD_setWidth]
    simp [hi]
  simp only [UInt32.toBitVec_xor, UInt32.toBitVec_and, BitVec.getLsbD_xor, BitVec.getLsbD_and,
    hmask, hoctet]
  by_cases h8 : i < 8
  · simp [h8, Bool.xor_comm]
  · have hnone : octet.toBitVec.getLsbD i = false := BitVec.getLsbD_of_ge _ i (by omega)
    simp [h8, hnone]

/-- The octets `[i, i + size)` of an array that has them. -/
theorem calculateHash_eq (polynomial : UInt32) (buffer : List UInt8) (size : ℕ) {i : ℕ}
    (hle : i + size ≤ buffer.length) (hash : UInt32) :
    ∃ result, calculateHash (initializeTable polynomial) hash buffer i size = some result ∧
      result.toBitVec = Crc.feedAll polynomial.toBitVec hash.toBitVec
        (bits ((buffer.drop i).take size)) := by
  induction size generalizing i hash with
  | zero =>
      refine ⟨hash, rfl, ?_⟩
      rw [List.take_zero]
      rfl
  | succ size ih =>
      have hi : i < buffer.length := by omega
      obtain ⟨entry, hentry, hvalue⟩ :=
        getElem?_initializeTable polynomial (hash ^^^ buffer[i].toUInt32)
      obtain ⟨result, hresult, hregister⟩ :=
        ih (by omega : i + 1 + size ≤ buffer.length) ((hash >>> 8) ^^^ entry)
      refine ⟨result, ?_, ?_⟩
      · rw [calculateHash, List.getElem?_eq_getElem hi]
        simp only [Option.bind_eq_bind, Option.bind_some, toUInt32_xor_and, hentry]
        exact hresult
      · have hdrop : (buffer.drop i).take (size + 1) =
            buffer[i] :: (buffer.drop (i + 1)).take size := by
          rw [List.drop_eq_getElem_cons hi, List.take_succ_cons]
        have hstep : ((hash >>> 8) ^^^ entry).toBitVec = Crc.shifts polynomial.toBitVec 8
            (hash.toBitVec ^^^ buffer[i].toBitVec.setWidth 32) := by
          rw [shifts_octet, BitVec.xor_comm, UInt32.toBitVec_xor, hvalue]
          rfl
        rw [hregister, hdrop, feedAll_bits_cons (by decide), hstep]

/-- An array that ends before `start + size` is read past its end. -/
theorem calculateHash_eq_none (polynomial : UInt32) (buffer : List UInt8) (size : ℕ) {i : ℕ}
    (hlt : buffer.length < i + size) (hsize : 0 < size) (hash : UInt32) :
    calculateHash (initializeTable polynomial) hash buffer i size = none := by
  induction size generalizing i hash with
  | zero => omega
  | succ size ih =>
      rw [calculateHash]
      by_cases hi : i < buffer.length
      · obtain ⟨entry, hentry, -⟩ :=
          getElem?_initializeTable polynomial (hash ^^^ buffer[i].toUInt32)
        rw [List.getElem?_eq_getElem hi]
        simp only [Option.bind_eq_bind, Option.bind_some, toUInt32_xor_and, hentry]
        apply ih
        · omega
        · omega
      · rw [List.getElem?_eq_none (by omega)]
        rfl

theorem compute_eq (polynomial seed : UInt32) (buffer : List UInt8) :
    ∃ result, compute polynomial seed buffer = some result ∧
      result.toBitVec = ~~~Crc.feedAll polynomial.toBitVec seed.toBitVec (bits buffer) := by
  obtain ⟨hash, hhash, hvalue⟩ :=
    calculateHash_eq polynomial buffer buffer.length (by omega : 0 + buffer.length ≤ _) seed
  refine ⟨~~~hash, ?_, ?_⟩
  · rw [compute, hhash]
    rfl
  · rw [UInt32.toBitVec_not, hvalue, List.drop_zero, List.take_length]

/-- A call of `HashCore` with a range of an array. -/
structure Block where
  array : List UInt8
  ibStart : ℕ
  cbSize : ℕ

namespace Block

def Inside (b : Block) : Prop := b.ibStart + b.cbSize ≤ b.array.length

def octets (b : Block) : List UInt8 := (b.array.drop b.ibStart).take b.cbSize

end Block

def hashBlock (c : Crc32) (b : Block) : Option Crc32 := hashCore c b.array b.ibStart b.cbSize

/-- What the calls of `HashCore` leave: the hash has gone over the octets, and the rest
is as it was made. -/
structure Hashed (polynomial seed : UInt32) (octets : List UInt8) (c : Crc32) : Prop where
  seed_eq : c.seed = seed
  table_eq : c.table = initializeTable polynomial
  hash_eq : c.hash.toBitVec = Crc.feedAll polynomial.toBitVec seed.toBitVec (bits octets)

variable {polynomial seed : UInt32}

theorem bits_append (a b : List UInt8) : bits (a ++ b) = bits a ++ bits b := by
  rw [bits, List.flatMap_append, bits, bits]

theorem hashed_new : Hashed polynomial seed [] (new polynomial seed) where
  seed_eq := rfl
  table_eq := rfl
  hash_eq := rfl

theorem Hashed.hashBlock {octets : List UInt8} {c : Crc32} (h : Hashed polynomial seed octets c)
    {b : Block} (hb : b.Inside) :
    ∃ c', hashBlock c b = some c' ∧ Hashed polynomial seed (octets ++ b.octets) c' := by
  obtain ⟨hash, hhash, hvalue⟩ := calculateHash_eq polynomial b.array b.cbSize hb c.hash
  refine ⟨{ c with hash := hash }, ?_, ?_⟩
  · rw [Crc32.hashBlock, hashCore, h.table_eq, hhash]
    rfl
  · constructor
    · exact h.seed_eq
    · exact h.table_eq
    · rw [bits_append, Crc.feedAll_append, ← h.hash_eq]
      exact hvalue

theorem Hashed.foldlM {octets : List UInt8} {c : Crc32} (h : Hashed polynomial seed octets c)
    {blocks : List Block} (hblocks : ∀ b ∈ blocks, b.Inside) :
    ∃ c', blocks.foldlM Crc32.hashBlock c = some c' ∧
      Hashed polynomial seed (octets ++ blocks.flatMap Block.octets) c' := by
  induction blocks generalizing octets c with
  | nil =>
      refine ⟨c, rfl, ?_⟩
      rw [List.flatMap_nil, List.append_nil]
      exact h
  | cons b blocks ih =>
      obtain ⟨c', hc', h'⟩ := h.hashBlock (hblocks b List.mem_cons_self)
      obtain ⟨c'', hc'', h''⟩ := ih h' (fun b hb ↦ hblocks b (List.mem_cons_of_mem _ hb))
      refine ⟨c'', ?_, ?_⟩
      · rw [List.foldlM_cons, hc']
        exact hc''
      · rw [List.flatMap_cons, ← List.append_assoc]
        exact h''

theorem Hashed.compute_eq {octets : List UInt8} {c : Crc32}
    (h : Hashed polynomial seed octets c) :
    compute polynomial seed octets = some (~~~c.hash) := by
  obtain ⟨result, hresult, hvalue⟩ := Crc32.compute_eq polynomial seed octets
  have hsame : result = ~~~c.hash := by
    apply UInt32.toBitVec_inj.mp
    rw [hvalue, UInt32.toBitVec_not, h.hash_eq]
  rw [hresult, hsame]

theorem compute_append {a b : List UInt8} {result : UInt32}
    (h : compute polynomial seed a = some result) :
    compute polynomial (~~~result) b = compute polynomial seed (a ++ b) := by
  obtain ⟨first, hfirst, hfirstValue⟩ := compute_eq polynomial seed a
  obtain ⟨second, hsecond, hsecondValue⟩ := compute_eq polynomial (~~~result) b
  obtain ⟨both, hboth, hbothValue⟩ := compute_eq polynomial seed (a ++ b)
  have hresult : result = first := Option.some.inj (h.symm.trans hfirst)
  have hsame : second = both := by
    apply UInt32.toBitVec_inj.mp
    rw [hsecondValue, hbothValue, bits_append, Crc.feedAll_append, UInt32.toBitVec_not, hresult,
      hfirstValue, BitVec.not_not]
  rw [hsecond, hboth, hsame]

/-- `Compute` over buffer after buffer, each result complemented before it is the next
seed. -/
def computeAll (polynomial seed : UInt32) : List (List UInt8) → Option UInt32
  | [] => some (~~~seed)
  | buffer :: buffers => do
      let result ← compute polynomial seed buffer
      computeAll polynomial (~~~result) buffers

theorem computeAll_eq (seed : UInt32) (buffers : List (List UInt8)) :
    computeAll polynomial seed buffers = compute polynomial seed buffers.flatten := by
  induction buffers generalizing seed with
  | nil => rfl
  | cons buffer buffers ih =>
      obtain ⟨result, hresult, -⟩ := compute_eq polynomial seed buffer
      rw [computeAll, hresult, List.flatten_cons, ← compute_append hresult, ← ih]
      rfl

/-- A text may come in one piece, in ranges of arrays, or in buffers whose results are
chained: the checksum is one, and the object is as new after `Initialize`. -/
theorem hashFinal_eq_compute (polynomial seed : UInt32) (blocks : List Block)
    (hblocks : ∀ b ∈ blocks, b.Inside) :
    ∃ c result, blocks.foldlM hashBlock (new polynomial seed) = some c ∧
      compute polynomial seed (blocks.flatMap Block.octets) = some result ∧
      computeAll polynomial seed (blocks.map Block.octets) = some result ∧
      c.hashFinal = toBigEndianBytes result ∧
      c.initializeHash = new polynomial seed := by
  have hnew : Hashed polynomial seed [] (new polynomial seed) := hashed_new
  obtain ⟨c, hc, h⟩ := hnew.foldlM hblocks
  refine ⟨c, ~~~c.hash, hc, h.compute_eq, ?_, rfl, ?_⟩
  · rw [computeAll_eq, ← List.flatMap_def]
    exact h.compute_eq
  · rw [initializeHash, new, h.seed_eq, h.table_eq]

/-- Two ranges of one array, which do not follow each other. -/
theorem hashFinal_two_blocks :
    ∃ c result, [⟨[7, 49, 50, 51, 52, 53], 1, 4⟩, ⟨[53, 54], 0, 2⟩].foldlM hashBlock
        (new defaultPolynomial defaultSeed) = some c ∧
      compute defaultPolynomial defaultSeed
        ([⟨[7, 49, 50, 51, 52, 53], 1, 4⟩, ⟨[53, 54], 0, 2⟩].flatMap Block.octets) = some result ∧
      computeAll defaultPolynomial defaultSeed
        ([⟨[7, 49, 50, 51, 52, 53], 1, 4⟩, ⟨[53, 54], 0, 2⟩].map Block.octets) = some result ∧
      c.hashFinal = toBigEndianBytes result ∧
      c.initializeHash = new defaultPolynomial defaultSeed := by
  apply hashFinal_eq_compute
  intro b hb
  rw [List.mem_cons, List.mem_singleton] at hb
  rcases hb with rfl | rfl
  · exact show 1 + 4 ≤ 6 by decide
  · exact show 0 + 2 ≤ 2 by decide

end Crc32

/-! ## Both sides -/

/-- The kernel and the client give a text the same checksum, in registers of any
width, and it has 32 bits. -/
theorem compute_eq_crc32 {w : ℕ} (hw : 32 ≤ w) (bytes : List UInt8) :
    Crc32.compute Crc32.defaultPolynomial Crc32.defaultSeed bytes =
        some (UInt32.ofNat (crc32 w bytes).toNat) ∧
      (crc32 w bytes).toNat < 2 ^ 32 := by
  obtain ⟨result, hresult, hvalue⟩ :=
    Crc32.compute_eq Crc32.defaultPolynomial Crc32.defaultSeed bytes
  have hcrc : crc32 w bytes = result.toBitVec.setWidth w := by
    rw [crc32_eq_setWidth hw, hvalue]
    rfl
  have hnat : (crc32 w bytes).toNat = result.toNat := by
    rw [hcrc, BitVec.toNat_setWidth_of_le hw]
    rfl
  constructor
  · rw [hresult, hnat, UInt32.ofNat_toNat]
  · rw [hnat]
    exact result.toNat_lt

theorem compute_eq_crc32_of_fast64 :
    Crc32.compute Crc32.defaultPolynomial Crc32.defaultSeed [49, 50, 51] =
        some (UInt32.ofNat (crc32 64 [49, 50, 51]).toNat) ∧
      (crc32 64 [49, 50, 51]).toNat < 2 ^ 32 :=
  compute_eq_crc32 (by decide) [49, 50, 51]

/-- Two texts that differ within 32 bits in a row have different checksums. -/
theorem crc32_ne_of_burst {w : ℕ} (hw : 32 ≤ w) {a b : List UInt8} {before u v after : List Bool}
    (ha : bits a = before ++ u ++ after) (hb : bits b = before ++ v ++ after)
    (hlength : u.length = v.length) (hle : u.length ≤ 32) (hne : u ≠ v) :
    crc32 w a ≠ crc32 w b := by
  intro hsame
  rw [crc32_eq_setWidth hw, crc32_eq_setWidth hw] at hsame
  have hnot : ~~~Crc.feedAll (reversedPolynomial 32) 0xFFFFFFFF#32 (bits a) =
      ~~~Crc.feedAll (reversedPolynomial 32) 0xFFFFFFFF#32 (bits b) := by
    apply BitVec.eq_of_toNat_eq
    have hnat := congrArg BitVec.toNat hsame
    rwa [BitVec.toNat_setWidth_of_le hw, BitVec.toNat_setWidth_of_le hw] at hnat
  have hregister := congrArg (~~~·) hnot
  simp only [BitVec.not_not] at hregister
  rw [ha, hb] at hregister
  exact hne (Crc.eq_of_feedAll_eq (by decide) hlength hle hregister)

theorem crc32_ne_of_last_bit :
    crc32 64 [49, 50] ≠ crc32 64 [49, 178] :=
  crc32_ne_of_burst (by decide)
    (show bits [49, 50] = (bits [49, 50]).take 15 ++ [false] ++ [] by decide)
    (show bits [49, 178] = (bits [49, 50]).take 15 ++ [true] ++ [] by decide)
    rfl (by decide) (by decide)

end WiseKernel.Util
