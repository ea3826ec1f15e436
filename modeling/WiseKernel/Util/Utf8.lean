import Mathlib.Algebra.Group.Nat.Defs
import WiseKernel.Lib.Unicode

/-!
# The UTF-8 library

The checked conversions of the bundled `utf8` library.  Iterators are the
rest of the list they run over, the exceptions it throws are values, and what
was written before an exception is kept.
-/

namespace WiseKernel.Utf8

open WiseKernel.Lib

/-! ## Core -/

/-- `utf8::internal::utf_error` without `UTF8_OK`. -/
inductive UtfError
  | notEnoughRoom
  | invalidLead
  | incompleteSequence
  | overlongSequence
  | invalidCodePoint
  deriving DecidableEq, Repr

/-- The exceptions of the library. -/
inductive Exception
  | invalidCodePoint
  | invalidUtf8
  | invalidUtf16
  | notEnoughRoom
  deriving DecidableEq, Repr

def leadSurrogateMin : UInt32 := 0xd800
def leadSurrogateMax : UInt32 := 0xdbff
def trailSurrogateMin : UInt32 := 0xdc00
def trailSurrogateMax : UInt32 := 0xdfff
def leadOffset : UInt32 := leadSurrogateMin - ((0x10000 : UInt32) >>> 10)
def surrogateOffset : UInt32 := 0x10000 - (leadSurrogateMin <<< (10 : UInt32)) - trailSurrogateMin
def codePointMax : UInt32 := 0x0010ffff

def isTrail (oc : UInt8) : Bool := oc >>> 6 == 0x2

def isLeadSurrogate (cp : UInt32) : Bool := leadSurrogateMin ≤ cp && cp ≤ leadSurrogateMax

def isTrailSurrogate (cp : UInt32) : Bool := trailSurrogateMin ≤ cp && cp ≤ trailSurrogateMax

def isSurrogate (cp : UInt32) : Bool := leadSurrogateMin ≤ cp && cp ≤ trailSurrogateMax

def isCodePointValid (cp : UInt32) : Bool := cp ≤ codePointMax && !isSurrogate cp

def sequenceLength (lead : UInt8) : ℕ :=
  if lead < 0x80 then 1
  else if lead >>> 5 == 0x6 then 2
  else if lead >>> 4 == 0xe then 3
  else if lead >>> 3 == 0x1e then 4
  else 0

def isOverlongSequence (cp : UInt32) (length : ℕ) : Bool :=
  if cp < 0x80 then length != 1
  else if cp < 0x800 then length != 2
  else if cp < 0x10000 then length != 3
  else false

/-- The octet the iterator moves to, and what follows it. -/
def increaseSafely : List UInt8 → Except UtfError (UInt8 × List UInt8)
  | [] => .error .notEnoughRoom
  | b :: it => if isTrail b then .ok (b, it) else .error .incompleteSequence

def getSequence2 (lead : UInt8) (it : List UInt8) : Except UtfError (UInt32 × List UInt8) := do
  let (b, it) ← increaseSafely it
  return (((lead.toUInt32 <<< 6) &&& 0x7ff) + (b.toUInt32 &&& 0x3f), it)

def getSequence3 (lead : UInt8) (it : List UInt8) : Except UtfError (UInt32 × List UInt8) := do
  let (b, it) ← increaseSafely it
  let cp : UInt32 := ((lead.toUInt32 <<< 12) &&& (0xffff : UInt32)) +
    ((b.toUInt32 <<< 6) &&& (0xfff : UInt32))
  let (b, it) ← increaseSafely it
  return (cp + (b.toUInt32 &&& 0x3f), it)

def getSequence4 (lead : UInt8) (it : List UInt8) : Except UtfError (UInt32 × List UInt8) := do
  let (b, it) ← increaseSafely it
  let cp : UInt32 := ((lead.toUInt32 <<< 18) &&& (0x1fffff : UInt32)) +
    ((b.toUInt32 <<< 12) &&& (0x3ffff : UInt32))
  let (b, it) ← increaseSafely it
  let cp := cp + ((b.toUInt32 <<< 6) &&& (0xfff : UInt32))
  let (b, it) ← increaseSafely it
  return (cp + (b.toUInt32 &&& 0x3f), it)

/-- The `switch` of `validate_next`. -/
def getSequence (length : ℕ) (lead : UInt8) (it : List UInt8) :
    Except UtfError (UInt32 × List UInt8) :=
  match length with
  | 0 => .error .invalidLead
  | 1 => .ok (lead.toUInt32, it)
  | 2 => getSequence2 lead it
  | 3 => getSequence3 lead it
  | _ => getSequence4 lead it

/-- The code point at the iterator and what follows it; the iterator does not
move on an error. -/
def validateNext : List UInt8 → Except UtfError (UInt32 × List UInt8)
  | [] => .error .notEnoughRoom
  | lead :: it => do
      let (cp, it) ← getSequence (sequenceLength lead) lead it
      if !isCodePointValid cp then .error .invalidCodePoint
      else if isOverlongSequence cp (sequenceLength lead) then .error .overlongSequence
      else .ok (cp, it)

/-! ## Checked -/

def append (cp : UInt32) : Except Exception (List UInt8) :=
  if !isCodePointValid cp then .error .invalidCodePoint
  else if cp < 0x80 then .ok [cp.toUInt8]
  else if cp < 0x800 then
    .ok [((cp >>> 6) ||| 0xc0).toUInt8, ((cp &&& 0x3f) ||| 0x80).toUInt8]
  else if cp < 0x10000 then
    .ok [((cp >>> 12) ||| 0xe0).toUInt8, (((cp >>> 6) &&& 0x3f) ||| 0x80).toUInt8,
      ((cp &&& 0x3f) ||| 0x80).toUInt8]
  else
    .ok [((cp >>> 18) ||| 0xf0).toUInt8, (((cp >>> 12) &&& 0x3f) ||| 0x80).toUInt8,
      (((cp >>> 6) &&& 0x3f) ||| 0x80).toUInt8, ((cp &&& 0x3f) ||| 0x80).toUInt8]

def next (it : List UInt8) : Except Exception (UInt32 × List UInt8) :=
  match validateNext it with
  | .ok r => .ok r
  | .error .notEnoughRoom => .error .notEnoughRoom
  | .error .invalidCodePoint => .error .invalidCodePoint
  | .error _ => .error .invalidUtf8

/-- What a conversion has written, and the exception that ended it. -/
structure Converted (β : Type) where
  out : List β
  thrown : Option Exception
  deriving DecidableEq, Repr

def Converted.after {β : Type} (c : Converted β) (out : List β) : Converted β :=
  { c with out := out ++ c.out }

/-- The code point at the iterator and what follows it, surrogate pairs
first. -/
def nextUnits (unit : UInt16) (start : List UInt16) :
    Except Exception (UInt32 × List UInt16) :=
  if isLeadSurrogate unit.toUInt32 then
    match start with
    | [] => .error .invalidUtf16
    | trail :: start =>
        if isTrailSurrogate trail.toUInt32 then
          .ok ((unit.toUInt32 <<< 10) + trail.toUInt32 + surrogateOffset, start)
        else .error .invalidUtf16
  else if isTrailSurrogate unit.toUInt32 then .error .invalidUtf16
  else .ok (unit.toUInt32, start)

theorem length_nextUnits {unit : UInt16} {start rest : List UInt16} {cp : UInt32}
    (h : nextUnits unit start = .ok (cp, rest)) : rest.length ≤ start.length := by
  unfold nextUnits at h
  split at h
  · cases start with
    | nil => cases h
    | cons trail start =>
        simp only at h
        split_ifs at h
        have hrest := (Prod.mk.inj (Except.ok.inj h)).2
        exact hrest ▸ Nat.le_succ _
  · split_ifs at h
    have hrest := (Prod.mk.inj (Except.ok.inj h)).2
    exact hrest ▸ Nat.le_refl _

def utf16to8 : List UInt16 → Converted UInt8
  | [] => ⟨[], none⟩
  | unit :: start =>
      match _ : nextUnits unit start with
      | .error e => ⟨[], some e⟩
      | .ok (cp, rest) =>
          match append cp with
          | .error e => ⟨[], some e⟩
          | .ok octets => (utf16to8 rest).after octets
termination_by start => start.length
decreasing_by exact Nat.lt_succ_of_le (length_nextUnits ‹_›)

/-! Each step of the reading loop uses up an octet at least. -/

theorem bind_increaseSafely {α : Type} {it : List UInt8} {a : α}
    {f : UInt8 × List UInt8 → Except UtfError α} (h : (increaseSafely it >>= f) = .ok a) :
    ∃ b it', it = b :: it' ∧ f (b, it') = .ok a := by
  cases it with
  | nil => simp [increaseSafely, bind, Except.bind] at h
  | cons b it =>
      refine ⟨b, it, rfl, ?_⟩
      cases hb : isTrail b with
      | false => simp [increaseSafely, hb, bind, Except.bind] at h
      | true => simpa [increaseSafely, hb, bind, Except.bind] using h

theorem length_getSequence {length : ℕ} {lead : UInt8} {it it' : List UInt8} {cp : UInt32}
    (h : getSequence length lead it = .ok (cp, it')) : it'.length ≤ it.length := by
  match length with
  | 0 => cases h
  | 1 =>
      cases h
      exact Nat.le_refl _
  | 2 =>
      obtain ⟨b, it₁, rfl, h₁⟩ := bind_increaseSafely h
      cases h₁
      simp
  | 3 =>
      obtain ⟨b, it₁, rfl, h₁⟩ := bind_increaseSafely h
      obtain ⟨b', it₂, rfl, h₂⟩ := bind_increaseSafely h₁
      cases h₂
      simp [Nat.le_add_right_of_le]
  | n + 4 =>
      obtain ⟨b, it₁, rfl, h₁⟩ := bind_increaseSafely h
      obtain ⟨b', it₂, rfl, h₂⟩ := bind_increaseSafely h₁
      obtain ⟨b'', it₃, rfl, h₃⟩ := bind_increaseSafely h₂
      cases h₃
      simp [Nat.le_add_right_of_le]

theorem length_validateNext {it it' : List UInt8} {cp : UInt32}
    (h : validateNext it = .ok (cp, it')) : it'.length < it.length := by
  cases it with
  | nil => cases h
  | cons lead it =>
      cases hseq : getSequence (sequenceLength lead) lead it with
      | error e => simp [validateNext, hseq, bind, Except.bind] at h
      | ok r =>
          have hle : r.2.length ≤ it.length := length_getSequence hseq
          simp only [validateNext, hseq, bind, Except.bind] at h
          split_ifs at h
          cases h
          exact Nat.lt_succ_of_le hle

theorem length_next {it it' : List UInt8} {cp : UInt32} (h : next it = .ok (cp, it')) :
    it'.length < it.length := by
  unfold next at h
  split at h
  · next r hr =>
      cases h
      exact length_validateNext hr
  all_goals cases h

/-- What `utf8to16` writes for one code point. -/
def units (cp : UInt32) : List UInt16 :=
  if cp > 0xffff then
    [((cp >>> 10) + leadOffset).toUInt16, ((cp &&& 0x3ff) + trailSurrogateMin).toUInt16]
  else [cp.toUInt16]

def utf8to16 (start : List UInt8) : Converted UInt16 :=
  if start = [] then ⟨[], none⟩
  else
    match _ : next start with
    | .error e => ⟨[], some e⟩
    | .ok (cp, rest) => (utf8to16 rest).after (units cp)
termination_by start.length
decreasing_by exact length_next ‹_›

/-! ## Encoded characters -/

theorem isCodePointValid_char (c : Char) : isCodePointValid c.val = true := by
  have h := toNat_char c
  have hmax : c.val ≤ codePointMax := by
    apply UInt32.le_iff_toNat_le.mpr
    change c.toNat ≤ 0x10ffff
    omega
  have hsur : leadSurrogateMin ≤ c.val → ¬ c.val ≤ trailSurrogateMax := by
    intro hl hr
    have hl : 0xd800 ≤ c.toNat := UInt32.le_iff_toNat_le.mp hl
    have hr : c.toNat ≤ 0xdfff := UInt32.le_iff_toNat_le.mp hr
    omega
  by_cases hl : leadSurrogateMin ≤ c.val
  · simp [isCodePointValid, isSurrogate, hmax, hsur hl]
  · simp [isCodePointValid, isSurrogate, hmax, hl]

/-- Marker bits above the payload add up. -/
theorem toUInt8_or {x m : UInt32} (i a : ℕ) (hm : m.toNat = 2 ^ i * a) (hx : x.toNat < 2 ^ i) :
    (x ||| m).toUInt8 = UInt8.ofNat (x.toNat + m.toNat) := by
  apply UInt8.toNat_inj.mp
  rw [UInt32.toNat_toUInt8, UInt32.toNat_or, hm, UInt8.toNat_ofNat', Nat.or_comm,
    ← Nat.two_pow_add_eq_or_of_lt hx, Nat.add_comm]

theorem toNat_shiftRight (cp k : UInt32) (hk : k.toNat < 32) :
    (cp >>> k).toNat = cp.toNat / 2 ^ k.toNat := by
  rw [UInt32.toNat_shiftRight, Nat.mod_eq_of_lt hk, Nat.shiftRight_eq_div_pow]

theorem trail_octet (x : UInt32) :
    ((x &&& 0x3f) ||| 0x80).toUInt8 = UInt8.ofNat (x.toNat % 64 + 0x80) := by
  have hmask : (x &&& 0x3f).toNat = x.toNat % 64 := by
    rw [UInt32.toNat_and]
    exact Nat.and_two_pow_sub_one_eq_mod x.toNat 6
  rw [toUInt8_or 6 2 (by rfl) (by rw [hmask]; omega), hmask]
  rfl

theorem append_char (c : Char) : append c.val = .ok (String.utf8EncodeChar c) := by
  have hv := toNat_char c
  have s6 : (c.val >>> 6).toNat = c.toNat / 64 := toNat_shiftRight _ 6 (by decide)
  have s12 : (c.val >>> 12).toNat = c.toNat / 4096 := toNat_shiftRight _ 12 (by decide)
  have s18 : (c.val >>> 18).toNat = c.toNat / 262144 := toNat_shiftRight _ 18 (by decide)
  have e1 : c.val < 0x80 ↔ c.toNat < 0x80 := UInt32.lt_iff_toNat_lt
  have e2 : c.val < 0x800 ↔ c.toNat < 0x800 := UInt32.lt_iff_toNat_lt
  have e3 : c.val < 0x10000 ↔ c.toNat < 0x10000 := UInt32.lt_iff_toNat_lt
  simp only [append, isCodePointValid_char, Bool.not_true, Bool.false_eq_true, if_false, e1, e2,
    e3, trail_octet, s6, s12]
  rcases utf8EncodeChar_cases c with ⟨h, he⟩ | ⟨hlo, h, he⟩ | ⟨hlo, h, he⟩ | ⟨hlo, he⟩
  · rw [he, if_pos h]
    rfl
  · have hlead := toUInt8_or (x := c.val >>> 6) (m := 0xc0) 6 3 (by rfl) (by rw [s6]; omega)
    rw [he, if_neg (by omega), if_pos h, hlead, s6]
    rfl
  · have hlead := toUInt8_or (x := c.val >>> 12) (m := 0xe0) 5 7 (by rfl) (by rw [s12]; omega)
    rw [he, if_neg (by omega), if_neg (by omega), if_pos h, hlead, s12]
    rfl
  · have hlead := toUInt8_or (x := c.val >>> 18) (m := 0xf0) 4 15 (by rfl) (by rw [s18]; omega)
    rw [he, if_neg (by omega), if_neg (by omega), if_neg (by omega), hlead, s18]
    rfl

theorem shiftRight_beq (b k m : UInt8) (hk : k.toNat < 8) :
    (b >>> k == m) = decide (b.toNat / 2 ^ k.toNat = m.toNat) := by
  have h : (b >>> k).toNat = b.toNat / 2 ^ k.toNat := by
    rw [UInt8.toNat_shiftRight, Nat.mod_eq_of_lt hk, Nat.shiftRight_eq_div_pow]
  rw [← h, beq_eq_decide]
  exact decide_eq_decide.mpr UInt8.toNat_inj.symm

theorem sequenceLength_eq (lead : UInt8) :
    sequenceLength lead = if lead.toNat < 0x80 then 1 else if lead.toNat / 32 = 0x6 then 2
      else if lead.toNat / 16 = 0xe then 3 else if lead.toNat / 8 = 0x1e then 4 else 0 := by
  have e1 : lead < 0x80 ↔ lead.toNat < 0x80 := UInt8.lt_iff_toNat_lt
  have h5 : (lead >>> 5 == 0x6) = decide (lead.toNat / 32 = 0x6) :=
    shiftRight_beq lead 5 0x6 (by decide)
  have h4 : (lead >>> 4 == 0xe) = decide (lead.toNat / 16 = 0xe) :=
    shiftRight_beq lead 4 0xe (by decide)
  have h3 : (lead >>> 3 == 0x1e) = decide (lead.toNat / 8 = 0x1e) :=
    shiftRight_beq lead 3 0x1e (by decide)
  simp only [sequenceLength, e1, h5, h4, h3, decide_eq_true_eq]

theorem isTrail_eq (b : UInt8) : isTrail b = decide (b.toNat / 64 = 2) :=
  shiftRight_beq b 6 0x2 (by decide)

theorem toNat_place (b : UInt8) (k m : UInt32) (i : ℕ) (hk : k.toNat < 24)
    (hm : m.toNat = 2 ^ i - 1) :
    ((b.toUInt32 <<< k) &&& m).toNat = b.toNat * 2 ^ k.toNat % 2 ^ i := by
  have hb : b.toNat < 2 ^ 8 := b.toNat_lt
  have hlt : b.toNat * 2 ^ k.toNat < 2 ^ 32 := calc
    b.toNat * 2 ^ k.toNat < 2 ^ 8 * 2 ^ k.toNat := by
      exact Nat.mul_lt_mul_of_pos_right hb (Nat.two_pow_pos _)
    _ = 2 ^ (8 + k.toNat) := by rw [Nat.pow_add]
    _ ≤ 2 ^ 32 := Nat.pow_le_pow_right (by decide) (by omega)
  rw [UInt32.toNat_and, UInt32.toNat_shiftLeft, Nat.mod_eq_of_lt (by omega : k.toNat < 32),
    Nat.shiftLeft_eq, UInt8.toNat_toUInt32, Nat.mod_eq_of_lt hlt, hm,
    Nat.and_two_pow_sub_one_eq_mod]

theorem toNat_low (b : UInt8) : (b.toUInt32 &&& 0x3f).toNat = b.toNat % 64 := by
  rw [UInt32.toNat_and, UInt8.toNat_toUInt32]
  exact Nat.and_two_pow_sub_one_eq_mod b.toNat 6

theorem increaseSafely_trail {b : UInt8} (hb : isTrail b = true) (it : List UInt8) :
    increaseSafely (b :: it) = .ok (b, it) := by
  simp [increaseSafely, hb]

/-- A continuation octet: its value, and that it is recognised. -/
theorem trail_ofNat (n : ℕ) : (UInt8.ofNat (n % 64 + 0x80)).toNat = n % 64 + 0x80 ∧
    isTrail (UInt8.ofNat (n % 64 + 0x80)) = true := by
  have hn : (UInt8.ofNat (n % 64 + 0x80)).toNat = n % 64 + 0x80 :=
    UInt8.toNat_ofNat_of_lt' (by change _ < 256; omega)
  refine ⟨hn, ?_⟩
  rw [isTrail_eq, hn, decide_eq_true_eq]
  omega

/-- `octets` start with a sequence that reads as `c` and leaves `rest`. -/
def ReadsAs (c : Char) (rest octets : List UInt8) : Prop :=
  ∃ lead it, octets = lead :: it ∧
    isOverlongSequence c.val (sequenceLength lead) = false ∧
      getSequence (sequenceLength lead) lead it = .ok (c.val, rest)

section

variable {c : Char} (rest : List UInt8)

theorem lead_ofNat {n k : ℕ} (h : n + k < 256) : (UInt8.ofNat (n + k)).toNat = n + k :=
  UInt8.toNat_ofNat_of_lt' h

theorem readsAs_one (h : c.toNat < 0x80) : ReadsAs c rest (UInt8.ofNat c.toNat :: rest) := by
  have hlead : (UInt8.ofNat c.toNat).toNat = c.toNat :=
    UInt8.toNat_ofNat_of_lt' (Nat.lt_trans h (by decide))
  have hlen : sequenceLength (UInt8.ofNat c.toNat) = 1 := by
    rw [sequenceLength_eq, hlead, if_pos h]
  have hcp : (UInt8.ofNat c.toNat).toUInt32 = c.val := by
    apply UInt32.toNat_inj.mp
    rw [UInt8.toNat_toUInt32, hlead]
    rfl
  have hlt : c.val < 0x80 := UInt32.lt_iff_toNat_lt.mpr h
  refine ⟨_, _, rfl, ?_, ?_⟩
  · rw [hlen, isOverlongSequence, if_pos hlt]
    rfl
  · rw [hlen, getSequence, hcp]

theorem readsAs_two (hlo : 0x80 ≤ c.toNat) (h : c.toNat < 0x800) :
    ReadsAs c rest (UInt8.ofNat (c.toNat / 64 + 0xc0) ::
      UInt8.ofNat (c.toNat % 64 + 0x80) :: rest) := by
  have hlead := lead_ofNat (n := c.toNat / 64) (k := 0xc0) (by omega)
  have hlen : sequenceLength (UInt8.ofNat (c.toNat / 64 + 0xc0)) = 2 := by
    rw [sequenceLength_eq, hlead, if_neg (by omega), if_pos (by omega)]
  obtain ⟨h0, ht0⟩ := trail_ofNat c.toNat
  have hcp : ((UInt8.ofNat (c.toNat / 64 + 0xc0)).toUInt32 <<< 6 &&& 0x7ff) +
      ((UInt8.ofNat (c.toNat % 64 + 0x80)).toUInt32 &&& 0x3f) = c.val := by
    apply UInt32.toNat_inj.mp
    rw [UInt32.toNat_add, toNat_place _ 6 0x7ff 11 (by decide) (by rfl), toNat_low, hlead, h0]
    change (_ * 64 % 2048 + _) % 4294967296 = c.toNat
    omega
  have hge : ¬ c.val < 0x80 := fun hlt ↦ Nat.not_lt.mpr hlo (UInt32.lt_iff_toNat_lt.mp hlt)
  have hlt : c.val < 0x800 := UInt32.lt_iff_toNat_lt.mpr h
  refine ⟨_, _, rfl, ?_, ?_⟩
  · rw [hlen, isOverlongSequence, if_neg hge, if_pos hlt]
    rfl
  · rw [hlen, ← hcp]
    simp only [getSequence, getSequence2, increaseSafely_trail ht0]
    rfl

theorem readsAs_three (hlo : 0x800 ≤ c.toNat) (h : c.toNat < 0x10000) :
    ReadsAs c rest (UInt8.ofNat (c.toNat / 4096 + 0xe0) ::
      UInt8.ofNat (c.toNat / 64 % 64 + 0x80) :: UInt8.ofNat (c.toNat % 64 + 0x80) :: rest) := by
  have hlead := lead_ofNat (n := c.toNat / 4096) (k := 0xe0) (by omega)
  have hlen : sequenceLength (UInt8.ofNat (c.toNat / 4096 + 0xe0)) = 3 := by
    rw [sequenceLength_eq, hlead, if_neg (by omega), if_neg (by omega), if_pos (by omega)]
  obtain ⟨h0, ht0⟩ := trail_ofNat c.toNat
  obtain ⟨h6, ht6⟩ := trail_ofNat (c.toNat / 64)
  have hcp : ((UInt8.ofNat (c.toNat / 4096 + 0xe0)).toUInt32 <<< 12 &&& (0xffff : UInt32)) +
      ((UInt8.ofNat (c.toNat / 64 % 64 + 0x80)).toUInt32 <<< 6 &&& (0xfff : UInt32)) +
      ((UInt8.ofNat (c.toNat % 64 + 0x80)).toUInt32 &&& 0x3f) = c.val := by
    apply UInt32.toNat_inj.mp
    rw [UInt32.toNat_add, UInt32.toNat_add, toNat_place _ 12 0xffff 16 (by decide) (by rfl),
      toNat_place _ 6 0xfff 12 (by decide) (by rfl), toNat_low, hlead, h6, h0]
    change ((_ * 4096 % 65536 + _ * 64 % 4096) % 4294967296 + _) % 4294967296 = c.toNat
    omega
  have hge : ¬ c.val < 0x80 := fun hlt ↦
    Nat.not_lt.mpr (Nat.le_trans (by decide) hlo) (UInt32.lt_iff_toNat_lt.mp hlt)
  have hge' : ¬ c.val < 0x800 := fun hlt ↦ Nat.not_lt.mpr hlo (UInt32.lt_iff_toNat_lt.mp hlt)
  have hlt : c.val < 0x10000 := UInt32.lt_iff_toNat_lt.mpr h
  refine ⟨_, _, rfl, ?_, ?_⟩
  · rw [hlen, isOverlongSequence, if_neg hge, if_neg hge', if_pos hlt]
    rfl
  · rw [hlen, ← hcp]
    simp only [getSequence, getSequence3, increaseSafely_trail ht6]
    change (increaseSafely _ >>= _) = _
    rw [increaseSafely_trail ht0]
    rfl

theorem readsAs_four (hlo : 0x10000 ≤ c.toNat) :
    ReadsAs c rest (UInt8.ofNat (c.toNat / 262144 + 0xf0) ::
      UInt8.ofNat (c.toNat / 4096 % 64 + 0x80) :: UInt8.ofNat (c.toNat / 64 % 64 + 0x80) ::
        UInt8.ofNat (c.toNat % 64 + 0x80) :: rest) := by
  have hv := toNat_char c
  have hlead := lead_ofNat (n := c.toNat / 262144) (k := 0xf0) (by omega)
  have hlen : sequenceLength (UInt8.ofNat (c.toNat / 262144 + 0xf0)) = 4 := by
    rw [sequenceLength_eq, hlead, if_neg (by omega), if_neg (by omega), if_neg (by omega),
      if_pos (by omega)]
  obtain ⟨h0, ht0⟩ := trail_ofNat c.toNat
  obtain ⟨h6, ht6⟩ := trail_ofNat (c.toNat / 64)
  obtain ⟨h12, ht12⟩ := trail_ofNat (c.toNat / 4096)
  have hcp : ((UInt8.ofNat (c.toNat / 262144 + 0xf0)).toUInt32 <<< 18 &&& (0x1fffff : UInt32)) +
      ((UInt8.ofNat (c.toNat / 4096 % 64 + 0x80)).toUInt32 <<< 12 &&& (0x3ffff : UInt32)) +
      ((UInt8.ofNat (c.toNat / 64 % 64 + 0x80)).toUInt32 <<< 6 &&& (0xfff : UInt32)) +
      ((UInt8.ofNat (c.toNat % 64 + 0x80)).toUInt32 &&& 0x3f) = c.val := by
    apply UInt32.toNat_inj.mp
    rw [UInt32.toNat_add, UInt32.toNat_add, UInt32.toNat_add,
      toNat_place _ 18 0x1fffff 21 (by decide) (by rfl),
      toNat_place _ 12 0x3ffff 18 (by decide) (by rfl),
      toNat_place _ 6 0xfff 12 (by decide) (by rfl), toNat_low, hlead, h12, h6, h0]
    change (((_ * 262144 % 2097152 + _ * 4096 % 262144) % 4294967296 + _ * 64 % 4096) %
      4294967296 + _) % 4294967296 = c.toNat
    omega
  have hge (m : UInt32) (hm : m.toNat ≤ 0x10000) : ¬ c.val < m := fun hlt ↦
    Nat.not_lt.mpr (Nat.le_trans hm hlo) (UInt32.lt_iff_toNat_lt.mp hlt)
  refine ⟨_, _, rfl, ?_, ?_⟩
  · rw [hlen, isOverlongSequence, if_neg (hge _ (by decide)), if_neg (hge _ (by decide)),
      if_neg (hge _ (by decide))]
  · rw [hlen, ← hcp]
    simp only [getSequence, getSequence4, increaseSafely_trail ht12]
    change (increaseSafely _ >>= _) = _
    rw [increaseSafely_trail ht6]
    change (increaseSafely _ >>= _) = _
    rw [increaseSafely_trail ht0]
    rfl

end

theorem readsAs_char (c : Char) (rest : List UInt8) :
    ReadsAs c rest (String.utf8EncodeChar c ++ rest) := by
  rcases utf8EncodeChar_cases c with ⟨h, he⟩ | ⟨hlo, h, he⟩ | ⟨hlo, h, he⟩ | ⟨hlo, he⟩
  · rw [he]
    exact readsAs_one rest h
  · rw [he]
    exact readsAs_two rest hlo h
  · rw [he]
    exact readsAs_three rest hlo h
  · rw [he]
    exact readsAs_four rest hlo

theorem next_char (c : Char) (rest : List UInt8) :
    next (String.utf8EncodeChar c ++ rest) = .ok (c.val, rest) := by
  obtain ⟨lead, it, heq, hlong, hseq⟩ := readsAs_char c rest
  have hvalid : validateNext (lead :: it) = .ok (c.val, rest) := by
    simp only [validateNext, hseq]
    change (if _ then _ else _) = _
    rw [isCodePointValid_char, hlong]
    rfl
  rw [heq, next, hvalid]

/-! ## Texts -/

theorem units_char (c : Char) : units c.val = utf16EncodeChar c := by
  have hv := toNat_char c
  have e3 : c.val > 0xffff ↔ 0xffff < c.toNat := UInt32.lt_iff_toNat_lt
  have s10 : (c.val >>> 10).toNat = c.toNat / 1024 := toNat_shiftRight _ 10 (by decide)
  have m10 : (c.val &&& 0x3ff).toNat = c.toNat % 1024 := by
    rw [UInt32.toNat_and]
    exact Nat.and_two_pow_sub_one_eq_mod c.toNat 10
  simp only [units, utf16EncodeChar, e3]
  by_cases h : c.toNat < 0x10000
  · rw [if_neg (by omega), if_pos h]
    rfl
  · have hlead : ((c.val >>> 10) + leadOffset).toUInt16 =
        UInt16.ofNat (0xd800 + (c.toNat - 0x10000) / 0x400) := by
      apply UInt16.toNat_inj.mp
      have hoff : leadOffset.toNat = 0xd7c0 := by decide
      rw [UInt32.toNat_toUInt16, UInt32.toNat_add, s10, UInt16.toNat_ofNat', hoff]
      omega
    have htrail : ((c.val &&& 0x3ff) + trailSurrogateMin).toUInt16 =
        UInt16.ofNat (0xdc00 + (c.toNat - 0x10000) % 0x400) := by
      apply UInt16.toNat_inj.mp
      have hmin : trailSurrogateMin.toNat = 0xdc00 := by decide
      rw [UInt32.toNat_toUInt16, UInt32.toNat_add, m10, UInt16.toNat_ofNat', hmin]
      omega
    rw [if_pos (by omega), if_neg h, hlead, htrail]

/-- Reading the octets of a text gives its code units. -/
theorem utf8to16_utf8 (cs : List Char) : utf8to16 (utf8 cs) = ⟨utf16 cs, none⟩ := by
  induction cs with
  | nil => simp [utf8to16]
  | cons c cs ih =>
      have hne : utf8 (c :: cs) ≠ [] := by
        simp [String.utf8EncodeChar_ne_nil]
      rw [utf8to16, if_neg hne]
      split
      · next e he =>
          rw [utf8_cons, next_char] at he
          cases he
      · next cp rest he =>
          rw [utf8_cons, next_char] at he
          obtain ⟨rfl, rfl⟩ := Prod.mk.inj (Except.ok.inj he)
          rw [ih, units_char]
          rfl

theorem utf16to8_of_nextUnits {unit : UInt16} {start rest : List UInt16} {c : Char}
    (h : nextUnits unit start = .ok (c.val, rest)) :
    utf16to8 (unit :: start) = (utf16to8 rest).after (String.utf8EncodeChar c) := by
  rw [utf16to8]
  split
  · next e he =>
      rw [h] at he
      cases he
  · next cp rest' he =>
      rw [h] at he
      obtain ⟨rfl, rfl⟩ := Prod.mk.inj (Except.ok.inj he)
      rw [append_char]

theorem toNat_unit {n : ℕ} (hn : n < 0x10000) : (UInt16.ofNat n).toUInt32.toNat = n := by
  rw [UInt16.toNat_toUInt32]
  exact UInt16.toNat_ofNat_of_lt' hn

theorem isLeadSurrogate_ofNat {n : ℕ} (hn : n < 0x10000) :
    isLeadSurrogate (UInt16.ofNat n).toUInt32 = decide (0xd800 ≤ n ∧ n ≤ 0xdbff) := by
  simp only [isLeadSurrogate, UInt32.le_iff_toNat_le, toNat_unit hn, Bool.decide_and]
  rfl

theorem isTrailSurrogate_ofNat {n : ℕ} (hn : n < 0x10000) :
    isTrailSurrogate (UInt16.ofNat n).toUInt32 = decide (0xdc00 ≤ n ∧ n ≤ 0xdfff) := by
  simp only [isTrailSurrogate, UInt32.le_iff_toNat_le, toNat_unit hn, Bool.decide_and]
  rfl

theorem utf16to8_char (c : Char) (us : List UInt16) :
    utf16to8 (utf16EncodeChar c ++ us) = (utf16to8 us).after (String.utf8EncodeChar c) := by
  have hv := toNat_char c
  by_cases h : c.toNat < 0x10000
  · have hcp : (UInt16.ofNat c.toNat).toUInt32 = c.val := by
      apply UInt32.toNat_inj.mp
      exact toNat_unit h
    have he : utf16EncodeChar c = [UInt16.ofNat c.toNat] := if_pos h
    have hlead : isLeadSurrogate (UInt16.ofNat c.toNat).toUInt32 = false := by
      rw [isLeadSurrogate_ofNat h]
      exact decide_eq_false (by omega)
    have htrail : isTrailSurrogate (UInt16.ofNat c.toNat).toUInt32 = false := by
      rw [isTrailSurrogate_ofNat h]
      exact decide_eq_false (by omega)
    rw [he]
    apply utf16to8_of_nextUnits
    unfold nextUnits
    rw [hlead, htrail, hcp]
    rfl
  · have he : utf16EncodeChar c = [UInt16.ofNat (0xd800 + (c.toNat - 0x10000) / 0x400),
        UInt16.ofNat (0xdc00 + (c.toNat - 0x10000) % 0x400)] := if_neg h
    have hl : 0xd800 + (c.toNat - 0x10000) / 0x400 < 0x10000 := by omega
    have ht : 0xdc00 + (c.toNat - 0x10000) % 0x400 < 0x10000 := by omega
    have hlead : isLeadSurrogate
        (UInt16.ofNat (0xd800 + (c.toNat - 0x10000) / 0x400)).toUInt32 = true := by
      rw [isLeadSurrogate_ofNat hl]
      exact decide_eq_true (by omega)
    have htrail : isTrailSurrogate
        (UInt16.ofNat (0xdc00 + (c.toNat - 0x10000) % 0x400)).toUInt32 = true := by
      rw [isTrailSurrogate_ofNat ht]
      exact decide_eq_true (by omega)
    have hcp : ((UInt16.ofNat (0xd800 + (c.toNat - 0x10000) / 0x400)).toUInt32 <<< 10) +
        (UInt16.ofNat (0xdc00 + (c.toNat - 0x10000) % 0x400)).toUInt32 + surrogateOffset =
          c.val := by
      have hoff : surrogateOffset.toNat = 0xfca02400 := by decide
      have hten : 2 ^ ((10 : UInt32).toNat % 32) = 1024 := by decide
      apply UInt32.toNat_inj.mp
      rw [UInt32.toNat_add, UInt32.toNat_add, UInt32.toNat_shiftLeft, toNat_unit hl,
        toNat_unit ht, Nat.shiftLeft_eq, hoff, hten]
      change _ = c.toNat
      omega
    rw [he]
    apply utf16to8_of_nextUnits
    change nextUnits _ (_ :: us) = _
    unfold nextUnits
    simp only [hlead, htrail, if_true, hcp]

/-- Reading the code units of a text gives its octets. -/
theorem utf16to8_utf16 (cs : List Char) : utf16to8 (utf16 cs) = ⟨utf8 cs, none⟩ := by
  induction cs with
  | nil => rw [utf16_nil, utf16to8, utf8_nil]
  | cons c cs ih =>
      rw [utf16_cons, utf16to8_char, ih]
      rfl

/-! ## Nothing but text is read -/

theorem exists_char {cp : UInt32} (h : isCodePointValid cp = true) : ∃ c : Char, c.val = cp := by
  simp only [isCodePointValid, isSurrogate, Bool.and_eq_true, decide_eq_true_eq,
    Bool.not_eq_true', Bool.and_eq_false_iff, decide_eq_false_iff_not,
    UInt32.le_iff_toNat_le] at h
  obtain ⟨hmax, hsur⟩ := h
  have hmax : cp.toNat ≤ 0x10ffff := hmax
  have hsur : ¬ 0xd800 ≤ cp.toNat ∨ ¬ cp.toNat ≤ 0xdfff := hsur
  have hvalid : cp.isValidChar := by
    change cp.toNat < 0xd800 ∨ 0xdfff < cp.toNat ∧ cp.toNat < 0x110000
    omega
  exact ⟨⟨cp, hvalid⟩, rfl⟩

theorem isLeadSurrogate_iff (u : UInt16) :
    isLeadSurrogate u.toUInt32 = true ↔ 0xd800 ≤ u.toNat ∧ u.toNat ≤ 0xdbff := by
  simp only [isLeadSurrogate, UInt32.le_iff_toNat_le, Bool.and_eq_true, decide_eq_true_eq,
    UInt16.toNat_toUInt32]
  exact Iff.rfl

theorem isTrailSurrogate_iff (u : UInt16) :
    isTrailSurrogate u.toUInt32 = true ↔ 0xdc00 ≤ u.toNat ∧ u.toNat ≤ 0xdfff := by
  simp only [isTrailSurrogate, UInt32.le_iff_toNat_le, Bool.and_eq_true, decide_eq_true_eq,
    UInt16.toNat_toUInt32]
  exact Iff.rfl

theorem toNat_surrogates {u t : UInt16} (hu : 0xd800 ≤ u.toNat ∧ u.toNat ≤ 0xdbff)
    (ht : 0xdc00 ≤ t.toNat ∧ t.toNat ≤ 0xdfff) :
    ((u.toUInt32 <<< 10) + t.toUInt32 + surrogateOffset).toNat =
      (u.toNat - 0xd800) * 0x400 + (t.toNat - 0xdc00) + 0x10000 := by
  have hoff : surrogateOffset.toNat = 0xfca02400 := by decide
  have hten : 2 ^ ((10 : UInt32).toNat % 32) = 1024 := by decide
  rw [UInt32.toNat_add, UInt32.toNat_add, UInt32.toNat_shiftLeft, UInt16.toNat_toUInt32,
    UInt16.toNat_toUInt32, Nat.shiftLeft_eq, hoff, hten]
  omega

/-- The code units read for a character are its encoding. -/
theorem units_of_nextUnits {unit : UInt16} {start rest : List UInt16} {c : Char}
    (h : nextUnits unit start = .ok (c.val, rest)) :
    unit :: start = utf16EncodeChar c ++ rest := by
  have hunit := unit.toNat_lt
  have hsize : UInt16.size = 0x10000 := rfl
  unfold nextUnits at h
  split_ifs at h with hlead htrail
  · have hu := (isLeadSurrogate_iff unit).mp hlead
    cases start with
    | nil => cases h
    | cons trail start =>
        simp only at h
        split_ifs at h with htrail
        have ht := (isTrailSurrogate_iff trail).mp htrail
        obtain ⟨hcp, rfl⟩ := Prod.mk.inj (Except.ok.inj h)
        have hc : c.toNat = (unit.toNat - 0xd800) * 0x400 + (trail.toNat - 0xdc00) + 0x10000 := by
          rw [← toNat_surrogates hu ht, hcp]
          rfl
        have hfirst : UInt16.ofNat (0xd800 + (c.toNat - 0x10000) / 0x400) = unit := by
          apply UInt16.toNat_inj.mp
          rw [UInt16.toNat_ofNat_of_lt' (by omega)]
          omega
        have hsecond : UInt16.ofNat (0xdc00 + (c.toNat - 0x10000) % 0x400) = trail := by
          apply UInt16.toNat_inj.mp
          rw [UInt16.toNat_ofNat_of_lt' (by omega)]
          omega
        have hlarge : ¬ c.toNat < 0x10000 := by omega
        simp only [utf16EncodeChar, if_neg hlarge, hfirst, hsecond, List.cons_append,
          List.nil_append]
  · obtain ⟨hcp, rfl⟩ := Prod.mk.inj (Except.ok.inj h)
    have hc : c.toNat = unit.toNat := by
      change c.val.toNat = _
      rw [← hcp, UInt16.toNat_toUInt32]
    have he : utf16EncodeChar c = [UInt16.ofNat c.toNat] := if_pos (by omega)
    rw [he, hc, UInt16.ofNat_toNat, List.singleton_append]

/-- A conversion that goes on past its first character read a valid one. -/
theorem utf16to8_cons {unit : UInt16} {start : List UInt16}
    (h : (utf16to8 (unit :: start)).thrown = none) :
    ∃ (c : Char) (rest : List UInt16), nextUnits unit start = .ok (c.val, rest) ∧
      (utf16to8 rest).thrown = none := by
  rw [utf16to8] at h
  split at h
  · cases h
  · next cp rest hnext =>
      by_cases hvalid : isCodePointValid cp = true
      · obtain ⟨c, rfl⟩ := exists_char hvalid
        rw [append_char] at h
        exact ⟨c, rest, hnext, h⟩
      · simp [append, hvalid] at h

/-- What is converted without an exception is the UTF-16 of a text. -/
theorem exists_utf16_of_utf16to8 (us : List UInt16) (h : (utf16to8 us).thrown = none) :
    ∃ cs, us = utf16 cs := by
  induction hn : us.length using Nat.strongRecOn generalizing us with
  | _ n ih =>
      cases us with
      | nil => exact ⟨[], rfl⟩
      | cons unit start =>
          obtain ⟨c, rest, hnext, hrest⟩ := utf16to8_cons h
          have hlt : rest.length < n := by
            rw [← hn]
            exact Nat.lt_succ_of_le (length_nextUnits hnext)
          obtain ⟨cs, rfl⟩ := ih _ hlt rest hrest rfl
          exact ⟨c :: cs, units_of_nextUnits hnext⟩

end WiseKernel.Utf8
