import Mathlib.Algebra.Group.Nat.Defs
import Mathlib.Data.List.GetD
import Mathlib.Logic.Function.Basic

/-!
# Cyclic redundancy checks

The register of a reflected check takes the bits of a message one at a time.  A step is
linear and, if the polynomial has its highest bit, injective; so no change of a message
that stays within the width of the register goes unnoticed.  A register that takes
eight bits at once looks the low octet up in a table.
-/

namespace WiseKernel.Lib.Crc

variable {w : ℕ}

/-! ## Bits as a word -/

/-- The word with the bits of a list, the first one lowest. -/
def ofBits (w : ℕ) : List Bool → BitVec w
  | [] => 0#w
  | b :: bs => (BitVec.ofBool b).setWidth w ^^^ (ofBits w bs <<< 1)

theorem getLsbD_ofBits (bs : List Bool) (i : ℕ) :
    (ofBits w bs).getLsbD i = (decide (i < w) && bs.getD i false) := by
  induction bs generalizing i with
  | nil => simp [ofBits]
  | cons b bs ih =>
      rw [ofBits, BitVec.getLsbD_xor, BitVec.getLsbD_setWidth, BitVec.getLsbD_shiftLeft, ih]
      cases i with
      | zero => simp
      | succ i =>
          by_cases hi : i + 1 < w
          · have hpred : i < w := by omega
            simp [hi, hpred]
          · simp [hi]

theorem ofBits_injective {u v : List Bool} (hlength : u.length = v.length) (hle : u.length ≤ w)
    (h : ofBits w u = ofBits w v) : u = v := by
  apply List.ext_getElem hlength
  intro i hu hv
  have hbit := congrArg (fun x ↦ x.getLsbD i) h
  simp only [getLsbD_ofBits] at hbit
  have hi : i < w := by omega
  simpa [hi, hu, hv] using hbit

/-! ## The register -/

section

variable (poly : BitVec w)

def shift (c : BitVec w) : BitVec w :=
  if c.getLsbD 0 then (c >>> 1) ^^^ poly else c >>> 1

def shifts : ℕ → BitVec w → BitVec w
  | 0, c => c
  | n + 1, c => shifts n (shift poly c)

def feed (c : BitVec w) (b : Bool) : BitVec w :=
  shift poly (c ^^^ (BitVec.ofBool b).setWidth w)

def feedAll (c : BitVec w) (bits : List Bool) : BitVec w :=
  bits.foldl (feed poly) c

end

variable {poly : BitVec w}

theorem shift_xor (a b : BitVec w) : shift poly (a ^^^ b) = shift poly a ^^^ shift poly b := by
  unfold shift
  rw [BitVec.getLsbD_xor, BitVec.ushiftRight_xor_distrib]
  cases a.getLsbD 0 <;> cases b.getLsbD 0
  · simp
  · simp [BitVec.xor_assoc]
  · simp only [Bool.xor_false, if_true, Bool.false_eq_true, if_false]
    ac_rfl
  · simp only [Bool.xor_true, Bool.not_true, Bool.false_eq_true, if_false, if_true]
    rw [BitVec.xor_assoc, BitVec.xor_comm poly, BitVec.xor_assoc, BitVec.xor_self,
      BitVec.xor_zero]

theorem shifts_xor (n : ℕ) (a b : BitVec w) :
    shifts poly n (a ^^^ b) = shifts poly n a ^^^ shifts poly n b := by
  induction n generalizing a b with
  | zero => rfl
  | succ n ih => rw [shifts, shift_xor, ih, shifts, shifts]

theorem eq_of_xor_eq_zero {a b : BitVec w} (h : a ^^^ b = 0#w) : a = b := by
  apply BitVec.eq_of_getLsbD_eq
  intro i hi
  have hbit := congrArg (fun x ↦ x.getLsbD i) h
  simpa using hbit

theorem shift_eq_zero (hpoly : poly.getLsbD (w - 1) = true) {c : BitVec w}
    (h : shift poly c = 0#w) : c = 0#w := by
  have hw : 0 < w := by
    rcases Nat.eq_zero_or_pos w with rfl | hpos
    · simp at hpoly
    · exact hpos
  unfold shift at h
  split at h
  next hbit =>
    -- the highest bit of the shifted register is clear
    have htop := congrArg (fun x ↦ x.getLsbD (w - 1)) h
    have hover : 1 + (w - 1) = w := by omega
    simp [BitVec.getLsbD_ushiftRight, hpoly, hover] at htop
  next hbit =>
    apply BitVec.eq_of_getLsbD_eq
    intro i hi
    cases i with
    | zero => simpa using hbit
    | succ i =>
        have hbit := congrArg (fun x ↦ x.getLsbD i) h
        rw [BitVec.getLsbD_ushiftRight, Nat.add_comm] at hbit
        simpa using hbit

theorem shift_injective (hpoly : poly.getLsbD (w - 1) = true) :
    Function.Injective (shift poly) := by
  intro a b h
  apply eq_of_xor_eq_zero
  apply shift_eq_zero hpoly
  rw [shift_xor, h, BitVec.xor_self]

theorem shifts_injective (hpoly : poly.getLsbD (w - 1) = true) (n : ℕ) :
    Function.Injective (shifts poly n) := by
  induction n with
  | zero => exact fun a b h ↦ h
  | succ n ih =>
      intro a b h
      exact shift_injective hpoly (ih h)

theorem feedAll_append (c : BitVec w) (u v : List Bool) :
    feedAll poly c (u ++ v) = feedAll poly (feedAll poly c u) v := by
  rw [feedAll, List.foldl_append, feedAll, feedAll]

theorem feedAll_injective (hpoly : poly.getLsbD (w - 1) = true) (bits : List Bool) :
    Function.Injective fun c ↦ feedAll poly c bits := by
  induction bits with
  | nil => exact fun a b h ↦ h
  | cons b bits ih =>
      intro x y h
      have hfeed : feed poly x b = feed poly y b := ih h
      have hxor := shift_injective hpoly hfeed
      exact (BitVec.xor_left_inj _).mp hxor

/-! ## As many bits as the register has -/

theorem shift_shiftLeft {y : BitVec w} (hy : y.getLsbD (w - 1) = false) :
    shift poly (y <<< 1) = y := by
  have hbit : (y <<< 1).getLsbD 0 = false := by simp [BitVec.getLsbD_shiftLeft]
  rw [shift, if_neg (by rw [hbit]; exact Bool.false_ne_true)]
  apply BitVec.eq_of_getLsbD_eq
  intro i hi
  rw [BitVec.getLsbD_ushiftRight, BitVec.getLsbD_shiftLeft]
  by_cases hlast : 1 + i < w
  · simp [hlast]
  · have hi' : i = w - 1 := by omega
    rw [hi', hy]
    simp
    omega

/-- Bits that fit into the register act as one word. -/
theorem feedAll_eq_shifts (bits : List Bool) (hle : bits.length ≤ w) (c : BitVec w) :
    feedAll poly c bits = shifts poly bits.length (c ^^^ ofBits w bits) := by
  induction bits generalizing c with
  | nil => rw [ofBits, BitVec.xor_zero]; rfl
  | cons b bits ih =>
      rw [List.length_cons] at hle
      have htop : (ofBits w bits).getLsbD (w - 1) = false := by
        rw [getLsbD_ofBits, List.getD_eq_default _ _ (by omega), Bool.and_false]
      have hshift : feed poly c b ^^^ ofBits w bits =
          shift poly (c ^^^ ofBits w (b :: bits)) := by
        rw [ofBits, ← BitVec.xor_assoc, shift_xor _ (ofBits w bits <<< 1), shift_shiftLeft htop,
          feed]
      change feedAll poly (feed poly c b) bits = _
      rw [ih (by omega), hshift]
      rfl

/-- A change within the width of the register changes what is left in it. -/
theorem eq_of_feedAll_eq (hpoly : poly.getLsbD (w - 1) = true) {before u v after : List Bool}
    (hlength : u.length = v.length) (hle : u.length ≤ w) {c : BitVec w}
    (h : feedAll poly c (before ++ u ++ after) = feedAll poly c (before ++ v ++ after)) :
    u = v := by
  rw [feedAll_append, feedAll_append, feedAll_append _ (before ++ v), feedAll_append _ before v]
    at h
  have hmiddle := feedAll_injective hpoly after h
  rw [feedAll_eq_shifts u hle, feedAll_eq_shifts v (hlength ▸ hle), hlength] at hmiddle
  have hword := shifts_injective hpoly v.length hmiddle
  rw [BitVec.xor_right_inj] at hword
  exact ofBits_injective hlength hle hword

/-! ## Eight bits at once -/

/-- The bits of an octet, the lowest first. -/
def octetBits (x : BitVec 8) : List Bool := (List.range 8).map x.getLsbD

theorem length_octetBits (x : BitVec 8) : (octetBits x).length = 8 := by
  rw [octetBits, List.length_map, List.length_range]

theorem ofBits_octetBits (x : BitVec 8) : ofBits w (octetBits x) = x.setWidth w := by
  apply BitVec.eq_of_getLsbD_eq
  intro i hi
  rw [getLsbD_ofBits, BitVec.getLsbD_setWidth, octetBits]
  by_cases h8 : i < 8
  · simp [h8, hi]
  · have hnone : x.getLsbD i = false := BitVec.getLsbD_of_ge x i (by omega)
    simp [hi, h8, hnone]

/-- A register whose low bits are clear moves down. -/
theorem shifts_eq_ushiftRight {y : BitVec w} {n : ℕ} (hy : ∀ i < n, y.getLsbD i = false) :
    shifts poly n y = y >>> n := by
  induction n generalizing y with
  | zero => simp [shifts]
  | succ n ih =>
      have hbit := hy 0 (Nat.succ_pos n)
      have hshift : shift poly y = y >>> 1 := by
        rw [shift, if_neg (by rw [hbit]; exact Bool.false_ne_true)]
      rw [shifts, hshift, ih, ← BitVec.shiftRight_add, Nat.add_comm]
      intro i hi
      rw [BitVec.getLsbD_ushiftRight, Nat.add_comm]
      exact hy (i + 1) (by omega)

/-- The low octet goes through the table, the rest moves down. -/
theorem shifts_eight (x : BitVec w) :
    shifts poly 8 x = shifts poly 8 (x &&& 255#w) ^^^ (x >>> 8) := by
  have hmask : ∀ i, (255#w).getLsbD i = (decide (i < w) && decide (i < 8)) := by
    intro i
    rw [BitVec.getLsbD_ofNat, show (255 : ℕ) = 2 ^ 8 - 1 by rfl, Nat.testBit_two_pow_sub_one]
  have hsplit : x = (x &&& 255#w) ^^^ (x &&& ~~~255#w) := by
    apply BitVec.eq_of_getLsbD_eq
    intro i hi
    simp only [BitVec.getLsbD_xor, BitVec.getLsbD_and, BitVec.getLsbD_not, hmask]
    cases x.getLsbD i <;> simp [hi]
  have hlow : ∀ i < 8, (x &&& ~~~255#w).getLsbD i = false := by
    intro i hi
    simp only [BitVec.getLsbD_and, BitVec.getLsbD_not, hmask]
    by_cases hw : i < w <;> simp [hi, hw]
  have hhigh : (x &&& ~~~255#w) >>> 8 = x >>> 8 := by
    apply BitVec.eq_of_getLsbD_eq
    intro i hi
    simp only [BitVec.getLsbD_ushiftRight, BitVec.getLsbD_and, BitVec.getLsbD_not, hmask]
    by_cases hw : 8 + i < w
    · simp [hw]
    · simp [BitVec.getLsbD_of_ge x (8 + i) (by omega)]
  calc shifts poly 8 x = shifts poly 8 ((x &&& 255#w) ^^^ (x &&& ~~~255#w)) := by rw [← hsplit]
    _ = shifts poly 8 (x &&& 255#w) ^^^ (x >>> 8) := by
        rw [shifts_xor, shifts_eq_ushiftRight hlow, hhigh]

/-- An octet is eight steps of the register. -/
theorem feedAll_octetBits (hw : 8 ≤ w) (c : BitVec w) (x : BitVec 8) :
    feedAll poly c (octetBits x) = shifts poly 8 (c ^^^ x.setWidth w) := by
  rw [feedAll_eq_shifts _ (by rw [length_octetBits]; exact hw), length_octetBits,
    ofBits_octetBits]

end WiseKernel.Lib.Crc
