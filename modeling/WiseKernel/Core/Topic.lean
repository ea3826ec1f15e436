import Mathlib.Algebra.Group.Nat.Defs
import Mathlib.Tactic.Common

/-!
# Topics

`topic`: 8 bits of category, 8 bits of group and 16 bits of type.  A
subscription to the type 0 is one to the whole group.
-/

namespace WiseKernel.Core

/-- `topic`. -/
structure Topic where
  key : UInt32
  deriving DecidableEq, Repr

namespace Topic

/-- `topic(cat, group, type)`. -/
def make (cat group : UInt8) (type : UInt16) : Topic :=
  ⟨cat.toUInt32 <<< 24 ||| group.toUInt32 <<< 16 ||| type.toUInt32⟩

def getCategory (t : Topic) : UInt8 := ((t.key >>> 24) &&& 0x000000FF).toUInt8

def getGroup (t : Topic) : UInt8 := ((t.key >>> 16) &&& 0x000000FF).toUInt8

def getType (t : Topic) : UInt16 := (t.key &&& 0x0000FFFF).toUInt16

def getGroupTopic (t : Topic) : Topic := make t.getCategory t.getGroup 0

def isValid (t : Topic) : Bool := t.key > 0

/-- `match`: whether a subscription to `t` is one to `other`. -/
def matchTopic (t other : Topic) : Bool :=
  if t.getCategory = other.getCategory ∧ t.getGroup = other.getGroup then
    if t.getType = 0 then true else t.getType = other.getType
  else false

variable {s t : Topic}

theorem ext_toNat (h : s.key.toNat = t.key.toNat) : s = t := by
  cases s
  cases t
  rw [mk.injEq]
  exact UInt32.toNat_inj.mp h

theorem getCategory_toNat (t : Topic) : t.getCategory.toNat = t.key.toNat / 2 ^ 24 := by
  have hlt := t.key.toNat_lt
  have hand : ∀ n : ℕ, n &&& 255 = n % 2 ^ 8 := fun n ↦ Nat.and_two_pow_sub_one_eq_mod n 8
  simp only [getCategory, UInt32.toNat_toUInt8, UInt32.toNat_and, UInt32.toNat_shiftRight,
    UInt32.reduceToNat, Nat.reduceMod, hand, Nat.shiftRight_eq_div_pow]
  omega

theorem getGroup_toNat (t : Topic) : t.getGroup.toNat = t.key.toNat / 2 ^ 16 % 2 ^ 8 := by
  have hand : ∀ n : ℕ, n &&& 255 = n % 2 ^ 8 := fun n ↦ Nat.and_two_pow_sub_one_eq_mod n 8
  simp only [getGroup, UInt32.toNat_toUInt8, UInt32.toNat_and, UInt32.toNat_shiftRight,
    UInt32.reduceToNat, Nat.reduceMod, hand, Nat.shiftRight_eq_div_pow]
  omega

theorem getType_toNat (t : Topic) : t.getType.toNat = t.key.toNat % 2 ^ 16 := by
  have hand : ∀ n : ℕ, n &&& 65535 = n % 2 ^ 16 := fun n ↦ Nat.and_two_pow_sub_one_eq_mod n 16
  simp only [getType, UInt32.toNat_toUInt16, UInt32.toNat_and, UInt32.reduceToNat, hand]
  omega

theorem getGroupTopic_toNat (t : Topic) :
    t.getGroupTopic.key.toNat = t.key.toNat / 2 ^ 16 * 2 ^ 16 := by
  have hcat := t.getCategory_toNat
  have hgroup := t.getGroup_toNat
  have hcatLt := t.getCategory.toNat_lt
  have hgroupLt := t.getGroup.toNat_lt
  have hhigh : (t.getCategory.toUInt32 <<< 24).toNat = t.getCategory.toNat <<< 24 := by
    simp only [UInt32.toNat_shiftLeft, UInt8.toNat_toUInt32, UInt32.reduceToNat, Nat.reduceMod]
    rw [Nat.shiftLeft_eq, Nat.mod_eq_of_lt]
    omega
  have hlow : (t.getGroup.toUInt32 <<< 16).toNat = t.getGroup.toNat <<< 16 := by
    simp only [UInt32.toNat_shiftLeft, UInt8.toNat_toUInt32, UInt32.reduceToNat, Nat.reduceMod]
    rw [Nat.shiftLeft_eq, Nat.mod_eq_of_lt]
    omega
  have hlt : t.getGroup.toNat <<< 16 < 2 ^ 24 := by
    rw [Nat.shiftLeft_eq]
    omega
  simp only [getGroupTopic, make, UInt32.toNat_or, hhigh, hlow]
  rw [← Nat.shiftLeft_add_eq_or_of_lt hlt, Nat.shiftLeft_eq, Nat.shiftLeft_eq, hcat, hgroup]
  have hzero : ((0 : UInt16).toUInt32).toNat = 0 := by decide
  rw [hzero, Nat.or_zero]
  omega

/-- The topics that match `t` are `t` itself and its group. -/
theorem matchTopic_iff : s.matchTopic t = true ↔ s = t ∨ s = t.getGroupTopic := by
  have hs := s.getType_toNat
  have ht := t.getType_toNat
  have hkey : ∀ u : Topic, s.key.toNat = u.key.toNat ↔ s = u := fun u ↦
    ⟨ext_toNat, fun h ↦ by rw [h]⟩
  have hfields : (s.getCategory = t.getCategory ∧ s.getGroup = t.getGroup) ↔
      s.key.toNat / 2 ^ 16 = t.key.toNat / 2 ^ 16 := by
    rw [← UInt8.toNat_inj, ← UInt8.toNat_inj, getCategory_toNat, getCategory_toNat,
      getGroup_toNat, getGroup_toNat]
    omega
  have hzero : s.getType = 0 ↔ s.key.toNat % 2 ^ 16 = 0 := by
    rw [← UInt16.toNat_inj, hs]
    rfl
  have hsame : s.getType = t.getType ↔ s.key.toNat % 2 ^ 16 = t.key.toNat % 2 ^ 16 := by
    rw [← UInt16.toNat_inj, hs, ht]
  rw [← hkey t, ← hkey t.getGroupTopic, getGroupTopic_toNat]
  simp only [matchTopic, hfields, hzero, hsame]
  split_ifs <;> simp <;> omega

theorem getGroupTopic_eq_self_iff : t.getGroupTopic = t ↔ t.getType = 0 := by
  rw [← UInt16.toNat_inj, getType_toNat]
  constructor
  · intro h
    have hkey := t.getGroupTopic_toNat
    rw [h] at hkey
    change _ = 0
    omega
  · intro h
    apply ext_toNat
    rw [getGroupTopic_toNat]
    change _ = 0 at h
    omega

end Topic

end WiseKernel.Core
