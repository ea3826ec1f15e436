import Mathlib.Data.List.Basic
import Mathlib.Tactic.Common

/-!
# Encodings of Unicode text

A text is a list of Unicode scalar values; its UTF-8 octets are those of the
standard library, its UTF-16 code units are given here.
-/

namespace WiseKernel.Lib

def utf8 (cs : List Char) : List UInt8 := cs.flatMap String.utf8EncodeChar

def utf16EncodeChar (c : Char) : List UInt16 :=
  let v := c.toNat
  if v < 0x10000 then [UInt16.ofNat v]
  else [UInt16.ofNat (0xd800 + (v - 0x10000) / 0x400),
    UInt16.ofNat (0xdc00 + (v - 0x10000) % 0x400)]

def utf16 (cs : List Char) : List UInt16 := cs.flatMap utf16EncodeChar

@[simp] theorem utf8_nil : utf8 [] = [] := rfl

@[simp] theorem utf16_nil : utf16 [] = [] := rfl

@[simp] theorem utf8_cons (c : Char) (cs : List Char) :
    utf8 (c :: cs) = String.utf8EncodeChar c ++ utf8 cs := rfl

@[simp] theorem utf16_cons (c : Char) (cs : List Char) :
    utf16 (c :: cs) = utf16EncodeChar c ++ utf16 cs := rfl

theorem toNat_char (c : Char) :
    c.toNat < 0xd800 ∨ 0xdfff < c.toNat ∧ c.toNat < 0x110000 := c.valid

theorem utf8EncodeChar_cases (c : Char) :
    let v := c.toNat
    (v < 0x80 ∧ String.utf8EncodeChar c = [UInt8.ofNat v]) ∨
    (0x80 ≤ v ∧ v < 0x800 ∧ String.utf8EncodeChar c =
      [UInt8.ofNat (v / 64 + 0xc0), UInt8.ofNat (v % 64 + 0x80)]) ∨
    (0x800 ≤ v ∧ v < 0x10000 ∧ String.utf8EncodeChar c =
      [UInt8.ofNat (v / 4096 + 0xe0), UInt8.ofNat (v / 64 % 64 + 0x80),
        UInt8.ofNat (v % 64 + 0x80)]) ∨
    (0x10000 ≤ v ∧ String.utf8EncodeChar c =
      [UInt8.ofNat (v / 262144 + 0xf0), UInt8.ofNat (v / 4096 % 64 + 0x80),
        UInt8.ofNat (v / 64 % 64 + 0x80), UInt8.ofNat (v % 64 + 0x80)]) := by
  have hv := toNat_char c
  have hval : c.val.toNat = c.toNat := rfl
  simp only [String.utf8EncodeChar, hval]
  generalize c.toNat = v at *
  by_cases h1 : v ≤ 0x7f
  · exact .inl ⟨by omega, if_pos h1⟩
  by_cases h2 : v ≤ 0x7ff
  · have hlead : v / 64 % 0x20 = v / 64 := by omega
    exact .inr (.inl ⟨by omega, by omega, by rw [if_neg h1, if_pos h2, hlead]⟩)
  by_cases h3 : v ≤ 0xffff
  · have hlead : v / 4096 % 0x10 = v / 4096 := by omega
    exact .inr (.inr (.inl ⟨by omega, by omega, by rw [if_neg h1, if_neg h2, if_pos h3, hlead]⟩))
  · have hlead : v / 262144 % 0x08 = v / 262144 := by omega
    exact .inr (.inr (.inr ⟨by omega, by rw [if_neg h1, if_neg h2, if_neg h3, hlead]⟩))

/-- A code unit stands for at most three octets, a pair of them for four. -/
theorem length_utf8_le (cs : List Char) : (utf8 cs).length ≤ 3 * (utf16 cs).length := by
  induction cs with
  | nil => simp
  | cons c cs ih =>
      have hchar : (String.utf8EncodeChar c).length ≤ 3 * (utf16EncodeChar c).length := by
        have hunits : 1 ≤ (utf16EncodeChar c).length := by
          simp only [utf16EncodeChar]
          split_ifs <;> simp
        rcases utf8EncodeChar_cases c with ⟨-, he⟩ | ⟨-, -, he⟩ | ⟨-, -, he⟩ | ⟨h, he⟩
        · rw [he, List.length_singleton]
          omega
        · simp only [he, List.length_cons, List.length_nil]
          omega
        · simp only [he, List.length_cons, List.length_nil]
          omega
        · simp only [he, utf16EncodeChar, if_neg (Nat.not_lt.mpr h), List.length_cons,
            List.length_nil]
          omega
      simp only [utf8_cons, utf16_cons, List.length_append]
      omega

end WiseKernel.Lib
