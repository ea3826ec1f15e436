import Mathlib.Algebra.Group.Nat.Defs
import WiseKernel.Lib.Runs
import WiseKernel.Net.SegmentBuffer

/-!
# Rewinding the send buffer

`segment_buffer::rewind` keeps the segments and forgets the position, while
`reserve` subtracts the number of segments from the number it needs.  A
history goes well exactly as long as no append comes to a rewound buffer that
kept more segments than the appended bytes fill.
-/

namespace WiseKernel.Net

open WiseKernel.Lib

inductive SegmentOp
  | append (bytes : List UInt8)
  | rewind
  | transfer

namespace SegmentBuffer

/-- A call; an append that fails leaves what was there. -/
def step (length : ℕ) (b : SegmentBuffer) : SegmentOp → SegmentBuffer
  | .append bytes => (b.append length bytes).getD b
  | .rewind => b.rewind
  | .transfer => (b.transfer length).2

/-- The subtraction of `reserve` does not wrap, so few segments are allocated;
what was appended is behind what was there; nothing is left after `rewind`; and
`transfer` hands out all there is. -/
def Serves (length : ℕ) (b : SegmentBuffer) : SegmentOp → Prop
  | .append bytes =>
      b.segs.length ≤ (b.pos + bytes.length) / length + 1 ∧
      (b.reserve length bytes.length).segs.length ≤
        b.segs.length + ((bytes.length + (length - 1)) / length + 1) ∧
      ∃ b', b.append length bytes = some b' ∧ b'.content = b.content ++ bytes
  | .rewind => b.rewind.content = [] ∧ b.rewind.size = 0
  | .transfer =>
      (b.transfer length).1.flatten = b.content ∧ (b.transfer length).2.content = []

end SegmentBuffer

/-- What the history says about the buffer: its size, and how many segments the
bytes filled that the last rewind dropped. -/
structure RewindLedger where
  size : ℕ
  kept : ℕ
  deriving DecidableEq, Repr

namespace RewindLedger

def initial : RewindLedger := ⟨0, 0⟩

def step (length : ℕ) (t : RewindLedger) : SegmentOp → RewindLedger
  | .append bytes => ⟨t.size + bytes.length, 0⟩
  | .rewind => if t.size = 0 then t else ⟨0, t.size / length⟩
  | .transfer => if t.size = 0 then t else ⟨0, 0⟩

/-- The appended bytes fill the segments that were kept. -/
def Admits (length : ℕ) (t : RewindLedger) : SegmentOp → Prop
  | .append bytes => t.kept ≤ bytes.length / length
  | _ => True

end RewindLedger

namespace SegmentBuffer

/-- No segment at all, or as many spare ones as the ledger says; and there are
spare ones only in a buffer without data. -/
def Kept (length : ℕ) (b : SegmentBuffer) (t : RewindLedger) : Prop :=
  t.size = b.pos ∧ (t.kept ≠ 0 → b.pos = 0) ∧
    ((b = empty ∧ t.kept = 0) ∨ ∃ full last, b.Filled length full last t.kept)

section

variable {length : ℕ} {b : SegmentBuffer} {t : RewindLedger}

theorem Filled.of_pos_eq_zero {full : List (List UInt8)} {last : List UInt8} {spare : ℕ}
    (h : b.Filled length full last spare) (hpos : b.pos = 0) : full = [] ∧ last = [] := by
  have hlen := h.last_length
  have hsum := h.pos_eq
  rw [hpos] at hsum
  obtain ⟨hfull, hlast⟩ := Nat.add_eq_zero_iff.mp hsum.symm
  refine ⟨List.length_eq_zero_iff.mp ?_, List.length_eq_zero_iff.mp hlast⟩
  exact (Nat.mul_eq_zero.mp hfull).resolve_right (by omega)

theorem length_reserve {len : ℕ} (hle : b.segs.length ≤ (b.pos + len) / length + 1) :
    (b.reserve length len).segs.length = (b.pos + len) / length + 1 := by
  simp only [reserve, subSize_of_le hle, List.length_append, List.length_replicate]
  omega

/-- The count of segments is what the ledger says. -/
theorem Kept.length_le_iff (h : b.Kept length t) (len : ℕ) :
    b.segs.length ≤ (b.pos + len) / length + 1 ↔ t.kept ≤ len / length := by
  obtain ⟨-, hpos, ⟨rfl, hkept⟩ | ⟨full, last, hfilled⟩⟩ := h
  · simp [empty, hkept]
  · have hsegs : b.segs.length = full.length + t.kept + 1 := by
      simp only [hfilled.segs_eq, List.length_append, List.length_cons, List.length_replicate]
      omega
    rw [hsegs]
    by_cases hkept : t.kept = 0
    · have hwrite := hfilled.getWriteSeg_eq
      rw [getWriteSeg] at hwrite
      have hmono : b.pos / length ≤ (b.pos + len) / length := Nat.div_le_div_right (by omega)
      simp only [hkept, Nat.zero_le, iff_true]
      omega
    · obtain ⟨rfl, rfl⟩ := hfilled.of_pos_eq_zero (hpos hkept)
      rw [hpos hkept, Nat.zero_add, List.length_nil]
      omega

/-- An append the ledger admits goes through. -/
theorem Kept.append (h : b.Kept length t) (hlen : 0 < length) (bytes : List UInt8)
    (hadmits : t.kept ≤ bytes.length / length) :
    ∃ b', b.append length bytes = some b' ∧ b'.content = b.content ++ bytes ∧
      b'.Kept length (t.step length (.append bytes)) := by
  have hle := (h.length_le_iff bytes.length).mpr hadmits
  obtain ⟨hsize, -, hstate⟩ := h
  obtain ⟨full, last, spare, hfilled, hcontent, hspare⟩ :
      ∃ full last spare, (b.reserve length bytes.length).Filled length full last spare ∧
        (b.reserve length bytes.length).content = b.content ∧
        (b.pos + bytes.length) / length = full.length + spare := by
    rcases hstate with ⟨rfl, -⟩ | ⟨full, last, hfilled⟩
    · exact Valid.reserve (.inl rfl) hlen bytes.length
    · have hsegs := hfilled.length_segs
      obtain ⟨hreserved, hcontent⟩ := hfilled.reserve bytes.length (by omega)
      exact ⟨full, last, _, hreserved, hcontent, by omega⟩
  obtain ⟨b', full', last', hloop, hfilled', hcontent'⟩ :=
    hfilled.appendLoop hspare (Nat.le_refl bytes.length)
  have hbytes : b'.content = b.content ++ bytes := by rw [hcontent', hcontent]
  refine ⟨b', hloop, hbytes, ?_, ?_, .inr ⟨full', last', hfilled'⟩⟩
  · have hold : b.content.length = b.pos := by
      rcases hstate with ⟨rfl, -⟩ | ⟨full, last, hfilled⟩
      · rfl
      · exact hfilled.length_content
    have hnew := hfilled'.length_content
    rw [hbytes, List.length_append, hold] at hnew
    change t.size + bytes.length = b'.pos
    rw [hsize]
    exact hnew
  · intro hkept
    exact absurd rfl hkept

theorem Kept.rewind (h : b.Kept length t) (hlen : 0 < length) :
    b.rewind.content = [] ∧ b.rewind.Kept length (t.step length .rewind) := by
  obtain ⟨hsize, hpos, hstate⟩ := h
  have hcontent : b.rewind.content = [] := by simp [SegmentBuffer.rewind, content]
  refine ⟨hcontent, ?_⟩
  rcases hstate with ⟨rfl, hkept⟩ | ⟨full, last, hfilled⟩
  · have hzero : t.size = 0 := hsize
    rw [RewindLedger.step, if_pos hzero]
    exact ⟨hsize, fun hne ↦ absurd hkept hne, .inl ⟨rfl, hkept⟩⟩
  · have hsegs : b.rewind.segs = List.replicate (full.length + t.kept + 1) [] := by
      rw [SegmentBuffer.rewind, List.map_const', hfilled.length_segs]
    have hend : b.rewind.pos = 0 := rfl
    by_cases hzero : t.size = 0
    · obtain ⟨rfl, rfl⟩ := hfilled.of_pos_eq_zero (hsize.symm.trans hzero)
      rw [RewindLedger.step, if_pos hzero]
      refine ⟨hzero, fun _ ↦ rfl, .inr ⟨[], [], ?_, by simp, hlen, by simp [hend]⟩⟩
      simp [hsegs, List.replicate_succ]
    · have hkept : t.kept = 0 := by
        by_contra hne
        exact hzero (hsize.trans (hpos hne))
      have hwrite := hfilled.getWriteSeg_eq
      rw [getWriteSeg, ← hsize] at hwrite
      rw [RewindLedger.step, if_neg hzero, hwrite]
      refine ⟨rfl, fun _ ↦ rfl, .inr ⟨[], [], ?_, by simp, hlen, by simp [hend]⟩⟩
      simp [hsegs, hkept, List.replicate_succ]

theorem Kept.transfer (h : b.Kept length t) :
    (b.transfer length).1.flatten = b.content ∧ (b.transfer length).2.content = [] ∧
      (b.transfer length).2.Kept length (t.step length .transfer) := by
  obtain ⟨hsize, hpos, hstate⟩ := h
  by_cases hzero : b.pos = 0
  · have hcontent : b.content = [] := by
      rcases hstate with ⟨rfl, -⟩ | ⟨full, last, hfilled⟩
      · rfl
      · exact List.length_eq_zero_iff.mp (hfilled.length_content.trans hzero)
    have htransfer : b.transfer length = ([], b) := by
      rw [SegmentBuffer.transfer, if_pos hzero]
    rw [htransfer, RewindLedger.step, if_pos (hsize.trans hzero)]
    exact ⟨hcontent.symm, hcontent, hsize, hpos, hstate⟩
  · have hkept : t.kept = 0 := by
      by_contra hne
      exact hzero (hpos hne)
    have hvalid : b.Valid length := by
      rcases hstate with ⟨rfl, -⟩ | ⟨full, last, hfilled⟩
      · exact .inl rfl
      · rw [hkept] at hfilled
        exact .inr ⟨full, last, hfilled⟩
    obtain ⟨hbytes, hleft, hnil⟩ := hvalid.transfer
    have hend : (b.transfer length).2.pos = 0 := by
      rw [← SegmentBuffer.size, hleft.size_eq, hnil]
      rfl
    rw [RewindLedger.step, if_neg (hsize ▸ hzero)]
    refine ⟨hbytes, hnil, hend.symm, fun _ ↦ hend, ?_⟩
    rcases hleft with hempty | ⟨full, last, hfilled⟩
    · exact .inl ⟨hempty, rfl⟩
    · exact .inr ⟨full, last, hfilled⟩

/-- How many segments an append takes from the pool. -/
theorem Kept.length_reserve_le (h : b.Kept length t) (hlen : 0 < length) {len : ℕ}
    (hle : b.segs.length ≤ (b.pos + len) / length + 1) :
    (b.reserve length len).segs.length ≤
      b.segs.length + ((len + (length - 1)) / length + 1) := by
  have hceil : len / length ≤ (len + (length - 1)) / length := Nat.div_le_div_right (by omega)
  rw [length_reserve hle]
  obtain ⟨-, -, ⟨rfl, -⟩ | ⟨full, last, hfilled⟩⟩ := h
  · simp only [empty, Nat.zero_add, List.length_nil]
    omega
  · have hwrite := hfilled.getWriteSeg_eq
    rw [getWriteSeg] at hwrite
    have hsegs := hfilled.length_segs
    have hadd : (b.pos + len) / length ≤ b.pos / length + len / length + 1 := by
      rw [Nat.add_div hlen]
      split_ifs <;> omega
    omega

end

end SegmentBuffer

/-- A history of appends, rewinds and transfers does what it should all along
exactly if the bytes of each append fill the segments a rewind before it kept. -/
theorem rewinds_serve_iff {length : ℕ} (hlen : 0 < length) (ops : List SegmentOp) :
    Throughout (SegmentBuffer.step length) (SegmentBuffer.Serves length) .empty ops ↔
      Throughout (RewindLedger.step length) (RewindLedger.Admits length) .initial ops := by
  have hinitial : SegmentBuffer.empty.Kept length .initial :=
    ⟨rfl, fun hne ↦ absurd rfl hne, .inl ⟨rfl, rfl⟩⟩
  refine throughout_related hinitial ?_ ?_
  · intro b t op h hadmits
    cases op with
    | append bytes =>
        obtain ⟨b', happend, -, hkept⟩ := h.append hlen bytes hadmits
        rw [SegmentBuffer.step, happend]
        exact hkept
    | rewind => exact (h.rewind hlen).2
    | transfer => exact h.transfer.2.2
  · intro b t op h
    cases op with
    | append bytes =>
        constructor
        · rintro ⟨hle, -⟩
          exact (h.length_le_iff bytes.length).mp hle
        · intro hadmits
          have hle := (h.length_le_iff bytes.length).mpr hadmits
          obtain ⟨b', happend, hcontent, -⟩ := h.append hlen bytes hadmits
          exact ⟨hle, h.length_reserve_le hlen hle, b', happend, hcontent⟩
    | rewind => exact iff_of_true ⟨(h.rewind hlen).1, rfl⟩ trivial
    | transfer => exact iff_of_true ⟨h.transfer.1, h.transfer.2.1⟩ trivial

theorem rewinds_serve_iff_small :
    Throughout (SegmentBuffer.step 4) (SegmentBuffer.Serves 4) .empty
      [.append [1, 2], .rewind, .append [3], .transfer] :=
  (rewinds_serve_iff (by decide) [.append [1, 2], .rewind, .append [3], .transfer]).mpr
    (by simp [RewindLedger.Admits, RewindLedger.step, RewindLedger.initial])

/-- Eight bytes in segments of four, a rewind and one more byte: `reserve` asks
for 2^64 - 2 segments. -/
theorem not_rewinds_serve :
    ¬ Throughout (SegmentBuffer.step 4) (SegmentBuffer.Serves 4) .empty
      [.append [1, 2, 3, 4, 5, 6, 7, 8], .rewind, .append [9]] ∧
    let b := List.foldl (SegmentBuffer.step 4) .empty
      [.append [1, 2, 3, 4, 5, 6, 7, 8], .rewind]
    b.pos = 0 ∧ b.segs.length = 3 ∧
      subSize ((b.pos + 1) / 4 + 1) b.segs.length = 2 ^ 64 - 2 := by
  refine ⟨?_, by decide⟩
  rintro ⟨-, -, ⟨hle, -⟩, -⟩
  exact absurd hle (by decide)

end WiseKernel.Net
