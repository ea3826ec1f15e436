import WiseKernel.Net.ModifierSpec

/-!
# The send buffer

`segment_buffer<Length>` collects the data of a session in segments of a fixed
length until a write takes them.  `reserve` counts the segments it needs with
`size_t` arithmetic and `append` indexes the segments by the write position;
both rely on a relation between the position and the number of segments that
`append` and `transfer` keep.
-/

namespace WiseKernel.Net

open WiseKernel.Lib

/-- `segment_buffer<Length>`: of every segment the bytes up to its position. -/
structure SegmentBuffer where
  segs : List (List UInt8)
  pos : ℕ
  deriving DecidableEq, Repr

namespace SegmentBuffer

def empty : SegmentBuffer := ⟨[], 0⟩

def size (b : SegmentBuffer) : ℕ := b.pos

/-- `segment::append`: as much as fits, and how much that was. -/
def segmentAppend (length : ℕ) (seg bytes : List UInt8) : List UInt8 × ℕ :=
  let n := min bytes.length (length - seg.length)
  (seg ++ bytes.take n, n)

def getWriteSeg (length : ℕ) (b : SegmentBuffer) : ℕ := b.pos / length

def getDataSeg (length : ℕ) (b : SegmentBuffer) : ℕ := (b.pos - 1) / length

def reserve (length len : ℕ) (b : SegmentBuffer) : SegmentBuffer :=
  let totalSegs := (b.pos + len) / length + 1
  let requiredSegs := subSize totalSegs b.segs.length
  { b with segs := b.segs ++ List.replicate requiredSegs [] }

/-- One iteration of the loop of `append`; `none` where it indexes a segment
that does not exist. -/
def appendStep (length : ℕ) (b : SegmentBuffer) (rest : List UInt8) :
    Option (SegmentBuffer × List UInt8) := do
  let i := b.getWriteSeg length
  let seg ← b.segs[i]?
  let i := if seg.length = length then i + 1 else i
  let seg ← b.segs[i]?
  let (seg, wl) := segmentAppend length seg rest
  return (⟨b.segs.set i seg, b.pos + wl⟩, rest.drop wl)

/-- The loop of `append` for at most `fuel` iterations. -/
def appendLoop (length : ℕ) : ℕ → SegmentBuffer → List UInt8 → Option SegmentBuffer
  | _, b, [] => some b
  | 0, _, _ :: _ => none
  | fuel + 1, b, rest => do
      let (b, rest) ← appendStep length b rest
      appendLoop length fuel b rest

/-- `segment_buffer::append`.  An iteration that copies nothing would repeat
itself, so as many iterations as bytes are all there can be. -/
def append (length : ℕ) (b : SegmentBuffer) (bytes : List UInt8) : Option SegmentBuffer :=
  appendLoop length bytes.length (b.reserve length bytes.length) bytes

def rewind (b : SegmentBuffer) : SegmentBuffer := ⟨b.segs.map fun _ ↦ [], 0⟩

/-- `segment_buffer::transfer`: the segments with data, and what is left. -/
def transfer (length : ℕ) (b : SegmentBuffer) : List (List UInt8) × SegmentBuffer :=
  if b.pos = 0 then ([], b)
  else
    let last := b.getDataSeg length
    (b.segs.take (last + 1), { b with segs := b.segs.drop (last + 1) }.rewind)

/-! ## What the segments hold -/

/-- The data in the buffer, in the order it was appended. -/
def content (b : SegmentBuffer) : List UInt8 := b.segs.flatten

/-- Full segments, then one that is not full, then `spare` empty ones; the
position counts the data. -/
structure Filled (length : ℕ) (b : SegmentBuffer) (full : List (List UInt8))
    (last : List UInt8) (spare : ℕ) : Prop where
  segs_eq : b.segs = full ++ last :: List.replicate spare []
  full_length : ∀ seg ∈ full, seg.length = length
  last_length : last.length < length
  pos_eq : b.pos = full.length * length + last.length

/-- The states between calls: no segment yet, or no spare one. -/
def Valid (length : ℕ) (b : SegmentBuffer) : Prop :=
  b = empty ∨ ∃ full last, b.Filled length full last 0

section

variable {length : ℕ} {b : SegmentBuffer} {full : List (List UInt8)} {last : List UInt8}
  {spare : ℕ}

theorem Filled.content_eq (h : b.Filled length full last spare) :
    b.content = full.flatten ++ last := by
  simp [content, h.segs_eq]

theorem Filled.length_segs (h : b.Filled length full last spare) :
    b.segs.length = full.length + spare + 1 := by
  simp only [h.segs_eq, List.length_append, List.length_cons, List.length_replicate]
  omega

theorem Filled.getWriteSeg_eq (h : b.Filled length full last spare) :
    b.getWriteSeg length = full.length := by
  have hpos : 0 < length := by
    have hlt := h.last_length
    omega
  rw [getWriteSeg, h.pos_eq, Nat.mul_comm, Nat.mul_add_div hpos,
    Nat.div_eq_of_lt h.last_length, Nat.add_zero]

theorem Filled.spare_eq_zero (h : b.Filled length full last spare)
    (hspare : b.pos / length = full.length + spare) : spare = 0 := by
  have hseg := h.getWriteSeg_eq
  rw [getWriteSeg] at hseg
  omega

theorem Filled.valid (h : b.Filled length full last spare)
    (hspare : b.pos / length = full.length + spare) : b.Valid length := by
  obtain rfl : spare = 0 := h.spare_eq_zero hspare
  exact .inr ⟨full, last, h⟩

/-- One iteration fills the segment at the write position, or stores all that
is left. -/
theorem Filled.appendStep (h : b.Filled length full last spare) {rest : List UInt8}
    (hspare : (b.pos + rest.length) / length = full.length + spare) (hrest : rest ≠ []) :
    ∃ b' rest' full' last' spare', b.appendStep length rest = some (b', rest') ∧
      b'.Filled length full' last' spare' ∧
      (b'.pos + rest'.length) / length = full'.length + spare' ∧
      rest'.length < rest.length ∧ b'.content ++ rest' = b.content ++ rest := by
  have hlast := h.last_length
  have hpos : 0 < length := by omega
  have hne : 0 < rest.length := List.length_pos_iff.mpr hrest
  have hseg : b.segs[full.length]? = some last := by
    simp [h.segs_eq]
  set n := min rest.length (length - last.length) with hn
  have hstep : b.appendStep length rest =
      some (⟨full ++ (last ++ rest.take n) :: List.replicate spare [], b.pos + n⟩,
        rest.drop n) := by
    have hnot : last.length ≠ length := by omega
    simp only [SegmentBuffer.appendStep, h.getWriteSeg_eq, hseg, Option.bind_eq_bind,
      Option.bind_some, hnot, if_false, segmentAppend, ← hn]
    simp [h.segs_eq]
  have hcontent : full.flatten ++ (last ++ rest.take n) ++ rest.drop n =
      b.content ++ rest := by
    rw [h.content_eq, List.append_assoc, List.append_assoc, List.take_append_drop,
      ← List.append_assoc]
  have hsum : b.pos + n + (rest.drop n).length = b.pos + rest.length := by
    simp only [List.length_drop]
    omega
  have hdrop : (rest.drop n).length < rest.length := by
    simp only [List.length_drop]
    omega
  have htake : (rest.take n).length = n := by
    simp only [List.length_take]
    omega
  rw [hstep]
  by_cases hfull : last.length + n = length
  · -- the segment is full now, and the count of spare ones says there is another
    obtain ⟨k, rfl⟩ : ∃ k, spare = k + 1 := by
      apply Nat.exists_eq_add_one_of_ne_zero
      rintro rfl
      have hle : (full.length + 1) * length ≤ b.pos + rest.length := by
        rw [h.pos_eq, Nat.add_mul, Nat.one_mul]
        omega
      have := (Nat.le_div_iff_mul_le hpos).mpr hle
      omega
    refine ⟨_, _, full ++ [last ++ rest.take n], [], k, rfl, ⟨?_, ?_, hpos, ?_⟩, ?_, hdrop, ?_⟩
    · simp [List.replicate_succ]
    · intro seg hseg
      rcases List.mem_append.mp hseg with hold | hnew
      · exact h.full_length seg hold
      · rw [List.mem_singleton.mp hnew, List.length_append, htake, hfull]
    · change b.pos + n = _
      simp only [h.pos_eq, List.length_append, List.length_singleton, List.length_nil,
        Nat.add_mul]
      omega
    · rw [hsum, hspare, List.length_append, List.length_singleton]
      omega
    · rw [← hcontent]
      simp [content]
  · refine ⟨_, _, full, last ++ rest.take n, spare, rfl,
      ⟨rfl, h.full_length, ?_, ?_⟩, ?_, hdrop, ?_⟩
    · rw [List.length_append, htake]
      omega
    · change b.pos + n = _
      rw [h.pos_eq, List.length_append, htake]
      omega
    · rw [hsum, hspare]
    · rw [← hcontent]
      simp [content]

/-- The whole loop: the data is behind what was there, and no segment is left
over. -/
theorem Filled.appendLoop {fuel : ℕ} {rest : List UInt8} (h : b.Filled length full last spare)
    (hspare : (b.pos + rest.length) / length = full.length + spare) (hfuel : rest.length ≤ fuel) :
    ∃ b' full' last', appendLoop length fuel b rest = some b' ∧
      b'.Filled length full' last' 0 ∧ b'.content = b.content ++ rest := by
  induction fuel generalizing b full last spare rest with
  | zero =>
      obtain rfl : rest = [] := List.length_eq_zero_iff.mp (Nat.le_zero.mp hfuel)
      obtain rfl : spare = 0 := h.spare_eq_zero hspare
      exact ⟨b, full, last, rfl, h, by simp⟩
  | succ fuel ih =>
      by_cases hrest : rest = []
      · subst hrest
        obtain rfl : spare = 0 := h.spare_eq_zero hspare
        exact ⟨b, full, last, rfl, h, by simp⟩
      · obtain ⟨b₁, rest₁, full₁, last₁, spare₁, hstep, hfilled, hspare₁, hlt, hcontent⟩ :=
          h.appendStep hspare hrest
        obtain ⟨b', full', last', hloop, hfilled', hcontent'⟩ := ih hfilled hspare₁ (by omega)
        refine ⟨b', full', last', ?_, hfilled', hcontent'.trans hcontent⟩
        obtain ⟨x, xs, rfl⟩ := List.exists_cons_of_ne_nil hrest
        simp [SegmentBuffer.appendLoop, hstep, hloop]

/-- With no more segments than the data needs, `reserve` adds the missing ones. -/
theorem Filled.reserve (h : b.Filled length full last spare) (len : ℕ)
    (hroom : full.length + spare ≤ (b.pos + len) / length) :
    (b.reserve length len).Filled length full last ((b.pos + len) / length - full.length) ∧
      (b.reserve length len).content = b.content := by
  have hsegs := h.length_segs
  have hrequired : subSize ((b.pos + len) / length + 1) b.segs.length =
      (b.pos + len) / length - (full.length + spare) := by
    rw [subSize_of_le (by omega)]
    omega
  have hsum : (b.pos + len) / length - full.length =
      spare + ((b.pos + len) / length - (full.length + spare)) := by omega
  refine ⟨⟨?_, h.full_length, h.last_length, h.pos_eq⟩, ?_⟩
  · rw [hsum, List.replicate_add]
    simp only [SegmentBuffer.reserve, hrequired]
    rw [h.segs_eq, List.append_assoc, List.cons_append]
  · simp [SegmentBuffer.reserve, content]

/-- `reserve` never counts below zero, and leaves room for the data. -/
theorem Valid.reserve (h : b.Valid length) (hpos : 0 < length) (len : ℕ) :
    ∃ full last spare, (b.reserve length len).Filled length full last spare ∧
      (b.reserve length len).content = b.content ∧
      (b.pos + len) / length = full.length + spare := by
  rcases h with rfl | ⟨full, last, h⟩
  · refine ⟨[], [], len / length, ⟨?_, by simp, hpos, by simp [SegmentBuffer.reserve, empty]⟩,
      ?_, by simp [empty]⟩
    · simp [SegmentBuffer.reserve, empty, List.replicate_succ]
    · simp [SegmentBuffer.reserve, empty, content]
  · have hwrite := h.getWriteSeg_eq
    rw [getWriteSeg] at hwrite
    have hmono : b.pos / length ≤ (b.pos + len) / length := Nat.div_le_div_right (by omega)
    obtain ⟨hfilled, hcontent⟩ := h.reserve len (by omega)
    exact ⟨full, last, _, hfilled, hcontent, by omega⟩

/-- `append` puts the data behind what is there. -/
theorem Valid.append (h : b.Valid length) (hpos : 0 < length) (bytes : List UInt8) :
    ∃ b', b.append length bytes = some b' ∧ b'.Valid length ∧
      b'.content = b.content ++ bytes := by
  obtain ⟨full, last, spare, hfilled, hcontent, hspare⟩ := h.reserve hpos bytes.length
  obtain ⟨b', full', last', hloop, hfilled', hcontent'⟩ :=
    hfilled.appendLoop hspare (Nat.le_refl bytes.length)
  exact ⟨b', hloop, .inr ⟨full', last', hfilled'⟩, by rw [hcontent', hcontent]⟩

theorem Filled.length_content (h : b.Filled length full last spare) :
    b.content.length = b.pos := by
  have hflat : full.flatten.length = full.length * length := by
    rw [List.length_flatten, List.map_congr_left h.full_length, List.map_const',
      List.sum_replicate_nat]
  rw [h.pos_eq, h.content_eq, List.length_append, hflat]

theorem Valid.size_eq (h : b.Valid length) : b.size = b.content.length := by
  rcases h with rfl | ⟨full, last, h⟩
  · rfl
  · exact h.length_content.symm

/-- The segments of a buffer that has data: the last one stays if it is empty. -/
theorem Filled.transfer_eq (h : b.Filled length full last 0) (hpos : b.pos ≠ 0) :
    b.transfer length =
      if last = [] then (full, ⟨[[]], 0⟩) else (full ++ [last], ⟨[], 0⟩) := by
  have hlast := h.last_length
  rw [SegmentBuffer.transfer, if_neg hpos]
  split_ifs with hnil
  · -- the last data segment is full, the empty one behind it stays
    subst hnil
    have hpos' : b.pos = full.length * length := by simpa using h.pos_eq
    have hne : full.length ≠ 0 := by
      intro h0
      simp [hpos', h0] at hpos
    have hdata : b.getDataSeg length + 1 = full.length := by
      have hdiv : (full.length * length - 1) / length = full.length - 1 := by
        have hmul : full.length * length - 1 = length * (full.length - 1) + (length - 1) := by
          obtain ⟨k, hk⟩ := Nat.exists_eq_add_one_of_ne_zero hne
          rw [hk, Nat.add_sub_cancel, Nat.add_mul, Nat.mul_comm length k]
          omega
        rw [hmul, Nat.mul_add_div (by omega), Nat.div_eq_of_lt (by omega), Nat.add_zero]
      rw [getDataSeg, hpos', hdiv]
      omega
    have htake : b.segs.take full.length = full := by simp [h.segs_eq]
    have hdrop : b.segs.drop full.length = [[]] := by simp [h.segs_eq]
    simp only [hdata, htake, hdrop, rewind, List.map_cons, List.map_nil]
  · have hlen : 0 < last.length := List.length_pos_iff.mpr hnil
    have hdata : b.getDataSeg length = full.length := by
      rw [getDataSeg, h.pos_eq, Nat.add_sub_assoc hlen, Nat.mul_comm,
        Nat.mul_add_div (by omega), Nat.div_eq_of_lt (by omega), Nat.add_zero]
    have htake : b.segs.take (full.length + 1) = full ++ [last] := by
      rw [h.segs_eq]
      exact List.take_of_length_le (by simp)
    have hdrop : b.segs.drop (full.length + 1) = [] := by simp [h.segs_eq]
    simp only [hdata, htake, hdrop, rewind, List.map_nil]

/-- `transfer` takes all data out of the buffer. -/
theorem Valid.transfer (h : b.Valid length) :
    (b.transfer length).1.flatten = b.content ∧ (b.transfer length).2.Valid length ∧
      (b.transfer length).2.content = [] := by
  rcases h with rfl | ⟨full, last, h⟩
  · exact ⟨rfl, .inl rfl, rfl⟩
  have hlast := h.last_length
  by_cases hpos : b.pos = 0
  · have hsize := Valid.size_eq (.inr ⟨full, last, h⟩ : b.Valid length)
    have hnil : b.content = [] := by
      apply List.length_eq_zero_iff.mp
      rw [← hsize, size, hpos]
    rw [SegmentBuffer.transfer, if_pos hpos]
    exact ⟨by simp [hnil], .inr ⟨full, last, h⟩, hnil⟩
  rw [h.transfer_eq hpos]
  split_ifs with hnil
  · subst hnil
    exact ⟨by simp [h.content_eq], .inr ⟨[], [], rfl, by simp, by omega, by simp⟩, rfl⟩
  · exact ⟨by simp [h.content_eq], .inl rfl, rfl⟩

/-- No segment that `transfer` hands out is empty. -/
theorem Valid.transfer_ne_nil (h : b.Valid length) :
    ∀ seg ∈ (b.transfer length).1, seg ≠ [] := by
  rcases h with rfl | ⟨full, last, h⟩
  · intro seg hseg
    simp [SegmentBuffer.transfer, empty] at hseg
  have hlast := h.last_length
  have hfull : ∀ seg ∈ full, seg ≠ [] := by
    rintro seg hseg rfl
    have hlen := h.full_length [] hseg
    simp only [List.length_nil] at hlen
    omega
  by_cases hpos : b.pos = 0
  · intro seg hseg
    simp [SegmentBuffer.transfer, hpos] at hseg
  rw [h.transfer_eq hpos]
  split_ifs with hnil
  · exact hfull
  · intro seg hseg
    rcases List.mem_append.mp hseg with hold | hnew
    · exact hfull seg hold
    · rw [List.mem_singleton.mp hnew]
      exact hnil

/-- In segments of one length, the byte at `i` is found by division. -/
theorem getElem?_of_segments {full : List (List UInt8)} {last : List UInt8}
    (hfull : ∀ seg ∈ full, seg.length = length) (hlast : last.length < length) (i : ℕ) :
    ((full ++ [last])[i / length]?).bind (·[i % length]?) = (full.flatten ++ last)[i]? := by
  have hlen : 0 < length := by omega
  induction full generalizing i with
  | nil =>
      by_cases hi : i < length
      · simp [Nat.div_eq_of_lt hi, Nat.mod_eq_of_lt hi]
      · have hdiv : 1 ≤ i / length := (Nat.le_div_iff_mul_le hlen).mpr (by omega)
        have hout : ([last] : List (List UInt8))[i / length]? = none :=
          List.getElem?_eq_none (by simpa using hdiv)
        have hout' : last[i]? = none := List.getElem?_eq_none (by omega)
        simp [hout, hout']
  | cons seg full ih =>
      have hseg : seg.length = length := hfull seg List.mem_cons_self
      rw [List.flatten_cons, List.cons_append, List.append_assoc]
      by_cases hi : i < length
      · rw [List.getElem?_append_left (by omega)]
        simp [Nat.div_eq_of_lt hi, Nat.mod_eq_of_lt hi]
      · have hdiv : i / length = (i - length) / length + 1 :=
          Nat.div_eq_sub_div hlen (Nat.not_lt.mp hi)
        have hmod : i % length = (i - length) % length :=
          Nat.mod_eq_sub_mod (Nat.not_lt.mp hi)
        rw [List.getElem?_append_right (by omega), hseg, hdiv, hmod, List.getElem?_cons_succ]
        exact ih (fun seg hseg ↦ hfull seg (List.mem_cons_of_mem _ hseg)) (i - length)

/-- `at` finds its byte. -/
theorem Valid.getElem?_eq (h : b.Valid length) {i : ℕ} {v : UInt8} (hi : b.content[i]? = some v) :
    (b.segs[i / length]?).bind (·[i % length]?) = some v := by
  rcases h with rfl | ⟨full, last, h⟩
  · simp [content, empty] at hi
  · have hsegs : b.segs = full ++ [last] := h.segs_eq
    rw [hsegs, getElem?_of_segments h.full_length h.last_length, ← h.content_eq]
    exact hi

end

end SegmentBuffer

end WiseKernel.Net
