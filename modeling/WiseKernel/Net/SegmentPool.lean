import Mathlib.Logic.Function.Basic
import WiseKernel.Lib.Loans
import WiseKernel.Net.SegmentBuffer

/-!
# The send buffers in their segments

The segments of all `segment_buffer`s of one length come from one
`object_pool` and go back to it when their data is sent.  A segment is a place
in memory that keeps what was in it; the buffers are lists of such places.
Each buffer behaves as the `SegmentBuffer` of the contents of its segments,
because no segment is in two hands.
-/

namespace WiseKernel.Net

open WiseKernel.Lib

/-! ## Segments -/

/-- `segment<Length>`. -/
structure Segment (length : ℕ) where
  buf : List UInt8
  pos : ℕ
  buf_length : buf.length = length
  pos_le : pos ≤ length

namespace Segment

variable {length : ℕ}

/-- What `segment::get` points at. -/
def get (s : Segment length) : List UInt8 := s.buf.take s.pos

def size (s : Segment length) : ℕ := s.pos

/-- `segment::append`, and the number of bytes it took. -/
def append (s : Segment length) (bytes : List UInt8) : Segment length × ℕ :=
  let n := min bytes.length (length - s.pos)
  have hfit : s.pos + (bytes.take n).length ≤ s.buf.length := by
    have hlen := s.buf_length
    have hpos := s.pos_le
    simp only [List.length_take, n]
    omega
  (⟨overwrite s.buf s.pos (bytes.take n), s.pos + n,
    (length_overwrite hfit).trans s.buf_length, by
      have hpos := s.pos_le
      omega⟩, n)

/-- `segment::rewind`; the constructor does no more either, since `buf_` is not
initialized. -/
def rewind (s : Segment length) : Segment length := { s with pos := 0, pos_le := Nat.zero_le _ }

/-- Fresh memory with zeros in it. -/
def zero (length : ℕ) : Segment length :=
  ⟨List.replicate length 0, 0, List.length_replicate, Nat.zero_le _⟩

theorem length_get (s : Segment length) : s.get.length = s.size := by
  have hpos := s.pos_le
  rw [get, List.length_take, s.buf_length, size]
  omega

@[simp] theorem get_rewind (s : Segment length) : s.rewind.get = [] := List.take_zero

/-- On the contents, `append` is that of `SegmentBuffer`. -/
theorem segmentAppend_get (s : Segment length) (bytes : List UInt8) :
    SegmentBuffer.segmentAppend length s.get bytes =
      ((s.append bytes).1.get, (s.append bytes).2) := by
  have hlen := s.buf_length
  have hpos := s.pos_le
  have hsize : s.get.length = s.pos := s.length_get
  simp only [SegmentBuffer.segmentAppend, hsize, append]
  set n := min bytes.length (length - s.pos) with hn
  have htake : (bytes.take n).length = n := by
    simp only [List.length_take]
    omega
  have hcut : (s.buf.take s.pos ++ bytes.take n).length = s.pos + n := by
    rw [List.length_append, htake, List.length_take]
    omega
  have hget : (overwrite s.buf s.pos (bytes.take n)).take (s.pos + n) = s.get ++ bytes.take n := by
    rw [overwrite, ← hcut, List.take_left]
    rfl
  exact congrArg (·, n) hget.symm

/-- The byte at an offset inside the content. -/
theorem getD_buf {s : Segment length} {i : ℕ} {v : UInt8} (h : s.get[i]? = some v) :
    s.buf.getD i 0 = v := by
  have hi : i < s.pos := by
    by_contra hge
    simp [get, List.getElem?_take, hge] at h
  rw [get, List.getElem?_take_of_lt hi] at h
  rw [List.getD_eq_getElem?_getD, h, Option.getD_some]

end Segment

/-! ## The pool -/

/-- `object_pool<segment<Length>>` and the memory: `free` is `q_`, and the
places below `made` have been allocated. -/
structure SegmentHeap (length : ℕ) where
  free : List ℕ
  made : ℕ
  objs : ℕ → Segment length

namespace SegmentHeap

variable {length : ℕ}

def set (h : SegmentHeap length) (a : ℕ) (s : Segment length) : SegmentHeap length :=
  { h with objs := Function.update h.objs a s }

def alloc (h : SegmentHeap length) : ℕ × SegmentHeap length :=
  match h.free with
  | a :: free => (a, { h with free })
  | [] => (h.made, { h with made := h.made + 1 })

def createRaw (h : SegmentHeap length) : ℕ × SegmentHeap length :=
  let (a, h) := h.alloc
  (a, h.set a (h.objs a).rewind)

def destroy (h : SegmentHeap length) (a : ℕ) : SegmentHeap length :=
  { h with free := h.free ++ [a] }

/-- What taking `new` out of the pool does. -/
structure Lends (h : SegmentHeap length) (lent : List ℕ) (h' : SegmentHeap length)
    (lent' new : List ℕ) : Prop where
  loans : Loans (· < h'.made) h'.free lent'
  nodup : new.Nodup
  notMem : ∀ a ∈ new, a ∉ lent
  mem : ∀ a ∈ new, a ∈ lent'
  kept : ∀ a ∈ lent, a ∈ lent'
  fresh : ∀ a ∈ new, (h'.objs a).get = []
  others : ∀ a ∉ new, h'.objs a = h.objs a

variable {h : SegmentHeap length} {lent : List ℕ}

theorem lends_nil (hl : Loans (· < h.made) h.free lent) : h.Lends lent h lent [] :=
  ⟨hl, List.nodup_nil, by simp, by simp, fun _ ha ↦ ha, by simp, fun _ _ ↦ rfl⟩

theorem loans_alloc (hl : Loans (· < h.made) h.free lent) :
    Loans (· < h.alloc.2.made) h.alloc.2.free (h.alloc.1 :: lent) ∧ h.alloc.2.objs = h.objs ∧
      h.alloc.1 ∉ lent := by
  cases hfree : h.free with
  | nil =>
      rw [hfree] at hl
      have hnew : ¬ h.made < h.made := Nat.lt_irrefl _
      have halloc : h.alloc = (h.made, { h with made := h.made + 1 }) := by
        simp only [alloc, hfree]
      rw [halloc]
      refine ⟨?_, rfl, fun hmem ↦ hnew ((hl.all_iff _).mpr (.inr hmem))⟩
      have hall (a : ℕ) : a < h.made + 1 ↔ a = h.made ∨ a < h.made := by omega
      have hlent := (hl.lend_new hnew).congr hall
      rw [← hfree] at hlent
      exact hlent
  | cons a free =>
      rw [hfree] at hl
      have halloc : h.alloc = (a, { h with free }) := by simp only [alloc, hfree]
      rw [halloc]
      exact ⟨hl.lend, rfl, hl.apart a List.mem_cons_self⟩

theorem Lends.createRaw {h' : SegmentHeap length} {lent' new : List ℕ}
    (hl : h.Lends lent h' lent' new) :
    h.Lends lent h'.createRaw.2 (h'.createRaw.1 :: lent') (new ++ [h'.createRaw.1]) := by
  obtain ⟨hloans, hobjs, hnot⟩ := loans_alloc hl.loans
  have hmade : h'.createRaw.1 = h'.alloc.1 := rfl
  have hset : h'.createRaw.2.objs =
      Function.update h'.objs h'.alloc.1 (h'.objs h'.alloc.1).rewind := by
    change Function.update h'.alloc.2.objs h'.alloc.1 (h'.alloc.2.objs h'.alloc.1).rewind = _
    rw [hobjs]
  rw [hmade]
  refine ⟨hloans, ?_, ?_, ?_, ?_, ?_, ?_⟩
  · rw [← List.concat_eq_append]
    exact hl.nodup.concat fun hmem ↦ hnot (hl.mem _ hmem)
  · intro a ha
    rcases List.mem_append.mp ha with hold | hnew
    · exact hl.notMem a hold
    · rw [List.mem_singleton.mp hnew]
      exact fun hmem ↦ hnot (hl.kept _ hmem)
  · intro a ha
    rcases List.mem_append.mp ha with hold | hnew
    · exact List.mem_cons_of_mem _ (hl.mem a hold)
    · rw [List.mem_singleton.mp hnew]
      exact List.mem_cons_self
  · intro a ha
    exact List.mem_cons_of_mem _ (hl.kept a ha)
  · intro a ha
    rw [hset]
    by_cases hnew : a = h'.alloc.1
    · subst hnew
      rw [Function.update_self, Segment.get_rewind]
    · rw [Function.update_of_ne hnew]
      rcases List.mem_append.mp ha with hold | hlast
      · exact hl.fresh a hold
      · exact absurd (List.mem_singleton.mp hlast) hnew
  · intro a ha
    have hne : a ≠ h'.alloc.1 := by
      rintro rfl
      exact ha (List.mem_append_right _ List.mem_cons_self)
    rw [hset, Function.update_of_ne hne]
    exact hl.others a fun hmem ↦ ha (List.mem_append_left _ hmem)

end SegmentHeap

/-! ## The buffers -/

/-- `segment_buffer<Length>` with the addresses of its segments. -/
structure SegmentQueue where
  segs : List ℕ
  pos : ℕ
  deriving DecidableEq, Repr

namespace SegmentQueue

variable {length : ℕ}

def size (q : SegmentQueue) : ℕ := q.pos

/-- The loop of `reserve`. -/
def reserveLoop : ℕ → SegmentHeap length → List ℕ → SegmentHeap length × List ℕ
  | 0, h, segs => (h, segs)
  | n + 1, h, segs =>
      let (a, h) := h.createRaw
      reserveLoop n h (segs ++ [a])

def reserve (h : SegmentHeap length) (q : SegmentQueue) (len : ℕ) :
    SegmentHeap length × SegmentQueue :=
  let totalSegs := (q.pos + len) / length + 1
  let requiredSegs := subSize totalSegs q.segs.length
  let (h, segs) := reserveLoop requiredSegs h q.segs
  (h, { q with segs })

/-- One iteration of the loop of `append`: `none` where it indexes `segs_` out of
range, else the number of bytes the segment took and what is left. -/
def appendStep (h : SegmentHeap length) (q : SegmentQueue) (rest : List UInt8) :
    Option (ℕ × SegmentHeap length × SegmentQueue × List UInt8) := do
  let i := q.pos / length
  let a ← q.segs[i]?
  let a ← if (h.objs a).size = length then q.segs[i + 1]? else some a
  let (seg, wl) := (h.objs a).append rest
  return (wl, h.set a seg, { q with pos := q.pos + wl }, rest.drop wl)

/-- The loop of `append` for at most `fuel` iterations, and the numbers of bytes
the segments took. -/
def appendLoop : ℕ → SegmentHeap length → SegmentQueue → List UInt8 →
    Option (List ℕ × SegmentHeap length × SegmentQueue)
  | _, h, q, [] => some ([], h, q)
  | 0, _, _, _ :: _ => none
  | fuel + 1, h, q, rest => do
      let (wl, h, q, rest) ← q.appendStep h rest
      let (wls, h, q) ← appendLoop fuel h q rest
      return (wl :: wls, h, q)

/-- `segment_buffer::append`, as many iterations as bytes. -/
def append (h : SegmentHeap length) (q : SegmentQueue) (bytes : List UInt8) :
    Option (List ℕ × SegmentHeap length × SegmentQueue) :=
  let (h, q) := q.reserve h bytes.length
  q.appendLoop bytes.length h bytes

/-- `none` where `segs_` is indexed out of range. -/
def «at» (h : SegmentHeap length) (q : SegmentQueue) (pos : ℕ) : Option UInt8 :=
  if q.pos ≤ pos then some 0
  else if q.segs = [] then some 0
  else q.segs[pos / length]?.map fun a ↦ (h.objs a).buf.getD (pos % length) 0

def rewind (h : SegmentHeap length) (q : SegmentQueue) : SegmentHeap length × SegmentQueue :=
  (q.segs.foldl (fun h a ↦ h.set a (h.objs a).rewind) h, { q with pos := 0 })

def transfer (h : SegmentHeap length) (q : SegmentQueue) :
    List ℕ × SegmentHeap length × SegmentQueue :=
  if q.pos = 0 then ([], h, q)
  else
    let last := (q.pos - 1) / length
    (q.segs.take (last + 1), ({ q with segs := q.segs.drop (last + 1) } : SegmentQueue).rewind h)

/-- `segment_buffer::release`. -/
def release (h : SegmentHeap length) (segs : List ℕ) : SegmentHeap length :=
  segs.foldl SegmentHeap.destroy h

/-- What is in the segments. -/
def contents (h : SegmentHeap length) (segs : List ℕ) : List (List UInt8) :=
  segs.map fun a ↦ (h.objs a).get

def view (h : SegmentHeap length) (q : SegmentQueue) : SegmentBuffer := ⟨contents h q.segs, q.pos⟩

theorem contents_congr {h h' : SegmentHeap length} {segs : List ℕ}
    (hsame : ∀ a ∈ segs, h'.objs a = h.objs a) : contents h' segs = contents h segs :=
  List.map_congr_left fun a ha ↦ congrArg Segment.get (hsame a ha)

/-! ### Room for more -/

theorem reserveLoop_lends {h h' : SegmentHeap length} {lent lent' new : List ℕ} (n : ℕ)
    (segs : List ℕ) (hl : h.Lends lent h' lent' new) :
    ∃ lent'' new', (reserveLoop n h' (segs ++ new)).2 = segs ++ new' ∧
      new'.length = new.length + n ∧
      h.Lends lent (reserveLoop n h' (segs ++ new)).1 lent'' new' := by
  induction n generalizing h' lent' new with
  | zero => exact ⟨lent', new, rfl, rfl, hl⟩
  | succ n ih =>
      obtain ⟨lent'', new', hsegs, hlen, hlends⟩ := ih hl.createRaw
      have hloop : reserveLoop (n + 1) h' (segs ++ new) =
          reserveLoop n h'.createRaw.2 (segs ++ (new ++ [h'.createRaw.1])) := by
        rw [← List.append_assoc]
        rfl
      rw [hloop]
      refine ⟨lent'', new', hsegs, ?_, hlends⟩
      rw [hlen, List.length_append, List.length_singleton]
      omega

/-- On the contents, `reserve` is that of `SegmentBuffer`. -/
theorem reserve_spec {h : SegmentHeap length} {lent : List ℕ} {q : SegmentQueue}
    (hl : Loans (· < h.made) h.free lent) (hmem : ∀ a ∈ q.segs, a ∈ lent) (len : ℕ) :
    ∃ lent' new, (q.reserve h len).2 = { q with segs := q.segs ++ new } ∧
      h.Lends lent (q.reserve h len).1 lent' new ∧
      (q.reserve h len).2.view (q.reserve h len).1 = (q.view h).reserve length len := by
  set n := subSize ((q.pos + len) / length + 1) q.segs.length with hn
  obtain ⟨lent', new, hsegs, hlen, hlends⟩ := reserveLoop_lends n q.segs (SegmentHeap.lends_nil hl)
  rw [List.append_nil] at hsegs hlends
  have hreserve : q.reserve h len =
      ((reserveLoop n h q.segs).1, { q with segs := (reserveLoop n h q.segs).2 }) := rfl
  rw [hreserve, hsegs]
  refine ⟨lent', new, rfl, hlends, ?_⟩
  have hold : contents (reserveLoop n h q.segs).1 q.segs = contents h q.segs := by
    refine contents_congr fun a ha ↦ hlends.others a fun hnew ↦ ?_
    exact hlends.notMem a hnew (hmem a ha)
  have hnew : contents (reserveLoop n h q.segs).1 new = List.replicate n [] := by
    rw [List.length_nil, Nat.zero_add] at hlen
    rw [contents, List.map_congr_left hlends.fresh, List.map_const', hlen]
  have hcount : (contents h q.segs).length = q.segs.length := List.length_map _
  simp only [view, SegmentBuffer.reserve, hcount, ← hn]
  rw [contents, List.map_append]
  exact congrArg (SegmentBuffer.mk · q.pos) (congrArg₂ (· ++ ·) hold hnew)

/-! ### The loop of append -/

/-- A call that writes to the segments of the buffer and to nothing else. -/
structure Touches (h : SegmentHeap length) (segs : List ℕ) (h' : SegmentHeap length) : Prop where
  free_eq : h'.free = h.free
  made_eq : h'.made = h.made
  others : ∀ a ∉ segs, h'.objs a = h.objs a

theorem Touches.refl {h : SegmentHeap length} {segs : List ℕ} : Touches h segs h :=
  ⟨rfl, rfl, fun _ _ ↦ rfl⟩

theorem Touches.trans {h h' h'' : SegmentHeap length} {segs : List ℕ} (ht : Touches h segs h')
    (ht' : Touches h' segs h'') : Touches h segs h'' :=
  ⟨ht'.free_eq.trans ht.free_eq, ht'.made_eq.trans ht.made_eq,
    fun a ha ↦ (ht'.others a ha).trans (ht.others a ha)⟩

theorem contents_set {h : SegmentHeap length} {segs : List ℕ} (hnodup : segs.Nodup) {i a : ℕ}
    (hi : segs[i]? = some a) (seg : Segment length) :
    contents (h.set a seg) segs = (contents h segs).set i seg.get := by
  apply List.ext_getElem?
  intro j
  rw [List.getElem?_set, contents, contents, List.getElem?_map, List.getElem?_map]
  obtain ⟨hlt, ha⟩ := List.getElem?_eq_some_iff.mp hi
  by_cases hij : i = j
  · subst hij
    simp [hlt, ha, SegmentHeap.set]
  · rw [if_neg hij]
    cases hj : segs[j]? with
    | none => rfl
    | some b =>
        have hne : b ≠ a := by
          rintro rfl
          obtain ⟨hlt', hb⟩ := List.getElem?_eq_some_iff.mp hj
          exact hij ((hnodup.getElem_inj_iff).mp (ha.trans hb.symm))
        simp [SegmentHeap.set, Function.update_of_ne hne]

/-- Where the iteration on the contents goes through, the one on the segments
does the same. -/
theorem exists_appendStep {h : SegmentHeap length} {q : SegmentQueue} (hnodup : q.segs.Nodup)
    {rest rest' : List UInt8} {b' : SegmentBuffer}
    (hstep : (q.view h).appendStep length rest = some (b', rest')) :
    ∃ wl h' q', q.appendStep h rest = some (wl, h', q', rest') ∧ q'.view h' = b' ∧
      rest' = rest.drop wl ∧ q'.segs = q.segs ∧ Touches h q.segs h' := by
  have hget (j : ℕ) : (q.view h).segs[j]? = q.segs[j]?.map fun a ↦ (h.objs a).get :=
    List.getElem?_map
  have hwrite : (q.view h).getWriteSeg length = q.pos / length := rfl
  have hsize (a : ℕ) : (h.objs a).get.length = (h.objs a).size := (h.objs a).length_get
  -- what the iteration does once the segment is found
  have hfound {i a : ℕ} (hi : q.segs[i]? = some a) :
      let r := (h.objs a).append rest
      view (h.set a r.1) { q with pos := q.pos + r.2 } =
          ⟨(q.view h).segs.set i r.1.get, q.pos + r.2⟩ ∧ Touches h q.segs (h.set a r.1) := by
    refine ⟨congrArg (SegmentBuffer.mk · _) (contents_set hnodup hi _), rfl, rfl, ?_⟩
    intro b hb
    have hne : b ≠ a := by
      rintro rfl
      exact hb (List.mem_of_getElem? hi)
    exact Function.update_of_ne hne _ _
  simp only [SegmentBuffer.appendStep, hwrite, hget, Option.bind_eq_bind] at hstep
  cases ha : q.segs[q.pos / length]? with
  | none => simp [ha] at hstep
  | some a =>
      simp only [ha, Option.map_some, Option.bind_some, hsize] at hstep
      by_cases hfull : (h.objs a).size = length
      · rw [if_pos hfull] at hstep
        cases hb : q.segs[q.pos / length + 1]? with
        | none => simp [hb] at hstep
        | some b =>
            simp only [hb, Option.map_some, Option.bind_some, Segment.segmentAppend_get] at hstep
            obtain ⟨rfl, rfl⟩ := Prod.mk.inj (Option.some.inj hstep)
            obtain ⟨hview, htouches⟩ := hfound hb
            refine ⟨_, _, _, ?_, hview, rfl, rfl, htouches⟩
            simp [appendStep, ha, hfull, hb]
      · rw [if_neg hfull] at hstep
        simp only [ha, Option.map_some, Option.bind_some, Segment.segmentAppend_get] at hstep
        obtain ⟨rfl, rfl⟩ := Prod.mk.inj (Option.some.inj hstep)
        obtain ⟨hview, htouches⟩ := hfound ha
        refine ⟨_, _, _, ?_, hview, rfl, rfl, htouches⟩
        simp [appendStep, ha, hfull]

/-- The whole loop: it ends, never indexes past the segments, and each segment
takes something. -/
theorem appendLoop_spec {fuel : ℕ} {h : SegmentHeap length} {q : SegmentQueue}
    (hnodup : q.segs.Nodup) {rest : List UInt8} {full : List (List UInt8)} {last : List UInt8}
    {spare : ℕ} (hfilled : (q.view h).Filled length full last spare)
    (hspare : (q.pos + rest.length) / length = full.length + spare)
    (hfuel : rest.length ≤ fuel) :
    ∃ wls h' q', q.appendLoop fuel h rest = some (wls, h', q') ∧ (∀ wl ∈ wls, 0 < wl) ∧
      (q'.view h').Valid length ∧ (q'.view h').content = (q.view h).content ++ rest ∧
      q'.segs = q.segs ∧ Touches h q.segs h' := by
  induction fuel generalizing h q rest full last spare with
  | zero =>
      obtain rfl : rest = [] := List.length_eq_zero_iff.mp (Nat.le_zero.mp hfuel)
      exact ⟨[], h, q, rfl, by simp, hfilled.valid hspare, (List.append_nil _).symm, rfl, .refl⟩
  | succ fuel ih =>
      by_cases hrest : rest = []
      · subst hrest
        exact ⟨[], h, q, rfl, by simp, hfilled.valid hspare, (List.append_nil _).symm, rfl, .refl⟩
      · obtain ⟨b₁, rest₁, full₁, last₁, spare₁, hstep, hfilled₁, hspare₁, hlt, hcontent⟩ :=
          hfilled.appendStep hspare hrest
        obtain ⟨wl, h₁, q₁, hstep', rfl, hdrop, hsegs, htouches⟩ := exists_appendStep hnodup hstep
        have hwl : 0 < wl := by
          rw [hdrop, List.length_drop] at hlt
          omega
        have hnodup₁ : q₁.segs.Nodup := by
          rw [hsegs]
          exact hnodup
        obtain ⟨wls, h', q', hloop, hwls, hvalid, hcontent', hsegs', htouches'⟩ :=
          ih hnodup₁ hfilled₁ hspare₁ (by omega)
        rw [hsegs] at hsegs' htouches'
        refine ⟨wl :: wls, h', q', ?_, ?_, hvalid, hcontent'.trans hcontent, hsegs',
          htouches.trans htouches'⟩
        · obtain ⟨x, xs, rfl⟩ := List.exists_cons_of_ne_nil hrest
          simp [appendLoop, hstep', hloop]
        · intro n hn
          rcases List.mem_cons.mp hn with rfl | hn
          · exact hwl
          · exact hwls n hn

/-- `append` gets segments from the pool, writes to its own and ends. -/
theorem append_spec {h : SegmentHeap length} {lent : List ℕ} {q : SegmentQueue}
    (hlen : 0 < length) (hl : Loans (· < h.made) h.free lent) (hnodup : q.segs.Nodup)
    (hmem : ∀ a ∈ q.segs, a ∈ lent) (hvalid : (q.view h).Valid length) (bytes : List UInt8) :
    ∃ wls h' q' lent' new, q.append h bytes = some (wls, h', q') ∧ (∀ wl ∈ wls, 0 < wl) ∧
      (q'.view h').Valid length ∧ (q'.view h').content = (q.view h).content ++ bytes ∧
      q'.segs = q.segs ++ new ∧ new.Nodup ∧ (∀ a ∈ new, a ∉ lent) ∧ (∀ a ∈ new, a ∈ lent') ∧
      (∀ a ∈ lent, a ∈ lent') ∧ Loans (· < h'.made) h'.free lent' ∧
      ∀ a ∈ lent, a ∉ q.segs → h'.objs a = h.objs a := by
  obtain ⟨lent', new, hsegs, hlends, hview⟩ := reserve_spec hl hmem bytes.length
  obtain ⟨full, last, spare, hfilled, hcontent, hspare⟩ := hvalid.reserve hlen bytes.length
  rw [← hview] at hfilled hcontent
  set h₁ := (q.reserve h bytes.length).1
  set q₁ := (q.reserve h bytes.length).2
  have hsegs₁ : q₁.segs = q.segs ++ new := by rw [hsegs]
  have hpos₁ : q₁.pos = q.pos := by rw [hsegs]
  have hnodup₁ : q₁.segs.Nodup := by
    rw [hsegs₁]
    refine hnodup.append hlends.nodup ?_
    intro a ha hnew
    exact hlends.notMem a hnew (hmem a ha)
  obtain ⟨wls, h', q', hloop, hwls, hvalid', hcontent', hsegs', htouches⟩ :=
    appendLoop_spec hnodup₁ hfilled (by rw [hpos₁]; exact hspare) (Nat.le_refl bytes.length)
  refine ⟨wls, h', q', lent', new, hloop, hwls, hvalid', ?_, hsegs'.trans hsegs₁, hlends.nodup,
    hlends.notMem, hlends.mem, hlends.kept, ?_, ?_⟩
  · rw [hcontent', hcontent]
  · rw [htouches.free_eq, htouches.made_eq]
    exact hlends.loans
  · intro a ha hout
    have hnew : a ∉ new := fun hnew ↦ hlends.notMem a hnew ha
    rw [htouches.others a (by rw [hsegs₁, List.mem_append]; tauto), hlends.others a hnew]

/-! ### The other calls -/

theorem rewindLoop_touches (h : SegmentHeap length) (segs : List ℕ) :
    Touches h segs (segs.foldl (fun h a ↦ h.set a (h.objs a).rewind) h) := by
  induction segs generalizing h with
  | nil => exact .refl
  | cons a segs ih =>
      have htouches := ih (h.set a (h.objs a).rewind)
      refine ⟨htouches.free_eq, htouches.made_eq, fun b hb ↦ ?_⟩
      obtain ⟨hne, hout⟩ := not_or.mp (mt List.mem_cons.mpr hb)
      exact (htouches.others b hout).trans (Function.update_of_ne hne _ _)

theorem contents_rewindLoop (h : SegmentHeap length) (segs : List ℕ) :
    contents (segs.foldl (fun h a ↦ h.set a (h.objs a).rewind) h) segs = segs.map fun _ ↦ [] := by
  -- a segment that is rewound stays so
  have hstays (segs : List ℕ) (h : SegmentHeap length) (a : ℕ) (ha : (h.objs a).get = []) :
      ((segs.foldl (fun h a ↦ h.set a (h.objs a).rewind) h).objs a).get = [] := by
    induction segs generalizing h with
    | nil => exact ha
    | cons b segs ih =>
        refine ih _ ?_
        by_cases hab : a = b
        · subst hab
          simp [SegmentHeap.set]
        · simpa [SegmentHeap.set, Function.update_of_ne hab] using ha
  induction segs generalizing h with
  | nil => rfl
  | cons a segs ih =>
      rw [contents, List.map_cons, List.map_cons, List.foldl_cons]
      refine congrArg₂ List.cons (hstays segs _ a ?_) (ih _)
      simp [SegmentHeap.set]

/-- On the contents, `transfer` is that of `SegmentBuffer`. -/
theorem transfer_spec {h : SegmentHeap length} {q : SegmentQueue} (hnodup : q.segs.Nodup) :
    q.segs = (q.transfer h).1 ++ (q.transfer h).2.2.segs ∧
      Touches h (q.transfer h).2.2.segs (q.transfer h).2.1 ∧
      (contents (q.transfer h).2.1 (q.transfer h).1, (q.transfer h).2.2.view (q.transfer h).2.1) =
        (q.view h).transfer length := by
  unfold transfer SegmentBuffer.transfer
  by_cases hpos : q.pos = 0
  · have hview : (q.view h).pos = 0 := hpos
    simp only [if_pos hpos, if_pos hview]
    exact ⟨rfl, .refl, rfl⟩
  · have hview : (q.view h).pos ≠ 0 := hpos
    simp only [if_neg hpos, if_neg hview]
    set n := (q.pos - 1) / length + 1 with hn
    have htouches := rewindLoop_touches h (q.segs.drop n)
    refine ⟨(List.take_append_drop n q.segs).symm, htouches, ?_⟩
    have hdisjoint : ∀ a ∈ q.segs.take n, a ∉ q.segs.drop n := by
      have hsplit := hnodup
      rw [← List.take_append_drop n q.segs] at hsplit
      exact fun a ha hmem ↦ (List.nodup_append'.mp hsplit).2.2 ha hmem
    have hgiven := contents_congr fun a ha ↦ htouches.others a (hdisjoint a ha)
    refine Prod.ext ?_ ?_
    · exact hgiven.trans List.map_take
    · refine congrArg (SegmentBuffer.mk · 0) ?_
      refine (contents_rewindLoop h (q.segs.drop n)).trans ?_
      simp only [view, contents, SegmentBuffer.getDataSeg, ← hn, ← List.map_drop, List.map_map]
      rfl

theorem at_spec {h : SegmentHeap length} {q : SegmentQueue} (hvalid : (q.view h).Valid length)
    {i : ℕ} {v : UInt8} (hi : (q.view h).content[i]? = some v) : q.at h i = some v := by
  have hlt : i < q.pos := by
    have hsize : q.pos = (q.view h).content.length := hvalid.size_eq
    rw [hsize]
    exact (List.getElem?_eq_some_iff.mp hi).1
  have hbyte := hvalid.getElem?_eq hi
  have hseg : (q.view h).segs[i / length]? = q.segs[i / length]?.map fun a ↦ (h.objs a).get :=
    List.getElem?_map
  rw [hseg] at hbyte
  cases ha : q.segs[i / length]? with
  | none => simp [ha] at hbyte
  | some a =>
      have hne : q.segs ≠ [] := by
        rintro hnil
        simp [hnil] at ha
      simp only [ha, Option.map_some, Option.bind_some] at hbyte
      rw [SegmentQueue.at, if_neg (Nat.not_le.mpr hlt), if_neg hne, ha, Option.map_some,
        Segment.getD_buf hbyte]

theorem release_eq (h : SegmentHeap length) (segs : List ℕ) :
    release h segs = { h with free := h.free ++ segs } := by
  unfold release
  induction segs generalizing h with
  | nil => simp
  | cons a segs ih => simp [ih, SegmentHeap.destroy]

end SegmentQueue

/-! ## All buffers -/

/-- The buffers; `out i` are the segments of the `i`-th transfer
until they are released. -/
structure SegmentQueues (length : ℕ) where
  heap : SegmentHeap length
  buf : ℕ → SegmentQueue
  out : ℕ → List ℕ
  sent : ℕ

inductive SendOp
  | append (k : ℕ) (bytes : List UInt8)
  | transfer (k : ℕ)
  | release (i : ℕ)

/-- The bytes appended and not transferred, and those of each transfer that is
not released. -/
structure SendQueues where
  pending : ℕ → List UInt8
  out : ℕ → List UInt8
  sent : ℕ

namespace SendQueues

def initial : SendQueues := ⟨fun _ ↦ [], fun _ ↦ [], 0⟩

def step (m : SendQueues) : SendOp → SendQueues
  | .append k bytes => { m with pending := Function.update m.pending k (m.pending k ++ bytes) }
  | .transfer k =>
      ⟨Function.update m.pending k [], Function.update m.out m.sent (m.pending k), m.sent + 1⟩
  | .release i => { m with out := Function.update m.out i [] }

end SendQueues

namespace SegmentQueues

variable {length : ℕ}

/-- Nothing is allocated; the memory holds anything. -/
def initial (memory : ℕ → Segment length) : SegmentQueues length :=
  ⟨⟨[], 0, memory⟩, fun _ ↦ ⟨[], 0⟩, fun _ ↦ [], 0⟩

/-- A call; `none` where it indexes segments out of range or does not end. -/
def step (s : SegmentQueues length) : SendOp → Option (SegmentQueues length)
  | .append k bytes => do
      let (_, heap, q) ← (s.buf k).append s.heap bytes
      return { s with heap, buf := Function.update s.buf k q }
  | .transfer k =>
      let (segs, heap, q) := (s.buf k).transfer s.heap
      some ⟨heap, Function.update s.buf k q, Function.update s.out s.sent segs, s.sent + 1⟩
  | .release i =>
      some { s with
        heap := SegmentQueue.release s.heap (s.out i)
        out := Function.update s.out i [] }

/-- Who has segments: a buffer, or the holder of a transfer. -/
def holds (s : SegmentQueues length) : ℕ ⊕ ℕ → List ℕ := Sum.elim (fun k ↦ (s.buf k).segs) s.out

/-- Every segment in use is in one place, and the contents are those of the
model. -/
structure Carries (s : SegmentQueues length) (m : SendQueues) (lent : List ℕ) : Prop where
  loans : Loans (· < s.heap.made) s.heap.free lent
  shares : Shares s.holds lent
  valid : ∀ k, ((s.buf k).view s.heap).Valid length
  pending : ∀ k, ((s.buf k).view s.heap).content = m.pending k
  out_eq : ∀ i, (SegmentQueue.contents s.heap (s.out i)).flatten = m.out i
  sent_eq : s.sent = m.sent
  unsent : ∀ i, s.sent ≤ i → s.out i = []

theorem carries_initial (memory : ℕ → Segment length) :
    (initial memory).Carries .initial [] := by
  refine ⟨?_, ?_, fun _ ↦ .inl rfl, fun _ ↦ rfl, fun _ ↦ rfl, rfl, fun _ _ ↦ rfl⟩
  · exact Loans.empty.congr fun a ↦ by simp [initial]
  · have hholds : (initial memory).holds = fun _ ↦ [] := by
      funext x
      cases x <;> rfl
    rw [hholds]
    exact .empty

variable {s : SegmentQueues length} {m : SendQueues} {lent : List ℕ}

theorem Carries.nodup (h : s.Carries m lent) (k : ℕ) : (s.buf k).segs.Nodup :=
  h.shares.nodup (.inl k)

theorem Carries.mem (h : s.Carries m lent) (k : ℕ) : ∀ a ∈ (s.buf k).segs, a ∈ lent :=
  h.shares.mem (.inl k)

/-- What a call on the buffer `k` may write to is not in the other buffers, nor
on its way. -/
theorem Carries.frame (h : s.Carries m lent) {heap : SegmentHeap length} {k : ℕ}
    (hothers : ∀ a ∈ lent, a ∉ (s.buf k).segs → heap.objs a = s.heap.objs a) :
    (∀ j ≠ k, (s.buf j).view heap = (s.buf j).view s.heap) ∧
      ∀ i, SegmentQueue.contents heap (s.out i) = SegmentQueue.contents s.heap (s.out i) := by
  constructor
  · intro j hj
    have hne : (Sum.inl k : ℕ ⊕ ℕ) ≠ .inl j := fun heq ↦ hj (Sum.inl.inj heq).symm
    have hsame := SegmentQueue.contents_congr fun a ha ↦
      hothers a (h.mem j a ha) (h.shares.notMem hne ha)
    exact congrArg (SegmentBuffer.mk · _) hsame
  · intro i
    have hne : (Sum.inl k : ℕ ⊕ ℕ) ≠ .inr i := Sum.inl_ne_inr
    exact SegmentQueue.contents_congr fun a ha ↦
      hothers a (h.shares.mem (.inr i) a ha) (h.shares.notMem hne ha)

theorem Carries.append (h : s.Carries m lent) (hlen : 0 < length) (k : ℕ) (bytes : List UInt8) :
    ∃ wls heap q lent', (s.buf k).append s.heap bytes = some (wls, heap, q) ∧
      (∀ wl ∈ wls, 0 < wl) ∧
      Carries { s with heap, buf := Function.update s.buf k q } (m.step (.append k bytes))
        lent' := by
  obtain ⟨wls, heap, q, lent', new, happend, hwls, hvalid, hcontent, hsegs, hnew, hout, hmem, hkept,
    hloans, hothers⟩ :=
      SegmentQueue.append_spec hlen h.loans (h.nodup k) (h.mem k) (h.valid k) bytes
  obtain ⟨hbufs, houts⟩ := h.frame hothers
  refine ⟨wls, heap, q, lent', happend, hwls, hloans, ?_, ?_, ?_, ?_, h.sent_eq, h.unsent⟩
  · have hholds : holds { s with heap, buf := Function.update s.buf k q } =
        Function.update s.holds (.inl k) (s.holds (.inl k) ++ new) := by
      funext x
      rcases x with j | i
      · by_cases hj : j = k
        · subst hj
          simp [holds, hsegs]
        · simp [holds, hj]
      · simp [holds]
    rw [hholds]
    exact h.shares.grow hnew hout hmem hkept
  · intro j
    by_cases hj : j = k
    · subst hj
      simpa using hvalid
    · simpa [hj, hbufs j hj] using h.valid j
  · intro j
    by_cases hj : j = k
    · subst hj
      simp [SendQueues.step, hcontent, h.pending]
    · simpa [SendQueues.step, hj, hbufs j hj] using h.pending j
  · intro i
    exact (congrArg List.flatten (houts i)).trans (h.out_eq i)

theorem Carries.transfer (h : s.Carries m lent) (k : ℕ) :
    ∃ s', s.step (.transfer k) = some s' ∧ s'.Carries (m.step (.transfer k)) lent := by
  obtain ⟨hsplit, htouches, hview⟩ := SegmentQueue.transfer_spec (h := s.heap) (h.nodup k)
  obtain ⟨hbytes, hvalid, hempty⟩ := (h.valid k).transfer
  set segs := ((s.buf k).transfer s.heap).1
  set heap := ((s.buf k).transfer s.heap).2.1
  set q := ((s.buf k).transfer s.heap).2.2
  have hgiven : SegmentQueue.contents heap segs =
      (((s.buf k).view s.heap).transfer length).1 := congrArg Prod.fst hview
  have hleft : q.view heap = (((s.buf k).view s.heap).transfer length).2 :=
    congrArg Prod.snd hview
  have hothers (a : ℕ) (_ : a ∈ lent) (ha : a ∉ (s.buf k).segs) :
      heap.objs a = s.heap.objs a := by
    refine htouches.others a fun hmem ↦ ha ?_
    rw [hsplit]
    exact List.mem_append_right _ hmem
  obtain ⟨hbufs, houts⟩ := h.frame hothers
  refine ⟨_, rfl, ?_, ?_, ?_, ?_, ?_, ?_, ?_⟩
  · change Loans (· < heap.made) heap.free lent
    rw [htouches.made_eq, htouches.free_eq]
    exact h.loans
  · have hholds : holds ⟨heap, Function.update s.buf k q, Function.update s.out s.sent segs,
        s.sent + 1⟩ =
        Function.update (Function.update s.holds (.inl k) q.segs) (.inr s.sent) segs := by
      funext x
      rcases x with j | i
      · rw [Function.update_of_ne Sum.inl_ne_inr]
        by_cases hj : j = k
        · subst hj
          simp only [holds, Sum.elim_inl, Function.update_self]
        · rw [Function.update_of_ne fun heq ↦ hj (Sum.inl.inj heq)]
          simp only [holds, Sum.elim_inl, Function.update_of_ne hj]
      · by_cases hi : i = s.sent
        · subst hi
          simp only [holds, Sum.elim_inr, Function.update_self]
        · rw [Function.update_of_ne fun heq ↦ hi (Sum.inr.inj heq),
            Function.update_of_ne Sum.inr_ne_inl]
          simp only [holds, Sum.elim_inr, Function.update_of_ne hi]
    change Shares (holds ⟨heap, Function.update s.buf k q, Function.update s.out s.sent segs,
      s.sent + 1⟩) lent
    rw [hholds]
    exact h.shares.move hsplit (h.unsent s.sent (Nat.le_refl _)) Sum.inr_ne_inl
  · intro j
    change ((Function.update s.buf k q j).view heap).Valid length
    by_cases hj : j = k
    · subst hj
      rw [Function.update_self, hleft]
      exact hvalid
    · rw [Function.update_of_ne hj, hbufs j hj]
      exact h.valid j
  · intro j
    change ((Function.update s.buf k q j).view heap).content = Function.update m.pending k [] j
    by_cases hj : j = k
    · subst hj
      rw [Function.update_self, Function.update_self, hleft]
      exact hempty
    · rw [Function.update_of_ne hj, Function.update_of_ne hj, hbufs j hj]
      exact h.pending j
  · intro i
    change (SegmentQueue.contents heap (Function.update s.out s.sent segs i)).flatten =
      Function.update m.out m.sent (m.pending k) i
    rw [← h.sent_eq]
    by_cases hi : i = s.sent
    · subst hi
      rw [Function.update_self, Function.update_self, hgiven, hbytes, h.pending]
    · rw [Function.update_of_ne hi, Function.update_of_ne hi, houts]
      exact h.out_eq i
  · exact congrArg (· + 1) h.sent_eq
  · intro i hi
    change s.sent + 1 ≤ i at hi
    change Function.update s.out s.sent segs i = []
    rw [Function.update_of_ne (by omega)]
    exact h.unsent i (by omega)

theorem Carries.release (h : s.Carries m lent) (i : ℕ) :
    ∃ s' lent', s.step (.release i) = some s' ∧ s'.Carries (m.step (.release i)) lent' := by
  have hnodup : (s.out i).Nodup := h.shares.nodup (.inr i)
  have hmem : ∀ a ∈ s.out i, a ∈ lent := h.shares.mem (.inr i)
  have hobjs : (SegmentQueue.release s.heap (s.out i)).objs = s.heap.objs := by
    rw [SegmentQueue.release_eq]
  have hview (q : SegmentQueue) :
      q.view (SegmentQueue.release s.heap (s.out i)) = q.view s.heap := by
    simp only [SegmentQueue.view, SegmentQueue.contents, hobjs]
  refine ⟨_, lent.filter (· ∉ s.out i), rfl, ?_, ?_, ?_, ?_, ?_, h.sent_eq, ?_⟩
  · rw [SegmentQueue.release_eq]
    exact h.loans.giveBackAll hnodup hmem
  · have hholds : holds { s with
        heap := SegmentQueue.release s.heap (s.out i)
        out := Function.update s.out i [] } = Function.update s.holds (.inr i) [] := by
      funext x
      rcases x with j | j
      · simp [holds]
      · by_cases hj : j = i
        · subst hj
          simp [holds]
        · simp [holds, hj]
    rw [hholds]
    exact h.shares.drop (.inr i)
  · intro k
    rw [hview]
    exact h.valid k
  · intro k
    rw [hview]
    exact h.pending k
  · intro j
    change (SegmentQueue.contents _ (Function.update s.out i [] j)).flatten =
      Function.update m.out i [] j
    by_cases hj : j = i
    · subst hj
      rw [Function.update_self, Function.update_self]
      rfl
    · rw [Function.update_of_ne hj, Function.update_of_ne hj, SegmentQueue.contents, hobjs]
      exact h.out_eq j
  · intro j hj
    change Function.update s.out i [] j = []
    by_cases hji : j = i
    · subst hji
      exact Function.update_self _ _ _
    · rw [Function.update_of_ne hji]
      exact h.unsent j hj

theorem Carries.step (h : s.Carries m lent) (hlen : 0 < length) (op : SendOp) :
    ∃ s' lent', s.step op = some s' ∧ s'.Carries (m.step op) lent' := by
  cases op with
  | append k bytes =>
      obtain ⟨wls, heap, q, lent', happend, -, hcarries⟩ := h.append hlen k bytes
      refine ⟨_, lent', ?_, hcarries⟩
      simp [SegmentQueues.step, happend]
  | transfer k =>
      obtain ⟨s', hstep, hcarries⟩ := h.transfer k
      exact ⟨s', lent, hstep, hcarries⟩
  | release i => exact h.release i

theorem Carries.run (h : s.Carries m lent) (hlen : 0 < length) (ops : List SendOp) :
    ∃ s' lent', ops.foldlM SegmentQueues.step s = some s' ∧
      s'.Carries (ops.foldl SendQueues.step m) lent' := by
  induction ops generalizing s m lent with
  | nil => exact ⟨s, lent, rfl, h⟩
  | cons op ops ih =>
      obtain ⟨s₁, lent₁, hstep, hcarries⟩ := h.step hlen op
      obtain ⟨s', lent', hrun, hlast⟩ := ih hcarries
      refine ⟨s', lent', ?_, hlast⟩
      rw [List.foldlM_cons, hstep]
      exact hrun

end SegmentQueues

/-- Whatever the buffers do in turn, no call fails, and then: each buffer has
the bytes appended since its last transfer, in size, by index and in what the next
transfer hands out; that hands out no empty segment, none twice and none that
another transfer has; each transfer that is not released has its bytes still; and an
append ends, each segment taking something. -/
theorem segments_are_queues {length : ℕ} (hlen : 0 < length) (memory : ℕ → Segment length)
    (ops : List SendOp) :
    ∃ s, ops.foldlM SegmentQueues.step (.initial memory) = some s ∧
      let m := ops.foldl SendQueues.step .initial
      (∀ k, (s.buf k).size = (m.pending k).length ∧
        (∀ i v, (m.pending k)[i]? = some v → (s.buf k).at s.heap i = some v) ∧
        let t := (s.buf k).transfer s.heap
        (SegmentQueue.contents t.2.1 t.1).flatten = m.pending k ∧
          (∀ bytes ∈ SegmentQueue.contents t.2.1 t.1, bytes ≠ []) ∧ t.1.Nodup ∧
          ∀ i, ∀ a ∈ s.out i, a ∉ t.1) ∧
      (∀ i, (SegmentQueue.contents s.heap (s.out i)).flatten = m.out i) ∧
      ∀ k bytes, ∃ wls heap q,
        (s.buf k).append s.heap bytes = some (wls, heap, q) ∧ ∀ wl ∈ wls, 0 < wl := by
  obtain ⟨s, lent, hrun, h⟩ := (SegmentQueues.carries_initial memory).run hlen ops
  refine ⟨s, hrun, ?_, h.out_eq, ?_⟩
  · intro k
    obtain ⟨hsplit, -, hview⟩ := SegmentQueue.transfer_spec (h := s.heap) (h.nodup k)
    have hgiven : SegmentQueue.contents ((s.buf k).transfer s.heap).2.1
        ((s.buf k).transfer s.heap).1 = (((s.buf k).view s.heap).transfer length).1 :=
      congrArg Prod.fst hview
    obtain ⟨hbytes, -, -⟩ := (h.valid k).transfer
    refine ⟨(h.valid k).size_eq.trans (congrArg List.length (h.pending k)), ?_, ?_, ?_, ?_, ?_⟩
    · intro i v hi
      rw [← h.pending k] at hi
      exact SegmentQueue.at_spec (h.valid k) hi
    · rw [hgiven, hbytes, h.pending]
    · rw [hgiven]
      exact (h.valid k).transfer_ne_nil
    · have hnodup := h.nodup k
      rw [hsplit] at hnodup
      exact hnodup.of_append_left
    · intro i a ha hmem
      have hbuf : a ∈ (s.buf k).segs := by
        rw [hsplit]
        exact List.mem_append_left _ hmem
      exact h.shares.notMem (Sum.inl_ne_inr : Sum.inl k ≠ Sum.inr i) ha hbuf
  · intro k bytes
    obtain ⟨wls, heap, q, -, happend, hwls, -⟩ := h.append hlen k bytes
    exact ⟨wls, heap, q, happend, hwls⟩

theorem segments_are_queues_boundary :
    ∃ s, List.foldlM SegmentQueues.step (.initial fun _ ↦ .zero 2)
      [.append 0 [1, 2, 3, 4], .transfer 0, .append 0 [5], .release 0, .append 1 [6]] = some s :=
  (segments_are_queues (by decide) (fun _ ↦ .zero 2)
    [.append 0 [1, 2, 3, 4], .transfer 0, .append 0 [5], .release 0, .append 1 [6]]).imp
      fun _ h ↦ h.1

end WiseKernel.Net
