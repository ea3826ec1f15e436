import Mathlib.Data.List.TakeWhile
import WiseKernel.Packing.Wire

/-!
# Unpacking what was packed

`unpack` at the encoding of a value gives the value back and moves the read
cursor over exactly the encoding, whatever stands before and behind it.  The
proof follows the type: every overload of `unpack` is shown to undo the bytes
the matching overload of `pack` appends.
-/

namespace WiseKernel.Packing

open WiseKernel.Lib WiseKernel.Lib.Call WiseKernel.Net

/-! ## Values that come back -/

section

variable (less : (t : Ty) → t.Val → t.Val → Bool)

mutual

/-- Strings hold no zero byte, wide strings are UTF-16, and the entries of a
map are in the order of their keys. -/
def Ty.WellFormed : (t : Ty) → t.Val → Prop
  | .string, s => ∀ b ∈ (show List UInt8 from s), b ≠ 0
  | .wstring, s => ∃ cs, s = utf16 cs
  | .vector t, vec => ∀ x ∈ (show List t.Val from vec), t.WellFormed x
  | .map k v, m => (show List (k.Val × v.Val) from m).Pairwise
      (fun a b ↦ less k a.1 b.1 = true) ∧
        ∀ kv ∈ (show List (k.Val × v.Val) from m), k.WellFormed kv.1 ∧ v.WellFormed kv.2
  | .struct fs, v => fs.WellFormed v
  | .scalar _, _ | .bool, _ | .enum _, _ | .date, _ | .timestamp, _ => True

def Fields.WellFormed : (fs : Fields) → fs.Val → Prop
  | .nil, _ => True
  | .cons t fs, (x, xs) => t.WellFormed x ∧ fs.WellFormed xs

end

end

/-! ## Reading an encoding -/

namespace BitsPacker

/-- `bytes` stand at the read cursor. -/
def At (p : BitsPacker) (bytes : List UInt8) : Prop :=
  ∃ post, p.buf.bytes.drop p.buf.readPos = bytes ++ post

def skip (p : BitsPacker) (n : ℕ) : BitsPacker :=
  { p with buf := { p.buf with readPos := p.buf.readPos + n } }

@[simp] theorem skip_isValid (p : BitsPacker) (n : ℕ) : (p.skip n).isValid = p.isValid := rfl

@[simp] theorem skip_wireLe (p : BitsPacker) (n : ℕ) : (p.skip n).wireLe = p.wireLe := rfl

theorem skip_skip (p : BitsPacker) (m n : ℕ) : (p.skip m).skip n = p.skip (m + n) := by
  simp [skip, Nat.add_assoc]

theorem At.left {p : BitsPacker} {xs ys : List UInt8} (h : p.At (xs ++ ys)) : p.At xs := by
  obtain ⟨post, hpost⟩ := h
  exact ⟨ys ++ post, by rw [hpost, List.append_assoc]⟩

theorem At.right {p : BitsPacker} {xs ys : List UInt8} (h : p.At (xs ++ ys)) :
    (p.skip xs.length).At ys := by
  obtain ⟨post, hpost⟩ := h
  refine ⟨post, ?_⟩
  change p.buf.bytes.drop (p.buf.readPos + xs.length) = _
  rw [← List.drop_drop, hpost, List.append_assoc, List.drop_left]

end BitsPacker

/-- At `bytes` the call succeeds, leaves `a` in its target and moves the read
cursor over them. -/
def Unpacks {α : Type} (c : PackerCall α) (bytes : Bool → List UInt8) (a : α) : Prop :=
  ∀ p : BitsPacker, p.isValid = true → p.At (bytes p.wireLe) →
    Returns c p a (p.skip (bytes p.wireLe).length)

section

variable {α β : Type} {c : PackerCall α} {next : α → PackerCall β}
  {bytes bytes' : Bool → List UInt8} {a : α} {b : β}

theorem unpacks_ret (a : α) : Unpacks (ret a) (fun _ ↦ []) a :=
  fun _ hp _ ↦ returns_ret hp

theorem Unpacks.guarded (h : Unpacks c bytes a) (a₀ : α) : Unpacks (guarded a₀ c) bytes a :=
  fun p hp hat ↦ (h p hp hat).guarded hp a₀

theorem Unpacks.assigned (h : Unpacks c bytes a) : Unpacks (assigned c) bytes a :=
  fun p hp hat ↦ (h p hp hat).assigned hp

theorem Unpacks.mapValue (h : Unpacks c bytes a) (f : Bool → α → β) :
    Unpacks (mapValue f c) bytes (f true a) :=
  fun p hp hat ↦ (h p hp hat).mapValue f

theorem Unpacks.check (h : Unpacks c bytes a) (stop : α → β)
    (h' : Unpacks (next a) bytes' b) :
    Unpacks (check c stop next) (fun le ↦ bytes le ++ bytes' le) b := by
  intro p hp hat
  have hrest := h' (p.skip (bytes p.wireLe).length) hp hat.right
  rw [p.skip_skip] at hrest
  rw [List.length_append]
  exact (h p hp hat.left).check stop hrest

theorem Unpacks.ignoring (h : Unpacks c bytes a) (h' : Unpacks (next a) bytes' b) :
    Unpacks (ignoring c next) (fun le ↦ bytes le ++ bytes' le) b := by
  intro p hp hat
  have hrest := h' (p.skip (bytes p.wireLe).length) hp hat.right
  rw [p.skip_skip] at hrest
  rw [List.length_append]
  exact (h p hp hat.left).ignoring hrest

theorem Unpacks.last (h : Unpacks c bytes a) (stop : α → β) (f : α → β) :
    Unpacks (Call.check c stop fun x ↦ ret (f x)) bytes (f a) := by
  have hc : Unpacks (Call.check c stop fun x ↦ ret (f x)) (fun le ↦ bytes le ++ []) (f a) :=
    h.check stop (unpacks_ret (f a))
  simpa using hc

end

theorem unpacks_read (bytes : List UInt8) : Unpacks (read bytes.length) (fun _ ↦ bytes) bytes := by
  intro p hp hat
  obtain ⟨post, hpost⟩ := hat
  have hdrop := congrArg List.length hpost
  simp only [List.length_drop, List.length_append] at hdrop
  cases bytes with
  | nil => exact ⟨rfl, rfl, by simp [read, ResizeBuffer.read, BitsPacker.skip, ← hp]⟩
  | cons b bytes =>
      have hle : p.buf.readPos + (b :: bytes).length ≤ p.buf.size := by
        simp only [ResizeBuffer.size, List.length_cons] at hdrop ⊢
        omega
      have hwindow : window p.buf.bytes p.buf.readPos (b :: bytes).length = b :: bytes := by
        rw [window, hpost, List.take_left]
      refine ⟨?_, ?_, ?_⟩
      · simp only [read, ResizeBuffer.read_of_le hle]
      · simp only [read, ResizeBuffer.read_of_le hle, hwindow]
      · simp only [read, ResizeBuffer.read_of_le hle, BitsPacker.skip]
        rw [← hp]

/-! ## Scalars -/

theorem toNat_lt_pow {s : Scalar} (v : s.Val) : v.toNat < 256 ^ s.size := by
  have h := v.isLt
  rwa [Nat.pow_mul] at h

theorem ofNat_leValue {s : Scalar} (v : s.Val) :
    (BitVec.ofNat _ (leValue (leBytes s.size v.toNat)) : s.Val) = v := by
  rw [leValue_leBytes, Nat.mod_eq_of_lt (toNat_lt_pow v), BitVec.ofNat_toNat,
    BitVec.setWidth_eq]

theorem length_scalarBytes (le : Bool) {s : Scalar} (v : s.Val) :
    (scalarBytes le v).length = s.size := by
  cases le <;> simp [scalarBytes]

/-- Reading the bytes back, swapped once more where the orders differ. -/
theorem ofMemory_scalarBytes {s : Scalar} (v : s.Val) (hostLe : Bool) :
    (ofMemory hostLe (scalarBytes (hostLe == true) v) : s.Val) = v ∧
      swapEndian (ofMemory hostLe (scalarBytes (hostLe == false) v) : s.Val) = v := by
  have hswap : swapEndian (swapEndian v) = v := by
    rw [swapEndian, leBytes_swapEndian, List.reverse_reverse, ofNat_leValue]
  cases hostLe with
  | true =>
      refine ⟨ofNat_leValue v, ?_⟩
      exact hswap
  | false =>
      constructor
      · change BitVec.ofNat _ (leValue (leBytes s.size v.toNat).reverse.reverse) = v
        rw [List.reverse_reverse, ofNat_leValue]
      · exact hswap

theorem unpacks_unpackScalar {s : Scalar} (v old : s.Val) :
    Unpacks (unpackScalar old) (fun le ↦ scalarBytes le v) v := by
  apply Unpacks.guarded
  intro p hp hat
  have hread := unpacks_read (scalarBytes p.wireLe v) p hp hat
  rw [length_scalarBytes] at hread
  obtain ⟨hdirect, hswapped⟩ := ofMemory_scalarBytes v p.hostLe
  rw [length_scalarBytes]
  cases hle : p.isLe with
  | true =>
      have hvalue : (ofMemory p.hostLe (scalarBytes p.wireLe v) : s.Val) = v := by
        rw [BitsPacker.wireLe, hle, hdirect]
      have hresult := hread.mapValue fun ok bytes ↦
        if ok then (ofMemory p.hostLe bytes : s.Val) else old
      simpa [Returns, hle, hvalue] using hresult
  | false =>
      have hvalue : swapEndian (ofMemory p.hostLe (scalarBytes p.wireLe v) : s.Val) = v := by
        rw [BitsPacker.wireLe, hle, hswapped]
      have hresult := hread.mapValue fun ok bytes ↦
        if ok then swapEndian (ofMemory p.hostLe bytes : s.Val) else old
      simpa [Returns, hle, hvalue] using hresult

theorem unpacks_unpackLen {len : ℕ} (h : len ≤ maxContainerSize) :
    Unpacks unpackLen (fun le ↦ lenBytes le len) len := by
  have hlen : (BitVec.ofNat (8 * Scalar.u16.size) len).toNat = len := by
    rw [BitVec.toNat_ofNat]
    exact Nat.mod_eq_of_lt (Nat.lt_of_le_of_lt h (by decide))
  have hscalar := (unpacks_unpackScalar (s := .u16) (BitVec.ofNat _ len) 0).mapValue
    fun _ v ↦ v.toNat
  rw [hlen] at hscalar
  exact hscalar

theorem unpacks_unpackEnum (v old : Scalar.i32.Val) :
    Unpacks (unpackEnum old) (fun le ↦ scalarBytes le (s := .i32) v) v :=
  ((unpacks_unpackScalar (s := .i32) v 0).assigned.last _ _).guarded old

theorem unpacks_unpackBool (b old : Bool) :
    Unpacks (unpackBool old) (fun le ↦ boolBytes le b) b := by
  have hval : decide (0 < (if b then 1 else 0 : Scalar.u8.Val)) = b := by cases b <;> rfl
  have h := (unpacks_unpackScalar (s := .u8) (if b then 1 else 0) 0).assigned.last
    (fun _ ↦ old) fun val ↦ decide (0 < val)
  rw [hval] at h
  exact h.guarded old

theorem unpacks_unpackDate (d old : Date) :
    Unpacks (unpackDate old) (fun le ↦ dateBytes le d) d := by
  apply Unpacks.guarded
  refine (unpacks_unpackScalar d.year old.year).check _ ?_
  refine (unpacks_unpackScalar d.month old.month).check _ ?_
  exact (unpacks_unpackScalar d.day old.day).last _ _

theorem unpacks_unpackTimestamp (t old : Timestamp) :
    Unpacks (unpackTimestamp old) (fun le ↦ timestampBytes le t) t := by
  apply Unpacks.guarded
  refine (unpacks_unpackScalar t.year old.year).check _ ?_
  refine (unpacks_unpackScalar t.month old.month).check _ ?_
  refine (unpacks_unpackScalar t.day old.day).check _ ?_
  refine (unpacks_unpackScalar t.hour old.hour).check _ ?_
  refine (unpacks_unpackScalar t.min old.min).check _ ?_
  refine (unpacks_unpackScalar t.sec old.sec).check _ ?_
  exact (unpacks_unpackScalar t.fract old.fract).last _ _

/-! ## Strings and containers -/

theorem cString_eq_self {s : List UInt8} (h : ∀ b ∈ s, b ≠ 0) : cString s = s := by
  apply List.takeWhile_eq_self_iff.mpr
  intro b hb
  simpa using h b hb

theorem unpacks_unpackString {s : List UInt8} (hfits : stringFits s) (h : ∀ b ∈ s, b ≠ 0) :
    Unpacks (unpackString []) (fun le ↦ stringBytes le s) s := by
  have hsize : s.length ≤ maxContainerSize := Nat.le_trans hfits (by decide)
  apply Unpacks.guarded
  refine (unpacks_unpackLen hsize).assigned.ignoring ?_
  rw [if_neg (Nat.not_lt.mpr hfits)]
  cases s with
  | nil => exact unpacks_ret []
  | cons b s =>
      have hbytes : Unpacks (unpackBytes (b :: s).length) (fun _ ↦ b :: s) (b :: s) :=
        (unpacks_read (b :: s)).guarded []
      have hlast := hbytes.assigned.last (fun _ ↦ []) cString
      rw [if_pos (by simp)]
      rw [cString_eq_self h] at hlast
      exact hlast

section

variable {α β : Type} {unpack : α → PackerCall α} {encode : Bool → α → List UInt8} {init : α}

theorem unpacks_unpackEach {vec : List α}
    (h : ∀ x ∈ vec, Unpacks (unpack init) (fun le ↦ encode le x) x) :
    Unpacks (unpackEach unpack (List.replicate vec.length init))
      (fun le ↦ vec.flatMap (encode le)) vec := by
  induction vec with
  | nil => exact unpacks_ret []
  | cons x xs ih =>
      have htail := ih fun y hy ↦ h y (by simp [hy])
      exact (h x (by simp)).assigned.check _ (htail.mapValue fun _ ys ↦ x :: ys)

theorem unpacks_unpackVector {vec : List α} (hlen : vec.length ≤ maxContainerSize)
    (h : ∀ x ∈ vec, Unpacks (unpack init) (fun le ↦ encode le x) x) :
    Unpacks (unpackVector unpack init []) (fun le ↦ vectorBytes le (encode le) vec) vec := by
  apply Unpacks.guarded
  refine (unpacks_unpackLen hlen).assigned.check _ ?_
  rw [if_neg (Nat.not_lt.mpr hlen)]
  have hnew : resize [] vec.length init = List.replicate vec.length init := by simp [resize]
  rw [hnew]
  exact unpacks_unpackEach h

variable {lt : α → α → Bool} {unpackKey : PackerCall α} {unpackValue : PackerCall β}
  {key : Bool → α → List UInt8} {value : Bool → β → List UInt8}

theorem emplace_of_lt {k : α} {m : List (α × β)} (v : β) (h : ∀ kv ∈ m, lt kv.1 k = true) :
    emplace lt k v m = (true, m ++ [(k, v)]) := by
  induction m with
  | nil => rfl
  | cons kv m ih =>
      have htail := ih fun kv' hkv ↦ h kv' (by simp [hkv])
      simp [emplace, h kv (by simp), htail]

/-- The entries arrive in the order of their keys, so that every one is new. -/
theorem unpacks_unpackPairs {m : List (α × β)}
    (h : ∀ kv ∈ m, Unpacks unpackKey (fun le ↦ key le kv.1) kv.1 ∧
      Unpacks unpackValue (fun le ↦ value le kv.2) kv.2) :
    ∀ done : List (α × β), (done ++ m).Pairwise (fun a b ↦ lt a.1 b.1 = true) →
      Unpacks (unpackPairs lt unpackKey unpackValue m.length done)
        (fun le ↦ m.flatMap (pairBytes (key le) (value le))) (done ++ m) := by
  induction m with
  | nil =>
      intro done _
      rw [List.append_nil]
      exact unpacks_ret done
  | cons kv m ih =>
      intro done hsorted
      obtain ⟨hk, hv⟩ := h kv (by simp)
      have hnew : emplace lt kv.1 kv.2 done = (true, done ++ [kv]) :=
        emplace_of_lt kv.2 fun kv' hkv ↦
          (List.pairwise_append.mp hsorted).2.2 kv' hkv kv (by simp)
      have hemplace : Unpacks (assigned fun p ↦ ⟨(emplace lt kv.1 kv.2 done).1,
          (emplace lt kv.1 kv.2 done).2, p, []⟩) (fun _ ↦ []) (done ++ [kv]) := by
        rw [hnew]
        exact Unpacks.assigned fun p _ _ ↦ ⟨rfl, rfl, rfl⟩
      have htail := ih (fun y hy ↦ h y (by simp [hy])) (done ++ [kv]) (by simpa using hsorted)
      rw [List.append_assoc, List.singleton_append] at htail
      simp only [List.flatMap_cons, pairBytes, List.append_assoc]
      exact hk.assigned.check _ (hv.assigned.check _ (hemplace.check id htail))

theorem unpacks_unpackMap {m : List (α × β)} (hlen : m.length ≤ maxContainerSize)
    (hsorted : m.Pairwise fun a b ↦ lt a.1 b.1 = true)
    (h : ∀ kv ∈ m, Unpacks unpackKey (fun le ↦ key le kv.1) kv.1 ∧
      Unpacks unpackValue (fun le ↦ value le kv.2) kv.2) :
    Unpacks (unpackMap lt unpackKey unpackValue [])
      (fun le ↦ vectorBytes le (pairBytes (key le) (value le)) m) m := by
  apply Unpacks.guarded
  refine (unpacks_unpackLen hlen).assigned.check _ ?_
  rw [if_neg (Nat.not_lt.mpr hlen)]
  exact unpacks_unpackPairs h [] hsorted

end

/-! ## Wide strings -/

theorem unpacks_unpackOctets {u8s : List UInt8} (h : u8s.length ≤ maxContainerSize) :
    Unpacks (unpackVector unpackOctet 0 []) (fun le ↦ stringBytes le u8s) u8s := by
  have hoctet (b : UInt8) : Unpacks (unpackOctet 0)
      (fun le ↦ scalarBytes le (s := .u8) b.toBitVec) b :=
    (unpacks_unpackScalar (s := .u8) b.toBitVec _).mapValue fun _ v ↦ UInt8.ofBitVec v
  have hvector := unpacks_unpackVector h fun b _ ↦ hoctet b
  simp only [vectorBytes, flatMap_octets] at hvector
  exact hvector

theorem unpacks_unpackWstring {cs : List Char} (h : wstringFits (utf16 cs)) :
    Unpacks (unpackWstring []) (fun le ↦ wstringBytes le (utf16 cs)) (utf16 cs) := by
  obtain ⟨hlen, -, hsize⟩ := h
  rw [Utf8.utf16to8_utf16] at hsize
  have hbytes :
      (fun le ↦ wstringBytes le (utf16 cs)) = fun le ↦ stringBytes le (utf8 cs) ++ [] := by
    funext le
    rw [wstringBytes, Utf8.utf16to8_utf16, List.append_nil]
  have hconvert : Unpacks (convert8 (utf8 cs) []) (fun _ ↦ []) (utf16 cs) := by
    simp only [convert8, Utf8.utf8to16_utf8, if_true, List.nil_append]
    exact unpacks_ret _
  rw [hbytes]
  apply Unpacks.guarded
  refine (unpacks_unpackOctets hsize).assigned.check _ ?_
  have hlast : Unpacks (if maxStringSize < (utf16 cs).length then fail (utf16 cs)
      else ret (utf16 cs)) (fun _ ↦ []) (utf16 cs) := by
    rw [if_neg (Nat.not_lt.mpr hlen)]
    exact unpacks_ret _
  exact hconvert.assigned.check id hlast

/-! ## All types -/

section

variable (less : (t : Ty) → t.Val → t.Val → Bool)

mutual

theorem Ty.unpacks_unpack : (t : Ty) → (v old : t.Val) → t.Fits v → t.WellFormed less v →
    t.Fresh old → Unpacks (t.unpack less old) (fun le ↦ t.encode le v) v
  | .scalar _, v, old, _, _, _ => unpacks_unpackScalar v old
  | .bool, v, old, _, _, _ => unpacks_unpackBool v old
  | .enum _, v, old, _, _, _ => unpacks_unpackEnum v old
  | .string, v, old, hfits, hwf, hold => by
      subst hold
      exact unpacks_unpackString hfits hwf
  | .wstring, v, old, hfits, hwf, hold => by
      obtain ⟨cs, rfl⟩ := hwf
      subst hold
      exact unpacks_unpackWstring hfits
  | .date, v, old, _, _, _ => unpacks_unpackDate v old
  | .timestamp, v, old, _, _, _ => unpacks_unpackTimestamp v old
  | .vector t, v, old, hfits, hwf, hold => by
      subst hold
      exact unpacks_unpackVector hfits.1 fun x hx ↦
        t.unpacks_unpack x t.init (hfits.2 x hx) (hwf x hx) t.fresh_init
  | .map k v, m, old, hfits, hwf, hold => by
      subst hold
      exact unpacks_unpackMap hfits.1 hwf.1 fun kv hkv ↦
        ⟨k.unpacks_unpack kv.1 k.init (hfits.2 kv hkv).1 (hwf.2 kv hkv).1 k.fresh_init,
          v.unpacks_unpack kv.2 v.init (hfits.2 kv hkv).2 (hwf.2 kv hkv).2 v.fresh_init⟩
  | .struct fs, v, old, hfits, hwf, hold =>
      (fs.unpacks_unpack v old hfits hwf hold).guarded old

theorem Fields.unpacks_unpack : (fs : Fields) → (v old : fs.Val) → fs.Fits v →
    fs.WellFormed less v → fs.Fresh old →
      Unpacks (fs.unpack less old) (fun le ↦ fs.encode le v) v
  | .nil, _, _, _, _, _ => unpacks_ret ()
  | .cons t fs, (x, xs), (y, ys), hfits, hwf, hold =>
      (t.unpacks_unpack x y hfits.1 hwf.1 hold.1).ignoring
        ((fs.unpacks_unpack xs ys hfits.2 hwf.2 hold.2).mapValue fun _ zs ↦ (x, zs))

end

/-! ## Main result -/

/-- Whatever stands in the buffer before and behind it, a value that `pack` takes
comes back into a default-constructed variable as it was, from exactly the bytes
it was packed into. -/
def Ty.Returning (t : Ty) (pack : t.Val → PackerCall Unit)
    (unpack : t.Val → PackerCall t.Val) : Prop :=
  ∀ v old : t.Val, t.WellFormed less v → t.Fresh old → ∀ (p : BitsPacker) (post : List UInt8),
    (pack v p).ok = true →
      ∃ appended, (pack v p).state.buf.bytes = p.buf.bytes ++ appended ∧
        let q : BitsPacker := ⟨⟨(pack v p).state.buf.bytes ++ post, p.buf.size⟩, p.hostLe,
          p.isLe, true⟩
        let r := unpack old q
        r.ok = true ∧ r.value = v ∧ r.state.buf = ⟨q.buf.bytes, p.buf.size + appended.length⟩

/-- There are functions for the type, and the one undoes the other. -/
def Ty.RoundTrips (t : Ty) : Prop :=
  ∃ pack unpack, t.packFunction = some pack ∧ t.unpackFunction less = some unpack ∧
    t.Returning less pack unpack

end

end WiseKernel.Packing
