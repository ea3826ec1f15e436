import WiseKernel.Packing.Poison

/-!
# The wire format

What a value is on the wire, apart from how a packer gets it there: the bytes
of every type and the values within the size limits.  `pack` appends exactly
these bytes, and succeeds exactly on these values.
-/

namespace WiseKernel.Packing

open WiseKernel.Lib WiseKernel.Lib.Call WiseKernel.Net

/-! ## Bytes of a value -/

/-- A scalar, least significant byte first or last. -/
def scalarBytes (le : Bool) {s : Scalar} (v : s.Val) : List UInt8 :=
  if le then leBytes s.size v.toNat else (leBytes s.size v.toNat).reverse

def lenBytes (le : Bool) (len : ℕ) : List UInt8 :=
  scalarBytes le (s := .u16) (BitVec.ofNat _ len)

def boolBytes (le : Bool) (b : Bool) : List UInt8 :=
  scalarBytes le (s := .u8) (if b then 1 else 0)

def dateBytes (le : Bool) (d : Date) : List UInt8 :=
  scalarBytes le (s := .i16) d.year ++ (scalarBytes le (s := .i16) d.month ++
    scalarBytes le (s := .i16) d.day)

def timestampBytes (le : Bool) (t : Timestamp) : List UInt8 :=
  scalarBytes le (s := .i16) t.year ++ (scalarBytes le (s := .i16) t.month ++
    (scalarBytes le (s := .i16) t.day ++ (scalarBytes le (s := .i16) t.hour ++
      (scalarBytes le (s := .i16) t.min ++ (scalarBytes le (s := .i16) t.sec ++
        scalarBytes le (s := .i32) t.fract)))))

/-- The length in octets and the octets. -/
def stringBytes (le : Bool) (s : List UInt8) : List UInt8 := lenBytes le s.length ++ s

def wstringBytes (le : Bool) (s : List UInt16) : List UInt8 :=
  stringBytes le (Utf8.utf16to8 s).out

def vectorBytes {α : Type} (le : Bool) (encode : α → List UInt8) (vec : List α) : List UInt8 :=
  lenBytes le vec.length ++ vec.flatMap encode

def pairBytes {α β : Type} (key : α → List UInt8) (value : β → List UInt8) (kv : α × β) :
    List UInt8 := key kv.1 ++ value kv.2

mutual

def Ty.encode (le : Bool) : (t : Ty) → t.Val → List UInt8
  | .scalar _, v => scalarBytes le v
  | .bool, v => boolBytes le v
  | .enum _, v => scalarBytes le (s := .i32) v
  | .string, v => stringBytes le v
  | .wstring, v => wstringBytes le v
  | .date, v => dateBytes le v
  | .timestamp, v => timestampBytes le v
  | .vector t, v => vectorBytes le (fun x ↦ t.encode le x) v
  | .map k v, m => vectorBytes le (pairBytes (fun x ↦ k.encode le x) fun x ↦ v.encode le x) m
  | .struct fs, v => fs.encode le v

def Fields.encode (le : Bool) : (fs : Fields) → fs.Val → List UInt8
  | .nil, _ => []
  | .cons t fs, (x, xs) => t.encode le x ++ fs.encode le xs

end

/-! ## Limits -/

def stringFits (s : List UInt8) : Prop := s.length ≤ maxStringSize

def vectorFits {α : Type} (fits : α → Prop) (vec : List α) : Prop :=
  vec.length ≤ maxContainerSize ∧ ∀ x ∈ vec, fits x

/-- The length is limited both in code units and, as a vector, in octets. -/
def wstringFits (s : List UInt16) : Prop :=
  s.length ≤ maxStringSize ∧ (Utf8.utf16to8 s).thrown = none ∧
    (Utf8.utf16to8 s).out.length ≤ maxContainerSize

/-- For a text, the limit in code units implies the one in octets. -/
theorem wstringFits_utf16 (cs : List Char) (h : (utf16 cs).length ≤ maxStringSize) :
    wstringFits (utf16 cs) := by
  have hlen := length_utf8_le cs
  refine ⟨h, ?_, ?_⟩
  · rw [Utf8.utf16to8_utf16]
  · rw [Utf8.utf16to8_utf16]
    simp only [maxStringSize, maxContainerSize] at h ⊢
    omega

mutual

/-- The values `pack` accepts. -/
def Ty.Fits : (t : Ty) → t.Val → Prop
  | .string, v => stringFits v
  | .wstring, v => wstringFits v
  | .vector t, v => vectorFits (fun x ↦ t.Fits x) v
  | .map k v, m => vectorFits (fun kv ↦ k.Fits kv.1 ∧ v.Fits kv.2) m
  | .struct fs, v => fs.Fits v
  | .scalar _, _ | .bool, _ | .enum _, _ | .date, _ | .timestamp, _ => True

def Fields.Fits : (fs : Fields) → fs.Val → Prop
  | .nil, _ => True
  | .cons t fs, (x, xs) => t.Fits x ∧ fs.Fits xs

end

/-! ## Packing appends the encoding -/

namespace BitsPacker

/-- The byte order on the wire: least significant first unless exactly one of
the machine and the setting says otherwise. -/
def wireLe (p : BitsPacker) : Bool := p.hostLe == p.isLe

def push (p : BitsPacker) (bytes : List UInt8) : BitsPacker :=
  { p with buf := p.buf.append bytes }

@[simp] theorem push_isValid (p : BitsPacker) (bytes : List UInt8) :
    (p.push bytes).isValid = p.isValid := rfl

@[simp] theorem push_wireLe (p : BitsPacker) (bytes : List UInt8) :
    (p.push bytes).wireLe = p.wireLe := rfl

theorem push_nil (p : BitsPacker) : p.push [] = p := by
  simp [push, ResizeBuffer.append]

theorem push_push (p : BitsPacker) (xs ys : List UInt8) :
    (p.push xs).push ys = p.push (xs ++ ys) := by
  simp [push, ResizeBuffer.append]

/-- On either kind of machine, a packer as constructed writes the least
significant byte first. -/
theorem new_wireLe (hostLe : Bool) (buf : ResizeBuffer) : (new hostLe buf).wireLe = true := by
  simp [new, wireLe]

end BitsPacker

/-- On a set flag the call succeeds and appends `bytes`, which may depend on
the byte order. -/
def Packs (c : PackerCall Unit) (bytes : Bool → List UInt8) : Prop :=
  ∀ p : BitsPacker, p.isValid = true → Returns c p () (p.push (bytes p.wireLe))

section

variable {c d : PackerCall Unit} {bytes bytes' : Bool → List UInt8}

theorem packs_ret : Packs (ret ()) fun _ ↦ [] := by
  intro p hp
  rw [p.push_nil]
  exact returns_ret hp

theorem Packs.guarded (h : Packs c bytes) : Packs (guarded () c) bytes :=
  fun p hp ↦ (h p hp).guarded hp ()

theorem Packs.assigned (h : Packs c bytes) : Packs (assigned c) bytes :=
  fun p hp ↦ (h p hp).assigned hp

theorem Packs.check (h : Packs c bytes) (h' : Packs d bytes') :
    Packs (check c id fun _ ↦ d) fun le ↦ bytes le ++ bytes' le := by
  intro p hp
  have hd := h' (p.push (bytes p.wireLe)) hp
  rw [p.push_push] at hd
  exact (h p hp).check id hd

theorem Packs.ignoring (h : Packs c bytes) (h' : Packs d bytes') :
    Packs (ignoring c fun _ ↦ d) fun le ↦ bytes le ++ bytes' le := by
  intro p hp
  have hd := h' (p.push (bytes p.wireLe)) hp
  rw [p.push_push] at hd
  exact (h p hp).ignoring hd

end

theorem packs_append (bytes : List UInt8) : Packs (append bytes) fun _ ↦ bytes :=
  fun _ hp ↦ ⟨hp, rfl, rfl⟩

theorem packs_packBytes (bytes : List UInt8) : Packs (packBytes bytes) fun _ ↦ bytes :=
  (packs_append bytes).guarded

theorem leBytes_swapEndian {s : Scalar} (v : s.Val) :
    leBytes s.size (swapEndian v).toNat = (leBytes s.size v.toNat).reverse := by
  have hmod : 2 ^ (8 * s.size) = 256 ^ s.size := by rw [Nat.pow_mul]
  have hback := leBytes_leValue (leBytes s.size v.toNat).reverse
  rw [List.length_reverse, length_leBytes] at hback
  rw [swapEndian, BitVec.toNat_ofNat, hmod, leBytes_mod, hback]

theorem packs_packScalar {s : Scalar} (v : s.Val) :
    Packs (packScalar v) fun le ↦ scalarBytes le v := by
  apply Packs.guarded
  intro p hp
  cases hle : p.isLe with
  | true =>
      have hbytes : memory p.hostLe v = scalarBytes p.wireLe v := by
        cases hh : p.hostLe <;> simp [memory, scalarBytes, BitsPacker.wireLe, hle, hh]
      simpa [Returns, hle, hbytes] using packs_append (memory p.hostLe v) p hp
  | false =>
      have hbytes : memory p.hostLe (swapEndian v) = scalarBytes p.wireLe v := by
        cases hh : p.hostLe <;>
          simp [memory, scalarBytes, BitsPacker.wireLe, hle, hh, leBytes_swapEndian]
      simpa [Returns, hle, hbytes] using packs_append (memory p.hostLe (swapEndian v)) p hp

theorem packs_packLen (len : ℕ) : Packs (packLen len) fun le ↦ lenBytes le len :=
  packs_packScalar _

theorem packs_packEnum (v : Scalar.i32.Val) :
    Packs (packEnum v) fun le ↦ scalarBytes le (s := .i32) v :=
  (packs_packScalar (s := .i32) v).assigned.guarded

theorem packs_packBool (b : Bool) : Packs (packBool b) fun le ↦ boolBytes le b :=
  (packs_packScalar (s := .u8) _).assigned.guarded

theorem Packs.last {c : PackerCall Unit} {bytes : Bool → List UInt8} (h : Packs c bytes) :
    Packs (Call.check c id ret) bytes := by
  have hc := h.check packs_ret
  simpa using hc

theorem packs_packDate (d : Date) : Packs (packDate d) fun le ↦ dateBytes le d := by
  apply Packs.guarded
  refine (packs_packScalar (s := .i16) d.year).check ?_
  refine (packs_packScalar (s := .i16) d.month).check ?_
  exact (packs_packScalar (s := .i16) d.day).last

theorem packs_packTimestamp (t : Timestamp) :
    Packs (packTimestamp t) fun le ↦ timestampBytes le t := by
  apply Packs.guarded
  refine (packs_packScalar (s := .i16) t.year).check ?_
  refine (packs_packScalar (s := .i16) t.month).check ?_
  refine (packs_packScalar (s := .i16) t.day).check ?_
  refine (packs_packScalar (s := .i16) t.hour).check ?_
  refine (packs_packScalar (s := .i16) t.min).check ?_
  refine (packs_packScalar (s := .i16) t.sec).check ?_
  exact (packs_packScalar (s := .i32) t.fract).last

theorem packs_packString {s : List UInt8} (h : stringFits s) :
    Packs (packString s) fun le ↦ stringBytes le s := by
  apply Packs.guarded
  rw [if_neg (Nat.not_lt.mpr h)]
  refine (packs_packLen s.length).assigned.check ?_
  cases s with
  | nil => exact packs_ret
  | cons b s =>
      rw [if_pos (by simp)]
      exact (packs_packBytes (b :: s)).assigned.last

section

variable {α β : Type} {pack : α → PackerCall Unit} {encode : Bool → α → List UInt8}

theorem packs_packEach {vec : List α}
    (h : ∀ x ∈ vec, Packs (pack x) fun le ↦ encode le x) :
    Packs (packEach pack vec) fun le ↦ vec.flatMap (encode le) := by
  induction vec with
  | nil => exact packs_ret
  | cons x xs ih =>
      exact (h x (by simp)).assigned.check (ih fun y hy ↦ h y (by simp [hy]))

theorem packs_packVector {vec : List α} (hlen : vec.length ≤ maxContainerSize)
    (h : ∀ x ∈ vec, Packs (pack x) fun le ↦ encode le x) :
    Packs (packVector pack vec) fun le ↦ vectorBytes le (encode le) vec := by
  apply Packs.guarded
  rw [if_neg (Nat.not_lt.mpr hlen)]
  exact (packs_packLen vec.length).assigned.check (packs_packEach h)

variable {packKey : α → PackerCall Unit} {packValue : β → PackerCall Unit}
  {key : Bool → α → List UInt8} {value : Bool → β → List UInt8}

theorem packs_packPairs {m : List (α × β)}
    (h : ∀ kv ∈ m, (Packs (packKey kv.1) fun le ↦ key le kv.1) ∧
      Packs (packValue kv.2) fun le ↦ value le kv.2) :
    Packs (packPairs packKey packValue m) fun le ↦
      m.flatMap (pairBytes (key le) (value le)) := by
  induction m with
  | nil => exact packs_ret
  | cons kv m ih =>
      obtain ⟨hk, hv⟩ := h kv (by simp)
      have htail := ih fun y hy ↦ h y (by simp [hy])
      simp only [List.flatMap_cons, pairBytes, List.append_assoc]
      exact hk.assigned.check (hv.assigned.check htail)

theorem packs_packMap {m : List (α × β)} (hlen : m.length ≤ maxContainerSize)
    (h : ∀ kv ∈ m, (Packs (packKey kv.1) fun le ↦ key le kv.1) ∧
      Packs (packValue kv.2) fun le ↦ value le kv.2) :
    Packs (packMap packKey packValue m) fun le ↦
      vectorBytes le (pairBytes (key le) (value le)) m := by
  apply Packs.guarded
  rw [if_neg (Nat.not_lt.mpr hlen)]
  exact (packs_packLen m.length).assigned.check (packs_packPairs h)

end

theorem scalarBytes_octet (le : Bool) (b : UInt8) :
    scalarBytes le (s := .u8) b.toBitVec = [b] := by
  have hb : leBytes 1 b.toNat = [b] := by simp [leBytes]
  cases le
  · exact congrArg List.reverse hb
  · exact hb

theorem flatMap_octets (le : Bool) (s : List UInt8) :
    s.flatMap (fun b ↦ scalarBytes le (s := .u8) b.toBitVec) = s := by
  induction s with
  | nil => rfl
  | cons b s ih => rw [List.flatMap_cons, scalarBytes_octet, ih, List.singleton_append]

theorem packs_packWstring {s : List UInt16} (h : wstringFits s) :
    Packs (packWstring s) fun le ↦ wstringBytes le s := by
  obtain ⟨hlen, hthrown, hsize⟩ := h
  apply Packs.guarded
  rw [if_neg (Nat.not_lt.mpr hlen)]
  intro p hp
  have hconvert : Returns (convert16 s []) p (Utf8.utf16to8 s).out p := by
    simp only [convert16, hthrown, if_true, List.nil_append]
    exact returns_ret hp
  have hoctets (b : UInt8) : Packs (packOctet b) fun le ↦ scalarBytes le (s := .u8) b.toBitVec :=
    packs_packScalar _
  have hvector := packs_packVector hsize fun b _ ↦ hoctets b
  simp only [vectorBytes, flatMap_octets] at hvector
  exact (hconvert.assigned hp).check _ (hvector p hp)

mutual

theorem Ty.packs_pack : (t : Ty) → (v : t.Val) → t.Fits v →
    Packs (t.pack v) fun le ↦ t.encode le v
  | .scalar _, v, _ => packs_packScalar v
  | .bool, v, _ => packs_packBool v
  | .enum _, v, _ => packs_packEnum v
  | .string, _, h => packs_packString h
  | .wstring, _, h => packs_packWstring h
  | .date, v, _ => packs_packDate v
  | .timestamp, v, _ => packs_packTimestamp v
  | .vector t, _, h => packs_packVector h.1 fun x hx ↦ t.packs_pack x (h.2 x hx)
  | .map k v, _, h => packs_packMap h.1 fun kv hkv ↦
      ⟨k.packs_pack kv.1 (h.2 kv hkv).1, v.packs_pack kv.2 (h.2 kv hkv).2⟩
  | .struct fs, v, h => (fs.packs_pack v h).guarded

theorem Fields.packs_pack : (fs : Fields) → (v : fs.Val) → fs.Fits v →
    Packs (fs.pack v) fun le ↦ fs.encode le v
  | .nil, _, _ => packs_ret
  | .cons t fs, (x, xs), h => (t.packs_pack x h.1).ignoring (fs.packs_pack xs h.2)

end

/-! ## Packing accepts nothing else -/

theorem le_of_ok_limited {p : BitsPacker} {n limit : ℕ} {c : PackerCall Unit}
    (h : (guarded () (if limit < n then fail () else c) p).ok = true) :
    n ≤ limit ∧ (c p).ok = true := by
  rw [ok_guarded, Bool.and_eq_true] at h
  by_cases hlt : limit < n
  · simp [hlt, fail] at h
  · rw [if_neg hlt] at h
    exact ⟨Nat.le_of_not_lt hlt, h.2⟩

section

variable {α β : Type} {pack : α → PackerCall Unit}

def Accepted (c : PackerCall Unit) : Prop := ∃ p, (c p).ok = true

theorem accepted_of_check {c d : PackerCall Unit} {p : BitsPacker}
    (h : (check (assigned c) id (fun _ ↦ d) p).ok = true) : Accepted c ∧ Accepted d := by
  rw [ok_check, Bool.and_eq_true] at h
  exact ⟨⟨p, h.1⟩, _, h.2⟩

theorem accepted_of_packEach {vec : List α} (h : Accepted (packEach pack vec)) :
    ∀ x ∈ vec, Accepted (pack x) := by
  induction vec with
  | nil => simp
  | cons x xs ih =>
      obtain ⟨p, hp⟩ := h
      obtain ⟨hx, hxs⟩ := accepted_of_check hp
      intro y hy
      rcases List.mem_cons.mp hy with rfl | hy
      · exact hx
      · exact ih hxs y hy

theorem accepted_of_packVector {vec : List α} (h : Accepted (packVector pack vec)) :
    vectorFits (fun x ↦ Accepted (pack x)) vec := by
  obtain ⟨p, hp⟩ := h
  obtain ⟨hlen, hrest⟩ := le_of_ok_limited hp
  exact ⟨hlen, accepted_of_packEach (accepted_of_check hrest).2⟩

variable {packKey : α → PackerCall Unit} {packValue : β → PackerCall Unit}

theorem accepted_of_packPairs {m : List (α × β)} (h : Accepted (packPairs packKey packValue m)) :
    ∀ kv ∈ m, Accepted (packKey kv.1) ∧ Accepted (packValue kv.2) := by
  induction m with
  | nil => simp
  | cons kv m ih =>
      obtain ⟨p, hp⟩ := h
      obtain ⟨hk, q, hq⟩ := accepted_of_check hp
      obtain ⟨hv, hm⟩ := accepted_of_check hq
      intro y hy
      rcases List.mem_cons.mp hy with rfl | hy
      · exact ⟨hk, hv⟩
      · exact ih hm y hy

theorem accepted_of_packMap {m : List (α × β)} (h : Accepted (packMap packKey packValue m)) :
    vectorFits (fun kv ↦ Accepted (packKey kv.1) ∧ Accepted (packValue kv.2)) m := by
  obtain ⟨p, hp⟩ := h
  obtain ⟨hlen, hrest⟩ := le_of_ok_limited hp
  exact ⟨hlen, accepted_of_packPairs (accepted_of_check hrest).2⟩

end

theorem fits_of_packWstring {s : List UInt16} (h : Accepted (packWstring s)) :
    wstringFits s := by
  obtain ⟨p, hp⟩ := h
  obtain ⟨hlen, hrest⟩ := le_of_ok_limited hp
  rw [ok_check, Bool.and_eq_true] at hrest
  obtain ⟨hconvert, hvector⟩ := hrest
  have hthrown : (Utf8.utf16to8 s).thrown = none := by
    by_contra hne
    simp [assigned, convert16, hne, fail] at hconvert
  have hvalue : (assigned (convert16 s []) p).value = (Utf8.utf16to8 s).out := by
    simp [assigned, convert16, hthrown, ret]
  rw [hvalue] at hvector
  exact ⟨hlen, hthrown, (accepted_of_packVector ⟨_, hvector⟩).1⟩

/-- The generated body returns `true` only when each of its calls has. -/
theorem accepted_of_ignoring {c d : PackerCall Unit} (hc : Steady c) (hd : Steady d)
    (h : Accepted (ignoring c fun _ ↦ d)) : Accepted c ∧ Accepted d := by
  obtain ⟨p, hp⟩ := h
  have hd' : (d (c p).state).ok = true := hp
  refine ⟨⟨p, ?_⟩, _, hd'⟩
  by_contra hok
  have hflag : (c p).state.isValid = false := (hc.flag p).trans (Bool.eq_false_of_not_eq_true hok)
  rw [(hd.poisoned _ hflag).1] at hd'
  exact Bool.false_ne_true hd'

mutual

theorem Ty.fits_of_accepted : (t : Ty) → (v : t.Val) → Accepted (t.pack v) → t.Fits v
  | .string, _, ⟨_, h⟩ => (le_of_ok_limited h).1
  | .wstring, _, h => fits_of_packWstring h
  | .vector t, _, h =>
      have hv := accepted_of_packVector h
      ⟨hv.1, fun x hx ↦ t.fits_of_accepted x (hv.2 x hx)⟩
  | .map k v, _, h =>
      have hm := accepted_of_packMap h
      ⟨hm.1, fun kv hkv ↦ ⟨k.fits_of_accepted kv.1 (hm.2 kv hkv).1,
        v.fits_of_accepted kv.2 (hm.2 kv hkv).2⟩⟩
  | .struct fs, v, ⟨p, h⟩ => by
      have hbody : (guarded () (fs.pack v) p).ok = true := h
      rw [ok_guarded, Bool.and_eq_true] at hbody
      exact fs.fits_of_accepted v ⟨p, hbody.2⟩
  | .scalar _, _, _ | .bool, _, _ | .enum _, _, _ | .date, _, _ | .timestamp, _, _ => trivial

theorem Fields.fits_of_accepted : (fs : Fields) → (v : fs.Val) → Accepted (fs.pack v) →
    fs.Fits v
  | .nil, _, _ => trivial
  | .cons t fs, (x, xs), h =>
      have hboth := accepted_of_ignoring (t.steady_pack x) (fs.steady_pack xs) h
      ⟨t.fits_of_accepted x hboth.1, fs.fits_of_accepted xs hboth.2⟩

end

/-- `pack` returns `true` on a set flag exactly for the values within the
limits, and then appends their encoding. -/
theorem Ty.ok_pack_iff (t : Ty) (v : t.Val) (p : BitsPacker) :
    (t.pack v p).ok = true ↔ p.isValid = true ∧ t.Fits v := by
  constructor
  · intro h
    refine ⟨?_, t.fits_of_accepted v ⟨p, h⟩⟩
    by_contra hp
    have hpoison := (t.steady_pack v).poisoned p (Bool.eq_false_of_not_eq_true hp)
    rw [hpoison.1] at h
    exact Bool.false_ne_true h
  · rintro ⟨hp, hfits⟩
    exact (t.packs_pack v hfits p hp).1

end WiseKernel.Packing
