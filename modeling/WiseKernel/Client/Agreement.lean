import WiseKernel.Client.Streaming

/-!
# Client and server agree

The client's `Pack` writes the bytes of the server's wire format, and its
`Unpack` reads them back.  Both directions are proved against `Ty.encode`, to
which the server's packer was tied before, so that the two codecs are never
compared branch by branch.
-/

namespace WiseKernel.Client

open WiseKernel.Lib WiseKernel.Packing

/-! ## Values in both languages -/

mutual

/-- The same value on both sides: a string is the same text, in UTF-8 or UTF-16
on the server and in UTF-16 on the client. -/
def Corresponds : (t : Ty) → t.Val → Val t → Prop
  | .scalar s, v, c => (show s.Val from v) = c
  | .bool, v, c => (show Bool from v) = c
  | .enum _, v, c => (show Scalar.i32.Val from v) = c
  | .string, v, c => ∃ cs, v = utf8 cs ∧ c = utf16 cs
  | .wstring, v, c => ∃ cs, v = utf16 cs ∧ c = utf16 cs
  | .date, v, c => (show Date from v) = c
  | .timestamp, v, c => (show Timestamp from v) = c
  | .vector t, v, c => List.Forall₂ (fun x y ↦ Corresponds t x y) v c
  | .map _ _, _, c => nomatch (show Empty from c)
  | .struct fs, v, c => CorrespondsFields fs v c

def CorrespondsFields : (fs : Fields) → fs.Val → Vals fs → Prop
  | .nil, _, _ => True
  | .cons t fs, (x, xs), (y, ys) => Corresponds t x y ∧ CorrespondsFields fs xs ys

end

section

variable (isDefined : ℕ → Scalar.i32.Val → Bool)

mutual

/-- Every enumerator in the value is one the client's enumeration defines. -/
def Defined : (t : Ty) → Val t → Prop
  | .enum e, c => isDefined e c = true
  | .vector t, c => ∀ x ∈ (show List (Val t) from c), Defined t x
  | .struct fs, c => DefinedFields fs c
  | .scalar _, _ | .bool, _ | .string, _ | .wstring, _ | .date, _ | .timestamp, _ => True
  | .map _ _, _ => True

def DefinedFields : (fs : Fields) → Vals fs → Prop
  | .nil, _ => True
  | .cons t fs, (x, xs) => Defined t x ∧ DefinedFields fs xs

end

end

/-! ## All types -/

section

variable (E : Utf8Encoding)

mutual

/-- The client writes the encoding the server's packer appends. -/
theorem writes_pack : (t : Ty) → (v : t.Val) → (c : Val t) → Corresponds t v c →
    Writes (pack E t c) (t.encode true v)
  | .scalar s, v, _, h => h ▸ writes_packScalar s v
  | .bool, v, _, h => h ▸ writes_packBool v
  | .enum _, v, _, h => h ▸ writes_packInt v
  | .string, _, _, ⟨cs, hv, hc⟩ => by
      subst hv hc
      exact writes_packString E cs
  | .wstring, _, _, ⟨cs, hv, hc⟩ => by
      subst hv hc
      have h := writes_packString E cs
      have hout : (Utf8.utf16to8 (utf16 cs)).out = utf8 cs := by rw [Utf8.utf16to8_utf16]
      rw [← hout] at h
      exact h
  | .date, v, _, h => h ▸ writes_packDate v
  | .timestamp, v, _, h => h ▸ writes_packTimestamp v
  | .vector t, _, _, h => writes_packList (h.imp fun x y hxy ↦ writes_pack t x y hxy)
  | .map _ _, _, c, _ => nomatch (show Empty from c)
  | .struct fs, v, c, h => writes_packFields fs v c h

theorem writes_packFields : (fs : Fields) → (v : fs.Val) → (c : Vals fs) →
    CorrespondsFields fs v c → Writes (packFields E fs c) (fs.encode true v)
  | .nil, _, _, _ => fun s ↦ s.write_nil.symm
  | .cons t fs, (x, xs), (y, ys), h =>
      (writes_pack t x y h.1).then (writes_packFields fs xs ys h.2)

end

end

theorem forall₂_imp_of_mem {α β : Type*} {R S : α → β → Prop} {xs : List α} {ys : List β}
    (h : List.Forall₂ R xs ys) (himp : ∀ x ∈ xs, ∀ y ∈ ys, R x y → S x y) :
    List.Forall₂ S xs ys := by
  induction h with
  | nil => exact .nil
  | cons hxy _ ih =>
      refine .cons (himp _ (by simp) _ (by simp) hxy) (ih ?_)
      intro x hx y hy
      exact himp x (by simp [hx]) y (by simp [hy])

section

variable (E : Utf8Encoding) (isDefined : ℕ → Scalar.i32.Val → Bool)

mutual

/-- The client reads its own value out of the server's encoding. -/
theorem yields_unpack : (t : Ty) → (ht : isSupported t = true) → (v : t.Val) → (c : Val t) →
    t.Fits v → Corresponds t v c → Defined isDefined t c →
      Yields (unpack E isDefined t ht) (t.encode true v) c
  | .scalar s, _, v, _, _, h, _ => h ▸ yields_unpackScalar s v
  | .bool, _, v, _, _, h, _ => h ▸ yields_unpackBool v
  | .enum _, _, v, _, _, h, hdef => by
      subst h
      exact yields_unpackEnum hdef
  | .string, _, _, _, hfits, ⟨cs, hv, hc⟩, _ => by
      subst hv hc
      exact yields_unpackString E (Nat.le_trans hfits (by decide))
  | .wstring, _, _, _, hfits, ⟨cs, hv, hc⟩, _ => by
      subst hv hc
      have hout : (Utf8.utf16to8 (utf16 cs)).out = utf8 cs := by rw [Utf8.utf16to8_utf16]
      have hsize := hfits.2.2
      rw [hout] at hsize
      have h := yields_unpackString E hsize
      rw [← hout] at h
      exact h
  | .date, _, v, _, _, h, _ => h ▸ yields_unpackDate v
  | .timestamp, _, v, _, _, h, _ => h ▸ yields_unpackTimestamp v
  | .vector t, ht, _, _, hfits, h, hdef => by
      refine yields_unpackList hfits.1 (forall₂_imp_of_mem h ?_)
      intro x hx y hy hxy
      exact yields_unpack t (isSupported_of_vector ht) x y (hfits.2 x hx) hxy (hdef y hy)
  | .map _ _, _, _, c, _, _, _ => nomatch (show Empty from c)
  | .struct fs, ht, v, c, hfits, h, hdef => yields_unpackFields fs ht v c hfits h hdef

theorem yields_unpackFields : (fs : Fields) → (hfs : isSupportedFields fs = true) →
    (v : fs.Val) → (c : Vals fs) → fs.Fits v → CorrespondsFields fs v c →
      DefinedFields isDefined fs c → Yields (unpackFields E isDefined fs hfs) (fs.encode true v) c
  | .nil, _, _, _, _, _, _ => yields_pure ()
  | .cons t fs, hfs, (x, xs), (y, ys), hfits, h, hdef => by
      obtain ⟨ht, hfs'⟩ := isSupported_of_cons hfs
      refine (yields_unpack t ht x y hfits.1 h.1 hdef.1).bind ?_
      exact (yields_unpackFields fs hfs' xs ys hfits.2 h.2 hdef.2).map fun zs ↦ (y, zs)

end

/-! ## Main result -/

/-- Of a value the server's packer accepts, the client writes the bytes the
server appends and reads the value back from exactly these, wherever they
stand.  The byte order of a packer is the one its constructor set. -/
theorem pack_agrees {t : Ty} (ht : isSupported t = true) {v : t.Val} {c : Val t}
    (h : Corresponds t v c) (p : BitsPacker) (hp : p.isLe = p.hostLe)
    (hpack : (t.pack v p).ok = true) :
    ∃ bytes, (t.pack v p).state.buf.bytes = p.buf.bytes ++ bytes ∧
      (∀ s, pack E t c s = s.write bytes) ∧
      (Defined isDefined t c → ∀ r : Reader, r.stream.At bytes →
        ∃ r', unpack E isDefined t ht r = .ok (c, r') ∧ r'.stream.bytes = r.stream.bytes ∧
          r'.stream.position = r.stream.position + bytes.length) := by
  obtain ⟨hvalid, hfits⟩ := (t.ok_pack_iff v p).mp hpack
  obtain ⟨-, -, hstate⟩ := t.packs_pack v hfits p hvalid
  have hle : p.wireLe = true := by simp [BitsPacker.wireLe, hp]
  rw [hle] at hstate
  refine ⟨t.encode true v, ?_, writes_pack E t v c h, ?_⟩
  · rw [hstate]
    rfl
  · intro hdef r hat
    obtain ⟨r', hr, hstream⟩ := yields_unpack E isDefined t ht v c hfits h hdef r hat
    refine ⟨r', hr, ?_, ?_⟩
    · rw [hstream]
      rfl
    · rw [hstream, hat.position]

end

/-- `Encoding.UTF8` on well-formed text. -/
def utf8Encoding : Utf8Encoding where
  getBytes s := (Utf8.utf16to8 s).out
  getString s := (Utf8.utf8to16 s).out
  getBytes_utf16 cs := by rw [Utf8.utf16to8_utf16]
  getString_utf8 cs := by rw [Utf8.utf8to16_utf8]

/-- A list of structs of an enumerator and a wide string, then a negative
`short` and a narrow string. -/
theorem pack_agrees_list :
    let entry : Ty := .struct (.cons (.enum 0) (.cons .wstring .nil))
    let t : Ty := .struct (.cons (.vector entry) (.cons (.scalar .i16) (.cons .string .nil)))
    let v : List (BitVec 32 × List UInt16 × Unit) × BitVec 16 × List UInt8 × Unit :=
      ([(3, utf16 ['é', '😀'], ())], -2, utf8 ['가'], ())
    let c : List (BitVec 32 × List UInt16 × Unit) × BitVec 16 × List UInt16 × Unit :=
      ([(3, utf16 ['é', '😀'], ())], -2, utf16 ['가'], ())
    let isDefined : ℕ → BitVec 32 → Bool := fun _ n ↦ n == 3
    let p := BitsPacker.new true ⟨[7], 0⟩
    (t.pack v p).ok = true ∧ Defined isDefined t c ∧
      ∃ bytes, (t.pack v p).state.buf.bytes = [7] ++ bytes ∧
        (∀ s, pack utf8Encoding t c s = s.write bytes) ∧
        ∀ r : Reader, r.stream.At bytes →
          ∃ r', unpack utf8Encoding isDefined t rfl r = .ok (c, r') ∧
            r'.stream.bytes = r.stream.bytes ∧
              r'.stream.position = r.stream.position + bytes.length := by
  intro entry t v c isDefined p
  have hstring : stringFits (utf8 ['가']) := by
    change 3 ≤ 2048
    decide
  have hfits : t.Fits v := by
    refine ⟨⟨by decide, ?_⟩, trivial, hstring, trivial⟩
    intro x hx
    rcases List.mem_singleton.mp hx with rfl
    exact ⟨trivial, wstringFits_utf16 ['é', '😀'] (by decide), trivial⟩
  have hpack : (t.pack v p).ok = true := (t.ok_pack_iff v p).mpr ⟨rfl, hfits⟩
  have hsame : Corresponds t v c := by
    refine ⟨.cons ⟨rfl, ⟨['é', '😀'], rfl, rfl⟩, trivial⟩ .nil, rfl, ⟨['가'], rfl, rfl⟩, trivial⟩
  have hdef : Defined isDefined t c := by
    refine ⟨?_, trivial, trivial, trivial⟩
    intro x hx
    rcases List.mem_singleton.mp hx with rfl
    exact ⟨rfl, trivial, trivial⟩
  obtain ⟨bytes, hbytes, hwrite, hread⟩ :=
    pack_agrees utf8Encoding isDefined rfl hsame p rfl hpack
  exact ⟨hpack, hdef, bytes, hbytes, hwrite, hread hdef⟩

end WiseKernel.Client
