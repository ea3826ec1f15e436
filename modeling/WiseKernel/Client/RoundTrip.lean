import WiseKernel.Client.Agreement

/-!
# The client reads back what it wrote

The 16 bits in front of a string or a list are a cast of its length, and the
whole of it is written all the same; and `Unpack` of a list adds to the list it
is given.  A string or list comes back exactly if it fits into the prefix, what
is in it comes back, and the list was empty.
-/

namespace WiseKernel.Client

open WiseKernel.Lib WiseKernel.Packing

theorem position_nil : 0 ≤ ([] : List UInt8).length := Nat.le_refl 0

/-- What a call writes into an empty stream. -/
def written (f : MemoryStream → MemoryStream) : List UInt8 :=
  (f ⟨[], 0, position_nil⟩).bytes

theorem Writes.written {f : MemoryStream → MemoryStream} {bytes : List UInt8}
    (h : Writes f bytes) : Client.written f = bytes := by
  rw [Client.written, h]
  simp [MemoryStream.write, overwrite]

/-! ## Overloads that read back what they wrote -/

theorem bind_eq_ok {α β : Type} {a : Unpacking α} {f : α → Unpacking β} {r r' : Reader} {y : β}
    (h : (a >>= f) r = .ok (y, r')) : ∃ x r₁, a r = .ok (x, r₁) ∧ f x r₁ = .ok (y, r') := by
  change (a r).bind (fun p ↦ f p.1 p.2) = _ at h
  cases ha : a r with
  | error e => simp [ha, Except.bind] at h
  | ok p =>
      rw [ha] at h
      exact ⟨p.1, p.2, rfl, h⟩

/-- Two overloads for one type: `good` values are read back, and no others. -/
structure Recovers {α : Type} (pack : α → MemoryStream → MemoryStream) (unpack : Unpacking α)
    (good : α → Prop) : Prop where
  writes : ∀ x, Writes (pack x) (written (pack x))
  yields : ∀ x, good x → Yields unpack (written (pack x)) x
  only : ∀ x r r', r.stream.At (written (pack x)) → unpack r = .ok (x, r') → good x

theorem recovers_of_yields {α : Type} {pack : α → MemoryStream → MemoryStream}
    {unpack : Unpacking α} {encode : α → List UInt8} (hw : ∀ x, Writes (pack x) (encode x))
    (hy : ∀ x, Yields unpack (encode x) x) : Recovers pack unpack fun _ ↦ True where
  writes x := by
    rw [(hw x).written]
    exact hw x
  yields x _ := by
    rw [(hw x).written]
    exact hy x
  only _ _ _ _ _ := trivial

theorem recovers_enum (isDefined : Scalar.i32.Val → Bool) :
    Recovers packEnum (unpackEnum isDefined) fun v ↦ isDefined v = true where
  writes v := by
    have hw : Writes (packEnum v) (leBytes 4 v.toNat) := writes_packInt v
    rw [hw.written]
    exact hw
  yields v hv := by
    have hw : Writes (packEnum v) (leBytes 4 v.toNat) := writes_packInt v
    rw [hw.written]
    exact yields_unpackEnum hv
  only v r r' _ h := by
    obtain ⟨x, r₁, -, hx⟩ := bind_eq_ok h
    split_ifs at hx with hdef
    · cases hx
      exact hdef
    · cases hx

/-! ### Lists -/

section

variable {α : Type} {pack : α → MemoryStream → MemoryStream} {unpack : Unpacking α}
  {good : α → Prop}

theorem Recovers.writes_list (h : Recovers pack unpack good) (lst : List α) :
    Writes (packList pack lst) (vectorBytes true (fun x ↦ written (pack x)) lst) :=
  writes_packList (List.forall₂_same.mpr fun x _ ↦ h.writes x)

theorem unpackEach_eq_ok {n : ℕ} {lst res : List α} {r r' : Reader}
    (h : unpackEach unpack n lst r = .ok (res, r')) :
    ∃ new, res = lst ++ new ∧ new.length = n := by
  induction n generalizing lst r with
  | zero =>
      cases h
      exact ⟨[], by simp, rfl⟩
  | succ n ih =>
      obtain ⟨v, r₁, -, hrest⟩ := bind_eq_ok h
      obtain ⟨new, rfl, hnew⟩ := ih hrest
      exact ⟨v :: new, by simp, by simp [hnew]⟩

/-- The elements before a bad one are read back, and so it would have to be read
where it was written. -/
theorem Recovers.only_each (h : Recovers pack unpack good) {lst done : List α} {r r' : Reader}
    (hat : r.stream.At (lst.flatMap fun x ↦ written (pack x)))
    (hread : unpackEach unpack lst.length done r = .ok (done ++ lst, r')) :
    ∀ x ∈ lst, good x := by
  induction lst generalizing done r with
  | nil => simp
  | cons x lst ih =>
      obtain ⟨v, r₁, hv, hrest⟩ := bind_eq_ok hread
      have hfirst : v = x := by
        obtain ⟨new, hnew, -⟩ := unpackEach_eq_ok hrest
        rw [List.append_assoc, List.append_cancel_left_eq] at hnew
        exact (List.cons.inj hnew).1.symm
      rw [hfirst] at hv hrest
      rw [List.flatMap_cons] at hat
      have hgood := h.only x r r₁ hat.left hv
      obtain ⟨r₂, hr₂, hstream⟩ := h.yields x hgood r hat.left
      rw [hv] at hr₂
      cases hr₂
      have hdone : done ++ x :: lst = (done ++ [x]) ++ lst := by simp
      rw [hdone] at hrest
      have htail : ∀ y ∈ lst, good y := by
        refine ih ?_ hrest
        rw [hstream]
        exact hat.right
      exact List.forall_mem_cons.mpr ⟨hgood, htail⟩

/-- As many elements are added to the list as the prefix says. -/
theorem unpackList_eq_ok {n : ℕ} {rest : List UInt8} {target res : List α} {r r' : Reader}
    (hat : r.stream.At (lenBytes true n ++ rest))
    (hread : unpackList unpack target r = .ok (res, r')) :
    ∃ r₁, r₁.stream.At rest ∧
      unpackEach unpack (n % 2 ^ 16) target r₁ = .ok (res, r') := by
  obtain ⟨len, r₁, hlen, heach⟩ := bind_eq_ok hread
  obtain ⟨r₂, hr₂, hstream⟩ := yields_unpackLen n r hat.left
  rw [hlen] at hr₂
  cases hr₂
  refine ⟨r₁, ?_, ?_⟩
  · rw [hstream]
    exact hat.right
  · rwa [BitVec.toNat_ofNat] at heach

/-- A list that is read back was read into an empty one, and fits. -/
theorem Recovers.only_list (h : Recovers pack unpack good) {lst target : List α} {r r' : Reader}
    (hat : r.stream.At (written (packList pack lst))) (hfits : lst.length < 2 ^ 16 ∨ target = [])
    (hread : unpackList unpack target r = .ok (lst, r')) :
    target = [] ∧ lst.length < 2 ^ 16 ∧ ∀ x ∈ lst, good x := by
  rw [(h.writes_list lst).written, vectorBytes] at hat
  obtain ⟨r₁, hat₁, heach⟩ := unpackList_eq_ok hat hread
  obtain ⟨new, hnew, hlength⟩ := unpackEach_eq_ok heach
  have hsum : lst.length = target.length + lst.length % 2 ^ 16 := by
    rw [← hlength, ← List.length_append, ← hnew]
  have hlt : lst.length < 2 ^ 16 := by
    rcases hfits with hlt | rfl
    · exact hlt
    · rw [List.length_nil] at hsum
      omega
  have htarget : target = [] := by
    apply List.eq_nil_of_length_eq_zero
    omega
  rw [Nat.mod_eq_of_lt hlt, htarget] at heach
  exact ⟨htarget, hlt, h.only_each hat₁ heach⟩

theorem Recovers.yields_list (h : Recovers pack unpack good) {lst : List α}
    (hlt : lst.length < 2 ^ 16) (hgood : ∀ x ∈ lst, good x) :
    Yields (unpackList unpack []) (written (packList pack lst)) lst := by
  rw [(h.writes_list lst).written]
  exact yields_unpackList_append hlt (List.forall₂_same.mpr fun x hx ↦ h.yields x (hgood x hx)) []

theorem Recovers.list (h : Recovers pack unpack good) :
    Recovers (packList pack) (unpackList unpack [])
      fun lst ↦ lst.length < 2 ^ 16 ∧ ∀ x ∈ lst, good x where
  writes lst := by
    rw [(h.writes_list lst).written]
    exact h.writes_list lst
  yields lst hlst := h.yields_list hlst.1 hlst.2
  only lst r r' hat hread := (h.only_list hat (.inr rfl) hread).2

end

/-! ### Strings -/

/-- What `Encoding.UTF8` does with octets that are no UTF-8: the text before
them is decoded, and what stands for them is text again, with no more units than
there are octets. -/
structure Utf8Encoding.Replaces (E : Utf8Encoding) : Prop where
  getString_text : ∀ bytes, ∃ cs, E.getString bytes = utf16 cs
  getString_append : ∀ cs bytes, E.getString (utf8 cs ++ bytes) = utf16 cs ++ E.getString bytes
  getString_length : ∀ bytes, (E.getString bytes).length ≤ bytes.length

/-- The strings that come back: text, of a length that fits into the prefix. -/
def StringFits (s : List UInt16) : Prop := ∃ cs, s = utf16 cs ∧ (utf8 cs).length < 2 ^ 16

theorem writes_packString_any (E : Utf8Encoding) (s : List UInt16) :
    Writes (packString E s) (lenBytes true (E.getBytes s).length ++ E.getBytes s) :=
  (writes_packLen _).then (writes_packAll _)

/-- A prefix of a text in UTF-8 is a text and less than a character. -/
theorem take_utf8 (cs : List Char) (n : ℕ) :
    ∃ cs₁ cs₂ cut, cs = cs₁ ++ cs₂ ∧ (utf8 cs).take n = utf8 cs₁ ++ cut ∧ cut.length < 4 := by
  induction cs generalizing n with
  | nil => exact ⟨[], [], [], rfl, by simp, by decide⟩
  | cons c cs ih =>
      have hsize := c.utf8Size_le_four
      have hlength := String.length_utf8EncodeChar c
      rcases Nat.lt_or_ge n c.utf8Size with hlt | hge
      · refine ⟨[], c :: cs, (utf8 (c :: cs)).take n, rfl, rfl, ?_⟩
        rw [List.length_take]
        omega
      · obtain ⟨cs₁, cs₂, cut, rfl, htake, hcut⟩ := ih (n - c.utf8Size)
        refine ⟨c :: cs₁, cs₂, cut, rfl, ?_, hcut⟩
        rw [utf8_cons, List.take_append, hlength, htake, List.take_of_length_le (by omega),
          utf8_cons, List.append_assoc]

theorem utf8_append (cs₁ cs₂ : List Char) : utf8 (cs₁ ++ cs₂) = utf8 cs₁ ++ utf8 cs₂ :=
  List.flatMap_append

theorem utf16_append (cs₁ cs₂ : List Char) : utf16 (cs₁ ++ cs₂) = utf16 cs₁ ++ utf16 cs₂ :=
  List.flatMap_append

/-- Of a text that does not fit, what the prefix leaves is not the text. -/
theorem Utf8Encoding.Replaces.length_lt {E : Utf8Encoding} (hE : E.Replaces) {cs : List Char}
    (h : E.getString ((utf8 cs).take ((utf8 cs).length % 2 ^ 16)) = utf16 cs) :
    (utf8 cs).length < 2 ^ 16 := by
  obtain ⟨cs₁, cs₂, cut, rfl, htake, hcut⟩ := take_utf8 cs ((utf8 cs).length % 2 ^ 16)
  have hunits : (utf16 cs₂).length ≤ cut.length := by
    rw [htake, hE.getString_append, utf16_append, List.append_cancel_left_eq] at h
    rw [← h]
    exact hE.getString_length cut
  have hoctets := length_utf8_le cs₂
  have hfront : (utf8 cs₁).length ≤ (utf8 (cs₁ ++ cs₂)).length % 2 ^ 16 := by
    have hlength := congrArg List.length htake
    rw [List.length_take, List.length_append] at hlength
    omega
  rw [utf8_append, List.length_append] at hfront ⊢
  omega

/-- The octets that `Unpack` decodes. -/
theorem unpackString_eq_ok {E : Utf8Encoding} {sb : List UInt8} {s : List UInt16} {r r' : Reader}
    (hat : r.stream.At (lenBytes true sb.length ++ sb)) (hread : unpackString E r = .ok (s, r')) :
    s = [] ∨ s = E.getString (sb.take (sb.length % 2 ^ 16)) := by
  obtain ⟨len, r₁, hlen, hrest⟩ := bind_eq_ok hread
  obtain ⟨r₂, hr₂, hstream⟩ := yields_unpackLen sb.length r hat.left
  rw [hlen] at hr₂
  cases hr₂
  split_ifs at hrest with hzero
  · cases hrest
    exact .inl rfl
  · right
    obtain ⟨bytes, r₂, hbytes, hs⟩ := bind_eq_ok hrest
    rw [BitVec.toNat_ofNat] at hbytes
    change unpackNew (sb.length % 2 ^ 16) r₁ = _ at hbytes
    have hat₁ : r₁.stream.At sb := by
      rw [hstream]
      exact hat.right
    have hsplit := List.take_append_drop (sb.length % 2 ^ 16) sb
    have hlength : (sb.take (sb.length % 2 ^ 16)).length = sb.length % 2 ^ 16 := by
      rw [List.length_take]
      exact Nat.min_eq_left (Nat.mod_le _ _)
    rw [← hsplit] at hat₁
    obtain ⟨r₃, hr₃, -⟩ := yields_unpackNew _ r₁ hat₁.left
    rw [hlength, hbytes] at hr₃
    cases hr₃
    cases hs
    rfl

theorem recovers_string {E : Utf8Encoding} (hE : E.Replaces) :
    Recovers (packString E) (unpackString E) StringFits where
  writes s := by
    rw [(writes_packString_any E s).written]
    exact writes_packString_any E s
  yields s hs := by
    obtain ⟨cs, rfl, hfits⟩ := hs
    rw [(writes_packString E cs).written]
    exact yields_unpackString_of_lt E hfits
  only s r r' hat hread := by
    rw [(writes_packString_any E s).written] at hat
    rcases unpackString_eq_ok hat hread with rfl | hs
    · exact ⟨[], rfl, by decide⟩
    · obtain ⟨cs, hcs⟩ := hE.getString_text ((E.getBytes s).take ((E.getBytes s).length % 2 ^ 16))
      rw [← hs] at hcs
      subst hcs
      rw [E.getBytes_utf16] at hs
      exact ⟨cs, rfl, hE.length_lt hs.symm⟩

/-! ### All types -/

section

variable (isDefined : ℕ → Scalar.i32.Val → Bool)

mutual

/-- The values that come back when they are elements of a list or fields of an
object in one. -/
def Fits : (t : Ty) → Val t → Prop
  | .enum e, v => isDefined e v = true
  | .string, s | .wstring, s => StringFits s
  | .vector t, lst => (show List (Val t) from lst).length < 2 ^ 16 ∧
      ∀ x ∈ (show List (Val t) from lst), Fits t x
  | .struct fs, v => FitsFields fs v
  | .scalar _, _ | .bool, _ | .date, _ | .timestamp, _ | .map _ _, _ => True

def FitsFields : (fs : Fields) → Vals fs → Prop
  | .nil, _ => True
  | .cons t fs, (x, xs) => Fits t x ∧ FitsFields fs xs

end

end

section

variable {E : Utf8Encoding} (isDefined : ℕ → Scalar.i32.Val → Bool)

/-- A field and the fields behind it. -/
theorem Recovers.cons {α β : Type} {pack : α → MemoryStream → MemoryStream}
    {packRest : β → MemoryStream → MemoryStream} {unpack : Unpacking α} {unpackRest : Unpacking β}
    {good : α → Prop} {goodRest : β → Prop} (h : Recovers pack unpack good)
    (h' : Recovers packRest unpackRest goodRest) :
    Recovers (fun (v : α × β) s ↦ packRest v.2 (pack v.1 s))
      (do
        let x ← unpack
        let xs ← unpackRest
        return (x, xs))
      fun v ↦ good v.1 ∧ goodRest v.2 := by
  have hw : ∀ v : α × β, Writes (fun s ↦ packRest v.2 (pack v.1 s))
      (written (pack v.1) ++ written (packRest v.2)) :=
    fun v ↦ (h.writes v.1).then (h'.writes v.2)
  refine ⟨fun v ↦ ?_, fun v hv ↦ ?_, fun v r r' hat hread ↦ ?_⟩
  · rw [(hw v).written]
    exact hw v
  · rw [(hw v).written]
    exact (h.yields v.1 hv.1).bind ((h'.yields v.2 hv.2).map fun xs ↦ (v.1, xs))
  · rw [(hw v).written] at hat
    obtain ⟨x, r₁, hx, hrest⟩ := bind_eq_ok hread
    obtain ⟨xs, r₂, hxs, hv⟩ := bind_eq_ok hrest
    cases hv
    have hgood := h.only x r r₁ hat.left hx
    obtain ⟨r₃, hr₃, hstream⟩ := h.yields x hgood r hat.left
    rw [hx] at hr₃
    cases hr₃
    refine ⟨hgood, h'.only xs r₁ _ ?_ hxs⟩
    rw [hstream]
    exact hat.right

mutual

theorem recovers (hE : E.Replaces) : (t : Ty) → (ht : isSupported t = true) →
    Recovers (pack E t) (unpack E isDefined t ht) (Fits isDefined t)
  | .scalar s, _ => recovers_of_yields (writes_packScalar s) (yields_unpackScalar s)
  | .bool, _ => recovers_of_yields writes_packBool yields_unpackBool
  | .enum e, _ => recovers_enum (isDefined e)
  | .string, _ => recovers_string hE
  | .wstring, _ => recovers_string hE
  | .date, _ => recovers_of_yields writes_packDate yields_unpackDate
  | .timestamp, _ => recovers_of_yields writes_packTimestamp yields_unpackTimestamp
  | .vector t, ht => (recovers hE t (isSupported_of_vector ht)).list
  | .map _ _, ht => nomatch ht
  | .struct fs, ht => recoversFields hE fs ht

theorem recoversFields (hE : E.Replaces) :
    (fs : Fields) → (hfs : isSupportedFields fs = true) →
    Recovers (packFields E fs) (unpackFields E isDefined fs hfs) (FitsFields isDefined fs)
  | .nil, _ => @recovers_of_yields Unit _ _ (fun _ ↦ []) (fun _ s ↦ s.write_nil.symm)
      fun _ ↦ yields_pure ()
  | .cons t fs, hfs =>
      (recovers hE t (isSupported_of_cons hfs).1).cons
        (recoversFields hE fs (isSupported_of_cons hfs).2)

end

end

/-! ## Main result -/

/-- A value with a length prefix comes back, from exactly the bytes that were
written for it. -/
structure RoundTrips {α : Type} (packs : MemoryStream → MemoryStream) (unpack : Unpacking α)
    (length : ℕ) (v : α) : Prop where
  /-- `Pack` refuses nothing, so that the length has to fit into the prefix -/
  fits : length < 2 ^ 16
  back : ∃ bytes, Writes packs bytes ∧ ∀ r : Reader, r.stream.At bytes →
    ∃ r', unpack r = .ok (v, r') ∧ r'.stream.bytes = r.stream.bytes ∧
      r'.stream.position = r.stream.position + bytes.length

section

variable {α : Type} {packs : MemoryStream → MemoryStream} {unpack : Unpacking α} {length : ℕ}
  {v : α}

theorem RoundTrips.of_yields (hfits : length < 2 ^ 16) (hw : Writes packs (written packs))
    (hy : Yields unpack (written packs) v) : RoundTrips packs unpack length v := by
  refine ⟨hfits, written packs, hw, fun r hat ↦ ?_⟩
  obtain ⟨r', hread, hstream⟩ := hy r hat
  refine ⟨r', hread, ?_, ?_⟩
  · rw [hstream]
    rfl
  · rw [hstream, hat.position]

/-- A stream with nothing else in it. -/
theorem exists_at (bytes : List UInt8) : ∃ r : Reader, r.stream.At bytes :=
  ⟨⟨fun _ ↦ [], ⟨bytes, 0, Nat.zero_le _⟩⟩, [], by simp⟩

theorem RoundTrips.exists_read (h : RoundTrips packs unpack length v) :
    ∃ r r', r.stream.At (written packs) ∧ unpack r = .ok (v, r') := by
  obtain ⟨bytes, hw, hread⟩ := h.back
  rw [hw.written]
  obtain ⟨r, hat⟩ := exists_at bytes
  obtain ⟨r', hr', -⟩ := hread r hat
  exact ⟨r, r', hat, hr'⟩

end

theorem string_roundTrips_iff {E : Utf8Encoding} (hE : E.Replaces) (s : List UInt16) :
    RoundTrips (packString E s) (unpackString E) (E.getBytes s).length s ↔ StringFits s := by
  have hstring := recovers_string hE
  constructor
  · intro h
    obtain ⟨r, r', hat, hread⟩ := h.exists_read
    exact hstring.only s r r' hat hread
  · intro hs
    refine .of_yields ?_ (hstring.writes s) (hstring.yields s hs)
    obtain ⟨cs, rfl, hlt⟩ := hs
    rwa [E.getBytes_utf16]

theorem list_roundTrips_iff {α : Type} {pack : α → MemoryStream → MemoryStream}
    {unpack : Unpacking α} {good : α → Prop} (h : Recovers pack unpack good)
    (lst target : List α) :
    RoundTrips (packList pack lst) (unpackList unpack target) lst.length lst ↔
      target = [] ∧ lst.length < 2 ^ 16 ∧ ∀ x ∈ lst, good x := by
  constructor
  · intro hback
    obtain ⟨r, r', hat, hread⟩ := hback.exists_read
    exact h.only_list hat (.inl hback.fits) hread
  · rintro ⟨rfl, hlt, hgood⟩
    exact .of_yields hlt (h.list.writes lst) (h.yields_list hlt hgood)

/-- A string comes back exactly if it is text of at most 65535 octets; a list, if
it was read into an empty one, has at most 65535 elements, and these come back. -/
theorem packer_roundTrips_iff {E : Utf8Encoding} (hE : E.Replaces)
    (isDefined : ℕ → Scalar.i32.Val → Bool) :
    (∀ s, RoundTrips (packString E s) (unpackString E) (E.getBytes s).length s ↔ StringFits s) ∧
    ∀ (t : Ty) (ht : isSupported (.vector t) = true) (lst target : List (Val t)),
      RoundTrips (pack E (.vector t) lst)
          (unpackList (unpack E isDefined t (isSupported_of_vector ht)) target) lst.length lst ↔
        target = [] ∧ lst.length < 2 ^ 16 ∧ ∀ x ∈ lst, Fits isDefined t x := by
  refine ⟨string_roundTrips_iff hE, fun t ht lst target ↦ ?_⟩
  exact list_roundTrips_iff (recovers isDefined hE t (isSupported_of_vector ht)) lst target

/-! ## An encoding -/

/-- The text in front, and a replacement character for every octet that starts
none. -/
def decodeUtf8 : List UInt8 → List Char
  | [] => []
  | b :: bs =>
      match (b :: bs).toByteArray.utf8DecodeChar? 0 with
      | some c => c :: decodeUtf8 (bs.drop (c.utf8Size - 1))
      | none => '\uFFFD' :: decodeUtf8 bs
termination_by bs => bs.length
decreasing_by
  · simp only [List.length_drop, List.length_cons]
    omega
  · simp

theorem decodeUtf8_char (c : Char) (bytes : List UInt8) :
    decodeUtf8 (String.utf8EncodeChar c ++ bytes) = c :: decodeUtf8 bytes := by
  have hpos := c.utf8Size_pos
  have hlength := String.length_utf8EncodeChar c
  cases hc : String.utf8EncodeChar c with
  | nil =>
      rw [hc, List.length_nil] at hlength
      omega
  | cons b bs =>
      have hdecode : (b :: (bs ++ bytes)).toByteArray.utf8DecodeChar? 0 = some c := by
        have h := @ByteArray.utf8DecodeChar?_utf8EncodeChar_append bytes.toByteArray c
        rwa [hc, ← List.toByteArray_append] at h
      rw [hc, List.length_cons] at hlength
      rw [List.cons_append, decodeUtf8, hdecode]
      dsimp only
      rw [← hlength, Nat.add_sub_cancel, List.drop_left]

theorem decodeUtf8_utf8 (cs : List Char) (bytes : List UInt8) :
    decodeUtf8 (utf8 cs ++ bytes) = cs ++ decodeUtf8 bytes := by
  induction cs with
  | nil => rfl
  | cons c cs ih => rw [utf8_cons, List.append_assoc, decodeUtf8_char, ih, List.cons_append]

theorem length_utf16EncodeChar_le (c : Char) : (utf16EncodeChar c).length ≤ c.utf8Size := by
  rw [← String.length_utf8EncodeChar]
  rcases utf8EncodeChar_cases c with ⟨h, he⟩ | ⟨-, h, he⟩ | ⟨-, h, he⟩ | ⟨-, he⟩
  · rw [he, utf16EncodeChar, if_pos (Nat.lt_trans h (by decide))]
    simp
  · rw [he, utf16EncodeChar, if_pos (Nat.lt_trans h (by decide))]
    simp
  · rw [he, utf16EncodeChar, if_pos h]
    simp
  · simp only [he, utf16EncodeChar]
    split_ifs <;> simp

theorem length_utf16_le (cs : List Char) : (utf16 cs).length ≤ (utf8 cs).length := by
  induction cs with
  | nil => exact Nat.le_refl 0
  | cons c cs ih =>
      have hchar := length_utf16EncodeChar_le c
      rw [utf16_cons, utf8_cons, List.length_append, List.length_append,
        String.length_utf8EncodeChar]
      omega

theorem length_utf16_replicate (n : ℕ) : (utf16 (List.replicate n 'a')).length = n := by
  induction n with
  | zero => rfl
  | succ n ih =>
      rw [List.replicate_succ, utf16_cons, List.length_append, ih, Nat.add_comm]
      rfl

theorem length_decodeUtf8 (bytes : List UInt8) :
    (utf16 (decodeUtf8 bytes)).length ≤ bytes.length := by
  induction bytes using decodeUtf8.induct with
  | case1 => simp [decodeUtf8]
  | case2 b bs c hc ih =>
      have hunits := length_utf16EncodeChar_le c
      have hsize := ByteArray.le_size_of_utf8DecodeChar?_eq_some hc
      rw [List.size_toByteArray, List.length_cons] at hsize
      rw [List.length_drop] at ih
      rw [decodeUtf8, hc]
      simp only [utf16_cons, List.length_append, List.length_cons]
      omega
  | case3 b bs hc ih =>
      rw [decodeUtf8, hc]
      simp only [utf16_cons, List.length_append, List.length_cons]
      exact Nat.add_comm 1 bs.length ▸ Nat.add_le_add (by decide) ih

theorem out_utf16to8 (cs : List Char) : (Utf8.utf16to8 (utf16 cs)).out = utf8 cs := by
  rw [Utf8.utf16to8_utf16]

/-- `Encoding.UTF8` with a replacement character for every octet that is out of
place. -/
def replacingEncoding : Utf8Encoding where
  getBytes s := (Utf8.utf16to8 s).out
  getString bytes := utf16 (decodeUtf8 bytes)
  getBytes_utf16 := out_utf16to8
  getString_utf8 cs := by
    have h := decodeUtf8_utf8 cs []
    rw [List.append_nil, decodeUtf8, List.append_nil] at h
    rw [h]

theorem replaces_replacingEncoding : replacingEncoding.Replaces where
  getString_text bytes := ⟨decodeUtf8 bytes, rfl⟩
  getString_append cs bytes := by
    change utf16 (decodeUtf8 (utf8 cs ++ bytes)) = _
    rw [decodeUtf8_utf8, utf16_append]
    rfl
  getString_length := length_decodeUtf8

/-- A list of structs of an enumerator and a string. -/
theorem packer_roundTrips_structs :
    let t : Ty := .struct (.cons (.enum 0) (.cons .string .nil))
    let lst : List (BitVec 32 × List UInt16 × Unit) := [(3, utf16 ['é', '😀'], ()), (3, [], ())]
    RoundTrips (pack replacingEncoding (.vector t) lst)
      (unpackList (unpack replacingEncoding (fun _ n ↦ n == 3) t rfl) []) lst.length lst := by
  intro t lst
  have hiff := (packer_roundTrips_iff replaces_replacingEncoding fun _ n ↦ n == 3).2 t rfl lst []
  refine hiff.mpr ⟨rfl, by decide, ?_⟩
  intro x hx
  rcases List.mem_cons.mp hx with rfl | hx
  · exact ⟨rfl, ⟨['é', '😀'], rfl, by decide⟩, trivial⟩
  · rw [List.mem_singleton.mp hx]
    exact ⟨rfl, ⟨[], rfl, by decide⟩, trivial⟩

/-- A list that already has an element, and a text of 65536 letters. -/
theorem not_packer_roundTrips :
    (¬ ∀ lst target : List (Val (.scalar .u8)),
      RoundTrips (pack replacingEncoding (.vector (.scalar .u8)) lst)
        (unpackList (unpack replacingEncoding (fun _ _ ↦ true) (.scalar .u8) rfl) target)
        lst.length lst) ∧
    ¬ ∃ bytes, Writes (packString replacingEncoding (utf16 (List.replicate (2 ^ 16) 'a'))) bytes ∧
      Yields (unpackString replacingEncoding) bytes (utf16 (List.replicate (2 ^ 16) 'a')) := by
  refine ⟨fun hall ↦ ?_, ?_⟩
  · have hiff := list_roundTrips_iff (recovers (fun _ _ ↦ true) replaces_replacingEncoding
      (.scalar .u8) rfl) [(5 : BitVec 8)] [(7 : BitVec 8)]
    exact absurd (hiff.mp (hall _ _)).1 (by simp)
  · rintro ⟨bytes, hw, hy⟩
    obtain ⟨r, hat⟩ := exists_at bytes
    obtain ⟨r', hread, -⟩ := hy r hat
    rw [← hw.written] at hat
    obtain ⟨cs, hcs, hlt⟩ := (recovers_string replaces_replacingEncoding).only _ r r' hat hread
    have hunits := length_utf16_le cs
    rw [← hcs, length_utf16_replicate] at hunits
    omega

end WiseKernel.Client
