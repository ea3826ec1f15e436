import WiseKernel.Client.Streaming
import WiseKernel.Packing.Reuse

/-!
# Zero bytes in strings

`pack` writes the bytes of a string with their number, `unpack` puts as many
into a zero-terminated array and assigns that.  What comes back is the string
up to its first zero byte, while the read cursor moves over all of it.
-/

namespace WiseKernel.Packing

open WiseKernel.Lib WiseKernel.Lib.Call WiseKernel.Net

/-! ## Values without zero bytes -/

mutual

def Ty.NoZero : (t : Ty) → t.Val → Prop
  | .string, s => ∀ b ∈ (show List UInt8 from s), b ≠ 0
  | .vector t, vec => ∀ x ∈ (show List t.Val from vec), t.NoZero x
  | .map k v, m => ∀ kv ∈ (show List (k.Val × v.Val) from m), k.NoZero kv.1 ∧ v.NoZero kv.2
  | .struct fs, v => fs.NoZero v
  | .scalar _, _ | .bool, _ | .enum _, _ | .wstring, _ | .date, _ | .timestamp, _ => True

def Fields.NoZero : (fs : Fields) → fs.Val → Prop
  | .nil, _ => True
  | .cons t fs, (x, xs) => t.NoZero x ∧ fs.NoZero xs

end

mutual

theorem Ty.noZero_init : (t : Ty) → t.NoZero t.init
  | .string => List.forall_mem_nil _
  | .vector _ => List.forall_mem_nil _
  | .map _ _ => List.forall_mem_nil _
  | .struct fs => fs.noZero_init
  | .scalar _ | .bool | .enum _ | .wstring | .date | .timestamp => trivial

theorem Fields.noZero_init : (fs : Fields) → fs.NoZero fs.init
  | .nil => trivial
  | .cons t fs => ⟨t.noZero_init, fs.noZero_init⟩

end

section

variable (less : (t : Ty) → t.Val → t.Val → Bool)

mutual

/-- The entries of every `std::map` are in the order of their keys. -/
def Ty.Sorted : (t : Ty) → t.Val → Prop
  | .vector t, vec => ∀ x ∈ (show List t.Val from vec), t.Sorted x
  | .map k v, m => (show List (k.Val × v.Val) from m).Pairwise
      (fun a b ↦ less k a.1 b.1 = true) ∧
        ∀ kv ∈ (show List (k.Val × v.Val) from m), k.Sorted kv.1 ∧ v.Sorted kv.2
  | .struct fs, v => fs.Sorted v
  | .scalar _, _ | .bool, _ | .enum _, _ | .string, _ | .wstring, _ | .date, _
  | .timestamp, _ => True

def Fields.Sorted : (fs : Fields) → fs.Val → Prop
  | .nil, _ => True
  | .cons t fs, (x, xs) => t.Sorted x ∧ fs.Sorted xs

end

mutual

/-- A wide string that `pack` accepts is a text. -/
theorem Ty.wellFormed_of_noZero : (t : Ty) → (v : t.Val) → t.Fits v → t.Sorted less v →
    t.NoZero v → t.WellFormed less v
  | .string, _, _, _, hzero => hzero
  | .wstring, s, hfits, _, _ => Utf8.exists_utf16_of_utf16to8 s hfits.2.1
  | .vector t, _, hfits, hsorted, hzero => fun x hx ↦
      t.wellFormed_of_noZero x (hfits.2 x hx) (hsorted x hx) (hzero x hx)
  | .map k v, _, hfits, hsorted, hzero => ⟨hsorted.1, fun kv hkv ↦
      ⟨k.wellFormed_of_noZero kv.1 (hfits.2 kv hkv).1 (hsorted.2 kv hkv).1 (hzero kv hkv).1,
        v.wellFormed_of_noZero kv.2 (hfits.2 kv hkv).2 (hsorted.2 kv hkv).2 (hzero kv hkv).2⟩⟩
  | .struct fs, v, hfits, hsorted, hzero => fs.wellFormed_of_noZero v hfits hsorted hzero
  | .scalar _, _, _, _, _ | .bool, _, _, _, _ | .enum _, _, _, _, _ | .date, _, _, _, _
  | .timestamp, _, _, _, _ => trivial

theorem Fields.wellFormed_of_noZero : (fs : Fields) → (v : fs.Val) → fs.Fits v →
    fs.Sorted less v → fs.NoZero v → fs.WellFormed less v
  | .nil, _, _, _, _ => trivial
  | .cons t fs, (x, xs), hfits, hsorted, hzero =>
      ⟨t.wellFormed_of_noZero x hfits.1 hsorted.1 hzero.1,
        fs.wellFormed_of_noZero xs hfits.2 hsorted.2 hzero.2⟩

end

end

/-! ## What an `unpack` can leave -/

/-- However the call ends, `P` holds of its target. -/
def Leaves {α : Type} (c : PackerCall α) (P : α → Prop) : Prop := ∀ p, P (c p).value

section

variable {α β : Type} {c : PackerCall α} {next : α → PackerCall β} {P : α → Prop}
  {Q : β → Prop}

theorem leaves_ret {a : α} (h : P a) : Leaves (ret a) P := fun _ ↦ h

theorem leaves_fail {a : α} (h : P a) : Leaves (fail a) P := fun _ ↦ h

theorem Leaves.guarded (h : Leaves c P) {a : α} (ha : P a) : Leaves (guarded a c) P := by
  intro p
  cases hp : Flagged.valid p with
  | true => simpa [Call.guarded, hp] using h p
  | false => simpa [Call.guarded, hp] using ha

theorem Leaves.assigned (h : Leaves c P) : Leaves (assigned c) P := h

theorem Leaves.mapValue (h : Leaves c P) {f : Bool → α → β} (hf : ∀ ok a, P a → Q (f ok a)) :
    Leaves (mapValue f c) Q := by
  intro p
  exact hf _ _ (h p)

theorem Leaves.check (h : Leaves c P) {stop : α → β} (hstop : ∀ a, P a → Q (stop a))
    (hnext : ∀ a, P a → Leaves (next a) Q) : Leaves (check c stop next) Q := by
  intro p
  cases hok : (c p).ok with
  | true => simpa [Call.check, hok] using hnext _ (h p) (c p).state
  | false => simpa [Call.check, hok] using hstop _ (h p)

theorem Leaves.ignoring (h : Leaves c P) (hnext : ∀ a, P a → Leaves (next a) Q) :
    Leaves (ignoring c next) Q := by
  intro p
  exact hnext _ (h p) (c p).state

theorem leaves_any (c : PackerCall α) : Leaves c fun _ ↦ True := fun _ ↦ trivial

end

theorem leaves_unpackString {s : List UInt8} (hs : ∀ b ∈ s, b ≠ 0) :
    Leaves (unpackString s) fun s ↦ ∀ b ∈ s, b ≠ 0 := by
  refine Leaves.guarded ?_ hs
  refine (leaves_any _).ignoring fun len _ ↦ ?_
  split_ifs
  · exact leaves_fail hs
  · refine (leaves_any _).check (fun _ _ ↦ hs) fun tv _ ↦ leaves_ret ?_
    intro b hb
    simpa using List.mem_takeWhile_imp hb
  · exact leaves_ret hs

section

variable {α β : Type} {P : α → Prop} {Q : β → Prop}

theorem leaves_unpackEach {unpack : α → PackerCall α} (h : ∀ x, P x → Leaves (unpack x) P)
    {vec : List α} (hvec : ∀ x ∈ vec, P x) :
    Leaves (unpackEach unpack vec) fun vec ↦ ∀ x ∈ vec, P x := by
  induction vec with
  | nil => exact leaves_ret hvec
  | cons x xs ih =>
      obtain ⟨hx, hxs⟩ := List.forall_mem_cons.mp hvec
      refine (h x hx).assigned.check ?_ ?_
      · intro y hy
        exact List.forall_mem_cons.mpr ⟨hy, hxs⟩
      · intro y hy
        refine (ih hxs).mapValue fun _ ys hys ↦ ?_
        exact List.forall_mem_cons.mpr ⟨hy, hys⟩

theorem leaves_unpackVector {unpack : α → PackerCall α} (h : ∀ x, P x → Leaves (unpack x) P)
    {init : α} (hinit : P init) {vec : List α} (hvec : ∀ x ∈ vec, P x) :
    Leaves (unpackVector unpack init vec) fun vec ↦ ∀ x ∈ vec, P x := by
  refine Leaves.guarded ?_ hvec
  refine (leaves_any _).check (fun _ _ ↦ hvec) fun len _ ↦ ?_
  split_ifs with hlen
  · exact leaves_fail hvec
  · apply leaves_unpackEach h
    intro x hx
    rcases mem_resize (Nat.not_lt.mp hlen) hx with hold | rfl
    · exact hvec x (List.mem_of_mem_take hold)
    · exact hinit

variable {lt : α → α → Bool} {unpackKey : PackerCall α} {unpackValue : PackerCall β}

theorem forall_mem_emplace {R : α × β → Prop} {key : α} {value : β} (h : R (key, value))
    {m : List (α × β)} (hm : ∀ kv ∈ m, R kv) : ∀ kv ∈ (emplace lt key value m).2, R kv := by
  induction m with
  | nil => simpa [emplace] using h
  | cons kv m ih =>
      obtain ⟨hkv, hrest⟩ := List.forall_mem_cons.mp hm
      simp only [emplace]
      split_ifs
      · exact List.forall_mem_cons.mpr ⟨hkv, ih hrest⟩
      · exact List.forall_mem_cons.mpr ⟨h, hm⟩
      · exact hm

theorem leaves_unpackPairs (hk : Leaves unpackKey P) (hv : Leaves unpackValue Q) (n : ℕ)
    {m : List (α × β)} (hm : ∀ kv ∈ m, P kv.1 ∧ Q kv.2) :
    Leaves (unpackPairs lt unpackKey unpackValue n m) fun m ↦ ∀ kv ∈ m, P kv.1 ∧ Q kv.2 := by
  induction n generalizing m with
  | zero => exact leaves_ret hm
  | succ n ih =>
      refine hk.assigned.check (fun _ _ ↦ hm) fun key hkey ↦ ?_
      refine hv.assigned.check (fun _ _ ↦ hm) fun value hvalue ↦ ?_
      refine Leaves.check (P := fun m ↦ ∀ kv ∈ m, P kv.1 ∧ Q kv.2) ?_ (fun _ h ↦ h) fun _ h ↦ ih h
      intro p
      exact forall_mem_emplace (R := fun kv ↦ P kv.1 ∧ Q kv.2) ⟨hkey, hvalue⟩ hm

theorem leaves_unpackMap (hk : Leaves unpackKey P) (hv : Leaves unpackValue Q)
    {m : List (α × β)} (hm : ∀ kv ∈ m, P kv.1 ∧ Q kv.2) :
    Leaves (unpackMap lt unpackKey unpackValue m) fun m ↦ ∀ kv ∈ m, P kv.1 ∧ Q kv.2 := by
  refine Leaves.guarded ?_ hm
  refine (leaves_any _).check (fun _ _ ↦ hm) fun len _ ↦ ?_
  split_ifs
  · exact leaves_fail hm
  · exact leaves_unpackPairs hk hv len hm

end

section

variable (less : (t : Ty) → t.Val → t.Val → Bool)

mutual

/-- No `unpack` brings a zero byte into a string. -/
theorem Ty.leaves_unpack : (t : Ty) → (x : t.Val) → t.NoZero x →
    Leaves (t.unpack less x) t.NoZero
  | .string, _, h => leaves_unpackString h
  | .vector t, _, h => leaves_unpackVector (fun x hx ↦ t.leaves_unpack x hx) t.noZero_init h
  | .map k v, _, h =>
      leaves_unpackMap (k.leaves_unpack _ k.noZero_init) (v.leaves_unpack _ v.noZero_init) h
  | .struct fs, v, h => (fs.leaves_unpack v h).guarded h
  | .scalar _, _, _ | .bool, _, _ | .enum _, _, _ | .wstring, _, _ | .date, _, _
  | .timestamp, _, _ => leaves_any _

theorem Fields.leaves_unpack : (fs : Fields) → (x : fs.Val) → fs.NoZero x →
    Leaves (fs.unpack less x) fs.NoZero
  | .nil, _, _ => leaves_any _
  | .cons t fs, (x, xs), h =>
      (t.leaves_unpack x h.1).ignoring fun _ hy ↦
        (fs.leaves_unpack xs h.2).mapValue fun _ _ hys ↦ ⟨hy, hys⟩

end

/-! ## Main result -/

/-- At its encoding, a sorted value within the limits comes back exactly when
no string in it holds a zero byte. -/
theorem Ty.returned_iff (t : Ty) {v old : t.Val} (hfits : t.Fits v) (hsorted : t.Sorted less v)
    (hold : t.Clean old) {q : BitsPacker} (hq : q.isValid = true)
    (hat : q.At (t.encode q.wireLe v)) :
    (t.unpack less old q).ok = true ∧ (t.unpack less old q).value = v ↔ t.NoZero v := by
  constructor
  · rintro ⟨hok, hvalue⟩
    -- the same value would have come into a new variable, which holds no zero byte
    obtain ⟨-, -, hsame⟩ := t.agree_unpack less old t.init hold t.fresh_init.clean q
    rw [← hvalue, hsame hok]
    exact t.leaves_unpack less t.init t.noZero_init q
  · intro hzero
    have hwf := t.wellFormed_of_noZero less v hfits hsorted hzero
    obtain ⟨hok, hvalue, -⟩ := t.unpacks_of_clean less hold hfits hwf q hq hat
    exact ⟨hok, hvalue⟩

end

/-- The octets come back up to the first zero among them. -/
theorem unpacks_cString {s : List UInt8} (hfits : stringFits s) :
    Unpacks (unpackString []) (fun le ↦ stringBytes le s) (cString s) := by
  have hsize : s.length ≤ maxContainerSize := Nat.le_trans hfits (by decide)
  apply Unpacks.guarded
  refine (unpacks_unpackLen hsize).assigned.ignoring ?_
  rw [if_neg (Nat.not_lt.mpr hfits)]
  cases s with
  | nil => exact unpacks_ret []
  | cons b s =>
      have hbytes : Unpacks (unpackBytes (b :: s).length) (fun _ ↦ b :: s) (b :: s) :=
        (unpacks_read (b :: s)).guarded []
      rw [if_pos (by simp)]
      exact hbytes.assigned.last (fun _ ↦ []) cString

theorem cString_eq_iff {s : List UInt8} : cString s = s ↔ ∀ b ∈ s, b ≠ 0 := by
  rw [cString, List.takeWhile_eq_self_iff]
  simp

theorem length_cString_eq_iff {s : List UInt8} :
    (cString s).length = s.length ↔ ∀ b ∈ s, b ≠ 0 := by
  rw [← cString_eq_iff]
  constructor
  · intro hlen
    exact (List.takeWhile_prefix _).eq_of_length hlen
  · intro h
    rw [h]

/-- The server's side of a string from the client, with the read cursor where
the client began to write. -/
theorem returns_unpackString_client (E : Client.Utf8Encoding) (s : List UInt16)
    (stream : Client.MemoryStream) (hostLe : Bool) (hfits : stringFits (E.getBytes s)) :
    let sent := Client.packString E s stream
    let q := BitsPacker.new hostLe ⟨sent.bytes, stream.position⟩
    Returns (unpackString []) q (cString (E.getBytes s))
      (q.skip (2 + (E.getBytes s).length)) := by
  intro sent q
  have hwrites := (Client.writes_packLen (E.getBytes s).length).then
    (Client.writes_packAll (E.getBytes s)) stream
  have hsent : sent.bytes = overwrite stream.bytes stream.position
      (stringBytes true (E.getBytes s)) := congrArg Client.MemoryStream.bytes hwrites
  have hpos : (stream.bytes.take stream.position).length = stream.position :=
    List.length_take_of_le stream.inside
  have hat : q.At (stringBytes q.wireLe (E.getBytes s)) := by
    rw [BitsPacker.new_wireLe]
    refine ⟨stream.bytes.drop (stream.position + (stringBytes true (E.getBytes s)).length), ?_⟩
    change sent.bytes.drop stream.position = _
    rw [hsent, overwrite, List.append_assoc]
    exact List.drop_left' hpos
  have hreturns := unpacks_cString hfits q rfl hat
  have hlen : (stringBytes q.wireLe (E.getBytes s)).length = 2 + (E.getBytes s).length := by
    rw [stringBytes, List.length_append, lenBytes, length_scalarBytes]
    rfl
  rw [hlen] at hreturns
  exact hreturns

/-- What `pack` accepts, in any nesting, and what a client sends as a string of
at most 2048 octets come back byte for byte exactly when no string among them
holds a zero byte. -/
theorem strings_survive (less : (t : Ty) → t.Val → t.Val → Bool) :
    (∀ (t : Ty) (v old : t.Val) (p : BitsPacker) (post : List UInt8), t.Sorted less v →
      t.Clean old → (t.pack v p).ok = true →
        ∃ appended, (t.pack v p).state.buf.bytes = p.buf.bytes ++ appended ∧
          let q : BitsPacker := ⟨⟨(t.pack v p).state.buf.bytes ++ post, p.buf.size⟩, p.hostLe,
            p.isLe, true⟩
          let r := t.unpack less old q
          (r.ok = true ∧ r.value = v) ↔ t.NoZero v) ∧
    ∀ (E : Client.Utf8Encoding) (s : List UInt16) (stream : Client.MemoryStream) (hostLe : Bool),
      (E.getBytes s).length ≤ maxStringSize →
        let sent := Client.packString E s stream
        let r := unpackString [] (.new hostLe ⟨sent.bytes, stream.position⟩)
        r.ok = true ∧ r.state.buf.readPos = stream.position + 2 + (E.getBytes s).length ∧
          (r.value.length = (E.getBytes s).length ↔ ∀ b ∈ E.getBytes s, b ≠ 0) ∧
          (r.value = E.getBytes s ↔ ∀ b ∈ E.getBytes s, b ≠ 0) := by
  constructor
  · intro t v old p post hsorted hold hpack
    obtain ⟨hp, hfits⟩ := (t.ok_pack_iff v p).mp hpack
    obtain ⟨-, -, hstate⟩ := t.packs_pack v hfits p hp
    have hbytes : (t.pack v p).state.buf.bytes = p.buf.bytes ++ t.encode p.wireLe v := by
      rw [hstate]
      rfl
    refine ⟨t.encode p.wireLe v, hbytes, ?_⟩
    intro q r
    apply t.returned_iff less hfits hsorted hold rfl
    refine ⟨post, ?_⟩
    change ((t.pack v p).state.buf.bytes ++ post).drop p.buf.bytes.length = _
    rw [hbytes, List.append_assoc, List.drop_left]
    rfl
  · intro E s stream hostLe hfits sent r
    obtain ⟨hok, hvalue, hend⟩ := returns_unpackString_client E s stream hostLe hfits
    refine ⟨hok, ?_, ?_, ?_⟩
    · change (unpackString [] _).state.buf.readPos = _
      rw [hend, Nat.add_assoc]
      rfl
    · change (unpackString [] _).value.length = _ ↔ _
      rw [hvalue, length_cString_eq_iff]
    · change (unpackString [] _).value = _ ↔ _
      rw [hvalue, cString_eq_iff]

/-- The three bytes of `a\0b` are packed and one of them comes back, with the
read cursor behind them all. -/
theorem not_strings_survive :
    let packed := packString [97, 0, 98] (.new true ⟨[], 0⟩)
    let r := unpackString [] packed.state
    packed.ok = true ∧ r.ok = true ∧ r.value = [97] ∧ r.state.buf.readPos = 5 := by
  decide

end WiseKernel.Packing
