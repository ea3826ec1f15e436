import WiseKernel.Packing.BitsPacker

/-!
# Failures are final

Every overload of `pack` and `unpack` is regular: its result is `is_valid_`
after it, on a cleared flag it does nothing, and it copies no byte from behind
`pos_`.  The many assignments to `is_valid_` in the overloads are thereby
shown to copy a flag that already holds the value.
-/

namespace WiseKernel.Packing

open WiseKernel.Lib WiseKernel.Lib.Call WiseKernel.Net

/-- The copy ends at or before `pos_`. -/
def Access.Inside (a : Access) : Prop := a.start + a.len ≤ a.pos

abbrev Steady {α : Type} (c : PackerCall α) : Prop := Regular Access.Inside c

/-! ## Bytes and scalars -/

theorem sound_append (bytes : List UInt8) : Sound Access.Inside (append bytes) :=
  fun _ _ ↦ ⟨rfl, by simp [append]⟩

/-- `resize_buffer::read` copies only where there is something to copy. -/
theorem sound_read (len : ℕ) : Sound Access.Inside (read len) := by
  intro p _
  refine ⟨rfl, ?_⟩
  intro a ha
  by_cases hle : p.buf.readPos + len ≤ p.buf.size
  · simp only [read, ResizeBuffer.read_of_le hle, true_and] at ha
    split_ifs at ha
    · simp only [List.mem_singleton] at ha
      subst ha
      exact hle
    · simp at ha
  · by_cases h0 : len = 0
    · simp [read, h0] at ha
    · simp [read, ResizeBuffer.read_of_lt (Nat.lt_of_not_le hle) h0] at ha

theorem steady_packBytes (bytes : List UInt8) : Steady (packBytes bytes) :=
  (sound_append bytes).guarded ()

theorem steady_unpackBytes (len : ℕ) : Steady (unpackBytes len) :=
  (sound_read len).guarded []

theorem steady_packScalar {s : Scalar} (v : s.Val) : Steady (packScalar v) := by
  apply Sound.guarded
  intro p hp
  by_cases hle : p.isLe = true
  · simpa [hle] using sound_append (memory p.hostLe v) p hp
  · simpa [hle] using sound_append (memory p.hostLe (swapEndian v)) p hp

theorem steady_unpackScalar {s : Scalar} (v : s.Val) : Steady (unpackScalar v) := by
  apply Sound.guarded
  intro p hp
  by_cases hle : p.isLe = true
  · simp only [hle, if_true]
    exact (sound_read s.size).mapValue _ p hp
  · simp only [hle]
    exact (sound_read s.size).mapValue _ p hp

theorem steady_packLen (len : ℕ) : Steady (packLen len) := steady_packScalar _

theorem steady_unpackLen : Steady unpackLen := (steady_unpackScalar _).mapValue _

/-! A nested call is followed by an assignment of its result, which is already
in the flag. -/

theorem Steady.nested {α β : Type} {c : PackerCall α} (h : Steady c) (stop : α → β)
    {next : α → PackerCall β} (hnext : ∀ a, Sound Access.Inside (next a)) :
    Steady (check (assigned c) stop next) := by
  rw [h.assigned_eq]
  exact h.check stop hnext

theorem steady_packEnum (v : Scalar.i32.Val) : Steady (packEnum v) := by
  apply Sound.guarded
  rw [(steady_packScalar (s := .i32) v).assigned_eq]
  exact (steady_packScalar _).sound

theorem steady_unpackEnum (v : Scalar.i32.Val) : Steady (unpackEnum v) :=
  ((steady_unpackScalar _).nested _ fun _ ↦ (regular_ret _).sound).sound.guarded v

theorem steady_packBool (b : Bool) : Steady (packBool b) := by
  apply Sound.guarded
  rw [(steady_packScalar (s := .u8) (if b then 1 else 0)).assigned_eq]
  exact (steady_packScalar _).sound

theorem steady_unpackBool (b : Bool) : Steady (unpackBool b) :=
  ((steady_unpackScalar _).nested _ fun _ ↦ (regular_ret _).sound).sound.guarded b

/-! ## Dates and strings -/

theorem steady_packDate (d : Date) : Steady (packDate d) := by
  apply Sound.guarded
  refine (steady_packScalar _).sound.check _ fun _ ↦ ?_
  refine (steady_packScalar _).sound.check _ fun _ ↦ ?_
  exact (steady_packScalar _).sound.check _ fun _ ↦ (regular_ret _).sound

theorem steady_unpackDate (d : Date) : Steady (unpackDate d) := by
  apply Sound.guarded
  refine (steady_unpackScalar _).sound.check _ fun _ ↦ ?_
  refine (steady_unpackScalar _).sound.check _ fun _ ↦ ?_
  exact (steady_unpackScalar _).sound.check _ fun _ ↦ (regular_ret _).sound

theorem steady_packTimestamp (t : Timestamp) : Steady (packTimestamp t) := by
  apply Sound.guarded
  refine (steady_packScalar _).sound.check _ fun _ ↦ ?_
  refine (steady_packScalar _).sound.check _ fun _ ↦ ?_
  refine (steady_packScalar _).sound.check _ fun _ ↦ ?_
  refine (steady_packScalar _).sound.check _ fun _ ↦ ?_
  refine (steady_packScalar _).sound.check _ fun _ ↦ ?_
  refine (steady_packScalar _).sound.check _ fun _ ↦ ?_
  exact (steady_packScalar _).sound.check _ fun _ ↦ (regular_ret _).sound

theorem steady_unpackTimestamp (t : Timestamp) : Steady (unpackTimestamp t) := by
  apply Sound.guarded
  refine (steady_unpackScalar _).sound.check _ fun _ ↦ ?_
  refine (steady_unpackScalar _).sound.check _ fun _ ↦ ?_
  refine (steady_unpackScalar _).sound.check _ fun _ ↦ ?_
  refine (steady_unpackScalar _).sound.check _ fun _ ↦ ?_
  refine (steady_unpackScalar _).sound.check _ fun _ ↦ ?_
  refine (steady_unpackScalar _).sound.check _ fun _ ↦ ?_
  exact (steady_unpackScalar _).sound.check _ fun _ ↦ (regular_ret _).sound

theorem steady_packString (s : List UInt8) : Steady (packString s) := by
  apply Sound.guarded
  split_ifs
  · exact (regular_fail _).sound
  · refine ((steady_packLen _).nested _ fun _ ↦ ?_).sound
    exact ((steady_packBytes s).nested _ fun _ ↦ (regular_ret _).sound).sound
  · exact ((steady_packLen _).nested _ fun _ ↦ (regular_ret _).sound).sound

/-- The length is used although reading it may have failed; what follows is
regular, so a cleared flag stays. -/
theorem steady_unpackString (s : List UInt8) : Steady (unpackString s) := by
  apply Sound.guarded
  rw [steady_unpackLen.assigned_eq]
  refine (steady_unpackLen.ignoring fun len ↦ ?_).sound
  split_ifs
  · exact regular_fail _
  · exact (steady_unpackBytes len).nested _ fun _ ↦ (regular_ret _).sound
  · exact regular_ret _

/-! ## Containers -/

section

variable {α β : Type}

theorem steady_packEach {pack : α → PackerCall Unit} (h : ∀ x, Steady (pack x)) (vec : List α) :
    Steady (packEach pack vec) := by
  induction vec with
  | nil => exact regular_ret _
  | cons x xs ih => exact (h x).nested _ fun _ ↦ ih.sound

theorem steady_packVector {pack : α → PackerCall Unit} (h : ∀ x, Steady (pack x))
    (vec : List α) : Steady (packVector pack vec) := by
  apply Sound.guarded
  split_ifs
  · exact (regular_fail _).sound
  · exact ((steady_packLen _).nested _ fun _ ↦ (steady_packEach h vec).sound).sound

theorem steady_unpackEach {unpack : α → PackerCall α} (h : ∀ x, Steady (unpack x))
    (vec : List α) : Steady (unpackEach unpack vec) := by
  induction vec with
  | nil => exact regular_ret _
  | cons x xs ih => exact (h x).nested _ fun _ ↦ ih.sound.mapValue _

theorem steady_unpackVector {unpack : α → PackerCall α} (h : ∀ x, Steady (unpack x))
    (init : α) (vec : List α) : Steady (unpackVector unpack init vec) := by
  apply Sound.guarded
  refine (steady_unpackLen.nested _ fun len ↦ ?_).sound
  split_ifs
  · exact (regular_fail _).sound
  · exact (steady_unpackEach h _).sound

variable {packKey : α → PackerCall Unit} {packValue : β → PackerCall Unit}

theorem steady_packPairs (hk : ∀ x, Steady (packKey x)) (hv : ∀ x, Steady (packValue x))
    (m : List (α × β)) : Steady (packPairs packKey packValue m) := by
  induction m with
  | nil => exact regular_ret _
  | cons kv m ih =>
      exact (hk kv.1).nested _ fun _ ↦ ((hv kv.2).nested _ fun _ ↦ ih.sound).sound

theorem steady_packMap (hk : ∀ x, Steady (packKey x)) (hv : ∀ x, Steady (packValue x))
    (m : List (α × β)) : Steady (packMap packKey packValue m) := by
  apply Sound.guarded
  split_ifs
  · exact (regular_fail _).sound
  · exact ((steady_packLen _).nested _ fun _ ↦ (steady_packPairs hk hv m).sound).sound

variable {less : α → α → Bool} {unpackKey : PackerCall α} {unpackValue : PackerCall β}

/-- The result of `emplace` goes into the flag only after two successful
calls, so it cannot set a cleared one. -/
theorem steady_unpackPairs (hk : Steady unpackKey) (hv : Steady unpackValue) (n : ℕ)
    (m : List (α × β)) : Steady (unpackPairs less unpackKey unpackValue n m) := by
  induction n generalizing m with
  | zero => exact regular_ret _
  | succ n ih =>
      refine hk.nested _ fun key ↦ (hv.nested _ fun value ↦ ?_).sound
      exact (sound_assigned (by simp)).check _ fun m' ↦ (ih m').sound

theorem steady_unpackMap (hk : Steady unpackKey) (hv : Steady unpackValue)
    (m : List (α × β)) : Steady (unpackMap less unpackKey unpackValue m) := by
  apply Sound.guarded
  refine (steady_unpackLen.nested _ fun len ↦ ?_).sound
  split_ifs
  · exact (regular_fail _).sound
  · exact (steady_unpackPairs hk hv len m).sound

end

/-! ## Wide strings -/

theorem steady_convert16 (src : List UInt16) (out : List UInt8) :
    Steady (convert16 src out) := by
  simp only [convert16]
  split_ifs
  · exact regular_ret _
  · exact regular_fail _

theorem steady_convert8 (src : List UInt8) (out : List UInt16) :
    Steady (convert8 src out) := by
  simp only [convert8]
  split_ifs
  · exact regular_ret _
  · exact regular_fail _

theorem steady_packOctet (b : UInt8) : Steady (packOctet b) := steady_packScalar _

theorem steady_unpackOctet (b : UInt8) : Steady (unpackOctet b) :=
  (steady_unpackScalar (s := .u8) b.toBitVec).mapValue _

theorem steady_packWstring (s : List UInt16) : Steady (packWstring s) := by
  apply Sound.guarded
  split_ifs
  · exact (regular_fail _).sound
  · exact ((steady_convert16 s []).nested _ fun u8s ↦
      (steady_packVector steady_packOctet u8s).sound).sound

theorem steady_unpackWstring (s : List UInt16) : Steady (unpackWstring s) := by
  apply Sound.guarded
  refine ((steady_unpackVector steady_unpackOctet 0 []).nested _ fun u8s ↦ ?_).sound
  refine ((steady_convert8 u8s s).nested _ fun s' ↦ ?_).sound
  split_ifs
  · exact (regular_fail _).sound
  · exact (regular_ret _).sound

/-! ## All types -/

mutual

theorem Ty.steady_pack : (t : Ty) → (v : t.Val) → Steady (t.pack v)
  | .scalar _, v => steady_packScalar v
  | .bool, v => steady_packBool v
  | .enum _, v => steady_packEnum v
  | .string, v => steady_packString v
  | .wstring, v => steady_packWstring v
  | .date, v => steady_packDate v
  | .timestamp, v => steady_packTimestamp v
  | .vector t, v => steady_packVector t.steady_pack v
  | .map k v, m => steady_packMap k.steady_pack v.steady_pack m
  | .struct fs, v => (fs.steady_pack v).sound.guarded ()

/-- The generated body drops the results of its calls, and needs none. -/
theorem Fields.steady_pack : (fs : Fields) → (v : fs.Val) → Steady (fs.pack v)
  | .nil, _ => regular_ret _
  | .cons t fs, (x, xs) => (t.steady_pack x).ignoring fun _ ↦ fs.steady_pack xs

end

section

variable (less : (t : Ty) → t.Val → t.Val → Bool)

mutual

theorem Ty.steady_unpack : (t : Ty) → (v : t.Val) → Steady (t.unpack less v)
  | .scalar _, v => steady_unpackScalar v
  | .bool, v => steady_unpackBool v
  | .enum _, v => steady_unpackEnum v
  | .string, v => steady_unpackString v
  | .wstring, v => steady_unpackWstring v
  | .date, v => steady_unpackDate v
  | .timestamp, v => steady_unpackTimestamp v
  | .vector t, v => steady_unpackVector t.steady_unpack _ v
  | .map k v, m => steady_unpackMap (k.steady_unpack _) (v.steady_unpack _) m
  | .struct fs, v => (fs.steady_unpack v).sound.guarded v

theorem Fields.steady_unpack : (fs : Fields) → (v : fs.Val) → Steady (fs.unpack less v)
  | .nil, _ => regular_ret _
  | .cons t fs, (x, xs) =>
      (t.steady_unpack x).ignoring fun _ ↦ (fs.steady_unpack xs).mapValue _

end

end

end WiseKernel.Packing
