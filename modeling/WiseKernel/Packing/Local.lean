import WiseKernel.Packing.RoundTrip

/-!
# What unpacking looks at

`unpack` moves the read cursor over some bytes and does nothing else to the
buffer.  When it succeeds its result is a function of these bytes: a packer of
the same byte order that stands at them, in whatever buffer, ends with the
same value.
-/

namespace WiseKernel.Packing

open WiseKernel.Lib WiseKernel.Lib.Call WiseKernel.Net

/-- Both run on one kind of machine with one setting of `is_le_`. -/
def BitsPacker.Alike (p q : BitsPacker) : Prop := p.hostLe = q.hostLe ∧ p.isLe = q.isLe

/-- From `p` the call moves over `bytes`; if it succeeds, it does so at these
bytes everywhere. -/
def Reads {α : Type} (c : PackerCall α) (p : BitsPacker) (bytes : List UInt8) : Prop :=
  p.At bytes ∧ (c p).state = { p.skip bytes.length with isValid := (c p).ok } ∧
    ((c p).ok = true → ∀ q : BitsPacker, q.isValid = true → p.Alike q → q.At bytes →
      Returns c q (c p).value (q.skip bytes.length))

/-- A call that only reads, and depends on nothing but what it reads. -/
def Local {α : Type} (c : PackerCall α) : Prop :=
  ∀ p : BitsPacker, p.isValid = true → ∃ bytes, Reads c p bytes

theorem BitsPacker.at_nil (p : BitsPacker) : p.At [] := ⟨_, rfl⟩

theorem BitsPacker.At.append {p : BitsPacker} {xs ys : List UInt8} (h : p.At xs)
    (h' : (p.skip xs.length).At ys) : p.At (xs ++ ys) := by
  obtain ⟨post, hpost⟩ := h
  obtain ⟨post', hpost'⟩ := h'
  refine ⟨post', ?_⟩
  have hdrop : p.buf.bytes.drop (p.buf.readPos + xs.length) = ys ++ post' := hpost'
  rw [← List.drop_drop, hpost, List.drop_left] at hdrop
  rw [hpost, hdrop, List.append_assoc]

section

variable {α β : Type} {c : PackerCall α} {next : α → PackerCall β}

theorem local_ret (a : α) : Local (ret a) := by
  intro p hp
  refine ⟨[], p.at_nil, ?_, ?_⟩
  · rfl
  · intro _ q hq _ _
    exact returns_ret hq

theorem local_fail (a : α) : Local (fail a) := by
  intro p _
  refine ⟨[], p.at_nil, rfl, ?_⟩
  intro hok
  exact absurd hok Bool.false_ne_true

theorem Local.guarded (h : Local c) (a₀ : α) : Local (guarded a₀ c) := by
  intro p hp
  have hsame (q : BitsPacker) (hq : q.isValid = true) : Call.guarded a₀ c q = c q := if_pos hq
  obtain ⟨bytes, hat, hstate, hreturns⟩ := h p hp
  rw [← hsame p hp] at hstate hreturns
  refine ⟨bytes, hat, hstate, ?_⟩
  intro hok q hq halike hatq
  exact (hreturns hok q hq halike hatq).guarded hq a₀

theorem Local.assigned (h : Local c) : Local (assigned c) := by
  intro p hp
  obtain ⟨bytes, hat, hstate, hreturns⟩ := h p hp
  refine ⟨bytes, hat, ?_, ?_⟩
  · change { (c p).state with isValid := (c p).ok } = _
    rw [hstate]
    rfl
  · intro hok q hq halike hatq
    exact (hreturns hok q hq halike hatq).assigned hq

theorem Local.mapValue (h : Local c) (f : Bool → α → β) : Local (mapValue f c) := by
  intro p hp
  obtain ⟨bytes, hat, hstate, hreturns⟩ := h p hp
  refine ⟨bytes, hat, hstate, ?_⟩
  intro hok q hq halike hatq
  have hok' : (c p).ok = true := hok
  have hmap := (hreturns hok q hq halike hatq).mapValue f
  rw [← hok'] at hmap
  exact hmap

theorem Local.check (h : Local c) (stop : α → β) (hnext : ∀ a, Local (next a)) :
    Local (check c stop next) := by
  intro p hp
  obtain ⟨xs, hat, hstate, hreturns⟩ := h p hp
  cases hok : (c p).ok with
  | false =>
      have hstop : Call.check c stop next p =
          ⟨false, stop (c p).value, (c p).state, (c p).log⟩ := by
        simp [Call.check, hok]
      rw [hok] at hstate
      refine ⟨xs, hat, ?_, ?_⟩
      · rw [hstop]
        exact hstate
      · intro hok'
        rw [hstop] at hok'
        exact absurd hok' Bool.false_ne_true
  | true =>
      have hmid : (c p).state = p.skip xs.length := by
        rw [hstate, hok, ← hp]
        rfl
      have hgo : Call.check c stop next p = { next (c p).value (p.skip xs.length) with
          log := (c p).log ++ (next (c p).value (p.skip xs.length)).log } := by
        simp [Call.check, hok, hmid]
      obtain ⟨ys, hat', hend, hreturns'⟩ := hnext (c p).value (p.skip xs.length) hp
      rw [p.skip_skip, ← List.length_append] at hend
      refine ⟨xs ++ ys, hat.append hat', ?_, ?_⟩
      · rw [hgo]
        exact hend
      · intro hok' q hq halike hatq
        rw [hgo] at hok' ⊢
        have hfirst := hreturns hok q hq halike hatq.left
        have hsecond := hreturns' hok' (q.skip xs.length) hq halike hatq.right
        rw [q.skip_skip, ← List.length_append] at hsecond
        exact hfirst.check stop hsecond

/-- Behind a failure that was not looked at, nothing more happens. -/
theorem Local.ignoring (h : Local c) (hnext : ∀ a, Local (next a))
    (hsteady : ∀ a, Steady (next a)) : Local (ignoring c next) := by
  intro p hp
  let stop : α → β := fun _ ↦ (Call.ignoring c next p).value
  obtain ⟨xs, -, hfirst, -⟩ := h p hp
  obtain ⟨bytes, hat, hstate, hreturns⟩ := h.check stop hnext p hp
  have hsame : (Call.check c stop next p).ok = (Call.ignoring c next p).ok ∧
      (Call.check c stop next p).value = (Call.ignoring c next p).value ∧
        (Call.check c stop next p).state = (Call.ignoring c next p).state := by
    cases hok : (c p).ok with
    | true => simp [Call.check, Call.ignoring, hok]
    | false =>
        have hflag : (c p).state.isValid = false := by
          rw [hfirst]
          exact hok
        obtain ⟨hok', hstate', -⟩ := (hsteady (c p).value).poisoned (c p).state hflag
        simp [Call.check, Call.ignoring, hok, hok', hstate', stop]
  obtain ⟨hok, hvalue, hend⟩ := hsame
  rw [hok, hend] at hstate
  refine ⟨bytes, hat, hstate, ?_⟩
  intro hok' q hq halike hatq
  obtain ⟨hc, hrest⟩ := (hreturns (hok.trans hok') q hq halike hatq).of_check
  rw [hvalue] at hrest
  exact Returns.ignoring ⟨hc, rfl, rfl⟩ hrest

end

/-! ## Every overload -/

theorem local_read (len : ℕ) : Local (read len) := by
  intro p hp
  by_cases hle : p.buf.readPos + len ≤ p.buf.size
  · have hlen := length_window hle
    have hread : read len p = ⟨true, window p.buf.bytes p.buf.readPos len, p.skip len,
        (read len p).log⟩ := by
      simp only [read, ResizeBuffer.read_of_le hle, BitsPacker.skip, hp]
    refine ⟨window p.buf.bytes p.buf.readPos len, ?_, ?_, ?_⟩
    · refine ⟨p.buf.bytes.drop (p.buf.readPos + len), ?_⟩
      rw [window, ← List.drop_drop, List.take_append_drop]
    · rw [hlen, hread, ← hp]
      rfl
    · intro _ q hq _ hatq
      have hq' := unpacks_read _ q hq hatq
      rw [hlen] at hq' ⊢
      rw [hread]
      exact hq'
  · by_cases h0 : len = 0
    · subst h0
      -- nothing is asked for, and nothing is looked at
      have hread (q : BitsPacker) (hq : q.isValid = true) : Returns (read 0) q [] (q.skip 0) :=
        unpacks_read [] q hq q.at_nil
      obtain ⟨hok, hvalue, hstate⟩ := hread p hp
      refine ⟨[], p.at_nil, ?_, ?_⟩
      · rw [hstate, hok, ← hp]
        rfl
      · intro _ q hq _ _
        rw [hvalue]
        exact hread q hq
    · have hread : read len p = ⟨false, [], { p with isValid := false }, (read len p).log⟩ := by
        simp only [read, ResizeBuffer.read_of_lt (Nat.lt_of_not_le hle) h0]
      refine ⟨[], p.at_nil, ?_, ?_⟩
      · rw [hread]
        rfl
      · intro hok
        rw [hread] at hok
        exact absurd hok Bool.false_ne_true

theorem local_unpackBytes (len : ℕ) : Local (unpackBytes len) := (local_read len).guarded []

/-- What the bytes mean depends on the byte order, in which alike packers
agree. -/
theorem local_unpackScalar {s : Scalar} (v : s.Val) : Local (unpackScalar v) := by
  apply Local.guarded
  intro p hp
  let value (ok : Bool) (bytes : List UInt8) : s.Val :=
    if ok then (if p.isLe then ofMemory p.hostLe bytes else swapEndian (ofMemory p.hostLe bytes))
    else v
  have hcall (q : BitsPacker) (h : p.Alike q) :
      (if q.isLe then
        mapValue (fun ok bytes ↦ if ok then ofMemory q.hostLe bytes else v) (read s.size) q
      else
        mapValue (fun ok bytes ↦ if ok then swapEndian (ofMemory q.hostLe bytes) else v)
          (read s.size) q) = mapValue value (read s.size) q := by
    obtain ⟨hhost, hle⟩ := h
    cases hq : q.isLe <;> simp [value, hhost, hle, hq]
  obtain ⟨bytes, hat, hstate, hreturns⟩ := (local_read s.size).mapValue value p hp
  rw [← hcall p ⟨rfl, rfl⟩] at hstate hreturns
  refine ⟨bytes, hat, hstate, ?_⟩
  intro hok q hq halike hatq
  have hr := hreturns hok q hq halike hatq
  simp only [Returns] at hr ⊢
  rw [hcall q halike]
  exact hr

theorem local_unpackLen : Local unpackLen := (local_unpackScalar _).mapValue _

theorem local_unpackEnum (v : Scalar.i32.Val) : Local (unpackEnum v) :=
  ((local_unpackScalar _).assigned.check _ fun _ ↦ local_ret _).guarded v

theorem local_unpackBool (b : Bool) : Local (unpackBool b) :=
  ((local_unpackScalar _).assigned.check _ fun _ ↦ local_ret _).guarded b

theorem local_unpackDate (d : Date) : Local (unpackDate d) := by
  apply Local.guarded
  refine (local_unpackScalar _).check _ fun _ ↦ ?_
  refine (local_unpackScalar _).check _ fun _ ↦ ?_
  exact (local_unpackScalar _).check _ fun _ ↦ local_ret _

theorem local_unpackTimestamp (t : Timestamp) : Local (unpackTimestamp t) := by
  apply Local.guarded
  refine (local_unpackScalar _).check _ fun _ ↦ ?_
  refine (local_unpackScalar _).check _ fun _ ↦ ?_
  refine (local_unpackScalar _).check _ fun _ ↦ ?_
  refine (local_unpackScalar _).check _ fun _ ↦ ?_
  refine (local_unpackScalar _).check _ fun _ ↦ ?_
  refine (local_unpackScalar _).check _ fun _ ↦ ?_
  exact (local_unpackScalar _).check _ fun _ ↦ local_ret _

theorem local_unpackString (s : List UInt8) : Local (unpackString s) := by
  apply Local.guarded
  refine local_unpackLen.assigned.ignoring ?_ ?_
  · intro len
    split_ifs
    · exact local_fail s
    · exact (local_unpackBytes len).assigned.check _ fun _ ↦ local_ret _
    · exact local_ret s
  · intro len
    split_ifs
    · exact regular_fail _
    · exact (steady_unpackBytes len).nested _ fun _ ↦ (regular_ret _).sound
    · exact regular_ret _

section

variable {α β : Type}

theorem local_unpackEach {unpack : α → PackerCall α} (h : ∀ x, Local (unpack x))
    (vec : List α) : Local (unpackEach unpack vec) := by
  induction vec with
  | nil => exact local_ret []
  | cons x xs ih => exact (h x).assigned.check _ fun _ ↦ ih.mapValue _

theorem local_unpackVector {unpack : α → PackerCall α} (h : ∀ x, Local (unpack x)) (init : α)
    (vec : List α) : Local (unpackVector unpack init vec) := by
  apply Local.guarded
  refine local_unpackLen.assigned.check _ fun len ↦ ?_
  split_ifs
  · exact local_fail vec
  · exact local_unpackEach h _

variable {less : α → α → Bool} {unpackKey : PackerCall α} {unpackValue : PackerCall β}

theorem local_emplace (b : Bool) (m : List (α × β)) :
    Local (assigned fun p : BitsPacker ↦ (⟨b, m, p, []⟩ : Outcome BitsPacker Access _)) := by
  intro p _
  refine ⟨[], p.at_nil, rfl, ?_⟩
  intro hok q hq _ _
  have hb : b = true := hok
  refine ⟨hb, rfl, ?_⟩
  change { q with isValid := b } = q
  rw [hb, ← hq]

theorem local_unpackPairs (hk : Local unpackKey) (hv : Local unpackValue) (n : ℕ)
    (m : List (α × β)) : Local (unpackPairs less unpackKey unpackValue n m) := by
  induction n generalizing m with
  | zero => exact local_ret m
  | succ n ih =>
      refine hk.assigned.check _ fun key ↦ hv.assigned.check _ fun value ↦ ?_
      exact (local_emplace _ _).check _ ih

theorem local_unpackMap (hk : Local unpackKey) (hv : Local unpackValue) (m : List (α × β)) :
    Local (unpackMap less unpackKey unpackValue m) := by
  apply Local.guarded
  refine local_unpackLen.assigned.check _ fun len ↦ ?_
  split_ifs
  · exact local_fail m
  · exact local_unpackPairs hk hv len m

end

theorem local_unpackWstring (s : List UInt16) : Local (unpackWstring s) := by
  have hoctet (b : UInt8) : Local (unpackOctet b) := (local_unpackScalar _).mapValue _
  have hconvert (u8s : List UInt8) : Local (convert8 u8s s) := by
    simp only [convert8]
    split_ifs
    · exact local_ret _
    · exact local_fail _
  apply Local.guarded
  refine (local_unpackVector hoctet 0 []).assigned.check _ fun u8s ↦ ?_
  refine (hconvert u8s).assigned.check _ fun s' ↦ ?_
  split_ifs
  · exact local_fail s'
  · exact local_ret s'

section

variable (less : (t : Ty) → t.Val → t.Val → Bool)

mutual

theorem Ty.local_unpack : (t : Ty) → (v : t.Val) → Local (t.unpack less v)
  | .scalar _, v => local_unpackScalar v
  | .bool, v => local_unpackBool v
  | .enum _, v => local_unpackEnum v
  | .string, v => local_unpackString v
  | .wstring, v => local_unpackWstring v
  | .date, v => local_unpackDate v
  | .timestamp, v => local_unpackTimestamp v
  | .vector t, v => local_unpackVector t.local_unpack _ v
  | .map k v, m => local_unpackMap (k.local_unpack _) (v.local_unpack _) m
  | .struct fs, v => (fs.local_unpack v).guarded v

theorem Fields.local_unpack : (fs : Fields) → (v : fs.Val) → Local (fs.unpack less v)
  | .nil, v => local_ret v
  | .cons t fs, (x, xs) =>
      (t.local_unpack x).ignoring (fun _ ↦ (fs.local_unpack xs).mapValue _)
        fun _ ↦ (fs.steady_unpack less xs).mapValue _

end

end

end WiseKernel.Packing
