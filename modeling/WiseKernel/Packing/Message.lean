import WiseKernel.Packing.Poison

/-!
# Generated messages and runs of a packer

The IDL compiler writes `pack` and `unpack` of a message as a call for the
class it extends, one call for every field, and `return packer.is_valid()`.
Such a function, and any other sequence of calls of one packer, succeeds
exactly when every call in it does.
-/

namespace WiseKernel.Packing

open WiseKernel.Lib WiseKernel.Lib.Call WiseKernel.Net

/-! ## Messages -/

/-- The class of a message: `bits_packet`, or a generated class with the class
it extends. -/
inductive Message
  | packet
  | derived (super : Message) (fields : Fields)

def Message.Val : Message → Type
  | .packet => Unit
  | .derived super fields => super.Val × fields.Val

/-- `pack(bits_packer&)` of the class; that of `bits_packet` returns `true`
always. -/
def Message.pack : (m : Message) → m.Val → PackerCall Unit
  | .packet, _ => fun p ↦ ⟨true, (), p, []⟩
  | .derived super fields, (x, xs) => ignoring (super.pack x) fun _ ↦ fields.pack xs

/-- What the generated `pack` calls, in order. -/
def Fields.packItems : (fs : Fields) → fs.Val → List (PackerCall Unit)
  | .nil, _ => []
  | .cons t fs, (x, xs) => t.pack x :: fs.packItems xs

def Message.packItems : (m : Message) → m.Val → List (PackerCall Unit)
  | .packet, _ => []
  | .derived super fields, (x, xs) => super.packItems x ++ fields.packItems xs

section

variable (less : (t : Ty) → t.Val → t.Val → Bool)

/-- `unpack(bits_packer&)` of the class. -/
def Message.unpack : (m : Message) → m.Val → PackerCall m.Val
  | .packet, v => fun p ↦ ⟨true, v, p, []⟩
  | .derived super fields, (x, xs) => ignoring (super.unpack x) fun y ↦
      mapValue (fun _ ys ↦ (y, ys)) (fields.unpack less xs)

def void {α : Type} (c : PackerCall α) : PackerCall Unit := mapValue (fun _ _ ↦ ()) c

theorem steady_void {α : Type} {c : PackerCall α} (h : Steady c) : Steady (void c) := h.mapValue _

def Fields.unpackItems : (fs : Fields) → fs.Val → List (PackerCall Unit)
  | .nil, _ => []
  | .cons t fs, (x, xs) => void (t.unpack less x) :: fs.unpackItems xs

def Message.unpackItems : (m : Message) → m.Val → List (PackerCall Unit)
  | .packet, _ => []
  | .derived super fields, (x, xs) => super.unpackItems x ++ fields.unpackItems less xs

end

/-! ## A generated function is the run of its items -/

section

variable {α β : Type} {c : PackerCall α} {next : α → PackerCall β}
  {items items' : List (PackerCall Unit)}

/-- The call does what the sequence does. -/
def ActsAs (c : PackerCall α) (items : List (PackerCall Unit)) : Prop :=
  ∀ p, (c p).state = (runAll items p).state ∧ (c p).log = (runAll items p).log

/-- The call does what the sequence does, and returns the flag after it. -/
def RunsAs (c : PackerCall α) (items : List (PackerCall Unit)) : Prop :=
  ActsAs c items ∧ ∀ p, (c p).ok = (runAll items p).state.isValid

theorem runsAs_ret (a : α) : RunsAs (ret a) [] :=
  ⟨fun _ ↦ ⟨rfl, rfl⟩, fun _ ↦ rfl⟩

theorem ActsAs.ignoring (h : ActsAs c items) (hnext : ∀ a, RunsAs (next a) items') :
    RunsAs (ignoring c next) (items ++ items') := by
  constructor
  · intro p
    obtain ⟨hstate, hlog⟩ := h p
    obtain ⟨hstate', hlog'⟩ := (hnext (c p).value).1 (c p).state
    rw [runAll_append]
    constructor
    · change (next (c p).value (c p).state).state = _
      rw [hstate', hstate]
    · change (c p).log ++ (next (c p).value (c p).state).log = _
      rw [hlog', hlog, hstate]
  · intro p
    obtain ⟨hstate, -⟩ := h p
    change (next (c p).value (c p).state).ok = _
    rw [(hnext _).2, hstate, runAll_append]

theorem actsAs_void (c : PackerCall α) : ActsAs c [void c] :=
  fun _ ↦ ⟨rfl, (List.append_nil _).symm⟩

theorem RunsAs.mapValue (h : RunsAs c items) (f : Bool → α → β) :
    RunsAs (mapValue f c) items := h

theorem isValid_runAll_iff (hitems : ∀ d ∈ items, Steady d) (p : BitsPacker) :
    (runAll items p).state.isValid = true ↔
      p.isValid = true ∧ ∀ b ∈ (runAll items p).value, b = true := by
  have hvalid : (runAll items p).state.isValid = (p.isValid && (runAll items p).value.all id) :=
    valid_runAll hitems p
  rw [hvalid]
  simp

/-- The result of such a call tells whether every item succeeded. -/
theorem RunsAs.ok_iff (h : RunsAs c items) (hitems : ∀ d ∈ items, Steady d) (p : BitsPacker) :
    (c p).ok = true ↔ p.isValid = true ∧ ∀ b ∈ (runAll items p).value, b = true := by
  rw [h.2, isValid_runAll_iff hitems]

end

theorem Fields.runsAs_pack (fs : Fields) (v : fs.Val) : RunsAs (fs.pack v) (fs.packItems v) := by
  cases fs with
  | nil => exact runsAs_ret _
  | cons t fs =>
      apply (actsAs_void (t.pack v.1)).ignoring
      intro _
      exact fs.runsAs_pack v.2

theorem Fields.runsAs_unpack (less : (t : Ty) → t.Val → t.Val → Bool) (fs : Fields)
    (v : fs.Val) : RunsAs (fs.unpack less v) (fs.unpackItems less v) := by
  cases fs with
  | nil => exact runsAs_ret _
  | cons t fs =>
      apply (actsAs_void (t.unpack less v.1)).ignoring
      intro _
      exact (fs.runsAs_unpack less v.2).mapValue _

theorem Message.actsAs_pack : (m : Message) → (v : m.Val) → ActsAs (m.pack v) (m.packItems v)
  | .packet, _ => fun _ ↦ ⟨rfl, rfl⟩
  | .derived super fields, (x, xs) =>
      ((super.actsAs_pack x).ignoring fun _ ↦ fields.runsAs_pack xs).1

theorem Message.actsAs_unpack (less : (t : Ty) → t.Val → t.Val → Bool) : (m : Message) →
    (v : m.Val) → ActsAs (m.unpack less v) (m.unpackItems less v)
  | .packet, _ => fun _ ↦ ⟨rfl, rfl⟩
  | .derived super fields, (x, xs) =>
      ((super.actsAs_unpack less x).ignoring fun _ ↦
        (fields.runsAs_unpack less xs).mapValue _).1

theorem Message.runsAs_pack (super : Message) (fields : Fields)
    (v : (Message.derived super fields).Val) :
    RunsAs ((Message.derived super fields).pack v)
      ((Message.derived super fields).packItems v) :=
  (super.actsAs_pack v.1).ignoring fun _ ↦ fields.runsAs_pack v.2

theorem Message.runsAs_unpack (less : (t : Ty) → t.Val → t.Val → Bool) (super : Message)
    (fields : Fields) (v : (Message.derived super fields).Val) :
    RunsAs ((Message.derived super fields).unpack less v)
      ((Message.derived super fields).unpackItems less v) :=
  (super.actsAs_unpack less v.1).ignoring fun _ ↦ (fields.runsAs_unpack less v.2).mapValue _

/-! Every item is steady. -/

theorem Fields.steady_packItems (fs : Fields) (v : fs.Val) :
    ∀ c ∈ fs.packItems v, Steady c := by
  cases fs with
  | nil => simp [Fields.packItems]
  | cons t fs =>
      intro c hc
      rcases List.mem_cons.mp hc with rfl | hc
      · exact t.steady_pack v.1
      · exact fs.steady_packItems v.2 c hc

theorem Fields.steady_unpackItems (less : (t : Ty) → t.Val → t.Val → Bool) (fs : Fields)
    (v : fs.Val) : ∀ c ∈ fs.unpackItems less v, Steady c := by
  cases fs with
  | nil => simp [Fields.unpackItems]
  | cons t fs =>
      intro c hc
      rcases List.mem_cons.mp hc with rfl | hc
      · exact steady_void (t.steady_unpack less v.1)
      · exact fs.steady_unpackItems less v.2 c hc

theorem Message.steady_packItems : (m : Message) → (v : m.Val) →
    ∀ c ∈ m.packItems v, Steady c
  | .packet, _ => by simp [Message.packItems]
  | .derived super fields, (x, xs) => by
      intro c hc
      rcases List.mem_append.mp hc with hc | hc
      · exact super.steady_packItems x c hc
      · exact fields.steady_packItems xs c hc

theorem Message.steady_unpackItems (less : (t : Ty) → t.Val → t.Val → Bool) : (m : Message) →
    (v : m.Val) → ∀ c ∈ m.unpackItems less v, Steady c
  | .packet, _ => by simp [Message.unpackItems]
  | .derived super fields, (x, xs) => by
      intro c hc
      rcases List.mem_append.mp hc with hc | hc
      · exact super.steady_unpackItems less x c hc
      · exact fields.steady_unpackItems less xs c hc

theorem RunsAs.steady {α : Type} {c : PackerCall α} {items : List (PackerCall Unit)}
    (h : RunsAs c items) (hitems : ∀ d ∈ items, Steady d) : Steady c where
  poisoned p hp := by
    obtain ⟨hstate, hlog⟩ := h.1 p
    obtain ⟨-, hend, hlogs⟩ := runAll_of_invalid hitems hp
    refine ⟨?_, hstate.trans hend, hlog.trans hlogs⟩
    rw [h.2, hend]
    exact hp
  sound p hp := by
    obtain ⟨hstate, hlog⟩ := h.1 p
    constructor
    · rw [hstate, h.2]
      rfl
    · rw [hlog]
      exact events_runAll hitems p

/-! ## Runs -/

/-- A call of a packer, with its arguments. -/
inductive Item
  | pack (t : Ty) (v : t.Val)
  | unpack (t : Ty) (v : t.Val)
  | packBytes (bytes : List UInt8)
  | unpackBytes (len : ℕ)
  | packMessage (super : Message) (fields : Fields) (v : (Message.derived super fields).Val)
  | unpackMessage (super : Message) (fields : Fields) (v : (Message.derived super fields).Val)

section

variable (less : (t : Ty) → t.Val → t.Val → Bool)

def Item.call : Item → PackerCall Unit
  | .pack t v => t.pack v
  | .unpack t v => void (t.unpack less v)
  | .packBytes bytes => Packing.packBytes bytes
  | .unpackBytes len => void (Packing.unpackBytes len)
  | .packMessage super fields v => (Message.derived super fields).pack v
  | .unpackMessage super fields v => void ((Message.derived super fields).unpack less v)

/-- The calls in order, whatever they return. -/
def run (items : List Item) : PackerCall (List Bool) := runAll (items.map (Item.call less))

theorem Item.steady_call : (i : Item) → Steady (i.call less)
  | .pack t v => t.steady_pack v
  | .unpack t v => steady_void (t.steady_unpack less v)
  | .packBytes bytes => steady_packBytes bytes
  | .unpackBytes len => steady_void (steady_unpackBytes len)
  | .packMessage super fields v =>
      (Message.runsAs_pack super fields v).steady (Message.steady_packItems _ v)
  | .unpackMessage super fields v =>
      steady_void ((Message.runsAs_unpack less super fields v).steady
        (Message.steady_unpackItems less _ v))

theorem steady_calls (items : List Item) : ∀ c ∈ items.map (Item.call less), Steady c := by
  intro c hc
  obtain ⟨i, -, rfl⟩ := List.mem_map.mp hc
  exact i.steady_call less

/-! What makes an item fail. -/

/-- The bytes at the cursor are no value of the type: too few, a length above
its limit, octets that are not UTF-8, or an entry whose key is there already. -/
inductive Broken : (t : Ty) → t.Val → BitsPacker → Prop
  | underflow {s : Scalar} {v : s.Val} {p : BitsPacker}
      (h : p.buf.size < p.buf.readPos + s.size) : Broken (.scalar s) v p
  | stringSize {v : List UInt8} {p : BitsPacker}
      (h : maxStringSize < (unpackLen p).value) : Broken .string v p
  | vectorSize {t : Ty} {v : List t.Val} {p : BitsPacker}
      (h : maxContainerSize < (unpackLen p).value) : Broken (.vector t) v p
  | mapSize {k t : Ty} {v : List (k.Val × t.Val)} {p : BitsPacker}
      (h : maxContainerSize < (unpackLen p).value) : Broken (.map k t) v p
  | badUtf {v : List UInt16} {p : BitsPacker}
      (h : (Utf8.utf8to16 (unpackVector unpackOctet 0 [] p).value).thrown ≠ none) :
        Broken .wstring v p
  | duplicateKey {k t : Ty} {v m : List (k.Val × t.Val)} {p q q₁ q₂ : BitsPacker} {n : ℕ}
      {key : k.Val} {value : t.Val} (hlen : n < (unpackLen p).value)
      (hread : Returns (unpackPairs (less k) (k.unpack less k.init) (t.unpack less t.init) n v)
        (unpackLen p).state m q)
      (hkey : Returns (k.unpack less k.init) q key q₁)
      (hvalue : Returns (t.unpack less t.init) q₁ value q₂)
      (hold : (emplace (less k) key value m).1 = false) : Broken (.map k t) v p

theorem ok_read_of_lt {p : BitsPacker} {len : ℕ} (h : p.buf.size < p.buf.readPos + len)
    (h0 : len ≠ 0) : (read len p).ok = false := by
  simp [read, ResizeBuffer.read_of_lt h h0]

theorem ok_unpackScalar_of_lt {s : Scalar} {v : s.Val} {p : BitsPacker}
    (h : p.buf.size < p.buf.readPos + s.size) : (unpackScalar v p).ok = false := by
  have h0 : s.size ≠ 0 := by cases s <;> decide
  have hread := ok_read_of_lt h h0
  rw [unpackScalar, ok_guarded]
  by_cases hle : p.isLe = true <;> simp [hle, mapValue, hread]

section

variable {α β : Type} {lt : α → α → Bool} {uk : PackerCall α} {uv : PackerCall β}

/-- The loop, cut after its first entries. -/
theorem ok_unpackPairs_add {n : ℕ} {m m' : List (α × β)} {p q : BitsPacker}
    (h : Returns (unpackPairs lt uk uv n m) p m' q) (r : ℕ) :
    (unpackPairs lt uk uv (n + r) m p).ok = (unpackPairs lt uk uv r m' q).ok := by
  induction n generalizing m p with
  | zero =>
      obtain ⟨-, rfl, rfl⟩ := h
      rw [Nat.zero_add]
      rfl
  | succ n ih =>
      obtain ⟨hk, h⟩ := h.of_check
      obtain ⟨hv, h⟩ := h.of_check
      obtain ⟨he, h⟩ := h.of_check
      rw [Nat.succ_add, unpackPairs, ok_check, hk, ok_check, hv, ok_check, he]
      exact ih h

/-- An entry whose key is there already ends the loop. -/
theorem ok_unpackPairs_of_old (hk : Steady uk) (hv : Steady uv) {m : List (α × β)}
    {q q₁ q₂ : BitsPacker} {key : α} {value : β} (hkey : Returns uk q key q₁)
    (hvalue : Returns uv q₁ value q₂) (hold : (emplace lt key value m).1 = false) (r : ℕ) :
    (unpackPairs lt uk uv (r + 1) m q).ok = false := by
  obtain ⟨hk₁, rfl, rfl⟩ := hkey
  obtain ⟨hv₁, rfl, rfl⟩ := hvalue
  rw [unpackPairs, hk.assigned_eq, hv.assigned_eq, ok_check, ok_check, ok_check]
  simp [assigned, hold]

end

/-- A length above the limit fails, whatever else the overload does. -/
theorem ok_limited {α : Type} {p : BitsPacker} {limit : ℕ} (v : α) (stop : ℕ → α)
    (next : ℕ → PackerCall α) (h : limit < (unpackLen p).value) :
    (check (assigned unpackLen) stop (fun len ↦ if limit < len then fail v else next len) p).ok =
      false := by
  have hlen : limit < (assigned unpackLen p).value := h
  rw [ok_check, if_pos hlen]
  exact Bool.and_false _

theorem ok_convert8 {src : List UInt8} {out : List UInt16} {p : BitsPacker}
    (h : (Utf8.utf8to16 src).thrown ≠ none) : (convert8 src out p).ok = false := by
  simp [convert8, h, fail]

theorem Broken.fails {t : Ty} {v : t.Val} {p : BitsPacker} (h : Broken less t v p) :
    (t.unpack less v p).ok = false := by
  cases h with
  | underflow h => exact ok_unpackScalar_of_lt h
  | stringSize h =>
      have hlen : maxStringSize < (assigned unpackLen p).value := h
      simp only [Ty.unpack, unpackString, ok_guarded, ignoring, if_pos hlen]
      exact Bool.and_false _
  | vectorSize h =>
      simp only [Ty.unpack, unpackVector, ok_guarded, ok_limited _ _ _ h, Bool.and_false]
  | mapSize h =>
      simp only [Ty.unpack, unpackMap, ok_guarded, ok_limited _ _ _ h, Bool.and_false]
  | badUtf h =>
      have hconvert (q : BitsPacker) (out : List UInt16) :
          (assigned (convert8 (assigned (unpackVector unpackOctet 0 []) p).value out) q).ok =
            false := ok_convert8 h
      simp only [Ty.unpack, unpackWstring, ok_guarded, ok_check, hconvert, Bool.false_and,
        Bool.and_false]
  | @duplicateKey k t v m p q q₁ q₂ n key value hlen hread hkey hvalue hold =>
      have hloop : (unpackPairs (less k) (k.unpack less k.init) (t.unpack less t.init)
          (unpackLen p).value v (unpackLen p).state).ok = false := by
        obtain ⟨r, hr⟩ := Nat.exists_eq_add_of_lt hlen
        rw [hr, Nat.add_assoc, ok_unpackPairs_add hread]
        exact ok_unpackPairs_of_old (k.steady_unpack less _) (t.steady_unpack less _) hkey hvalue
          hold r
      simp only [Ty.unpack, unpackMap, ok_guarded, steady_unpackLen.assigned_eq, ok_check]
      split_ifs
      · simp [fail]
      · rw [hloop]
        simp

/-! ## Main result -/

/-- Whatever is asked of a packer over whatever bytes: no copy reaches behind
`pos_`; broken bytes fail the item that reads them; from the first failed item
on, every call returns `false` and the buffer stays as it is; and a generated
message succeeds exactly when every item processed has. -/
theorem failure_final (buf : ResizeBuffer) (hostLe isLe : Bool) (items : List Item) :
    let p : BitsPacker := ⟨buf, hostLe, isLe, true⟩
    let q := (run less items p).state
    (∀ a ∈ (run less items p).log, a.start + a.len ≤ a.pos) ∧
    (∀ (t : Ty) (v : t.Val), Broken less t v q → (t.unpack less v q).ok = false) ∧
    (∀ before item after, items = before ++ item :: after →
      let r := item.call less (run less before p).state
      r.ok = false → r.state.isValid = false ∧
        (∀ b ∈ (run less after r.state).value, b = false) ∧
          (run less after r.state).state.buf = r.state.buf) ∧
    (∀ (super : Message) (fields : Fields) (v : (Message.derived super fields).Val),
      (((Message.derived super fields).pack v q).ok = true ↔
        (∀ b ∈ (run less items p).value, b = true) ∧
          ∀ b ∈ (runAll ((Message.derived super fields).packItems v) q).value, b = true) ∧
      (((Message.derived super fields).unpack less v q).ok = true ↔
        (∀ b ∈ (run less items p).value, b = true) ∧
          ∀ b ∈ (runAll ((Message.derived super fields).unpackItems less v) q).value,
            b = true)) := by
  intro p q
  have hvalid : q.isValid = true ↔ ∀ b ∈ (run less items p).value, b = true := by
    have h := isValid_runAll_iff (steady_calls less items) p
    exact h.trans ⟨fun h ↦ h.2, fun h ↦ ⟨rfl, h⟩⟩
  refine ⟨events_runAll (steady_calls less items) p, fun t v h ↦ h.fails less, ?_, ?_⟩
  · intro before item after _ r hr
    have hflag : r.state.isValid = false := ((item.steady_call less).flag _).trans hr
    obtain ⟨hvalue, hstate, -⟩ := runAll_of_invalid (steady_calls less after) hflag
    exact ⟨hflag, hvalue, congrArg BitsPacker.buf hstate⟩
  · intro super fields v
    rw [← hvalid]
    exact ⟨(Message.runsAs_pack super fields v).ok_iff (Message.steady_packItems _ v) q,
      (Message.runsAs_unpack less super fields v).ok_iff (Message.steady_unpackItems less _ v) q⟩

end

/-- Three bytes hold a `uint16_t` and no `uint32_t` behind it; a byte that would
fit, and the message after it, are refused as well. -/
theorem failure_final_underflow :
    let less : (t : Ty) → t.Val → t.Val → Bool := fun _ _ _ ↦ false
    let p : BitsPacker := ⟨⟨[1, 2, 3], 0⟩, true, true, true⟩
    let u16 : Item := .unpack (.scalar .u16) (0 : Scalar.u16.Val)
    let u32 : Item := .unpack (.scalar .u32) (0 : Scalar.u32.Val)
    let u8 : Item := .unpack (.scalar .u8) (0 : Scalar.u8.Val)
    let r := u32.call less (run less [u16] p).state
    r.ok = false ∧ r.state.isValid = false ∧ (∀ b ∈ (run less [u8] r.state).value, b = false) ∧
      (run less [u8] r.state).state.buf = ⟨[1, 2, 3], 2⟩ := by
  intro less p u16 u32 u8 r
  have hr : r.ok = false := by decide
  have h := (failure_final less ⟨[1, 2, 3], 0⟩ true true [u16, u32, u8]).2.2.1 [u16] u32 [u8] rfl hr
  exact ⟨hr, h.1, h.2.1, h.2.2.trans (by decide)⟩

end WiseKernel.Packing
