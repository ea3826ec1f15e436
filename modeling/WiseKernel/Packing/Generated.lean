import WiseKernel.Net.Streams
import WiseKernel.Packing.Local
import WiseKernel.Packing.Message

/-!
# Generated messages as packets of a protocol

`bits_protocol` knows a packet by its virtual functions.  Those of a generated
message are its `pack` and `unpack` on a packer of its own, and they meet what
the protocol takes for granted: `unpack` stays inside the body and depends on
the bytes it uses alone, and it undoes `pack`.
-/

namespace WiseKernel.Packing

open WiseKernel.Lib WiseKernel.Lib.Call WiseKernel.Net

/-! ## Messages, field by field -/

namespace Message

def encode (le : Bool) : (m : Message) → m.Val → List UInt8
  | .packet, _ => []
  | .derived super fields, (x, xs) => super.encode le x ++ fields.encode le xs

def Fits : (m : Message) → m.Val → Prop
  | .packet, _ => True
  | .derived super fields, (x, xs) => super.Fits x ∧ fields.Fits xs

def Fresh : (m : Message) → m.Val → Prop
  | .packet, _ => True
  | .derived super fields, (x, xs) => super.Fresh x ∧ fields.Fresh xs

theorem packs_pack : (m : Message) → (v : m.Val) → m.Fits v →
    Packs (m.pack v) fun le ↦ m.encode le v
  | .packet, _, _ => fun p _ ↦ ⟨rfl, rfl, p.push_nil.symm⟩
  | .derived super fields, (x, xs), h =>
      (super.packs_pack x h.1).ignoring (fields.packs_pack xs h.2)

/-- The flag after `pack` tells whether the message was within the limits. -/
theorem fits_of_isValid : (m : Message) → (v : m.Val) → (p : BitsPacker) →
    (m.pack v p).state.isValid = true → m.Fits v
  | .packet, _, _, _ => trivial
  | .derived super fields, (x, xs), p, h => by
      have hfields := fields.steady_pack xs
      have hflag : (fields.pack xs (super.pack x p).state).ok = true := by
        rw [← hfields.flag]
        exact h
      refine ⟨super.fits_of_isValid x p ?_, fields.fits_of_accepted xs ⟨_, hflag⟩⟩
      by_contra hmid
      have hpoison := hfields.poisoned (super.pack x p).state (Bool.eq_false_of_not_eq_true hmid)
      rw [hpoison.1] at hflag
      exact Bool.false_ne_true hflag

theorem fits_of_ok (m : Message) (v : m.Val) {p : BitsPacker} (h : (m.pack v p).ok = true) :
    m.Fits v := by
  cases m with
  | packet => trivial
  | derived super fields =>
      apply fits_of_isValid _ v p
      rw [← h]
      exact (fields.steady_pack v.2).flag _

variable (less : (t : Ty) → t.Val → t.Val → Bool)

def WellFormed : (m : Message) → m.Val → Prop
  | .packet, _ => True
  | .derived super fields, (x, xs) => super.WellFormed x ∧ fields.WellFormed less xs

theorem unpacks_unpack : (m : Message) → (v old : m.Val) → m.Fits v → m.WellFormed less v →
    m.Fresh old → Unpacks (m.unpack less old) (fun le ↦ m.encode le v) v
  | .packet, _, _, _, _, _ => fun _ _ _ ↦ ⟨rfl, rfl, rfl⟩
  | .derived super fields, (x, xs), (y, ys), hfits, hwf, hold =>
      (super.unpacks_unpack x y hfits.1 hwf.1 hold.1).ignoring
        ((fields.unpacks_unpack less xs ys hfits.2 hwf.2 hold.2).mapValue fun _ zs ↦ (x, zs))

theorem local_unpack : (m : Message) → (v : m.Val) → Local (m.unpack less v)
  | .packet, v => by
      intro p hp
      refine ⟨[], p.at_nil, ?_, fun _ _ _ _ _ ↦ ⟨rfl, rfl, rfl⟩⟩
      change p = { p with isValid := true }
      rw [← hp]
  | .derived super fields, (x, xs) =>
      (super.local_unpack x).ignoring (fun _ ↦ (fields.local_unpack less xs).mapValue _)
        fun _ ↦ (fields.steady_unpack less xs).mapValue _

end Message

/-! ## The packet classes of a program -/

/-- A generated class: its fields, and what its constructor sets. -/
structure PacketClass where
  message : Message
  topic : UInt32
  flags : Flags

/-- An object of one of the classes. -/
abbrev GeneratedPacket := (k : PacketClass) × k.message.Val

section

variable (hostLe : Bool) (less : (t : Ty) → t.Val → t.Val → Bool)

/-- `unpack` with a packer over the bytes behind the read cursor. -/
def unpackBody (m : Message) (v : m.Val) (bs : List UInt8) :=
  m.unpack less v (.new hostLe ⟨bs, 0⟩)

/-- A call from the front of `bs` uses a part of it, and a successful one goes
the same way wherever that part stands in front. -/
theorem reads_unpackBody (m : Message) (v : m.Val) (bs : List UInt8) :
    ∃ used, used <+: bs ∧ (unpackBody hostLe less m v bs).state.buf.readPos = used.length ∧
      ((unpackBody hostLe less m v bs).ok = true → ∀ bs', used <+: bs' →
        Returns (m.unpack less v) (.new hostLe ⟨bs', 0⟩) (unpackBody hostLe less m v bs).value
          ((BitsPacker.new hostLe ⟨bs', 0⟩).skip used.length)) := by
  obtain ⟨used, ⟨post, hpost⟩, hstate, hreturns⟩ :=
    m.local_unpack less v (.new hostLe ⟨bs, 0⟩) rfl
  refine ⟨used, ⟨post, hpost.symm⟩, ?_, ?_⟩
  · rw [unpackBody, hstate]
    exact Nat.zero_add _
  · intro hok bs' hbs'
    obtain ⟨post', rfl⟩ := hbs'
    exact hreturns hok _ rfl ⟨rfl, rfl⟩ ⟨post', rfl⟩

theorem unpackBody_congr (m : Message) (v : m.Val) {bs bs' : List UInt8}
    (hok : (unpackBody hostLe less m v bs).ok = true)
    (htake : bs'.take (unpackBody hostLe less m v bs).state.buf.readPos =
      bs.take (unpackBody hostLe less m v bs).state.buf.readPos) :
    (unpackBody hostLe less m v bs').ok = true ∧
      (unpackBody hostLe less m v bs').value = (unpackBody hostLe less m v bs).value ∧
        (unpackBody hostLe less m v bs').state.buf.readPos =
          (unpackBody hostLe less m v bs).state.buf.readPos := by
  obtain ⟨used, hprefix, hpos, hreturns⟩ := reads_unpackBody hostLe less m v bs
  rw [hpos, ← List.prefix_iff_eq_take.mp hprefix] at htake
  obtain ⟨hok', hvalue, hstate⟩ := hreturns hok bs' (List.prefix_iff_eq_take.mpr htake.symm)
  refine ⟨hok', hvalue, ?_⟩
  rw [hpos, unpackBody, hstate]
  exact Nat.zero_add _

/-- The virtual functions of the generated classes on one kind of machine. -/
def generatedOps : PacketOps GeneratedPacket where
  topic p := p.1.topic
  flags p := p.1.flags
  pack p :=
    let packer := p.1.message.pack p.2 (.new hostLe ⟨[], 0⟩)
    (packer.state.buf.bytes, packer.ok)
  unpack p bs :=
    let packer := unpackBody hostLe less p.1.message p.2 bs
    ⟨packer.ok, ⟨p.1, packer.value⟩, packer.state.buf.readPos⟩
  used_le p bs := by
    obtain ⟨used, hprefix, hpos, -⟩ := reads_unpackBody hostLe less p.1.message p.2 bs
    change (unpackBody hostLe less p.1.message p.2 bs).state.buf.readPos ≤ bs.length
    rw [hpos]
    exact hprefix.length_le
  unpack_congr p bs bs' hok htake := by
    have hsame := unpackBody_congr hostLe less p.1.message p.2 hok htake
    obtain ⟨hok', hvalue, hpos⟩ := hsame
    simp only [hok', hvalue, hpos]
    exact congrArg (fun b ↦ (⟨b, _, _⟩ : Unpacked GeneratedPacket)) hok.symm

theorem body_generated {p : GeneratedPacket} (h : ((generatedOps hostLe less).pack p).2 = true) :
    ((generatedOps hostLe less).pack p).1 = p.1.message.encode true p.2 := by
  have hfits := p.1.message.fits_of_ok p.2 h
  have hstate := (p.1.message.packs_pack p.2 hfits (.new hostLe ⟨[], 0⟩) rfl).2.2
  rw [BitsPacker.new_wireLe] at hstate
  change (p.1.message.pack p.2 (.new hostLe ⟨[], 0⟩)).state.buf.bytes = _
  rw [hstate]
  rfl

/-- Behind the header pads, or anything else, a message packs the same body. -/
theorem pack_generated {p : GeneratedPacket} (h : ((generatedOps hostLe less).pack p).2 = true)
    (buf : ResizeBuffer) :
    Returns (p.1.message.pack p.2) (.new hostLe buf) ()
      (.new hostLe (buf.append ((generatedOps hostLe less).pack p).1)) := by
  have hpacks := p.1.message.packs_pack p.2 (p.1.message.fits_of_ok p.2 h) (.new hostLe buf) rfl
  rw [BitsPacker.new_wireLe] at hpacks
  rw [body_generated hostLe less h]
  exact hpacks

/-- A message that its class accepts is registered with every factory that
makes fresh objects of the class. -/
theorem registered_generated {E : Env GeneratedPacket} (hE : E.ops = generatedOps hostLe less)
    {k : PacketClass} {v old : k.message.Val}
    (hpack : ((generatedOps hostLe less).pack ⟨k, v⟩).2 = true)
    (hwf : k.message.WellFormed less v) (hold : k.message.Fresh old)
    (hcreated : E.factory k.topic = some ⟨k, old⟩) : Registered E ⟨k, v⟩ ⟨k, old⟩ := by
  have hfits := k.message.fits_of_ok v hpack
  have hbody := body_generated hostLe less hpack
  let body := k.message.encode true v
  have hat : (BitsPacker.new hostLe ⟨body, 0⟩).At
      (k.message.encode (BitsPacker.new hostLe ⟨body, 0⟩).wireLe v) := by
    rw [BitsPacker.new_wireLe]
    exact ⟨[], (List.append_nil _).symm⟩
  obtain ⟨hok, hvalue, hstate⟩ :=
    k.message.unpacks_unpack less v old hfits hwf hold (.new hostLe ⟨body, 0⟩) rfl hat
  rw [BitsPacker.new_wireLe] at hstate
  have hpos : (unpackBody hostLe less k.message old body).state.buf.readPos = body.length := by
    rw [unpackBody, hstate]
    exact Nat.zero_add _
  have hunpack : (generatedOps hostLe less).unpack ⟨k, old⟩ body = ⟨true, ⟨k, v⟩, body.length⟩ := by
    change (⟨(unpackBody hostLe less k.message old body).ok,
      ⟨k, (unpackBody hostLe less k.message old body).value⟩,
        (unpackBody hostLe less k.message old body).state.buf.readPos⟩ :
          Unpacked GeneratedPacket) = _
    rw [hpos, unpackBody, hok, hvalue]
  constructor
  · rw [hE]
    exact hcreated
  · rw [hE]
    rfl
  · rw [hE]
    exact hpack
  · rw [hE, hbody]
    exact hunpack

end

end WiseKernel.Packing
