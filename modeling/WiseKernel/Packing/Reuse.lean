import Mathlib.Data.List.Forall2
import WiseKernel.Packing.RoundTrip

/-!
# Unpacking into a variable that was used before

`unpack` leaves a string as it is when an empty one arrives, puts a wide
string behind the old one, adds to the entries of a map and reads into the old
elements of a vector.  What the target held is therefore lost exactly when its
strings and maps were empty, in every field and in every element that `resize`
can keep.
-/

namespace WiseKernel.Packing

open WiseKernel.Lib WiseKernel.Lib.Call WiseKernel.Net

/-! ## Two runs -/

/-- The same result, the same packer afterwards and, on success, the same
value. -/
def SameRun {α : Type} (c c' : PackerCall α) (p : BitsPacker) : Prop :=
  (c p).ok = (c' p).ok ∧ (c p).state = (c' p).state ∧
    ((c p).ok = true → (c p).value = (c' p).value)

/-- The calls differ in what a failed one leaves in its target at most. -/
def Agree {α : Type} (c c' : PackerCall α) : Prop := ∀ p, SameRun c c' p

section

variable {α β : Type} {c c' : PackerCall α} {next next' : α → PackerCall β}

theorem agree_refl (c : PackerCall α) : Agree c c := fun _ ↦ ⟨rfl, rfl, fun _ ↦ rfl⟩

theorem agree_fail (a a' : α) : Agree (fail a) (fail a') := by
  intro p
  refine ⟨rfl, rfl, ?_⟩
  intro hp
  exact absurd hp Bool.false_ne_true

theorem Agree.guarded (h : Agree c c') (a a' : α) : Agree (guarded a c) (guarded a' c') := by
  intro p
  cases hp : Flagged.valid p with
  | true => simpa [SameRun, Call.guarded, hp] using h p
  | false => simp [SameRun, Call.guarded, hp]

theorem Agree.assigned (h : Agree c c') : Agree (assigned c) (assigned c') := by
  intro p
  obtain ⟨hok, hstate, hvalue⟩ := h p
  refine ⟨hok, ?_, hvalue⟩
  change Flagged.setValid (c p).ok (c p).state = Flagged.setValid (c' p).ok (c' p).state
  rw [hok, hstate]

theorem Agree.mapValue {f f' : Bool → α → β} (h : Agree c c') (hf : f true = f' true) :
    Agree (mapValue f c) (mapValue f' c') := by
  intro p
  obtain ⟨hok, hstate, hvalue⟩ := h p
  refine ⟨hok, hstate, ?_⟩
  intro hp
  have hc : (c p).ok = true := hp
  change f (c p).ok (c p).value = f' (c' p).ok (c' p).value
  rw [← hok, hc, hvalue hc, hf]

theorem Agree.check (h : Agree c c') (stop stop' : α → β)
    (hnext : ∀ a, Agree (next a) (next' a)) :
    Agree (check c stop next) (check c' stop' next') := by
  intro p
  obtain ⟨hok, hstate, hvalue⟩ := h p
  cases hc : (c p).ok with
  | false =>
      have hc' : (c' p).ok = false := hok.symm.trans hc
      simp [SameRun, Call.check, hc, hc', hstate]
  | true =>
      have hc' : (c' p).ok = true := hok.symm.trans hc
      have hrest := hnext (c p).value (c p).state
      simpa [SameRun, Call.check, hc, hc', ← hstate, ← hvalue hc] using hrest

/-- Behind a failure that was not looked at, neither does anything more. -/
theorem Agree.ignoring (h : Agree c c') (hc : Steady c) (hnext : ∀ a, Agree (next a) (next' a))
    (hsteady : ∀ a, Steady (next a)) (hsteady' : ∀ a, Steady (next' a)) :
    Agree (ignoring c next) (ignoring c' next') := by
  intro p
  obtain ⟨hok, hstate, hvalue⟩ := h p
  cases hp : (c p).ok with
  | true =>
      have hrest := hnext (c p).value (c p).state
      simpa [SameRun, Call.ignoring, ← hstate, ← hvalue hp] using hrest
  | false =>
      have hflag : Flagged.valid (c p).state = false := (hc.flag p).trans hp
      obtain ⟨hleft, hleft', -⟩ := (hsteady (c p).value).poisoned _ hflag
      obtain ⟨hright, hright', -⟩ := (hsteady' (c' p).value).poisoned _ hflag
      simp [SameRun, Call.ignoring, ← hstate, hleft, hleft', hright, hright']

theorem Unpacks.of_agree {bytes : Bool → List UInt8} {a : α} (h : Unpacks c bytes a)
    (hc : Agree c' c) : Unpacks c' bytes a := by
  intro p hp hat
  obtain ⟨hok, hvalue, hend⟩ := h p hp hat
  obtain ⟨hok', hstate', hvalue'⟩ := hc p
  have hp' : (c' p).ok = true := hok'.trans hok
  exact ⟨hp', (hvalue' hp').trans hvalue, hstate'.trans hend⟩

end

/-! ## Targets whose content does not matter -/

mutual

/-- No strings and no entries, in whatever an `unpack` can come across. -/
def Ty.Clean : (t : Ty) → t.Val → Prop
  | .string, s => s = []
  | .wstring, s => s = []
  | .vector t, vec => ∀ x ∈ (show List t.Val from vec).take maxContainerSize, t.Clean x
  | .map _ _, m => m = []
  | .struct fs, v => fs.Clean v
  | .scalar _, _ | .bool, _ | .enum _, _ | .date, _ | .timestamp, _ => True

def Fields.Clean : (fs : Fields) → fs.Val → Prop
  | .nil, _ => True
  | .cons t fs, (x, xs) => t.Clean x ∧ fs.Clean xs

end

mutual

/-- A default-constructed object is one of them. -/
theorem Ty.Fresh.clean : {t : Ty} → {v : t.Val} → t.Fresh v → t.Clean v
  | .string, _, h => h
  | .wstring, _, h => h
  | .vector _, _, h => by
      subst h
      intro x hx
      exact absurd hx (by simp)
  | .map _ _, _, h => h
  | .struct fs, v, h => Fields.Fresh.clean h
  | .scalar _, _, _ | .bool, _, _ | .enum _, _, _ | .date, _, _ | .timestamp, _, _ => trivial

theorem Fields.Fresh.clean : {fs : Fields} → {v : fs.Val} → fs.Fresh v → fs.Clean v
  | .nil, _, _ => trivial
  | .cons _ _, _, h => ⟨Ty.Fresh.clean h.1, Fields.Fresh.clean h.2⟩

end

theorem agree_unpackScalar {s : Scalar} (v w : s.Val) :
    Agree (unpackScalar v) (unpackScalar w) := by
  refine Agree.guarded ?_ v w
  intro p
  have hread (f : s.Val → Bool → List UInt8 → s.Val) (hf : f v true = f w true) :
      SameRun (mapValue (f v) (read s.size)) (mapValue (f w) (read s.size)) p :=
    (agree_refl _).mapValue hf p
  cases hp : p.isLe with
  | true =>
      simp only [SameRun, hp, if_true]
      exact hread (fun old ok bytes ↦ if ok then ofMemory p.hostLe bytes else old) rfl
  | false =>
      simp only [SameRun, hp, Bool.false_eq_true, if_false]
      exact hread
        (fun old ok bytes ↦ if ok then swapEndian (ofMemory p.hostLe bytes) else old) rfl

theorem agree_unpackEnum (v w : Scalar.i32.Val) : Agree (unpackEnum v) (unpackEnum w) := by
  apply Agree.guarded
  exact (agree_refl _).check _ _ fun _ ↦ agree_refl _

theorem agree_unpackBool (b b' : Bool) : Agree (unpackBool b) (unpackBool b') := by
  apply Agree.guarded
  exact (agree_refl _).check _ _ fun _ ↦ agree_refl _

theorem agree_unpackDate (d d' : Date) : Agree (unpackDate d) (unpackDate d') := by
  apply Agree.guarded
  refine (agree_unpackScalar d.year d'.year).check _ _ fun _ ↦ ?_
  refine (agree_unpackScalar d.month d'.month).check _ _ fun _ ↦ ?_
  exact (agree_unpackScalar d.day d'.day).check _ _ fun _ ↦ agree_refl _

theorem agree_unpackTimestamp (t t' : Timestamp) :
    Agree (unpackTimestamp t) (unpackTimestamp t') := by
  apply Agree.guarded
  refine (agree_unpackScalar t.year t'.year).check _ _ fun _ ↦ ?_
  refine (agree_unpackScalar t.month t'.month).check _ _ fun _ ↦ ?_
  refine (agree_unpackScalar t.day t'.day).check _ _ fun _ ↦ ?_
  refine (agree_unpackScalar t.hour t'.hour).check _ _ fun _ ↦ ?_
  refine (agree_unpackScalar t.min t'.min).check _ _ fun _ ↦ ?_
  refine (agree_unpackScalar t.sec t'.sec).check _ _ fun _ ↦ ?_
  exact (agree_unpackScalar t.fract t'.fract).check _ _ fun _ ↦ agree_refl _

section

variable {α : Type} {unpack : α → PackerCall α} {init : α}

theorem agree_unpackEach {xs ys : List α}
    (h : List.Forall₂ (fun x y ↦ Agree (unpack x) (unpack y)) xs ys) :
    Agree (unpackEach unpack xs) (unpackEach unpack ys) := by
  induction h with
  | nil => exact agree_refl _
  | cons hx _ ih => exact hx.assigned.check _ _ fun _ ↦ ih.mapValue rfl

/-- After `resize`, every element is an old one from the front or a new one. -/
theorem mem_resize {vec : List α} {len : ℕ} (hlen : len ≤ maxContainerSize) {x : α}
    (hx : x ∈ resize vec len init) : x ∈ vec.take maxContainerSize ∨ x = init := by
  rcases List.mem_append.mp hx with hold | hnew
  · left
    exact (List.take_sublist_take_left hlen).subset hold
  · right
    exact (List.mem_replicate.mp hnew).2

theorem length_resize (vec : List α) (len : ℕ) : (resize vec len init).length = len := by
  simp only [resize, List.length_append, List.length_take, List.length_replicate]
  omega

theorem agree_unpackVector {vec vec' : List α}
    (h : ∀ x, x ∈ vec.take maxContainerSize ∨ x = init →
      ∀ y, y ∈ vec'.take maxContainerSize ∨ y = init → Agree (unpack x) (unpack y)) :
    Agree (unpackVector unpack init vec) (unpackVector unpack init vec') := by
  apply Agree.guarded
  refine (agree_refl _).check _ _ fun len ↦ ?_
  by_cases hlen : maxContainerSize < len
  · rw [if_pos hlen, if_pos hlen]
    exact agree_fail vec vec'
  · rw [if_neg hlen, if_neg hlen]
    apply agree_unpackEach
    apply List.forall₂_iff_get.mpr
    refine ⟨by rw [length_resize, length_resize], ?_⟩
    intro i hi hi'
    apply h
    · exact mem_resize (Nat.not_lt.mp hlen) (List.get_mem _ _)
    · exact mem_resize (Nat.not_lt.mp hlen) (List.get_mem _ _)

end

section

variable (less : (t : Ty) → t.Val → t.Val → Bool)

mutual

/-- From clean targets every `unpack` runs the same way. -/
theorem Ty.agree_unpack : (t : Ty) → (x y : t.Val) → t.Clean x → t.Clean y →
    Agree (t.unpack less x) (t.unpack less y)
  | .scalar _, x, y, _, _ => agree_unpackScalar x y
  | .bool, x, y, _, _ => agree_unpackBool x y
  | .enum _, x, y, _, _ => agree_unpackEnum x y
  | .string, _, _, hx, hy => by
      rw [hx, hy]
      exact agree_refl _
  | .wstring, _, _, hx, hy => by
      rw [hx, hy]
      exact agree_refl _
  | .date, x, y, _, _ => agree_unpackDate x y
  | .timestamp, x, y, _, _ => agree_unpackTimestamp x y
  | .vector t, vec, vec', hvec, hvec' => by
      have hinit := t.fresh_init.clean
      apply agree_unpackVector
      intro x hx y hy
      apply t.agree_unpack x y
      · rcases hx with hx | rfl
        · exact hvec x hx
        · exact hinit
      · rcases hy with hy | rfl
        · exact hvec' y hy
        · exact hinit
  | .map _ _, _, _, hx, hy => by
      rw [hx, hy]
      exact agree_refl _
  | .struct fs, x, y, hx, hy => (fs.agree_unpack x y hx hy).guarded x y

theorem Fields.agree_unpack : (fs : Fields) → (x y : fs.Val) → fs.Clean x → fs.Clean y →
    Agree (fs.unpack less x) (fs.unpack less y)
  | .nil, _, _, _, _ => agree_refl _
  | .cons t fs, (x, xs), (y, ys), hx, hy =>
      (t.agree_unpack x y hx.1 hy.1).ignoring (t.steady_unpack less x)
        (fun _ ↦ (fs.agree_unpack xs ys hx.2 hy.2).mapValue rfl)
        (fun _ ↦ (fs.steady_unpack less xs).mapValue _)
        fun _ ↦ (fs.steady_unpack less ys).mapValue _

end

/-- A clean target gets the value whose encoding stands in the buffer. -/
theorem Ty.unpacks_of_clean (t : Ty) {x v : t.Val} (hx : t.Clean x) (hfits : t.Fits v)
    (hwf : t.WellFormed less v) : Unpacks (t.unpack less x) (fun le ↦ t.encode le v) v := by
  have hinit := t.unpacks_unpack less v t.init hfits hwf t.fresh_init
  exact hinit.of_agree (t.agree_unpack less x t.init hx t.fresh_init.clean)

end

/-! ## What gives the old content away -/

section

variable {α β : Type}

/-- If the call succeeds at `bytes` and leaves `a`, then `P`. -/
def Tells (c : PackerCall α) (bytes : Bool → List UInt8) (a : α) (P : Prop) : Prop :=
  ∀ p : BitsPacker, p.isValid = true → p.At (bytes p.wireLe) → (c p).ok = true →
    (c p).value = a → P

variable {c : PackerCall α} {next : α → PackerCall β} {bytes bytes' : Bool → List UInt8}
  {a : α} {b : β} {P Q : Prop}

theorem Unpacks.tells (h : Unpacks c bytes a) (a' : α) : Tells c bytes a' (a = a') := by
  intro p hp hat _ hvalue
  obtain ⟨-, hreturned, -⟩ := h p hp hat
  exact hreturned.symm.trans hvalue

theorem Tells.guarded (h : Tells c bytes a P) (a₀ : α) : Tells (guarded a₀ c) bytes a P := by
  intro p hp hat hok hvalue
  have hsame : Call.guarded a₀ c p = c p := if_pos hp
  rw [hsame] at hok hvalue
  exact h p hp hat hok hvalue

theorem Tells.after (h : Tells (next a) bytes' b Q) (hc : Unpacks c bytes a) (stop : α → β) :
    Tells (check c stop next) (fun le ↦ bytes le ++ bytes' le) b Q := by
  intro p hp hat hok hvalue
  obtain ⟨hfirst, ha, hstate⟩ := hc p hp hat.left
  have hgo : (check c stop next p).ok = (next a (p.skip (bytes p.wireLe).length)).ok ∧
      (check c stop next p).value = (next a (p.skip (bytes p.wireLe).length)).value := by
    simp [Call.check, hfirst, ha, hstate]
  rw [hgo.1] at hok
  rw [hgo.2] at hvalue
  exact h (p.skip _) hp hat.right hok hvalue

variable {γ : Type} {d : PackerCall γ} {e : γ} {join : α → γ → β}

/-- The parts of a value tell about the parts of the target.  The first part
has to be right before it is known where the second one stands. -/
theorem Tells.parts (hc : Tells c bytes a P) (hP : P → Unpacks c bytes a)
    (hd : Tells d bytes' e Q) (hjoin : ∀ x y, join x y = join a e → x = a ∧ y = e)
    (stop : α → β) :
    Tells (check c stop fun x ↦ mapValue (fun _ y ↦ join x y) d)
      (fun le ↦ bytes le ++ bytes' le) (join a e) (P ∧ Q) := by
  intro p hp hat hok hvalue
  have hfirst := hok
  rw [ok_check, Bool.and_eq_true] at hfirst
  have hgo : (check c stop (fun x ↦ mapValue (fun _ y ↦ join x y) d) p).value =
      join (c p).value (d (c p).state).value := by
    simp [Call.check, Call.mapValue, hfirst.1]
  rw [hgo] at hvalue
  obtain ⟨hleft, hright⟩ := hjoin _ _ hvalue
  have hholds : P := hc p hp hat.left hfirst.1 hleft
  obtain ⟨-, -, hstate⟩ := hP hholds p hp hat.left
  have hsecond : (d (c p).state).ok = true := hfirst.2
  rw [hstate] at hright hsecond
  exact ⟨hholds, hd (p.skip _) hp hat.right hsecond hright⟩

theorem Tells.fields (hc : Tells c bytes a P) (hP : P → Unpacks c bytes a)
    (hd : Tells d bytes' e Q) (hjoin : ∀ x y, join x y = join a e → x = a ∧ y = e)
    (hsteady : Steady c) (hsteady' : Steady d) :
    Tells (ignoring c fun x ↦ mapValue (fun _ y ↦ join x y) d)
      (fun le ↦ bytes le ++ bytes' le) (join a e) (P ∧ Q) := by
  intro p hp hat hok hvalue
  have hd' : (d (c p).state).ok = true := hok
  -- a struct that came through had no field that failed
  have hfirst : (c p).ok = true := by
    by_contra hne
    have hflag : Flagged.valid (c p).state = false :=
      (hsteady.flag p).trans (Bool.eq_false_of_not_eq_true hne)
    rw [(hsteady'.poisoned _ hflag).1] at hd'
    exact Bool.false_ne_true hd'
  let stop : α → β := fun _ ↦ join a e
  have hsame : check c stop (fun x ↦ mapValue (fun _ y ↦ join x y) d) p =
      ignoring c (fun x ↦ mapValue (fun _ y ↦ join x y) d) p := by
    simp [Call.check, Call.ignoring, hfirst]
  rw [← hsame] at hok hvalue
  exact hc.parts hP hd hjoin stop p hp hat hok hvalue

end

mutual

/-- The value with every string and every map emptied. -/
def Ty.hollow : (t : Ty) → t.Val → t.Val
  | .string, _ => ([] : List UInt8)
  | .wstring, _ => ([] : List UInt16)
  | .vector t, vec => ((show List t.Val from vec).take maxContainerSize).map fun x ↦ t.hollow x
  | .map k v, _ => ([] : List (k.Val × v.Val))
  | .struct fs, v => fs.hollow v
  | .scalar _, v | .bool, v | .enum _, v | .date, v | .timestamp, v => v

def Fields.hollow : (fs : Fields) → fs.Val → fs.Val
  | .nil, _ => ()
  | .cons t fs, (x, xs) => (t.hollow x, fs.hollow xs)

end

mutual

theorem Ty.fits_hollow : (t : Ty) → (x : t.Val) → t.Fits (t.hollow x)
  | .string, _ => Nat.zero_le _
  | .wstring, _ => wstringFits_utf16 [] (by decide)
  | .vector t, vec => by
      constructor
      · change (List.map _ _).length ≤ maxContainerSize
        rw [List.length_map]
        exact List.length_take_le _ _
      · intro y hy
        obtain ⟨x, -, rfl⟩ := List.mem_map.mp hy
        exact t.fits_hollow x
  | .map _ _, _ => ⟨Nat.zero_le _, List.forall_mem_nil _⟩
  | .struct fs, v => fs.fits_hollow v
  | .scalar _, _ | .bool, _ | .enum _, _ | .date, _ | .timestamp, _ => trivial

theorem Fields.fits_hollow : (fs : Fields) → (x : fs.Val) → fs.Fits (fs.hollow x)
  | .nil, _ => trivial
  | .cons t fs, (x, xs) => ⟨t.fits_hollow x, fs.fits_hollow xs⟩

end

section

variable (less : (t : Ty) → t.Val → t.Val → Bool)

mutual

theorem Ty.wellFormed_hollow : (t : Ty) → (x : t.Val) → t.WellFormed less (t.hollow x)
  | .string, _ => List.forall_mem_nil _
  | .wstring, _ => ⟨[], rfl⟩
  | .vector t, vec => by
      intro y hy
      obtain ⟨x, -, rfl⟩ := List.mem_map.mp hy
      exact t.wellFormed_hollow x
  | .map _ _, _ => ⟨List.Pairwise.nil, List.forall_mem_nil _⟩
  | .struct fs, v => fs.wellFormed_hollow v
  | .scalar _, _ | .bool, _ | .enum _, _ | .date, _ | .timestamp, _ => trivial

theorem Fields.wellFormed_hollow : (fs : Fields) → (x : fs.Val) →
    fs.WellFormed less (fs.hollow x)
  | .nil, _ => trivial
  | .cons t fs, (x, xs) => ⟨t.wellFormed_hollow x, fs.wellFormed_hollow xs⟩

end

/-- Nothing is written when the length is zero. -/
theorem unpacks_string_nil (s : List UInt8) :
    Unpacks (unpackString s) (fun le ↦ stringBytes le []) s := by
  apply Unpacks.guarded
  refine (unpacks_unpackLen (Nat.zero_le _)).assigned.ignoring ?_
  rw [if_neg (Nat.not_lt_zero _), if_neg (Nat.lt_irrefl 0)]
  exact unpacks_ret s

theorem unpacks_map_nil {α β : Type} {lt : α → α → Bool} {unpackKey : PackerCall α}
    {unpackValue : PackerCall β} {key : Bool → α → List UInt8} {value : Bool → β → List UInt8}
    (m : List (α × β)) :
    Unpacks (unpackMap lt unpackKey unpackValue m)
      (fun le ↦ vectorBytes le (pairBytes (key le) (value le)) []) m := by
  apply Unpacks.guarded
  refine (unpacks_unpackLen (Nat.zero_le _)).assigned.check _ ?_
  rw [if_neg (Nat.not_lt_zero _)]
  exact unpacks_ret m

/-- Behind the old characters nothing is added; too many of them are an
error. -/
theorem tells_wstring (s : List UInt16) :
    Tells (unpackWstring s) (fun le ↦ wstringBytes le []) [] (s = []) := by
  apply Tells.guarded
  have hconvert : Unpacks (convert8 [] s) (fun _ ↦ []) s := by
    have hnil : Utf8.utf8to16 [] = ⟨[], none⟩ := Utf8.utf8to16_utf8 []
    simp only [convert8, hnil, if_true, List.append_nil]
    exact unpacks_ret s
  have hlast : Tells (if maxStringSize < s.length then fail s else ret s) (fun _ ↦ []) []
      (s = []) := by
    intro p _ _ _ hvalue
    split_ifs at hvalue
    · exact hvalue
    · exact hvalue
  have hbytes : (fun le ↦ wstringBytes le []) = fun le ↦ stringBytes le [] ++ ([] ++ []) := by
    have hnil : Utf8.utf16to8 [] = ⟨[], none⟩ := Utf8.utf16to8_utf16 []
    funext le
    rw [List.append_nil, List.append_nil, wstringBytes, hnil]
  rw [hbytes]
  refine Tells.after ?_ (unpacks_unpackOctets (Nat.zero_le _)).assigned _
  refine @Tells.after _ _ _ (fun s' ↦ if maxStringSize < s'.length then fail s' else ret s')
    _ _ _ _ _ ?_ hconvert.assigned id
  exact hlast

theorem tells_vector {α : Type} {unpack : α → PackerCall α} {encode : Bool → α → List UInt8}
    {init : α} {hollow : α → α} {P : α → Prop} (vec : List α)
    (h : ∀ x, Tells (unpack x) (fun le ↦ encode le (hollow x)) (hollow x) (P x))
    (hP : ∀ x, P x → Unpacks (unpack x) (fun le ↦ encode le (hollow x)) (hollow x)) :
    Tells (unpackVector unpack init vec)
      (fun le ↦ vectorBytes le (encode le) ((vec.take maxContainerSize).map hollow))
      ((vec.take maxContainerSize).map hollow) (∀ x ∈ vec.take maxContainerSize, P x) := by
  have heach (xs : List α) : Tells (unpackEach unpack xs)
      (fun le ↦ (xs.map hollow).flatMap (encode le)) (xs.map hollow) (∀ x ∈ xs, P x) := by
    induction xs with
    | nil =>
        intro p _ _ _ _
        exact List.forall_mem_nil _
    | cons x xs ih =>
        have hx : Tells (assigned (unpack x)) (fun le ↦ encode le (hollow x)) (hollow x) (P x) :=
          h x
        have hparts := hx.parts (fun hx ↦ (hP x hx).assigned) ih
          (fun _ _ h ↦ List.cons.inj h) (· :: xs)
        intro p hp hat hok hvalue
        exact List.forall_mem_cons.mpr (hparts p hp hat hok hvalue)
  let kept := vec.take maxContainerSize
  have hlen : (kept.map hollow).length ≤ maxContainerSize := by
    rw [List.length_map]
    exact List.length_take_le _ _
  have hresize : resize vec (kept.map hollow).length init = kept := by
    simp [resize, kept]
  apply Tells.guarded
  refine Tells.after ?_ (unpacks_unpackLen hlen).assigned _
  rw [if_neg (Nat.not_lt.mpr hlen), hresize]
  exact heach kept

mutual

theorem Ty.tells_unpack : (t : Ty) → (x : t.Val) →
    Tells (t.unpack less x) (fun le ↦ t.encode le (t.hollow x)) (t.hollow x) (t.Clean x)
  | .string, s => (unpacks_string_nil s).tells _
  | .wstring, s => tells_wstring s
  | .vector t, vec => tells_vector vec (fun x ↦ t.tells_unpack x) fun x hx ↦
      t.unpacks_of_clean less hx (t.fits_hollow x) (t.wellFormed_hollow less x)
  | .map _ _, m => (unpacks_map_nil m).tells _
  | .struct fs, v => (fs.tells_unpack v).guarded v
  | .scalar _, _ | .bool, _ | .enum _, _ | .date, _ | .timestamp, _ => fun _ _ _ _ _ ↦ trivial

theorem Fields.tells_unpack : (fs : Fields) → (x : fs.Val) →
    Tells (fs.unpack less x) (fun le ↦ fs.encode le (fs.hollow x)) (fs.hollow x) (fs.Clean x)
  | .nil, _ => fun _ _ _ _ _ ↦ trivial
  | .cons t fs, (x, xs) =>
      (t.tells_unpack x).fields
        (fun hx ↦ t.unpacks_of_clean less hx (t.fits_hollow x) (t.wellFormed_hollow less x))
        (fs.tells_unpack xs) (fun _ _ h ↦ Prod.mk.inj h) (t.steady_unpack less x)
        (fs.steady_unpack less xs)

end

/-- Whatever stands at an encoding, a target that takes it over was clean. -/
theorem Ty.clean_of_unpacks (t : Ty) {x : t.Val}
    (h : Unpacks (t.unpack less x) (fun le ↦ t.encode le (t.hollow x)) (t.hollow x)) :
    t.Clean x := by
  let p : BitsPacker := .new true ⟨t.encode true (t.hollow x), 0⟩
  have hat : p.At (t.encode p.wireLe (t.hollow x)) := ⟨[], (List.append_nil _).symm⟩
  obtain ⟨hok, hvalue, -⟩ := h p rfl hat
  exact t.tells_unpack less x p rfl hat hok hvalue

/-! ## Main result -/

/-- Two targets are unpacked into in the same way, each ending with the value
in the buffer, exactly when both were clean. -/
theorem Ty.unpack_reused (t : Ty) (x y : t.Val) :
    (Agree (t.unpack less x) (t.unpack less y) ∧
      ∀ v, t.Fits v → t.WellFormed less v →
        Unpacks (t.unpack less x) (fun le ↦ t.encode le v) v ∧
          Unpacks (t.unpack less y) (fun le ↦ t.encode le v) v) ↔
      t.Clean x ∧ t.Clean y := by
  constructor
  · rintro ⟨-, hvalues⟩
    constructor
    · apply t.clean_of_unpacks less
      exact (hvalues _ (t.fits_hollow x) (t.wellFormed_hollow less x)).1
    · apply t.clean_of_unpacks less
      exact (hvalues _ (t.fits_hollow y) (t.wellFormed_hollow less y)).2
  · rintro ⟨hx, hy⟩
    refine ⟨t.agree_unpack less x y hx hy, ?_⟩
    intro v hfits hwf
    exact ⟨t.unpacks_of_clean less hx hfits hwf, t.unpacks_of_clean less hy hfits hwf⟩

end

/-- An empty string arrives at a variable that holds `x`. -/
theorem Ty.not_unpack_reused :
    let less : (t : Ty) → t.Val → t.Val → Bool := fun _ _ _ ↦ false
    let p := BitsPacker.new true ⟨[0, 0], 0⟩
    let used : PackerCall (List UInt8) := Ty.string.unpack less [120]
    let fresh : PackerCall (List UInt8) := Ty.string.unpack less []
    Ty.string.encode true [] = [0, 0] ∧ (used p).ok = true ∧ (used p).value = [120] ∧
      (fresh p).value = [] ∧ ¬ SameRun used fresh p := by
  intro less p used fresh
  have hused : (used p).value = [120] := by decide
  have hfresh : (fresh p).value = [] := by decide
  refine ⟨by decide, by decide, hused, hfresh, ?_⟩
  rintro ⟨-, -, hvalue⟩
  rw [hused, hfresh] at hvalue
  exact absurd (hvalue (by decide)) (by decide)

end WiseKernel.Packing
