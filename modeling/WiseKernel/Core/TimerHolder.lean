import WiseKernel.Core.TimerCancel

/-!
# Holders of a timer

A `timer_holder` keeps the id of its last request and learns of no end of it but
by its own `cancel`.  Its operations are interleaved with the steps of the timer.
-/

namespace WiseKernel.Core.Timer

open WiseKernel.Lib

/-- `timer_holder`; `gone` once it is destroyed. -/
structure Holder where
  id : ℕ
  once : Bool
  act : Option ℕ
  gone : Bool
  deriving DecidableEq, Repr

inductive HolderError
  /-- `"timer holder can have only one timer"` -/
  | busy
  | sequence (e : Sequence.Error)
  deriving DecidableEq, Repr

namespace Holder

def new : Holder := ⟨0, false, none, false⟩

/-- `id > 0`, for an `int`. -/
def positive (id : ℕ) : Bool := decide (0 < id ∧ id < 2 ^ 31)

def isSet (h : Holder) : Bool := positive h.id

/-- `timer_holder::once`; the callback that calls `on_once` is known by the
action that `on_once` calls. -/
def setOnce (env : Env) (h : Holder) (s : State) (after action : ℕ) :
    Except HolderError ℕ × Holder × State :=
  if h.isSet then (.error .busy, h, s)
  else
    let h := { h with once := true }
    match s.once env after action with
    | (.error e, s) => (.error (.sequence e), h, s)
    | (.ok id, s) => (.ok id, { h with id := id, act := some action }, s)

/-- `timer_holder::repeat` -/
def setRepeat (env : Env) (h : Holder) (s : State) (interval action : ℕ) :
    Except HolderError ℕ × Holder × State :=
  match s.repeats env interval action with
  | (.error e, s) => (.error (.sequence e), h, s)
  | (.ok id, s) => (.ok id, { h with id := id }, s)

/-- The timer after `cancel`, and after the destructor. -/
def release (h : Holder) (s : State) : State := if h.isSet then (s.cancel h.id).2 else s

def cancel (h : Holder) : Holder := { h with id := 0 }

def destroy (h : Holder) : Holder := { h with gone := true }

end Holder

inductive HolderOp
  | once (after action : ℕ)
  | repeats (interval action : ℕ)
  | cancel
  | destroy
  deriving DecidableEq, Repr

/-- The timer with its holders; `owner` tells which of them has made a request. -/
structure World where
  config : Config
  holders : ℕ → Holder
  owner : ℕ → Option ℕ

inductive Act
  | timer (m : Move)
  | holder (h : ℕ) (o : HolderOp)
  deriving DecidableEq, Repr

namespace World

def timer (w : World) : State := w.config.timer

def initial : World := ⟨.initial, fun _ ↦ .new, fun _ ↦ none⟩

/-- The world after a call of the holder `h`. -/
def settle (w : World) (h : ℕ) (s : State) (holder : Holder) : World :=
  { w with
    config := ⟨s, w.config.control⟩
    holders := Function.update w.holders h holder }

/-- A request that the holder `h` has just made. -/
def claim (w : World) (h r : ℕ) : World := { w with owner := Function.update w.owner r (some h) }

def holderOp (env : Env) (w : World) (h : ℕ) : HolderOp → World
  | .once after action =>
      match (w.holders h).setOnce env w.timer after action with
      | (.error _, holder, s) => w.settle h s holder
      | (.ok _, holder, s) => (w.settle h s holder).claim h w.timer.made
  | .repeats interval action =>
      match (w.holders h).setRepeat env w.timer interval action with
      | (.error _, holder, s) => w.settle h s holder
      | (.ok _, holder, s) => (w.settle h s holder).claim h w.timer.made
  | .cancel => w.settle h ((w.holders h).release w.timer) (w.holders h).cancel
  | .destroy => w.settle h ((w.holders h).release w.timer) (w.holders h).destroy

/-- A step; `none` where the control is elsewhere, or the holder is gone. -/
def next (env : Env) (w : World) : Act → Option World
  | .timer m => (w.config.next env m).map fun c ↦ { w with config := c }
  | .holder h o =>
      if w.config.control.isOpen && !(w.holders h).gone then some (w.holderOp env h o) else none

/-- The request is the holder's, and the timer knows it. -/
def Owns (w : World) (h r : ℕ) : Prop :=
  w.owner r = some h ∧ w.timer.reqs.get? (w.timer.obj r).id = some r

end World

/-! ## What the timer gives a holder -/

/-- A request with the id `id` has been made and put into the table. -/
structure Issues (s : State) (id : ℕ) (s' : State) : Prop where
  next : ∃ q, s.seq.next = .ok (id, q)
  made : s'.made = s.made + 1
  obj : (s'.obj s.made).id = id
  reqs : ∀ k, s'.reqs.get? k = if k = id then some s.made else s.reqs.get? k

section

variable {env : Env} {s s' : State} {i id after interval action : ℕ} {p : ℕ × ℕ × Bool × ℕ}

/-- `set` followed by `add`, as `once` and `repeat` do. -/
theorem Creates.issues (h : Creates env s i id (s.newReq env id p) s') :
    (s'.add id action).1 = true ∧ Issues s id (s'.add id action).2 := by
  have hget : s'.reqs.get? id = some s.made := by
    rw [h.reqs, if_pos rfl]
  have hsame : Same s' (s'.add id action).2 := same_add hget
  have hreqs : (s'.add id action).2.reqs = s'.reqs := by
    rw [State.add_eq hget]
    rfl
  refine ⟨by rw [State.add_eq hget], ⟨_, h.next⟩, ?_, ?_, fun k ↦ ?_⟩
  · rw [hsame.made, h.made]
  · rw [Req.id_eq (hsame.fixed _), h.obj_made]
    rfl
  · rw [hreqs, h.reqs]

theorem Sound.once_issues (hs : Sound s) (h : s.once env after action = (.ok id, s')) :
    Issues s id s' := by
  have hcases := @Sound.set_cases env s hs after 0 false 0
  rcases hcases with ⟨e, n, i, s₁, heq, -⟩ | ⟨id', i, s₁, heq, hcreates⟩ <;>
    simp only [State.once, heq] at h
  · cases h
  · have hcreates : Creates env s i id' (s.newReq env id' (after, 0, false, 0)) s₁ := hcreates
    cases h
    exact hcreates.issues.2

theorem Sound.repeats_issues (hs : Sound s) (h : s.repeats env interval action = (.ok id, s')) :
    Issues s id s' := by
  have hcases := @Sound.set_cases env s hs interval 0 true 0
  rcases hcases with ⟨e, n, i, s₁, heq, -⟩ | ⟨id', i, s₁, heq, hcreates⟩ <;>
    simp only [State.repeats, heq] at h
  · cases h
  · have hcreates : Creates env s i id' (s.newReq env id' (interval, 0, true, 0)) s₁ := hcreates
    obtain ⟨hadded, hissues⟩ : (s₁.add id' action).1 = true ∧ Issues s id' (s₁.add id' action).2 :=
      hcreates.issues
    rw [hadded] at h
    cases h
    exact hissues

theorem State.once_eq_of_next {q : Sequence} (h : s.seq.next = .ok (id, q)) :
    ∃ s', s.once env after action = (.ok id, s') := by
  have hseq (n : ℕ) : (s.createSlot n).2.seq = s.seq := by rw [(s.opens_createSlot n).eq]
  rw [State.once, State.set]
  simp only [hseq, h]
  exact ⟨_, rfl⟩

end

namespace World

variable {env : Env} {w w' : World} {h r : ℕ}

/-- What a holder may be asked: `once` if its request has not ended without it,
`repeat` if it has no request, and `cancel` and its end if its id is not the id of
another's request; and the ids that it gets are positive as an `int`. -/
def Careful (w : World) : Act → Prop
  | .timer _ => True
  | .holder h (.once _ _) =>
      if (w.holders h).isSet then ∃ r, w.timer.reqs.get? (w.holders h).id = some r ∧
        w.owner r = some h
      else ∃ id q, w.timer.seq.next = .ok (id, q) ∧ Holder.positive id = true
  | .holder h (.repeats _ _) =>
      (∀ r, ¬ w.Owns h r) ∧ ∀ id q, w.timer.seq.next = .ok (id, q) → Holder.positive id = true
  | .holder h _ => (w.holders h).isSet → ∀ r,
      w.timer.reqs.get? (w.holders h).id = some r → w.owner r = some h

/-- A holder knows the id of its request. -/
structure Kept (w : World) : Prop where
  orderly : w.config.Orderly
  made : ∀ h r, w.owner r = some h → r < w.timer.made
  known : ∀ h r, w.Owns h r → (w.holders h).gone = false ∧ (w.holders h).isSet = true ∧
    (w.holders h).id = (w.timer.obj r).id

theorem kept_initial : initial.Kept := by
  refine ⟨Config.orderly_initial, ?_, ?_⟩
  · intro h r howner
    cases howner
  · rintro h r ⟨howner, -⟩
    cases howner

/-- A holder's request that the timer knows after a step was its own before. -/
theorem Kept.owns_of_grows {s : State} (hw : w.Kept) (hgrows : Grows w.timer s)
    (howner : w.owner r = some h) (hget : s.reqs.get? (s.obj r).id = some r) : w.Owns h r := by
  have hr := hw.made h r howner
  have hid := Req.id_eq (hgrows.fixed r hr)
  refine ⟨howner, ?_⟩
  rw [hid] at hget
  exact hgrows.table _ r hr hget

theorem Kept.timer {m : Move} (hw : w.Kept) (hnext : w.next env (.timer m) = some w') :
    w'.Kept := by
  rw [next, Option.map_eq_some_iff] at hnext
  obtain ⟨c, hc, rfl⟩ := hnext
  have hgrows := hw.orderly.grows hc
  refine ⟨hw.orderly.next hc, fun h r howner ↦ ?_, ?_⟩
  · exact Nat.lt_of_lt_of_le (hw.made h r howner) hgrows.made_le
  · rintro h r ⟨howner, hget⟩
    obtain ⟨hgone, hset, hid⟩ := hw.known h r (hw.owns_of_grows hgrows howner hget)
    exact ⟨hgone, hset, hid.trans (Req.id_eq (hgrows.fixed r (hw.made h r howner))).symm⟩

/-- A call of a holder moves the timer as an operation of the application does. -/
theorem Kept.orderly_perform {o : Op} (hw : w.Kept) (hopen : w.config.control.isOpen = true) :
    Config.Orderly ⟨w.timer.perform env o, w.config.control⟩ ∧
      Grows w.timer (w.timer.perform env o) := by
  have hstep : w.config.next env (.op o) =
      some ⟨w.timer.perform env o, w.config.control⟩ := if_pos hopen
  exact ⟨hw.orderly.next hstep, hw.orderly.grows hstep⟩

/-- A call that makes no request and leaves the holder with what it owns. -/
theorem Kept.settle {s : State} {holder : Holder} (hw : w.Kept)
    (horderly : Config.Orderly ⟨s, w.config.control⟩) (hgrows : Grows w.timer s)
    (hself : ∀ r, (w.settle h s holder).Owns h r → (w.holders h).isSet = true →
      holder.gone = false ∧ holder.isSet = true ∧ holder.id = (w.holders h).id) :
    (w.settle h s holder).Kept := by
  refine ⟨horderly, fun k r howner ↦ ?_, fun k r howns ↦ ?_⟩
  · exact Nat.lt_of_lt_of_le (hw.made k r howner) hgrows.made_le
  · have hold := hw.owns_of_grows hgrows howns.1 howns.2
    obtain ⟨hgone, hset, hid⟩ := hw.known k r hold
    have hfixed := Req.id_eq (hgrows.fixed r (hw.made k r hold.1))
    by_cases hk : k = h
    · subst hk
      obtain ⟨hgone', hset', hid'⟩ := hself r howns hset
      have hholder : (w.settle k s holder).holders k = holder := Function.update_self ..
      rw [hholder]
      exact ⟨hgone', hset', (hid'.trans hid).trans hfixed.symm⟩
    · have hholder : (w.settle h s holder).holders k = w.holders k := Function.update_of_ne hk ..
      rw [hholder]
      exact ⟨hgone, hset, hid.trans hfixed.symm⟩

/-- A call that makes a request for a holder without one. -/
theorem Kept.claim {s : State} {holder : Holder} {id : ℕ} (hw : w.Kept)
    (horderly : Config.Orderly ⟨s, w.config.control⟩) (hgrows : Grows w.timer s)
    (hissues : Issues w.timer id s) (hid : Holder.positive id = true)
    (hnone : ∀ r, ¬ w.Owns h r) (hgone : holder.gone = false) (hholder : holder.id = id) :
    ((w.settle h s holder).claim h w.timer.made).Kept := by
  have howner (r : ℕ) : ((w.settle h s holder).claim h w.timer.made).owner r =
      if r = w.timer.made then some h else w.owner r := Function.update_apply ..
  refine ⟨horderly, fun k r hk ↦ ?_, ?_⟩
  · change r < s.made
    rw [howner] at hk
    split_ifs at hk with hr
    · rw [hissues.made, hr]
      exact Nat.lt_succ_self _
    · exact Nat.lt_of_lt_of_le (hw.made k r hk) hgrows.made_le
  · rintro k r ⟨hk, hget⟩
    rw [howner] at hk
    change (Function.update w.holders h holder k).gone = false ∧
      (Function.update w.holders h holder k).isSet = true ∧
      (Function.update w.holders h holder k).id = (s.obj r).id
    split_ifs at hk with hr
    · cases hk
      rw [Function.update_self, hr, hissues.obj, Holder.isSet, hholder]
      exact ⟨hgone, hid, rfl⟩
    · have hold := hw.owns_of_grows hgrows hk hget
      obtain ⟨hgone', hset', hid'⟩ := hw.known k r hold
      have hkh : k ≠ h := by
        rintro rfl
        exact hnone r hold
      rw [Function.update_of_ne hkh, Req.id_eq (hgrows.fixed r (hw.made k r hk))]
      exact ⟨hgone', hset', hid'⟩

theorem Kept.not_owns (hw : w.Kept) (hset : (w.holders h).isSet = false) (r : ℕ) :
    ¬ w.Owns h r := by
  intro howns
  have htrue := (hw.known h r howns).2.1
  rw [hset] at htrue
  cases htrue

/-- After `cancel` and after the destructor the timer knows no request of the holder. -/
theorem Kept.release (env : Env) (hw : w.Kept) (hopen : w.config.control.isOpen = true)
    (holder : Holder) :
    Config.Orderly ⟨(w.holders h).release w.timer, w.config.control⟩ ∧
      Grows w.timer ((w.holders h).release w.timer) ∧
      ∀ r, ¬ (w.settle h ((w.holders h).release w.timer) holder).Owns h r := by
  unfold Holder.release
  split_ifs with hset
  · obtain ⟨horderly, hgrows⟩ := @Kept.orderly_perform env w (.cancel (w.holders h).id) hw hopen
    rw [State.perform] at horderly hgrows
    refine ⟨horderly, hgrows, fun r howns ↦ ?_⟩
    have hold := hw.owns_of_grows hgrows howns.1 howns.2
    have hid := (hw.known h r hold).2.2
    have hget := howns.2
    have hfixed := Req.id_eq (hgrows.fixed r (hw.made h r hold.1))
    change (w.timer.cancel (w.holders h).id).2.reqs.get?
      ((w.timer.cancel (w.holders h).id).2.obj r).id = some r at hget
    rw [hfixed, State.get?_cancel _ _ (hid ▸ hold.2), if_pos hid.symm] at hget
    cases hget
  · refine ⟨hw.orderly, .refl, fun r howns ↦ ?_⟩
    exact hw.not_owns (Bool.eq_false_iff.mpr hset) r howns

theorem Kept.next {a : Act} (hw : w.Kept) (hok : w.Careful a) (hnext : w.next env a = some w') :
    w'.Kept := by
  cases a with
  | timer m => exact hw.timer hnext
  | holder h o =>
      rw [World.next] at hnext
      split_ifs at hnext with hopen
      rw [Bool.and_eq_true, Bool.not_eq_true'] at hopen
      obtain ⟨hopen, hgone⟩ := hopen
      cases hnext
      cases o with
      | once after action =>
          obtain ⟨horderly, hgrows⟩ := @Kept.orderly_perform env w (.once after action) hw hopen
          rw [State.perform] at horderly hgrows
          rw [holderOp, Holder.setOnce]
          split_ifs with hset
          · exact hw.settle hw.orderly .refl fun r _ _ ↦ ⟨hgone, hset, rfl⟩
          · have hnone := hw.not_owns (Bool.eq_false_iff.mpr hset)
            rw [Careful, if_neg hset] at hok
            obtain ⟨id, q, hseq, hid⟩ := hok
            obtain ⟨s, heq⟩ := @State.once_eq_of_next env w.timer id after action q hseq
            rw [heq] at horderly hgrows
            simp only [heq]
            exact hw.claim horderly hgrows (hw.orderly.sound.once_issues heq) hid hnone hgone rfl
      | repeats interval action =>
          obtain ⟨horderly, hgrows⟩ :=
            @Kept.orderly_perform env w (.repeats interval action) hw hopen
          rw [State.perform] at horderly hgrows
          rw [holderOp, Holder.setRepeat]
          obtain ⟨hnone, hids⟩ := hok
          rcases heq : w.timer.repeats env interval action with ⟨e | id, s⟩ <;>
            rw [heq] at horderly hgrows
          · refine hw.settle horderly hgrows fun r howns hset ↦ ⟨hgone, hset, rfl⟩
          · have hissues := hw.orderly.sound.repeats_issues heq
            obtain ⟨q, hseq⟩ := hissues.next
            exact hw.claim horderly hgrows hissues (hids id q hseq) hnone hgone rfl
      | cancel =>
          obtain ⟨horderly, hgrows, hnone⟩ := @Kept.release w h env hw hopen (w.holders h).cancel
          exact hw.settle horderly hgrows fun r howns _ ↦ absurd howns (hnone r)
      | destroy =>
          obtain ⟨horderly, hgrows, hnone⟩ := @Kept.release w h env hw hopen (w.holders h).destroy
          exact hw.settle horderly hgrows fun r howns _ ↦ absurd howns (hnone r)

/-- A holder cancels what the timer knows by its id. -/
theorem Kept.cancelled (hw : w.Kept) {o : HolderOp}
    (hnext : w.next env (.holder h o) = some w') (hmem : .cancelled r ∈ w'.timer.trace)
    (hnot : .cancelled r ∉ w.timer.trace) :
    (o = .cancel ∨ o = .destroy) ∧ (w.holders h).isSet = true ∧
      w.timer.reqs.get? (w.holders h).id = some r := by
  have hs := hw.orderly.sound
  have hmakes (op : Op) (hop : ∀ id, op ≠ .cancel id) :
      .cancelled r ∉ (w.timer.perform env op).trace := by
    intro hr
    rcases hs.cancelled_of_perform hr with hold | ⟨id, rfl, -⟩
    · exact hnot hold
    · exact hop id rfl
  have hrelease (hr : .cancelled r ∈ ((w.holders h).release w.timer).trace) :
      (w.holders h).isSet = true ∧ w.timer.reqs.get? (w.holders h).id = some r := by
    unfold Holder.release at hr
    split_ifs at hr with hset
    · obtain ⟨id, heq, hget⟩ :=
        (@Sound.cancelled_of_perform env w.timer r hs (.cancel (w.holders h).id) hr).resolve_left
          hnot
      cases heq
      exact ⟨hset, hget⟩
    · exact absurd hr hnot
  rw [World.next] at hnext
  split_ifs at hnext with hopen
  cases hnext
  cases o with
  | once after action =>
      have hnone := hmakes (.once after action) fun _ ↦ Op.noConfusion
      rw [State.perform] at hnone
      rw [holderOp, Holder.setOnce] at hmem
      split_ifs at hmem
      · exact absurd hmem hnot
      · rcases heq : w.timer.once env after action with ⟨e | id, s⟩ <;>
          simp only [heq] at hmem hnone <;> exact absurd hmem hnone
  | repeats interval action =>
      have hnone := hmakes (.repeats interval action) fun _ ↦ Op.noConfusion
      rw [State.perform] at hnone
      rw [holderOp, Holder.setRepeat] at hmem
      rcases heq : w.timer.repeats env interval action with ⟨e | id, s⟩ <;>
        simp only [heq] at hmem hnone <;> exact absurd hmem hnone
  | cancel => exact ⟨.inl rfl, hrelease hmem⟩
  | destroy => exact ⟨.inr rfl, hrelease hmem⟩

theorem kept_of_reaches (h : Reaches (next env) Careful initial w) : w.Kept :=
  h.invariant kept_initial fun _ _ _ hw hok hnext ↦ hw.next hok hnext

end World

/-- In a run in which every call of a holder is a careful one: a holder has at most
one request at any time; it cancels its own only; after `cancel` and after its end
it has none; and a holder without a request gets one by `once`. -/
theorem holders_own_one (env : Env) (w : World)
    (hrun : Reaches (World.next env) World.Careful .initial w) :
    (∀ h r r', w.Owns h r → w.Owns h r' → r = r') ∧
    ∀ h o w', w.Careful (.holder h o) → w.next env (.holder h o) = some w' →
      (∀ r, .cancelled r ∈ w'.timer.trace → .cancelled r ∉ w.timer.trace → w.owner r = some h) ∧
      (o = .cancel ∨ o = .destroy → ∀ r, ¬ w'.Owns h r) ∧
      ∀ after action, o = .once after action → (∀ r, ¬ w.Owns h r) →
        ∃ id, ((w.holders h).setOnce env w.timer after action).1 = .ok id := by
  have hw := World.kept_of_reaches hrun
  refine ⟨?_, fun h o w' hok hnext ↦ ⟨?_, ?_, ?_⟩⟩
  · intro h r r' hr hr'
    have hid := (hw.known h r hr).2.2
    have hid' := (hw.known h r' hr').2.2
    have hget := hr.2
    rw [← hid, hid', hr'.2] at hget
    exact (Option.some.inj hget).symm
  · intro r hmem hnot
    obtain ⟨hrelease, hset, hget⟩ := hw.cancelled hnext hmem hnot
    rcases hrelease with rfl | rfl
    · exact hok hset r hget
    · exact hok hset r hget
  · rintro hrelease r howns
    have hw' := hw.next hok hnext
    obtain ⟨hgone, hset, -⟩ := hw'.known h r howns
    rw [World.next] at hnext
    split_ifs at hnext
    cases hnext
    rcases hrelease with rfl | rfl
    · have hholder : (w.holderOp env h .cancel).holders h = (w.holders h).cancel :=
        Function.update_self ..
      rw [hholder] at hset
      simp [Holder.cancel, Holder.isSet, Holder.positive] at hset
    · have hholder : (w.holderOp env h .destroy).holders h = (w.holders h).destroy :=
        Function.update_self ..
      rw [hholder] at hgone
      cases hgone
  · rintro after action rfl hnone
    rw [World.Careful] at hok
    split_ifs at hok with hset
    · obtain ⟨r, hget, howner⟩ := hok
      have hid := (hw.orderly.sound.table _ r hget).2.1
      exact absurd ⟨howner, hid.symm ▸ hget⟩ (hnone r)
    · obtain ⟨id, q, hseq, -⟩ := hok
      obtain ⟨s, heq⟩ := @State.once_eq_of_next env w.timer id after action q hseq
      refine ⟨id, ?_⟩
      rw [Holder.setOnce, if_neg hset]
      simp only [heq]

/-- A check of `Careful` for the calls of `once` and `cancel`. -/
def World.clear (w : World) : Act → Bool
  | .timer _ => true
  | .holder h (.once _ _) => !(w.holders h).isSet && match w.timer.seq.next with
    | .ok (id, _) => Holder.positive id
    | .error _ => false
  | .holder h .cancel => (w.timer.reqs.get? (w.holders h).id).all fun r ↦ w.owner r == some h
  | _ => false

theorem World.careful_of_clear (w : World) (a : Act) (h : w.clear a = true) : w.Careful a := by
  rcases a with m | ⟨k, o⟩
  · trivial
  · cases o with
    | once after action =>
        rw [clear, Bool.and_eq_true, Bool.not_eq_true'] at h
        obtain ⟨hset, hid⟩ := h
        rw [Careful, hset, if_neg Bool.false_ne_true]
        rcases hseq : w.timer.seq.next with e | ⟨id, q⟩ <;> simp only [hseq] at hid
        · cases hid
        · exact ⟨id, q, rfl, hid⟩
    | cancel =>
        intro _ r hget
        rw [clear, hget] at h
        exact beq_iff_eq.mp h
    | _ => cases h

/-- A holder cancels its request before it asks for the next one. -/
theorem holders_own_one_again : ∃ w : World, w.Owns 0 1 ∧ ∀ r, w.Owns 0 r → r = 1 := by
  have hrun : ∃ w, Reaches (World.next tickingEnv) World.Careful .initial w ∧
      (w.owner 1 == some 0 && w.timer.reqs.get? (w.timer.obj 1).id == some 1) = true :=
    exists_reaches_checked [.holder 0 (.once 10 7), .holder 0 .cancel, .holder 0 (.once 10 8)]
      World.clear World.careful_of_clear (by decide)
  obtain ⟨w, hreach, hlast⟩ := hrun
  rw [Bool.and_eq_true, beq_iff_eq, beq_iff_eq] at hlast
  have howns : w.Owns 0 1 := ⟨hlast.1, hlast.2⟩
  exact ⟨w, howns, fun r hr ↦ (holders_own_one tickingEnv w hreach).1 0 r 1 hr howns⟩

/-- A holder whose request has run. -/
def firedOnce : List Act :=
  [.holder 0 (.once 10 7), .timer .execute, .timer .poll, .timer .pick, .timer .call,
    .timer .finish, .timer .pick, .timer .poll]

/-- After its request has run, a holder refuses another; and the id that it keeps
is later that of another's request, which the holder cancels. -/
theorem not_holders_own_one :
    (¬ ∀ (env : Env) (w : World), Reaches (World.next env) (fun _ _ ↦ True) .initial w →
      ∀ h after action, (w.holders h).gone = false → (∀ r, ¬ w.Owns h r) →
        ∃ id, ((w.holders h).setOnce env w.timer after action).1 = .ok id) ∧
    ¬ ∀ (env : Env) (w w' : World), Reaches (World.next env) (fun _ _ ↦ True) .initial w →
      ∀ h o, w.next env (.holder h o) = some w' → ∀ r, .cancelled r ∈ w'.timer.trace →
        .cancelled r ∉ w.timer.trace → w.owner r = some h := by
  constructor
  · intro hall
    have hrun : ∃ w, Reaches (World.next tickingEnv) World.Careful .initial w ∧
        ((w.holders 0).isSet && !(w.holders 0).gone &&
          w.timer.reqs.get? (w.timer.obj 0).id == none && w.timer.made == 1) = true :=
      exists_reaches_checked firedOnce World.clear World.careful_of_clear (by decide)
    obtain ⟨w, hreach, hlast⟩ := hrun
    simp only [Bool.and_eq_true, Bool.not_eq_true', beq_iff_eq] at hlast
    obtain ⟨⟨⟨hset, hgone⟩, hget⟩, hmade⟩ := hlast
    have hnone : ∀ r, ¬ w.Owns 0 r := by
      rintro r ⟨howner, hown⟩
      have hr := (World.kept_of_reaches hreach).made 0 r howner
      rw [hmade, Nat.lt_one_iff] at hr
      rw [hr, hget] at hown
      cases hown
    obtain ⟨id, hok⟩ := hall tickingEnv w (hreach.mono fun _ _ _ ↦ trivial) 0 10 8 hgone hnone
    rw [Holder.setOnce, if_pos hset] at hok
    cases hok
  · intro hall
    have hrun : ∃ w, Reaches (World.next tickingEnv) (fun _ _ ↦ True) .initial w ∧
        (w.owner 16 == none && !w.timer.trace.contains (.cancelled 16) &&
          (w.next tickingEnv (.holder 0 .cancel)).any
            fun w' ↦ w'.timer.trace.contains (.cancelled 16)) = true :=
      exists_reaches (firedOnce ++ List.replicate 16 (.timer (.op (.set 10 0 true 0))))
        (fun _ _ _ ↦ trivial) (by decide +kernel)
    obtain ⟨w, hreach, hlast⟩ := hrun
    simp only [Bool.and_eq_true, Bool.not_eq_true', beq_iff_eq, Option.any_eq_true] at hlast
    obtain ⟨⟨howner, hnot⟩, w', hnext, hmem⟩ := hlast
    rw [List.contains_iff_mem] at hmem
    have hnot : .cancelled 16 ∉ w.timer.trace := by
      rw [← List.contains_iff_mem, hnot]
      exact Bool.false_ne_true
    have hown := hall tickingEnv w w' hreach 0 .cancel hnext 16 hmem hnot
    rw [howner] at hown
    cases hown

end WiseKernel.Core.Timer
