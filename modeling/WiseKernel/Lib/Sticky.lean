import Mathlib.Tactic.Common

/-!
# Calls on a state with a failure flag

The state carries a validity flag.  A call reports success or failure, leaves
a value in its target and logs events.  The combinators are the control flow
of code that tests the flag before it works, copies the results of nested
calls back into it, or drops them.  `Regular` is the contract under which a
failure is final, and every combinator keeps it.
-/

namespace WiseKernel.Lib

/-- A state with a validity flag. -/
class Flagged (σ : Type) where
  valid : σ → Bool
  setValid : Bool → σ → σ
  valid_setValid : ∀ b s, valid (setValid b s) = b
  setValid_valid : ∀ s, setValid (valid s) s = s

/-- What a call returns, what it leaves in its target, and what it has done. -/
structure Outcome (σ ω α : Type) where
  ok : Bool
  value : α
  state : σ
  log : List ω

abbrev Call (σ ω α : Type) := σ → Outcome σ ω α

namespace Call

open Flagged

variable {σ ω α β : Type} [Flagged σ]

/-! ## Combinators -/

/-- Return the flag. -/
def ret (a : α) : Call σ ω α := fun s ↦ ⟨valid s, a, s, []⟩

/-- Clear the flag and return it. -/
def fail (a : α) : Call σ ω α := fun s ↦ ⟨false, a, setValid false s, []⟩

/-- Do nothing and return `false` unless the flag is set. -/
def guarded (a : α) (c : Call σ ω α) : Call σ ω α := fun s ↦
  if valid s then c s else ⟨false, a, s, []⟩

/-- Assign the result of the call to the flag. -/
def assigned (c : Call σ ω α) : Call σ ω α := fun s ↦
  { c s with state := setValid (c s).ok (c s).state }

/-- Return `false` when the call fails, leaving `stop` of its target. -/
def check (c : Call σ ω α) (stop : α → β) (next : α → Call σ ω β) : Call σ ω β := fun s ↦
  if (c s).ok then
    { next (c s).value (c s).state with
      log := (c s).log ++ (next (c s).value (c s).state).log }
  else ⟨false, stop (c s).value, (c s).state, (c s).log⟩

/-- Go on whatever the call returns. -/
def ignoring (c : Call σ ω α) (next : α → Call σ ω β) : Call σ ω β := fun s ↦
  { next (c s).value (c s).state with
    log := (c s).log ++ (next (c s).value (c s).state).log }

/-- The target seen through a function. -/
def mapValue (f : Bool → α → β) (c : Call σ ω α) : Call σ ω β := fun s ↦
  { c s with value := f (c s).ok (c s).value }

/-- A sequence of calls whose results are collected and not acted upon. -/
def runAll : List (Call σ ω α) → Call σ ω (List Bool)
  | [] => ret []
  | c :: cs => fun s ↦
      let rs := runAll cs (c s).state
      ⟨rs.ok, (c s).ok :: rs.value, rs.state, (c s).log ++ rs.log⟩

/-! ## Successful calls -/

/-- The call succeeds from `s`, leaves `a` in its target and ends in `s'`. -/
def Returns (c : Call σ ω α) (s : σ) (a : α) (s' : σ) : Prop :=
  (c s).ok = true ∧ (c s).value = a ∧ (c s).state = s'

variable {c : Call σ ω α} {next : α → Call σ ω β} {s s' s'' : σ} {a : α} {b : β}

theorem returns_ret (hs : valid s = true) : Returns (ret a : Call σ ω α) s a s :=
  ⟨hs, rfl, rfl⟩

theorem Returns.guarded (h : Returns c s a s') (hs : valid s = true) (a₀ : α) :
    Returns (guarded a₀ c) s a s' := by
  simpa [Returns, Call.guarded, hs] using h

theorem Returns.assigned (h : Returns c s a s') (hs : valid s' = true) :
    Returns (assigned c) s a s' := by
  obtain ⟨hok, hvalue, hstate⟩ := h
  refine ⟨hok, hvalue, ?_⟩
  change setValid (c s).ok (c s).state = s'
  rw [hok, hstate, ← hs, setValid_valid]

omit [Flagged σ] in
theorem Returns.check (h : Returns c s a s') (stop : α → β) (hnext : Returns (next a) s' b s'') :
    Returns (check c stop next) s b s'' := by
  obtain ⟨hok, hvalue, hstate⟩ := h
  simpa [Returns, Call.check, hok, hvalue, hstate] using hnext

omit [Flagged σ] in
theorem Returns.of_check {stop : α → β} (h : Returns (Call.check c stop next) s b s'') :
    (c s).ok = true ∧ Returns (next (c s).value) (c s).state b s'' := by
  cases hok : (c s).ok with
  | false => simp [Returns, Call.check, hok] at h
  | true => exact ⟨rfl, by simpa [Returns, Call.check, hok] using h⟩

omit [Flagged σ] in
theorem Returns.ignoring (h : Returns c s a s') (hnext : Returns (next a) s' b s'') :
    Returns (ignoring c next) s b s'' := by
  obtain ⟨-, hvalue, hstate⟩ := h
  simpa [Returns, Call.ignoring, hvalue, hstate] using hnext

omit [Flagged σ] in
theorem Returns.mapValue (h : Returns c s a s') (f : Bool → α → β) :
    Returns (mapValue f c) s (f true a) s' := by
  obtain ⟨hok, hvalue, hstate⟩ := h
  exact ⟨hok, by simp [Call.mapValue, hok, hvalue], hstate⟩

theorem ok_guarded (a₀ : α) : (guarded a₀ c s).ok = (valid s && (c s).ok) := by
  cases hs : valid s <;> simp [guarded, hs]

omit [Flagged σ] in
theorem ok_check (stop : α → β) :
    (check c stop next s).ok = ((c s).ok && (next (c s).value (c s).state).ok) := by
  cases hok : (c s).ok <;> simp [check, hok]

/-! ## The contract -/

/-- On a set flag, the result is the flag after the call and the events
satisfy `P`. -/
def Sound (P : ω → Prop) (c : Call σ ω α) : Prop :=
  ∀ s, valid s = true → valid (c s).state = (c s).ok ∧ ∀ e ∈ (c s).log, P e

/-- The call is sound, and on a cleared flag it returns `false` and does
nothing. -/
structure Regular (P : ω → Prop) (c : Call σ ω α) : Prop where
  poisoned : ∀ s, valid s = false → (c s).ok = false ∧ (c s).state = s ∧ (c s).log = []
  sound : Sound P c

variable {P : ω → Prop}

theorem Regular.flag (h : Regular P c) (s : σ) : valid (c s).state = (c s).ok := by
  cases hs : valid s with
  | false =>
      obtain ⟨hok, hstate, -⟩ := h.poisoned s hs
      rw [hok, hstate, hs]
  | true => exact (h.sound s hs).1

theorem Regular.events (h : Regular P c) (s : σ) : ∀ e ∈ (c s).log, P e := by
  cases hs : valid s with
  | false => simp [(h.poisoned s hs).2.2]
  | true => exact (h.sound s hs).2

theorem regular_ret (a : α) : Regular P (ret a : Call σ ω α) where
  poisoned s hs := ⟨hs, rfl, rfl⟩
  sound s hs := ⟨rfl, by simp [ret]⟩

theorem regular_fail (a : α) : Regular P (fail a : Call σ ω α) where
  poisoned s hs := by
    have h := setValid_valid s
    rw [hs] at h
    exact ⟨rfl, h, rfl⟩
  sound s hs := ⟨valid_setValid false s, by simp [fail]⟩

theorem Sound.guarded (h : Sound P c) (a₀ : α) : Regular P (guarded a₀ c) where
  poisoned s hs := by simp [Call.guarded, hs]
  sound s hs := by simpa [Call.guarded, hs] using h s hs

/-- A result assigned to the flag is the flag, whatever the call was. -/
theorem sound_assigned (h : ∀ s, ∀ e ∈ (c s).log, P e) : Sound P (assigned c) :=
  fun s _ ↦ ⟨valid_setValid _ _, h s⟩

/-- Assigning the result of a regular call to the flag changes nothing. -/
theorem Regular.assigned_eq (h : Regular P c) : assigned c = c := by
  funext s
  have hstate : setValid (c s).ok (c s).state = (c s).state := by
    rw [← h.flag s, setValid_valid]
  simp [assigned, hstate]

theorem Sound.check (h : Sound P c) (stop : α → β) (hnext : ∀ a, Sound P (next a)) :
    Sound P (check c stop next) := by
  intro s hs
  obtain ⟨hflag, hevents⟩ := h s hs
  cases hok : (c s).ok with
  | false =>
      rw [hok] at hflag
      simpa [Call.check, hok, hflag] using hevents
  | true =>
      -- the rest starts on a set flag
      obtain ⟨hflag', hevents'⟩ := hnext (c s).value (c s).state (hflag.trans hok)
      refine ⟨by simpa [Call.check, hok] using hflag', ?_⟩
      intro e he
      simp only [Call.check, hok, if_true, List.mem_append] at he
      rcases he with he | he
      · exact hevents e he
      · exact hevents' e he

theorem Regular.check (h : Regular P c) (stop : α → β) (hnext : ∀ a, Sound P (next a)) :
    Regular P (check c stop next) where
  poisoned s hs := by
    obtain ⟨hok, hstate, hlog⟩ := h.poisoned s hs
    simp [Call.check, hok, hstate, hlog]
  sound := h.sound.check stop hnext

theorem Regular.ignoring (h : Regular P c) (hnext : ∀ a, Regular P (next a)) :
    Regular P (ignoring c next) where
  poisoned s hs := by
    obtain ⟨-, hstate, hlog⟩ := h.poisoned s hs
    obtain ⟨hok', hstate', hlog'⟩ := (hnext (c s).value).poisoned s hs
    simp [Call.ignoring, hstate, hlog, hok', hstate', hlog']
  sound s hs := by
    refine ⟨(hnext _).flag _, ?_⟩
    intro e he
    rcases List.mem_append.mp he with he | he
    · exact h.events s e he
    · exact (hnext _).events _ e he

theorem Sound.mapValue (h : Sound P c) (f : Bool → α → β) : Sound P (mapValue f c) := h

theorem Regular.mapValue (h : Regular P c) (f : Bool → α → β) : Regular P (mapValue f c) :=
  ⟨h.poisoned, h.sound⟩

/-! ## Sequences of calls -/

section

variable {cs : List (Call σ ω α)}

theorem events_runAll (h : ∀ c ∈ cs, Regular P c) (s : σ) :
    ∀ e ∈ (runAll cs s).log, P e := by
  induction cs generalizing s with
  | nil => simp [runAll, ret]
  | cons c cs ih =>
      intro e he
      rcases List.mem_append.mp he with he | he
      · exact (h c (by simp)).events s e he
      · exact ih (fun d hd ↦ h d (by simp [hd])) _ e he

/-- On a cleared flag every result is `false` and nothing is done. -/
theorem runAll_of_invalid (h : ∀ c ∈ cs, Regular P c) (hs : valid s = false) :
    (∀ b ∈ (runAll cs s).value, b = false) ∧ (runAll cs s).state = s ∧
      (runAll cs s).log = [] := by
  induction cs with
  | nil => exact ⟨by simp [runAll, ret], rfl, rfl⟩
  | cons c cs ih =>
      obtain ⟨hok, hstate, hlog⟩ := (h c (by simp)).poisoned s hs
      obtain ⟨hvalue, hend, hlogs⟩ := ih fun d hd ↦ h d (by simp [hd])
      refine ⟨?_, ?_, ?_⟩
      · intro b hb
        rcases List.mem_cons.mp hb with rfl | hb
        · exact hok
        · rw [hstate] at hb
          exact hvalue b hb
      · change (runAll cs (c s).state).state = s
        rw [hstate, hend]
      · change (c s).log ++ (runAll cs (c s).state).log = []
        rw [hlog, hstate, hlogs, List.append_nil]

/-- The flag at the end says whether it was set and every call succeeded. -/
theorem valid_runAll (h : ∀ c ∈ cs, Regular P c) (s : σ) :
    valid (runAll cs s).state = (valid s && (runAll cs s).value.all id) := by
  induction cs generalizing s with
  | nil => simp [runAll, ret]
  | cons c cs ih =>
      have hc := h c (by simp)
      have htail := ih (fun d hd ↦ h d (by simp [hd])) (c s).state
      change valid (runAll cs (c s).state).state =
        (valid s && ((c s).ok && (runAll cs (c s).state).value.all id))
      rw [htail, hc.flag s]
      cases hs : valid s with
      | false => simp [(hc.poisoned s hs).1]
      | true => simp

theorem runAll_append (cs ds : List (Call σ ω α)) (s : σ) :
    runAll (cs ++ ds) s =
      ⟨(runAll ds (runAll cs s).state).ok,
        (runAll cs s).value ++ (runAll ds (runAll cs s).state).value,
        (runAll ds (runAll cs s).state).state,
        (runAll cs s).log ++ (runAll ds (runAll cs s).state).log⟩ := by
  induction cs generalizing s with
  | nil => rfl
  | cons c cs ih => simp [runAll, ih]

end

end Call

end WiseKernel.Lib
