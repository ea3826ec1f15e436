import Mathlib.Tactic.Common

/-!
# Traced computations

A computation that may stop with an error and that records, in order, the
events a reader wants to talk about.  `Traced.Every p x` says that every
recorded event satisfies `p`; its bind rule is what safety proofs about a
straight-line program use.
-/

namespace WiseKernel.Lib

/-- The events of a run, and how the run ended. -/
structure Traced (ε ω α : Type) where
  log : List ω
  out : Except ε α

namespace Traced

variable {ε ω α β : Type}

def ret (a : α) : Traced ε ω α := ⟨[], .ok a⟩

def stop (e : ε) : Traced ε ω α := ⟨[], .error e⟩

def emit (w : ω) : Traced ε ω Unit := ⟨[w], .ok ()⟩

/-- Sequencing: the events of the first run come first, and an error ends the
whole run. -/
def andThen (x : Traced ε ω α) (f : α → Traced ε ω β) : Traced ε ω β :=
  match x.out with
  | .error e => ⟨x.log, .error e⟩
  | .ok a => ⟨x.log ++ (f a).log, (f a).out⟩

instance : Monad (Traced ε ω) where
  pure := ret
  bind := andThen

@[simp] theorem pure_log (a : α) : (pure a : Traced ε ω α).log = [] := rfl

@[simp] theorem pure_out (a : α) : (pure a : Traced ε ω α).out = .ok a := rfl

@[simp] theorem stop_out (e : ε) : (stop e : Traced ε ω α).out = .error e := rfl

@[simp] theorem emit_out (w : ω) : (emit w : Traced ε ω Unit).out = .ok () := rfl

theorem bind_of_ok {x : Traced ε ω α} {a : α} (h : x.out = .ok a)
    (f : α → Traced ε ω β) : (x >>= f).out = (f a).out := by
  change (andThen x f).out = _
  simp [andThen, h]

theorem bind_of_error {x : Traced ε ω α} {e : ε} (h : x.out = .error e)
    (f : α → Traced ε ω β) : (x >>= f).out = .error e := by
  change (andThen x f).out = _
  simp [andThen, h]

/-- A sequence returns when both of its parts do. -/
theorem bind_eq_ok {x : Traced ε ω α} {f : α → Traced ε ω β} {b : β} :
    (x >>= f).out = .ok b ↔ ∃ a, x.out = .ok a ∧ (f a).out = .ok b := by
  cases hx : x.out with
  | error e => simp [bind_of_error hx]
  | ok a => simp [bind_of_ok hx]

/-- Every recorded event satisfies `p`. -/
def Every (p : ω → Prop) (x : Traced ε ω α) : Prop :=
  ∀ w ∈ x.log, p w

theorem Every.mono {p q : ω → Prop} {x : Traced ε ω α} (hx : Every p x)
    (h : ∀ w, p w → q w) : Every q x :=
  fun w hw ↦ h w (hx w hw)

@[simp] theorem every_pure (p : ω → Prop) (a : α) :
    Every p (pure a : Traced ε ω α) := by
  simp [Every]

@[simp] theorem every_stop (p : ω → Prop) (e : ε) :
    Every p (stop e : Traced ε ω α) := by
  simp [Every, stop]

@[simp] theorem every_emit (p : ω → Prop) (w : ω) :
    Every p (emit w : Traced ε ω Unit) ↔ p w := by
  simp [Every, emit]

/-- The bind rule: the events of a sequence are those of its first part and,
when that part returns, those of the rest. -/
theorem every_bind (p : ω → Prop) (x : Traced ε ω α) (f : α → Traced ε ω β) :
    Every p (x >>= f) ↔ Every p x ∧ ∀ a, x.out = .ok a → Every p (f a) := by
  change (∀ w ∈ (andThen x f).log, p w) ↔ _
  cases hx : x.out with
  | error e => simp [andThen, hx, Every]
  | ok a =>
      simp only [andThen, hx, List.mem_append, Except.ok.injEq, forall_eq', Every]
      constructor
      · intro h
        exact ⟨fun w hw ↦ h w (.inl hw), fun w hw ↦ h w (.inr hw)⟩
      · rintro ⟨hl, hr⟩ w (hw | hw)
        · exact hl w hw
        · exact hr w hw

theorem every_bind_of_ok {p : ω → Prop} {x : Traced ε ω α} {a : α}
    (h : x.out = .ok a) (f : α → Traced ε ω β) :
    Every p (x >>= f) ↔ Every p x ∧ Every p (f a) := by
  rw [every_bind]
  simp [h]

end Traced

end WiseKernel.Lib
