import Mathlib.Logic.Relation
import Mathlib.Data.List.Basic

/-!
# Runs of a state machine

A history is a list of operations applied one after the other; `Throughout`
asks a condition of each operation in the state in which it is applied.  A
system whose steps may be refused is given by a partial step function, and
`Reaches` is the relation of its runs.
-/

namespace WiseKernel.Lib

variable {σ α : Type*}

/-- Every operation of the history meets `ok` in the state it finds. -/
def Throughout (step : σ → α → σ) (ok : σ → α → Prop) : σ → List α → Prop
  | _, [] => True
  | s, a :: as => ok s a ∧ Throughout step ok (step s a) as

section

variable {step : σ → α → σ} {ok ok' : σ → α → Prop} {inv : σ → Prop} {s : σ} {as bs : List α}

instance decidableThroughout [∀ s a, Decidable (ok s a)] :
    ∀ (s : σ) (as : List α), Decidable (Throughout step ok s as)
  | _, [] => .isTrue trivial
  | s, a :: as => @instDecidableAnd _ _ _ (decidableThroughout (step s a) as)

@[simp] theorem throughout_nil : Throughout step ok s [] := trivial

@[simp] theorem throughout_cons {a : α} :
    Throughout step ok s (a :: as) ↔ ok s a ∧ Throughout step ok (step s a) as := Iff.rfl

/-- The invariant rule for histories of any operations. -/
theorem foldl_invariant (hs : inv s) (hstep : ∀ s a, inv s → inv (step s a)) :
    inv (as.foldl step s) := by
  induction as generalizing s with
  | nil => exact hs
  | cons a as ih => exact ih (hstep s a hs)

/-- The invariant rule for histories. -/
theorem Throughout.foldl (h : Throughout step ok s as) (hs : inv s)
    (hstep : ∀ s a, inv s → ok s a → inv (step s a)) : inv (as.foldl step s) := by
  induction as generalizing s with
  | nil => exact hs
  | cons a as ih => exact ih h.2 (hstep s a hs h.1)

/-- Conditions that agree on related states agree on the histories of two
machines that stay related. -/
theorem throughout_related {τ : Type*} {step' : τ → α → τ} {ok' : τ → α → Prop}
    {related : σ → τ → Prop} {t : τ} (h : related s t)
    (hstep : ∀ s t a, related s t → ok' t a → related (step s a) (step' t a))
    (hiff : ∀ s t a, related s t → (ok s a ↔ ok' t a)) :
    Throughout step ok s as ↔ Throughout step' ok' t as := by
  induction as generalizing s t with
  | nil => exact Iff.rfl
  | cons a as ih =>
      rw [throughout_cons, throughout_cons, hiff s t a h]
      exact and_congr_right fun hok ↦ ih (hstep s t a h hok)

/-- Two conditions that agree under an invariant agree on histories. -/
theorem throughout_congr (hs : inv s) (hstep : ∀ s a, inv s → ok s a → inv (step s a))
    (h : ∀ s a, inv s → (ok' s a ↔ ok s a)) :
    Throughout step ok' s as ↔ Throughout step ok s as := by
  refine @throughout_related _ _ step ok' s as _ step ok (fun s t ↦ s = t ∧ inv s) s ⟨rfl, hs⟩ ?_ ?_
  · rintro s _ a ⟨rfl, hinv⟩ hok
    exact ⟨rfl, hstep s a hinv hok⟩
  · rintro s _ a ⟨rfl, hinv⟩
    exact h s a hinv

end

/-- The states after steps that all meet a condition. -/
def Reaches (step : σ → α → Option σ) (ok : σ → α → Prop) : σ → σ → Prop :=
  Relation.ReflTransGen fun s s' ↦ ∃ a, ok s a ∧ step s a = some s'

section

variable {step : σ → α → Option σ} {ok : σ → α → Prop} {inv : σ → Prop} {s s' : σ}

theorem Reaches.refl : Reaches step ok s s := Relation.ReflTransGen.refl

theorem Reaches.head {a : α} {s'' : σ} (hok : ok s a) (hstep : step s a = some s')
    (h : Reaches step ok s' s'') : Reaches step ok s s'' :=
  Relation.ReflTransGen.head ⟨a, hok, hstep⟩ h

theorem Reaches.trans {s'' : σ} (h : Reaches step ok s s') (h' : Reaches step ok s' s'') :
    Reaches step ok s s'' :=
  Relation.ReflTransGen.trans h h'

theorem Reaches.mono {ok' : σ → α → Prop} (h : Reaches step ok s s')
    (hok : ∀ s a, ok s a → ok' s a) : Reaches step ok' s s' := by
  refine Relation.ReflTransGen.mono ?_ _ _ h
  rintro s s' ⟨a, ha, hstep⟩
  exact ⟨a, hok s a ha, hstep⟩

/-- The invariant rule for runs. -/
theorem Reaches.invariant (h : Reaches step ok s s') (hs : inv s)
    (hstep : ∀ s a s', inv s → ok s a → step s a = some s' → inv s') : inv s' := by
  induction h with
  | refl => exact hs
  | tail _ hlast ih =>
      obtain ⟨a, hok, ha⟩ := hlast
      exact hstep _ a _ ih hok ha

/-- A run given by the list of its actions. -/
theorem Reaches.of_foldlM {as : List α} (hok : ∀ s, ∀ a ∈ as, ok s a)
    (h : as.foldlM step s = some s') : Reaches step ok s s' := by
  induction as generalizing s with
  | nil =>
      cases h
      exact .refl
  | cons a as ih =>
      rw [List.foldlM_cons] at h
      obtain ⟨s₁, hstep, hrest⟩ := Option.bind_eq_some_iff.mp h
      exact .head (hok s a List.mem_cons_self) hstep
        (ih (fun s b hb ↦ hok s b (List.mem_cons_of_mem a hb)) hrest)

/-- A run in which every action and the last state are checked. -/
theorem exists_reaches_checked (as : List α) (check : σ → α → Bool) {p : σ → Bool}
    (hok : ∀ s a, check s a = true → ok s a)
    (h : (as.foldlM (fun s a ↦ if check s a then step s a else none) s).any p = true) :
    ∃ s', Reaches step ok s s' ∧ p s' = true := by
  induction as generalizing s with
  | nil => exact ⟨s, .refl, h⟩
  | cons a as ih =>
      rw [List.foldlM_cons] at h
      cases hcheck : check s a with
      | false => simp [hcheck] at h
      | true =>
          cases hstep : step s a with
          | none => simp [hcheck, hstep] at h
          | some s₁ =>
              simp only [hcheck, hstep, if_true, Option.bind_eq_bind, Option.bind_some] at h
              obtain ⟨s', hreach, hp⟩ := ih h
              exact ⟨s', .head (hok s a hcheck) hstep hreach, hp⟩

/-- A run whose last state is checked. -/
theorem exists_reaches (as : List α) {p : σ → Bool} (hok : ∀ s, ∀ a ∈ as, ok s a)
    (h : (as.foldlM step s).any p = true) : ∃ s', Reaches step ok s s' ∧ p s' = true := by
  cases hrun : as.foldlM step s with
  | none => simp [hrun] at h
  | some s' =>
      rw [hrun] at h
      exact ⟨s', .of_foldlM hok hrun, h⟩

end

end WiseKernel.Lib
