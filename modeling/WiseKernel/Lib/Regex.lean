import Mathlib.Computability.Language
import Mathlib.Data.Nat.Find

/-!
# Regular expressions over classes of characters

The expressions of a scanner, with predicates for the classes, so that `[^x]` is one of them.
They denote languages; derivatives decide membership.  A scanner takes the longest beginning of
its input that one of its expressions matches, and of several such expressions the first one.
-/

namespace WiseKernel.Lib

inductive Regex (α : Type*) where
  | zero
  | eps
  | cls (p : α → Bool)
  | seq (a b : Regex α)
  | alt (a b : Regex α)
  | star (a : Regex α)

namespace Regex

open Computability

variable {α : Type*}

def lang : Regex α → Language α
  | .zero => 0
  | .eps => 1
  | .cls p => {w | ∃ x, p x = true ∧ w = [x]}
  | .seq a b => a.lang * b.lang
  | .alt a b => a.lang + b.lang
  | .star a => a.lang∗

def plus (a : Regex α) : Regex α := .seq a (.star a)

def opt (a : Regex α) : Regex α := .alt .eps a

/-- One word. -/
def word [DecidableEq α] : List α → Regex α
  | [] => .eps
  | x :: xs => .seq (.cls fun y ↦ y = x) (word xs)

def nullable : Regex α → Bool
  | .zero | .cls _ => false
  | .eps | .star _ => true
  | .seq a b => a.nullable && b.nullable
  | .alt a b => a.nullable || b.nullable

def deriv (x : α) : Regex α → Regex α
  | .zero | .eps => .zero
  | .cls p => if p x then .eps else .zero
  | .seq a b => if a.nullable then .alt (.seq (a.deriv x) b) (b.deriv x) else .seq (a.deriv x) b
  | .alt a b => .alt (a.deriv x) (b.deriv x)
  | .star a => .seq (a.deriv x) (.star a)

def test (r : Regex α) (w : List α) : Bool := (w.foldl (fun r x ↦ r.deriv x) r).nullable

variable {r : Regex α} {x : α} {w xs ys : List α}

theorem mem_cls {p : α → Bool} : w ∈ (Regex.cls p).lang ↔ ∃ x, p x = true ∧ w = [x] := Iff.rfl

theorem nullable_iff : r.nullable = true ↔ [] ∈ r.lang := by
  induction r with
  | zero => exact iff_of_false Bool.false_ne_true (Language.notMem_zero _)
  | eps => exact iff_of_true rfl Language.nil_mem_one
  | cls p =>
      refine iff_of_false Bool.false_ne_true ?_
      rintro ⟨x, -, hx⟩
      cases hx
  | seq a b iha ihb =>
      rw [nullable, Bool.and_eq_true, iha, ihb, lang, Language.mem_mul]
      constructor
      · rintro ⟨ha, hb⟩
        exact ⟨[], ha, [], hb, rfl⟩
      · rintro ⟨u, hu, v, hv, huv⟩
        obtain ⟨rfl, rfl⟩ := List.append_eq_nil_iff.mp huv
        exact ⟨hu, hv⟩
  | alt a b iha ihb => rw [nullable, Bool.or_eq_true, iha, ihb, lang, Language.mem_add]
  | star a ih => exact iff_of_true rfl (Language.nil_mem_kstar _)

theorem mem_star_iff : w ∈ (Regex.star r).lang ↔
    w = [] ∨ ∃ x u v, x :: u ∈ r.lang ∧ v ∈ (Regex.star r).lang ∧ x :: u ++ v = w := by
  rw [lang, Language.mem_kstar_iff_exists_nonempty]
  constructor
  · rintro ⟨L, rfl, hL⟩
    cases L with
    | nil => exact .inl rfl
    | cons u L =>
        obtain ⟨hu, hne⟩ := hL u List.mem_cons_self
        obtain ⟨x, u, rfl⟩ := List.exists_cons_of_ne_nil hne
        refine .inr ⟨x, u, L.flatten, hu, ?_, rfl⟩
        exact Language.join_mem_kstar fun y hy ↦ (hL y (List.mem_cons_of_mem _ hy)).1
  · rintro (rfl | ⟨x, u, v, hu, hv, rfl⟩)
    · exact ⟨[], rfl, fun _ hy ↦ absurd hy List.not_mem_nil⟩
    · obtain ⟨L, rfl, hL⟩ := Language.mem_kstar_iff_exists_nonempty.mp hv
      exact ⟨(x :: u) :: L, rfl, List.forall_mem_cons.mpr ⟨⟨hu, List.cons_ne_nil _ _⟩, hL⟩⟩

theorem mem_deriv_iff : w ∈ (r.deriv x).lang ↔ x :: w ∈ r.lang := by
  induction r generalizing w with
  | zero => exact Iff.rfl
  | eps => exact iff_of_false (Language.notMem_zero _) (List.cons_ne_nil _ _)
  | cls p =>
      rw [mem_cls, deriv]
      by_cases hp : p x
      · rw [if_pos hp, lang, Language.mem_one]
        constructor
        · rintro rfl
          exact ⟨x, hp, rfl⟩
        · rintro ⟨y, -, hy⟩
          exact (List.cons.inj hy).2
      · rw [if_neg hp]
        refine iff_of_false (Language.notMem_zero _) ?_
        rintro ⟨y, hy, hxy⟩
        rw [(List.cons.inj hxy).1] at hp
        exact hp hy
  | seq a b iha ihb =>
      have hfirst : w ∈ ((a.deriv x).seq b).lang ↔
          ∃ u v, x :: u ∈ a.lang ∧ v ∈ b.lang ∧ u ++ v = w := by
        rw [lang, Language.mem_mul]
        constructor
        · rintro ⟨u, hu, v, hv, huv⟩
          exact ⟨u, v, iha.mp hu, hv, huv⟩
        · rintro ⟨u, v, hu, hv, huv⟩
          exact ⟨u, iha.mpr hu, v, hv, huv⟩
      have hsplit : x :: w ∈ (a.seq b).lang ↔
          (∃ u v, x :: u ∈ a.lang ∧ v ∈ b.lang ∧ u ++ v = w) ∨
            a.nullable = true ∧ x :: w ∈ b.lang := by
        rw [lang, Language.mem_mul, nullable_iff]
        constructor
        · rintro ⟨u, hu, v, hv, huv⟩
          cases u with
          | nil => exact .inr ⟨hu, huv ▸ hv⟩
          | cons y u =>
              obtain ⟨rfl, htail⟩ := List.cons.inj huv
              exact .inl ⟨u, v, hu, hv, htail⟩
        · rintro (⟨u, v, hu, hv, rfl⟩ | ⟨hnil, hw⟩)
          · exact ⟨x :: u, hu, v, hv, rfl⟩
          · exact ⟨[], hnil, x :: w, hw, rfl⟩
      rw [hsplit, deriv]
      split_ifs with hnull
      · rw [lang, Language.mem_add, hfirst, ihb]
        exact or_congr_right (and_iff_right hnull).symm
      · rw [hfirst]
        exact (or_iff_left fun h ↦ hnull h.1).symm
  | alt a b iha ihb => rw [deriv, lang, Language.mem_add, iha, ihb, lang, Language.mem_add]
  | star a ih =>
      rw [deriv, lang, Language.mem_mul, mem_star_iff]
      constructor
      · rintro ⟨u, hu, v, hv, rfl⟩
        exact .inr ⟨x, u, v, ih.mp hu, hv, rfl⟩
      · rintro (hnil | ⟨y, u, v, hu, hv, hsplit⟩)
        · cases hnil
        · obtain ⟨rfl, rfl⟩ := List.cons.inj hsplit
          exact ⟨u, ih.mpr hu, v, hv, rfl⟩

theorem test_iff : r.test w = true ↔ w ∈ r.lang := by
  induction w generalizing r with
  | nil => exact nullable_iff
  | cons x w ih => exact ih.trans mem_deriv_iff

theorem mem_word [DecidableEq α] : w ∈ (word xs).lang ↔ w = xs := by
  induction xs generalizing w with
  | nil => exact Iff.rfl
  | cons x xs ih =>
      rw [word, lang, Language.mem_mul]
      constructor
      · rintro ⟨u, ⟨y, hy, rfl⟩, v, hv, rfl⟩
        rw [of_decide_eq_true hy, ih.mp hv]
        rfl
      · rintro rfl
        exact ⟨[x], ⟨x, decide_eq_true rfl, rfl⟩, xs, ih.mpr rfl, rfl⟩

theorem mem_star_cls {p : α → Bool} : w ∈ (Regex.star (.cls p)).lang ↔ ∀ x ∈ w, p x = true := by
  rw [lang, Language.mem_kstar]
  constructor
  · rintro ⟨L, rfl, hL⟩ x hx
    obtain ⟨u, hu, hxu⟩ := List.mem_flatten.mp hx
    obtain ⟨y, hy, rfl⟩ := hL u hu
    rwa [List.mem_singleton.mp hxu]
  · intro h
    refine ⟨w.map fun x ↦ [x], ?_, fun u hu ↦ ?_⟩
    · induction w with
      | nil => rfl
      | cons x w ih =>
          rw [List.map_cons, List.flatten_cons, ← ih fun y hy ↦ h y (List.mem_cons_of_mem _ hy)]
          rfl
    · obtain ⟨x, hx, rfl⟩ := List.mem_map.mp hu
      exact ⟨x, h x hx, rfl⟩

/-! ## Characters that do not occur -/

/-- No class of the expression has the character. -/
def avoids (x : α) : Regex α → Bool
  | .zero | .eps => true
  | .cls p => !p x
  | .seq a b | .alt a b => a.avoids x && b.avoids x
  | .star a => a.avoids x

theorem notMem_of_avoids (h : r.avoids x = true) (hw : w ∈ r.lang) : x ∉ w := by
  induction r generalizing w with
  | zero => exact absurd hw (Language.notMem_zero _)
  | eps =>
      rw [(Language.mem_one w).mp hw]
      exact List.not_mem_nil
  | cls p =>
      obtain ⟨y, hy, rfl⟩ := hw
      rintro hmem
      rw [List.mem_singleton.mp hmem] at h
      simp [avoids, hy] at h
  | seq a b iha ihb =>
      rw [avoids, Bool.and_eq_true] at h
      obtain ⟨u, hu, v, hv, rfl⟩ := Language.mem_mul.mp hw
      rw [List.mem_append, not_or]
      exact ⟨iha h.1 hu, ihb h.2 hv⟩
  | alt a b iha ihb =>
      rw [avoids, Bool.and_eq_true] at h
      rcases (Language.mem_add _ _ _).mp hw with hw | hw
      · exact iha h.1 hw
      · exact ihb h.2 hw
  | star a ih =>
      obtain ⟨L, rfl, hL⟩ := Language.mem_kstar.mp hw
      rw [List.mem_flatten]
      rintro ⟨u, hu, hx⟩
      exact ih h (hL u hu) hx

/-- The expression may match a word that begins with the character. -/
def starts (x : α) : Regex α → Bool
  | .zero | .eps => false
  | .cls p => p x
  | .seq a b => a.starts x || (a.nullable && b.starts x)
  | .alt a b => a.starts x || b.starts x
  | .star a => a.starts x

theorem starts_of_mem (hw : x :: w ∈ r.lang) : r.starts x = true := by
  induction r generalizing w with
  | zero => exact absurd hw (Language.notMem_zero _)
  | eps => cases (Language.mem_one _).mp hw
  | cls p =>
      obtain ⟨y, hy, hxy⟩ := hw
      rw [starts, (List.cons.inj hxy).1, hy]
  | seq a b iha ihb =>
      obtain ⟨u, hu, v, hv, huv⟩ := Language.mem_mul.mp hw
      rw [starts, Bool.or_eq_true, Bool.and_eq_true, nullable_iff]
      cases u with
      | nil =>
          rw [List.nil_append] at huv
          exact .inr ⟨hu, ihb (huv ▸ hv)⟩
      | cons y u =>
          rw [(List.cons.inj huv).1] at hu
          exact .inl (iha hu)
  | alt a b iha ihb =>
      rw [starts, Bool.or_eq_true]
      rcases (Language.mem_add _ _ _).mp hw with hw | hw
      · exact .inl (iha hw)
      · exact .inr (ihb hw)
  | star a ih =>
      rw [← mem_deriv_iff, deriv, lang, Language.mem_mul] at hw
      obtain ⟨u, hu, -, -, -⟩ := hw
      exact ih (mem_deriv_iff.mp hu)

/-! ## The longest match -/

/-- The length of the longest beginning that matches. -/
def longest (r : Regex α) (xs : List α) : ℕ :=
  Nat.findGreatest (fun n ↦ r.test (xs.take n) = true) xs.length

theorem longest_le (r : Regex α) (xs : List α) : r.longest xs ≤ xs.length := Nat.findGreatest_le _

theorem le_longest {n : ℕ} (hn : n ≤ xs.length) (h : xs.take n ∈ r.lang) : n ≤ r.longest xs :=
  Nat.le_findGreatest hn (test_iff.mpr h)

theorem take_longest (h : r.longest xs ≠ 0) : xs.take (r.longest xs) ∈ r.lang :=
  test_iff.mp (Nat.findGreatest_of_ne_zero (P := fun n ↦ r.test (xs.take n) = true) rfl h)

theorem longest_eq_length (h : xs ∈ r.lang) : r.longest xs = xs.length := by
  refine Nat.le_antisymm (longest_le r xs) (le_longest le_rfl ?_)
  rwa [List.take_length]

theorem longest_take_le {n : ℕ} (hn : n ≤ xs.length) : r.longest (xs.take n) ≤ r.longest xs := by
  by_cases hzero : r.longest (xs.take n) = 0
  · rw [hzero]
    exact Nat.zero_le _
  · have hle := longest_le r (xs.take n)
    rw [List.length_take_of_le hn] at hle
    have hmem := take_longest hzero
    rw [List.take_take, Nat.min_eq_left hle] at hmem
    exact le_longest (hle.trans hn) hmem

/-- Nothing behind a character that the expression avoids is part of a match. -/
theorem longest_append (h : r.avoids x = true) :
    r.longest (xs ++ x :: ys) = r.longest xs := by
  have hinside : r.longest (xs ++ x :: ys) ≤ xs.length := by
    by_contra hlt
    have hmem := take_longest (show r.longest (xs ++ x :: ys) ≠ 0 by omega)
    refine notMem_of_avoids h hmem (List.mem_iff_getElem?.mpr ⟨xs.length, ?_⟩)
    rw [List.getElem?_take_of_lt (by omega), List.getElem?_append_right le_rfl, Nat.sub_self]
    rfl
  apply Nat.le_antisymm
  · by_cases hzero : r.longest (xs ++ x :: ys) = 0
    · rw [hzero]
      exact Nat.zero_le _
    · apply le_longest hinside
      have hmem := take_longest hzero
      rwa [List.take_append_of_le_length hinside] at hmem
  · by_cases hzero : r.longest xs = 0
    · rw [hzero]
      exact Nat.zero_le _
    · have hle := longest_le r xs
      apply le_longest (by rw [List.length_append]; omega)
      rw [List.take_append_of_le_length hle]
      exact take_longest hzero

theorem longest_eq_zero (h : r.starts x = false) : r.longest (x :: xs) = 0 := by
  by_contra hne
  have hmem := take_longest hne
  obtain ⟨n, hn⟩ := Nat.exists_eq_succ_of_ne_zero hne
  rw [hn, List.take_succ_cons] at hmem
  rw [starts_of_mem hmem] at h
  cases h

theorem longest_star_cls (p : α → Bool) (xs : List α) :
    (Regex.star (.cls p)).longest xs = (xs.takeWhile p).length := by
  have hbeginning := List.takeWhile_prefix p (l := xs)
  apply Nat.le_antisymm
  · by_cases hzero : (Regex.star (.cls p)).longest xs = 0
    · rw [hzero]
      exact Nat.zero_le _
    · have hall := mem_star_cls.mp (take_longest hzero)
      have hlongest := longest_le (.star (.cls p)) xs
      generalize (Regex.star (.cls p)).longest xs = n at hall hlongest
      clear hbeginning hzero
      induction xs generalizing n with
      | nil => exact hlongest
      | cons x xs ih =>
          cases n with
          | zero => exact Nat.zero_le _
          | succ n =>
              rw [List.take_succ_cons, List.forall_mem_cons] at hall
              rw [List.takeWhile_cons_of_pos hall.1, List.length_cons]
              exact Nat.succ_le_succ (ih n hall.2 (Nat.le_of_succ_le_succ hlongest))
  · apply le_longest hbeginning.length_le
    rw [← List.prefix_iff_eq_take.mp hbeginning, mem_star_cls]
    exact List.all_eq_true.mp List.all_takeWhile

end Regex

/-! ## The first of the longest -/

section

variable {α κ : Type*} {regex : κ → Regex α} {rules before after : List κ} {k : κ} {n : ℕ}
  {xs ys : List α}

/-- The rule with the longest match, the first one of several, and the length. -/
def best (regex : κ → Regex α) : List κ → List α → Option (κ × ℕ)
  | [], _ => none
  | k :: rules, xs =>
      match best regex rules xs with
      | none => if 0 < (regex k).longest xs then some (k, (regex k).longest xs) else none
      | some (l, n) =>
          if n ≤ (regex k).longest xs then some (k, (regex k).longest xs) else some (l, n)

/-- The rule is the first one with the longest match. -/
structure First (regex : κ → Regex α) (before : List κ) (k : κ) (after : List κ) (xs : List α)
    (n : ℕ) : Prop where
  length_eq : (regex k).longest xs = n
  pos : 0 < n
  before_lt : ∀ l ∈ before, (regex l).longest xs < n
  after_le : ∀ l ∈ after, (regex l).longest xs ≤ n

theorem longest_eq_zero_of_best (h : best regex rules xs = none) :
    ∀ k ∈ rules, (regex k).longest xs = 0 := by
  induction rules with
  | nil => exact fun _ hk ↦ absurd hk List.not_mem_nil
  | cons l rules ih =>
      rw [best] at h
      cases hrest : best regex rules xs with
      | none =>
          simp only [hrest] at h
          split_ifs at h with hpos
          refine List.forall_mem_cons.mpr ⟨Nat.eq_zero_of_not_pos hpos, ih hrest⟩
      | some found =>
          simp only [hrest] at h
          split_ifs at h

theorem First.le (h : First regex before k after xs n) :
    ∀ l ∈ before ++ k :: after, (regex l).longest xs ≤ n := by
  intro l hl
  rcases List.mem_append.mp hl with hl | hl
  · exact Nat.le_of_lt (h.before_lt l hl)
  · rcases List.mem_cons.mp hl with rfl | hl
    · exact h.length_eq.le
    · exact h.after_le l hl

theorem first_of_best (h : best regex rules xs = some (k, n)) :
    ∃ before after, rules = before ++ k :: after ∧ First regex before k after xs n := by
  induction rules generalizing k n with
  | nil => cases h
  | cons l rules ih =>
      rw [best] at h
      cases hrest : best regex rules xs with
      | none =>
          simp only [hrest] at h
          split_ifs at h with hpos
          cases h
          refine ⟨[], rules, rfl, rfl, hpos, fun _ hl ↦ absurd hl List.not_mem_nil, fun l' hl ↦ ?_⟩
          rw [longest_eq_zero_of_best hrest l' hl]
          exact Nat.zero_le _
      | some found =>
          obtain ⟨l', m⟩ := found
          obtain ⟨before, after, hsplit, hfirst⟩ := ih hrest
          simp only [hrest] at h
          split_ifs at h with hle
          · cases h
            refine ⟨[], rules, rfl, rfl, hfirst.pos.trans_le hle,
              fun _ hl ↦ absurd hl List.not_mem_nil, fun l'' hl ↦ ?_⟩
            rw [hsplit] at hl
            exact (hfirst.le l'' hl).trans hle
          · cases h
            refine ⟨l :: before, after, by rw [hsplit]; rfl, hfirst.length_eq, hfirst.pos, ?_,
              hfirst.after_le⟩
            exact List.forall_mem_cons.mpr ⟨Nat.lt_of_not_le hle, hfirst.before_lt⟩

theorem best_of_first (h : First regex before k after xs n) :
    best regex (before ++ k :: after) xs = some (k, n) := by
  induction before with
  | nil =>
      rw [List.nil_append, best, h.length_eq]
      cases hrest : best regex after xs with
      | none => exact if_pos h.pos
      | some found =>
          obtain ⟨l, m⟩ := found
          obtain ⟨before', after', hsplit, hfirst⟩ := first_of_best hrest
          have hle : m ≤ n := by
            rw [← hfirst.length_eq]
            refine h.after_le l ?_
            rw [hsplit]
            exact List.mem_append_right _ List.mem_cons_self
          exact if_pos hle
  | cons l before ih =>
      obtain ⟨hlt, hbefore⟩ := List.forall_mem_cons.mp h.before_lt
      rw [List.cons_append, best, ih ⟨h.length_eq, h.pos, hbefore, h.after_le⟩]
      exact if_neg (Nat.not_le.mpr hlt)

/-- The choice depends on the longest matches alone. -/
theorem best_congr (h : ∀ l ∈ rules, (regex l).longest xs = (regex l).longest ys) :
    best regex rules xs = best regex rules ys := by
  induction rules with
  | nil => rfl
  | cons l rules ih =>
      obtain ⟨hl, hrules⟩ := List.forall_mem_cons.mp h
      rw [best, best, ih hrules, hl]

/-- The chosen match is chosen again when it stands alone. -/
theorem best_take (h : best regex rules xs = some (k, n)) :
    best regex rules (xs.take n) = some (k, n) := by
  obtain ⟨before, after, hsplit, hfirst⟩ := first_of_best h
  have hn : n ≤ xs.length := by
    rw [← hfirst.length_eq]
    exact Regex.longest_le _ _
  have hmem : xs.take n ∈ (regex k).lang := by
    have hpos := hfirst.pos.ne'
    rw [← hfirst.length_eq] at hpos ⊢
    exact Regex.take_longest hpos
  rw [hsplit]
  refine best_of_first ⟨?_, hfirst.pos, fun l hl ↦ ?_, fun l hl ↦ ?_⟩
  · rw [Regex.longest_eq_length hmem, List.length_take_of_le hn]
  · exact (Regex.longest_take_le hn).trans_lt (hfirst.before_lt l hl)
  · exact (Regex.longest_take_le hn).trans (hfirst.after_le l hl)

/-- A text that a rule matches as a whole, and none of the rules before it. -/
theorem best_of_mem (hne : xs ≠ []) (hk : xs ∈ (regex k).lang)
    (hbefore : ∀ l ∈ before, xs ∉ (regex l).lang) :
    best regex (before ++ k :: after) xs = some (k, xs.length) := by
  refine best_of_first ⟨Regex.longest_eq_length hk, List.length_pos_of_ne_nil hne, fun l hl ↦ ?_,
    fun l _ ↦ Regex.longest_le _ _⟩
  refine Nat.lt_of_le_of_ne (Regex.longest_le _ _) fun hall ↦ hbefore l hl ?_
  have hmem := @Regex.take_longest _ (regex l) xs
    (by rw [hall]; exact (List.length_pos_of_ne_nil hne).ne')
  rwa [hall, List.take_length] at hmem

end

end WiseKernel.Lib
