import Mathlib.Algebra.Group.Nat.Defs
import Mathlib.Tactic.Common
import WiseKernel.Lib.Tokens

/-!
# Splitting a string

`wise::kernel::split`.  The loop goes on after the last delimiter with `start` at
`npos`: the search from there finds nothing, so that `pos` is `start`, the sum wraps to
zero and the loop ends without another part.
-/

namespace WiseKernel.Util

open WiseKernel.Lib

/-- `std::string::npos`, the greatest `size_t`. -/
def npos : ℕ := 2 ^ 64 - 1

/-- A `std::string`: no string is as long as `npos`.  What its characters are plays no
part. -/
structure Text (α : Type*) where
  chars : List α
  length_lt : chars.length < npos

variable {α : Type*}

namespace Text

/-- The first position from `start` on of a character that satisfies `q`. -/
def find (str : Text α) (q : α → Bool) (start : ℕ) : ℕ :=
  match (str.chars.drop start).findIdx? q with
  | some i => start + i
  | none => npos

/-- `std::out_of_range`. -/
inductive Error
  | outOfRange
  deriving Repr, DecidableEq

def substr (str : Text α) (pos n : ℕ) : Except Error (List α) :=
  if str.chars.length < pos then .error .outOfRange else .ok ((str.chars.drop pos).take n)

variable [BEq α]

def findFirstOf (str : Text α) (delims : List α) (start : ℕ) : ℕ :=
  str.find delims.contains start

def findFirstNotOf (str : Text α) (delims : List α) (start : ℕ) : ℕ :=
  str.find (fun c ↦ !delims.contains c) start

end Text

/-- What `split` keeps from one pass through its loop to the next. -/
structure Progress (α : Type*) where
  ret : List (List α)
  numSplits : UInt32
  start : ℕ

section

variable [BEq α]

/-- The end of the loop's body: parse up to next real data. -/
def Progress.skip (s : Progress α) (str : Text α) (delims : List α) (pos : ℕ) : Progress α :=
  { s with start := str.findFirstNotOf delims ((pos + 1) % 2 ^ 64), numSplits := s.numSplits + 1 }

/-- The loop's body, and whether it is run again. -/
def Progress.pass (s : Progress α) (str : Text α) (delims : List α) (maxSplits : UInt32) :
    Except Text.Error (Progress α × Bool) := do
  let pos := str.findFirstOf delims s.start
  if pos = s.start then
    return (s.skip str delims pos, decide (pos ≠ npos))
  else if pos = npos ∨ (maxSplits ≠ 0 ∧ s.numSplits = maxSplits) then
    let rest ← str.substr s.start npos
    return ({ s with ret := s.ret ++ [rest] }, false)
  else
    let part ← str.substr s.start (pos - s.start)
    return ({ s with ret := s.ret ++ [part] }.skip str delims pos, decide (pos ≠ npos))

/-- The loop, with a bound on the number of passes. -/
def splitLoop (str : Text α) (delims : List α) (maxSplits : UInt32) :
    ℕ → Progress α → Option (Except Text.Error (List (List α)))
  | 0, _ => none
  | fuel + 1, s =>
      match s.pass str delims maxSplits with
      | .error e => some (.error e)
      | .ok (s, true) => splitLoop str delims maxSplits fuel s
      | .ok (s, false) => some (.ok s.ret)

def split (str : Text α) (delims : List α) (maxSplits : UInt32) (fuel : ℕ) :
    Option (Except Text.Error (List (List α))) :=
  splitLoop str delims maxSplits fuel ⟨[], 0, 0⟩

end

namespace Text

variable {str : Text α} {q : α → Bool} {start : ℕ} {w rest : List α} {d : α}

theorem find_eq_npos (h : ∀ c ∈ str.chars.drop start, q c = false) :
    str.find q start = npos := by
  have hnone : (str.chars.drop start).findIdx? q = none := List.findIdx?_eq_none_iff.mpr h
  rw [find, hnone]

theorem find_eq (hdrop : str.chars.drop start = w ++ d :: rest) (hw : ∀ c ∈ w, q c = false)
    (hd : q d = true) : str.find q start = start + w.length := by
  have hsome : (w ++ d :: rest).findIdx? q = some w.length := by
    rw [List.findIdx?_append, List.findIdx?_eq_none_iff.mpr hw, List.findIdx?_cons, hd]
    simp
  rw [find, hdrop, hsome]

theorem drop_eq (hdrop : str.chars.drop start = w ++ d :: rest) :
    str.chars.drop (start + w.length) = d :: rest := by
  rw [← List.drop_drop, hdrop, List.drop_left]

theorem lt_length (hdrop : str.chars.drop start = w ++ d :: rest) :
    start + w.length < str.chars.length := by
  have hlength := congrArg List.length hdrop
  rw [List.length_drop, List.length_append, List.length_cons] at hlength
  omega

theorem substr_rest (hstart : start < str.chars.length) :
    str.substr start npos = .ok (str.chars.drop start) := by
  have hlength := str.length_lt
  have htake : (str.chars.drop start).take npos = str.chars.drop start := by
    apply List.take_of_length_le
    rw [List.length_drop]
    omega
  rw [substr, if_neg (by omega), htake]

theorem substr_part (hdrop : str.chars.drop start = w ++ d :: rest) :
    str.substr start w.length = .ok w := by
  have hlt := lt_length hdrop
  rw [substr, if_neg (by omega), hdrop, List.take_left]

theorem find_npos (str : Text α) (q : α → Bool) : str.find q npos = npos := by
  have hdrop : str.chars.drop npos = [] := List.drop_eq_nil_of_le (Nat.le_of_lt str.length_lt)
  apply find_eq_npos
  rw [hdrop]
  exact nofun

variable [BEq α]

/-- The next real data, or none: no token lies in between. -/
theorem findFirstNotOf_cases (str : Text α) (delims : List α) (k : ℕ) :
    (str.findFirstNotOf delims k = npos ∧ tokens delims.contains (str.chars.drop k) = []) ∨
      (k ≤ str.findFirstNotOf delims k ∧ str.findFirstNotOf delims k < str.chars.length ∧
        tokens delims.contains (str.chars.drop (str.findFirstNotOf delims k)) =
          tokens delims.contains (str.chars.drop k)) := by
  rcases exists_append_cons (fun c ↦ !delims.contains c) (str.chars.drop k) with
    hall | ⟨w, d, rest, hdrop, hw, hd⟩
  · left
    refine ⟨find_eq_npos hall, ?_⟩
    have hdelims : ∀ c ∈ str.chars.drop k, delims.contains c = true := by
      intro c hc
      simpa using hall c hc
    have htokens := tokens_append hdelims []
    rwa [List.append_nil] at htokens
  · right
    have hfind : str.findFirstNotOf delims k = k + w.length := find_eq hdrop hw hd
    have hdelims : ∀ c ∈ w, delims.contains c = true := by
      intro c hc
      simpa using hw c hc
    rw [hfind, drop_eq hdrop, hdrop, tokens_append hdelims]
    exact ⟨Nat.le_add_right .., lt_length hdrop, rfl⟩

end Text

section

variable [BEq α] {str : Text α} {delims : List α} {s : Progress α} {fuel : ℕ}

/-! ## Passes -/

theorem pass_delimiter (hpos : str.findFirstOf delims s.start = s.start)
    (hne : s.start ≠ npos) :
    s.pass str delims 0 = .ok (s.skip str delims s.start, true) := by
  rw [Progress.pass, hpos]
  simp [hne, pure, Except.pure]

/-- Behind the last delimiter: `pos + 1` wraps to zero, and no part is kept. -/
theorem pass_npos (hstart : s.start = npos) :
    s.pass str delims 0 = .ok (s.skip str delims npos, false) := by
  have hpos : str.findFirstOf delims npos = npos := Text.find_npos str _
  rw [Progress.pass, hstart, hpos]
  simp [pure, Except.pure]

theorem pass_rest (hpos : str.findFirstOf delims s.start = npos)
    (hstart : s.start < str.chars.length) :
    s.pass str delims 0 = .ok ({ s with ret := s.ret ++ [str.chars.drop s.start] }, false) := by
  have hlength := str.length_lt
  have hne : ¬npos = s.start := by omega
  rw [Progress.pass, hpos, Text.substr_rest hstart]
  simp [hne, bind, Except.bind, pure, Except.pure]

theorem pass_token {w rest : List α} {d : α} (hdrop : str.chars.drop s.start = w ++ d :: rest)
    (hw : ∀ c ∈ w, delims.contains c = false) (hd : delims.contains d = true) (hne : w ≠ []) :
    s.pass str delims 0 =
      .ok ({ s with ret := s.ret ++ [w] }.skip str delims (s.start + w.length), true) := by
  have hpos : str.findFirstOf delims s.start = s.start + w.length := Text.find_eq hdrop hw hd
  have hlt := Text.lt_length hdrop
  have hlength := str.length_lt
  have hnpos : s.start + w.length ≠ npos := by omega
  rw [Progress.pass, hpos, Nat.add_sub_cancel_left, Text.substr_part hdrop]
  simp [hne, hnpos, bind, Except.bind, pure, Except.pure]

/-! ## The loop -/

theorem splitLoop_npos (hstart : s.start = npos) (hfuel : 0 < fuel) :
    splitLoop str delims 0 fuel s = some (.ok s.ret) := by
  obtain ⟨fuel, rfl⟩ : ∃ n, fuel = n + 1 := ⟨fuel - 1, by omega⟩
  rw [splitLoop, pass_npos hstart]
  rfl

/-- From inside the string the loop adds the tokens of what is left of it. -/
def Adds (str : Text α) (delims : List α) (fuel : ℕ) : Prop :=
  ∀ s : Progress α, s.start < str.chars.length → str.chars.length < s.start + fuel →
    splitLoop str delims 0 fuel s =
      some (.ok (s.ret ++ tokens delims.contains (str.chars.drop s.start)))

theorem Adds.skip (h : Adds str delims fuel) {pos : ℕ} (hpos : pos < str.chars.length)
    (hfuel : str.chars.length < pos + 1 + fuel) :
    splitLoop str delims 0 fuel (s.skip str delims pos) =
      some (.ok (s.ret ++ tokens delims.contains (str.chars.drop (pos + 1)))) := by
  have hlength := str.length_lt
  have hmod : (pos + 1) % 2 ^ 64 = pos + 1 := by
    apply Nat.mod_eq_of_lt
    rw [npos] at hlength
    omega
  have hstart : (s.skip str delims pos).start = str.findFirstNotOf delims (pos + 1) := by
    rw [Progress.skip, hmod]
  rcases str.findFirstNotOf_cases delims (pos + 1) with ⟨hnpos, hnil⟩ | ⟨hle, hlt, htokens⟩
  · have hloop : splitLoop str delims 0 fuel (s.skip str delims pos) = some (.ok s.ret) :=
      splitLoop_npos (hstart.trans hnpos) (by omega)
    rw [hloop, hnil, List.append_nil]
  · rw [h _ (by omega) (by omega), hstart, htokens]
    rfl

theorem adds (str : Text α) (delims : List α) (fuel : ℕ) : Adds str delims fuel := by
  induction fuel with
  | zero =>
      intro s hstart hfuel
      omega
  | succ fuel ih =>
      intro s hstart hfuel
      have hlength := str.length_lt
      rcases exists_append_cons delims.contains (str.chars.drop s.start) with
        hall | ⟨w, d, rest, hdrop, hw, hd⟩
      · have hne : str.chars.drop s.start ≠ [] := by
          rw [Ne, List.drop_eq_nil_iff]
          omega
        rw [splitLoop, pass_rest (Text.find_eq_npos hall) hstart, tokens_of_forall hall hne]
      · have hlt := Text.lt_length hdrop
        have hrest : str.chars.drop (s.start + w.length + 1) = rest := by
          rw [← List.drop_drop, Text.drop_eq hdrop, List.drop_one, List.tail_cons]
        by_cases hne : w = []
        · subst hne
          have hpos : str.findFirstOf delims s.start = s.start := Text.find_eq hdrop hw hd
          rw [splitLoop, pass_delimiter hpos (by omega)]
          simp only
          rw [ih.skip hstart (by omega), hdrop, List.nil_append, tokens_cons hd, ← hrest]
          rfl
        · rw [splitLoop, pass_token hdrop hw hd hne]
          simp only
          rw [ih.skip hlt (by omega), hdrop, tokens_append_cons hd, tokens_of_forall hw hne, hrest,
            List.append_assoc]

theorem split_eq_tokens (str : Text α) (delims : List α) (hne : str.chars ≠ [])
    (hfuel : str.chars.length < fuel) :
    split str delims 0 fuel = some (.ok (tokens delims.contains str.chars)) := by
  have hpos := List.length_pos_of_ne_nil hne
  rw [split, adds str delims fuel _ hpos (by simpa using hfuel), List.nil_append, List.drop_zero]

/-- The loop ends, and what it returns are the maximal parts without a delimiter, each
once and from left to right. -/
theorem exists_split (str : Text α) (delims : List α) (hne : str.chars ≠ []) :
    ∃ rs, Ranges delims.contains str.chars rs ∧
      (∀ fuel > str.chars.length,
        split str delims 0 fuel = some (.ok (rs.map (slice str.chars)))) ∧
      ((∀ c ∈ str.chars, delims.contains c = true) → rs = []) := by
  obtain ⟨rs, hrs, htokens⟩ := exists_ranges delims.contains str.chars
  refine ⟨rs, hrs, ?_, ?_⟩
  · intro fuel hfuel
    rw [split_eq_tokens str delims hne hfuel, htokens]
  · intro hall
    have hnil := tokens_append hall []
    rw [List.append_nil, tokens_nil, htokens, List.map_eq_nil_iff] at hnil
    exact hnil

/-- A leading, a repeated and a trailing delimiter. -/
def dotted : Text Char := ⟨['.', 'a', '.', '.', 'b', 'c', '.'], by decide⟩

theorem exists_split_dotted :
    ∃ rs, Ranges ['.'].contains dotted.chars rs ∧
      (∀ fuel > 7, split dotted ['.'] 0 fuel = some (.ok (rs.map (slice dotted.chars)))) ∧
      ((∀ c ∈ dotted.chars, ['.'].contains c = true) → rs = []) :=
  exists_split dotted ['.'] (by decide)

example : split dotted ['.'] 0 8 = some (.ok [['a'], ['b', 'c']]) := by decide

end

end WiseKernel.Util
