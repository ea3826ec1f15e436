import Mathlib.Algebra.Group.Nat.Defs
import Mathlib.Data.List.Basic
import Mathlib.Logic.Function.Iterate
import Mathlib.Tactic.Common

/-!
# Rows of a result

`result` fetches a rowset at a time and moves inside it by `rowset_position_`.  The driver
behind it is known by the documentation of `SQLFetchScroll`.  No statement asks for a cursor
that scrolls, so the driver has no other orientation than `SQL_FETCH_NEXT`.
-/

namespace WiseKernel.Dbc

/-! ## The driver -/

inductive Orientation
  | first | last | next | prior | absolute | relative
  deriving DecidableEq, Repr

/-- Where the rowset starts; rows are numbered from one. -/
inductive Position
  | beforeStart
  | row (start : ℕ)
  | afterEnd
  deriving DecidableEq, Repr

inductive RetCode
  | success | noData | error
  deriving DecidableEq, Repr

/-- `SQLFetchScroll` on a statement, with what it stores through
`SQL_ATTR_ROWS_FETCHED_PTR`. -/
structure Driver (σ : Type) where
  fetchScroll : σ → Orientation → ℤ → RetCode × ℕ × σ

/-- `SQL_FETCH_NEXT` in a result set of `n` rows with rowsets of `size` rows. -/
def target (n size : ℕ) : Position → Position
  | .beforeStart => if n = 0 then .afterEnd else .row 1
  | .row start => if start + size ≤ n then .row (start + size) else .afterEnd
  | .afterEnd => .afterEnd

/-- A driver that keeps to the documentation of `SQL_FETCH_NEXT`. -/
structure Documented {σ : Type} (d : Driver σ) (n size : ℕ) (position : σ → Position) : Prop where
  moves : ∀ s, position (d.fetchScroll s .next 0).2.2 = target n size (position s)
  fetches : ∀ s start, position (d.fetchScroll s .next 0).2.2 = .row start →
    (d.fetchScroll s .next 0).1 = .success ∧
      (d.fetchScroll s .next 0).2.1 = min size (n + 1 - start)
  misses : ∀ s, (∀ start, position (d.fetchScroll s .next 0).2.2 ≠ .row start) →
    (d.fetchScroll s .next 0).1 = .noData ∧ (d.fetchScroll s .next 0).2.1 = 0

/-- `SQL_CURSOR_FORWARD_ONLY`, the default: any other orientation is an error. -/
def Driver.ForwardOnly {σ : Type} (d : Driver σ) : Prop :=
  ∀ s orientation offset, orientation ≠ .next → (d.fetchScroll s orientation offset).1 = .error

def reports (n size : ℕ) : Position → RetCode × ℕ
  | .row start => (.success, min size (n + 1 - start))
  | _ => (.noData, 0)

/-- A driver whose state is the place of its rowset. -/
def table (n size : ℕ) : Driver Position where
  fetchScroll p orientation _ :=
    match orientation with
    | .next => ((reports n size (target n size p)).1, (reports n size (target n size p)).2,
        target n size p)
    | _ => (.error, 0, p)

theorem documented_table (n size : ℕ) : Documented (table n size) n size id where
  moves p := rfl
  fetches p start hstart := by
    change target n size p = .row start at hstart
    simp only [table, hstart, reports, and_self]
  misses p hnone := by
    have houtside : ∀ start, target n size p ≠ .row start := hnone
    simp only [table]
    cases htarget : target n size p with
    | row start => exact absurd htarget (houtside start)
    | _ => exact ⟨rfl, rfl⟩

theorem forwardOnly_table (n size : ℕ) : (table n size).ForwardOnly := by
  intro p orientation offset hne
  cases orientation with
  | next => exact absurd rfl hne
  | _ => rfl

/-! ## The result -/

/-- `result_impl`, with its statement's cursor.  `ready` is `is_ready_to_fetch`. -/
structure Result (σ : Type) where
  ready : Bool
  rowsetSize : ℕ
  rowCount : ℕ
  rowsetPosition : ℤ
  atEnd : Bool
  cursor : σ

namespace Result

variable {σ : Type}

/-- A result that has not been used. -/
def new (cursor : σ) : Result σ := ⟨false, 0, 0, 0, false, cursor⟩

/-- `prepare_fetch` for a statement with columns, which has been executed. -/
def prepareFetch (r : Result σ) (rowsetSize : ℕ) (cursor : σ) : Result σ :=
  { r with ready := true, rowsetSize := rowsetSize, cursor := cursor }

section

variable (d : Driver σ)

/-- `fetch`; an error of the driver is thrown. -/
def fetch (r : Result σ) (rows : ℤ) (orientation : Orientation) : Option (Bool × Result σ) :=
  let (rc, count, cursor) := d.fetchScroll r.cursor orientation rows
  let r := { r with rowCount := count, cursor := cursor }
  match rc with
  | .noData => some (false, { r with atEnd := true })
  | .error => none
  | .success => some (true, r)

def first (r : Result σ) : Option (Bool × Result σ) :=
  if r.ready then fetch d { r with rowsetPosition := 0 } 0 .first else some (false, r)

def last (r : Result σ) : Option (Bool × Result σ) :=
  if r.ready then fetch d { r with rowsetPosition := 0 } 0 .last else some (false, r)

def next (r : Result σ) : Option (Bool × Result σ) :=
  if r.ready then
    if r.rowCount ≠ 0 ∧ r.rowsetPosition + 1 < r.rowsetSize then
      some (decide (r.rowsetPosition + 1 < r.rowCount),
        { r with rowsetPosition := r.rowsetPosition + 1 })
    else fetch d { r with rowsetPosition := 0 } 0 .next
  else some (false, r)

def prior (r : Result σ) : Option (Bool × Result σ) :=
  if r.ready then
    if r.rowCount ≠ 0 ∧ 0 ≤ r.rowsetPosition - 1 then
      some (true, { r with rowsetPosition := r.rowsetPosition - 1 })
    else fetch d { r with rowsetPosition := 0 } 0 .prior
  else some (false, r)

def move (r : Result σ) (row : ℤ) : Option (Bool × Result σ) :=
  if r.ready then fetch d { r with rowsetPosition := 0 } row .absolute else some (false, r)

def skip (r : Result σ) (rows : ℤ) : Option (Bool × Result σ) :=
  if r.ready then
    if r.rowCount ≠ 0 ∧ r.rowsetPosition + rows < r.rowsetSize then
      some (decide (r.rowsetPosition + rows < r.rowCount),
        { r with rowsetPosition := r.rowsetPosition + rows })
    else fetch d { r with rowsetPosition := 0 } rows .relative
  else some (false, r)

/-- The row of the result set that `get` reads, if `rowset_position_` is inside the rowset. -/
def row (position : σ → Position) (r : Result σ) : Option ℕ :=
  match position r.cursor with
  | .row start =>
      if 0 ≤ r.rowsetPosition ∧ r.rowsetPosition < r.rowCount then
        some (start + r.rowsetPosition.toNat)
      else none
  | _ => none

/-- The answers of `n` calls of `next`, with the rows they lead to, and the result
afterwards. -/
def nexts (position : σ → Position) : ℕ → Result σ → Option (List (Bool × Option ℕ) × Result σ)
  | 0, r => some ([], r)
  | n + 1, r => do
      let (answer, r) ← next d r
      let (answers, r') ← nexts position n r
      return ((answer, r.row position) :: answers, r')

end

/-! ## Where a result stands -/

/-- In the rowset that starts at a row, at an offset from its first one. -/
structure Stands (n size : ℕ) (position : σ → Position) (r : Result σ) (start offset : ℕ) :
    Prop where
  ready : r.ready = true
  size_eq : r.rowsetSize = size
  position_eq : position r.cursor = .row start
  rowCount_eq : r.rowCount = min size (n + 1 - start)
  offset_eq : r.rowsetPosition = offset

/-- Outside the result set, where the next call fetches. -/
structure Outside (size : ℕ) (position : σ → Position) (r : Result σ) (outside : Position) :
    Prop where
  ready : r.ready = true
  size_eq : r.rowsetSize = size
  position_eq : position r.cursor = outside
  fetches : ¬ (r.rowCount ≠ 0 ∧ r.rowsetPosition + 1 < size)

section

variable {d : Driver σ} {n size : ℕ} {position : σ → Position} {r : Result σ}
  {start offset : ℕ}

theorem Stands.row_eq (h : Stands n size position r start offset) :
    r.row position = if offset < r.rowCount then some (start + offset) else none := by
  rw [row, h.position_eq, h.offset_eq]
  simp

/-- What a fetch leads to, by the place of the new rowset. -/
theorem fetch_of_row (hd : Documented d n size position) (hready : r.ready = true)
    (hsize : r.rowsetSize = size) (hzero : r.rowsetPosition = 0)
    (htarget : target n size (position r.cursor) = .row start) :
    ∃ r', fetch d r 0 .next = some (true, r') ∧ Stands n size position r' start 0 := by
  have hmoves := hd.moves r.cursor
  rw [htarget] at hmoves
  obtain ⟨hrc, hcount⟩ := hd.fetches r.cursor start hmoves
  refine ⟨{ r with
    rowCount := (d.fetchScroll r.cursor .next 0).2.1
    cursor := (d.fetchScroll r.cursor .next 0).2.2 }, ?_, ?_⟩
  · simp only [fetch, hrc]
  · exact ⟨hready, hsize, hmoves, hcount, hzero⟩

theorem fetch_of_outside (hd : Documented d n size position) (hready : r.ready = true)
    (hsize : r.rowsetSize = size) {outside : Position}
    (htarget : target n size (position r.cursor) = outside)
    (houtside : ∀ start, outside ≠ .row start) :
    ∃ r', fetch d r 0 .next = some (false, r') ∧ Outside size position r' outside := by
  have hmoves := hd.moves r.cursor
  rw [htarget] at hmoves
  have hnone : ∀ start, position (d.fetchScroll r.cursor .next 0).2.2 ≠ .row start := by
    intro start
    rw [hmoves]
    exact houtside start
  obtain ⟨hrc, hcount⟩ := hd.misses r.cursor hnone
  refine ⟨{ r with
    rowCount := (d.fetchScroll r.cursor .next 0).2.1
    cursor := (d.fetchScroll r.cursor .next 0).2.2
    atEnd := true }, ?_, ?_⟩
  · simp only [fetch, hrc]
  · refine ⟨hready, hsize, hmoves, ?_⟩
    rintro ⟨hne, -⟩
    exact hne hcount

/-- The cursor does not scroll. -/
theorem fetch_of_forwardOnly (hforward : d.ForwardOnly) (r : Result σ) (rows : ℤ)
    {orientation : Orientation} (hne : orientation ≠ .next) :
    fetch d r rows orientation = none := by
  simp only [fetch, hforward r.cursor orientation rows hne]

theorem Outside.row_eq {outside : Position} (h : Outside size position r outside)
    (houtside : ∀ start, outside ≠ .row start) : r.row position = none := by
  rw [row, h.position_eq]
  cases outside with
  | row start => exact absurd rfl (houtside start)
  | _ => rfl

/-! ## Reading forward -/

/-- The result after `k` calls of `next`: before the first row, or at row `k`, or past the
last row, in the last rowset or behind it. -/
def After (n size : ℕ) (position : σ → Position) (r : Result σ) : ℕ → Prop
  | 0 => Outside size position r .beforeStart
  | k + 1 => ∃ b offset, size ∣ b ∧ k = b + offset ∧ offset < size ∧
      if b < n then Stands n size position r (b + 1) offset
      else Outside size position r .afterEnd

theorem Outside.next_first (hd : Documented d n size position) {outside : Position}
    (h : Outside size position r outside) (hnext : outside = .beforeStart ∧ 0 < n) :
    ∃ r', next d r = some (true, r') ∧ Stands n size position r' 1 0 := by
  rw [Result.next, if_pos h.ready, if_neg (by rw [h.size_eq]; exact h.fetches)]
  apply fetch_of_row hd
  · exact h.ready
  · exact h.size_eq
  · rfl
  · change target n size (position r.cursor) = .row 1
    rw [h.position_eq, hnext.1, target, if_neg (by omega)]

theorem Outside.next_none (hd : Documented d n size position) {outside : Position}
    (h : Outside size position r outside)
    (hnext : outside = .afterEnd ∨ outside = .beforeStart ∧ n = 0) :
    ∃ r', next d r = some (false, r') ∧ Outside size position r' .afterEnd := by
  rw [Result.next, if_pos h.ready, if_neg (by rw [h.size_eq]; exact h.fetches)]
  apply fetch_of_outside hd
  · exact h.ready
  · exact h.size_eq
  · change target n size (position r.cursor) = .afterEnd
    rcases hnext with hafter | ⟨hbefore, hzero⟩
    · rw [h.position_eq, hafter, target]
    · rw [h.position_eq, hbefore, target, if_pos hzero]
  · intro start
    exact Position.noConfusion

theorem Stands.next_inside (h : Stands n size position r start offset)
    (hcount : r.rowCount ≠ 0) (hlt : offset + 1 < size) :
    ∃ r', next d r = some (decide (offset + 1 < r.rowCount), r') ∧
      Stands n size position r' start (offset + 1) := by
  refine ⟨{ r with rowsetPosition := r.rowsetPosition + 1 }, ?_, ?_⟩
  · rw [Result.next, if_pos h.ready, if_pos]
    · simp only [h.offset_eq]
      norm_cast
    · rw [h.offset_eq, h.size_eq]
      exact ⟨hcount, by exact_mod_cast hlt⟩
  · refine ⟨h.ready, h.size_eq, h.position_eq, h.rowCount_eq, ?_⟩
    change r.rowsetPosition + 1 = _
    rw [h.offset_eq]
    norm_cast

theorem Stands.next_over (hd : Documented d n size position)
    (h : Stands n size position r start offset) (hlt : ¬ offset + 1 < size)
    (hmore : start + size ≤ n) :
    ∃ r', next d r = some (true, r') ∧ Stands n size position r' (start + size) 0 := by
  rw [Result.next, if_pos h.ready, if_neg]
  · apply fetch_of_row hd
    · exact h.ready
    · exact h.size_eq
    · rfl
    · change target n size (position r.cursor) = .row (start + size)
      rw [h.position_eq, target, if_pos hmore]
  · rw [h.offset_eq, h.size_eq]
    rintro ⟨-, hinside⟩
    exact hlt (by exact_mod_cast hinside)

theorem Stands.next_end (hd : Documented d n size position)
    (h : Stands n size position r start offset) (hlt : ¬ offset + 1 < size)
    (hmore : ¬ start + size ≤ n) :
    ∃ r', next d r = some (false, r') ∧ Outside size position r' .afterEnd := by
  rw [Result.next, if_pos h.ready, if_neg]
  · apply fetch_of_outside hd
    · exact h.ready
    · exact h.size_eq
    · change target n size (position r.cursor) = .afterEnd
      rw [h.position_eq, target, if_neg hmore]
    · intro start
      exact Position.noConfusion
  · rw [h.offset_eq, h.size_eq]
    rintro ⟨-, hinside⟩
    exact hlt (by exact_mod_cast hinside)

theorem After.step (hd : Documented d n size position) (hsize : 0 < size) {k : ℕ}
    (h : After n size position r k) :
    ∃ r', next d r = some (decide (k < n), r') ∧ After n size position r' (k + 1) := by
  cases k with
  | zero =>
      by_cases hn : 0 < n
      · obtain ⟨r', hr', hstands⟩ := Outside.next_first hd h ⟨rfl, hn⟩
        refine ⟨r', by rw [hr', decide_eq_true hn], 0, 0, Nat.dvd_zero size, rfl, hsize, ?_⟩
        rw [if_pos hn]
        exact hstands
      · obtain ⟨r', hr', houtside⟩ := Outside.next_none hd h (.inr ⟨rfl, by omega⟩)
        refine ⟨r', by rw [hr', decide_eq_false hn], 0, 0, Nat.dvd_zero size, rfl, hsize, ?_⟩
        rw [if_neg hn]
        exact houtside
  | succ k =>
      obtain ⟨b, offset, hdvd, rfl, hoffset, hplace⟩ := h
      by_cases hb : b < n
      · rw [if_pos hb] at hplace
        have hcount := hplace.rowCount_eq
        by_cases hinside : offset + 1 < size
        · obtain ⟨r', hr', hstands⟩ := hplace.next_inside (d := d) (by omega) hinside
          refine ⟨r', ?_, b, offset + 1, hdvd, by omega, hinside, ?_⟩
          · have hiff : offset + 1 < r.rowCount ↔ b + offset + 1 < n := by omega
            rw [hr', decide_eq_decide.mpr hiff]
          · rw [if_pos hb]
            exact hstands
        · have hnext : size ∣ b + size := Nat.dvd_add hdvd (Nat.dvd_refl size)
          by_cases hmore : b + size < n
          · obtain ⟨r', hr', hstands⟩ := hplace.next_over hd hinside (by omega)
            refine ⟨r', ?_, b + size, 0, hnext, by omega, hsize, ?_⟩
            · rw [hr', decide_eq_true (by omega)]
            · rw [if_pos hmore, Nat.add_right_comm]
              exact hstands
          · obtain ⟨r', hr', houtside⟩ := hplace.next_end hd hinside (by omega)
            refine ⟨r', ?_, b + size, 0, hnext, by omega, hsize, ?_⟩
            · rw [hr', decide_eq_false (by omega)]
            · rw [if_neg hmore]
              exact houtside
      · rw [if_neg hb] at hplace
        obtain ⟨r', hr', houtside⟩ := hplace.next_none hd (.inl rfl)
        have hfalse : decide (b + offset + 1 < n) = false := decide_eq_false (by omega)
        rw [hfalse]
        refine ⟨r', hr', ?_⟩
        by_cases hinside : offset + 1 < size
        · refine ⟨b, offset + 1, hdvd, by omega, hinside, ?_⟩
          rw [if_neg hb]
          exact houtside
        · refine ⟨b + size, 0, Nat.dvd_add hdvd (Nat.dvd_refl size), by omega, hsize, ?_⟩
          rw [if_neg (by omega)]
          exact houtside

theorem After.row_eq {k : ℕ} (h : After n size position r (k + 1)) :
    r.row position = if k < n then some (k + 1) else none := by
  obtain ⟨b, offset, -, rfl, hoffset, hplace⟩ := h
  by_cases hb : b < n
  · rw [if_pos hb] at hplace
    have hcount := hplace.rowCount_eq
    have hiff : offset < r.rowCount ↔ b + offset < n := by omega
    rw [hplace.row_eq, if_congr hiff rfl rfl, Nat.add_right_comm]
  · rw [if_neg hb] at hplace
    rw [hplace.row_eq (fun _ ↦ Position.noConfusion), if_neg (by omega)]

/-- What `count` calls of `next` answer after the first `k`. -/
def expected (n k count : ℕ) : List (Bool × Option ℕ) :=
  (List.range' k count).map fun i ↦ if i < n then (true, some (i + 1)) else (false, none)

theorem After.run (hd : Documented d n size position) (hsize : 0 < size) (count : ℕ) {k : ℕ}
    (h : After n size position r k) :
    ∃ r', nexts d position count r = some (expected n k count, r') ∧
      After n size position r' (k + count) := by
  induction count generalizing r k with
  | zero => exact ⟨r, rfl, h⟩
  | succ count ih =>
      obtain ⟨r', hr', hafter⟩ := h.step hd hsize
      obtain ⟨r'', hr'', hafter'⟩ := ih hafter
      refine ⟨r'', ?_, ?_⟩
      · rw [Result.nexts, hr']
        simp only [Option.bind_eq_bind, Option.bind_some, hr'']
        rw [hafter.row_eq, expected, expected, List.range'_succ, List.map_cons]
        by_cases hk : k < n
        · simp [hk]
        · simp [hk]
      · rw [← Nat.add_assoc, Nat.add_right_comm]
        exact hafter'

theorem after_prepareFetch {cursor : σ} (hcursor : position cursor = .beforeStart) (s : σ) :
    After n size position ((new s).prepareFetch size cursor) 0 := by
  refine ⟨rfl, rfl, hcursor, ?_⟩
  rintro ⟨hne, -⟩
  exact hne rfl

/-- Every row once and in order, whatever the size of the rowsets, and nothing after that. -/
theorem nexts_eq (hd : Documented d n size position) (hsize : 0 < size) {cursor : σ}
    (hcursor : position cursor = .beforeStart) (s : σ) (count : ℕ) :
    ∃ r, nexts d position count ((new s).prepareFetch size cursor) =
      some (expected n 0 count, r) := by
  obtain ⟨r, hr, -⟩ := (after_prepareFetch hcursor s).run hd hsize count
  exact ⟨r, hr⟩

theorem nexts_eq_five :
    ∃ r, nexts (table 5 2) id 7 ((new .beforeStart).prepareFetch 2 .beforeStart) =
      some (expected 5 0 7, r) :=
  nexts_eq (documented_table 5 2) (by decide) rfl .beforeStart 7

theorem after_of_nexts (hd : Documented d n size position) (hsize : 0 < size) {cursor : σ}
    (hcursor : position cursor = .beforeStart) {s : σ} {k : ℕ} {answers : List (Bool × Option ℕ)}
    (h : nexts d position k ((new s).prepareFetch size cursor) = some (answers, r)) :
    After n size position r k := by
  obtain ⟨r', hr', hafter⟩ := (after_prepareFetch hcursor s).run hd hsize k
  rw [h, Option.some.injEq, Prod.mk.injEq] at hr'
  rw [hr'.2]
  rwa [Nat.zero_add] at hafter

/-! ## Back and away -/

theorem Stands.prior_inside (h : Stands n size position r start (offset + 1))
    (hcount : r.rowCount ≠ 0) :
    ∃ r', prior d r = some (true, r') ∧ Stands n size position r' start offset := by
  have hmove : r.rowsetPosition - 1 = offset := by
    rw [h.offset_eq]
    omega
  refine ⟨{ r with rowsetPosition := r.rowsetPosition - 1 }, ?_, ?_⟩
  · rw [prior, if_pos h.ready, if_pos]
    exact ⟨hcount, by omega⟩
  · exact ⟨h.ready, h.size_eq, h.position_eq, h.rowCount_eq, hmove⟩

theorem Stands.prior_first (hforward : d.ForwardOnly) (h : Stands n size position r start 0) :
    prior d r = none := by
  rw [prior, if_pos h.ready, if_neg]
  · exact fetch_of_forwardOnly hforward _ _ (by decide)
  · rw [h.offset_eq]
    rintro ⟨-, hle⟩
    omega

theorem Stands.skip_inside (h : Stands n size position r start offset) {rows : ℕ}
    (hinside : offset + rows < size) (hcount : offset + rows < r.rowCount) :
    ∃ r', skip d r rows = some (true, r') ∧ Stands n size position r' start (offset + rows) := by
  have hmove : r.rowsetPosition + rows = ((offset + rows : ℕ) : ℤ) := by
    rw [h.offset_eq]
    norm_cast
  refine ⟨{ r with rowsetPosition := r.rowsetPosition + rows }, ?_, ?_⟩
  · rw [skip, if_pos h.ready, hmove, h.size_eq, if_pos ⟨by omega, by exact_mod_cast hinside⟩]
    have htrue : ((offset + rows : ℕ) : ℤ) < r.rowCount := by exact_mod_cast hcount
    rw [decide_eq_true htrue]
  · exact ⟨h.ready, h.size_eq, h.position_eq, h.rowCount_eq, hmove⟩

theorem Stands.skip_over (hforward : d.ForwardOnly)
    (h : Stands n size position r start offset) {rows : ℕ} (hover : ¬ offset + rows < size) :
    skip d r rows = none := by
  rw [skip, if_pos h.ready, if_neg]
  · exact fetch_of_forwardOnly hforward _ _ (by decide)
  · rw [h.offset_eq, h.size_eq]
    rintro ⟨-, hlt⟩
    exact hover (by exact_mod_cast hlt)

/-- From row `k`, reached by calls of `next`, back and forward: `prior` and `skip` keep to
the rows inside a rowset and throw at its ends, and the other moves always throw. -/
theorem prior_skip_of_nexts (hd : Documented d n size position) (hforward : d.ForwardOnly)
    (hsize : 0 < size) {cursor : σ} (hcursor : position cursor = .beforeStart) {s : σ} {k : ℕ}
    {answers : List (Bool × Option ℕ)}
    (h : nexts d position k ((new s).prepareFetch size cursor) = some (answers, r))
    (hk : 0 < k) (hkn : k ≤ n) :
    (if size ∣ k - 1 then prior d r = none
      else ∃ r', prior d r = some (true, r') ∧ r'.row position = some (k - 1)) ∧
    (∀ rows : ℕ, k + rows ≤ n →
      if (k - 1) % size + rows < size then
        ∃ r', skip d r rows = some (true, r') ∧ r'.row position = some (k + rows)
      else skip d r rows = none) ∧
    first d r = none ∧ last d r = none ∧ ∀ row, move d r row = none := by
  obtain ⟨k, rfl⟩ := Nat.exists_eq_add_one.mpr hk
  obtain ⟨b, offset, hdvd, rfl, hoffset, hplace⟩ := after_of_nexts hd hsize hcursor h
  rw [if_pos (by omega)] at hplace
  have hcount := hplace.rowCount_eq
  rw [Nat.add_sub_cancel]
  have hmod : (b + offset) % size = offset := by
    obtain ⟨q, rfl⟩ := hdvd
    rw [Nat.mul_add_mod, Nat.mod_eq_of_lt hoffset]
  have hdvd_iff : size ∣ b + offset ↔ offset = 0 := by
    rw [Nat.dvd_iff_mod_eq_zero, hmod]
  refine ⟨?_, ?_, ?_, ?_, ?_⟩
  · cases offset with
    | succ offset =>
        obtain ⟨r', hr', hstands⟩ := hplace.prior_inside (d := d) (by omega)
        have hsame := hstands.rowCount_eq
        rw [if_neg (by rw [hdvd_iff]; omega)]
        refine ⟨r', hr', ?_⟩
        rw [hstands.row_eq, if_pos (by omega)]
        congr 1
        omega
    | zero =>
        rw [if_pos (hdvd_iff.mpr rfl)]
        exact hplace.prior_first hforward
  · intro rows hle
    rw [hmod]
    split_ifs with hinside
    · obtain ⟨r', hr', hstands⟩ := hplace.skip_inside (d := d) hinside (by omega)
      refine ⟨r', hr', ?_⟩
      have hsame := hstands.rowCount_eq
      rw [hstands.row_eq, if_pos (by omega)]
      congr 1
      omega
    · exact hplace.skip_over hforward hinside
  · rw [first, if_pos hplace.ready]
    exact fetch_of_forwardOnly hforward _ _ (by decide)
  · rw [last, if_pos hplace.ready]
    exact fetch_of_forwardOnly hforward _ _ (by decide)
  · intro row
    rw [move, if_pos hplace.ready]
    exact fetch_of_forwardOnly hforward _ _ (by decide)

/-- At row four, the last one of its rowset of two: one row back, none forward. -/
theorem prior_skip_of_nexts_five :
    ∃ answers r, nexts (table 5 2) id 4 ((new .beforeStart).prepareFetch 2 .beforeStart) =
        some (answers, r) ∧
      (∃ r', prior (table 5 2) r = some (true, r') ∧ r'.row id = some 3) ∧
      skip (table 5 2) r 1 = none := by
  have hd := documented_table 5 2
  obtain ⟨r, hr⟩ := nexts_eq hd (by decide) (id_eq Position.beforeStart) .beforeStart 4
  obtain ⟨hprior, hskip, -⟩ := prior_skip_of_nexts hd (forwardOnly_table 5 2) (by decide) rfl hr
    (by decide) (by decide)
  exact ⟨_, r, hr, hprior, hskip 1 (by decide)⟩

/-! ## Executing again -/

/-- After a loop over all rows the statement is executed again, with as many parameter sets.
The second loop reads all rows if the first one has ended with a fetch; otherwise it ends at
once, as `prepare_fetch` keeps the place in the old rowset. -/
theorem nexts_again_iff (hd : Documented d n size position) (hsize : 0 < size) {cursor : σ}
    (hcursor : position cursor = .beforeStart) {s : σ} {answers : List (Bool × Option ℕ)}
    (h : nexts d position (n + 1) ((new s).prepareFetch size cursor) = some (answers, r))
    {d' : Driver σ} {m : ℕ} (hd' : Documented d' m size position) (hm : 0 < m) {cursor' : σ}
    (hcursor' : position cursor' = .beforeStart) :
    ((∀ count, ∃ r', nexts d' position count (r.prepareFetch size cursor') =
      some (expected m 0 count, r')) ↔ size ∣ n ∨ size ∣ n + 1) ∧
    (¬ (size ∣ n ∨ size ∣ n + 1) →
      ∃ r', next d' (r.prepareFetch size cursor') = some (false, r')) := by
  obtain ⟨b, offset, hdvd, hn, hoffset, hplace⟩ := after_of_nexts hd hsize hcursor h
  -- the first call of the second loop stays in the old rowset, behind its rows
  have hends (hnone : ¬ (size ∣ n ∨ size ∣ n + 1)) :
      ∃ r', next d' (r.prepareFetch size cursor') = some (false, r') := by
    rw [not_or] at hnone
    have hb : b < n := by
      rcases Nat.lt_or_ge b n with hlt | hge
      · exact hlt
      · have hsame : n = b := by omega
        exact absurd (hsame ▸ hdvd) hnone.1
    rw [if_pos hb] at hplace
    have hinside : offset + 1 < size := by
      by_contra hover
      apply hnone.2
      have hnext : n + 1 = b + size := by omega
      rw [hnext]
      exact Nat.dvd_add hdvd (Nat.dvd_refl size)
    have hcount := hplace.rowCount_eq
    have hstay : r.rowCount ≠ 0 ∧ r.rowsetPosition + 1 < (size : ℤ) := by
      rw [hplace.offset_eq]
      omega
    have hbehind : ¬ r.rowsetPosition + 1 < r.rowCount := by
      rw [hplace.offset_eq]
      omega
    simp [Result.next, prepareFetch, hstay, hbehind]
  refine ⟨⟨?_, ?_⟩, hends⟩
  · intro hall
    by_contra hnone
    obtain ⟨r', hr'⟩ := hends hnone
    obtain ⟨r'', hr''⟩ := hall 1
    simp [Result.nexts, hr', expected, hm] at hr''
  · intro hfetch count
    have hagain : After m size position (r.prepareFetch size cursor') 0 := by
      refine ⟨rfl, rfl, hcursor', ?_⟩
      change ¬ (r.rowCount ≠ 0 ∧ r.rowsetPosition + 1 < (size : ℤ))
      by_cases hb : b < n
      · rw [if_pos hb] at hplace
        rw [hplace.offset_eq]
        rintro ⟨-, hinside⟩
        have hlt : offset + 1 < size := by omega
        rcases hfetch with hdvd' | hdvd'
        · have hoff : size ∣ offset := (Nat.dvd_add_right hdvd).mp (hn ▸ hdvd')
          have := Nat.le_of_dvd (by omega) hoff
          omega
        · have hnext : n + 1 = b + (offset + 1) := by omega
          have hoff : size ∣ offset + 1 := (Nat.dvd_add_right hdvd).mp (hnext ▸ hdvd')
          have := Nat.le_of_dvd (by omega) hoff
          omega
      · rw [if_neg hb] at hplace
        exact hplace.fetches
    obtain ⟨r', hr', -⟩ := hagain.run hd' hsize count
    exact ⟨r', hr'⟩

/-- One row in a rowset of three, and two rows the second time. -/
theorem nexts_again_iff_one :
    ∃ answers r, nexts (table 1 3) id 2 ((new .beforeStart).prepareFetch 3 .beforeStart) =
        some (answers, r) ∧
      ∃ r', next (table 2 3) (r.prepareFetch 3 .beforeStart) = some (false, r') := by
  have hd := documented_table 1 3
  obtain ⟨r, hr⟩ := nexts_eq hd (by decide) (id_eq Position.beforeStart) .beforeStart 2
  obtain ⟨-, hends⟩ :=
    nexts_again_iff hd (by decide) rfl hr (documented_table 2 3) (by decide) rfl
  exact ⟨_, r, hr, hends (by decide)⟩

end

end Result

end WiseKernel.Dbc
