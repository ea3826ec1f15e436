import Mathlib.Data.List.Range
import WiseKernel.Core.Sequence
import WiseKernel.Lib.Loans
import WiseKernel.Lib.Runs

/-!
# The id pool on machine numbers

`sequence<Seq>` for an unsigned type of any width.  It does what `Sequence` does
on numbers, up to the largest value of the type, and what it has handed out,
what waits in its queue and what the counter has not reached are the range.
-/

namespace WiseKernel.Core

open WiseKernel.Lib

/-! ## On numbers -/

namespace Sequence

/-- The queue and the numbers handed out divide what the counter has passed. -/
structure Accounts (q : Sequence) (out : List ℕ) : Prop where
  start : q.low ≤ q.current
  bound : q.current ≤ q.high
  loans : Loans (fun n ↦ q.low ≤ n ∧ n < q.current) q.seqs out

variable {q : Sequence} {out : List ℕ}

theorem Accounts.acquire (h : q.Accounts out) (count : ℕ) : (q.acquire count).Accounts out := by
  induction count generalizing q with
  | zero => exact h
  | succ count ih =>
      rw [Sequence.acquire]
      split_ifs with hlt
      · refine ih ⟨Nat.le_succ_of_le h.start, hlt, ?_⟩
        have hstart := h.start
        refine (h.loans.stock (x := q.current) (by omega)).congr fun n ↦ ?_
        change q.low ≤ n ∧ n < q.current + 1 ↔ _
        omega
      · exact h

/-- The number of those handed out, by counting the rest. -/
theorem Accounts.length_add (h : q.Accounts out) :
    q.seqs.length + out.length = q.current - q.low := by
  have hnodup : (q.seqs ++ out).Nodup :=
    h.loans.idle_nodup.append h.loans.lent_nodup fun n hn hout ↦ h.loans.apart n hn hout
  have hperm : (q.seqs ++ out).Perm (List.range' q.low (q.current - q.low)) := by
    refine (List.perm_ext_iff_of_nodup hnodup List.nodup_range').mpr fun n ↦ ?_
    have hall := h.loans.all_iff n
    have hstart := h.start
    rw [List.mem_append, ← hall, List.mem_range'_1]
    omega
  rw [← List.length_append, hperm.length_eq, List.length_range']

/-- What `next` looks at after its call of `acquire`. -/
def filled (q : Sequence) : Sequence := if q.seqs.length < q.reserve then q.acquire q.reserve else q

theorem Accounts.filled (h : q.Accounts out) : q.filled.Accounts out := by
  unfold Sequence.filled
  split_ifs
  · exact h.acquire _
  · exact h

theorem acquire_low_high (q : Sequence) (count : ℕ) :
    (q.acquire count).low = q.low ∧ (q.acquire count).high = q.high := by
  induction count generalizing q with
  | zero => exact ⟨rfl, rfl⟩
  | succ count ih =>
      rw [Sequence.acquire]
      split_ifs
      · exact ih { q with seqs := q.seqs ++ [q.current], current := q.current + 1 }
      · exact ⟨rfl, rfl⟩

theorem filled_low_high (q : Sequence) : q.filled.low = q.low ∧ q.filled.high = q.high := by
  unfold filled
  split_ifs
  · exact acquire_low_high q q.reserve
  · exact ⟨rfl, rfl⟩

/-- With nothing to give even after `acquire`, there was nothing to acquire. -/
theorem filled_eq_self (hseqs : q.filled.seqs = []) : q.filled = q := by
  unfold filled at hseqs ⊢
  split_ifs at hseqs ⊢
  · cases hcount : q.reserve with
    | zero => rfl
    | succ count =>
        rw [hcount] at hseqs
        rw [Sequence.acquire] at hseqs ⊢
        split_ifs at hseqs ⊢
        · obtain ⟨rest, hrest⟩ := acquire_seqs_prefix
            { q with seqs := q.seqs ++ [q.current], current := q.current + 1 } count
          simp [hrest] at hseqs
        · rfl
  · rfl

/-- `next`, after its call of `acquire`. -/
theorem next_eq (q : Sequence) :
    q.next = match q.filled.seqs with
      | value :: rest => .ok (value, { q.filled with seqs := rest })
      | [] =>
          if q.filled.current = q.filled.high then
            .error (.noSequence q.filled.low q.filled.high q.filled.current)
          else .ok (q.filled.current, { q.filled with current := q.filled.current + 1 }) := rfl

end Sequence

/-! ## On words -/

/-- `sequence<Seq>` with `Seq` unsigned of `w` bits; the counter is never past the
end. -/
structure WordSequence (w : ℕ) where
  low : BitVec w
  high : BitVec w
  reserve : BitVec w
  current : BitVec w
  seqs : List (BitVec w)
  current_le : current ≤ high

namespace WordSequence

variable {w : ℕ}

/-- A counter that is not at the end does not wrap. -/
theorem toNat_succ {a b : BitVec w} (h : a < b) : (a + 1).toNat = a.toNat + 1 := by
  have hlt : a.toNat < b.toNat := h
  have hb := b.isLt
  have hone : 1 < 2 ^ w := by omega
  rw [BitVec.toNat_add, show (1 : BitVec w).toNat = 1 from ?_, Nat.mod_eq_of_lt (by omega)]
  exact Nat.mod_eq_of_lt hone

def acquire (q : WordSequence w) : ℕ → WordSequence w
  | 0 => q
  | n + 1 =>
      if h : q.current < q.high then
        acquire { q with
          seqs := q.seqs ++ [q.current]
          current := q.current + 1
          current_le := by
            have hlt : q.current.toNat < q.high.toNat := h
            rw [BitVec.le_def, toNat_succ h]
            exact hlt } n
      else q

/-- The constructor. -/
def make (low high reserve : BitVec w) (h : low ≤ high) : WordSequence w :=
  let reserve := if reserve < high - low then reserve else high - low
  acquire ⟨low, high, reserve, low, [], h⟩ reserve.toNat

/-- The numbers `next` draws on. -/
def filled (q : WordSequence w) : WordSequence w :=
  if q.seqs.length < q.reserve.toNat then q.acquire q.reserve.toNat else q

/-- What `next` takes from them: the answer, and the state after it. -/
def take (q : WordSequence w) : Except Sequence.Error (BitVec w) × WordSequence w :=
  match q.seqs with
  | value :: rest => (.ok value, { q with seqs := rest })
  | [] =>
      if h : q.current = q.high then
        (.error (.noSequence q.low.toNat q.high.toNat q.current.toNat), q)
      else
        (.ok q.current, { q with
          current := q.current + 1
          current_le := by
            have hle : q.current.toNat ≤ q.high.toNat := q.current_le
            have hne : q.current.toNat ≠ q.high.toNat := fun heq ↦ h (BitVec.eq_of_toNat_eq heq)
            have hlt : q.current < q.high := BitVec.lt_def.mpr (by omega)
            rw [BitVec.le_def, toNat_succ hlt]
            omega })

def next (q : WordSequence w) : Except Sequence.Error (BitVec w) × WordSequence w := q.filled.take

def release (q : WordSequence w) (seq : BitVec w) : WordSequence w :=
  if q.low ≤ seq ∧ seq < q.high then { q with seqs := q.seqs ++ [seq] } else q

/-- The same pool with numbers for words. -/
def toSequence (q : WordSequence w) : Sequence :=
  ⟨q.low.toNat, q.high.toNat, q.reserve.toNat, q.current.toNat, q.seqs.map BitVec.toNat⟩

theorem toSequence_acquire (q : WordSequence w) (count : ℕ) :
    (q.acquire count).toSequence = q.toSequence.acquire count := by
  induction count generalizing q with
  | zero => rfl
  | succ count ih =>
      rw [acquire, Sequence.acquire]
      by_cases hlt : q.current < q.high
      · have hnat : q.toSequence.current < q.toSequence.high := hlt
        rw [dif_pos hlt, if_pos hnat, ih]
        simp only [toSequence, toNat_succ hlt, List.map_append, List.map_cons, List.map_nil]
      · have hnat : ¬ q.toSequence.current < q.toSequence.high := hlt
        rw [dif_neg hlt, if_neg hnat]

theorem toSequence_make {low high : BitVec w} (reserve : BitVec w) (h : low ≤ high) :
    (make low high reserve h).toSequence = .make low.toNat high.toNat reserve.toNat := by
  have hsub : (high - low).toNat = high.toNat - low.toNat := BitVec.toNat_sub_of_le h
  have hmin : (if reserve < high - low then reserve else high - low).toNat =
      min (high.toNat - low.toNat) reserve.toNat := by
    rw [apply_ite BitVec.toNat, hsub]
    simp only [BitVec.lt_def, hsub]
    split_ifs <;> omega
  rw [make, Sequence.make, toSequence_acquire, hmin]
  simp only [toSequence, hmin, List.map_nil]

theorem toSequence_release (q : WordSequence w) (seq : BitVec w) :
    (q.release seq).toSequence = q.toSequence.release seq.toNat := by
  have hrange : (q.low ≤ seq ∧ seq < q.high) ↔
      q.toSequence.low ≤ seq.toNat ∧ seq.toNat < q.toSequence.high := Iff.rfl
  unfold release Sequence.release
  by_cases h : q.low ≤ seq ∧ seq < q.high
  · rw [if_pos h, if_pos (hrange.mp h)]
    simp [toSequence]
  · rw [if_neg h, if_neg (mt hrange.mpr h)]

theorem toSequence_filled (q : WordSequence w) : q.filled.toSequence = q.toSequence.filled := by
  have hfew : q.seqs.length < q.reserve.toNat ↔
      q.toSequence.seqs.length < q.toSequence.reserve := by
    rw [toSequence, List.length_map]
  rw [filled, apply_ite toSequence, toSequence_acquire, Sequence.filled]
  exact if_congr hfew rfl rfl

theorem take_cons {q : WordSequence w} {value : BitVec w} {rest : List (BitVec w)}
    (h : q.seqs = value :: rest) : q.take = (.ok value, { q with seqs := rest }) := by
  simp only [take, h]

theorem take_end {q : WordSequence w} (h : q.seqs = []) (hend : q.current = q.high) :
    q.take = (.error (.noSequence q.low.toNat q.high.toNat q.current.toNat), q) := by
  simp only [take, h, dif_pos hend]

theorem take_fresh {q : WordSequence w} (h : q.seqs = []) (hend : q.current ≠ q.high) :
    q.take.1 = .ok q.current ∧
      q.take.2.toSequence = { q.toSequence with current := q.toSequence.current + 1 } := by
  have hle : q.current.toNat ≤ q.high.toNat := q.current_le
  have hne : q.current.toNat ≠ q.high.toNat := fun heq ↦ hend (BitVec.eq_of_toNat_eq heq)
  have hlt : q.current < q.high := BitVec.lt_def.mpr (by omega)
  simp only [take, h, dif_neg hend]
  exact ⟨trivial, by simp only [toSequence, toNat_succ hlt, h]⟩

/-- `next` on words is `next` on numbers. -/
theorem toSequence_next (q : WordSequence w) :
    q.next.1.map (fun n ↦ (n.toNat, q.next.2.toSequence)) = q.toSequence.next := by
  rw [Sequence.next_eq, ← toSequence_filled, next]
  generalize q.filled = p
  cases hseqs : p.seqs with
  | cons value rest =>
      rw [take_cons hseqs]
      simp [toSequence, hseqs, Except.map]
  | nil =>
      by_cases hend : p.current = p.high
      · rw [take_end hseqs hend]
        simp [toSequence, hseqs, hend, Except.map]
      · obtain ⟨hanswer, hleft⟩ := take_fresh hseqs hend
        have hnat : p.current.toNat ≠ p.high.toNat := fun heq ↦ hend (BitVec.eq_of_toNat_eq heq)
        rw [hanswer, hleft]
        simp [toSequence, hseqs, hnat, Except.map]

theorem toNat_injective : Function.Injective (BitVec.toNat : BitVec w → ℕ) :=
  fun _ _ h ↦ BitVec.eq_of_toNat_eq h

theorem toSequence_injective {q q' : WordSequence w} (h : q.toSequence = q'.toSequence) :
    q = q' := by
  obtain ⟨hlow, hhigh, hreserve, hcurrent, hseqs⟩ := Sequence.mk.inj h
  cases q
  cases q'
  simp only [BitVec.toNat_inj] at hlow hhigh hreserve hcurrent
  have hseqs := List.map_injective_iff.mpr toNat_injective hseqs
  subst hlow hhigh hreserve hcurrent hseqs
  rfl

/-- The queue and the ids handed out divide what the counter has passed. -/
def Accounts (q : WordSequence w) (out : List (BitVec w)) : Prop :=
  q.toSequence.Accounts (out.map BitVec.toNat)

variable {q : WordSequence w} {out : List (BitVec w)}

theorem Accounts.filled (h : q.Accounts out) : q.filled.Accounts out := by
  rw [Accounts, toSequence_filled]
  exact Sequence.Accounts.filled h

theorem filled_low_high (q : WordSequence w) : q.filled.low = q.low ∧ q.filled.high = q.high := by
  obtain ⟨hlow, hhigh⟩ := q.toSequence.filled_low_high
  rw [← toSequence_filled] at hlow hhigh
  exact ⟨BitVec.eq_of_toNat_eq hlow, BitVec.eq_of_toNat_eq hhigh⟩

theorem filled_eq_self (h : q.filled.seqs = []) : q.filled = q := by
  apply toSequence_injective
  rw [toSequence_filled]
  apply Sequence.filled_eq_self
  rw [← toSequence_filled, toSequence, h, List.map_nil]

/-- What the lists say, in words. -/
theorem Accounts.mem_iff (h : q.Accounts out) (n : BitVec w) :
    q.low ≤ n ∧ n < q.current ↔ n ∈ q.seqs ∨ n ∈ out := by
  have hall := h.loans.all_iff n.toNat
  simpa [toSequence, toNat_injective.eq_iff, BitVec.le_def, BitVec.lt_def] using hall

theorem Accounts.apart (h : q.Accounts out) : ∀ n ∈ q.seqs, n ∉ out := by
  intro n hn hout
  exact h.loans.apart n.toNat (List.mem_map_of_mem hn) (List.mem_map_of_mem hout)

theorem Accounts.length_add (h : q.Accounts out) :
    q.seqs.length + out.length = q.current.toNat - q.low.toNat := by
  have hcount := Sequence.Accounts.length_add h
  simpa [toSequence] using hcount

/-- The call after `acquire`. -/
theorem Accounts.take (h : q.Accounts out) :
    (∃ n, q.take.1 = .ok n ∧ q.low ≤ n ∧ n < q.high ∧ n ∉ out ∧ q.take.2.Accounts (n :: out) ∧
      out.length < (q.high - q.low).toNat) ∨
    (∃ e, q.take = (.error e, q)) ∧ q.seqs = [] ∧ out.length = (q.high - q.low).toNat := by
  have hstart : q.low.toNat ≤ q.current.toNat := h.start
  have hbound : q.current.toNat ≤ q.high.toNat := q.current_le
  have hsize : (q.high - q.low).toNat = q.high.toNat - q.low.toNat :=
    BitVec.toNat_sub_of_le (BitVec.le_def.mpr (Nat.le_trans hstart hbound))
  have hcount := h.length_add
  rw [hsize]
  cases hseqs : q.seqs with
  | cons value rest =>
      left
      have hmem : value ∈ q.seqs := by simp [hseqs]
      obtain ⟨hlow, hlt⟩ := (h.mem_iff value).mpr (.inl hmem)
      have hlt' : value.toNat < q.current.toNat := hlt
      rw [hseqs, List.length_cons] at hcount
      refine ⟨value, by rw [take_cons hseqs], hlow, ?_, h.apart value hmem, ?_, by omega⟩
      · exact BitVec.lt_def.mpr (by omega)
      · rw [take_cons hseqs]
        refine ⟨h.start, h.bound, ?_⟩
        have hloans := h.loans
        simp only [toSequence, hseqs, List.map_cons] at hloans
        exact hloans.lend
  | nil =>
      rw [hseqs, List.length_nil] at hcount
      by_cases hend : q.current = q.high
      · right
        rw [take_end hseqs hend]
        refine ⟨⟨_, rfl⟩, rfl, ?_⟩
        rw [← hend]
        omega
      · left
        have hne : q.current.toNat ≠ q.high.toNat := fun heq ↦ hend (BitVec.eq_of_toNat_eq heq)
        obtain ⟨hanswer, hleft⟩ := take_fresh hseqs hend
        refine ⟨q.current, hanswer, hstart, BitVec.lt_def.mpr (by omega), ?_, ?_, by omega⟩
        · intro hmem
          exact absurd ((h.mem_iff q.current).mpr (.inr hmem)).2 (Nat.lt_irrefl _)
        · rw [Accounts, hleft]
          refine ⟨Nat.le_succ_of_le hstart, Nat.lt_of_le_of_ne hbound hne, ?_⟩
          have hnew : ¬ (q.low.toNat ≤ q.current.toNat ∧ q.current.toNat < q.current.toNat) :=
            fun hlt ↦ Nat.lt_irrefl _ hlt.2
          refine (h.loans.lend_new hnew).congr fun n ↦ ?_
          simp only [toSequence]
          omega

/-- `next` hands out an id that nobody has, or throws with all of them handed out. -/
theorem Accounts.next (h : q.Accounts out) :
    (∃ n, q.next.1 = .ok n ∧ q.low ≤ n ∧ n < q.high ∧ n ∉ out ∧ q.next.2.Accounts (n :: out) ∧
      out.length < (q.high - q.low).toNat) ∨
    (∃ e, q.next = (.error e, q)) ∧ out.length = (q.high - q.low).toNat := by
  obtain ⟨hlow, hhigh⟩ := q.filled_low_high
  have htake := h.filled.take
  rw [hlow, hhigh] at htake
  rcases htake with hok | ⟨⟨e, he⟩, hnil, hall⟩
  · exact .inl hok
  · refine .inr ⟨⟨e, ?_⟩, hall⟩
    rw [WordSequence.next, he, filled_eq_self hnil]

theorem Accounts.release (h : q.Accounts out) {n : BitVec w} (hn : n ∈ out) :
    (q.release n).Accounts (out.erase n) := by
  obtain ⟨hlow, hlt⟩ := (h.mem_iff n).mpr (.inr hn)
  have hlt : n.toNat < q.current.toNat := hlt
  have hbound : q.current.toNat ≤ q.high.toNat := q.current_le
  have hrange : q.low ≤ n ∧ n < q.high := ⟨hlow, BitVec.lt_def.mpr (by omega)⟩
  have herase : (out.erase n).map BitVec.toNat = (out.map BitVec.toNat).erase n.toNat :=
    List.map_erase toNat_injective out
  have hreturn := h.loans.giveBack (List.mem_map_of_mem hn)
  rw [WordSequence.release, if_pos hrange]
  refine ⟨h.start, h.bound, ?_⟩
  rw [herase]
  simpa [toSequence] using hreturn

theorem accounts_make {low high reserve : BitVec w} (h : low ≤ high) :
    (make low high reserve h).Accounts [] := by
  rw [Accounts, toSequence_make]
  apply Sequence.Accounts.acquire
  refine ⟨Nat.le_refl _, h, Loans.empty.congr fun n ↦ ?_⟩
  simp only [iff_false]
  omega

theorem low_high_take (q : WordSequence w) : q.take.2.low = q.low ∧ q.take.2.high = q.high := by
  unfold take
  split
  · exact ⟨rfl, rfl⟩
  · split_ifs <;> exact ⟨rfl, rfl⟩

end WordSequence

/-! ## Histories -/

inductive IdOp (w : ℕ)
  | next
  | release (n : BitVec w)

/-- An id pool, and the ids that were handed out and have not come back. -/
structure IdPool (w : ℕ) where
  ids : WordSequence w
  out : List (BitVec w)

namespace IdPool

variable {w : ℕ}

/-- A call; only an id that is out is released. -/
def step (s : IdPool w) : IdOp w → IdPool w
  | .next =>
      match s.ids.next with
      | (.ok n, ids) => ⟨ids, n :: s.out⟩
      | (.error _, ids) => ⟨ids, s.out⟩
  | .release n => if n ∈ s.out then ⟨s.ids.release n, s.out.erase n⟩ else s

/-- The pool of a range, with its accounts in order. -/
structure Within (low high : BitVec w) (s : IdPool w) : Prop where
  low_eq : s.ids.low = low
  high_eq : s.ids.high = high
  accounts : s.ids.Accounts s.out

theorem within_make {low high : BitVec w} (h : low ≤ high) (reserve : BitVec w) :
    (IdPool.mk (.make low high reserve h) []).Within low high := by
  obtain ⟨hlow, hhigh⟩ := Sequence.acquire_low_high
    ⟨low.toNat, high.toNat, min (high.toNat - low.toNat) reserve.toNat, low.toNat, []⟩
    (min (high.toNat - low.toNat) reserve.toNat)
  have hmake := WordSequence.toSequence_make reserve h
  rw [Sequence.make] at hmake
  rw [← hmake] at hlow hhigh
  exact ⟨BitVec.eq_of_toNat_eq hlow, BitVec.eq_of_toNat_eq hhigh, WordSequence.accounts_make h⟩

theorem Within.step {low high : BitVec w} {s : IdPool w} (h : s.Within low high) (op : IdOp w) :
    (s.step op).Within low high := by
  cases op with
  | next =>
      obtain ⟨hlow, hhigh⟩ := s.ids.filled.low_high_take
      obtain ⟨hlow', hhigh'⟩ := s.ids.filled_low_high
      rcases h.accounts.next with ⟨n, hok, -, -, -, hnext, -⟩ | ⟨⟨e, he⟩, -⟩
      · have hpair : s.ids.next = (.ok n, s.ids.next.2) := Prod.ext hok rfl
        rw [IdPool.step, hpair]
        exact ⟨hlow.trans (hlow'.trans h.low_eq), hhigh.trans (hhigh'.trans h.high_eq), hnext⟩
      · rw [IdPool.step, he]
        exact h
  | release n =>
      rw [IdPool.step]
      split_ifs with hn
      · refine ⟨?_, ?_, h.accounts.release hn⟩
        · rw [WordSequence.release]
          split_ifs <;> exact h.low_eq
        · rw [WordSequence.release]
          split_ifs <;> exact h.high_eq
      · exact h

end IdPool

/-- After any calls: the queue, the ids that are out and what the counter has not
reached are the range, each id once; `next` hands out an id of the range that is
not out; and it throws exactly if all are out, and then changes nothing. -/
theorem ids_partition {w : ℕ} {low high : BitVec w} (hrange : low < high) (reserve : BitVec w)
    (ops : List (IdOp w)) :
    let s := ops.foldl IdPool.step ⟨.make low high reserve (BitVec.le_of_lt hrange), []⟩
    (s.ids.seqs.Nodup ∧ s.out.Nodup ∧ (∀ n ∈ s.ids.seqs, n ∉ s.out) ∧
      (∀ n, s.ids.current ≤ n → n ∉ s.ids.seqs ∧ n ∉ s.out) ∧
      ∀ n, low ≤ n ∧ n < high ↔ n ∈ s.ids.seqs ∨ n ∈ s.out ∨ s.ids.current ≤ n ∧ n < high) ∧
    (∀ n, s.ids.next.1 = .ok n → low ≤ n ∧ n < high ∧ n ∉ s.out) ∧
    ((∃ e, s.ids.next.1 = .error e) ↔ s.out.length = (high - low).toNat) ∧
    ∀ e, s.ids.next.1 = .error e → s.ids.next.2 = s.ids := by
  intro s
  have hle : low ≤ high := BitVec.le_of_lt hrange
  obtain ⟨hlow, hhigh, h⟩ : s.Within low high :=
    @foldl_invariant _ _ IdPool.step (IdPool.Within low high) _ ops (IdPool.within_make hle reserve)
      fun s op h ↦ h.step op
  have hmem := h.mem_iff
  have hbound : s.ids.current.toNat ≤ high.toNat := hhigh ▸ s.ids.current_le
  have hstart : low.toNat ≤ s.ids.current.toNat := hlow ▸ h.start
  refine ⟨⟨?_, ?_, h.apart, ?_, ?_⟩, ?_, ?_, ?_⟩
  · exact h.loans.idle_nodup.of_map _
  · exact h.loans.lent_nodup.of_map _
  · intro n hn
    rw [← not_or, ← hmem]
    exact fun hlt ↦ absurd hn (BitVec.not_le.mpr hlt.2)
  · intro n
    rw [← or_assoc, ← hmem, hlow]
    simp only [BitVec.le_def, BitVec.lt_def]
    omega
  · intro n hn
    rcases h.next with ⟨m, hok, hm, hm', hout, -⟩ | ⟨⟨e, he⟩, -⟩
    · obtain rfl : m = n := Except.ok.inj (hok.symm.trans hn)
      rw [← hlow, ← hhigh]
      exact ⟨hm, hm', hout⟩
    · simp [he] at hn
  · rw [← hlow, ← hhigh]
    rcases h.next with ⟨m, hok, -, -, -, -, hlt⟩ | ⟨⟨e, he⟩, hall⟩
    · simp only [hok, reduceCtorEq, exists_false, false_iff]
      omega
    · exact iff_of_true ⟨e, congrArg Prod.fst he⟩ hall
  · intro e he
    rcases h.next with ⟨m, hok, -⟩ | ⟨⟨e', he'⟩, -⟩
    · simp [hok] at he
    · rw [he']

theorem ids_partition_byte :
    let s := List.foldl IdPool.step ⟨.make (0xFD : BitVec 8) 0xFF 2 (by decide), []⟩
      [.next, .next, .next, .release 0xFD]
    s.out.length = 1 ∧ ∀ e, s.ids.next.1 = .error e → s.ids.next.2 = s.ids :=
  ⟨by decide, (ids_partition (by decide : (0xFD : BitVec 8) < 0xFF) 2
    [.next, .next, .next, .release 0xFD]).2.2.2⟩

end WiseKernel.Core
