import Mathlib.Algebra.Group.Nat.Defs
import Mathlib.Data.List.Pairwise
import Mathlib.Logic.Function.Basic
import Mathlib.Tactic.Common
import WiseKernel.Lib.Runs

/-!
# Actor ids

`actor_id_generator`: 40 bits of milliseconds, 16 bits of domain and 8 bits of
sequence.  The three fields do not overlap, so the order of the ids of one
generator is the order of the pairs of time and sequence, and the domain can be
read back.
-/

namespace WiseKernel.Server

open WiseKernel.Lib

/-- `actor_id_generator`. -/
structure ActorIdGenerator where
  domain : UInt16 := 0
  lastMs : UInt64 := 0
  seq : UInt16 := 0
  lastId : UInt64 := 0
  sleepCount : ℕ := 0
  deriving DecidableEq, Repr

namespace ActorIdGenerator

inductive Error
  /-- `"domain_ must be positive number"` -/
  | zeroDomain
  /-- `"domain_ number must be less than 0xFFFF"` -/
  | bigDomain
  /-- `"time inverted. now: {}, last: {}"` -/
  | timeInverted (now last : UInt64)
  deriving DecidableEq, Repr

/-- `setup`; the domain is stored before it is checked. -/
def setup (g : ActorIdGenerator) (domain : UInt16) : Except Error Unit × ActorIdGenerator :=
  let g := { g with domain := domain }
  if g.domain = 0 then (.error .zeroDomain, g)
  else if g.domain ≥ 0xFFFF then (.error .bigDomain, g)
  else (.ok (), g)

/-- The id of a millisecond, a domain and a sequence. -/
def pack (ms : UInt64) (domain seq : UInt16) : UInt64 :=
  let ms := (ms &&& 0xFFFFFFFFFF) <<< 24
  let dm := (domain.toUInt64 &&& 0xFFFF) <<< 8
  let sp := seq.toUInt64 &&& 0xFF
  ms ||| dm ||| sp

/-- Whether `next` calls `wait_next_ms` when the clock shows `now`. -/
def waits (g : ActorIdGenerator) (now : UInt64) : Bool :=
  g.lastMs = now && (g.seq + 1) &&& 0xFF = 0

/-- The sequence that `next` uses when the clock shows `now`. -/
def nextSeq (g : ActorIdGenerator) (now : UInt64) : UInt16 :=
  if g.lastMs = now then (g.seq + 1) &&& 0xFF else 0

/-- `next`, where the clock shows `now` at the call and `later` at the end of
`wait_next_ms`. -/
def next (g : ActorIdGenerator) (now later : UInt64) : Except Error (UInt64 × ActorIdGenerator) :=
  if g.domain = 0 then .error .zeroDomain
  else if now < g.lastMs then .error (.timeInverted now g.lastMs)
  else
    let seq := g.nextSeq now
    let ms := if g.waits now then later else now
    let id := pack ms g.domain seq
    .ok (id, { g with
      seq := seq
      lastMs := ms
      lastId := id
      sleepCount := if g.waits now then g.sleepCount + 1 else g.sleepCount })

def getDomainOf (id : UInt64) : UInt16 :=
  ((id >>> 8) &&& 0x000000000000FFFF).toUInt16

/-! ## The fields of an id -/

theorem pack_toNat (ms : UInt64) (domain seq : UInt16) :
    (pack ms domain seq).toNat =
      ms.toNat % 2 ^ 40 * 2 ^ 24 + domain.toNat * 2 ^ 8 + seq.toNat % 2 ^ 8 := by
  have hms : ((ms &&& 0xFFFFFFFFFF) <<< 24).toNat = (ms.toNat % 2 ^ 40) <<< 24 := by
    have hand : ms.toNat &&& 1099511627775 = ms.toNat % 2 ^ 40 :=
      Nat.and_two_pow_sub_one_eq_mod ms.toNat 40
    simp only [UInt64.toNat_shiftLeft, UInt64.toNat_and, UInt64.reduceToNat, hand, Nat.reduceMod]
    rw [Nat.shiftLeft_eq, Nat.mod_eq_of_lt]
    omega
  have hdm : ((domain.toUInt64 &&& 0xFFFF) <<< 8).toNat = domain.toNat <<< 8 := by
    have hand : domain.toNat &&& 65535 = domain.toNat % 2 ^ 16 :=
      Nat.and_two_pow_sub_one_eq_mod domain.toNat 16
    have hlt := domain.toNat_lt
    simp only [UInt64.toNat_shiftLeft, UInt64.toNat_and, UInt16.toNat_toUInt64,
      UInt64.reduceToNat, hand, Nat.reduceMod]
    rw [Nat.shiftLeft_eq, Nat.shiftLeft_eq, Nat.mod_eq_of_lt] <;> omega
  have hsp : (seq.toUInt64 &&& 0xFF).toNat = seq.toNat % 2 ^ 8 :=
    Nat.and_two_pow_sub_one_eq_mod seq.toNat 8
  have hseq : seq.toNat % 2 ^ 8 < 2 ^ 8 := Nat.mod_lt _ (by decide)
  have hlow : domain.toNat <<< 8 + seq.toNat % 2 ^ 8 < 2 ^ 24 := by
    have hlt := domain.toNat_lt
    rw [Nat.shiftLeft_eq]
    omega
  unfold pack
  rw [UInt64.toNat_or, UInt64.toNat_or, hms, hdm, hsp, Nat.or_assoc,
    ← Nat.shiftLeft_add_eq_or_of_lt hseq, ← Nat.shiftLeft_add_eq_or_of_lt hlow,
    Nat.shiftLeft_eq, Nat.shiftLeft_eq, Nat.add_assoc]

theorem getDomainOf_pack (ms : UInt64) (domain seq : UInt16) :
    getDomainOf (pack ms domain seq) = domain := by
  have hand : ∀ n : ℕ, n &&& 65535 = n % 2 ^ 16 := fun n ↦ Nat.and_two_pow_sub_one_eq_mod n 16
  have hlt := domain.toNat_lt
  apply UInt16.toNat_inj.mp
  simp only [getDomainOf, UInt64.toNat_toUInt16, UInt64.toNat_and, UInt64.toNat_shiftRight,
    UInt64.reduceToNat, pack_toNat, hand, Nat.shiftRight_eq_div_pow, Nat.reduceMod]
  omega

/-- A later millisecond gives a greater id, if only the lowest 40 bits change. -/
theorem pack_lt_of_ms {a b : UInt64} (domain s t : UInt16) (hhigh : a >>> 40 = b >>> 40)
    (h : a < b) : pack a domain s < pack b domain t := by
  have hhigh' : a.toNat / 2 ^ 40 = b.toNat / 2 ^ 40 := by
    have := congrArg UInt64.toNat hhigh
    simpa [UInt64.toNat_shiftRight, Nat.shiftRight_eq_div_pow] using this
  have hlt : a.toNat < b.toNat := h
  have hdomain := domain.toNat_lt
  rw [UInt64.lt_iff_toNat_lt, pack_toNat, pack_toNat]
  omega

/-- In one millisecond the sequence orders the ids. -/
theorem pack_lt_of_seq (ms : UInt64) (domain : UInt16) {s t : UInt16} (ht : t.toNat < 2 ^ 8)
    (h : s < t) : pack ms domain s < pack ms domain t := by
  have hlt : s.toNat < t.toNat := h
  rw [UInt64.lt_iff_toNat_lt, pack_toNat, pack_toNat]
  omega

theorem and_0xFF_toNat (s : UInt16) : (s &&& 0xFF).toNat = s.toNat % 2 ^ 8 :=
  Nat.and_two_pow_sub_one_eq_mod s.toNat 8

theorem nextSeq_lt (g : ActorIdGenerator) (now : UInt64) : (g.nextSeq now).toNat < 2 ^ 8 := by
  unfold nextSeq
  split_ifs
  · rw [and_0xFF_toNat]
    exact Nat.mod_lt _ (by decide)
  · decide

/-- Without a wait the sequence grows by one inside a millisecond. -/
theorem lt_nextSeq {g : ActorIdGenerator} {now : UInt64} (hseq : g.seq.toNat < 2 ^ 8)
    (hnow : g.lastMs = now) (hwait : g.waits now = false) : g.seq < g.nextSeq now := by
  have hne : (g.seq + 1) &&& 0xFF ≠ 0 := by
    simpa [waits, hnow] using hwait
  have hne' : ((g.seq + 1) &&& 0xFF).toNat ≠ 0 := fun h ↦ hne (UInt16.toNat_inj.mp h)
  have hadd : (g.seq + 1).toNat = g.seq.toNat + 1 := by
    rw [UInt16.toNat_add]
    exact Nat.mod_eq_of_lt (by simp; omega)
  rw [and_0xFF_toNat, hadd] at hne'
  rw [UInt16.lt_iff_toNat_lt, nextSeq, if_pos hnow, and_0xFF_toNat, hadd]
  omega

/-- The millisecond that goes into the id. -/
def idMs (g : ActorIdGenerator) (now later : UInt64) : UInt64 :=
  if g.waits now then later else now

theorem next_eq_ok {g : ActorIdGenerator} {now later : UInt64} (hdomain : g.domain ≠ 0)
    (hnow : g.lastMs ≤ now) :
    ∃ g', g.next now later = .ok (g'.lastId, g') ∧ g'.domain = g.domain ∧
      g'.lastMs = g.idMs now later ∧ g'.seq = g.nextSeq now ∧
      g'.lastId = pack (g.idMs now later) g.domain (g.nextSeq now) := by
  have hnot : ¬ now < g.lastMs := UInt64.not_lt.mpr hnow
  let id := pack (g.idMs now later) g.domain (g.nextSeq now)
  let count := if g.waits now then g.sleepCount + 1 else g.sleepCount
  refine ⟨⟨g.domain, g.idMs now later, g.nextSeq now, id, count⟩, ?_, rfl, rfl, rfl, rfl⟩
  simp only [next, if_neg hdomain, if_neg hnot]
  rfl

/-- The next id is greater than the last one, also behind a wait. -/
theorem lt_next_id {g : ActorIdGenerator} {now later high : UInt64}
    (hseq : g.seq.toNat < 2 ^ 8) (hlast : g.lastMs >>> 40 = high) (hmono : g.lastMs ≤ now)
    (hnow : now >>> 40 = high)
    (hwait : g.waits now = true → g.lastMs < later ∧ later >>> 40 = high) :
    pack g.lastMs g.domain g.seq < pack (g.idMs now later) g.domain (g.nextSeq now) := by
  cases hw : g.waits now with
  | true =>
      obtain ⟨hlt, hlater⟩ := hwait hw
      rw [idMs, if_pos hw]
      exact pack_lt_of_ms _ _ _ (hlast.trans hlater.symm) hlt
  | false =>
      rw [idMs, if_neg (by simp [hw])]
      by_cases heq : g.lastMs = now
      · subst heq
        exact pack_lt_of_seq _ _ (nextSeq_lt g _) (lt_nextSeq hseq rfl hw)
      · exact pack_lt_of_ms _ _ _ (hlast.trans hnow.symm) (UInt64.lt_of_le_of_ne hmono heq)

/-! ## Generators side by side -/

/-- A call of `next` on a generator: the clock shows `now`, and `later` if the
generator waits. -/
structure Call (ι : Type) where
  gen : ι
  now : UInt64
  later : UInt64

/-- Generators with what each has read of its clock, and the ids that were
returned. -/
structure World (ι : Type) where
  gen : ι → ActorIdGenerator
  readings : ι → List UInt64
  issued : List (ι × UInt64)

namespace World

variable {ι : Type}

/-- New generators, after `setup` of each. -/
def initial (domain : ι → UInt16) : World ι where
  gen i := (setup {} (domain i)).2
  readings _ := []
  issued := []

variable [DecidableEq ι]

def call (w : World ι) (c : Call ι) : World ι :=
  let g := w.gen c.gen
  let read := if g.waits c.now then [c.now, c.later] else [c.now]
  let w := { w with readings := Function.update w.readings c.gen (w.readings c.gen ++ read) }
  match g.next c.now c.later with
  | .error _ => w
  | .ok (id, g') =>
      { w with gen := Function.update w.gen c.gen g', issued := w.issued ++ [(c.gen, id)] }

/-- The ids of one generator, in the order of the calls. -/
def idsOf (w : World ι) (i : ι) : List UInt64 :=
  (w.issued.filter fun p ↦ p.1 = i).map (·.2)

/-- What is assumed of the clock: it does not go back, its values agree above
the lowest 40 bits, and `wait_next_ms` returns a time after `last_ms_`. -/
def Clocked (high : ι → UInt64) (w : World ι) (c : Call ι) : Prop :=
  (∀ r ∈ w.readings c.gen, r ≤ c.now) ∧ c.now >>> 40 = high c.gen ∧
    ((w.gen c.gen).waits c.now = true →
      c.now ≤ c.later ∧ (w.gen c.gen).lastMs < c.later ∧ c.later >>> 40 = high c.gen)

instance (high : ι → UInt64) (w : World ι) (c : Call ι) : Decidable (Clocked high w c) :=
  @instDecidableAnd _ _ (List.decidableBAll ..) (inferInstanceAs (Decidable (_ ∧ (_ → _))))

/-- A generator that has issued nothing, or what the last id was made of. -/
def Current (high : ι → UInt64) (w : World ι) (i : ι) : Prop :=
  ((w.gen i).lastMs = 0 ∧ ∀ p ∈ w.issued, p.1 ≠ i) ∨
    ((w.gen i).lastMs ∈ w.readings i ∧ (w.gen i).lastMs >>> 40 = high i ∧
      (w.gen i).lastId = pack (w.gen i).lastMs (w.gen i).domain (w.gen i).seq)

structure Inv (domain : ι → UInt16) (high : ι → UInt64) (w : World ι) : Prop where
  domains : ∀ i, (w.gen i).domain = domain i
  seqs : ∀ i, (w.gen i).seq.toNat < 2 ^ 8
  current : ∀ i, Current high w i
  issued : ∀ p ∈ w.issued, p.2 ≤ (w.gen p.1).lastId ∧ getDomainOf p.2 = domain p.1
  nodup : (w.issued.map (·.2)).Nodup
  increasing : ∀ i, (w.idsOf i).Pairwise (· < ·)

omit [DecidableEq ι] in
theorem setup_eq_ok {d : UInt16} (h : 1 ≤ d ∧ d ≤ 0xFFFE) :
    setup {} d = (.ok (), { domain := d }) := by
  have hlow : 1 ≤ d.toNat := h.1
  have hhigh : d.toNat ≤ 0xFFFE := h.2
  have hzero : d ≠ 0 := by
    rintro rfl
    simp at hlow
  have hbig : ¬ d ≥ 0xFFFF := by
    intro hge
    have hge' : 0xFFFF ≤ d.toNat := hge
    omega
  simp [setup, hzero, hbig]

theorem inv_initial {domain : ι → UInt16} (hdomain : ∀ i, 1 ≤ domain i ∧ domain i ≤ 0xFFFE)
    (high : ι → UInt64) : Inv domain high (initial domain) where
  domains i := by simp [initial, setup_eq_ok (hdomain i)]
  seqs i := by simp [initial, setup_eq_ok (hdomain i)]
  current i := .inl ⟨by simp [initial, setup_eq_ok (hdomain i)], by simp [initial]⟩
  issued p hp := absurd hp (by simp [initial])
  nodup := by simp [initial]
  increasing i := by simp [initial, idsOf]

/-- The world after the generator `i` has read its clock, has become `g` and has
returned its last id. -/
def issue (w : World ι) (i : ι) (read : List UInt64) (g : ActorIdGenerator) : World ι where
  gen := Function.update w.gen i g
  readings := Function.update w.readings i (w.readings i ++ read)
  issued := w.issued ++ [(i, g.lastId)]

section

variable {w : World ι} {i j : ι} {read : List UInt64} {g : ActorIdGenerator}

@[simp] theorem issue_gen_self : (w.issue i read g).gen i = g := Function.update_self ..

theorem issue_gen_of_ne (h : j ≠ i) : (w.issue i read g).gen j = w.gen j :=
  Function.update_of_ne h ..

@[simp] theorem issue_readings_self : (w.issue i read g).readings i = w.readings i ++ read :=
  Function.update_self ..

theorem issue_readings_of_ne (h : j ≠ i) : (w.issue i read g).readings j = w.readings j :=
  Function.update_of_ne h ..

theorem mem_issue_issued {p : ι × UInt64} :
    p ∈ (w.issue i read g).issued ↔ p ∈ w.issued ∨ p = (i, g.lastId) := by
  simp [issue]

theorem idsOf_issue_self : (w.issue i read g).idsOf i = w.idsOf i ++ [g.lastId] := by
  simp [idsOf, issue]

theorem idsOf_issue_of_ne (h : j ≠ i) : (w.issue i read g).idsOf j = w.idsOf j := by
  simp [idsOf, issue, h.symm]

end

/-- What a call leaves: a generator that has read its clock and whose last id is
above all its ids before. -/
structure Issues (high : ι → UInt64) (w : World ι) (i : ι) (read : List UInt64)
    (g : ActorIdGenerator) : Prop where
  domain : g.domain = (w.gen i).domain
  seq : g.seq.toNat < 2 ^ 8
  lastMs : g.lastMs ∈ read
  lastHigh : g.lastMs >>> 40 = high i
  lastId : g.lastId = pack g.lastMs g.domain g.seq
  above : ∀ p ∈ w.issued, p.1 = i → p.2 < g.lastId

theorem Inv.call_eq {domain : ι → UInt16} {high : ι → UInt64} {w : World ι}
    (hdomain : ∀ i, 1 ≤ domain i ∧ domain i ≤ 0xFFFE) (h : Inv domain high w) {c : Call ι}
    (hc : Clocked high w c) :
    ∃ read g, w.call c = w.issue c.gen read g ∧ Issues high w c.gen read g := by
  obtain ⟨hmono, hhigh, hwait⟩ := hc
  have hzero : (w.gen c.gen).domain ≠ 0 := by
    rw [h.domains]
    intro heq
    exact absurd (hdomain c.gen).1 (by rw [heq]; decide)
  have hnow : (w.gen c.gen).lastMs ≤ c.now := by
    rcases h.current c.gen with ⟨hlast, -⟩ | ⟨hmem, -, -⟩
    · rw [hlast]
      exact UInt64.zero_le
    · exact hmono _ hmem
  obtain ⟨g, hnext, hgdomain, hgms, hgseq, hgid⟩ := @next_eq_ok _ _ c.later hzero hnow
  refine ⟨if (w.gen c.gen).waits c.now then [c.now, c.later] else [c.now], g, ?_,
    hgdomain, ?_, ?_, ?_, ?_, ?_⟩
  · simp only [call, hnext, issue]
  · rw [hgseq]
    exact nextSeq_lt _ _
  · rw [hgms, idMs]
    split_ifs <;> simp
  · rw [hgms, idMs]
    split_ifs with hw
    · exact (hwait hw).2.2
    · exact hhigh
  · rw [hgid, hgms, hgdomain, hgseq]
  · intro p hp hgen
    rcases h.current c.gen with ⟨-, hnone⟩ | ⟨-, hlast, hid⟩
    · exact absurd hgen (hnone p hp)
    · have hle : p.2 ≤ (w.gen c.gen).lastId := by
        rw [← hgen]
        exact (h.issued p hp).1
      rw [hid] at hle
      rw [hgid]
      exact UInt64.lt_of_le_of_lt hle
        (lt_next_id (h.seqs c.gen) hlast hnow hhigh fun hw ↦ (hwait hw).2)

theorem Inv.issue {domain : ι → UInt16} {high : ι → UInt64} {w : World ι} {i : ι}
    {read : List UInt64} {g : ActorIdGenerator} (hinj : Function.Injective domain)
    (h : Inv domain high w) (hg : Issues high w i read g) :
    Inv domain high (w.issue i read g) := by
  have hgdomain : g.domain = domain i := hg.domain.trans (h.domains i)
  have hgetDomain : getDomainOf g.lastId = domain i := by
    rw [hg.lastId, getDomainOf_pack, hgdomain]
  refine ⟨fun j ↦ ?_, fun j ↦ ?_, fun j ↦ ?_, fun p hp ↦ ?_, ?_, fun j ↦ ?_⟩
  · by_cases hj : j = i
    · subst hj
      rwa [issue_gen_self]
    · rw [issue_gen_of_ne hj]
      exact h.domains j
  · by_cases hj : j = i
    · subst hj
      rw [issue_gen_self]
      exact hg.seq
    · rw [issue_gen_of_ne hj]
      exact h.seqs j
  · by_cases hj : j = i
    · subst hj
      refine .inr ⟨?_, ?_, ?_⟩
      · rw [issue_gen_self, issue_readings_self]
        exact List.mem_append_right _ hg.lastMs
      · rw [issue_gen_self]
        exact hg.lastHigh
      · rw [issue_gen_self]
        exact hg.lastId
    · rw [Current, issue_gen_of_ne hj, issue_readings_of_ne hj]
      apply (h.current j).imp_left
      rintro ⟨hlast, hnone⟩
      refine ⟨hlast, fun p hp ↦ ?_⟩
      rcases mem_issue_issued.mp hp with hold | rfl
      · exact hnone p hold
      · exact fun hgen ↦ hj hgen.symm
  · rcases mem_issue_issued.mp hp with hold | rfl
    · refine ⟨?_, (h.issued p hold).2⟩
      by_cases hj : p.1 = i
      · rw [hj, issue_gen_self]
        exact UInt64.le_of_lt (hg.above p hold hj)
      · rw [issue_gen_of_ne hj]
        exact (h.issued p hold).1
    · exact ⟨by rw [issue_gen_self]; exact UInt64.le_refl _, hgetDomain⟩
  · rw [World.issue, List.map_append, List.nodup_append]
    refine ⟨h.nodup, by simp, ?_⟩
    intro id hid id' hid' hsame
    obtain ⟨p, hp, rfl⟩ := List.mem_map.mp hid
    obtain rfl : id' = g.lastId := by simpa using hid'
    -- ids of one generator grow, ids of two generators differ in the domain
    by_cases hj : p.1 = i
    · exact absurd hsame (UInt64.ne_of_lt (hg.above p hp hj))
    · apply hj
      apply hinj
      rw [← (h.issued p hp).2, hsame, hgetDomain]
  · by_cases hj : j = i
    · subst hj
      rw [idsOf_issue_self, List.pairwise_append]
      refine ⟨h.increasing j, by simp, ?_⟩
      intro id hid id' hid'
      obtain rfl : id' = g.lastId := by simpa using hid'
      obtain ⟨p, hp, rfl⟩ := List.mem_map.mp hid
      obtain ⟨hmem, hgen⟩ := List.mem_filter.mp hp
      exact hg.above p hmem (by simpa using hgen)
    · rw [idsOf_issue_of_ne hj]
      exact h.increasing j

/-- Every call on a generator that was set up returns an id. -/
theorem Inv.call {domain : ι → UInt16} {high : ι → UInt64} {w : World ι}
    (hinj : Function.Injective domain) (hdomain : ∀ i, 1 ≤ domain i ∧ domain i ≤ 0xFFFE)
    (h : Inv domain high w) {c : Call ι} (hc : Clocked high w c) :
    Inv domain high (w.call c) ∧ (w.call c).issued.length = w.issued.length + 1 := by
  obtain ⟨read, g, heq, hg⟩ := h.call_eq hdomain hc
  rw [heq]
  exact ⟨h.issue hinj hg, by simp [World.issue]⟩

theorem Inv.calls {domain : ι → UInt16} {high : ι → UInt64}
    (hinj : Function.Injective domain) (hdomain : ∀ i, 1 ≤ domain i ∧ domain i ≤ 0xFFFE)
    {calls : List (Call ι)} {w : World ι} (h : Inv domain high w)
    (hcalls : Throughout World.call (Clocked high) w calls) :
    Inv domain high (calls.foldl World.call w) ∧
      (calls.foldl World.call w).issued.length = w.issued.length + calls.length := by
  induction calls generalizing w with
  | nil => exact ⟨h, rfl⟩
  | cons c calls ih =>
      obtain ⟨hc, hrest⟩ := hcalls
      obtain ⟨hcall, hone⟩ := h.call hinj hdomain hc
      obtain ⟨hinv, hlength⟩ := ih hcall hrest
      refine ⟨hinv, ?_⟩
      rw [List.foldl_cons, hlength, hone, List.length_cons]
      omega

/-- Generators with different domains never return one id twice, each returns
them in increasing order, and the domain can be read back. -/
theorem issued_unique_ordered (domain : ι → UInt16) (hinj : Function.Injective domain)
    (hdomain : ∀ i, 1 ≤ domain i ∧ domain i ≤ 0xFFFE) (high : ι → UInt64)
    (calls : List (Call ι))
    (hcalls : Throughout World.call (Clocked high) (initial domain) calls) :
    let w := calls.foldl World.call (initial domain)
    w.issued.length = calls.length ∧ (w.issued.map (·.2)).Nodup ∧
      (∀ i, (w.idsOf i).Pairwise (· < ·)) ∧
      ∀ p ∈ w.issued, getDomainOf p.2 = (w.gen p.1).domain ∧ getDomainOf p.2 = domain p.1 := by
  obtain ⟨h, hlength⟩ := (inv_initial hdomain high).calls hinj hdomain hcalls
  refine ⟨by simpa [initial] using hlength, h.nodup, h.increasing, fun p hp ↦ ?_⟩
  rw [h.domains]
  exact ⟨(h.issued p hp).2, (h.issued p hp).2⟩

/-- Two generators and four calls, two of them in one millisecond. -/
theorem issued_unique_ordered_two :
    let calls : List (Call Bool) :=
      [⟨true, 5, 0⟩, ⟨true, 5, 0⟩, ⟨false, 5, 0⟩, ⟨true, 6, 0⟩]
    let w := calls.foldl World.call (initial fun b ↦ if b then 1 else 2)
    w.issued.length = calls.length ∧ (w.issued.map (·.2)).Nodup ∧
      (∀ i, (w.idsOf i).Pairwise (· < ·)) ∧
      ∀ p ∈ w.issued, getDomainOf p.2 = (w.gen p.1).domain ∧
        getDomainOf p.2 = if p.1 then 1 else 2 := by
  have hinj : Function.Injective fun b : Bool ↦ if b then (1 : UInt16) else 2 := by
    intro a b h
    revert a b
    decide
  exact issued_unique_ordered _ hinj (by decide) (fun _ ↦ 0) _ (by decide +kernel)

end World

end ActorIdGenerator

end WiseKernel.Server
