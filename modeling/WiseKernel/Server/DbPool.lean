import Mathlib.Data.List.Basic
import Mathlib.Tactic.Common
import WiseKernel.Core.Topic

/-!
# Commands of a database runner

`db_pool` keeps a prepared command for each database and topic, in a `std::map` whose order
compares both parts at once.  Keys that it does not order are one key to the map.
-/

namespace WiseKernel.Server

open WiseKernel.Core

/-! ## Maps by an order -/

section

variable {κ ν : Type} (less : κ → κ → Prop) [DecidableRel less]

/-- What an ordered map takes for the same key. -/
def Same (a b : κ) : Prop := ¬ less a b ∧ ¬ less b a

instance : DecidableRel (Same less) :=
  fun a b ↦ inferInstanceAs (Decidable (¬ less a b ∧ ¬ less b a))

def findSame (entries : List (κ × ν)) (key : κ) : Option ν :=
  (entries.find? fun e ↦ Same less e.1 key).map Prod.snd

end

/-! ## The pool -/

/-- `db_pool::cmd_key`. -/
structure CmdKey where
  db : String
  pic : Topic
  deriving DecidableEq, Repr

/-- `cmd_key::operator<`. -/
def CmdKey.less (a b : CmdKey) : Prop := a.db < b.db ∧ a.pic.key < b.pic.key

instance : DecidableRel CmdKey.less :=
  fun a b ↦ inferInstanceAs (Decidable (a.db < b.db ∧ a.pic.key < b.pic.key))

/-- `db_command`: its statement is the query, prepared on the connection of its database. -/
structure DbCommand where
  db : String
  pic : Topic
  query : String
  deriving DecidableEq, Repr

def DbCommand.key (c : DbCommand) : CmdKey := ⟨c.db, c.pic⟩

/-- `dbs` are the databases with a connection. -/
structure DbPool where
  dbs : List String
  cmds : List (CmdKey × DbCommand)
  deriving Repr

namespace DbPool

def hasDb (p : DbPool) (db : String) : Bool := db ∈ p.dbs

def hasCommand (p : DbPool) (db : String) (pic : Topic) : Bool :=
  (findSame CmdKey.less p.cmds ⟨db, pic⟩).isSome

/-- `get`; `prepared` is whether the statement can be opened and prepared. -/
def get (p : DbPool) (db : String) (pic : Topic) (query : String) (prepared : Bool) :
    Option DbCommand × DbPool :=
  match findSame CmdKey.less p.cmds ⟨db, pic⟩ with
  | some cmd => (some cmd, p)
  | none =>
      if p.hasDb db && prepared then
        (some ⟨db, pic, query⟩,
          { p with cmds := p.cmds ++ [(⟨db, pic⟩, ⟨db, pic, query⟩)] })
      else (none, p)

/-- A call of `get`, and whether its statement can be opened and prepared. -/
structure Request where
  db : String
  pic : Topic
  query : String
  prepared : Bool
  deriving DecidableEq, Repr

def Request.key (q : Request) : CmdKey := ⟨q.db, q.pic⟩

def Request.command (q : Request) : DbCommand := ⟨q.db, q.pic, q.query⟩

/-- The answers to a history of calls. -/
def commands (p : DbPool) : List Request → List (Option DbCommand)
  | [] => []
  | q :: qs => (p.get q.db q.pic q.query q.prepared).1 ::
      commands (p.get q.db q.pic q.query q.prepared).2 qs

/-! ## Own commands -/

/-- The order tells any two of the keys apart. -/
def ToldApart (calls : List Request) : Prop :=
  ∀ a ∈ calls, ∀ b ∈ calls, a.key ≠ b.key → a.key.less b.key ∨ b.key.less a.key

/-- The pool holds the commands of the calls so far, under their own keys. -/
structure Keeps (p : DbPool) (calls : List Request) : Prop where
  own : ∀ e ∈ p.cmds, e.2.key = e.1
  called : ∀ e ∈ p.cmds, ∃ q ∈ calls, q.key = e.1
  kept : ∀ q ∈ calls, ∃ e ∈ p.cmds, e.1 = q.key

variable {p : DbPool} {calls qs : List Request} {q : Request}

theorem ToldApart.eq (h : ToldApart calls) {a b : Request} (ha : a ∈ calls) (hb : b ∈ calls)
    (hsame : Same CmdKey.less a.key b.key) : a.key = b.key := by
  by_contra hne
  rcases h a ha b hb hne with hless | hless
  · exact hsame.1 hless
  · exact hsame.2 hless

theorem ToldApart.mono (h : ToldApart qs) (hsub : ∀ q ∈ calls, q ∈ qs) : ToldApart calls :=
  fun a ha b hb ↦ h a (hsub a ha) b (hsub b hb)

theorem keeps_nil (hnew : p.cmds = []) : Keeps p [] := by
  constructor <;> simp [hnew]

theorem findSame_eq_some {cmds : List (CmdKey × DbCommand)} {key : CmdKey} {cmd : DbCommand}
    (h : findSame CmdKey.less cmds key = some cmd) :
    ∃ e ∈ cmds, Same CmdKey.less e.1 key ∧ e.2 = cmd := by
  obtain ⟨e, he, hcmd⟩ := Option.map_eq_some_iff.mp h
  have hsame := List.find?_some he
  exact ⟨e, List.mem_of_find?_eq_some he, by simpa using hsame, hcmd⟩

theorem findSame_eq_none {cmds : List (CmdKey × DbCommand)} {key : CmdKey}
    (h : findSame CmdKey.less cmds key = none) : ∀ e ∈ cmds, ¬ Same CmdKey.less e.1 key := by
  intro e he hsame
  have hnot := List.find?_eq_none.mp (Option.map_eq_none_iff.mp h) e he
  exact hnot (decide_eq_true hsame)

/-- A command that is there answers the call. -/
theorem Keeps.get_found (h : Keeps p calls) {cmd : DbCommand}
    (hfound : findSame CmdKey.less p.cmds q.key = some cmd) :
    p.get q.db q.pic q.query q.prepared = (some cmd, p) ∧
      ∃ a ∈ calls, Same CmdKey.less a.key q.key ∧ a.key = cmd.key := by
  obtain ⟨e, he, hsame, rfl⟩ := findSame_eq_some hfound
  obtain ⟨a, ha, hkey⟩ := h.called e he
  refine ⟨?_, a, ha, hkey ▸ hsame, hkey.trans (h.own e he).symm⟩
  rw [Request.key] at hfound
  simp only [DbPool.get, hfound]

/-- A command is made. -/
theorem Keeps.get_made (h : Keeps p calls) (hmade : q.db ∈ p.dbs ∧ q.prepared)
    (hnone : findSame CmdKey.less p.cmds q.key = none) :
    (p.get q.db q.pic q.query q.prepared).1 = some q.command ∧
      Keeps (p.get q.db q.pic q.query q.prepared).2 (calls ++ [q]) := by
  have hget : p.get q.db q.pic q.query q.prepared =
      (some q.command, { p with cmds := p.cmds ++ [(q.key, q.command)] }) := by
    rw [Request.key] at hnone
    simp only [DbPool.get, hnone, hasDb, hmade, decide_true, Bool.and_self, if_true,
      Request.key, Request.command]
  rw [hget]
  refine ⟨rfl, ?_, ?_, ?_⟩
  · intro e he
    rcases List.mem_append.mp he with he | he
    · exact h.own e he
    · rw [List.mem_singleton.mp he]
      rfl
  · intro e he
    rcases List.mem_append.mp he with he | he
    · obtain ⟨a, ha, hkey⟩ := h.called e he
      exact ⟨a, List.mem_append_left _ ha, hkey⟩
    · rw [List.mem_singleton.mp he]
      exact ⟨q, List.mem_append_right _ (List.mem_singleton_self q), rfl⟩
  · intro a ha
    rcases List.mem_append.mp ha with ha | ha
    · obtain ⟨e, he, hkey⟩ := h.kept a ha
      exact ⟨e, List.mem_append_left _ he, hkey⟩
    · rw [List.mem_singleton.mp ha]
      exact ⟨_, List.mem_append_right _ (List.mem_singleton_self _), rfl⟩

/-- While the keys so far are told apart, a call gets its own command exactly when its key is
told from them too. -/
theorem Keeps.get_own_iff (h : Keeps p calls) (hcalls : ToldApart calls)
    (hmade : q.db ∈ p.dbs ∧ q.prepared) :
    (p.get q.db q.pic q.query q.prepared).1.map DbCommand.key = some q.key ↔
      ToldApart (calls ++ [q]) := by
  cases hfound : findSame CmdKey.less p.cmds q.key with
  | none =>
      rw [(h.get_made hmade hfound).1]
      refine iff_of_true rfl ?_
      -- nothing in the pool is the same as the key
      have hnot (a : Request) (ha : a ∈ calls) : ¬ Same CmdKey.less a.key q.key := by
        obtain ⟨e, he, hkey⟩ := h.kept a ha
        rw [← hkey]
        exact findSame_eq_none hfound e he
      have hless (a : Request) (ha : a ∈ calls) : a.key.less q.key ∨ q.key.less a.key := by
        by_contra hnone
        exact hnot a ha (not_or.mp hnone)
      intro a ha b hb hne
      rcases List.mem_append.mp ha with ha | ha <;> rcases List.mem_append.mp hb with hb | hb
      · exact hcalls a ha b hb hne
      · rw [List.mem_singleton.mp hb]
        exact hless a ha
      · rw [List.mem_singleton.mp ha]
        exact (hless b hb).symm
      · rw [List.mem_singleton.mp ha, List.mem_singleton.mp hb] at hne
        exact absurd rfl hne
  | some cmd =>
      obtain ⟨hget, a, ha, hsame, hkey⟩ := h.get_found hfound
      rw [hget, Option.map_some, Option.some_inj, ← hkey]
      constructor
      · intro hown b hb c hc hne
        -- the key was there, among keys that are told apart
        have hearlier (b : Request) (hb : b ∈ calls ++ [q]) : ∃ b' ∈ calls, b'.key = b.key := by
          rcases List.mem_append.mp hb with hb | hb
          · exact ⟨b, hb, rfl⟩
          · rw [List.mem_singleton.mp hb]
            exact ⟨a, ha, hown⟩
        obtain ⟨b', hb', hkeyb⟩ := hearlier b hb
        obtain ⟨c', hc', hkeyc⟩ := hearlier c hc
        rw [← hkeyb, ← hkeyc] at hne ⊢
        exact hcalls b' hb' c' hc' hne
      · intro hall
        exact hall.eq (List.mem_append_left _ ha)
          (List.mem_append_right _ (List.mem_singleton_self q)) hsame

theorem Keeps.get (h : Keeps p calls) (hmade : q.db ∈ p.dbs ∧ q.prepared)
    (hown : (p.get q.db q.pic q.query q.prepared).1.map DbCommand.key = some q.key) :
    Keeps (p.get q.db q.pic q.query q.prepared).2 (calls ++ [q]) := by
  cases hfound : findSame CmdKey.less p.cmds q.key with
  | none => exact (h.get_made hmade hfound).2
  | some cmd =>
      obtain ⟨hget, a, ha, -, hkey⟩ := h.get_found hfound
      rw [hget, Option.map_some, Option.some_inj, ← hkey] at hown
      rw [hget]
      refine ⟨h.own, ?_, ?_⟩
      · intro e he
        obtain ⟨b, hb, hkeyb⟩ := h.called e he
        exact ⟨b, List.mem_append_left _ hb, hkeyb⟩
      · intro b hb
        rcases List.mem_append.mp hb with hb | hb
        · exact h.kept b hb
        · obtain ⟨e, he, hkeye⟩ := h.kept a ha
          rw [List.mem_singleton.mp hb]
          exact ⟨e, he, hkeye.trans hown⟩

theorem dbs_get (p : DbPool) (q : Request) :
    (p.get q.db q.pic q.query q.prepared).2.dbs = p.dbs := by
  rw [DbPool.get]
  split
  · rfl
  · split_ifs <;> rfl

theorem Keeps.commands_iff (h : Keeps p calls) (hcalls : ToldApart calls)
    (hmade : ∀ q ∈ qs, q.db ∈ p.dbs ∧ q.prepared) :
    ((p.commands qs).map (Option.map DbCommand.key) = qs.map fun q ↦ some q.key) ↔
      ToldApart (calls ++ qs) := by
  induction qs generalizing p calls with
  | nil =>
      rw [List.append_nil]
      exact iff_of_true rfl hcalls
  | cons q qs ih =>
      rw [List.forall_mem_cons] at hmade
      have happend : calls ++ q :: qs = calls ++ [q] ++ qs := List.append_cons calls q qs
      rw [commands, List.map_cons, List.map_cons, List.cons.injEq, h.get_own_iff hcalls hmade.1,
        happend]
      have hrest (happart : ToldApart (calls ++ [q])) := ih
        (h.get hmade.1 ((h.get_own_iff hcalls hmade.1).mpr happart)) happart fun r hr ↦ by
          rw [dbs_get]
          exact hmade.2 r hr
      constructor
      · rintro ⟨happart, hcommands⟩
        exact (hrest happart).mp hcommands
      · intro hall
        have happart : ToldApart (calls ++ [q]) :=
          hall.mono fun r hr ↦ List.mem_append_left _ hr
        exact ⟨happart, (hrest happart).mpr hall⟩

/-- Every call gets a command of its own database and topic exactly when the order tells any
two of the keys apart. -/
theorem commands_own_iff (hnew : p.cmds = []) (hmade : ∀ q ∈ qs, q.db ∈ p.dbs ∧ q.prepared) :
    ((p.commands qs).map (Option.map DbCommand.key) = qs.map fun q ↦ some q.key) ↔
      ∀ a ∈ qs, ∀ b ∈ qs, a.key ≠ b.key → a.key.less b.key ∨ b.key.less a.key :=
  (keeps_nil hnew).commands_iff (fun a ha ↦ by cases ha) hmade

/-- One database: what it prepared for its first topic answers the second one too. -/
theorem commands_own_iff_two_topics :
    ¬ ((DbPool.mk ["game"] []).commands
        [⟨"game", Topic.make 3 5 1, "call login", true⟩,
          ⟨"game", Topic.make 3 5 2, "call save", true⟩]).map (Option.map DbCommand.key) =
      [some ⟨"game", Topic.make 3 5 1⟩, some ⟨"game", Topic.make 3 5 2⟩] := by
  intro h
  have hordered := (@commands_own_iff (DbPool.mk ["game"] [])
    [⟨"game", Topic.make 3 5 1, "call login", true⟩,
      ⟨"game", Topic.make 3 5 2, "call save", true⟩] rfl (by decide)).mp h
  exact absurd hordered (by decide)

end DbPool

end WiseKernel.Server
