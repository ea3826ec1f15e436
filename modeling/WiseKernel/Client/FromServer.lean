import WiseKernel.Client.Chunks
import WiseKernel.Net.Connection

/-!
# From the server to the client

What threads send on one connection of the kernel, cut into the arrays that the client's socket
fills: the packets come out in the order in which their frames were appended.
-/

namespace WiseKernel.Client

open WiseKernel.Lib WiseKernel.Net

variable {P Q S T : Type} {E : Env P S} {F : Net.Env Q}

/-- The client has a packet with the frame that the server packs, and reads it. -/
structure Mirrors (E : Env P S) (F : Net.Env Q) (q : Q) (packet : P) : Prop where
  plain : Plain E packet
  frame_eq : frame E packet = packed F q

theorem wires_eq_of_mirrors {sent : List (T × Q)} {packets : List P}
    (h : List.Forall₂ (fun e packet ↦ Mirrors E F e.2 packet) sent packets) :
    wires (sent.map fun e ↦ plainFrame F e.2) = (packets.map (frame E)).flatten := by
  induction h with
  | nil => rfl
  | @cons e packet sent packets hmirrors _ ih =>
      rw [List.map_cons, List.map_cons, List.flatten_cons, ← ih, hmirrors.frame_eq]
      rfl

theorem plain_of_mirrors {sent : List (T × Q)} {packets : List P}
    (h : List.Forall₂ (fun e packet ↦ Mirrors E F e.2 packet) sent packets) :
    ∀ packet ∈ packets, Plain E packet := by
  induction h with
  | nil => exact fun _ hmem ↦ absurd hmem List.not_mem_nil
  | cons hmirrors _ ih =>
      intro packet hmem
      rcases List.mem_cons.mp hmem with rfl | hmem
      · exact hmirrors.plain
      · exact ih packet hmem

variable [DecidableEq T] {c : Connection T Q} {packets : List P} {calls : List RecvCall}

/-- In every interleaving of the server's threads and its session: no call of the client fails as
long as each of them leaves less than a header at the front, the client posts the packets in the
order in which they were appended, and all of them when all bytes have arrived. -/
theorem client_posts {t : T}
    (h : Reaches (Connection.step F) (Connection.Plain F) (Connection.initial t) c)
    (hpackets : List.Forall₂ (fun e packet ↦ Mirrors E F e.2 packet) c.sent packets)
    (hlen : ∀ call ∈ calls, call.2 ≤ call.1.length) (hstream : arrived calls <+: c.wire)
    (hcalls : ∀ before call after, calls = before ++ call :: after →
      LeavesFront (packets.map (frame E)) (arrived before) (call.1.take call.2)) (packer : S)
    {fuel : ℕ} (hfuel : packets.length < fuel) :
    ∃ proto posted, onRecvAll E fuel (.initial packer) calls =
        some (calls.map fun _ ↦ .returned .success, proto, posted) ∧
      posted <+: packets ∧
      (c.session.isOpen = true → c.session.SendQuiet → arrived calls = c.wire →
        posted = packets) := by
  have hinv := Connection.inv_of_reaches h
  have hplain := plain_of_mirrors hpackets
  have hwires : wires (c.frames F) = (packets.map (frame E)).flatten :=
    wires_eq_of_mirrors hpackets
  -- the same frames as the client itself would send
  obtain ⟨sendBuf, hsent, -⟩ := sendAll_plain hplain (m := .initial) BackedStream.empty_inside
  have harrived : arrived calls <+: appended .empty sendBuf := by
    rw [appended_sendAll hplain BackedStream.empty_inside hsent, ← hwires]
    exact hstream.trans hinv.wire_prefix
  obtain ⟨proto, hrun, -⟩ := onRecvAll_chunks hplain BackedStream.empty_inside hsent hlen harrived
    hcalls packer hfuel
  refine ⟨proto, _, hrun, List.take_prefix _ _, fun hopen hquiet hall ↦ ?_⟩
  have hcomplete := complete_append (packets.map (frame E)) [] 0
  rw [List.append_nil, Nat.add_zero] at hcomplete
  rw [hall, Connection.wire_eq_of_quiet hinv hopen hquiet, hwires, hcomplete, List.length_map]
  exact List.take_length

/-- A byte of one thread of the server, in two pieces. -/
theorem client_posts_byte : ∃ c : Connection Bool UInt8, ∃ proto posted,
    c.called = [(true, 5)] ∧
      onRecvAll (recordEnv {} {} 1) 2 (.initial [0])
        [([9, 0], 2), ([0, 0, 0x01, 0x00, 0x01, 0x02, 5], 7)] =
          some ([.returned .success, .returned .success], proto, posted) ∧
      posted <+: [[5]] := by
  obtain ⟨c, hreach, hc⟩ := @exists_reaches _ _ (Connection.step byteEnv)
    (Connection.Plain byteEnv) (Connection.initial false) Connection.byteRun
    (fun c ↦ c.called == [(true, 5)] && c.sent == [(true, 5)] &&
      c.wire == [9, 0, 0, 0, 0x01, 0x00, 0x01, 0x02, 5])
    (fun c act _ ↦ Connection.plain_byte c act) rfl
  simp only [Bool.and_eq_true, beq_iff_eq] at hc
  obtain ⟨⟨hcalled, hsent⟩, hwire⟩ := hc
  have hmirrors : Mirrors (recordEnv {} {} 1) byteEnv 5 [5] := ⟨plain_record rfl, rfl⟩
  obtain ⟨proto, posted, hrun, hbeginning, -⟩ :=
    @client_posts _ _ _ _ (recordEnv {} {} 1) byteEnv _ c [[5]]
      [([9, 0], 2), ([0, 0, 0x01, 0x00, 0x01, 0x02, 5], 7)] false hreach
      (by rw [hsent]; exact .cons hmirrors .nil) (by decide) (by rw [hwire]; decide)
      (by
        rintro (_ | ⟨c₁, _ | ⟨c₂, before⟩⟩) call after hsplit
        · simp only [List.nil_append, List.cons.injEq] at hsplit
          rw [← hsplit.1]
          exact ⟨by decide, by decide⟩
        · simp only [List.cons_append, List.nil_append, List.cons.injEq] at hsplit
          rw [← hsplit.1, ← hsplit.2.1]
          exact ⟨by decide, by decide⟩
        · simp at hsplit) [0] 2 (by decide)
  exact ⟨c, proto, posted, hcalled, hrun, hbeginning⟩

end WiseKernel.Client
