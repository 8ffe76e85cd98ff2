import WriteBehind.Proofs.Buffer.Dispatch
import WriteBehind.Proofs.Queue.Teardown

/-!
# Dispatch

A worker that comes to an entry takes the oldest whose identity is not in flight. If there is one worker,
nothing is in flight when it looks for an entry, so the stores begin in the order of the numbers.
-/

namespace WriteBehind.Queue

variable {κ ι : Type} [DecidableEq κ] {s t : State κ ι} {out o : List (Notice κ ι)}
  {accepted : List (Acceptance κ ι)} {a? : Option (Acceptance κ ι)} {w w' : Nat} {e e' : Claimed κ ι}

/-! ## Entries that workers come to -/

theorem Tended.comes_to_oldest (hs : Tended s) (turn : Turn s t o a?) (hn : s.draining w = none)
    (he : t.draining w = some e) : s.buffer.Oldest e := by
  obtain ⟨_, _, hd⟩ | ⟨_, _, _, _, hd⟩ | ⟨w', e', _, _, hb, hd⟩ | ⟨w', e', _, _, _, _, _, hd⟩ :=
    turn.entries
  · rw [hd, hn] at he
    cases he
  · rw [hd, hn] at he
    cases he
  · rw [hd] at he
    split at he
    · cases he
      exact hs.valid.claim_oldest hb
    · rw [hn] at he
      cases he
  · rw [hd] at he
    split at he
    · cases he
    · rw [hn] at he
      cases he

theorem Tended.idle_before (hs : Tended s) (turn : Turn s t o a?) (ho : s.buffer.Oldest e)
    (he : t.draining w = some e) : s.draining w = none := by
  have hnot : s.draining w ≠ some e := by
    intro hw
    have := hs.flight_of hw
    rw [ho.free] at this
    cases this
  obtain ⟨_, _, hd⟩ | ⟨_, _, _, _, hd⟩ | ⟨w', e', _, hw', _, hd⟩ | ⟨w', e', _, _, _, _, _, hd⟩ :=
    turn.entries
  · exact absurd (hd w ▸ he) hnot
  · exact absurd (hd w ▸ he) hnot
  · rw [hd] at he
    split at he
    · rename_i hw
      exact hw ▸ hw'
    · exact absurd he hnot
  · rw [hd] at he
    split at he
    · cases he
    · exact absurd he hnot

/-! ## One worker -/

omit [DecidableEq κ] in
theorem alone_eq (alone : s.workers.length = 1) (hw : s.draining w = some e) : w = 0 := by
  obtain ⟨ph, hph, _⟩ := Option.bind_eq_some_iff.mp hw
  have := (List.getElem?_eq_some_iff.mp hph).1
  omega

/-- Stores have begun in the order of the numbers, and all that have not begun are of younger entries. -/
structure InTurn (out : List (Notice κ ι)) (s : State κ ι) : Prop where
  sorted : ((invocations out).map (·.sequence)).Pairwise (· < ·)
  pending : ∀ e ∈ invocations out, ∀ k q, s.buffer.Waits k q → e.sequence < q
  held : ∀ w e', s.awaiting w = some e' →
    (∀ e ∈ invocations out, e.sequence < e'.sequence) ∧ ∀ k q, s.buffer.Waits k q → e'.sequence < q

theorem InTurn.still (h : InTurn out s) (quiet : invocations o = [])
    (pending : ∀ k q, t.buffer.Waits k q → s.buffer.Waits k q)
    (awaiting : ∀ w e, t.awaiting w = some e → s.awaiting w = some e) : InTurn (out ++ o) t := by
  have ho : invocations (out ++ o) = invocations out := by
    rw [invocations_append, quiet, List.append_nil]
  refine ⟨ho ▸ h.sorted, ?_, ?_⟩
  · rw [ho]
    exact fun e he k q hw => h.pending e he k q (pending k q hw)
  · rw [ho]
    intro w e' he'
    obtain ⟨hout, hwaits⟩ := h.held w e' (awaiting w e' he')
    exact ⟨hout, fun k q hw => hwaits k q (pending k q hw)⟩

theorem InTurn.accept {a : Acceptance κ ι} (h : InTurn out s) (hs : Tended s) (hl : Ledger accepted out s)
    (quiet : invocations o = []) (buffer : t.buffer = (s.buffer.insert a.key a.item).2)
    (awaiting : ∀ w, t.awaiting w = s.awaiting w) : InTurn (out ++ o) t := by
  have ho : invocations (out ++ o) = invocations out := by
    rw [invocations_append, quiet, List.append_nil]
  have hwaits : ∀ {k q}, t.buffer.Waits k q → s.buffer.Waits k q ∨ q = s.buffer.last.next := by
    intro k q hw
    rw [buffer] at hw
    exact ((Buffer.insert_waits _ _ _ _ _).mp hw).imp_right fun hnew => hnew.2.2
  have habove : ∀ {q q' : Sequence}, q ≤ s.buffer.last → q' = s.buffer.last.next → q < q' := by
    rintro q q' hle rfl
    exact Nat.lt_of_le_of_lt hle (Sequence.lt_next _)
  refine ⟨ho ▸ h.sorted, ?_, ?_⟩
  · rw [ho]
    intro e he k q hw
    obtain ⟨w, c, hn⟩ := mem_invocations.mp he
    exact (hwaits hw).elim (h.pending e he k q) (habove (hl.noticed_le hn rfl))
  · rw [ho]
    intro w e' he'
    rw [awaiting] at he'
    obtain ⟨hout, hlater⟩ := h.held w e' he'
    have hflight := hs.flight_of (State.draining_of_awaiting he')
    have hle := hs.valid.le_last _ (hs.valid.flight_mem hflight)
    exact ⟨hout, fun k q hw => (hwaits hw).elim (hlater k q) (habove hle)⟩

theorem InTurn.claim (h : InTurn out s) (hs : Tended s) (nobody : ∀ w, s.draining w = none)
    (buffer : s.buffer.claim = (some e, t.buffer))
    (awaiting : ∀ w', t.awaiting w' = if w = w' then some e else s.awaiting w') : InTurn out t := by
  have ho := hs.valid.claim_oldest buffer
  have hwaits : ∀ {k q}, t.buffer.Waits k q → s.buffer.Waits k q ∧ k ≠ e.key := by
    intro k q hw
    obtain ⟨_, _, l₁, l₂, _, _, hb⟩ := hs.valid.claim_some buffer
    rw [hb] at hw
    exact (Buffer.waits_erase _ _ _ _ _ _).mp hw
  -- Nothing is in flight, so the entry is the oldest of all that are pending.
  have hfree : ∀ k, s.buffer.inFlight.get? k = none := by
    intro k
    rw [Option.eq_none_iff_forall_ne_some]
    intro q hq
    obtain ⟨w', e', hw', _⟩ := (hs.flight k q).mp hq
    rw [nobody] at hw'
    cases hw'
  refine ⟨h.sorted, fun e' he' k q hw => h.pending e' he' k q (hwaits hw).1, ?_⟩
  intro w' e' he'
  rw [awaiting] at he'
  split at he'
  · cases he'
    refine ⟨fun e' he' => h.pending e' he' e.key _ ⟨_, ho.pending, rfl⟩, fun k q hw => ?_⟩
    obtain ⟨⟨p, hp, rfl⟩, hne⟩ := hwaits hw
    refine Nat.lt_of_le_of_ne (ho.least k p hp (hfree k)) fun heq => hne ?_
    exact hs.valid.waits_inj ⟨p, hp, rfl⟩ ⟨_, ho.pending, congrArg Sequence.mk heq⟩
  · have := State.draining_of_awaiting he'
    rw [nobody] at this
    cases this

theorem InTurn.invoke (h : InTurn out s) (alone : s.workers.length = 1) (c : Connection)
    (before : s.awaiting w = some e) (buffer : t.buffer = s.buffer)
    (awaiting : ∀ w', t.awaiting w' = if w = w' then none else s.awaiting w') :
    InTurn (out ++ [.invoked w e c]) t := by
  obtain ⟨hout, hlater⟩ := h.held w e before
  have ho : invocations (out ++ [.invoked w e c]) = invocations out ++ [e] := invocations_append ..
  refine ⟨?_, ?_, ?_⟩
  · rw [ho, List.map_append]
    refine List.pairwise_append.mpr ⟨h.sorted, List.pairwise_singleton _ _, ?_⟩
    intro q hq q' hq'
    obtain ⟨e', he', rfl⟩ := List.mem_map.mp hq
    rw [List.mem_singleton.mp hq']
    exact hout e' he'
  · rw [ho, buffer]
    intro e' he' k q hw
    rcases List.mem_append.mp he' with he' | he'
    · exact h.pending e' he' k q hw
    · rw [List.mem_singleton.mp he']
      exact hlater k q hw
  · intro w' e' he'
    rw [awaiting] at he'
    split at he'
    · cases he'
    · rename_i hne
      have hw := alone_eq alone (State.draining_of_awaiting before)
      have hw' := alone_eq alone (State.draining_of_awaiting he')
      exact absurd (hw.trans hw'.symm) hne

theorem InTurn.turn (h : InTurn out s) (hs : Tended s) (hl : Ledger accepted out s)
    (alone : s.workers.length = 1) (turn : Turn s t o a?) : InTurn (out ++ o) t := by
  have waits : ∀ {pending : Table κ (Pending ι)}, t.buffer.pending = pending → pending = s.buffer.pending →
      ∀ k q, t.buffer.Waits k q → s.buffer.Waits k q := by
    rintro _ rfl hp k q ⟨p, hw, hq⟩
    exact ⟨p, hp ▸ hw, hq⟩
  cases turn.passes with
  | still quiet pending awaiting =>
    exact h.still quiet (waits rfl pending) fun w e he => awaiting w ▸ he
  | accept a quiet buffer awaiting => exact h.accept hs hl quiet buffer awaiting
  | claim w e before buffer awaiting =>
    have hw : t.draining w = some e := State.draining_of_awaiting (by rw [awaiting, if_pos rfl])
    have hidle := hs.idle_before turn (hs.valid.claim_oldest buffer) hw
    have hzero := alone_eq (turn.size.trans alone) hw
    rw [List.append_nil]
    refine h.claim hs (fun w' => ?_) buffer awaiting
    cases hw' : s.draining w' with
    | none => rfl
    | some e' => rw [alone_eq alone hw', ← hzero, hidle] at hw'; cases hw'
  | refuse w e before _ buffer awaiting =>
    refine h.still rfl (waits rfl (by rw [buffer])) fun w' e' he' => ?_
    rw [awaiting] at he'
    split at he'
    · cases he'
    · exact he'
  | invoke w e c before buffer awaiting => exact h.invoke alone c before buffer awaiting

/-! ## Runs -/

variable [Named κ] {config : QueueConfig} {connections : List Connection} {events : List (Event κ ι)}

theorem Begins.in_turn (h : Begins config connections s) (one : config.workers = 1)
    (hr : run s events = some (t, out)) : InTurn out t := by
  have : t.workers.length = 1 ∧ InTurn out t := by
    refine run_induction (P := fun _ out t => t.workers.length = 1 ∧ InTurn out t) ⟨?_, .nil, ?_, ?_⟩ ?_ hr
    · obtain ⟨pool, _, _, rfl⟩ := h.eq
      simp [one]
    · simp [invocations]
    · simp [h.awaiting]
    · intro events o t e u o' hr hp he
      obtain ⟨alone, hp⟩ := hp
      have ht := h.tended.run hr
      have turn := step_turn ht.balanced he
      exact ⟨turn.size.trans alone, hp.turn ht (h.ledger hr) alone turn⟩
  exact this.2

/-- Entries are dispatched oldest first. In every buffer that proper operations lead to, a claim takes the
oldest pending entry whose identity is not in flight; there is none exactly if every pending identity is in
flight, and then nothing changes. The order loses only the entry that is claimed. An older entry that is
passed over is blocked. The entries of an identity are claimed in the order of their numbers, a payload that
is folded into an entry leaves the order as it is, and nothing gets ahead of an entry before its claim. So
the workers of a queue take the oldest entries, and one worker alone begins their stores in the order of
their numbers. -/
theorem oldest_first :
    (∀ (ops : List (Buffer.Op κ ι)) replies b, ({} : Buffer κ ι).Proper ops →
      ({} : Buffer κ ι).run ops = (replies, b) →
      (∀ e, b.claim.1 = some e ↔ b.Oldest e) ∧
      (b.claim.1 = none ↔ ∀ k p, b.pending.get? k = some p → ∃ q, b.inFlight.get? k = some q) ∧
      (b.claim.1 = none → b.claim.2 = b) ∧
      b.claim.2.order = b.claim.1.elim b.order (fun e => b.order.erase (e.sequence, e.key)) ∧
      (∀ e k p, b.claim.1 = some e → b.pending.get? k = some p → p.sequence < e.sequence →
        ∃ q, b.inFlight.get? k = some q) ∧
      (∀ k, (((Buffer.claims replies).filter fun e => decide (e.key = k)).map (·.sequence)).Pairwise (· < ·)) ∧
      (∀ key item q, (b.insert key item).1 = .coalesced q →
        (q, key) ∈ b.order ∧ (b.insert key item).2.order = b.order) ∧
      ∀ l₁ q k l₂ more, b.order = l₁ ++ (q, k) :: l₂ → b.Proper more →
        (∀ e ∈ Buffer.claims (b.run more).1, e.sequence ≠ q) →
        ∃ l₁' l₂', (b.run more).2.order = l₁' ++ (q, k) :: l₂' ∧ l₁'.Sublist l₁) ∧
    ∀ config connections (s t : State κ ι) events out, Begins config connections s →
      run s events = some (t, out) →
      (∀ event u o w e, step t event = some (u, o) → t.draining w = none → u.draining w = some e →
        t.buffer.Oldest e) ∧
      (config.workers = 1 → ((invocations out).map (·.sequence)).Pairwise (· < ·)) := by
  refine ⟨?_, ?_⟩
  · intro ops replies b hp hr
    have hb : b = (({} : Buffer κ ι).run ops).2 := by rw [hr]
    have hc : replies = (({} : Buffer κ ι).run ops).1 := by rw [hr]
    have hv : b.Valid := hb ▸ Buffer.empty_valid.run hp
    refine ⟨fun e => hv.claim_eq_some_iff, hv.claim_eq_none_iff, fun hn => ?_, hv.claim_order, ?_, ?_, ?_, ?_⟩
    · exact (hv.claim_none (Buffer.claim_eq hn)).1
    · exact fun e k p he hk hlt => (hv.claim_eq_some_iff.mp he).blocked hk hlt
    · exact hc ▸ Buffer.empty_valid.claims_ascending hp
    · exact fun key item q hq => hv.insert_in_place hq
    · exact fun l₁ q k l₂ more ho hm hn => hv.run_place hm ho hn
  · intro config connections s t events out h hr
    have ht := h.tended.run hr
    refine ⟨fun event u o w e he hn hw => ?_, fun one => (h.in_turn one hr).sorted⟩
    exact ht.comes_to_oldest (step_turn ht.balanced he) hn hw

def passedOver : List (Buffer.Op String Nat) :=
  [.insert "a" 1, .claim, .insert "a" 2, .insert "b" 3, .insert "a" 4]

def solo : QueueConfig := { workers := 1, watermarks := ⟨8, 4⟩ }

def rewrittenBehind : List (Event String Nat) :=
  [.enqueue 1 "a" 1 false, .enqueue 1 "b" 2 false, .work 0, .work 0, .work 0, .work 0,
    .enqueue 1 "a" 3 false, .finish 0 (.error .timeout), .work 0, .work 0, .work 0, .work 0, .work 0, .work 0,
    .finish 0 (.ok ()), .work 0, .work 0, .work 0, .work 0, .work 0, .work 0]

theorem oldest_first_passed_over :
    (∃ replies b e, ({} : Buffer String Nat).Proper passedOver ∧
      ({} : Buffer String Nat).run passedOver = (replies, b) ∧ b.claim.1 = some e ∧
      b.order = [(⟨2⟩, "a"), (⟨3⟩, "b")] ∧ e.sequence = ⟨3⟩ ∧ b.Oldest e ∧
      ∃ q, b.inFlight.get? "a" = some q) ∧
    ∃ (s t : State String Nat) (out : _), Begins solo [⟨0, 0⟩] s ∧ run s rewrittenBehind = some (t, out) ∧
      (invocations out).map (·.key) = ["a", "b", "a"] ∧
      ((invocations out).map (·.sequence)).Pairwise (· < ·) := by
  obtain ⟨hbuffer, hqueue⟩ := oldest_first (κ := String) (ι := Nat)
  refine ⟨?_, ?_⟩
  · obtain ⟨replies, b, e, p, hr, hc, ho, he, hp, hlt⟩ : ∃ replies b e p,
        ({} : Buffer String Nat).run passedOver = (replies, b) ∧ b.claim.1 = some e ∧
        b.order = [(⟨2⟩, "a"), (⟨3⟩, "b")] ∧ e.sequence = ⟨3⟩ ∧ b.pending.get? "a" = some p ∧
        p.sequence < e.sequence := ⟨_, _, _, _, rfl, rfl, rfl, rfl, rfl, by decide⟩
    have hproper : ({} : Buffer String Nat).Proper passedOver :=
      ⟨trivial, trivial, trivial, trivial, trivial, trivial⟩
    obtain ⟨holdest, _, _, _, hblocked, _⟩ := hbuffer passedOver replies b hproper hr
    exact ⟨replies, b, e, hproper, hr, hc, ho, he, (holdest e).mp hc, hblocked e "a" p hc hp hlt⟩
  · obtain ⟨s, t, out, h, hr, hk⟩ : ∃ (s t : State String Nat) (out : _), Begins solo [⟨0, 0⟩] s ∧
        run s rewrittenBehind = some (t, out) ∧ (invocations out).map (·.key) = ["a", "b", "a"] :=
      ⟨_, _, _, ⟨_, rfl, rfl⟩, rfl, rfl⟩
    exact ⟨s, t, out, h, hr, hk, (hqueue solo _ s t _ out h hr).2 rfl⟩

end WriteBehind.Queue
