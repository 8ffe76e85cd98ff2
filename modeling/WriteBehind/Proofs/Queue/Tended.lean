import WriteBehind.Proofs.Queue.Turns

/-!
# Entries and workers

In every state that a run reaches the buffer is valid, its entries in flight are those that the workers
drain, and no two workers drain the same identity. The permits of the pool are in balance.
-/

namespace WriteBehind.Queue

variable {κ ι : Type} {s t : State κ ι} {out : List (Notice κ ι)} {w id : Nat}

/-! ## The pool -/

/-- The steps that close the pool: those of an owner that does so under the queue, and those of closing
calls whose workers are gone. -/
def Closes (s : State κ ι) (e : Event κ ι) : Prop :=
  e = .closePool ∨ ∃ id c flushed workers, e = .look id ∧ s.call? id = some c ∧
    c.phase = .joining flushed workers

variable {closes : Prop}

theorem Asks.served {drain : Drain κ ι} {loan : Loan Connection} {pool : Pool Connection Borrower}
    (h : Asks s w drain loan pool) : s.pool.Served closes pool := by
  obtain ⟨_, hl⟩ | ⟨_, hl⟩ := h
  · have : s.pool.Served closes _ := .acquire (.worker w)
    rwa [hl] at this
  · have : s.pool.Served closes _ := .collect (.worker w)
    rwa [hl] at this

variable [DecidableEq κ]

theorem Works.served (h : Works s w t out) : s.pool.Served closes t.pool := by
  cases h with
  | lent _ _ _ asks => exact asks.served
  | waits _ _ _ acquire =>
    have : s.pool.Served closes _ := .acquire (.worker w)
    rwa [acquire] at this
  | refused _ _ _ asks => exact asks.served
  | noted _ outcome => cases outcome <;> exact .same
  | _ => exact .same

theorem Makes.served {e : Event κ ι} {a? : Option (Acceptance κ ι)} (h : Makes s id e t out a?) :
    s.pool.Served closes t.pool := by
  have hacquire : s.pool.Served closes _ := .acquire (.call id)
  cases h with
  | lent _ _ _ acquire => rwa [acquire] at hacquire
  | borrowing _ _ acquire => rwa [acquire] at hacquire
  | unlent _ _ _ acquire => rwa [acquire] at hacquire
  | _ => exact .same

variable [Named κ]

omit [DecidableEq κ] in
theorem Looks.served {c : Call} (hc : s.call? id = some c) (h : Looks s id c t out) :
    s.pool.Served (Closes s (.look id)) t.pool := by
  have hcollect : s.pool.Served (Closes s (.look id)) _ := .collect (.call id)
  cases h with
  | joined flushed workers phase => exact .close (.inr ⟨id, c, flushed, workers, rfl, hc, phase⟩)
  | lent _ _ _ collect => rwa [collect] at hcollect
  | refused _ _ _ collect => rwa [collect] at hcollect
  | _ => exact .same

theorem step_pool {e : Event κ ι} (h : step s e = some (t, out)) : s.pool.Served (Closes s e) t.pool := by
  cases step_cases h with
  | made _ _ _ _ _ _ _ makes => exact makes.served
  | giveBack _ c => exact .giveBack c
  | closePool => exact .close (.inl rfl)
  | work _ _ _ works => exact works.served
  | finish _ _ _ c => exact .giveBack c
  | look _ _ _ _ call looks => exact looks.served call
  | _ => exact .same

omit [Named κ]

/-! ## The entries -/

omit [DecidableEq κ] in
theorem Moves.worker {ph ph' : Phase κ ι} (h : Moves s t w ph ph') (w' : Nat) :
    t.workers[w']? = if w = w' then some ph' else s.workers[w']? :=
  State.worker_set h.before h.after w'

omit [DecidableEq κ] in
theorem Moves.at {n : Nat} {ph ph₀ ph₁ : Phase κ ι} (h : Moves s t w ph₀ ph₁) (hn : s.workers[n]? = some ph) :
    w = n ∧ ph = ph₀ ∧ t.workers[n]? = some ph₁ ∨ w ≠ n ∧ t.workers[n]? = some ph := by
  rw [h.worker]
  by_cases hw : w = n
  · subst hw
    rw [h.before, Option.some.injEq] at hn
    exact .inl ⟨rfl, hn.symm, if_pos rfl⟩
  · exact .inr ⟨hw, (if_neg hw).trans hn⟩

omit [DecidableEq κ] in
theorem Moves.draining {ph ph' : Phase κ ι} (h : Moves s t w ph ph') (w' : Nat) :
    t.draining w' = if w = w' then ph'.entry? else s.draining w' := by
  unfold State.draining
  rw [h.worker]
  split <;> rfl

omit [DecidableEq κ] in
theorem Moves.awaiting {ph ph' : Phase κ ι} (h : Moves s t w ph ph') (w' : Nat) :
    t.awaiting w' = if w = w' then ph'.awaiting? else s.awaiting w' := by
  unfold State.awaiting
  rw [h.worker]
  split <;> rfl

omit [DecidableEq κ] in
theorem Moves.draining_self {ph ph' : Phase κ ι} (h : Moves s t w ph ph') : s.draining w = ph.entry? := by
  unfold State.draining
  rw [h.before]
  rfl

omit [DecidableEq κ] in
theorem Moves.awaiting_self {ph ph' : Phase κ ι} (h : Moves s t w ph ph') :
    s.awaiting w = ph.awaiting? := by
  unfold State.awaiting
  rw [h.before]
  rfl

omit [DecidableEq κ] in
theorem Moves.keeps {ph ph' : Phase κ ι} (h : Moves s t w ph ph') (he : ph'.entry? = ph.entry?)
    (w' : Nat) : t.draining w' = s.draining w' := by
  rw [h.draining]
  split
  · rename_i hw; subst hw; rw [h.draining_self, he]
  · rfl

theorem storing_lasts [Named κ] {e : Event κ ι} {n : Nat} {drain : Drain κ ι} {c : Connection}
    (h : step s e = some (t, out)) (hn : s.workers[n]? = some (.storing drain c)) (he : ∀ r, e ≠ .finish n r) :
    t.workers[n]? = some (.storing drain c) := by
  cases step_cases h with
  | made _ _ _ _ _ _ _ makes => cases makes <;> exact hn
  | work w _ _ works =>
    obtain ⟨ph, ph', move, hph⟩ := works.moves
    obtain ⟨_, rfl, _⟩ | ⟨_, ht⟩ := move.at hn
    · exact absurd rfl (hph drain c)
    · exact ht
  | finish w outcome d c' before =>
    have move : Moves s ({ s with pool := s.pool.giveBack c' }.endDrain w d outcome) w (.storing d c')
      (.ended d.entry outcome) := ⟨before, rfl⟩
    obtain ⟨rfl, _⟩ | ⟨_, ht⟩ := move.at hn
    · exact absurd rfl (he outcome)
    · exact ht
  | look _ _ _ _ _ looks => cases looks <;> exact hn
  | _ => exact hn

/-- The entries and the workers of a queue agree. -/
structure Tended (s : State κ ι) : Prop where
  valid : s.buffer.Valid
  balanced : s.pool.Balanced
  flight : ∀ k q, s.buffer.inFlight.get? k = some q ↔
    ∃ w e, s.draining w = some e ∧ e.key = k ∧ e.sequence = q
  apart : ∀ {w w' e e'}, s.draining w = some e → s.draining w' = some e' → e.key = e'.key → w = w'

theorem Turn.entries {a? : Option (Acceptance κ ι)} (h : Turn s t out a?) :
    (a? = none ∧ t.buffer = s.buffer ∧ ∀ w, t.draining w = s.draining w) ∨
    (∃ a, a? = some a ∧ t.buffer = (s.buffer.insert a.key a.item).2 ∧
      a.sequence = (s.buffer.insert a.key a.item).1.sequence ∧ ∀ w, t.draining w = s.draining w) ∨
    (∃ w e, a? = none ∧ s.draining w = none ∧ s.buffer.claim = (some e, t.buffer) ∧
      ∀ w', t.draining w' = if w = w' then some e else s.draining w') ∨
    ∃ w e o, a? = none ∧ s.draining w = some e ∧ t.buffer = (s.buffer.complete e.key e.sequence).2 ∧
      out = [.drained e o] ∧ ∀ w', t.draining w' = if w = w' then none else s.draining w' := by
  cases h with
  | rest buffer workers => exact .inl ⟨rfl, buffer, State.draining_congr workers⟩
  | accept a _ buffer sequence workers =>
    exact .inr (.inl ⟨a, rfl, buffer, sequence, State.draining_congr workers⟩)
  | claim w entry since move buffer =>
    exact .inr (.inr (.inl ⟨w, entry, rfl, move.draining_self, buffer, move.draining⟩))
  | exit w move _ _ buffer => exact .inl ⟨rfl, buffer, move.keeps rfl⟩
  | approach w ph ph' entry move before after buffer =>
    refine .inl ⟨rfl, buffer, move.keeps ?_⟩
    rw [Phase.entry?_of_awaiting before, Phase.entry?_of_awaiting after]
  | refuse w ph entry move before _ buffer =>
    refine .inl ⟨rfl, buffer, move.keeps ?_⟩
    rw [Phase.entry?_of_awaiting before]
    rfl
  | invoke w drain c move buffer => exact .inl ⟨rfl, buffer, move.keeps rfl⟩
  | finish w drain c outcome move buffer => exact .inl ⟨rfl, buffer, move.keeps rfl⟩
  | note w entry outcome move buffer => exact .inl ⟨rfl, buffer, move.keeps rfl⟩
  | retire w entry outcome move buffer =>
    exact .inr (.inr (.inr ⟨w, entry, outcome, rfl, move.draining_self, buffer, rfl, move.draining⟩))

theorem Turn.noticed {a? : Option (Acceptance κ ι)} (h : Turn s t out a?) {n : Notice κ ι} (hn : n ∈ out)
    {e : Claimed κ ι} (he : n.entry? = some e) : ∃ w, s.draining w = some e := by
  cases h with
  | rest _ _ quiet => rw [quiet n hn] at he; cases he
  | accept _ _ _ _ _ quiet => rw [quiet n hn] at he; cases he
  | invoke w drain c move =>
    rw [List.mem_singleton] at hn
    subst hn
    cases he
    exact ⟨w, move.draining_self⟩
  | retire w entry outcome move =>
    rw [List.mem_singleton] at hn
    subst hn
    cases he
    exact ⟨w, move.draining_self⟩
  | _ => cases hn

theorem Tended.flight_of (h : Tended s) {e : Claimed κ ι} (he : s.draining w = some e) :
    s.buffer.inFlight.get? e.key = some e.sequence :=
  (h.flight e.key e.sequence).mpr ⟨w, e, he, rfl, rfl⟩

theorem Tended.not_waits (h : Tended s) {e : Claimed κ ι} (he : s.draining w = some e) (k : κ) :
    ¬ s.buffer.Waits k e.sequence :=
  h.valid.flight_waits _ _ k (h.flight_of he)

theorem Tended.step [Named κ] {e : Event κ ι} (hs : Tended s) (h : step s e = some (t, out)) :
    Tended t := by
  have hbalanced := (step_pool h).balanced hs.balanced
  obtain ⟨_, hb, hd⟩ | ⟨a, _, hb, _, hd⟩ | ⟨w, e, _, hn, hb, hd⟩ | ⟨w, e, o, _, he, hb, _, hd⟩ :=
    (step_turn hs.balanced h).entries
  · refine ⟨hb ▸ hs.valid, hbalanced, ?_, ?_⟩
    · simp only [hb, hd]; exact hs.flight
    · simp only [hd]; exact hs.apart
  · refine ⟨hb ▸ hs.valid.insert a.key a.item, hbalanced, ?_, ?_⟩
    · rw [hb, Buffer.insert_inFlight]; simp only [hd]; exact hs.flight
    · simp only [hd]; exact hs.apart
  · obtain ⟨_, hfree, l₁, l₂, _, _, ht⟩ := hs.valid.claim_some hb
    have hother : ∀ {w' e'}, s.draining w' = some e' → e'.key ≠ e.key := by
      intro w' e' hw' hk
      have := hs.flight_of hw'
      rw [hk, hfree] at this
      cases this
    refine ⟨hs.valid.claim hb, hbalanced, ?_, ?_⟩
    · intro k q
      rw [ht]
      simp only [Table.get?_set]
      constructor
      · intro hk
        split at hk
        · cases hk; exact ⟨w, e, by rw [hd]; simp, by assumption, rfl⟩
        · obtain ⟨w', e', hw', rfl, rfl⟩ := (hs.flight k q).mp hk
          refine ⟨w', e', ?_, rfl, rfl⟩
          rw [hd, if_neg (by rintro rfl; rw [hn] at hw'; cases hw'), hw']
      · rintro ⟨w', e', hw', rfl, rfl⟩
        rw [hd] at hw'
        split at hw'
        · cases hw'; simp
        · rw [if_neg (hother hw').symm]
          exact (hs.flight _ _).mpr ⟨w', e', hw', rfl, rfl⟩
    · intro w₁ w₂ e₁ e₂ h₁ h₂ hk
      rw [hd] at h₁ h₂
      split at h₁ <;> split at h₂
      · rename_i p₁ p₂; rw [← p₁, ← p₂]
      · cases h₁; exact absurd hk.symm (hother h₂)
      · cases h₂; exact absurd hk (hother h₁)
      · exact hs.apart h₁ h₂ hk
  · have hflight := hs.flight_of he
    refine ⟨hb ▸ hs.valid.complete hflight, hbalanced, ?_, ?_⟩
    · intro k q
      rw [hb, Buffer.complete_flight hflight]
      constructor
      · intro hk
        split at hk
        · cases hk
        · obtain ⟨w', e', hw', rfl, rfl⟩ := (hs.flight k q).mp hk
          refine ⟨w', e', ?_, rfl, rfl⟩
          rw [hd, if_neg (by rintro rfl; rw [he] at hw'; cases hw'; contradiction), hw']
      · rintro ⟨w', e', hw', rfl, rfl⟩
        rw [hd] at hw'
        split at hw'
        · cases hw'
        · rename_i hne
          rw [if_neg fun hk => hne (hs.apart he hw' hk)]
          exact (hs.flight _ _).mpr ⟨w', e', hw', rfl, rfl⟩
    · intro w₁ w₂ e₁ e₂ h₁ h₂ hk
      rw [hd] at h₁ h₂
      split at h₁
      · cases h₁
      · split at h₂
        · cases h₂
        · exact hs.apart h₁ h₂ hk

/-! ## Runs -/

variable [Named κ] {config : QueueConfig} {connections : List Connection} {events : List (Event κ ι)}

omit [DecidableEq κ] [Named κ] in
theorem Begins.valid (h : Begins config connections s) :
    0 < config.workers ∧ config.workers ≤ maxWorkers ∧ config.watermarks.Valid := by
  obtain ⟨pool, _, hs⟩ := h
  unfold State.start at hs
  cases hv : config.validate with
  | error => rw [hv] at hs; cases hs
  | ok =>
    unfold QueueConfig.validate at hv
    split at hv
    · cases hv
    · split at hv
      · cases hv
      · exact ⟨by omega, by omega, Watermarks.validate_eq_ok_iff.mp hv⟩

omit [DecidableEq κ] [Named κ] in
theorem Begins.eq (h : Begins config connections s) :
    ∃ pool, Pool.ofConnections connections = .ok pool ∧ 0 < config.workers ∧
      s = {
        watermarks := config.watermarks
        stalling := config.stall
        pool
        workers := List.replicate config.workers .idle
        unjoined := List.range config.workers } := by
  obtain ⟨hpos, _⟩ := h.valid
  obtain ⟨pool, hp, hs⟩ := h
  unfold State.start at hs
  cases hv : config.validate with
  | error e => rw [hv] at hs; cases hs
  | ok u =>
    rw [hv] at hs
    cases hs
    exact ⟨pool, hp, hpos, rfl⟩

omit [DecidableEq κ] [Named κ] in
theorem Begins.draining (h : Begins config connections s) (w : Nat) : s.draining w = none := by
  obtain ⟨pool, _, _, rfl⟩ := h.eq
  unfold State.draining
  simp only [List.getElem?_replicate]
  split <;> rfl

omit [DecidableEq κ] [Named κ] in
theorem Begins.awaiting (h : Begins config connections s) (w : Nat) : s.awaiting w = none := by
  cases hw : s.awaiting w with
  | none => rfl
  | some e => rw [← h.draining w, State.draining_of_awaiting hw]

omit [DecidableEq κ] [Named κ] in
theorem Begins.buffer (h : Begins config connections s) : s.buffer = {} := by
  obtain ⟨pool, _, _, rfl⟩ := h.eq
  rfl

omit [DecidableEq κ] [Named κ] in
theorem Begins.call? (h : Begins config connections s) (id : Nat) : s.call? id = none := by
  obtain ⟨pool, _, _, rfl⟩ := h.eq
  rfl

omit [DecidableEq κ] [Named κ] in
theorem Begins.phase? (h : Begins config connections s) (id : Nat) : s.phase? id = none := by
  unfold State.phase?
  rw [h.call? id]
  rfl

omit [Named κ] in
theorem Begins.tended (h : Begins config connections s) : Tended s := by
  refine ⟨h.buffer ▸ Buffer.empty_valid, ?_, ?_, ?_⟩
  · obtain ⟨pool, hp, _, rfl⟩ := h.eq
    exact Pool.ofConnections_balanced hp
  · simp [h.buffer, h.draining]
  · simp [h.draining]

theorem Tended.run (hs : Tended s) (h : run s events = some (t, out)) : Tended t :=
  run_preserves (fun hs he => Tended.step hs he) hs h

end WriteBehind.Queue
