import WriteBehind.Proofs.Queue.Ledger

/-!
# Attempts to store

The store of an entry begins at most once, and an entry retires after its store has ended or after its
worker was refused a connection. Every accepted write is outstanding until its entry has retired.
-/

namespace WriteBehind.Queue

variable {κ ι : Type} [DecidableEq κ] {s t : State κ ι} {out o : List (Notice κ ι)}
  {accepted : List (Acceptance κ ι)} {a? : Option (Acceptance κ ι)} {w : Nat} {e : Claimed κ ι}

/-! ## Turns -/

inductive Passes (s t : State κ ι) : List (Notice κ ι) → Option (Acceptance κ ι) → Prop where
  | still {out : List (Notice κ ι)} (quiet : invocations out = [])
    (pending : t.buffer.pending = s.buffer.pending) (awaiting : ∀ w, t.awaiting w = s.awaiting w) :
    Passes s t out none
  | accept {out : List (Notice κ ι)} (a : Acceptance κ ι) (quiet : invocations out = [])
    (buffer : t.buffer = (s.buffer.insert a.key a.item).2)
    (awaiting : ∀ w, t.awaiting w = s.awaiting w) : Passes s t out (some a)
  | claim (w : Nat) (e : Claimed κ ι) (before : s.awaiting w = none)
    (buffer : s.buffer.claim = (some e, t.buffer))
    (awaiting : ∀ w', t.awaiting w' = if w = w' then some e else s.awaiting w') : Passes s t [] none
  | refuse (w : Nat) (e : Claimed κ ι) (before : s.awaiting w = some e) (closed : s.pool.closed = true)
    (buffer : t.buffer = s.buffer)
    (awaiting : ∀ w', t.awaiting w' = if w = w' then none else s.awaiting w') : Passes s t [] none
  | invoke (w : Nat) (e : Claimed κ ι) (c : Connection) (before : s.awaiting w = some e)
    (buffer : t.buffer = s.buffer)
    (awaiting : ∀ w', t.awaiting w' = if w = w' then none else s.awaiting w') :
    Passes s t [.invoked w e c] none

theorem Turn.passes (h : Turn s t o a?) : Passes s t o a? := by
  have keep : ∀ {w ph ph'}, Moves s t w ph ph' → ph'.awaiting? = ph.awaiting? →
      ∀ w', t.awaiting w' = s.awaiting w' := by
    intro w ph ph' move he w'
    rw [move.awaiting]
    split
    · rename_i hw; subst hw; rw [he, move.awaiting_self]
    · rfl
  cases h with
  | rest buffer workers quiet =>
    exact .still (invocations_of_quiet quiet) (by rw [buffer]) (State.awaiting_congr workers)
  | accept a _ buffer _ workers quiet =>
    exact .accept a (invocations_of_quiet quiet) buffer (State.awaiting_congr workers)
  | claim w entry since move buffer => exact .claim w entry move.awaiting_self buffer move.awaiting
  | exit w move _ _ buffer => exact .still rfl (by rw [buffer]) (keep move rfl)
  | approach w ph ph' entry move before after buffer =>
    exact .still rfl (by rw [buffer]) (keep move (after.trans before.symm))
  | refuse w ph entry move before closed buffer =>
    exact .refuse w entry (move.awaiting_self.trans before) closed buffer move.awaiting
  | invoke w drain c move buffer => exact .invoke w drain.entry c.use move.awaiting_self buffer move.awaiting
  | finish w drain c outcome move buffer => exact .still rfl (by rw [buffer]) (keep move rfl)
  | note w entry outcome move buffer => exact .still rfl (by rw [buffer]) (keep move rfl)
  | retire w entry outcome move buffer => exact .still rfl (by rw [buffer]; rfl) (keep move rfl)

theorem Turn.drained {r : Outcome} (h : Turn s t o a?) (hn : .drained e r ∈ o) :
    o = [.drained e r] ∧ a? = none ∧ t.buffer = (s.buffer.complete e.key e.sequence).2 ∧
      ∃ w, Moves s t w (.retiring e r) .idle := by
  cases h with
  | rest _ _ quiet => exact absurd (quiet _ hn) (by simp [Notice.entry?])
  | accept _ _ _ _ _ quiet => exact absurd (quiet _ hn) (by simp [Notice.entry?])
  | invoke => simp at hn
  | retire w entry outcome move buffer =>
    simp only [List.mem_singleton, Notice.drained.injEq] at hn
    obtain ⟨rfl, rfl⟩ := hn
    exact ⟨rfl, rfl, buffer, w, move⟩
  | _ => cases hn

/-! ## Attempts -/

/-- Where a worker stands with an entry: the store has begun, or the worker was refused with an outcome
that is allowed. -/
def Begun (refused : Outcome → Prop) (out : List (Notice κ ι)) : Phase κ ι → Prop
  | .storing d _ => d.entry ∈ invocations out
  | .ended e r | .retiring e r => e ∈ invocations out ∨ refused r
  | _ => True

omit [DecidableEq κ] in
theorem Begun.mono {refused refused' : Outcome → Prop} {ph : Phase κ ι} (h : Begun refused out ph)
    (hr : ∀ r, refused r → refused' r) (o : List (Notice κ ι)) : Begun refused' (out ++ o) ph := by
  have hmem : ∀ {e}, e ∈ invocations out → e ∈ invocations (out ++ o) := by
    intro e he
    rw [invocations_append]
    exact List.mem_append_left _ he
  cases ph with
  | storing => exact hmem h
  | ended | retiring => exact h.imp hmem (hr _)
  | _ => trivial

/-- How the attempts of a run stand. Entries retire whose stores have begun, or with a refusal. -/
structure Attempts (accepted : List (Acceptance κ ι)) (refused : Outcome → Prop)
    (out : List (Notice κ ι)) (s : State κ ι) : Prop where
  once : ((invocations out).map (·.sequence)).Nodup
  fresh : ∀ e ∈ invocations out, ∀ w e', s.awaiting w = some e' → e'.sequence ≠ e.sequence
  begun : ∀ (w : Nat) ph, s.workers[w]? = some ph → Begun refused out ph
  gone : ∀ e r, .drained e r ∈ out → e.sequence ∉ s.buffer.outstanding
  drained : ∀ e r, .drained e r ∈ out → (∃ w c, [.invoked w e c, .drained e r].Sublist out) ∨ refused r
  settled : ∀ a ∈ accepted, a.sequence ∈ s.buffer.outstanding ∨
    ∃ e r, .drained e r ∈ out ∧ e.sequence = a.sequence ∧ e.key = a.key

variable {refused refused' : Outcome → Prop}

theorem Attempts.turn_once (h : Attempts accepted refused out s) (turn : Turn s t o a?) :
    ((invocations (out ++ o)).map (·.sequence)).Nodup := by
  rw [invocations_append, List.map_append]
  cases turn.passes with
  | still quiet => rw [quiet]; simpa using h.once
  | accept _ quiet => rw [quiet]; simpa using h.once
  | claim => simpa [invocations] using h.once
  | refuse => simpa [invocations] using h.once
  | invoke w e c before =>
    refine List.nodup_append.mpr ⟨h.once, by simp [invocations, Notice.invoked?], ?_⟩
    intro q hq q' hq'
    obtain ⟨e', he', rfl⟩ := List.mem_map.mp hq
    simp only [invocations, List.filterMap_cons, Notice.invoked?, List.filterMap_nil, List.map_cons,
      List.map_nil, List.mem_singleton] at hq'
    subst hq'
    exact (h.fresh e' he' w e before).symm

theorem Attempts.turn_fresh (h : Attempts accepted refused out s) (hl : Ledger accepted out s)
    (hs : Tended s) (turn : Turn s t o a?) :
    ∀ e ∈ invocations (out ++ o), ∀ w e', t.awaiting w = some e' → e'.sequence ≠ e.sequence := by
  intro e he w e' he'
  rw [invocations_append, List.mem_append] at he
  cases turn.passes with
  | still quiet _ awaiting =>
    rw [quiet] at he
    exact h.fresh e (by simpa using he) w e' (awaiting w ▸ he')
  | accept _ quiet _ awaiting =>
    rw [quiet] at he
    exact h.fresh e (by simpa using he) w e' (awaiting w ▸ he')
  | claim w₁ e₁ _ buffer awaiting =>
    have he : e ∈ invocations out := by simpa [invocations] using he
    rw [awaiting] at he'
    split at he'
    · cases he'
      -- The entry was pending, and none that was handed over is pending again.
      obtain ⟨hp, _⟩ := hs.valid.claim_some buffer
      obtain ⟨w₀, c, hn⟩ := mem_invocations.mp he
      exact fun heq => hl.passed _ hn e rfl e'.key ⟨_, hp, heq⟩
    · exact h.fresh e he w e' he'
  | refuse w₁ e₁ _ _ _ awaiting =>
    rw [awaiting] at he'
    split at he'
    · cases he'
    · exact h.fresh e (by simpa [invocations] using he) w e' he'
  | invoke w₁ e₁ c before _ awaiting =>
    rw [awaiting] at he'
    split at he'
    · cases he'
    · rename_i hne
      rcases he with he | he
      · exact h.fresh e he w e' he'
      · have : e = e₁ := by simpa [invocations, Notice.invoked?] using he
        subst this
        have hd := State.draining_of_awaiting he'
        have hd₁ := State.draining_of_awaiting before
        intro heq
        have hk := hs.valid.flight_inj _ _ _ (hs.flight_of hd) (heq ▸ hs.flight_of hd₁)
        exact hne (hs.apart hd₁ hd hk.symm)

theorem Attempts.turn_begun (h : Attempts accepted refused out s) (turn : Turn s t o a?)
    (weaken : ∀ r, refused r → refused' r)
    (refuse : ∀ w e, s.awaiting w = some e → s.pool.closed = true → refused' refusal) :
    ∀ (w : Nat) ph, t.workers[w]? = some ph → Begun refused' (out ++ o) ph := by
  have old := fun (w : Nat) ph (hw : s.workers[w]? = some ph) => (h.begun w ph hw).mono weaken o
  have moved : ∀ {w ph ph'}, Moves s t w ph ph' → Begun refused' (out ++ o) ph' →
      ∀ (w : Nat) ph, t.workers[w]? = some ph → Begun refused' (out ++ o) ph := by
    intro w ph ph' move hp w' ph'' hw'
    rw [move.worker] at hw'
    split at hw'
    · cases hw'; exact hp
    · exact old w' ph'' hw'
  cases turn with
  | rest _ workers => rw [workers]; exact old
  | accept _ _ _ _ workers => rw [workers]; exact old
  | claim w entry since move => exact moved move trivial
  | exit w move => exact moved move trivial
  | approach w ph ph' entry move _ after =>
    refine moved move ?_
    cases ph' with
    | claimed | borrowing | ready => trivial
    | _ => cases after
  | refuse w ph entry move before closed =>
    exact moved move (.inr (refuse w entry (move.awaiting_self.trans before) closed))
  | invoke w drain c move =>
    refine moved move ?_
    have : drain.entry ∈ invocations (out ++ [.invoked w drain.entry c.use]) :=
      mem_invocations.mpr ⟨w, c.use, by simp⟩
    exact this
  | finish w drain c outcome move => exact moved move (.inl (old w _ move.before))
  | note w entry outcome move =>
    have := old w (.ended entry outcome) move.before
    exact moved move this
  | retire w entry outcome move => exact moved move trivial

theorem Attempts.turn_gone (h : Attempts accepted refused out s) (hl : Ledger accepted out s)
    (turn : Turn s t o a?) : ∀ e r, .drained e r ∈ out ++ o → e.sequence ∉ t.buffer.outstanding := by
  intro e r hn
  rcases List.mem_append.mp hn with hn | hn
  · have hgone := h.gone e r hn
    obtain ⟨_, hb, _⟩ | ⟨a, _, hb, _⟩ | ⟨_, e', _, _, hb, _⟩ | ⟨_, e', _, _, _, hb, _⟩ := turn.entries
    · rwa [hb]
    · rw [hb, Buffer.insert_outstanding]
      intro hm
      rcases List.mem_append.mp hm with hm | hm
      · exact hgone hm
      · split at hm
        · rw [List.mem_singleton] at hm
          have := hl.noticed_le hn rfl
          rw [hm] at this
          exact absurd (Sequence.lt_next _) (Nat.not_lt.mpr this)
        · cases hm
    · rwa [Buffer.claim_outstanding hb]
    · rw [hb, Buffer.mem_complete_outstanding]
      exact fun hm => hgone hm.1
  · obtain ⟨_, _, hb, _⟩ := turn.drained hn
    rw [hb, Buffer.mem_complete_outstanding]
    exact fun hm => hm.2 rfl

theorem Attempts.turn_drained (h : Attempts accepted refused out s) (turn : Turn s t o a?)
    (weaken : ∀ r, refused r → refused' r) : ∀ e r, .drained e r ∈ out ++ o →
      (∃ w c, [.invoked w e c, .drained e r].Sublist (out ++ o)) ∨ refused' r := by
  intro e r hn
  rcases List.mem_append.mp hn with hn | hn
  · refine (h.drained e r hn).imp ?_ (weaken r)
    intro ⟨w, c, hsub⟩
    exact ⟨w, c, hsub.trans (List.sublist_append_left out o)⟩
  · obtain ⟨rfl, _, _, w, move⟩ := turn.drained hn
    refine (h.begun w _ move.before).imp ?_ (weaken r)
    intro he
    obtain ⟨w', c, hi⟩ := mem_invocations.mp he
    exact ⟨w', c, (List.singleton_sublist.mpr hi).append (List.Sublist.refl _)⟩

theorem Attempts.turn_settled (h : Attempts accepted refused out s) (hl : Ledger accepted out s)
    (ht : Tended t) (turn : Turn s t o a?) :
    ∀ a ∈ accepted ++ a?.toList, a.sequence ∈ t.buffer.outstanding ∨
      ∃ e r, .drained e r ∈ out ++ o ∧ e.sequence = a.sequence ∧ e.key = a.key := by
  have old : ∀ a ∈ accepted, (a.sequence ∈ s.buffer.outstanding → a.sequence ∈ t.buffer.outstanding) →
      a.sequence ∈ t.buffer.outstanding ∨
        ∃ e r, .drained e r ∈ out ++ o ∧ e.sequence = a.sequence ∧ e.key = a.key := by
    intro a ha hkeep
    refine (h.settled a ha).imp hkeep ?_
    intro ⟨e, r, hn, he⟩
    exact ⟨e, r, List.mem_append_left _ hn, he⟩
  intro a ha
  obtain ⟨rfl, hb, _⟩ | ⟨a', rfl, hb, hq, _⟩ | ⟨_, e, rfl, _, hb, _⟩ | ⟨w, e, r, rfl, he, hb, rfl, _⟩ :=
    turn.entries
  · exact old a (by simpa using ha) (by rw [hb]; exact id)
  · rcases List.mem_append.mp ha with ha | ha
    · refine old a ha fun hm => ?_
      rw [hb, Buffer.insert_outstanding]
      exact List.mem_append_left _ hm
    · rw [Option.toList_some, List.mem_singleton] at ha
      subst ha
      refine .inl (ht.valid.waits_mem (k := a.key) ?_)
      rw [hb, hq]
      exact Buffer.insert_waits_self _ _ _
  · exact old a (by simpa using ha) (by rw [Buffer.claim_outstanding hb]; exact id)
  · have ha : a ∈ accepted := by simpa using ha
    -- A number belongs to one identity, so an entry of this number is that of the write.
    by_cases heq : e.sequence = a.sequence
    · obtain ⟨a', ha', hq, hk⟩ := (hl.draining w e he).mem
      refine .inr ⟨e, r, by simp, heq, ?_⟩
      rw [← hk]
      exact hl.one_key a' ha' a ha (hq.trans heq)
    · refine old a ha fun hm => ?_
      rw [hb, Buffer.mem_complete_outstanding]
      exact ⟨hm, Ne.symm heq⟩

theorem Attempts.turn (h : Attempts accepted refused out s) (hl : Ledger accepted out s) (hs : Tended s)
    (ht : Tended t) (turn : Turn s t o a?) (weaken : ∀ r, refused r → refused' r)
    (refuse : ∀ w e, s.awaiting w = some e → s.pool.closed = true → refused' refusal) :
    Attempts (accepted ++ a?.toList) refused' (out ++ o) t where
  once := h.turn_once turn
  fresh := h.turn_fresh hl hs turn
  begun := h.turn_begun turn weaken refuse
  gone := h.turn_gone hl turn
  drained := h.turn_drained turn weaken
  settled := h.turn_settled hl ht turn

/-! ## Runs -/

variable [Named κ] {config : QueueConfig} {connections : List Connection} {events : List (Event κ ι)}

omit [DecidableEq κ] [Named κ] in
theorem Begins.no_attempts (h : Begins config connections s) : Attempts [] refused [] s := by
  obtain ⟨pool, _, _, rfl⟩ := h.eq
  constructor
  case begun =>
    intro w ph hw
    rw [(List.mem_replicate.mp (List.mem_of_getElem? hw)).2]
    trivial
  all_goals simp [invocations]

theorem Begins.attempts (h : Begins config connections s) (hr : run s events = some (t, out)) :
    Attempts (acceptances s events) (fun r => r = refusal ∧ t.pool.closed = true) out t := by
  refine run_induction (P := fun events out t =>
    Attempts (acceptances s events) (fun r => r = refusal ∧ t.pool.closed = true) out t) ?_ ?_ hr
  · exact h.no_attempts
  · intro events o t e u o' hr hp he
    have ht := h.tended.run hr
    have hclosed := (step_pool he).closed ht.balanced
    rw [acceptances_snoc hr he]
    exact hp.turn (h.ledger hr) ht (ht.step he) (step_turn ht.balanced he)
      (fun _ hc => ⟨hc.1, hclosed hc.2⟩) (fun _ _ _ hc => ⟨rfl, hclosed hc⟩)

end WriteBehind.Queue
