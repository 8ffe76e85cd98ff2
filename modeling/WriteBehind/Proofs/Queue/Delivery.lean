import WriteBehind.Proofs.Queue.Attempts
import WriteBehind.Proofs.Queue.Receipts

/-!
# Delivery

The payloads of an identity reach the store in the order in which they were accepted; some are replaced
on the way, none comes twice and none overtakes another. What is neither delivered nor replaced is with
a worker that has not begun its store, or pending.
-/

namespace WriteBehind.Queue

variable {κ ι : Type} [DecidableEq κ] {s t : State κ ι} {out o : List (Notice κ ι)}
  {accepted : List (Acceptance κ ι)} {a? : Option (Acceptance κ ι)} {key : κ} {x : Option ι} {w : Nat}
  {e : Claimed κ ι}

/-! ## The payloads of an identity -/

def offered (key : κ) (accepted : List (Acceptance κ ι)) : List ι :=
  (accepted.filter fun a => decide (a.key = key)).map (·.item)

def delivered (key : κ) (out : List (Notice κ ι)) : List ι :=
  ((invocations out).filter fun e => decide (e.key = key)).map (·.item)

theorem offered_snoc (accepted : List (Acceptance κ ι)) (a : Acceptance κ ι) :
    offered key (accepted ++ [a]) = offered key accepted ++ if a.key = key then [a.item] else [] := by
  unfold offered
  by_cases h : a.key = key <;> simp [List.filter_append, h]

theorem delivered_append (out o : List (Notice κ ι)) :
    delivered key (out ++ o) = delivered key out ++ delivered key o := by
  unfold delivered
  rw [invocations_append, List.filter_append, List.map_append]

theorem delivered_of_quiet (h : invocations o = []) : delivered key o = [] := by
  unfold delivered
  rw [h]
  rfl

theorem delivered_invoked (w : Nat) (e : Claimed κ ι) (c : Connection) :
    delivered key [.invoked w e c] = if e.key = key then [e.item] else [] := by
  by_cases h : e.key = key <;> simp [delivered, invocations, Notice.invoked?, h]

/-! ## On the way -/

def Held (s : State κ ι) (key : κ) (x : Option ι) : Prop :=
  ∀ i, x = some i ↔ ∃ w e, s.awaiting w = some e ∧ e.key = key ∧ e.item = i

/-- What was delivered, followed by what is on the way. -/
def passage (key : κ) (out : List (Notice κ ι)) (x : Option ι) (s : State κ ι) : List ι :=
  delivered key out ++ x.toList ++ ((s.buffer.pending.get? key).map (·.item)).toList

/-- The payloads of an identity pass in order; while the pool is open the last one is not lost. -/
structure Flow (accepted : List (Acceptance κ ι)) (key : κ) (out : List (Notice κ ι)) (x : Option ι)
    (s : State κ ι) : Prop where
  held : Held s key x
  sublist : (passage key out x s).Sublist (offered key accepted)
  last : s.pool.closed = false → (passage key out x s).getLast? = (offered key accepted).getLast?

omit [DecidableEq κ] in
theorem Held.congr (h : Held s key x) (ht : ∀ w, t.awaiting w = s.awaiting w) : Held t key x := by
  intro i
  simp only [ht]
  exact h i

omit [DecidableEq κ] in
theorem Held.other {e? : Option (Claimed κ ι)} (h : Held s key x) (he : ∀ e ∈ s.awaiting w, e.key ≠ key)
    (he' : ∀ e ∈ e?, e.key ≠ key)
    (ht : ∀ w', t.awaiting w' = if w = w' then e? else s.awaiting w') : Held t key x := by
  intro i
  rw [h i]
  constructor
  · intro ⟨w', e', hw', hk, hi⟩
    refine ⟨w', e', ?_, hk, hi⟩
    rw [ht, if_neg (by rintro rfl; exact he e' hw' hk)]
    exact hw'
  · intro ⟨w', e', hw', hk, hi⟩
    rw [ht] at hw'
    split at hw'
    · exact absurd hk (he' e' hw')
    · exact ⟨w', e', hw', hk, hi⟩

theorem Held.release (hs : Tended s) (he : s.awaiting w = some e)
    (ht : ∀ w', t.awaiting w' = if w = w' then none else s.awaiting w') : Held t e.key none := by
  intro i
  simp only [reduceCtorEq, false_iff]
  intro ⟨w', e', hw', hk, _⟩
  rw [ht] at hw'
  split at hw'
  · cases hw'
  · rename_i hne
    exact hne (hs.apart (State.draining_of_awaiting he) (State.draining_of_awaiting hw') hk.symm)

omit [DecidableEq κ] in
theorem Held.eq_some (h : Held s e.key x) (he : s.awaiting w = some e) : x = some e.item :=
  (h e.item).mpr ⟨w, e, he, rfl, rfl⟩

/-! ## Turns -/

theorem Flow.keep {out' : List (Notice κ ι)} {x' : Option ι} (h : Flow accepted key out x s)
    (opened : t.pool.closed = false → s.pool.closed = false) (held : Held t key x')
    (hp : passage key out' x' t = passage key out x s) : Flow accepted key out' x' t :=
  ⟨held, hp ▸ h.sublist, fun hc => hp ▸ h.last (opened hc)⟩

theorem Flow.still (h : Flow accepted key out x s) (opened : t.pool.closed = false → s.pool.closed = false)
    (quiet : invocations o = []) (pending : t.buffer.pending.get? key = s.buffer.pending.get? key)
    (awaiting : ∀ w, t.awaiting w = s.awaiting w) : Flow accepted key (out ++ o) x t := by
  refine h.keep opened (h.held.congr awaiting) ?_
  unfold passage
  rw [delivered_append, delivered_of_quiet quiet, List.append_nil, pending]

theorem Flow.accept {a : Acceptance κ ι} (h : Flow accepted key out x s)
    (opened : t.pool.closed = false → s.pool.closed = false) (quiet : invocations o = [])
    (buffer : t.buffer = (s.buffer.insert a.key a.item).2) (awaiting : ∀ w, t.awaiting w = s.awaiting w) :
    Flow (accepted ++ [a]) key (out ++ o) x t := by
  by_cases hk : a.key = key
  · subst hk
    obtain ⟨p, hp, hi, _⟩ := s.buffer.insert_pending_self a.key a.item
    have hpass : passage a.key (out ++ o) x t = delivered a.key out ++ x.toList ++ [a.item] := by
      unfold passage
      rw [delivered_append, delivered_of_quiet quiet, List.append_nil, buffer, hp]
      simp [hi]
    have hoffer : offered a.key (accepted ++ [a]) = offered a.key accepted ++ [a.item] := by
      rw [offered_snoc, if_pos rfl]
    refine ⟨h.held.congr awaiting, ?_, fun _ => ?_⟩
    · rw [hpass, hoffer]
      exact ((List.sublist_append_left _ _).trans h.sublist).append (List.Sublist.refl _)
    · rw [hpass, hoffer, List.getLast?_concat, List.getLast?_concat]
  · have hoffer : offered key (accepted ++ [a]) = offered key accepted := by
      rw [offered_snoc, if_neg hk, List.append_nil]
    have := h.still opened quiet (by rw [buffer, Buffer.insert_pending _ _ _ _ (Ne.symm hk)]) awaiting
    exact ⟨this.held, hoffer ▸ this.sublist, hoffer ▸ this.last⟩

theorem Flow.claim (h : Flow accepted key out x s) (hs : Tended s)
    (opened : t.pool.closed = false → s.pool.closed = false) (before : s.awaiting w = none)
    (buffer : s.buffer.claim = (some e, t.buffer))
    (awaiting : ∀ w', t.awaiting w' = if w = w' then some e else s.awaiting w') :
    Flow accepted key out (if e.key = key then some e.item else x) t := by
  obtain ⟨hp, hfree, _, _, _, _, hb⟩ := hs.valid.claim_some buffer
  by_cases hk : e.key = key
  · subst hk
    -- A claimed identity was not in flight, so nobody held a payload of it.
    have hnone : x = none := by
      rw [Option.eq_none_iff_forall_ne_some]
      intro i hi
      obtain ⟨w', e', hw', hk, _⟩ := (h.held i).mp hi
      have := hs.flight_of (State.draining_of_awaiting hw')
      rw [hk, hfree] at this
      cases this
    subst hnone
    rw [if_pos rfl]
    refine h.keep opened ?_ ?_
    · intro i
      constructor
      · intro hi
        cases hi
        exact ⟨w, e, by rw [awaiting, if_pos rfl], rfl, rfl⟩
      · rintro ⟨w', e', hw', hk, rfl⟩
        rw [awaiting] at hw'
        split at hw'
        · cases hw'; rfl
        · cases (h.held e'.item).mpr ⟨w', e', hw', hk, rfl⟩
    · unfold passage
      simp [hb, hp, Table.get?_erase]
  · rw [if_neg hk]
    refine h.keep opened (h.held.other (w := w) ?_ ?_ awaiting) ?_
    · simp [before]
    · rintro e' ⟨⟩
      exact hk
    · unfold passage
      simp [hb, Table.get?_erase, hk]

theorem Flow.refuse (h : Flow accepted key out x s) (hs : Tended s) (before : s.awaiting w = some e)
    (closed : t.pool.closed = true) (buffer : t.buffer = s.buffer)
    (awaiting : ∀ w', t.awaiting w' = if w = w' then none else s.awaiting w') :
    Flow accepted key out (if e.key = key then none else x) t := by
  -- The payload that the refused worker held is lost.
  have hlost : (passage key out (if e.key = key then none else x) t).Sublist (passage key out x s) := by
    unfold passage
    rw [buffer]
    refine List.Sublist.append ?_ (List.Sublist.refl _)
    refine List.Sublist.append (List.Sublist.refl _) ?_
    split
    · simp
    · exact List.Sublist.refl _
  refine ⟨?_, hlost.trans h.sublist, fun hc => by rw [closed] at hc; cases hc⟩
  by_cases hk : e.key = key
  · subst hk
    rw [if_pos rfl]
    exact Held.release hs before awaiting
  · rw [if_neg hk]
    exact h.held.other (w := w) (by simpa [before] using hk) (by simp) awaiting

theorem Flow.invoke (h : Flow accepted key out x s) (hs : Tended s)
    (opened : t.pool.closed = false → s.pool.closed = false) (c : Connection)
    (before : s.awaiting w = some e) (buffer : t.buffer = s.buffer)
    (awaiting : ∀ w', t.awaiting w' = if w = w' then none else s.awaiting w') :
    Flow accepted key (out ++ [.invoked w e c]) (if e.key = key then none else x) t := by
  by_cases hk : e.key = key
  · subst hk
    have hx := h.held.eq_some before
    subst hx
    rw [if_pos rfl]
    refine h.keep opened (Held.release hs before awaiting) ?_
    unfold passage
    rw [delivered_append, delivered_invoked, if_pos rfl, buffer]
    simp
  · rw [if_neg hk]
    refine h.keep opened (h.held.other (w := w) (by simpa [before] using hk) (by simp) awaiting) ?_
    unfold passage
    rw [delivered_append, delivered_invoked, if_neg hk, List.append_nil, buffer]

theorem Flow.turn (h : Flow accepted key out x s) (hs : Tended s)
    (closed : s.pool.closed = true → t.pool.closed = true) (turn : Turn s t o a?) :
    ∃ x', Flow (accepted ++ a?.toList) key (out ++ o) x' t := by
  have opened : t.pool.closed = false → s.pool.closed = false := by
    intro ht
    by_contra hc
    rw [closed (by simpa using hc)] at ht
    cases ht
  cases turn.passes with
  | still quiet pending awaiting =>
    exact ⟨_, by simpa using h.still opened quiet (by rw [pending]) awaiting⟩
  | accept a quiet buffer awaiting => exact ⟨_, h.accept opened quiet buffer awaiting⟩
  | claim w e before buffer awaiting =>
    exact ⟨_, by simpa using h.claim hs opened before buffer awaiting⟩
  | refuse w e before hc buffer awaiting =>
    exact ⟨_, by simpa using h.refuse hs before (closed hc) buffer awaiting⟩
  | invoke w e c before buffer awaiting =>
    exact ⟨_, by simpa using h.invoke hs opened c before buffer awaiting⟩

/-! ## Runs -/

variable [Named κ] {config : QueueConfig} {connections : List Connection} {events : List (Event κ ι)}

theorem Begins.flow (h : Begins config connections s) (hr : run s events = some (t, out)) (key : κ) :
    ∃ x, Flow (acceptances s events) key out x t := by
  -- What is held changes along the run, so the induction is over the existence of `x`.
  refine run_induction (P := fun events out t => ∃ x, Flow (acceptances s events) key out x t) ?_ ?_ hr
  · have hp : passage key [] none s = [] := by simp [passage, delivered, invocations, h.buffer]
    refine ⟨none, fun i => by simp [h.awaiting], ?_, ?_⟩
    · rw [hp]
      exact List.nil_sublist _
    · rw [hp]
      exact fun _ => rfl
  · intro events o t e u o' hr hp he
    obtain ⟨x, hx⟩ := hp
    have ht := h.tended.run hr
    rw [acceptances_snoc hr he]
    exact hx.turn ht ((step_pool he).closed ht.balanced) (step_turn ht.balanced he)

omit [Named κ] in
theorem Flow.idle (h : Flow accepted key out x s) (hs : Tended s) (idle : s.buffer.state? key = none) :
    passage key out x s = delivered key out := by
  have hf : s.buffer.inFlight.get? key = none ∧ s.buffer.pending.get? key = none := by
    unfold Buffer.state? at idle
    split at idle <;> cases idle
    rename_i hf hp
    exact ⟨Table.contains_eq_false.mp hf, Table.contains_eq_false.mp hp⟩
  have hx : x = none := by
    rw [Option.eq_none_iff_forall_ne_some]
    intro i hi
    obtain ⟨w, e, hw, hk, _⟩ := (h.held i).mp hi
    have := hs.flight_of (State.draining_of_awaiting hw)
    rw [hk, hf.1] at this
    cases this
  unfold passage
  simp [hx, hf.2]

/-- No update is lost, duplicated or overlapped by another. An identity is stored by one worker at a
time. A number that a call is told belongs to one identity, and its entry is handed over at most once,
with the payload accepted last under it. So an identity's payloads are delivered in the order of their
acceptance, and when nothing of it is outstanding in front of an open pool, the last one has been. -/
theorem no_update_lost (h : Begins config connections s) (hr : run s events = some (t, out)) :
    (∀ (w w' : Nat) d d' c c', t.workers[w]? = some (.storing d c) → t.workers[w']? = some (.storing d' c') →
      d.entry.key = d'.entry.key → w = w') ∧
    (∀ n ∈ out, ∀ id r, n.call? = some id → n.receipt? = some r → Earned (acceptances s events) id r) ∧
    (∀ a ∈ acceptances s events, ∀ a' ∈ acceptances s events, a.sequence = a'.sequence → a.key = a'.key) ∧
    ((invocations out).map (·.sequence)).Nodup ∧
    (∀ e ∈ invocations out, Carries (acceptances s events) e.sequence e.key e.item) ∧
    ∀ key, (delivered key out).Sublist (offered key (acceptances s events)) ∧
      (t.pool.closed = false → t.buffer.state? key = none →
        (delivered key out).getLast? = (offered key (acceptances s events)).getLast?) := by
  have ht := h.tended.run hr
  have hl := h.ledger hr
  refine ⟨?_, (h.receipts hr).told, hl.one_key, (h.attempts hr).once, ?_, ?_⟩
  · intro w w' d d' c c' hw hw' hk
    have hd : t.draining w = some d.entry := by unfold State.draining; rw [hw]; rfl
    have hd' : t.draining w' = some d'.entry := by unfold State.draining; rw [hw']; rfl
    exact ht.apart hd hd' hk
  · intro e he
    obtain ⟨w, c, hn⟩ := mem_invocations.mp he
    exact hl.noticed _ hn e rfl
  · intro key
    obtain ⟨x, hf⟩ := h.flow hr key
    refine ⟨?_, fun hc hi => ?_⟩
    · have : (delivered key out).Sublist (passage key out x t) :=
        (List.sublist_append_left _ _).trans (List.sublist_append_left _ _)
      exact this.trans hf.sublist
    · rw [← hf.idle ht hi]
      exact hf.last hc

def pair : QueueConfig := { workers := 2, watermarks := ⟨8, 4⟩ }

def replaced : List (Event String Nat) :=
  [.enqueue 1 "a" 1 false, .work 0, .work 0, .work 0, .work 0, .enqueue 1 "a" 2 false,
    .enqueue 1 "a" 3 false, .finish 0 (.ok ()), .work 0, .work 0, .work 1, .work 1, .work 1, .work 1,
    .finish 1 (.error .timeout), .work 1, .work 1]

theorem no_update_lost_replaced : ∃ s t out, Begins pair [⟨0, 0⟩] s ∧ run s replaced = some (t, out) ∧
    delivered "a" out = [1, 3] ∧ (delivered "a" out).Sublist (offered "a" (acceptances s replaced)) ∧
    (delivered "a" out).getLast? = (offered "a" (acceptances s replaced)).getLast? := by
  obtain ⟨s, t, out, h, hr, hc, hi, hd⟩ : ∃ (s t : State String Nat) (out : _), Begins pair [⟨0, 0⟩] s ∧
      run s replaced = some (t, out) ∧ t.pool.closed = false ∧ t.buffer.state? "a" = none ∧
        delivered "a" out = [1, 3] := ⟨_, _, _, ⟨_, rfl, rfl⟩, rfl, rfl, rfl, rfl⟩
  have hflow := (no_update_lost h hr).2.2.2.2.2 "a"
  exact ⟨s, t, out, h, hr, hd, hflow.1, hflow.2 hc hi⟩

end WriteBehind.Queue
