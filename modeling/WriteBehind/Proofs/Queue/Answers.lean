import WriteBehind.Proofs.Queue.Barrier
import WriteBehind.Proofs.Queue.Surfacing

/-!
# What fences return

A barrier returns what its fence takes, and misses no failure of an entry that was accepted before it. A
closing call returns the failure that its own fence takes; if there is none, what is held at its end.
-/

namespace WriteBehind.Queue

variable {κ ι : Type} [DecidableEq κ] [Named κ]

variable {s₀ s t u w : State κ ι} {events : List (Event κ ι)} {e : Event κ ι} {out : List (Notice κ ι)}
  {id : Nat} {target q : Sequence} {result : Result} {config : QueueConfig} {connections : List Connection}

/-- A call in a run, from the step at which it is made to the step at which it returns. -/
structure Answered (s₀ : State κ ι) (events : List (Event κ ι)) (call : Event κ ι) (id : Nat)
    (result : Result) where
  (before mid after : List (Event κ ι))
  last : Event κ ι
  (s t u v : State κ ι)
  (o₁ o₂ o₃ o₄ : List (Notice κ ι))
  split : events = before ++ call :: mid ++ last :: after
  reached : run s₀ before = some (s, o₁)
  made : step s call = some (t, o₂)
  waited : run t mid = some (u, o₃)
  silent : ∀ r, .returned id r ∉ o₃
  ended : step u last = some (v, o₄)
  told : .returned id result ∈ o₄

namespace Answered

variable {call : Event κ ι} (c : Answered s₀ events call id result)

def history : List (Report κ) := reports s₀ (c.before ++ call :: c.mid)

theorem made_run : run s₀ (c.before ++ [call]) = some (c.t, c.o₁ ++ c.o₂) := run_snoc c.reached c.made

theorem waited_run : run s₀ (c.before ++ call :: c.mid) = some (c.u, c.o₁ ++ c.o₂ ++ c.o₃) := by
  rw [← List.singleton_append, ← List.append_assoc]
  exact run_append.mpr ⟨c.t, _, c.o₃, c.made_run, c.waited, rfl⟩

theorem reports_eq :
    reports s₀ events = c.history ++ reported c.u c.last (c.v, c.o₄) ++ reports c.v c.after := by
  have hsplit : events = c.before ++ call :: c.mid ++ [c.last] ++ c.after := by simp [c.split]
  calc reports s₀ events
      = reports s₀ (c.before ++ call :: c.mid ++ [c.last] ++ c.after) := congrArg _ hsplit
    _ = reports s₀ (c.before ++ call :: c.mid ++ [c.last]) ++ reports c.v c.after :=
        observe_append (run_snoc c.waited_run c.ended)
    _ = _ := congrArg (· ++ reports c.v c.after) (observe_snoc c.waited_run c.ended)

theorem rest (c : Answered s₀ events call id result) (hr : run s₀ events = some (w, out)) :
    ∃ o, run c.u (c.last :: c.after) = some (w, c.o₄ ++ o) ∧ out = c.o₁ ++ c.o₂ ++ c.o₃ ++ (c.o₄ ++ o) := by
  rw [c.split] at hr
  obtain ⟨u, o, o', hu, hrest, rfl⟩ := run_append.mp hr
  rw [c.waited_run] at hu
  cases hu
  obtain ⟨v, o₄, o, hv, hafter, rfl⟩ := run_cons.mp hrest
  rw [c.ended] at hv
  cases hv
  exact ⟨o, run_cons.mpr ⟨c.v, c.o₄, o, c.ended, hafter, rfl⟩, rfl⟩

end Answered

/-! ## Barriers -/

theorem barrier_step (hb : s.pool.Balanced) (h : step s e = some (t, out))
    (hp : s.phase? id = some (.fence target)) :
    t.phase? id = some (.fence target) ∧ (∀ r, .returned id r ∉ out) ∨
      e = .look id ∧ s.buffer.isDrainedThrough target = true ∧
        out = [.returned id ((surfaced s.failure).map fun _ => .done)] := by
  obtain ⟨_, haside⟩ | ⟨rfl, hl⟩ := waiting_step hb h hp nofun
  · exact .inl ⟨haside.phase?.trans hp, fun r hm => haside.silent _ hm rfl⟩
  · generalize t.phase? id = phase? at hl
    cases hl with
    | asleep => exact .inl ⟨rfl, by simp⟩
    | reported _ drained => exact .inr ⟨rfl, drained, rfl⟩

theorem barrier_lasts (hs : Tended s) (hp : s.phase? id = some (.fence target))
    (hr : run s events = some (t, out)) (hn : ∀ r, .returned id r ∉ out) :
    t.phase? id = some (.fence target) := by
  refine run_induction (P := fun _ o t => (∀ r, .returned id r ∉ o) → t.phase? id = some (.fence target))
    (fun _ => hp) ?_ hr hn
  intro events o t e u o' hr hp he hn
  have hp := hp fun r hm => hn r (List.mem_append_left _ hm)
  obtain ⟨hp', _⟩ | ⟨_, _, rfl⟩ := barrier_step (hs.run hr).balanced he hp
  · exact hp'
  · exact absurd (List.mem_append_right _ (List.mem_singleton_self _)) (hn _)

theorem drained_never_again (hs : Tended s) (hle : q ≤ s.buffer.last) (hq : q ∉ s.buffer.outstanding)
    (hr : run s events = some (t, out)) : ∀ d r, .drained d r ∈ out → d.sequence ≠ q := by
  have : q ≤ t.buffer.last ∧ q ∉ t.buffer.outstanding ∧ ∀ d r, .drained d r ∈ out → d.sequence ≠ q := by
    refine run_induction (P := fun _ o t => q ≤ t.buffer.last ∧ q ∉ t.buffer.outstanding ∧
      ∀ d r, .drained d r ∈ o → d.sequence ≠ q) ⟨hle, hq, by simp⟩ ?_ hr
    intro events o t e u o' hr ⟨hle, hq, hn⟩ he
    have ht := hs.run hr
    have turn := step_turn ht.balanced he
    refine ⟨Nat.le_trans hle turn.last_le, fun hm => ?_, fun d r hm => ?_⟩
    · rcases turn.outstanding_of hm with hm | hm
      · exact hq hm
      · exact absurd hle (Nat.not_le.mpr hm)
    · rcases List.mem_append.mp hm with hm | hm
      · exact hn d r hm
      · rintro rfl
        obtain ⟨_, _, _, w, move⟩ := turn.drained hm
        exact hq (ht.valid.flight_mem (ht.flight_of move.draining_self))
  exact this.2.2

theorem barrier_misses_nothing (h₀ : Begins config connections s₀) (hr : run s₀ events = some (w, out))
    (c : Answered s₀ events (.barrier id) id result) :
    reports s₀ events = c.history ++ [.taken id (result.map fun _ => ())] ++ reports c.v c.after ∧
    ∀ a ∈ acceptances s₀ c.before, ∀ d cause, .drained d (.error cause) ∈ out → d.sequence = a.sequence →
      ∃ earlier later, c.history = earlier ++ .failed ⟨d.key, d.sequence, cause⟩ :: later ∧
        ((∀ id' r, .taken id' r ∉ later) → ∃ err, result = .error err) := by
  have hu := c.waited_run
  have htended := h₀.tended.run hu
  have hphase : c.t.phase? id = some (.fence c.s.buffer.last) := by
    obtain ⟨_, free, hcall⟩ := issue_eq_some.mp c.made
    rw [← (Prod.mk.inj hcall).1]
    exact State.phase?_wait_self _ id _
  have hpu := barrier_lasts (h₀.tended.run c.made_run) hphase c.waited c.silent
  obtain ⟨hlast, hdrained, hout⟩ :=
    (barrier_step htended.balanced c.ended hpu).resolve_left fun h => h.2 result c.told
  have hresult : result = (surfaced c.u.failure).map fun _ => .done := by
    have := c.told
    rw [hout] at this
    simpa using this
  have hfail := h₀.failures hu
  refine ⟨?_, ?_⟩
  · rw [c.reports_eq]
    congr 2
    simp [hlast, hout, reported, takenBy, hpu, Notice.result?, hresult]
  · intro a ha d cause hd hseq
    have hle : a.sequence ≤ c.s.buffer.last := (h₀.ledger c.reached).le_last a ha
    -- The entry has retired when the barrier takes, so its failure was reported by then.
    have hq : a.sequence ∉ c.u.buffer.outstanding := fun hm =>
      absurd ((htended.valid.isDrainedThrough_iff _).mp hdrained _ hm) (Nat.not_lt.mpr hle)
    have hlast : a.sequence ≤ c.u.buffer.last := by
      refine (h₀.ledger hu).le_last a ?_
      rw [acceptances_append c.reached]
      exact List.mem_append_left _ ha
    have hd : .drained d (.error cause) ∈ c.o₁ ++ c.o₂ ++ c.o₃ := by
      obtain ⟨o, hrest, rfl⟩ := c.rest hr
      refine (List.mem_append.mp hd).resolve_right fun hd => ?_
      exact drained_never_again htended hlast hq hrest d _ hd hseq
    have hf : (⟨d.key, d.sequence, cause⟩ : Failure κ) ∈ failures c.history :=
      (hfail.failed_iff _).mpr ⟨d, cause, rfl, .inl hd⟩
    obtain ⟨earlier, later, heq⟩ := List.append_of_mem (mem_failures.mp hf)
    refine ⟨earlier, later, heq, fun hnone => ?_⟩
    have hmem := mem_unreported ⟨d.key, d.sequence, cause⟩ earlier later hnone
    rw [← heq] at hmem
    obtain ⟨f, rest, hu⟩ := List.exists_cons_of_ne_nil (List.ne_nil_of_mem hmem)
    refine ⟨f.error, ?_⟩
    rw [hresult, hfail.held]
    unfold Answered.history at hu
    rw [hu]
    rfl

/-! ## Closing calls -/

def takes (id : Nat) (history : List (Report κ)) : List (Except Error Unit) :=
  history.filterMap fun
    | .taken id' r => if id' = id then some r else none
    | .failed _ => none

omit [DecidableEq κ] [Named κ] in
theorem takes_append (id : Nat) (h h' : List (Report κ)) : takes id (h ++ h') = takes id h ++ takes id h' :=
  List.filterMap_append

omit [DecidableEq κ] [Named κ] in
theorem takes_reported {effect : Effect κ ι} (h : e.call? ≠ some id) : takes id (reported s e effect) = [] := by
  refine List.filterMap_eq_nil_iff.mpr fun r hr => ?_
  cases r with
  | failed => rfl
  | taken id' result =>
    have hid : id' ≠ id := by
      rintro rfl
      exact h (congrArg Event.call? (of_mem_reported hr))
    simp [hid]

theorem closing_step (hb : s.pool.Balanced) (h : step s e = some (t, out))
    (hp : s.phase? id = some (.closing target)) :
    (∀ r, .returned id r ∉ out) ∧
      (t.phase? id = some (.closing target) ∧ takes id (reported s e (t, out)) = [] ∨
        ∃ r, t.phase? id = some (.flushed r) ∧ takes id (reported s e (t, out)) = [r]) := by
  obtain ⟨hid, haside⟩ | ⟨rfl, hl⟩ := waiting_step hb h hp nofun
  · exact ⟨fun r hm => haside.silent _ hm rfl, .inl ⟨haside.phase?.trans hp, takes_reported hid⟩⟩
  · generalize hq : t.phase? id = phase? at hl
    cases hl with
    | asleep => exact ⟨by simp, .inl ⟨rfl, by simp [reported, takenBy, hp, hq, takes]⟩⟩
    | flushed => exact ⟨by simp, .inr ⟨_, rfl, by simp [reported, takenBy, hp, hq, takes]⟩⟩

theorem flushed_step (hb : s.pool.Balanced) (h : step s e = some (t, out)) {phase : CallPhase}
    {r : Except Error Unit} (hp : s.phase? id = some phase) (hr : phase.flushed? = some r) :
    (∃ phase, t.phase? id = some phase ∧ phase.flushed? = some r) ∧ takes id (reported s e (t, out)) = [] ∧
        (∀ r, .returned id r ∉ out) ∨
      phase = .ending r ∧ e = .look id ∧ out = [.returned id (closing s.failure r)] := by
  have hc : ∀ conn, phase ≠ .holding conn := by
    rintro conn rfl
    cases hr
  obtain ⟨hid, haside⟩ | ⟨rfl, hl⟩ := waiting_step hb h hp hc
  · exact .inl ⟨⟨phase, haside.phase?.trans hp, hr⟩, takes_reported hid,
      fun r hm => haside.silent _ hm rfl⟩
  · generalize hq : t.phase? id = phase? at hl
    cases hl with
    | asleep _ blocked =>
      cases phase with
      | stalled | fence | closing => cases hr
      | _ => exact False.elim blocked
    | shut => exact .inl ⟨⟨_, rfl, hr⟩, by simp [reported, takenBy, hp, takes], by simp⟩
    | taken => exact .inl ⟨⟨_, rfl, hr⟩, by simp [reported, takenBy, hp, takes], by simp⟩
    | joined => exact .inl ⟨⟨_, rfl, hr⟩, by simp [reported, takenBy, hp, takes], by simp⟩
    | ended =>
      cases hr
      exact .inr ⟨rfl, rfl, rfl⟩
    | _ => cases hr

theorem closing_lasts (hs : Tended s) (hp : s.phase? id = some (.closing target))
    (hr : run s events = some (t, out)) (hn : ∀ r, .returned id r ∉ out) :
    t.phase? id = some (.closing target) ∧ takes id (reports s events) = [] ∨
      ∃ phase r, t.phase? id = some phase ∧ phase.flushed? = some r ∧ takes id (reports s events) = [r] := by
  refine run_induction (P := fun events o t => (∀ r, .returned id r ∉ o) →
    t.phase? id = some (.closing target) ∧ takes id (reports s events) = [] ∨
      ∃ phase r, t.phase? id = some phase ∧ phase.flushed? = some r ∧ takes id (reports s events) = [r])
    (fun _ => .inl ⟨hp, rfl⟩) ?_ hr hn
  intro events o t e u o' hr hp he hn
  have hb := (hs.run hr).balanced
  rw [show reports s (events ++ [e]) = _ from observe_snoc hr he, takes_append]
  obtain ⟨hp, htakes⟩ | ⟨phase, r, hp, hphase, htakes⟩ := hp fun r hm => hn r (List.mem_append_left _ hm)
  · unfold reports at htakes
    rw [htakes, List.nil_append]
    obtain ⟨_, ⟨hp, hnil⟩ | ⟨r, hp, hone⟩⟩ := closing_step hb he hp
    · exact .inl ⟨hp, hnil⟩
    · exact .inr ⟨_, r, hp, rfl, hone⟩
  · unfold reports at htakes
    obtain ⟨⟨phase, hp, hphase⟩, hnil, _⟩ | ⟨_, _, rfl⟩ := flushed_step hb he hp hphase
    · exact .inr ⟨phase, r, hp, hphase, by rw [htakes, hnil]; rfl⟩
    · exact absurd (List.mem_append_right _ (List.mem_singleton_self _)) (hn _)

theorem closing_returns (h₀ : Begins config connections s₀) (c : Answered s₀ events (.close id) id result)
    (opened : c.s.closed = false) :
    ∃ flushed, takes id (reports c.t c.mid) = [flushed] ∧
      (flushed = .ok () →
        reports s₀ events = c.history ++ [.taken id (result.map fun _ => ())] ++ reports c.v c.after) ∧
      ∀ err, flushed = .error err →
        result = .error err ∧ reports s₀ events = c.history ++ reports c.v c.after := by
  have hphase : c.t.phase? id = some (.closing c.s.buffer.last) := by
    obtain ⟨_, free, hcall⟩ := issue_eq_some.mp c.made
    unfold State.close at hcall
    rw [if_neg (by simp [opened])] at hcall
    rw [← (Prod.mk.inj hcall).1]
    exact State.phase?_wait_self _ id _
  have hb := (h₀.tended.run c.waited_run).balanced
  obtain ⟨hp, _⟩ | ⟨phase, flushed, hp, hflushed, htakes⟩ :=
    closing_lasts (h₀.tended.run c.made_run) hphase c.waited c.silent
  · exact absurd c.told ((closing_step hb c.ended hp).1 result)
  · obtain ⟨rfl, hlast, hout⟩ := (flushed_step hb c.ended hp hflushed).resolve_left fun h => h.2.2 result c.told
    have hresult : result = closing c.u.failure flushed := by
      have := c.told
      rw [hout] at this
      simpa using this
    refine ⟨flushed, htakes, ?_, ?_⟩
    · rintro rfl
      rw [c.reports_eq]
      congr 2
      simp [hlast, hout, reported, takenBy, hp, Notice.result?, hresult]
    · rintro err rfl
      refine ⟨hresult, ?_⟩
      rw [c.reports_eq]
      simp [hlast, reported, takenBy, hp]

/-! ## Failures -/

omit [DecidableEq κ] in
theorem error_of_taken {earlier : List (Report κ)} {r : Except Error Unit}
    (h : r = surfaced (unreported earlier).head?) :
    (r = .ok () ↔ unreported earlier = []) ∧
      ∀ key sequence cause rest, unreported earlier = ⟨key, sequence, cause⟩ :: rest →
        r = .error (.deferred (Named.describe key) sequence cause) := by
  subst h
  cases unreported earlier with
  | nil => exact ⟨iff_of_true rfl rfl, nofun⟩
  | cons f later =>
    refine ⟨iff_of_false nofun nofun, fun key sequence cause rest heq => ?_⟩
    cases heq
    rfl

/-- Failures surface once, and none is missed. A fence says the first failure since the last fence that
took one, with its key, its number and its cause, and nothing if there is none. What a call returns is what
its own fence took; it is a drain that failed, and nobody else returns it. A failure of an entry that was
accepted before a barrier is in the history when the barrier takes, so the barrier returns an error unless
another fence has taken in between. -/
theorem failures_surface_once (h₀ : Begins config connections s₀) (hr : run s₀ events = some (w, out)) :
    (∀ earlier id r later, reports s₀ events = earlier ++ .taken id r :: later →
      (r = .ok () ↔ unreported earlier = []) ∧
      ∀ key sequence cause rest, unreported earlier = ⟨key, sequence, cause⟩ :: rest →
        r = .error (.deferred (Named.describe key) sequence cause)) ∧
    (∀ f, f ∈ failures (reports s₀ events) ↔ ∃ d cause, f = ⟨d.key, d.sequence, cause⟩ ∧
      (.drained d (.error cause) ∈ out ∨
        ∃ n : Nat, w.workers[n]? = some (.retiring d (.error cause)))) ∧
    ((failures (reports s₀ events)).map (·.sequence)).Nodup ∧
    (takenErrors (reports s₀ events)).Sublist ((failures (reports s₀ events)).map fun f =>
      .deferred (Named.describe f.key) f.sequence f.cause) ∧
    (∀ id err, .returned id (.error err) ∈ out → err.isDeferred = true →
      .taken id (.error err) ∈ reports s₀ events) ∧
    (surfacedErrors out).Nodup ∧
    (∀ id result (c : Answered s₀ events (.barrier id) id result),
      reports s₀ events = c.history ++ [.taken id (result.map fun _ => ())] ++ reports c.v c.after ∧
      ∀ a ∈ acceptances s₀ c.before, ∀ d cause, .drained d (.error cause) ∈ out → d.sequence = a.sequence →
        ∃ earlier later, c.history = earlier ++ .failed ⟨d.key, d.sequence, cause⟩ :: later ∧
          ((∀ id' r, .taken id' r ∉ later) → ∃ err, result = .error err)) ∧
    ∀ id result (c : Answered s₀ events (.close id) id result), c.s.closed = false →
      ∃ flushed, takes id (reports c.t c.mid) = [flushed] ∧
        (flushed = .ok () →
          reports s₀ events = c.history ++ [.taken id (result.map fun _ => ())] ++ reports c.v c.after) ∧
        ∀ err, flushed = .error err →
          result = .error err ∧ reports s₀ events = c.history ++ reports c.v c.after := by
  have hf := h₀.failures hr
  have ht := h₀.told hr
  refine ⟨?_, hf.failed_iff, hf.once, ?_, ht.told, ht.nodup, ?_, ?_⟩
  · exact fun earlier id r later heq => error_of_taken (hf.taken earlier id r later heq)
  · exact (List.sublist_append_left _ _).trans (takenErrors_sublist _ hf.taken)
  · exact fun id result c => barrier_misses_nothing h₀ hr c
  · exact fun id result c opened => closing_returns h₀ c opened

def threeFailures : List (Event String Nat) :=
  [.enqueue 1 "a" 1 false, .enqueue 1 "b" 2 false] ++ drainOne 0 (.error .timeout) ++
    .barrier 2 :: drainOne 0 (.error (.crashed "gone")) ++
    .look 2 :: .enqueue 3 "c" 3 false :: drainOne 0 (.error (.backend "full")) ++ [.barrier 4, .look 4]

theorem failures_surface_once_twice : ∃ (s₀ w : State String Nat) (out : _)
    (first second : Except Error Unit), Begins pair [⟨0, 0⟩] s₀ ∧ run s₀ threeFailures = some (w, out) ∧
    reports s₀ threeFailures = [.failed ⟨"a", ⟨1⟩, .timeout⟩, .failed ⟨"b", ⟨2⟩, .crashed "gone"⟩,
      .taken 2 first, .failed ⟨"c", ⟨3⟩, .backend "full"⟩, .taken 4 second] ∧
    first = .error (.deferred "\"a\"" ⟨1⟩ .timeout) ∧
    second = .error (.deferred "\"c\"" ⟨3⟩ (.backend "full")) ∧
    surfacedErrors out = [.deferred "\"a\"" ⟨1⟩ .timeout, .deferred "\"c\"" ⟨3⟩ (.backend "full")] ∧
    (surfacedErrors out).Nodup := by
  obtain ⟨s₀, w, out, first, second, h₀, hr, hreports, htold⟩ :
      ∃ (s₀ w : State String Nat) (out : _) (first second : Except Error Unit),
      Begins pair [⟨0, 0⟩] s₀ ∧ run s₀ threeFailures = some (w, out) ∧
      reports s₀ threeFailures = [.failed ⟨"a", ⟨1⟩, .timeout⟩, .failed ⟨"b", ⟨2⟩, .crashed "gone"⟩,
        .taken 2 first, .failed ⟨"c", ⟨3⟩, .backend "full"⟩, .taken 4 second] ∧
      surfacedErrors out = [.deferred "\"a\"" ⟨1⟩ .timeout, .deferred "\"c\"" ⟨3⟩ (.backend "full")] :=
    ⟨_, _, _, _, _, ⟨_, rfl, rfl⟩, rfl, rfl, rfl⟩
  obtain ⟨htaken, _, _, _, _, hnodup, _⟩ := failures_surface_once h₀ hr
  have hfirst := (htaken [.failed ⟨"a", ⟨1⟩, .timeout⟩, .failed ⟨"b", ⟨2⟩, .crashed "gone"⟩]
    2 first _ hreports).2 "a" ⟨1⟩ .timeout _ rfl
  have hsecond := (htaken [.failed ⟨"a", ⟨1⟩, .timeout⟩, .failed ⟨"b", ⟨2⟩, .crashed "gone"⟩,
    .taken 2 first, .failed ⟨"c", ⟨3⟩, .backend "full"⟩] 4 second [] hreports).2
    "c" ⟨3⟩ (.backend "full") [] rfl
  exact ⟨s₀, w, out, first, second, h₀, hr, hreports, hfirst, hsecond, htold, hnodup⟩

end WriteBehind.Queue
