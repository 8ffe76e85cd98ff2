import WriteBehind.Proofs.Queue.Barrier
import WriteBehind.Proofs.Queue.Teardown

/-!
# Closing the pool

A closing call closes the pool behind the workers exactly if it has taken the workers itself, or they had
all exited when it came to take them. In runs where every closing call does so, no accepted write loses
its connection.
-/

namespace WriteBehind.Queue

variable {κ ι : Type} [DecidableEq κ] [Named κ] {s₀ s t u v : State κ ι} {out o o' : List (Notice κ ι)}
  {before after events later : List (Event κ ι)} {e : Event κ ι} {id w n : Nat} {config : QueueConfig}
  {connections : List Connection} {flushed : Except Error Unit} {workers : List Nat}

theorem Begins.staffed (h : Begins config connections s₀) (hr : run s₀ events = some (t, out)) :
    0 < config.workers ∧ Staffed config.workers t := by
  obtain ⟨pool, _, hpos, hs⟩ := h.eq
  refine ⟨hpos, run_induction (P := fun _ _ t => Staffed config.workers t) ?_ ?_ hr⟩
  · subst hs
    refine ⟨List.length_replicate, fun w hw => ?_, .inl rfl, by simp [h.phase?]⟩
    have := (List.mem_replicate.mp (List.mem_of_getElem? hw)).2
    cases this
  · intro events o t e u o' hr hp he
    exact hp.step (h.tended.run hr) he

theorem AllExited.run (hx : AllExited s) (hs : Tended s) (hr : run s events = some (t, out)) : AllExited t := by
  refine run_induction (P := fun _ _ t => AllExited t) hx ?_ hr
  intro events o t e u o' hr hx he
  have ht := hs.run hr
  unfold AllExited
  rw [(step_turn ht.balanced he).all_exited hx]
  exact hx

omit [Named κ] in
theorem Staffed.all_exited (h : Staffed n s)
    (hx : ∀ w ∈ List.range n, ∀ ph, s.workers[w]? = some ph → ph.isExited = true) : AllExited s := by
  intro w ph hw
  refine hx w (List.mem_range.mpr ?_) ph hw
  rw [← h.size]
  exact (List.getElem?_eq_some_iff.mp hw).1

/-- A closing call closes the pool behind the workers, whatever happens in between, exactly if it finds
workers to take or all workers have exited. -/
theorem closes_behind_workers_iff (h₀ : Begins config connections s₀) (hs : run s₀ before = some (s, out))
    (hp : s.phase? id = some (.stopping flushed)) (he : step s (.look id) = some (t, o)) :
    (∀ later u o' flushed workers v o'', run t later = some (u, o') →
      u.phase? id = some (.joining flushed workers) → step u (.look id) = some (v, o'') →
        AllExited u ∧ u.buffer.outstanding = []) ↔ s.unjoined ≠ [] ∨ AllExited s := by
  obtain ⟨hpos, hstaff⟩ := h₀.staffed hs
  obtain ⟨hphase, hclosed, hworkers⟩ := stopping_step hp he
  have hclosed : t.closed = true := hclosed.trans (hstaff.behind id _ hp rfl)
  have ht := run_snoc hs he
  have htended := h₀.tended.run ht
  constructor
  · intro hall
    by_contra hn
    rw [not_or, not_not] at hn
    obtain ⟨hnobody, hrunning⟩ := hn
    rw [hnobody] at hphase
    obtain ⟨u, o', hu⟩ := joining_nobody hphase
    -- A call that waits for nobody can close the pool at its next look.
    have hx := (hall [] t [] _ [] u o' rfl hphase hu).1
    unfold AllExited at hx hrunning
    exact hrunning (hworkers ▸ hx)
  · intro hsafe later u o' flushed' workers v o'' hu hjoin hv
    have hsu := run_append.mpr ⟨t, _, o', ht, hu, rfl⟩
    have hx : AllExited u := by
      rcases hsafe with hfound | hx
      · -- The call waits for all workers, and never comes to take workers again.
        have hstart : Waiting config.workers id t := by
          refine ⟨hclosed, ?_, fun f ws hq => ?_⟩
          · intro ⟨phase, hq, ha⟩
            rw [hphase] at hq
            cases hq
            cases ha
          · rw [hphase] at hq
            cases hq
            exact hstaff.unjoined.resolve_right hfound
        have hwaits := run_induction (P := fun _ _ u => Waiting config.workers id u) hstart
          (fun _ _ _ _ _ _ hr hw he => hw.step (htended.run hr) he) hu
        have hexited := (joining_step hjoin hv).1
        rw [hwaits.joining _ _ hjoin] at hexited
        exact (h₀.staffed hsu).2.all_exited hexited
      · have hx : AllExited t := by
          unfold AllExited at hx ⊢
          rwa [hworkers]
        exact hx.run htended hu
    exact ⟨hx, (h₀.staffed hsu).2.drained hpos (h₀.tended.run hsu) hx⟩

/-! ## Orderly runs -/

/-- Every closing call of the run finds workers to take, or comes to take them when all have exited. -/
def Orderly (s₀ : State κ ι) (events : List (Event κ ι)) : Prop :=
  ∀ before id after s out flushed, events = before ++ .look id :: after → run s₀ before = some (s, out) →
    s.phase? id = some (.stopping flushed) → s.unjoined ≠ [] ∨ AllExited s

theorem Orderly.init (h : Orderly s₀ (events ++ later)) : Orderly s₀ events := by
  intro before id after s out flushed heq
  exact h before id (after ++ later) s out flushed (by simp [heq])

theorem Orderly.last (h : Orderly s₀ (events ++ [e])) (hr : run s₀ events = some (s, out)) :
    ∀ id flushed, e = .look id → s.phase? id = some (.stopping flushed) → s.unjoined ≠ [] ∨ AllExited s := by
  rintro id flushed rfl hp
  exact h events id [] s out flushed rfl hr hp

structure Joined (n : Nat) (s : State κ ι) : Prop where
  joining : ∀ id flushed workers, s.phase? id = some (.joining flushed workers) →
    workers = List.range n ∨ AllExited s
  ending : ∀ id flushed, s.phase? id = some (.ending flushed) → AllExited s

theorem Joined.all_exited (h : Joined n s) (hstaff : Staffed n s)
    (hp : s.phase? id = some (.joining flushed workers)) (he : Queue.step s (.look id) = some (t, out)) :
    AllExited s := by
  rcases h.joining id flushed workers hp with rfl | hx
  · exact hstaff.all_exited (joining_step hp he).1
  · exact hx

theorem Joined.step (h : Joined n s) (hstaff : Staffed n s) (hs : Tended s)
    (he : step s e = some (t, out)) (hsafe : ∀ id flushed, e = .look id →
      s.phase? id = some (.stopping flushed) → s.unjoined ≠ [] ∨ AllExited s) : Joined n t := by
  have hx : AllExited s → AllExited t := by
    intro hx
    unfold AllExited
    rw [(step_turn hs.balanced he).all_exited hx]
    exact hx
  constructor
  case joining =>
    intro id flushed workers hp
    obtain hp | ⟨rfl, before, hbefore, hl⟩ := behind_step hs he hp rfl
    · exact (h.joining id flushed workers hp).imp_right hx
    · cases hl with
      | asleep _ blocked => exact False.elim blocked
      | taken => exact (hsafe id flushed rfl hbefore).imp hstaff.unjoined.resolve_right hx
  case ending =>
    intro id flushed hp
    obtain hp | ⟨rfl, before, hbefore, hl⟩ := behind_step hs he hp rfl
    · exact hx (h.ending id flushed hp)
    · cases hl with
      | asleep _ blocked => exact False.elim blocked
      | joined => exact hx (h.all_exited hstaff hbefore he)

theorem Orderly.joined (h₀ : Begins config connections s₀) (hr : run s₀ events = some (t, out))
    (h : Orderly s₀ events) : Joined config.workers t := by
  refine run_induction (P := fun events _ t => Orderly s₀ events → Joined config.workers t) ?_ ?_ hr h
  · exact fun _ => ⟨by simp [h₀.phase?], by simp [h₀.phase?]⟩
  · intro events o t e u o' hr hp he h
    exact (hp h.init).step (h₀.staffed hr).2 (h₀.tended.run hr) he (h.last hr)

def Event.isClose : Event κ ι → Bool
  | .close _ => true
  | _ => false

/-- How closing calls stand if there has been one of them at most: it takes the workers, and nobody has
taken them before. -/
structure Single (n : Nat) (events : List (Event κ ι)) (s : State κ ι) : Prop where
  none : events.countP Event.isClose = 0 → s.unjoined = List.range n ∧ ∀ id, ¬ Ahead s id
  one : events.countP Event.isClose ≤ 1 → ∀ id, Ahead s id →
    s.unjoined = List.range n ∧ ∀ id', Ahead s id' → id' = id

theorem Single.step (h : Single n events s) (hs : Tended s) (he : Queue.step s e = some (t, out)) :
    Single n (events ++ [e]) t := by
  have hcount : (events ++ [e]).countP Event.isClose =
      events.countP Event.isClose + if e.isClose then 1 else 0 := by
    simp [List.countP_append, List.countP_cons]
  obtain ⟨_, hunjoined⟩ := step_shift he
  cases hc : e.isClose with
  | true =>
    rw [hc, if_pos rfl] at hcount
    constructor
    case none => intro h0; omega
    case one =>
      intro h1 id ha
      obtain ⟨hu, hnone⟩ := h.none (by omega)
      obtain ⟨rfl, _⟩ := (ahead_step hs he ha).resolve_left (hnone id)
      refine ⟨?_, fun id' ha' => ?_⟩
      · obtain hsame | ⟨_, _, hlook, _⟩ := hunjoined
        · rw [hsame, hu]
        · cases hlook
      · obtain ⟨heq, _⟩ := (ahead_step hs he ha').resolve_left (hnone id')
        cases heq
        rfl
  | false =>
    rw [hc, if_neg (by simp), Nat.add_zero] at hcount
    have hback : ∀ id, Ahead t id → Ahead s id := by
      intro id ha
      refine (ahead_step hs he ha).resolve_right ?_
      rintro ⟨rfl, _⟩
      cases hc
    constructor
    case none =>
      intro h0
      obtain ⟨hu, hnone⟩ := h.none (hcount ▸ h0)
      refine ⟨?_, fun id ha => hnone id (hback id ha)⟩
      obtain hsame | ⟨id, _, _, hp, _⟩ := hunjoined
      · rw [hsame, hu]
      · exact absurd ⟨_, hp, rfl⟩ (hnone id)
    case one =>
      intro h1 id ha
      obtain ⟨hu, hone⟩ := h.one (hcount ▸ h1) id (hback id ha)
      refine ⟨?_, fun id' ha' => hone id' (hback id' ha')⟩
      obtain hsame | ⟨id', _, rfl, hp, _⟩ := hunjoined
      · rw [hsame, hu]
      · -- The call that takes the workers is the only one, and has come past that.
        obtain rfl := hone id' ⟨_, hp, rfl⟩
        obtain ⟨phase, hq, hahead⟩ := ha
        rw [(stopping_step hp he).1] at hq
        cases hq
        cases hahead

theorem Begins.single (h : Begins config connections s₀) (hr : run s₀ events = some (t, out)) :
    Single config.workers events t := by
  refine run_induction (P := fun events _ t => Single config.workers events t) ?_ ?_ hr
  · obtain ⟨pool, _, _, hs⟩ := h.eq
    have hahead : ∀ id, ¬ Ahead s₀ id := by
      intro id ⟨_, hp, _⟩
      simp [h.phase?] at hp
    exact ⟨fun _ => ⟨by rw [hs], hahead⟩, fun _ id ha => absurd ha (hahead id)⟩
  · intro events o t e u o' hr hp he
    exact hp.step (h.tended.run hr) he

theorem orderly_of_single (h₀ : Begins config connections s₀) (h : events.countP Event.isClose ≤ 1) :
    Orderly s₀ events := by
  rintro before id after s out flushed rfl hs hp
  obtain ⟨hpos, _⟩ := h₀.staffed hs
  have hle : before.countP Event.isClose ≤ 1 := by
    rw [List.countP_append] at h
    omega
  obtain ⟨hu, _⟩ := (h₀.single hs).one hle id ⟨_, hp, rfl⟩
  left
  rw [hu]
  intro hnil
  have := congrArg List.length hnil
  rw [List.length_range] at this
  exact absurd this (Nat.ne_of_gt hpos)

theorem Orderly.pool (h₀ : Begins config connections s₀) (hr : run s₀ events = some (t, out))
    (h : Orderly s₀ events) (hn : .closePool ∉ events) (hc : t.pool.closed = true) : AllExited t := by
  refine run_induction (P := fun events _ t => Orderly s₀ events → .closePool ∉ events →
    t.pool.closed = true → AllExited t) ?_ ?_ hr h hn hc
  · intro _ _ hc
    obtain ⟨pool, hpool, _, rfl⟩ := h₀.eq
    rw [show pool.closed = false from Pool.ofConnections_closed hpool] at hc
    cases hc
  · intro events o t e u o' hr hp he h hn hc
    have ht := h₀.tended.run hr
    have hx : AllExited t := by
      rcases (step_pool he).closed_iff ht.balanced with heq | ⟨rfl | ⟨id, c, f, ws, rfl, hcall, hphase⟩, _⟩
      · exact hp h.init (fun hm => hn (List.mem_append_left _ hm)) (heq ▸ hc)
      · exact absurd (List.mem_append_right _ (List.mem_singleton_self _)) hn
      · have hjoin : t.phase? id = some (.joining f ws) :=
          (State.phase?_of_call hcall).trans (congrArg some hphase)
        exact (Orderly.joined h₀ hr h.init).all_exited (h₀.staffed hr).2 hjoin he
    exact hx.run ht (run_singleton.mpr he)

theorem Orderly.attempts (h₀ : Begins config connections s₀) (hr : run s₀ events = some (t, out))
    (h : Orderly s₀ events) (hn : .closePool ∉ events) :
    Attempts (acceptances s₀ events) (fun _ => False) out t := by
  refine run_induction (P := fun events out t => Orderly s₀ events → .closePool ∉ events →
    Attempts (acceptances s₀ events) (fun _ => False) out t) (fun _ _ => h₀.no_attempts) ?_ hr h hn
  intro events o t e u o' hr hp he h hn
  have hn : .closePool ∉ events := fun hm => hn (List.mem_append_left _ hm)
  have ht := h₀.tended.run hr
  rw [acceptances_snoc hr he]
  refine (hp h.init hn).turn (h₀.ledger hr) ht (ht.step he) (step_turn ht.balanced he) (fun _ hf => hf) ?_
  intro w d hw hc
  obtain ⟨ph, hph, hd⟩ := Option.bind_eq_some_iff.mp hw
  have hx := Orderly.pool h₀ hr h.init hn hc w ph hph
  rw [Phase.isExited_of_awaiting hd] at hx
  cases hx

/-- A closing call closes the pool behind the workers exactly if it finds workers to take, or all workers
have exited when it comes to take them. If all calls do so, as when there is only one, the pool is closed
only when every worker has exited and nothing is outstanding, and the depth is 0 when such a call returns;
and unless the owner closes the pool under the queue, every entry that retires was handed to the store, as
was every accepted write that is not outstanding. -/
theorem pool_closed_behind_workers (h₀ : Begins config connections s₀)
    (hr : run s₀ events = some (t, out)) :
    (∀ before id after s o flushed u o', events = before ++ .look id :: after →
      run s₀ before = some (s, o) → s.phase? id = some (.stopping flushed) →
      step s (.look id) = some (u, o') →
      ((∀ later v o₁ flushed workers x o₂, run u later = some (v, o₁) →
        v.phase? id = some (.joining flushed workers) → step v (.look id) = some (x, o₂) →
          AllExited v ∧ v.buffer.outstanding = []) ↔ s.unjoined ≠ [] ∨ AllExited s)) ∧
    (events.countP Event.isClose ≤ 1 → Orderly s₀ events) ∧
    (Orderly s₀ events →
      (∀ before id after s o flushed workers u o', events = before ++ .look id :: after →
        run s₀ before = some (s, o) → s.phase? id = some (.joining flushed workers) →
        step s (.look id) = some (u, o') → AllExited s ∧ s.buffer.outstanding = []) ∧
      (∀ before id after s o flushed u o', events = before ++ .look id :: after →
        run s₀ before = some (s, o) → s.phase? id = some (.ending flushed) →
        step s (.look id) = some (u, o') →
        o' = [.returned id (closing s.failure flushed)] ∧ AllExited s ∧ u.depth = 0) ∧
      (.closePool ∉ events →
        (∀ d r, .drained d r ∈ out → ∃ w c, [.invoked w d c, .drained d r].Sublist out) ∧
        ∀ a ∈ acceptances s₀ events, a.sequence ∈ t.buffer.outstanding ∨
          ∃ d ∈ invocations out, d.sequence = a.sequence ∧ d.key = a.key)) := by
  refine ⟨?_, orderly_of_single h₀, fun h => ⟨?_, ?_, fun hn => ⟨?_, ?_⟩⟩⟩
  · rintro before id after s o flushed u o' rfl hs hp he
    exact closes_behind_workers_iff h₀ hs hp he
  · rintro before id after s o flushed workers u o' rfl hs hp he
    obtain ⟨hpos, hstaff⟩ := h₀.staffed hs
    have hx := (Orderly.joined h₀ hs h.init).all_exited hstaff hp he
    exact ⟨hx, hstaff.drained hpos (h₀.tended.run hs) hx⟩
  · rintro before id after s o flushed u o' rfl hs hp he
    obtain ⟨hpos, hstaff⟩ := h₀.staffed hs
    have hx := (Orderly.joined h₀ hs h.init).ending id flushed hp
    obtain ⟨hb, ho⟩ := ending_step hp he
    refine ⟨ho, hx, ?_⟩
    unfold State.depth Buffer.depth
    rw [hb, hstaff.drained hpos (h₀.tended.run hs) hx]
    rfl
  · intro d r hd
    exact ((h.attempts h₀ hr hn).drained d r hd).resolve_right fun hf => hf
  · intro a ha
    have hat := h.attempts h₀ hr hn
    refine (hat.settled a ha).imp_right ?_
    intro ⟨d, r, hd, hq, hk⟩
    obtain ⟨w, c, hsub⟩ := (hat.drained d r hd).resolve_right fun hf => hf
    exact ⟨d, mem_invocations.mpr ⟨w, c, hsub.subset List.mem_cons_self⟩, hq, hk⟩

def lone : QueueConfig := { workers := 1, watermarks := ⟨8, 4⟩ }

def tidied : List (Event String Nat) :=
  [.enqueue 1 "a" 1 false, .close 2] ++ drainOne 0 (.ok ()) ++
    [.look 2, .look 2, .look 2, .work 0, .work 0, .look 2, .look 2]

theorem pool_closed_behind_workers_tidied : ∃ (s₀ t : State String Nat) (out : _), Begins lone [⟨0, 0⟩] s₀ ∧
    run s₀ tidied = some (t, out) ∧ Orderly s₀ tidied ∧ t.pool.closed = true ∧
    ∀ d r, .drained d r ∈ out → ∃ w c, [.invoked w d c, .drained d r].Sublist out := by
  obtain ⟨s₀, t, out, h₀, hr, hc⟩ : ∃ (s₀ t : State String Nat) (out : _), Begins lone [⟨0, 0⟩] s₀ ∧
      run s₀ tidied = some (t, out) ∧ t.pool.closed = true := ⟨_, _, _, ⟨_, rfl, rfl⟩, rfl, rfl⟩
  have ho : Orderly s₀ tidied := orderly_of_single h₀ (by decide)
  have hn : (.closePool : Event String Nat) ∉ tidied := by simp [tidied, drainOne]
  exact ⟨s₀, t, out, h₀, hr, ho, hc, (((pool_closed_behind_workers h₀ hr).2.2 ho).2.2 hn).1⟩

/-- Two closing calls wait at their fences when more is written. The first one takes the worker, so the
second one waits for nobody. -/
def overtaken : List (Event String Nat) :=
  [.enqueue 1 "a" 1 false, .work 0, .work 0, .work 0, .work 0, .close 2, .enqueue 3 "b" 2 false, .close 4,
    .enqueue 5 "c" 3 false, .enqueue 6 "d" 4 false, .finish 0 (.ok ()), .work 0, .work 0] ++
  [.look 2, .look 2, .look 2] ++ drainOne 0 (.ok ()) ++
  [.look 4, .look 4, .look 4, .work 0, .work 0, .work 0, .work 0]

/-- The second of two closing calls closes the pool while a store runs and a write is pending, and
returns; that write is drained without a store. -/
theorem pool_closed_early : ∃ (s₀ s t u v : State String Nat) (o₁ o₂ o₃ o₄ : List (Notice String Nat))
    (d : Claimed String Nat), Begins lone [⟨0, 0⟩] s₀ ∧ run s₀ overtaken = some (s, o₁) ∧
    s.pool.closed = false ∧ step s (.look 4) = some (t, o₂) ∧ t.pool.closed = true ∧ t.depth = 2 ∧
    t.workers.all Phase.isExited = false ∧
    step t (.look 4) = some (u, o₃) ∧ o₃ = [.returned 4 (.ok .done)] ∧ u.depth = 2 ∧
    run u [.finish 0 (.ok ()), .work 0, .work 0, .work 0, .work 0, .work 0, .work 0, .work 0] = some (v, o₄) ∧
    .drained d refusal ∈ o₄ ∧ d.key = "d" ∧
    (invocations (o₁ ++ o₂ ++ o₃ ++ o₄)).map (·.key) = ["a", "b", "c"] :=
  ⟨_, _, _, _, _, _, _, _, _, _, ⟨_, rfl, rfl⟩, rfl, rfl, rfl, rfl, rfl, rfl, rfl, rfl, rfl, rfl,
    List.mem_of_getLast? rfl, rfl, rfl⟩

end WriteBehind.Queue
