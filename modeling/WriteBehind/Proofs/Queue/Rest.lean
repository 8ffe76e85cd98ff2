import WriteBehind.Proofs.Queue.Settling

/-!
# Queues at rest

What keeps a worker or a call from moving when nothing can move, and what follows from it. If no store
has to end and no caller keeps a connection, then nothing keeps anybody: the queue is empty and nobody
waits.
-/

namespace WriteBehind.Queue

variable {κ ι : Type} {s₀ s t : State κ ι} {out : List (Notice κ ι)} {e : Event κ ι} {id w : Nat} {c : Call}
  {events : List (Event κ ι)} {receipt : Receipt} {fenced : Bool} {target : Sequence}

/-! ## Producers that are held back -/

theorem Looks.buffer [Named κ] (h : Looks s id c t out) : t.buffer = s.buffer := by
  cases h <;> rfl

section
variable [DecidableEq κ] [Named κ]

theorem stalled_step (hb : s.pool.Balanced) (he : step s e = some (t, out)) (hc : t.call? id = some c)
    (hw : c.woken = false) (hp : c.phase = .stalled receipt fenced) :
    s.call? id = some c ∧ (∀ d r, .drained d r ∉ out) ∨ s.isReleased = false ∧ t.buffer = s.buffer := by
  have hphase : t.phase? id = some (.stalled receipt fenced) :=
    (State.phase?_of_call hc).trans (congrArg some hp)
  by_cases hid : e.call? = some id
  · obtain hm | ⟨conn, _, ⟨hp', _⟩ | ⟨_, _, hc', _⟩⟩ | ⟨rfl, before, _, hl⟩ := step_call hb he hid
    · obtain ⟨phase?, hc', _⟩ := hm.issued
      rw [hc] at hc'
      obtain ⟨phase, _, rfl⟩ := Option.map_eq_some_iff.mp hc'.symm
      cases hw
    · rw [hphase] at hp'
      cases hp'
    · rw [hc] at hc'
      cases hc'
    · rw [hphase] at hl
      obtain ⟨c', _, looks⟩ := look_cases he
      cases hl with
      | asleep _ blocked => exact .inr ⟨blocked, looks.buffer⟩
  · obtain ⟨hsame, hn⟩ | hwake := (step_aside he hid).call
    · exact .inl ⟨hsame ▸ hc, hn⟩
    · rw [hc] at hwake
      obtain ⟨c', _, rfl⟩ := Option.map_eq_some_iff.mp hwake.symm
      cases hw

theorem Begins.held {config : QueueConfig} {connections : List Connection} (h : Begins config connections s₀)
    (hr : run s₀ events = some (t, out)) (hc : t.call? id = some c) (hw : c.woken = false)
    (hp : c.phase = .stalled receipt fenced) : 1 ≤ t.depth := by
  refine run_induction (P := fun _ _ t => ∀ c receipt fenced, t.call? id = some c → c.woken = false →
    c.phase = .stalled receipt fenced → 1 ≤ t.depth) ?_ ?_ hr c receipt fenced hc hw hp
  · intro c _ _ hc
    rw [h.call? id] at hc
    cases hc
  · intro events o t e u o' hr ih he c receipt fenced hc hw hp
    have hb := (h.tended.run hr).balanced
    rcases stalled_step hb he hc hw hp with ⟨hc', hn⟩ | ⟨hreleased, hbuffer⟩
    · obtain ⟨q, hq⟩ := List.exists_mem_of_length_pos (ih c receipt fenced hc' hw hp)
      exact List.length_pos_of_mem ((step_turn hb he).outstanding_keep hn hq)
    · -- It was held back because the depth was above the low mark.
      have hdepth : u.depth = t.depth := congrArg Buffer.depth hbuffer
      simp only [State.isReleased, Bool.or_eq_false_iff, Watermarks.isReleased,
        decide_eq_false_iff_not] at hreleased
      omega

end

/-! ## What keeps a worker or a call -/

inductive Keeps (s : State κ ι) (w : Nat) : Phase κ ι → Prop where
  | idle (listed : w ∈ s.bell.waiters) (unready : w ∉ s.bell.alert) : Keeps s w .idle
  | borrowing (drain : Drain κ ι) (opened : s.pool.closed = false) (turn : .worker w ∉ s.pool.promised) :
    Keeps s w (.borrowing drain)
  | storing (drain : Drain κ ι) (conn : Connection) : Keeps s w (.storing drain conn)
  | exited : Keeps s w .exited

inductive Holds (s : State κ ι) (id : Nat) (woken : Bool) : CallPhase → Prop where
  | stalled (receipt : Receipt) (fenced : Bool) (asleep : woken = false) :
    Holds s id woken (.stalled receipt fenced)
  | fence (target : Sequence) (asleep : woken = false) : Holds s id woken (.fence target)
  | closing (target : Sequence) (asleep : woken = false) : Holds s id woken (.closing target)
  | joining (flushed : Except Error Unit) (workers : List Nat) (w : Nat) (ph : Phase κ ι)
    (running : s.workers[w]? = some ph) (runs : ph.isExited = false) :
    Holds s id woken (.joining flushed workers)
  | borrowing (opened : s.pool.closed = false) (turn : .call id ∉ s.pool.promised) :
    Holds s id woken .borrowing
  | holding (conn : Connection) : Holds s id woken (.holding conn)

theorem keeps_of_work [DecidableEq κ] {ph : Phase κ ι} (hw : s.workers[w]? = some ph) (h : s.work w = none) :
    Keeps s w ph := by
  unfold State.work at h
  simp only [hw, bind, Option.bind_some] at h
  cases ph with
  | idle =>
    simp only at h
    split at h
    · cases h
    · rename_i unready
      split at h
      · rename_i listed
        exact .idle listed unready
      · cases h
  | claimed drain =>
    simp only at h
    split at h <;> cases h
  | borrowing drain =>
    simp only at h
    split at h
    · cases h
    · rename_i hl
      obtain ⟨hopen, hturn⟩ := Pool.collect_waits hl
      exact .borrowing drain hopen hturn
    · cases h
  | storing drain conn => exact .storing drain conn
  | exited => exact .exited
  | _ => cases h

theorem holds_of_look [Named κ] (hc : s.call? id = some c) (h : s.look id = none) :
    Holds s id c.woken c.phase := by
  have hlook := h
  unfold State.look at h
  simp only [hc, bind, Option.bind_some] at h
  cases hp : c.phase with
  | stalled receipt fenced =>
    simp only [hp] at h
    split at h
    · rename_i hw
      exact .stalled receipt fenced (by simpa using hw)
    · split at h
      · cases fenced <;> cases h
      · cases h
  | fence target => exact .fence target (woken_of_look hc (by rw [hp]; rfl) hlook)
  | closing target => exact .closing target (woken_of_look hc (by rw [hp]; rfl) hlook)
  | joining flushed workers =>
    simp only [hp] at h
    split at h
    · cases h
    · rename_i hall
      simp only [List.all_eq_true, not_forall] at hall
      obtain ⟨w, _, hw⟩ := hall
      cases hph : s.workers[w]? with
      | none => simp [hph] at hw
      | some ph => exact .joining flushed workers w ph hph (by simpa [hph] using hw)
  | borrowing =>
    simp only [hp] at h
    split at h
    · cases h
    · rename_i hl
      obtain ⟨hopen, hturn⟩ := Pool.collect_waits hl
      exact .borrowing hopen hturn
    · cases h
  | holding conn => exact .holding conn
  | _ => simp only [hp] at h; cases h

/-! ## What follows -/

variable [DecidableEq κ] [Named κ]

theorem Settled.keeps (h : Settled s) {ph : Phase κ ι} (hw : s.workers[w]? = some ph) : Keeps s w ph :=
  keeps_of_work hw (h.1 w)

theorem Settled.holds (h : Settled s) {phase : CallPhase} (hp : s.phase? id = some phase) :
    ∃ c, s.call? id = some c ∧ c.phase = phase ∧ Holds s id c.woken phase := by
  obtain ⟨c, hc, rfl⟩ := Option.map_eq_some_iff.mp hp
  exact ⟨c, hc, rfl, holds_of_look hc (h.2 id)⟩

theorem Settled.asleep (h : Settled s) (hw : s.workers[w]? = some .idle) : s.Asleep w := by
  cases h.keeps hw with
  | idle listed unready => exact ⟨hw, listed, unready⟩

/-- At rest, somebody who drains an entry has a wake-up to pass on for each entry that could be claimed. -/
theorem Settled.claimable_le (h : Settled s) (hs : Wakeful s) (hw : s.workers[w]? = some .idle) :
    s.buffer.claimable.length ≤ s.carriers.card := by
  rw [← owed_eq_carriers fun v hv => h.asleep hv]
  exact hs.covered w (h.asleep hw)

theorem Settled.idle (h : Settled s) (hs : Tended s) (ha : Wakeful s) (hw : s.workers[w]? = some .idle)
    (alone : ∀ v d, s.draining v = some d → v ∉ s.bell.woken) {k : κ} {q : Sequence} (hq : s.buffer.Waits k q) :
    s.buffer.inFlight.contains k = true := by
  have hnone : s.carriers = ∅ := by
    refine Finset.filter_eq_empty_iff.mpr fun v _ hv => ?_
    obtain ⟨d, hd⟩ := Option.isSome_iff_exists.mp hv.1
    exact alone v d hd hv.2
  have hle := h.claimable_le ha hw
  rw [hnone, Finset.card_empty, Nat.le_zero, List.length_eq_zero_iff] at hle
  by_contra hfree
  obtain ⟨p, hp, _⟩ := hq
  have hm : k ∈ s.buffer.claimable :=
    hs.valid.mem_claimable.mpr ⟨Option.isSome_iff_exists.mpr ⟨p, hp⟩, by simpa using hfree⟩
  rw [hle] at hm
  cases hm

omit [DecidableEq κ] [Named κ] in
theorem State.draining_of_entry {ph : Phase κ ι} {d : Claimed κ ι} (hw : s.workers[w]? = some ph)
    (he : ph.entry? = some d) : s.draining w = some d := by
  unfold State.draining
  rw [hw]
  exact he

theorem Settled.drains (h : Settled s) (ha : Wakeful s) (hclosed : s.closed = true) {ph : Phase κ ι}
    (hw : s.workers[w]? = some ph) (runs : ph.isExited = false) : ∃ w d, s.draining w = some d := by
  cases h.keeps hw with
  | idle => exact ha.relies hclosed w (h.asleep hw)
  | borrowing drain => exact ⟨w, _, State.draining_of_entry hw rfl⟩
  | storing drain conn => exact ⟨w, _, State.draining_of_entry hw rfl⟩
  | exited => cases runs

theorem Settled.no_turn (h : Settled s) (hl : Lending s) (b : Borrower) : b ∉ s.pool.promised := by
  intro hb
  have hborrows := (hl.enrolled b).mp (List.mem_append_right _ hb)
  cases b with
  | worker w =>
    obtain ⟨d, hw⟩ := State.borrows_worker.mp hborrows
    cases h.keeps hw with
    | borrowing _ _ turn => exact turn hb
  | call id =>
    obtain ⟨_, _, _, hholds⟩ := h.holds (State.borrows_call.mp hborrows)
    cases hholds with
    | borrowing _ turn => exact turn hb

theorem Settled.lent_eq_zero (h : Settled s) (hd : s.Distinct)
    (stores : ∀ (w : Nat) d conn, s.workers[w]? ≠ some (.storing d conn))
    (lent : ∀ id conn, s.phase? id ≠ some (.holding conn)) : s.lent = 0 := by
  have hworkers : (s.workers.map Phase.lent).sum = 0 := by
    refine List.sum_eq_zero fun n hn => ?_
    obtain ⟨ph, hm, rfl⟩ := List.mem_map.mp hn
    obtain ⟨w, hw⟩ := List.getElem?_of_mem hm
    cases h.keeps hw with
    | storing d conn => exact absurd hw (stores w d conn)
    | _ => rfl
  have hcalls : (s.phases.map CallPhase.lent).sum = 0 := by
    refine List.sum_eq_zero fun n hn => ?_
    obtain ⟨phase, hm, rfl⟩ := List.mem_map.mp hn
    obtain ⟨c, hc, rfl⟩ := List.mem_map.mp hm
    have hphase := State.phase?_of_call (hd.call?_of_mem hc)
    cases hp : c.phase with
    | holding conn => exact absurd (hphase.trans (congrArg some hp)) (lent c.id conn)
    | _ => rfl
  unfold State.lent State.total
  rw [hworkers, hcalls]

theorem Settled.no_borrower (h : Settled s) (hl : Lending s) (hd : s.Distinct)
    (stores : ∀ (w : Nat) d conn, s.workers[w]? ≠ some (.storing d conn))
    (lent : ∀ id conn, s.phase? id ≠ some (.holding conn)) (b : Borrower) : ¬ s.Borrows b := by
  intro hborrows
  have hkept := hl.kept
  rw [h.lent_eq_zero hd stores lent] at hkept
  have hnot : s.pool.closed = false → False := by
    intro hopen
    have hm := (List.mem_append.mp ((hl.enrolled b).mpr hborrows)).resolve_right (h.no_turn hl b)
    obtain ⟨other, ho⟩ := hkept.somebody hopen hm
    exact h.no_turn hl other ho
  cases b with
  | worker w =>
    obtain ⟨d, hw⟩ := State.borrows_worker.mp hborrows
    cases h.keeps hw with
    | borrowing _ opened => exact hnot opened
  | call id =>
    obtain ⟨_, _, _, hholds⟩ := h.holds (State.borrows_call.mp hborrows)
    cases hholds with
    | borrowing opened => exact hnot opened

variable {config : QueueConfig} {connections : List Connection}

theorem Settled.empty (h : Settled s) (h₀ : Begins config connections s₀) (hr : run s₀ events = some (s, out))
    (stores : ∀ (w : Nat) d conn, s.workers[w]? ≠ some (.storing d conn))
    (lent : ∀ id conn, s.phase? id ≠ some (.holding conn)) : s.buffer.outstanding = [] := by
  have hs := h₀.tended.run hr
  obtain ⟨hpos, hstaff⟩ := h₀.staffed hr
  have hborrower := h.no_borrower (h₀.lending hr) (h₀.distinct hr) stores lent
  have hdraining : ∀ w, s.draining w = none := by
    intro w
    by_contra hn
    obtain ⟨d, hd⟩ := Option.ne_none_iff_exists'.mp hn
    obtain ⟨ph, hw, he⟩ := Option.bind_eq_some_iff.mp hd
    cases h.keeps hw with
    | borrowing drain => exact hborrower (.worker w) ⟨drain, hw⟩
    | storing d conn => exact stores w d conn hw
    | _ => cases he
  have hflight : ∀ k, s.buffer.inFlight.get? k = none := by
    intro k
    by_contra hn
    obtain ⟨q, hq⟩ := Option.ne_none_iff_exists'.mp hn
    obtain ⟨w, d, hd, _⟩ := (hs.flight k q).mp hq
    rw [hdraining w] at hd
    cases hd
  -- There is a worker, and it would take what is pending.
  have hpending : ∀ k q, ¬ s.buffer.Waits k q := by
    intro k q hq
    have hlt : 0 < s.workers.length := hstaff.size ▸ hpos
    have hw : s.workers[0]? = some s.workers[0] := List.getElem?_eq_getElem hlt
    generalize s.workers[0] = ph at hw
    cases h.keeps hw with
    | idle =>
      have hfree := h.idle hs (h₀.wakeful hr) hw (fun v d hd => by rw [hdraining v] at hd; cases hd) hq
      unfold Table.contains at hfree
      rw [hflight k] at hfree
      cases hfree
    | borrowing drain => exact hborrower (.worker 0) ⟨drain, hw⟩
    | storing d conn => exact stores 0 d conn hw
    | exited =>
      obtain ⟨p, hp, _⟩ := hq
      rw [(hstaff.exited 0 hw).2 k] at hp
      cases hp
  refine List.eq_nil_iff_forall_not_mem.mpr fun q hq => ?_
  rcases (hs.valid.mem_outstanding q).mp hq with ⟨k, hk⟩ | ⟨k, hk⟩
  · exact hpending k q hk
  · rw [hflight k] at hk
    cases hk

theorem Begins.fence_behind (h₀ : Begins config connections s₀) (hr : run s₀ events = some (s, out))
    (hc : s.call? id = some c) (hp : c.phase.target? = some target) (hw : c.woken = false) :
    ∃ q ∈ s.buffer.outstanding, q ≤ target := by
  have hd := (h₀.fences hr).awake id c target hc hw hp
  by_contra hn
  rw [((h₀.tended.run hr).valid.isDrainedThrough_iff target).mpr
    fun q hq => Nat.not_le.mp fun hle => hn ⟨q, hq, hle⟩] at hd
  cases hd

theorem Settled.fence_waits (h : Settled s) (h₀ : Begins config connections s₀)
    (hr : run s₀ events = some (s, out)) {phase : CallPhase} (hp : s.phase? id = some phase)
    (ht : phase.target? = some target) :
    ∃ q ∈ s.buffer.outstanding, q ≤ target := by
  obtain ⟨c, hc, hphase, hholds⟩ := h.holds hp
  cases hholds with
  | fence _ asleep => exact h₀.fence_behind hr hc (hphase ▸ ht) asleep
  | closing _ asleep => exact h₀.fence_behind hr hc (hphase ▸ ht) asleep
  | _ => cases ht

theorem Settled.producer_waits (h : Settled s) (h₀ : Begins config connections s₀)
    (hr : run s₀ events = some (s, out)) (hp : s.phase? id = some (.stalled receipt fenced)) :
    1 ≤ s.depth := by
  obtain ⟨c, hc, hphase, hholds⟩ := h.holds hp
  cases hholds with
  | stalled _ _ asleep => exact h₀.held hr hc asleep hphase

theorem Settled.closing_waits (h : Settled s) (h₀ : Begins config connections s₀)
    (hr : run s₀ events = some (s, out)) {phase : CallPhase} (hp : s.phase? id = some phase)
    (hclose : (phase.isAhead || phase.isBehind) = true) :
    (∃ target, phase = .closing target ∧ ∃ q ∈ s.buffer.outstanding, q ≤ target) ∨
      ∃ w d, s.draining w = some d := by
  obtain ⟨c, _, _, hholds⟩ := h.holds hp
  cases hholds with
  | closing target => exact .inl ⟨target, rfl, h.fence_waits h₀ hr hp rfl⟩
  | joining flushed workers w ph running runs =>
    have hclosed := (h₀.staffed hr).2.behind id _ hp rfl
    exact .inr (h.drains (h₀.wakeful hr) hclosed running runs)
  | _ => cases hclose

theorem Settled.nobody_waits (h : Settled s) (h₀ : Begins config connections s₀)
    (hr : run s₀ events = some (s, out))
    (stores : ∀ (w : Nat) d conn, s.workers[w]? ≠ some (.storing d conn))
    (lent : ∀ id conn, s.phase? id ≠ some (.holding conn)) : s.calls = [] := by
  have hs := h₀.tended.run hr
  have hd := h₀.distinct hr
  have hempty := h.empty h₀ hr stores lent
  have hnone : ∀ q, q ∉ s.buffer.outstanding := by simp [hempty]
  refine List.eq_nil_iff_forall_not_mem.mpr fun c hm => ?_
  have hp := State.phase?_of_call (hd.call?_of_mem hm)
  generalize c.phase = phase at hp
  obtain ⟨_, _, _, hholds⟩ := h.holds hp
  cases hholds with
  | stalled receipt fenced =>
    have hdepth := h.producer_waits h₀ hr hp
    unfold State.depth Buffer.depth at hdepth
    rw [hempty] at hdepth
    cases hdepth
  | fence target =>
    obtain ⟨q, hq, _⟩ := h.fence_waits h₀ hr hp rfl
    exact hnone q hq
  | closing target =>
    obtain ⟨q, hq, _⟩ := h.fence_waits h₀ hr hp rfl
    exact hnone q hq
  | joining flushed workers w ph running runs =>
    obtain ⟨w', d, hdrain⟩ := h.drains (h₀.wakeful hr) ((h₀.staffed hr).2.behind c.id _ hp rfl) running runs
    exact hnone _ (hs.valid.flight_mem (hs.flight_of hdrain))
  | borrowing => exact h.no_borrower (h₀.lending hr) hd stores lent (.call c.id) hp
  | holding conn => exact lent c.id conn hp

/-- Queues come to rest. The moves that the workers and the waiting calls can make without anything new
from outside are bounded in number, and they lead to a queue at rest. In a queue at rest, a worker idles
only asleep, and while one idles no more entries could be claimed than there are workers that drain another
one and have a wake-up to pass on; with no such worker, none could. A fence waits for an outstanding entry
at or below its target; a producer is held back only by outstanding entries; and a closing call waits for
such an entry or for a worker that drains one. If moreover no store has to end and no caller keeps a
connection, then the depth is 0 and no call waits. -/
theorem never_stuck (h₀ : Begins config connections s₀) (hr : run s₀ events = some (s, out)) :
    (∀ moves t o, (∀ e ∈ moves, e.advances = true) → run s moves = some (t, o) → moves.length ≤ s.effort) ∧
    (∃ moves t o, (∀ e ∈ moves, (∃ w, e = .work w) ∨ ∃ id, e = .look id) ∧ run s moves = some (t, o) ∧
      Settled t) ∧
    (Settled s →
      (∀ w : Nat, s.workers[w]? = some .idle → s.Asleep w ∧ s.buffer.claimable.length ≤ s.carriers.card ∧
        ((∀ v d, s.draining v = some d → v ∉ s.bell.woken) → ∀ k p, s.buffer.pending.get? k = some p →
          s.buffer.inFlight.contains k = true)) ∧
      (∀ id target, s.phase? id = some (.fence target) → ∃ q ∈ s.buffer.outstanding, q ≤ target) ∧
      (∀ id receipt fenced, s.phase? id = some (.stalled receipt fenced) → 1 ≤ s.depth) ∧
      (∀ id phase, s.phase? id = some phase → (phase.isAhead || phase.isBehind) = true →
        (∃ target, phase = .closing target ∧ ∃ q ∈ s.buffer.outstanding, q ≤ target) ∨
        ∃ w d, s.draining w = some d) ∧
      ((∀ (w : Nat) d conn, s.workers[w]? ≠ some (.storing d conn)) →
        (∀ id conn, s.phase? id ≠ some (.holding conn)) → s.depth = 0 ∧ s.calls = [])) := by
  have hs := h₀.tended.run hr
  have hd := h₀.distinct hr
  have ha := h₀.wakeful hr
  refine ⟨?_, exists_settled hs hd, fun h => ⟨?_, ?_, ?_, ?_, ?_⟩⟩
  · intro moves t o ha hm
    have := run_effort hs hd ha hm
    omega
  · intro w hw
    exact ⟨h.asleep hw, h.claimable_le ha hw, fun alone k p hp => h.idle hs ha hw alone ⟨p, hp, rfl⟩⟩
  · intro id target hp
    exact h.fence_waits h₀ hr hp rfl
  · intro id receipt fenced hp
    exact h.producer_waits h₀ hr hp
  · intro id phase hp hclose
    exact h.closing_waits h₀ hr hp hclose
  · intro stores lent
    exact ⟨congrArg List.length (h.empty h₀ hr stores lent), h.nobody_waits h₀ hr stores lent⟩

def strict : QueueConfig := { workers := 2, watermarks := ⟨2, 1⟩ }

def crowded : List (Event String Nat) :=
  [.enqueue 1 "a" 1 false, .work 0, .work 0, .work 0, .work 0, .enqueue 2 "a" 2 false,
    .enqueue 3 "a" 3 false, .barrier 4, .close 5, .look 3, .look 4, .look 5, .work 1, .work 1, .work 1, .work 1]

def relieved : List (Event String Nat) :=
  [.finish 0 (.ok ()), .work 0, .work 0, .look 3, .look 4, .look 5, .work 1, .work 1, .work 1, .work 1,
    .finish 1 (.ok ()), .work 1, .work 1, .look 4, .look 5, .look 5, .work 0, .work 0, .look 5, .work 1,
    .work 1, .look 5, .look 5]

theorem never_stuck_crowded : ∃ (s₀ s t : State String Nat) (out o : _), Begins strict [⟨0, 0⟩] s₀ ∧
    run s₀ crowded = some (s, out) ∧ run s relieved = some (t, o) ∧ Settled s ∧ Settled t ∧
    s.workers[1]? = some .idle ∧ s.buffer.claimable.length ≤ s.carriers.card ∧
    s.buffer.inFlight.contains "a" = true ∧
    s.phase? 4 = some (.fence ⟨2⟩) ∧ (∃ q ∈ s.buffer.outstanding, q ≤ ⟨2⟩) ∧
    s.phase? 3 = some (.stalled ⟨⟨2⟩, true, 2⟩ false) ∧ 1 ≤ s.depth ∧
    relieved.length ≤ s.effort ∧ t.depth = 0 ∧ t.calls = [] := by
  obtain ⟨s₀, s, t, out, o, h₀, hs, ht, hsettled, hdone, hidle, ⟨p, hp⟩, hwoken, hfence, hstalled, hadvance,
      hworkers, hcalls⟩ :
      ∃ (s₀ s t : State String Nat) (out o : _), Begins strict [⟨0, 0⟩] s₀ ∧
      run s₀ crowded = some (s, out) ∧ run s relieved = some (t, o) ∧ Settled s ∧ Settled t ∧
      s.workers[1]? = some .idle ∧ (∃ p, s.buffer.pending.get? "a" = some p) ∧ s.bell.woken = [] ∧
      s.phase? 4 = some (.fence ⟨2⟩) ∧ s.phase? 3 = some (.stalled ⟨⟨2⟩, true, 2⟩ false) ∧
      (∀ e ∈ relieved, e.advances = true) ∧ t.workers = [.exited, .exited] ∧ t.calls = [] :=
    ⟨_, _, _, _, _, ⟨_, rfl, rfl⟩, rfl, rfl, by decide, by decide, rfl, ⟨_, rfl⟩, rfl, rfl, rfl, by decide,
      rfl, rfl⟩
  have hst := run_append.mpr ⟨s, out, o, hs, ht, rfl⟩
  obtain ⟨hbound, _, hrest⟩ := never_stuck h₀ hs
  obtain ⟨hidles, hfences, hproducers, _⟩ := hrest hsettled
  obtain ⟨_, hfew, hblocked⟩ := hidles 1 hidle
  have hstores : ∀ (w : Nat) d conn, t.workers[w]? ≠ some (.storing d conn) := by
    intro w d conn hw
    rw [hworkers] at hw
    have := List.mem_of_getElem? hw
    simp at this
  have hlent : ∀ id conn, t.phase? id ≠ some (.holding conn) := by
    intro id conn hp
    simp [State.phase?, State.call?, hcalls] at hp
  have hempty := ((never_stuck h₀ hst).2.2 hdone).2.2.2.2 hstores hlent
  exact ⟨s₀, s, t, out, o, h₀, hs, ht, hsettled, hdone, hidle, hfew, hblocked (by simp [hwoken]) "a" p hp, hfence,
    hfences 4 ⟨2⟩ hfence, hstalled, hproducers 3 _ _ hstalled, hbound relieved t o hadvance ht, hempty⟩

def roomy : QueueConfig := { workers := 2, watermarks := ⟨100, 50⟩ }

/-- Both workers store, and the first one to be done finds nothing and sleeps. The next write wakes the other
one, which asked before it and has not noticed yet. -/
def overslept : List (Event String Nat) :=
  [.enqueue 1 "a" 1 false, .work 0, .work 0, .work 0, .work 0, .work 1, .work 1,
    .enqueue 2 "b" 2 false, .work 1, .work 1, .work 1, .work 1,
    .finish 0 (.ok ()), .work 0, .work 0, .work 0, .work 0, .enqueue 3 "c" 3 false]

/-- In a queue at rest a worker sleeps beside an entry that could be claimed and a connection that is free,
until the store of another entry ends. -/
theorem sleeps_beside_claimable : ∃ (s₀ s : State String Nat) (out : _),
    Begins roomy [⟨0, 0⟩, ⟨1, 0⟩] s₀ ∧ run s₀ overslept = some (s, out) ∧ Settled s ∧
    s.workers[0]? = some .idle ∧
    s.buffer.pending.contains "c" = true ∧ s.buffer.inFlight.contains "c" = false ∧ s.pool.size = 1 ∧
    s.buffer.claimable = ["c"] ∧ s.carriers = {1} ∧ ∃ d conn, s.workers[1]? = some (.storing d conn) :=
  ⟨_, _, _, ⟨_, rfl, rfl⟩, rfl, by decide, rfl, rfl, rfl, rfl, rfl, by decide, _, _, rfl⟩

end WriteBehind.Queue
