import WriteBehind.Proofs.Buffer.Depth
import WriteBehind.Proofs.Queue.Rest
import WriteBehind.Proofs.Stats.Histogram

/-!
# The accounts of a queue

Counters change at other moments than the buffer does: a drain is counted when it ends, and its entry
retires later. With the workers in between, the accounts balance after every step, whatever happens to the
drain and whenever the counters are cleared.
-/

namespace WriteBehind.Queue

variable {κ ι : Type} {s₀ s t u : State κ ι} {out o : List (Notice κ ι)} {events : List (Event κ ι)}
  {e : Event κ ι} {a? : Option (Acceptance κ ι)} {id w : Nat} {ph ph' : Phase κ ι}

/-! ## Workers -/

namespace Phase

/-- The drain has not ended. -/
def working : Phase κ ι → Nat
  | claimed _ | borrowing _ | ready .. | storing .. => 1
  | _ => 0

/-- The drain has ended, and its entry has not retired. -/
def ending : Phase κ ι → Nat
  | ended .. | retiring .. => 1
  | _ => 0

def failing : Phase κ ι → Nat
  | ended _ (.error _) | retiring _ (.error _) => 1
  | _ => 0

end Phase

/-! ## What a step does to the counters -/

def Notice.fails : Notice κ ι → Bool
  | .drained _ (.error _) => true
  | _ => false

def failedDrains (out : List (Notice κ ι)) : Nat := out.countP Notice.fails

variable [DecidableEq κ]

/-- What a step does to the counters, the buffer and the workers. -/
inductive Tally (s t : State κ ι) : List (Notice κ ι) → Option (Acceptance κ ι) → Prop where
  | still {out : List (Notice κ ι)} (counters : t.counters.core = s.counters.core)
    (buffer : t.buffer = s.buffer) (workers : t.workers = s.workers) (quiet : failedDrains out = 0) :
    Tally s t out none
  | accept {out : List (Notice κ ι)} (a : Acceptance κ ι)
    (counters : t.counters.core =
      (s.counters.recordEnqueue (s.buffer.insert a.key a.item).1.isCoalesced).core)
    (buffer : t.buffer = (s.buffer.insert a.key a.item).2) (workers : t.workers = s.workers)
    (quiet : failedDrains out = 0) : Tally s t out (some a)
  | claim (w : Nat) (entry : Claimed κ ι) (since : Nat)
    (move : Moves s t w .idle (.claimed ⟨entry, since⟩)) (counters : t.counters = s.counters.beginDrain)
    (claim : s.buffer.claim = (some entry, t.buffer)) : Tally s t [] none
  | move {out : List (Notice κ ι)} (w : Nat) (ph ph' : Phase κ ι) (move : Moves s t w ph ph')
    (working : ph'.working = ph.working) (ending : ph'.ending = ph.ending)
    (failing : ph'.failing = ph.failing) (counters : t.counters = s.counters) (buffer : t.buffer = s.buffer)
    (quiet : failedDrains out = 0) : Tally s t out none
  | finish (w : Nat) (ph : Phase κ ι) (entry : Claimed κ ι) (micros : Nat) (outcome : Outcome)
    (move : Moves s t w ph (.ended entry outcome)) (working : ph.working = 1) (ending : ph.ending = 0)
    (failing : ph.failing = 0) (counters : t.counters = s.counters.endDrain micros outcome.isOk)
    (buffer : t.buffer = s.buffer) : Tally s t [] none
  | retire (w : Nat) (entry : Claimed κ ι) (outcome : Outcome)
    (move : Moves s t w (.retiring entry outcome) .idle) (counters : t.counters = s.counters)
    (buffer : t.buffer = (s.buffer.complete entry.key entry.sequence).2) :
    Tally s t [.drained entry outcome] none

theorem Makes.tally {a? : Option (Acceptance κ ι)} (h : Makes s id e t out a?) : Tally s t out a? := by
  cases h with
  | tried key item => exact .accept ⟨id, key, item, _⟩ rfl rfl rfl rfl
  | written key item => exact .accept ⟨id, key, item, _⟩ rfl rfl rfl rfl
  | fenced key item => exact .accept ⟨id, key, item, _⟩ rfl rfl rfl rfl
  | stalled key item => exact .accept ⟨id, key, item, _⟩ rfl rfl rfl rfl
  | _ => exact .still rfl rfl rfl rfl

theorem Works.tally (h : Works s w t out) : Tally s t out none := by
  cases h with
  | asked | slept => exact .still rfl rfl rfl rfl
  | claimed entry buffer before _ claim => exact .claim w entry s.now ⟨before, rfl⟩ rfl claim
  | exited _ before => exact .move w _ .exited ⟨before, rfl⟩ rfl rfl rfl rfl rfl rfl
  | lent drain c pool asks =>
    obtain ⟨before, _⟩ | ⟨before, _⟩ := asks
    · exact .move w _ (.ready drain c) ⟨before, rfl⟩ rfl rfl rfl rfl rfl rfl
    · exact .move w _ (.ready drain c) ⟨before, rfl⟩ rfl rfl rfl rfl rfl rfl
  | waits drain pool before => exact .move w _ (.borrowing drain) ⟨before, rfl⟩ rfl rfl rfl rfl rfl rfl
  | refused drain e pool asks =>
    obtain ⟨before, _⟩ | ⟨before, _⟩ := asks
    · exact .finish w _ drain.entry (s.now - drain.since) _ ⟨before, rfl⟩ rfl rfl rfl rfl rfl
    · exact .finish w _ drain.entry (s.now - drain.since) _ ⟨before, rfl⟩ rfl rfl rfl rfl rfl
  | begun drain c before => exact .move w _ (.storing drain c.use) ⟨before, rfl⟩ rfl rfl rfl rfl rfl rfl
  | noted entry outcome before =>
    cases outcome with
    | ok | error => exact .move w _ (.retiring entry _) ⟨before, rfl⟩ rfl rfl rfl rfl rfl rfl
  | retired entry outcome before => exact .retire w entry outcome ⟨before, rfl⟩ rfl rfl

theorem Tally.counts {a? : Option (Acceptance κ ι)} (h : Tally s t out a?) :
    s.counters.duplicates ≤ t.counters.duplicates ∧ s.counters.drained ≤ t.counters.drained := by
  cases h with
  | still counters =>
    obtain ⟨_, hduplicates, hdrained, _⟩ := Counters.core_eq counters
    exact ⟨hduplicates.ge, hdrained.ge⟩
  | accept a counters =>
    obtain ⟨_, hduplicates, hdrained, _⟩ := Counters.core_eq counters
    exact ⟨hduplicates ▸ Nat.le_add_right _ _, hdrained.ge⟩
  | claim _ _ _ _ counters => exact counters ▸ ⟨Nat.le_refl _, Nat.le_refl _⟩
  | move _ _ _ _ _ _ _ counters => exact counters ▸ ⟨Nat.le_refl _, Nat.le_refl _⟩
  | finish _ _ _ _ _ _ _ _ _ counters => exact counters ▸ ⟨Nat.le_refl _, Nat.le_succ _⟩
  | retire _ _ _ _ counters => exact counters ▸ ⟨Nat.le_refl _, Nat.le_refl _⟩

variable [Named κ]

theorem step_tally (h : step s e = some (t, out)) (he : e ≠ .clear) :
    Tally s t out (accepted? e (t, out)) := by
  cases step_cases h with
  | made id _ _ _ _ a? free makes =>
    rw [makes.accepted free]
    exact makes.tally
  | work w _ _ works => exact works.tally
  | finish w outcome drain c before =>
    exact .finish w _ drain.entry (s.now - drain.since) outcome ⟨before, rfl⟩ rfl rfl rfl rfl rfl
  | look _ _ _ _ _ looks => cases looks <;> exact .still rfl rfl rfl rfl
  | clear => exact absurd rfl he
  | _ => exact .still rfl rfl rfl rfl

/-! ## What a step does to the accounts -/

/-- How the accounts of two states of a run differ: so many writes were accepted in between, and so many
entries retired whose drain had failed. -/
structure Accounted (s t : State κ ι) (accepted lost : Nat) : Prop where
  items : t.counters.items = s.counters.items + accepted
  created : t.counters.items + s.counters.duplicates + s.buffer.last.val =
    s.counters.items + t.counters.duplicates + t.buffer.last.val
  ended : t.counters.drained + t.depth + s.tally Phase.ending + s.buffer.last.val =
    s.counters.drained + s.depth + t.tally Phase.ending + t.buffer.last.val
  failed : t.counters.failed + s.tally Phase.failing = s.counters.failed + t.tally Phase.failing + lost
  grows : s.buffer.last.val ≤ t.buffer.last.val

omit [DecidableEq κ] [Named κ] in
theorem Accounted.refl (s : State κ ι) : Accounted s s 0 0 := ⟨rfl, rfl, rfl, rfl, Nat.le_refl _⟩

omit [DecidableEq κ] [Named κ] in
theorem Accounted.trans {n m n' m' : Nat} (h : Accounted s t n m) (h' : Accounted t u n' m') :
    Accounted s u (n + n') (m + m') := by
  obtain ⟨hitems, hcreated, hended, hfailed, hgrows⟩ := h
  obtain ⟨hitems', hcreated', hended', hfailed', hgrows'⟩ := h'
  constructor <;> omega

omit [Named κ] in
theorem Tally.accounted (h : Tally s t out a?) (hs : Tended s) :
    Accounted s t a?.toList.length (failedDrains out) := by
  cases h with
  | still counters buffer workers quiet =>
    obtain ⟨hitems, hduplicates, hdrained, hfailed, _⟩ := Counters.core_eq counters
    have hdepth : t.depth = s.depth := congrArg Buffer.depth buffer
    have hending := tally_congr workers Phase.ending
    have hfailing := tally_congr workers Phase.failing
    rw [quiet]
    change Accounted s t 0 0
    constructor <;> simp only [hitems, hduplicates, hdrained, hfailed, hdepth, hending, hfailing, buffer,
      Nat.add_zero, Nat.le_refl]
  | accept a counters buffer workers quiet =>
    obtain ⟨hitems, hduplicates, hdrained, hfailed, _⟩ := Counters.core_eq counters
    simp only [Counters.recordEnqueue] at hitems hduplicates hdrained hfailed
    have hdepth : t.depth = s.depth + if s.buffer.isPending a.key then 0 else 1 :=
      (congrArg Buffer.depth buffer).trans (s.buffer.insert_depth a.key a.item)
    have hlast := s.buffer.insert_last a.key a.item
    rw [← buffer] at hlast
    have hending := tally_congr workers Phase.ending
    have hfailing := tally_congr workers Phase.failing
    rw [Buffer.insert_isCoalesced] at hduplicates
    rw [quiet]
    change Accounted s t 1 0
    cases hp : s.buffer.isPending a.key with
    | true | false =>
      simp [hp] at hlast hdepth hduplicates
      constructor <;> omega
  | claim w entry since move counters claim =>
    have hdepth : t.depth = s.depth := congrArg List.length (Buffer.claim_outstanding claim)
    have hlast := Buffer.claim_last claim
    have hending := move.tally Phase.ending
    have hfailing := move.tally Phase.failing
    simp only [Phase.ending, Phase.failing] at hending hfailing
    change Accounted s t 0 0
    constructor <;> simp only [counters, Counters.beginDrain, hlast] <;> omega
  | move w ph ph' move working ending failing counters buffer quiet =>
    have hdepth : t.depth = s.depth := congrArg Buffer.depth buffer
    have hending := move.tally Phase.ending
    have hfailing := move.tally Phase.failing
    rw [quiet]
    change Accounted s t 0 0
    constructor <;> simp only [counters, buffer] <;> omega
  | finish w ph entry micros outcome move working ending failing counters buffer =>
    have hdepth : t.depth = s.depth := congrArg Buffer.depth buffer
    have hending := move.tally Phase.ending
    have hfailing := move.tally Phase.failing
    rw [ending] at hending
    rw [failing] at hfailing
    change Accounted s t 0 0
    cases outcome with
    | ok | error =>
      simp only [Phase.ending, Phase.failing] at hending hfailing
      constructor <;> simp [counters, Counters.endDrain, buffer, Except.isOk, Except.toBool] <;> omega
  | retire w entry outcome move counters buffer =>
    have hflight := hs.flight_of move.draining_self
    have hdepth : s.depth = t.depth + 1 := by
      have hcomplete := hs.valid.complete_depth hflight
      rwa [← buffer] at hcomplete
    have hlast : t.buffer.last = s.buffer.last := by rw [buffer]; rfl
    have hending := move.tally Phase.ending
    have hfailing := move.tally Phase.failing
    cases outcome with
    | ok =>
      simp only [Phase.ending, Phase.failing] at hending hfailing
      change Accounted s t 0 0
      constructor <;> simp only [counters, hlast] <;> omega
    | error =>
      simp only [Phase.ending, Phase.failing] at hending hfailing
      change Accounted s t 0 1
      constructor <;> simp only [counters, hlast] <;> omega

/-! ## What holds in every state -/

structure Audited (s : State κ ι) : Prop where
  sound : s.counters.Sound
  workers : s.workers.length ≤ maxWorkers
  busy : s.counters.busy = s.tally Phase.working
  flight : s.buffer.inFlight.size = s.tally Phase.working + s.tally Phase.ending
  concurrent : s.counters.concurrent ≤
    (s.workers.length - 1) * (s.counters.drained + s.tally Phase.working)

omit [DecidableEq κ] [Named κ] in
theorem Phase.working_le (ph : Phase κ ι) : ph.working ≤ 1 := by
  cases ph <;> simp [working]

omit [DecidableEq κ] [Named κ] in
theorem Audited.of_core (ha : Audited s) (hc : t.counters.core = s.counters.core)
    (hflight : t.buffer.inFlight = s.buffer.inFlight) (hw : t.workers = s.workers) : Audited t := by
  obtain ⟨_, _, hdrained, _, hconcurrent, hbusy, _⟩ := Counters.core_eq hc
  obtain ⟨sound, workers, busy, flight, concurrent⟩ := ha
  refine ⟨.of_core hc sound, ?_, ?_, ?_, ?_⟩
  · rwa [hw]
  · rwa [hbusy, tally_congr hw]
  · rwa [hflight, tally_congr hw, tally_congr hw]
  · rwa [hconcurrent, hw, hdrained, tally_congr hw]

omit [Named κ] in
theorem Audited.claim {entry : Claimed κ ι} {since : Nat} (ha : Audited s) (hs : Tended s)
    (move : Moves s t w .idle (.claimed ⟨entry, since⟩)) (counters : t.counters = s.counters.beginDrain)
    (claim : s.buffer.claim = (some entry, t.buffer)) : Audited t := by
  obtain ⟨sound, length, busy, flight, concurrent⟩ := ha
  have hworking := move.tally Phase.working
  have hending := move.tally Phase.ending
  simp only [Phase.working, Phase.ending] at hworking hending
  have hsize := hs.valid.claim_flight_size claim
  have hworkers := move.length
  -- The worker that claims was idle, so that the others are fewer than all.
  have hothers := tally_le t Phase.working_le
  have hword : maxWorkers < wordSize := by decide
  have hbusy : wrap (s.counters.busy + 1) = s.counters.busy + 1 := Nat.mod_eq_of_lt (by omega)
  refine ⟨?_, ?_, ?_, ?_, ?_⟩
  · rw [counters]
    exact ⟨sound.drains, sound.count, sound.failed⟩
  · omega
  · rw [counters]
    exact hbusy.trans (busy ▸ hworking.symm)
  · omega
  · have hsum : s.counters.concurrent + s.counters.busy ≤
        (s.workers.length - 1) * (s.counters.drained + t.tally Phase.working) := by
      rw [show t.tally Phase.working = s.tally Phase.working + 1 from hworking, ← Nat.add_assoc,
        Nat.mul_succ]
      omega
    rw [hworkers, counters]
    exact Nat.le_trans (Counters.wrap_le _) hsum

omit [DecidableEq κ] [Named κ] in
theorem Audited.finish {ph : Phase κ ι} {entry : Claimed κ ι} {micros : Nat} {outcome : Outcome}
    (ha : Audited s) (move : Moves s t w ph (.ended entry outcome)) (working : ph.working = 1)
    (ending : ph.ending = 0) (counters : t.counters = s.counters.endDrain micros outcome.isOk)
    (buffer : t.buffer = s.buffer) : Audited t := by
  obtain ⟨sound, length, busy, flight, concurrent⟩ := ha
  have hworking := move.tally Phase.working
  have hending := move.tally Phase.ending
  rw [working] at hworking
  rw [ending] at hending
  simp only [Phase.working, Phase.ending] at hworking hending
  have hworkers := move.length
  have hothers := tally_le s Phase.working_le
  have hword : maxWorkers < wordSize := by decide
  have hbusy : wrap (s.counters.busy + maxWord) = t.tally Phase.working := by
    rw [busy, show s.tally Phase.working = t.tally Phase.working + 1 from hworking.symm]
    exact Counters.wrap_pred (by omega)
  refine ⟨?_, ?_, ?_, ?_, ?_⟩
  · rw [counters]
    exact sound.endDrain micros outcome.isOk
  · omega
  · rw [counters]
    exact hbusy
  · rw [buffer]
    omega
  · have hdrained : t.counters.drained + t.tally Phase.working =
        s.counters.drained + s.tally Phase.working := by
      rw [counters]
      simp only [Counters.endDrain]
      omega
    rw [hdrained, hworkers, counters]
    exact concurrent

omit [Named κ] in
theorem Tally.audited (h : Tally s t out a?) (hs : Tended s) (ha : Audited s) : Audited t := by
  cases h with
  | still counters buffer workers quiet => exact ha.of_core counters (congrArg Buffer.inFlight buffer) workers
  | accept a counters buffer workers quiet =>
    have hinsert : (s.buffer.insert a.key a.item).2.inFlight = s.buffer.inFlight := Buffer.insert_inFlight ..
    obtain ⟨sound, length, busy, flight, concurrent⟩ := ha
    have hrecorded : Audited { s with
        counters := s.counters.recordEnqueue (s.buffer.insert a.key a.item).1.isCoalesced } :=
      ⟨⟨sound.drains, sound.count, sound.failed⟩, length, busy, flight, concurrent⟩
    exact hrecorded.of_core counters (by rw [buffer, hinsert]) workers
  | claim w entry since move counters claim => exact ha.claim hs move counters claim
  | move w ph ph' move working ending failing counters buffer quiet =>
    obtain ⟨sound, length, busy, flight, concurrent⟩ := ha
    have hworking := move.tally Phase.working
    have hending := move.tally Phase.ending
    have hworking : t.tally Phase.working = s.tally Phase.working := by omega
    have hending : t.tally Phase.ending = s.tally Phase.ending := by omega
    refine ⟨?_, ?_, ?_, ?_, ?_⟩ <;> simpa only [counters, buffer, hworking, hending, move.length]
  | finish w ph entry micros outcome move working ending failing counters buffer =>
    exact ha.finish move working ending counters buffer
  | retire w entry outcome move counters buffer =>
    obtain ⟨sound, length, busy, flight, concurrent⟩ := ha
    have hworking := move.tally Phase.working
    have hending := move.tally Phase.ending
    simp only [Phase.working, Phase.ending] at hworking hending
    have hworking : t.tally Phase.working = s.tally Phase.working := hworking
    have hsize := Buffer.complete_flight_size (hs.flight_of move.draining_self)
    refine ⟨?_, ?_, ?_, ?_, ?_⟩ <;> simp only [counters, hworking, move.length]
    · exact sound
    · exact length
    · exact busy
    · rw [buffer]
      omega
    · exact concurrent

omit [DecidableEq κ] [Named κ] in
theorem Audited.clear (ha : Audited s) : Audited { s with counters := s.counters.clear } :=
  ⟨.empty _, ha.workers, ha.busy, ha.flight, Nat.zero_le _⟩

theorem Audited.step (ha : Audited s) (hs : Tended s) (h : step s e = some (t, out)) : Audited t := by
  by_cases he : e = .clear
  · subst he
    cases h
    exact ha.clear
  · exact (step_tally h he).audited hs ha

variable {config : QueueConfig} {connections : List Connection}

omit [DecidableEq κ] [Named κ] in
theorem Begins.tally (h : Begins config connections s₀) {f : Phase κ ι → Nat} (hf : f .idle = 0) :
    s₀.tally f = 0 := by
  obtain ⟨_, _, _, rfl⟩ := h.eq
  simp [State.tally, hf]

omit [DecidableEq κ] [Named κ] in
theorem Begins.audited (h : Begins config connections s₀) : Audited s₀ := by
  obtain ⟨_, hworkers, _⟩ := h.valid
  have hworking := h.tally (f := Phase.working) rfl
  have hending := h.tally (f := Phase.ending) rfl
  obtain ⟨_, _, _, rfl⟩ := h.eq
  refine ⟨.empty 0, ?_, hworking.symm, ?_, Nat.zero_le _⟩
  · simpa using hworkers
  · rw [hworking, hending]
    rfl

theorem Audited.run (ha : Audited s) (hs : Tended s) (hr : run s events = some (t, out)) : Audited t := by
  refine run_induction (P := fun _ _ t => Audited t) ha ?_ hr
  intro events o t e u o' hr ha he
  exact ha.step (hs.run hr) he

/-! ## Runs in which the counters are not cleared -/

theorem run_accounted (hs : Tended s) (hr : run s events = some (t, out))
    (uncleared : Event.clear ∉ events) :
    Accounted s t (acceptances s events).length (failedDrains out) := by
  refine run_induction (P := fun events out t => Event.clear ∉ events →
    Accounted s t (acceptances s events).length (failedDrains out)) ?_ ?_ hr uncleared
  · intro _
    exact .refl s
  · intro events o t e u o' hr ih he uncleared
    have hbefore := ih fun hm => uncleared (List.mem_append_left _ hm)
    have hstep := (step_tally he fun heq => uncleared (by simp [heq])).accounted (hs.run hr)
    rw [acceptances_snoc hr he, List.length_append, failedDrains, List.countP_append]
    exact hbefore.trans hstep

/-! ## Queues at rest -/

theorem Settled.tally (settled : Settled s) {f : Phase κ ι → Nat}
    (hf : ∀ w ph, Keeps s w ph → f ph = 0) : s.tally f = 0 := by
  apply List.sum_eq_zero
  intro n hn
  obtain ⟨ph, hm, rfl⟩ := List.mem_map.mp hn
  obtain ⟨w, hw⟩ := List.getElem?_of_mem hm
  exact hf w ph (settled.keeps hw)

theorem Settled.ending (settled : Settled s) : s.tally Phase.ending = 0 := by
  apply settled.tally
  intro w ph hkeeps
  cases hkeeps <;> rfl

theorem Settled.failing (settled : Settled s) : s.tally Phase.failing = 0 := by
  apply settled.tally
  intro w ph hkeeps
  cases hkeeps <;> rfl

/-- The statistics agree with what happened since they started with so many entries outstanding: the
writes that were accepted, the entries that were created for them, and the drains that failed. -/
structure Balance (s : State κ ι) (accepted created failed outstanding : Nat) : Prop where
  items : s.snapshot.items = accepted
  enqueued : s.snapshot.items = s.snapshot.duplicates + created
  outstanding : s.snapshot.drained + s.snapshot.gauges.depth = created + outstanding
  depth : s.snapshot.gauges.depth = s.snapshot.gauges.pending + s.snapshot.gauges.inFlight
  busy : s.snapshot.busy = s.snapshot.gauges.inFlight
  workers : s.snapshot.gauges.inFlight ≤ s.snapshot.gauges.workers
  failed : s.snapshot.failed = failed
  succeeded : s.snapshot.succeeded + s.snapshot.failed = s.snapshot.drained
  count : s.counters.drains.count = s.snapshot.drained
  buckets : (s.snapshot.buckets.map (·.2)).sum = s.snapshot.drained
  concurrent : s.snapshot.concurrent ≤
    (s.snapshot.gauges.workers - 1) * (s.snapshot.drained + s.snapshot.gauges.inFlight)

theorem Accounted.balance {accepted failed : Nat} (h : Accounted s t accepted failed)
    (fresh : s.counters.clear = s.counters) (hending : s.tally Phase.ending = 0)
    (hfailing : s.tally Phase.failing = 0) (ht : Tended t) (ha : Audited t) (settled : Settled t) :
    Balance t accepted (t.buffer.last.val - s.buffer.last.val) failed s.depth := by
  obtain ⟨hitems, hcreated, hended, hfailed, hgrows⟩ := h
  obtain ⟨sound, workers, busy, flight, concurrent⟩ := ha
  have hnoitems : s.counters.items = 0 := by rw [← fresh]; rfl
  have hnoduplicates : s.counters.duplicates = 0 := by rw [← fresh]; rfl
  have hnodrained : s.counters.drained = 0 := by rw [← fresh]; rfl
  have hnofailed : s.counters.failed = 0 := by rw [← fresh]; rfl
  have hending' := settled.ending
  have hfailing' := settled.failing
  have hflight : t.buffer.inFlight.size = t.tally Phase.working := by omega
  refine ⟨?_, ?_, ?_, ht.valid.depth_eq, ?_, ?_, ?_, ?_, sound.count, ?_, ?_⟩
  · exact hitems.trans (by omega)
  · change t.counters.items = t.counters.duplicates + _
    omega
  · change t.counters.drained + t.depth = _
    omega
  · exact busy.trans hflight.symm
  · have hle := tally_le t Phase.working_le
    rw [Nat.mul_one] at hle
    exact hflight.trans_le hle
  · exact (by omega : t.counters.failed = failed)
  · exact Nat.sub_add_cancel sound.failed
  · exact sound.drains.total.trans sound.count
  · change t.counters.concurrent ≤ (t.workers.length - 1) * (t.counters.drained + t.buffer.inFlight.size)
    rw [hflight]
    exact concurrent

/-- In every queue at rest whose statistics were never cleared, the accepted writes are the items, each is
folded into a pending entry or creates one, and every entry has drained or is outstanding, in flight with
a busy worker or pending. To clear the statistics at rest changes no gauge, and the statistics then agree
with what happens from there on. -/
theorem statistics_balance (h : Begins config connections s₀) (hr : run s₀ events = some (t, out))
    (settled : Settled t) :
    (.clear ∉ events → Balance t (acceptances s₀ events).length t.buffer.last.val (failedDrains out) 0) ∧
    ∃ u, step t .clear = some (u, []) ∧ u.snapshot.gauges = t.snapshot.gauges ∧
      u.snapshot.busy = t.snapshot.busy ∧
      ∀ later v o, run u later = some (v, o) → .clear ∉ later → Settled v →
        Balance v (acceptances u later).length (v.buffer.last.val - t.buffer.last.val) (failedDrains o)
          t.depth := by
  have ht := h.tended.run hr
  refine ⟨fun uncleared => ?_, _, rfl, rfl, rfl, fun later v o hlater uncleared hv => ?_⟩
  · have haccounted := run_accounted h.tended hr uncleared
    have haudited := h.audited.run h.tended hr
    have hbalance := haccounted.balance ?_ (h.tally rfl) (h.tally rfl) ht haudited settled
    · have hdepth : s₀.depth = 0 := by
        unfold State.depth
        rw [h.buffer]
        rfl
      rw [h.buffer, hdepth] at hbalance
      exact hbalance
    · obtain ⟨_, _, _, rfl⟩ := h.eq
      rfl
  · have hu : Tended { t with counters := t.counters.clear } := ht.step (e := .clear) rfl
    have haudited := (h.audited.run h.tended hr).clear.run hu hlater
    exact (run_accounted hu hlater uncleared).balance rfl settled.ending settled.failing (hu.run hlater)
      haudited hv

def mixed : List (Event String Nat) :=
  [.enqueue 1 "a" 1 false, .work 0, .work 0, .work 0, .work 0, .enqueue 2 "a" 2 false, .tryEnqueue 3 "b" 3,
    .finish 0 (.error .timeout), .work 0, .work 0, .work 0, .work 0, .work 0, .work 0,
    .enqueue 4 "c" 4 false, .enqueue 5 "c" 5 false, .look 5, .work 1, .work 1, .work 1, .work 1]

def calmed : List (Event String Nat) :=
  [.finish 0 (.error (.crashed "boom")), .work 0, .work 0, .work 0, .work 0, .look 5, .finish 1 (.ok ()),
    .work 1, .work 1, .work 1, .work 1, .tryEnqueue 6 "d" 6, .work 0, .work 0, .work 0, .work 0]

theorem statistics_balance_cleared : ∃ (s₀ t u v : State String Nat) (out o : _),
    Begins strict [⟨0, 0⟩, ⟨1, 0⟩] s₀ ∧ run s₀ mixed = some (t, out) ∧ Settled t ∧
    step t .clear = some (u, []) ∧ run u calmed = some (v, o) ∧ Settled v ∧
    Balance t 4 3 1 0 ∧ Balance v 1 1 1 2 := by
  obtain ⟨s₀, t, u, v, out, o, h, hr, he, hlater, ht, hv, hmixed, hcalmed, htaken, hlast, hfailed, hdepth,
      htaken', hlast', hfailed'⟩ :
      ∃ (s₀ t u v : State String Nat) (out o : _), Begins strict [⟨0, 0⟩, ⟨1, 0⟩] s₀ ∧
      run s₀ mixed = some (t, out) ∧ step t .clear = some (u, []) ∧ run u calmed = some (v, o) ∧
      Settled t ∧ Settled v ∧ .clear ∉ mixed ∧ .clear ∉ calmed ∧
      (acceptances s₀ mixed).length = 4 ∧ t.buffer.last.val = 3 ∧ failedDrains out = 1 ∧ t.depth = 2 ∧
      (acceptances u calmed).length = 1 ∧ v.buffer.last.val = 4 ∧ failedDrains o = 1 :=
    ⟨_, _, _, _, _, _, ⟨_, rfl, rfl⟩, rfl, rfl, rfl, by decide, by decide, by simp [mixed],
      by simp [calmed], rfl, rfl, rfl, rfl, rfl, rfl, rfl⟩
  obtain ⟨hbalance, u', he', _, _, hrest⟩ := statistics_balance h hr ht
  cases he.symm.trans he'
  have hbalance := hbalance hmixed
  have hbalance' := hrest calmed v o hlater hcalmed hv
  rw [htaken, hlast, hfailed] at hbalance
  rw [htaken', hlast', hlast, hfailed', hdepth] at hbalance'
  exact ⟨s₀, t, u, v, out, o, h, hr, ht, he, hlater, hv, hbalance, hbalance'⟩

end WriteBehind.Queue
