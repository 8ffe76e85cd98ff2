import WriteBehind.Proofs.Queue.Rest
import WriteBehind.Proofs.Queue.Transparency

/-!
# Refused calls

A queue refuses a write when it is closed or, if the producer does not want to wait, full, and it refuses
watermarks that are not in order. Such a call is counted if the queue was full, and nothing else comes of it:
a run without its refused calls is a run through the same states, but for that count.
-/

namespace WriteBehind.Queue

variable {κ ι : Type} {s₀ s t u : State κ ι} {out o : List (Notice κ ι)}
  {events later : List (Event κ ι)}
  {e : Event κ ι} {id : Nat}

/-! ## A queue that counts no rejections -/

def State.unrejected (s : State κ ι) : State κ ι := { s with counters := { s.counters with rejected := 0 } }

def rejections : Veil where
  marks w := w
  stalling b := b
  count c := { c with rejected := 0 }
  calls l := l
  count_begin _ := rfl
  count_end _ _ _ := rfl
  calls_wake _ := rfl

def Effect.unrejected (x : Effect κ ι) : Effect κ ι := (x.1.unrejected, x.2)

theorem issue_unrejected (s : State κ ι) (id : Nat) (x : Effect κ ι) :
    issue s.unrejected id x.unrejected = (issue s id x).map Effect.unrejected := by
  have hcall : s.unrejected.call? id = s.call? id := rfl
  have howned : s.unrejected.abandoned = s.abandoned := rfl
  unfold issue
  rw [hcall, howned]
  split <;> rfl

theorem close_unrejected (s : State κ ι) (id : Nat) : s.unrejected.close id = (s.close id).unrejected := by
  have hclosed : s.unrejected.closed = s.closed := rfl
  unfold State.close
  rw [hclosed]
  split <;> rfl

theorem setWatermarks_unrejected (s : State κ ι) (id high low : Nat) :
    s.unrejected.setWatermarks id high low = (s.setWatermarks id high low).unrejected := by
  unfold State.setWatermarks
  split <;> rfl

theorem borrow_unrejected (s : State κ ι) (id : Nat) : s.unrejected.borrow id = (s.borrow id).unrejected := by
  have hclosed : s.unrejected.closed = s.closed := rfl
  have hpool : s.unrejected.pool = s.pool := rfl
  unfold State.borrow
  rw [hclosed, hpool]
  split
  · rfl
  · split <;> rfl

theorem request_unrejected (s : State κ ι) (id : Nat) :
    s.unrejected.request id = (s.request id).map Effect.unrejected := by
  have hholding : s.unrejected.holding? id = s.holding? id := rfl
  unfold State.request
  rw [hholding]
  cases s.holding? id <;> rfl

theorem giveBack_unrejected (s : State κ ι) (id : Nat) (result : Except StoreError (Option Connection)) :
    s.unrejected.giveBack id result = (s.giveBack id result).map Effect.unrejected := by
  have hholding : s.unrejected.holding? id = s.holding? id := rfl
  unfold State.giveBack
  rw [hholding]
  cases s.holding? id <;> rfl

theorem look_unrejected [Named κ] (s : State κ ι) (id : Nat) :
    s.unrejected.look id = (s.look id).map Effect.unrejected := by
  have hcall : s.unrejected.call? id = s.call? id := rfl
  have hreleased : s.unrejected.isReleased = s.isReleased := rfl
  have hbuffer : s.unrejected.buffer = s.buffer := rfl
  have hworkers : s.unrejected.workers = s.workers := rfl
  have hpool : s.unrejected.pool = s.pool := rfl
  unfold State.look
  rw [hcall, hreleased, hbuffer, hworkers, hpool]
  cases s.call? id with
  | none => rfl
  | some c =>
    simp only [bind, Option.bind_some, takeFailure_eq, endFence_eq, endClose_eq]
    cases c.phase with
    | stalled receipt fenced =>
      simp only
      split
      · rfl
      · split
        · cases fenced <;> rfl
        · rfl
    | fence target | closing target =>
      simp only
      split
      · rfl
      · split <;> rfl
    | joining flushed workers =>
      simp only
      split <;> rfl
    | borrowing =>
      simp only
      split <;> rfl
    | _ => rfl

variable [DecidableEq κ]

theorem enqueue_unrejected (s : State κ ι) (id : Nat) (key : κ) (item : ι) (fenced : Bool) :
    s.unrejected.enqueue id key item fenced = (s.enqueue id key item fenced).unrejected := by
  have hclosed : s.unrejected.closed = s.closed := rfl
  have hstalls : (s.unrejected.stalling && s.unrejected.watermarks.isOver s.unrejected.depth) =
      (s.stalling && s.watermarks.isOver s.depth) := rfl
  unfold State.enqueue
  rw [hclosed]
  split
  · rfl
  · simp only [hstalls]
    split
    · rfl
    · cases fenced <;> rfl

/-! ## Refusals -/

omit [DecidableEq κ] in
def rejects : Event κ ι → List (Notice κ ι) → Bool
  | .tryEnqueue .., [.returned _ (.error (.queueFull ..))] => true
  | _, _ => false

omit [DecidableEq κ] in
def refuses : Event κ ι → List (Notice κ ι) → Bool
  | .tryEnqueue .., [.returned _ (.error (.queueFull ..))] => true
  | .tryEnqueue .., [.returned _ (.error .closed)] | .enqueue .., [.returned _ (.error .closed)] => true
  | .setWatermarks .., [.returned _ (.error (.config _))] => true
  | _, _ => false

omit [DecidableEq κ] in
theorem refuses_of_rejects (h : rejects e out = true) : refuses e out = true := by
  unfold rejects at h
  split at h
  · rfl
  · cases h

/-- There is no room for a write that does not wait: the queue is open and full, and nothing is pending into
which the write could be folded. -/
def State.Full (s : State κ ι) (key : κ) : Prop :=
  s.closed = false ∧ s.watermarks.high ≤ s.depth ∧ s.buffer.pending.get? key = none

theorem full_iff {key : κ} : s.Full key ↔
    s.closed = false ∧ s.watermarks.isOver s.depth = true ∧ s.buffer.isPending key = false := by
  unfold State.Full Watermarks.isOver Buffer.isPending
  rw [Table.contains_eq_false, decide_eq_true_eq]

theorem tryEnqueue_full {key : κ} (h : s.Full key) (id : Nat) (item : ι) :
    s.tryEnqueue id key item = ({ s with counters := s.counters.recordRejected },
      [.returned id (.error (.queueFull s.depth s.watermarks.high))]) := by
  obtain ⟨opened, above, fresh⟩ := full_iff.mp h
  simp [State.tryEnqueue, opened, above, fresh]

theorem tryEnqueue_unrejected {key : κ} (h : ¬ s.Full key) (id : Nat) (item : ι) :
    s.unrejected.tryEnqueue id key item = (s.tryEnqueue id key item).unrejected := by
  have hclosed : s.unrejected.closed = s.closed := rfl
  have hroom : (s.unrejected.watermarks.isOver s.unrejected.depth && !s.unrejected.buffer.isPending key) =
      (s.watermarks.isOver s.depth && !s.buffer.isPending key) := rfl
  unfold State.tryEnqueue
  rw [hclosed, hroom]
  split
  · rfl
  · rename_i opened
    split
    · rename_i hfull
      rw [Bool.and_eq_true] at hfull
      exact absurd (full_iff.mpr ⟨by simpa using opened, hfull.1, by simpa using hfull.2⟩) h
    · rfl

/-! ## Steps -/

variable [Named κ]

theorem step_unrejected (s : State κ ι) (e : Event κ ι)
    (h : ∀ id key item, e = .tryEnqueue id key item → ¬ s.Full key) :
    step s.unrejected e = (step s e).map Effect.unrejected := by
  cases e with
  | enqueue id key item fenced =>
    show issue _ id (s.unrejected.enqueue id key item fenced) = _
    rw [enqueue_unrejected]
    exact issue_unrejected s id _
  | tryEnqueue id key item =>
    show issue _ id (s.unrejected.tryEnqueue id key item) = _
    rw [tryEnqueue_unrejected (h id key item rfl)]
    exact issue_unrejected s id _
  | barrier id => exact issue_unrejected s id (s.barrier id)
  | close id =>
    show issue _ id (s.unrejected.close id) = _
    rw [close_unrejected]
    exact issue_unrejected s id _
  | setWatermarks id high low =>
    show issue _ id (s.unrejected.setWatermarks id high low) = _
    rw [setWatermarks_unrejected]
    exact issue_unrejected s id _
  | borrow id =>
    show issue _ id (s.unrejected.borrow id) = _
    rw [borrow_unrejected]
    exact issue_unrejected s id _
  | request id => exact request_unrejected s id
  | giveBack id result => exact giveBack_unrejected s id result
  | work w => exact rejections.work s w
  | finish w outcome => exact rejections.finish s w outcome
  | look id => exact look_unrejected s id
  | expire =>
    have hquiet : (s.unrejected.abandoned && s.unrejected.calls.isEmpty && !s.unrejected.closed) =
        (s.abandoned && s.calls.isEmpty && !s.closed) := rfl
    simp only [step, hquiet]
    split <;> rfl
  | _ => rfl

theorem step_refused_call (h : step s e = some (t, out)) (hr : refuses e out = true) :
    t.unrejected = s.unrejected ∧ stores out = [] ∧
      t.counters.rejected = s.counters.rejected + (rejects e out).toNat := by
  cases step_cases h with
  | made id _ _ _ _ _ _ makes =>
    cases makes with
    | refused _ _ asks =>
      cases e with
      | enqueue | tryEnqueue => exact ⟨rfl, rfl, rfl⟩
      | _ => cases hr
    | full => exact ⟨rfl, rfl, rfl⟩
    | invalid => exact ⟨rfl, rfl, rfl⟩
    | _ => cases hr
  | _ => cases hr

theorem step_answered (h : step s e = some (t, out)) (hr : refuses e out = false) :
    step s.unrejected e = some (t.unrejected, out) := by
  rw [step_unrejected, h]
  · rfl
  · rintro id key item rfl hfull
    obtain ⟨_, _, heffect⟩ := issue_eq_some.mp h
    rw [tryEnqueue_full hfull] at heffect
    cases heffect
    cases hr

theorem step_rejected (h : step s e = some (t, out)) (hr : refuses e out = false) (he : e ≠ .clear) :
    t.counters.rejected = s.counters.rejected := by
  cases step_cases h with
  | made id _ _ _ _ _ _ makes =>
    cases makes with
    | full => cases hr
    | _ => rfl
  | clear => exact absurd rfl he
  | work w _ _ works =>
    cases works with
    | noted _ outcome => cases outcome <;> rfl
    | _ => rfl
  | look _ _ _ _ _ looks => cases looks <;> rfl
  | _ => rfl

/-! ## Runs -/

def transcript (s : State κ ι) (events : List (Event κ ι)) : List (Event κ ι × List (Notice κ ι)) :=
  observe (fun _ e effect => [(e, effect.2)]) s events

def refusals (s : State κ ι) (events : List (Event κ ι)) : List (Event κ ι × List (Notice κ ι)) :=
  (transcript s events).filter fun x => refuses x.1 x.2

def answered (s : State κ ι) (events : List (Event κ ι)) : List (Event κ ι × List (Notice κ ι)) :=
  (transcript s events).filter fun x => !refuses x.1 x.2

theorem transcript_cons (h : step s e = some (t, out)) :
    transcript s (e :: events) = (e, out) :: transcript t events := by
  simp [transcript, observe, h]

theorem run_answered (h : run s events = some (t, out)) :
    ∃ o, run s.unrejected ((answered s events).map (·.1)) = some (t.unrejected, o) ∧
      transcript s.unrejected ((answered s events).map (·.1)) = answered s events ∧
      stores o = stores out := by
  induction events generalizing s out with
  | nil =>
    obtain ⟨rfl, rfl⟩ := run_nil.mp h
    exact ⟨[], rfl, rfl, rfl⟩
  | cons e events ih =>
    obtain ⟨u, o₁, o₂, he, hr, rfl⟩ := run_cons.mp h
    obtain ⟨o, hrun, htranscript, hstores⟩ := ih hr
    have happend : stores (o₁ ++ o₂) = stores o₁ ++ stores o₂ := List.filterMap_append
    unfold answered at hrun htranscript ⊢
    rw [transcript_cons he, happend]
    by_cases href : refuses e o₁ = true
    · obtain ⟨hsame, hquiet, _⟩ := step_refused_call he href
      rw [List.filter_cons_of_neg (by simp [href]), ← hsame, hquiet]
      exact ⟨o, hrun, htranscript, hstores⟩
    · have hkept := step_answered he (by simpa using href)
      rw [List.filter_cons_of_pos (by simpa using href), List.map_cons, transcript_cons hkept, htranscript]
      have happend' : stores (o₁ ++ o) = stores o₁ ++ stores o := List.filterMap_append
      exact ⟨o₁ ++ o, run_cons.mpr ⟨_, o₁, o, hkept, hrun, rfl⟩, rfl, by rw [happend', hstores]⟩

theorem run_rejected (h : run s events = some (t, out)) (uncleared : .clear ∉ events) :
    t.counters.rejected = s.counters.rejected + (transcript s events).countP fun x => rejects x.1 x.2 := by
  induction events generalizing s out with
  | nil =>
    obtain ⟨rfl, rfl⟩ := run_nil.mp h
    rfl
  | cons e events ih =>
    obtain ⟨u, o₁, o₂, he, hr, rfl⟩ := run_cons.mp h
    have hrest := ih hr fun hm => uncleared (List.mem_cons_of_mem _ hm)
    have hstep : u.counters.rejected = s.counters.rejected + (rejects e o₁).toNat := by
      by_cases href : refuses e o₁ = true
      · exact (step_refused_call he href).2.2
      · have hnone : rejects e o₁ = false := by
          by_contra hn
          exact href (refuses_of_rejects (by simpa using hn))
        rw [hnone, step_rejected he (by simpa using href) fun heq => uncleared (by simp [heq])]
        rfl
    rw [transcript_cons he, List.countP_cons, hrest, hstep]
    cases rejects e o₁ <;> simp
    omega

theorem step_tryEnqueue (owned : s.abandoned = false) (free : s.call? id = none) (key : κ) (item : ι) :
    ∃ t result, step s (.tryEnqueue id key item) = some (t, [.returned id result]) ∧
      (s.Full key → result = .error (.queueFull s.depth s.watermarks.high)) ∧
      (∀ depth high, result = .error (.queueFull depth high) → s.Full key) := by
  by_cases hfull : s.Full key
  · exact ⟨_, _, issue_eq_some.mpr ⟨owned, free, tryEnqueue_full hfull id item⟩, fun _ => rfl,
      fun _ _ _ => hfull⟩
  · obtain ⟨t, out, ht⟩ : ∃ t out, s.tryEnqueue id key item = (t, out) := ⟨_, _, rfl⟩
    have hstep := issue_eq_some.mpr ⟨owned, free, ht⟩
    obtain ⟨a?, makes⟩ := tryEnqueue_cases ht
    cases makes with
    | refused =>
      exact ⟨_, _, hstep, fun h => absurd h hfull, by simp⟩
    | full _ _ opened above fresh => exact absurd (full_iff.mpr ⟨opened, above, fresh⟩) hfull
    | tried => exact ⟨_, _, hstep, fun h => absurd h hfull, by simp⟩

variable {config : QueueConfig} {connections : List Connection}

/-- Refused calls leave no trace. A run without the calls that it refuses is a run: every other step is noticed
as before, the same stores begin in the same order, and the queue is the same but for the count of
rejections, which says how many writes were rejected since it was cleared last. A write that does not wait is
rejected exactly if the queue is open, its depth is at the high mark, and nothing is pending for the
identity. -/
theorem refused_calls_leave_no_trace (h : Begins config connections s₀)
    (hr : run s₀ events = some (t, out)) :
    (∃ o, run s₀ ((answered s₀ events).map (·.1)) = some (t.unrejected, o) ∧
      transcript s₀ ((answered s₀ events).map (·.1)) = answered s₀ events ∧ stores o = stores out) ∧
    (.clear ∉ events → t.counters.rejected = (transcript s₀ events).countP fun x => rejects x.1 x.2) ∧
    (∀ u later v o, step t .clear = some (u, []) → run u later = some (v, o) → .clear ∉ later →
      v.counters.rejected = (transcript u later).countP fun x => rejects x.1 x.2) ∧
    ∀ id key item, t.abandoned = false → t.call? id = none → ∃ u result,
      step t (.tryEnqueue id key item) = some (u, [.returned id result]) ∧
      ((∃ depth high, result = .error (.queueFull depth high)) ↔
        t.closed = false ∧ t.watermarks.high ≤ t.depth ∧ t.buffer.pending.get? key = none) ∧
      ∀ depth high, result = .error (.queueFull depth high) →
        depth = t.depth ∧ high = t.watermarks.high := by
  have hfresh : s₀.unrejected = s₀ := by
    obtain ⟨_, _, _, rfl⟩ := h.eq
    rfl
  have hnone : s₀.counters.rejected = 0 := congrArg (·.counters.rejected) hfresh.symm
  have hanswered := run_answered hr
  rw [hfresh] at hanswered
  refine ⟨hanswered, fun uncleared => ?_, fun u later v o hclear hlater uncleared => ?_, ?_⟩
  · rw [run_rejected hr uncleared, hnone, Nat.zero_add]
  · cases hclear
    rw [run_rejected hlater uncleared]
    exact Nat.zero_add _
  · intro id key item owned free
    obtain ⟨u, result, hstep, hfull, hroom⟩ := step_tryEnqueue owned free key item
    refine ⟨u, result, hstep,
      ⟨fun ⟨depth, high, he⟩ => hroom depth high he, fun h => ⟨_, _, hfull h⟩⟩, ?_⟩
    intro depth high he
    have hresult := hfull (hroom depth high he)
    rw [he, Except.error.injEq, Error.queueFull.injEq] at hresult
    exact hresult

/-- "a" is in flight and "b" pending when "a" is rejected; the write of "b" is folded, the marks are out of
order, and "c" comes when the queue has been closed. -/
def rebuffed : List (Event String Nat) :=
  [.enqueue 1 "a" 1 false, .work 0, .work 0, .work 0, .work 0, .enqueue 2 "b" 2 false, .tryEnqueue 3 "a" 3,
    .tryEnqueue 4 "b" 4, .setWatermarks 5 1 2, .finish 0 (.ok ()), .work 0, .work 0, .work 0, .work 0,
    .work 0, .work 0, .finish 0 (.ok ()), .work 0, .work 0, .close 6, .look 6, .look 6,
    .enqueue 7 "c" 7 false]

def obliged : List (Event String Nat) :=
  [.enqueue 1 "a" 1 false, .work 0, .work 0, .work 0, .work 0, .enqueue 2 "b" 2 false, .tryEnqueue 4 "b" 4,
    .finish 0 (.ok ()), .work 0, .work 0, .work 0, .work 0, .work 0, .work 0, .finish 0 (.ok ()), .work 0,
    .work 0, .close 6, .look 6, .look 6]

theorem refused_calls_leave_no_trace_rebuffed : ∃ (s₀ t : State String Nat) (out o : _),
    Begins strict [⟨0, 0⟩] s₀ ∧ run s₀ rebuffed = some (t, out) ∧
    run s₀ obliged = some (t.unrejected, o) ∧
    transcript s₀ obliged = answered s₀ rebuffed ∧ stores o = stores out ∧
    (refusals s₀ rebuffed).length = 3 ∧ t.counters.rejected = 1 := by
  obtain ⟨s₀, t, out, h, hr, hevents, hcount, hrefused⟩ : ∃ (s₀ t : State String Nat) (out : _),
      Begins strict [⟨0, 0⟩] s₀ ∧ run s₀ rebuffed = some (t, out) ∧
      (answered s₀ rebuffed).map (·.1) = obliged ∧
      ((transcript s₀ rebuffed).countP fun x => rejects x.1 x.2) = 1 ∧
      (refusals s₀ rebuffed).length = 3 :=
    ⟨_, _, _, ⟨_, rfl, rfl⟩, rfl, rfl, rfl, rfl⟩
  obtain ⟨⟨o, ho, htranscript, hstores⟩, hrejected, _⟩ := refused_calls_leave_no_trace h hr
  rw [hevents] at ho htranscript
  exact ⟨s₀, t, out, o, h, hr, ho, htranscript, hstores, hrefused,
    (hrejected (by simp [rebuffed])).trans hcount⟩

end WriteBehind.Queue
