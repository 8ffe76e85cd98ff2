import WriteBehind.Proofs.Queue.History
import WriteBehind.Proofs.Queue.Looks
import WriteBehind.Proofs.Queue.Works

/-!
# What a step can do

`step_cases` lists everything that a step can do, with what it needs and what the queue is like
afterwards. What is proved of all steps is proved case by case from it.
-/

namespace WriteBehind.Queue

variable {κ ι : Type} [DecidableEq κ] {s t : State κ ι} {out : List (Notice κ ι)} {e : Event κ ι} {id : Nat}

/-! ## Calls that are made -/

def Event.call? : Event κ ι → Option Nat
  | .enqueue id _ _ _ | .tryEnqueue id _ _ | .barrier id | .close id | .setWatermarks id _ _
  | .borrow id | .request id | .giveBack id _ | .look id => some id
  | _ => none

def Event.asks : Event κ ι → Bool
  | .enqueue .. | .tryEnqueue .. | .borrow _ => true
  | _ => false

/-- How a call is made: the queue afterwards, what is noticed and the write that is accepted. -/
inductive Makes (s : State κ ι) (id : Nat) :
    Event κ ι → State κ ι → List (Notice κ ι) → Option (Acceptance κ ι) → Prop where
  | refused (e : Event κ ι) (closed : s.closed = true) (asks : e.asks = true) (call : e.call? = some id) :
    Makes s id e s [.returned id (.error .closed)] none
  | full (key : κ) (item : ι) (opened : s.closed = false) (above : s.watermarks.isOver s.depth = true)
    (fresh : s.buffer.isPending key = false) :
    Makes s id (.tryEnqueue id key item) { s with counters := s.counters.recordRejected }
      [.returned id (.error (.queueFull s.depth s.watermarks.high))] none
  | tried (key : κ) (item : ι) (opened : s.closed = false)
    (room : s.watermarks.isOver s.depth = true → s.buffer.isPending key = true) :
    Makes s id (.tryEnqueue id key item) (s.accept key item).2
      [.returned id (.ok (.receipt (s.accept key item).1))] (some ⟨id, key, item, (s.accept key item).1⟩)
  | written (key : κ) (item : ι) (opened : s.closed = false)
    (under : s.stalling = true → s.watermarks.isOver s.depth = false) :
    Makes s id (.enqueue id key item false) (s.accept key item).2
      [.returned id (.ok (.receipt (s.accept key item).1))] (some ⟨id, key, item, (s.accept key item).1⟩)
  | fenced (key : κ) (item : ι) (opened : s.closed = false)
    (under : s.stalling = true → s.watermarks.isOver s.depth = false) :
    Makes s id (.enqueue id key item true) ((s.accept key item).2.barrier id).1
      [.accepted id (s.accept key item).1] (some ⟨id, key, item, (s.accept key item).1⟩)
  | stalled (key : κ) (item : ι) (fenced : Bool) (opened : s.closed = false) (stalling : s.stalling = true)
    (above : s.watermarks.isOver s.depth = true) :
    Makes s id (.enqueue id key item fenced)
      ({ (s.accept key item).2 with counters := (s.accept key item).2.counters.recordStall }.wait id
        (.stalled (s.accept key item).1 fenced)) [] (some ⟨id, key, item, (s.accept key item).1⟩)
  | barrier : Makes s id (.barrier id) (s.barrier id).1 [] none
  | closing (opened : s.closed = false) :
    Makes s id (.close id)
      ({ s with counters := s.counters.recordFlush }.wait id (.closing s.buffer.last)) [] none
  | closed (closed : s.closed = true) : Makes s id (.close id) s [.returned id (.ok .done)] none
  | watermarks (high low : Nat) (watermarks : Watermarks) (valid : Watermarks.of high low = .ok watermarks) :
    Makes s id (.setWatermarks id high low) { s with watermarks } [.returned id (.ok .done)] none
  | invalid (high low : Nat) (error : Error) (invalid : Watermarks.of high low = .error error) :
    Makes s id (.setWatermarks id high low) s [.returned id (.error error)] none
  | lent (c : Connection) (pool : Pool Connection Borrower) (opened : s.closed = false)
    (acquire : s.pool.acquire (.call id) = (.lent c, pool)) :
    Makes s id (.borrow id) ({ s with pool }.wait id (.holding c)) [.lent id c] none
  | borrowing (pool : Pool Connection Borrower) (opened : s.closed = false)
    (acquire : s.pool.acquire (.call id) = (.waits, pool)) :
    Makes s id (.borrow id) ({ s with pool }.wait id .borrowing) [] none
  | unlent (error : Error) (pool : Pool Connection Borrower) (opened : s.closed = false)
    (acquire : s.pool.acquire (.call id) = (.refused error, pool)) :
    Makes s id (.borrow id) { s with pool } [.returned id (.error error)] none

theorem Makes.accepted {a? : Option (Acceptance κ ι)} (h : Makes s id e t out a?) (free : s.call? id = none) :
    accepted? e (t, out) = a? := by
  have hnone : ∀ {t : State κ ι} (error : Error), t.call? id = none →
      receipt? id (t, [.returned id (.error error)]) = none := by
    intro t error ht
    simp [receipt?, ht, Notice.receipt?]
  cases h with
  | refused _ _ asks call => cases e <;> cases asks <;> cases call <;> simp [accepted?, hnone _ free]
  | full => simp [accepted?, hnone (t := { s with counters := s.counters.recordRejected }) _ free]
  | stalled => simp [accepted?, receipt?, State.call?_wait, CallPhase.receipt?]
  | _ => rfl

theorem enqueue_cases {key : κ} {item : ι} {fenced : Bool} (h : s.enqueue id key item fenced = (t, out)) :
    ∃ a?, Makes s id (.enqueue id key item fenced) t out a? := by
  unfold State.enqueue at h
  split at h
  · cases h
    exact ⟨_, .refused _ (by assumption) rfl rfl⟩
  · rename_i hc
    have hopen : s.closed = false := by simpa using hc
    simp only at h
    split at h
    · rename_i hs
      cases h
      rw [Bool.and_eq_true] at hs
      exact ⟨_, .stalled key item fenced hopen hs.1 hs.2⟩
    · rename_i hs
      have hunder : s.stalling = true → s.watermarks.isOver s.depth = false := by simpa using hs
      cases fenced with
      | true => cases h; exact ⟨_, .fenced key item hopen hunder⟩
      | false => cases h; exact ⟨_, .written key item hopen hunder⟩

theorem tryEnqueue_cases {key : κ} {item : ι} (h : s.tryEnqueue id key item = (t, out)) :
    ∃ a?, Makes s id (.tryEnqueue id key item) t out a? := by
  unfold State.tryEnqueue at h
  split at h
  · cases h
    exact ⟨_, .refused _ (by assumption) rfl rfl⟩
  · rename_i hc
    have hopen : s.closed = false := by simpa using hc
    split at h
    · rename_i hf
      cases h
      rw [Bool.and_eq_true] at hf
      exact ⟨_, .full key item hopen hf.1 (by simpa using hf.2)⟩
    · rename_i hf
      cases h
      exact ⟨_, .tried key item hopen (by simpa using hf)⟩

theorem borrow_cases (h : s.borrow id = (t, out)) : ∃ a?, Makes s id (.borrow id) t out a? := by
  unfold State.borrow at h
  split at h
  · cases h
    exact ⟨_, .refused _ (by assumption) rfl rfl⟩
  · rename_i hc
    have hopen : s.closed = false := by simpa using hc
    split at h <;> rename_i ha <;> cases h
    · exact ⟨_, .lent _ _ hopen ha⟩
    · exact ⟨_, .borrowing _ hopen ha⟩
    · exact ⟨_, .unlent _ _ hopen ha⟩

omit [DecidableEq κ] in
theorem issue_eq_some {effect : Effect κ ι} :
    issue s id effect = some (t, out) ↔ s.abandoned = false ∧ s.call? id = none ∧ effect = (t, out) := by
  unfold issue
  split
  · rename_i h
    simp only [reduceCtorEq, false_iff]
    intro ⟨ha, hc, _⟩
    simp [ha, hc] at h
  · rename_i h
    simp only [not_or, Bool.not_eq_true, Option.isSome_eq_false_iff, Option.isNone_iff_eq_none] at h
    simp [h]

/-! ## Steps -/

variable [Named κ]

/-- How a step goes. A call is made if the queue has an owner and nobody has the number. -/
inductive Steps (s : State κ ι) : Event κ ι → State κ ι → List (Notice κ ι) → Prop where
  | made (id : Nat) (e : Event κ ι) (t : State κ ι) (out : List (Notice κ ι)) (owned : s.abandoned = false)
    (a? : Option (Acceptance κ ι)) (free : s.call? id = none) (makes : Makes s id e t out a?) : Steps s e t out
  | request (id : Nat) (c : Connection) (holds : s.phase? id = some (.holding c)) :
    Steps s (.request id) (s.goOn id (.holding c.use)) []
  | giveBack (id : Nat) (c : Connection) (result : Except StoreError (Option Connection))
    (holds : s.phase? id = some (.holding c)) :
    Steps s (.giveBack id result) ({ s with pool := s.pool.giveBack c }.leave id)
      [.returned id ((result.mapError Error.store).map Answer.handed)]
  | stall (on : Bool) : Steps s (.stall on) { s with stalling := on } []
  | clear : Steps s .clear { s with counters := s.counters.clear } []
  | closePool : Steps s .closePool { s with pool := s.pool.close.2 } [.surrendered s.pool.close.1]
  | abandon : Steps s .abandon { s with abandoned := true } []
  | pass (micros : Nat) : Steps s (.pass micros) { s with now := s.now + micros } []
  | work (w : Nat) (t : State κ ι) (out : List (Notice κ ι)) (works : Works s w t out) :
    Steps s (.work w) t out
  | finish (w : Nat) (outcome : Outcome) (drain : Drain κ ι) (c : Connection)
    (before : s.workers[w]? = some (.storing drain c)) :
    Steps s (.finish w outcome) ({ s with pool := s.pool.giveBack c }.endDrain w drain outcome) []
  | look (id : Nat) (c : Call) (t : State κ ι) (out : List (Notice κ ι)) (call : s.call? id = some c)
    (looks : Looks s id c t out) : Steps s (.look id) t out
  | expire (abandoned : s.abandoned = true) (alone : s.calls = []) (opened : s.closed = false) :
    Steps s .expire s.shutDown [.closed]

theorem step_cases (h : step s e = some (t, out)) : Steps s e t out := by
  cases e with
  | enqueue id key item fenced =>
    obtain ⟨owned, free, he⟩ := issue_eq_some.mp h
    obtain ⟨a?, hm⟩ := enqueue_cases he
    exact .made id _ t out owned a? free hm
  | tryEnqueue id key item =>
    obtain ⟨owned, free, he⟩ := issue_eq_some.mp h
    obtain ⟨a?, hm⟩ := tryEnqueue_cases he
    exact .made id _ t out owned a? free hm
  | barrier id =>
    obtain ⟨owned, free, he⟩ := issue_eq_some.mp h
    cases he
    exact .made id _ _ _ owned none free .barrier
  | close id =>
    obtain ⟨owned, free, he⟩ := issue_eq_some.mp h
    refine .made id _ t out owned none free ?_
    unfold State.close at he
    split at he
    · cases he
      exact .closed (by assumption)
    · rename_i hc
      cases he
      exact .closing (by simpa using hc)
  | setWatermarks id high low =>
    obtain ⟨owned, free, he⟩ := issue_eq_some.mp h
    refine .made id _ t out owned none free ?_
    unfold State.setWatermarks at he
    split at he <;> rename_i hw <;> cases he
    · exact .watermarks high low _ hw
    · exact .invalid high low _ hw
  | borrow id =>
    obtain ⟨owned, free, he⟩ := issue_eq_some.mp h
    obtain ⟨a?, hm⟩ := borrow_cases he
    exact .made id _ t out owned a? free hm
  | request id =>
    obtain ⟨c, hc, he⟩ := Option.bind_eq_some_iff.mp (show (s.holding? id).bind _ = _ from h)
    cases he
    exact .request id c (State.holding?_eq hc)
  | giveBack id result =>
    obtain ⟨c, hc, he⟩ := Option.bind_eq_some_iff.mp (show (s.holding? id).bind _ = _ from h)
    cases he
    exact .giveBack id c result (State.holding?_eq hc)
  | stall on => cases h; exact .stall on
  | clear => cases h; exact .clear
  | closePool => cases h; exact .closePool
  | abandon => cases h; exact .abandon
  | pass micros => cases h; exact .pass micros
  | work w => exact .work w t out (work_cases h)
  | finish w outcome =>
    obtain ⟨drain, c, before, rfl, rfl⟩ := finish_cases h
    exact .finish w outcome drain c before
  | look id =>
    obtain ⟨c, hc, hl⟩ := look_cases h
    exact .look id c t out hc hl
  | expire =>
    simp only [step] at h
    split at h
    · rename_i hx
      cases h
      simp only [Bool.and_eq_true, List.isEmpty_iff, Bool.not_eq_eq_eq_not, Bool.not_true] at hx
      exact .expire hx.1.1 hx.1.2 hx.2
    · cases h

theorem step_finish {drain : Drain κ ι} {c : Connection} {w : Nat}
    (hw : s.workers[w]? = some (.storing drain c)) (outcome : Outcome) :
    step s (.finish w outcome) =
      some ({ s with pool := s.pool.giveBack c }.endDrain w drain outcome, []) := by
  show s.finish w outcome = _
  unfold State.finish
  rw [hw]
  rfl

end WriteBehind.Queue
