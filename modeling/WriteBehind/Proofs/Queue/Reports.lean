import WriteBehind.Proofs.Queue.Attempts
import WriteBehind.Proofs.Queue.Issued

/-!
# Failures and fences that take them

The failing drains of a run and the fences that take the held failure, in the order in which they
happen. What is held is the first failure since a fence took one, so this is what the next fence says;
and a failure enters the history once, when the drain that failed is about to retire.
-/

namespace WriteBehind.Queue

variable {κ ι : Type}

/-! ## The history of failures -/

inductive Report (κ : Type) where
  | failed (failure : Failure κ)
  | taken (call : Nat) (result : Except Error Unit)

def Report.failed? : Report κ → Option (Failure κ)
  | failed f => some f
  | taken .. => none

def failures (history : List (Report κ)) : List (Failure κ) := history.filterMap Report.failed?

def unreported1 (held : List (Failure κ)) : Report κ → List (Failure κ)
  | .failed f => held ++ [f]
  | .taken .. => []

/-- The failures since a fence took one. -/
def unreported (history : List (Report κ)) : List (Failure κ) := history.foldl unreported1 []

theorem unreported_snoc (history : List (Report κ)) (r : Report κ) :
    unreported (history ++ [r]) = unreported1 (unreported history) r := by
  unfold unreported
  rw [List.foldl_append]
  rfl

theorem failures_append (h h' : List (Report κ)) : failures (h ++ h') = failures h ++ failures h' :=
  List.filterMap_append

theorem mem_unreported (f : Failure κ) (before after : List (Report κ))
    (hn : ∀ id r, .taken id r ∉ after) : f ∈ unreported (before ++ .failed f :: after) := by
  have keep : ∀ (after : List (Report κ)) (held : List (Failure κ)), (∀ id r, .taken id r ∉ after) →
      f ∈ held → f ∈ after.foldl unreported1 held := by
    intro after
    induction after with
    | nil => exact fun _ _ hf => hf
    | cons r after ih =>
      intro held hn hf
      refine ih _ (fun id r hm => hn id r (List.mem_cons_of_mem _ hm)) ?_
      cases r with
      | failed f' => exact List.mem_append_left _ hf
      | taken id r => exact absurd List.mem_cons_self (hn id r)
  unfold unreported
  rw [List.foldl_append]
  exact keep after _ hn (List.mem_append_right _ List.mem_cons_self)

/-! ## The reports of a step -/

def Notice.result? : Notice κ ι → Option (Except Error Unit)
  | .returned _ result => some (result.map fun _ => ())
  | _ => none

def failedBy (s : State κ ι) (w : Nat) : List (Report κ) :=
  match s.workers[w]? with
  | some (.ended entry (.error cause)) => [.failed ⟨entry.key, entry.sequence, cause⟩]
  | _ => []

/-- A fence takes the held failure when it is over. A closing call whose own fence was clean takes it
once more when it returns. -/
def takenBy (s t : State κ ι) (id : Nat) (out : List (Notice κ ι)) : List (Report κ) :=
  match s.phase? id with
  | some (.fence _) | some (.ending (.ok ())) => (out.filterMap Notice.result?).map (.taken id)
  | some (.closing _) =>
    match t.phase? id with
    | some (.flushed flushed) => [.taken id flushed]
    | _ => []
  | _ => []

def reported (s : State κ ι) : Event κ ι → Effect κ ι → List (Report κ)
  | .work w, _ => failedBy s w
  | .look id, (t, out) => takenBy s t id out
  | _, _ => []

variable [DecidableEq κ] [Named κ]

/-- The failing drains of a run and the fences that take failures, in order. -/
def reports (s : State κ ι) (events : List (Event κ ι)) : List (Report κ) := observe reported s events

variable {s t : State κ ι} {out o : List (Notice κ ι)} {e : Event κ ι} {id w : Nat}
  {accepted : List (Acceptance κ ι)} {history : List (Report κ)}

omit [DecidableEq κ] [Named κ] in
theorem of_mem_reported {effect : Effect κ ι} {r : Except Error Unit} (h : .taken id r ∈ reported s e effect) :
    e = .look id := by
  cases e with
  | work w =>
    have h : .taken id r ∈ failedBy s w := h
    unfold failedBy at h
    split at h
    · cases List.mem_singleton.mp h
    · cases h
  | look id' =>
    have hmap : .taken id r ∈ (effect.2.filterMap Notice.result?).map (.taken id' : _ → Report κ) →
        id' = id := by
      intro h
      obtain ⟨_, _, heq⟩ := List.mem_map.mp h
      cases heq
      rfl
    have h : .taken id r ∈ takenBy s effect.1 id' effect.2 := h
    unfold takenBy at h
    split at h
    · exact congrArg _ (hmap h)
    · exact congrArg _ (hmap h)
    · split at h
      · cases List.mem_singleton.mp h
        rfl
      · cases h
    · cases h
  | _ => cases h

inductive Reporting (s t : State κ ι) : List (Report κ) → Prop where
  | quiet (failure : t.failure = s.failure)
    (retiring : ∀ (w : Nat) d cause, t.workers[w]? = some (.retiring d (.error cause)) →
      s.workers[w]? = some (.retiring d (.error cause))) : Reporting s t []
  | failed (w : Nat) (d : Claimed κ ι) (cause : StoreError)
    (move : Moves s t w (.ended d (.error cause)) (.retiring d (.error cause)))
    (failure : t.failure = (s.failure <|> some ⟨d.key, d.sequence, cause⟩)) :
    Reporting s t [.failed ⟨d.key, d.sequence, cause⟩]
  | taken (id : Nat) (failure : t.failure = none) (workers : t.workers = s.workers) :
    Reporting s t [.taken id (surfaced s.failure)]

omit [DecidableEq κ] [Named κ] in
theorem Moves.retiring {ph ph' : Phase κ ι} (h : Moves s t w ph ph')
    (hp : ∀ d cause, ph' ≠ .retiring d (.error cause)) (w' : Nat) (d : Claimed κ ι) (cause : StoreError)
    (hw : t.workers[w']? = some (.retiring d (.error cause))) :
    s.workers[w']? = some (.retiring d (.error cause)) := by
  rw [h.worker] at hw
  split at hw
  · cases hw; exact absurd rfl (hp d cause)
  · exact hw

omit [DecidableEq κ] in
theorem Moves.reporting {ph ph' : Phase κ ι} (h : Moves s t w ph ph') (hf : t.failure = s.failure)
    (hb : ∀ d cause, ph ≠ .ended d (.error cause)) (hp : ∀ d cause, ph' ≠ .retiring d (.error cause)) :
    Reporting s t (failedBy s w) := by
  have hnil : failedBy s w = [] := by
    unfold failedBy
    rw [h.before]
    split
    · rename_i heq
      cases heq
      exact absurd rfl (hb _ _)
    · rfl
  rw [hnil]
  exact .quiet hf (h.retiring hp)

theorem Works.reporting (h : Works s w t out) : Reporting s t (failedBy s w) := by
  cases h with
  | asked before | slept _ before => exact Moves.reporting (.stay before rfl) rfl (by simp) (by simp)
  | claimed entry buffer before => exact Moves.reporting ⟨before, rfl⟩ rfl (by simp) (by simp)
  | exited buffer before => exact Moves.reporting ⟨before, rfl⟩ rfl (by simp) (by simp)
  | lent drain c pool asks =>
    obtain ⟨before, _⟩ | ⟨before, _⟩ := asks
    · exact Moves.reporting ⟨before, rfl⟩ rfl (by simp) (by simp)
    · exact Moves.reporting ⟨before, rfl⟩ rfl (by simp) (by simp)
  | waits drain pool before => exact Moves.reporting ⟨before, rfl⟩ rfl (by simp) (by simp)
  | refused drain error pool asks =>
    obtain ⟨before, _⟩ | ⟨before, _⟩ := asks
    · exact Moves.reporting ⟨before, rfl⟩ rfl (by simp) (by simp)
    · exact Moves.reporting ⟨before, rfl⟩ rfl (by simp) (by simp)
  | begun drain c before => exact Moves.reporting ⟨before, rfl⟩ rfl (by simp) (by simp)
  | noted d outcome before =>
    cases outcome with
    | ok => exact Moves.reporting ⟨before, rfl⟩ rfl (by simp) (by simp)
    | error cause =>
      unfold failedBy
      rw [before]
      exact .failed w d cause ⟨before, rfl⟩ rfl
  | retired d outcome before => exact Moves.reporting ⟨before, rfl⟩ rfl (by simp) (by simp)

omit [DecidableEq κ] in
theorem reporting_none (failure : t.failure = s.failure) (workers : t.workers = s.workers) : Reporting s t [] :=
  .quiet failure (by rw [workers]; exact fun _ _ _ hw => hw)

omit [DecidableEq κ] in
theorem Looks.reporting {c : Call} (hc : s.call? id = some c) (h : Looks s id c t out) :
    Reporting s t (takenBy s t id out) := by
  unfold takenBy
  rw [State.phase?_of_call hc]
  have result : ∀ f : Option (Failure κ),
      ((surfaced f).map fun _ => Answer.done).map (fun _ => ()) = surfaced f := by
    intro f
    cases f <;> rfl
  cases h with
  | asleep woken blocked =>
    have hquiet : Reporting s (s.mapCall id fun c => { c with woken := false }) [] := reporting_none rfl rfl
    cases hp : c.phase with
    | closing target =>
      simp only [State.phase?_asleep hc, hp]
      exact hquiet
    | stalled | fence => exact hquiet
    | _ => rw [hp] at blocked; exact False.elim blocked
  | released receipt phase =>
    rw [phase]
    exact reporting_none rfl rfl
  | fenced receipt phase =>
    rw [phase]
    exact reporting_none rfl rfl
  | reported target phase =>
    rw [phase]
    simp only [List.filterMap_cons, Notice.result?, List.filterMap_nil, List.map_cons, List.map_nil, result]
    exact .taken id rfl rfl
  | flushed target phase =>
    simp only [phase, State.phase?_goOn (s := { s with failure := none }) hc]
    exact .taken id rfl rfl
  | shut flushed phase =>
    rw [phase]
    exact reporting_none rfl rfl
  | taken flushed phase =>
    rw [phase]
    exact reporting_none rfl rfl
  | joined flushed workers phase =>
    rw [phase]
    exact reporting_none rfl rfl
  | ended flushed phase =>
    rw [phase]
    cases flushed with
    | ok =>
      simp only [List.filterMap_cons, Notice.result?, List.filterMap_nil, List.map_cons, List.map_nil, closing,
        result]
      exact .taken id rfl rfl
    | error => exact reporting_none rfl rfl
  | lent conn pool phase =>
    rw [phase]
    exact reporting_none rfl rfl
  | refused error pool phase =>
    rw [phase]
    exact reporting_none rfl rfl

theorem step_reporting (h : step s e = some (t, out)) : Reporting s t (reported s e (t, out)) := by
  cases step_cases h with
  | made _ _ _ _ _ _ _ makes =>
    have hnone : reported s e (t, out) = [] ∧ t.failure = s.failure ∧ t.workers = s.workers := by
      cases makes with
      | refused e _ asks => cases e <;> first | exact ⟨rfl, rfl, rfl⟩ | cases asks
      | _ => exact ⟨rfl, rfl, rfl⟩
    rw [hnone.1]
    exact reporting_none hnone.2.1 hnone.2.2
  | work w _ _ works => exact works.reporting
  | finish w outcome drain c before => exact .quiet rfl (Moves.retiring ⟨before, rfl⟩ (by simp))
  | look id c _ _ call looks => exact looks.reporting call
  | _ => exact reporting_none rfl rfl

/-! ## The failures of a run -/

structure Failures (history : List (Report κ)) (out : List (Notice κ ι)) (s : State κ ι) : Prop where
  held : s.failure = (unreported history).head?
  taken : ∀ before id r after, history = before ++ .taken id r :: after →
    r = surfaced (unreported before).head?
  failed_iff : ∀ f, f ∈ failures history ↔ ∃ d cause, f = ⟨d.key, d.sequence, cause⟩ ∧
    (.drained d (.error cause) ∈ out ∨ ∃ w : Nat, s.workers[w]? = some (.retiring d (.error cause)))
  once : ((failures history).map (·.sequence)).Nodup

omit [DecidableEq κ] [Named κ] in
theorem mem_failures {f : Failure κ} : f ∈ failures history ↔ .failed f ∈ history := by
  unfold failures
  rw [List.mem_filterMap]
  constructor
  · intro ⟨r, hr, hf⟩
    cases r with
    | failed f' => cases hf; exact hr
    | taken => cases hf
  · exact fun h => ⟨_, h, rfl⟩

variable {later : List (Report κ)}

omit [DecidableEq κ] in
theorem Failures.step_held (h : Failures history out s) (hr : Reporting s t later) :
    t.failure = (unreported (history ++ later)).head? := by
  cases hr with
  | quiet failure => rw [List.append_nil, failure, h.held]
  | failed w d cause move failure =>
    rw [unreported_snoc, failure, h.held]
    unfold unreported1
    cases unreported history <;> rfl
  | taken id failure =>
    rw [unreported_snoc, failure]
    rfl

omit [DecidableEq κ] in
theorem Failures.step_taken (h : Failures history out s) (hr : Reporting s t later) :
    ∀ before id r after, history ++ later = before ++ .taken id r :: after →
      r = surfaced (unreported before).head? := by
  intro before id r after heq
  -- A take of the new history is the step's own one, or one that was there before.
  have cut : ∀ x, history ++ [x] = before ++ .taken id r :: after →
      x = .taken id r ∧ history = before ∨ ∃ after', history = before ++ .taken id r :: after' := by
    intro x heq
    rcases List.eq_nil_or_concat after with rfl | ⟨after', y, rfl⟩
    · obtain ⟨hh, hx⟩ := List.append_inj' heq rfl
      exact .inl ⟨List.head_eq_of_cons_eq hx, hh⟩
    · have heq' : history ++ [x] = (before ++ .taken id r :: after') ++ [y] := by simpa using heq
      exact .inr ⟨after', (List.append_inj' heq' rfl).1⟩
  cases hr with
  | quiet => exact h.taken before id r after (by simpa using heq)
  | failed =>
    obtain ⟨hx, _⟩ | ⟨after', hh⟩ := cut _ heq
    · cases hx
    · exact h.taken before id r after' hh
  | taken =>
    obtain ⟨hx, hh⟩ | ⟨after', hh⟩ := cut _ heq
    · cases hx
      rw [h.held, hh]
    · exact h.taken before id r after' hh

omit [Named κ] in
theorem Turn.retiring {a? : Option (Acceptance κ ι)} {d : Claimed κ ι} {r : Outcome} (h : Turn s t o a?)
    (hw : s.workers[w]? = some (.retiring d r)) :
    .drained d r ∈ o ∨ t.workers[w]? = some (.retiring d r) := by
  have other : ∀ {w' ph ph'}, Moves s t w' ph ph' → ph ≠ .retiring d r →
      t.workers[w]? = some (.retiring d r) := by
    intro w' ph ph' move hne
    rw [move.worker]
    split
    · rename_i heq
      subst heq
      rw [move.before] at hw
      exact absurd (Option.some.inj hw) hne
    · exact hw
  cases h with
  | rest _ workers => exact .inr (workers ▸ hw)
  | accept _ _ _ _ workers => exact .inr (workers ▸ hw)
  | retire w' entry outcome move =>
    by_cases heq : w' = w
    · subst heq
      rw [move.before] at hw
      cases hw
      exact .inl (List.mem_singleton_self _)
    · rw [move.worker, if_neg heq]
      exact .inr hw
  | approach w' ph ph' entry move before =>
    refine .inr (other move ?_)
    rintro rfl
    cases before
  | refuse w' ph entry move before =>
    refine .inr (other move ?_)
    rintro rfl
    cases before
  | claim _ _ _ move => exact .inr (other move (by simp))
  | exit _ move => exact .inr (other move (by simp))
  | invoke _ _ _ move => exact .inr (other move (by simp))
  | finish _ _ _ _ move => exact .inr (other move (by simp))
  | note _ _ _ move => exact .inr (other move (by simp))

omit [DecidableEq κ] in
theorem Reporting.failures (hr : Reporting s t later) {f : Failure κ} (hf : f ∈ failures later) :
    ∃ w d cause, f = ⟨d.key, d.sequence, cause⟩ ∧
      Moves s t w (.ended d (.error cause)) (.retiring d (.error cause)) := by
  cases hr with
  | quiet => cases hf
  | failed w d cause move =>
    rw [mem_failures, List.mem_singleton] at hf
    cases hf
    exact ⟨w, d, cause, rfl, move⟩
  | taken => simp [mem_failures] at hf

theorem Failures.step_failed_iff {a? : Option (Acceptance κ ι)} (h : Failures history out s)
    (hr : Reporting s t later) (turn : Turn s t o a?) (f : Failure κ) :
    f ∈ failures (history ++ later) ↔ ∃ d cause, f = ⟨d.key, d.sequence, cause⟩ ∧
      (.drained d (.error cause) ∈ out ++ o ∨
        ∃ w : Nat, t.workers[w]? = some (.retiring d (.error cause))) := by
  rw [failures_append, List.mem_append]
  constructor
  · rintro (hf | hf)
    · obtain ⟨d, cause, rfl, hd | ⟨w, hw⟩⟩ := (h.failed_iff f).mp hf
      · exact ⟨d, cause, rfl, .inl (List.mem_append_left _ hd)⟩
      · rcases turn.retiring hw with hd | hw
        · exact ⟨d, cause, rfl, .inl (List.mem_append_right _ hd)⟩
        · exact ⟨d, cause, rfl, .inr ⟨w, hw⟩⟩
    · obtain ⟨w, d, cause, rfl, move⟩ := hr.failures hf
      exact ⟨d, cause, rfl, .inr ⟨w, by rw [move.worker, if_pos rfl]⟩⟩
  · rintro ⟨d, cause, rfl, hd | ⟨w, hw⟩⟩
    · refine .inl ((h.failed_iff _).mpr ⟨d, cause, rfl, ?_⟩)
      rcases List.mem_append.mp hd with hd | hd
      · exact .inl hd
      · obtain ⟨_, _, _, w, move⟩ := turn.drained hd
        exact .inr ⟨w, move.before⟩
    · cases hr with
      | quiet _ retiring => exact .inl ((h.failed_iff _).mpr ⟨d, cause, rfl, .inr ⟨w, retiring w d cause hw⟩⟩)
      | failed w' d' cause' move =>
        rw [move.worker] at hw
        split at hw
        · cases hw
          exact .inr (mem_failures.mpr (List.mem_singleton_self _))
        · exact .inl ((h.failed_iff _).mpr ⟨d, cause, rfl, .inr ⟨w, hw⟩⟩)
      | taken _ _ workers =>
        exact .inl ((h.failed_iff _).mpr ⟨d, cause, rfl, .inr ⟨w, workers ▸ hw⟩⟩)

theorem Failures.step_once {refused : Outcome → Prop} (h : Failures history out s) (hs : Tended s)
    (ha : Attempts accepted refused out s) (hr : Reporting s t later) :
    ((failures (history ++ later)).map (·.sequence)).Nodup := by
  rw [failures_append, List.map_append]
  cases hr with
  | quiet => simpa [failures] using h.once
  | taken => simpa [failures, Report.failed?, List.filterMap_cons] using h.once
  | failed w d cause move =>
    have hd : s.draining w = some d := move.draining_self
    refine List.nodup_append.mpr ⟨h.once, by simp [failures, Report.failed?], ?_⟩
    intro q hq q' hq' heq
    have hq' : q' = d.sequence := by simpa [failures, Report.failed?] using hq'
    obtain ⟨f, hf, rfl⟩ := List.mem_map.mp hq
    obtain ⟨d', cause', rfl, hd' | ⟨w', hw'⟩⟩ := (h.failed_iff f).mp hf
    · refine ha.gone d' _ hd' ?_
      rw [show d'.sequence = d.sequence from heq.trans hq']
      exact hs.valid.flight_mem (hs.flight_of hd)
    · have hd' : s.draining w' = some d' := by unfold State.draining; rw [hw']; rfl
      have hseq : d'.sequence = d.sequence := heq.trans hq'
      have hk := hs.valid.flight_inj _ _ _ (hs.flight_of hd') (hseq ▸ hs.flight_of hd)
      have := hs.apart hd' hd hk
      subst this
      rw [move.before] at hw'
      cases hw'

variable {config : QueueConfig} {connections : List Connection} {events : List (Event κ ι)}

theorem Begins.failures (h : Begins config connections s) (hr : run s events = some (t, out)) :
    Failures (reports s events) out t := by
  refine run_induction (P := fun events out t => Failures (reports s events) out t) ?_ ?_ hr
  · obtain ⟨pool, _, _, rfl⟩ := h.eq
    constructor
    case failed_iff =>
      intro f
      simp [reports, observe, WriteBehind.Queue.failures, List.getElem?_replicate]
    all_goals simp [reports, observe, unreported, WriteBehind.Queue.failures]
  · intro events o t e u o' hr hp he
    have ht := h.tended.run hr
    have hreport := step_reporting he
    rw [show reports s (events ++ [e]) = _ from observe_snoc hr he]
    exact ⟨hp.step_held hreport, hp.step_taken hreport,
      hp.step_failed_iff hreport (step_turn ht.balanced he), hp.step_once ht (h.attempts hr) hreport⟩

end WriteBehind.Queue
