import Mathlib.Data.Finset.Card
import Mathlib.Data.Fintype.Card
import WriteBehind.Proofs.Queue.Producers
import WriteBehind.Proofs.Queue.Totals

/-!
# How deep a queue gets

A producer inserts first and is held back afterwards, so the depth can pass the high watermark, but each
step beyond it is paid for by a producer that is held back. None of them goes on before the depth is down
at the low watermark.
-/

namespace WriteBehind.Queue

variable {κ ι : Type} [DecidableEq κ] {s₀ s t : State κ ι} {out : List (Notice κ ι)}
  {events later : List (Event κ ι)} {e : Event κ ι} {id : Nat} {a? : Option (Acceptance κ ι)}
  {marks : Watermarks}

/-! ## Producers that are held back -/

omit [DecidableEq κ] in
def State.held (s : State κ ι) : Finset Nat := ((s.calls.filter (·.phase.isStalled)).map (·.id)).toFinset

omit [DecidableEq κ] in
theorem State.Distinct.mem_held (hd : s.Distinct) :
    id ∈ s.held ↔ ∃ receipt fenced, s.phase? id = some (.stalled receipt fenced) := by
  unfold State.held
  simp only [List.mem_toFinset, List.mem_map, List.mem_filter, CallPhase.isStalled_iff]
  constructor
  · intro ⟨c, ⟨hc, receipt, fenced, hp⟩, hid⟩
    subst hid
    exact ⟨receipt, fenced, (State.phase?_of_call (hd.call?_of_mem hc)).trans (congrArg some hp)⟩
  · intro ⟨receipt, fenced, hp⟩
    obtain ⟨c, hc, hphase⟩ := Option.map_eq_some_iff.mp hp
    exact ⟨c, ⟨List.mem_of_find?_eq_some hc, receipt, fenced, hphase⟩, State.call?_id hc⟩

/-! ## Steps -/

theorem State.accept_depth (s : State κ ι) (key : κ) (item : ι) :
    (s.accept key item).2.depth = s.depth + if s.buffer.isPending key then 0 else 1 :=
  s.buffer.insert_depth key item

theorem Makes.depth (h : Makes s id e t out a?) : t.depth ≤ max s.depth s.watermarks.high ∨
    (∃ key item fenced, e = .enqueue id key item fenced) ∧ t.depth ≤ s.depth + 1 ∧
      (s.stalling = true → ∃ receipt fenced, t.phase? id = some (.stalled receipt fenced)) := by
  cases h with
  | tried key item _ room =>
    left
    have hdepth := s.accept_depth key item
    by_cases hp : s.buffer.isPending key = true
    · rw [if_pos hp] at hdepth
      omega
    · have hover : s.watermarks.isOver s.depth = false := by
        by_contra hover
        exact hp (room (by simpa using hover))
      have := Watermarks.lt_high hover
      rw [if_neg hp] at hdepth
      omega
  | written key item _ under =>
    have hdepth := s.accept_depth key item
    have hle : (s.accept key item).2.depth ≤ s.depth + 1 := by
      split at hdepth <;> omega
    by_cases hs : s.stalling = true
    · left
      have := Watermarks.lt_high (under hs)
      omega
    · exact .inr ⟨⟨key, item, false, rfl⟩, hle, fun h => absurd h hs⟩
  | fenced key item _ under =>
    have hdepth : ((s.accept key item).2.barrier id).1.depth = _ := s.accept_depth key item
    have hle : ((s.accept key item).2.barrier id).1.depth ≤ s.depth + 1 := by
      split at hdepth <;> omega
    by_cases hs : s.stalling = true
    · left
      have := Watermarks.lt_high (under hs)
      omega
    · exact .inr ⟨⟨key, item, true, rfl⟩, hle, fun h => absurd h hs⟩
  | stalled key item fenced =>
    have hdepth := s.accept_depth key item
    have hle : (s.accept key item).2.depth ≤ s.depth + 1 := by
      split at hdepth <;> omega
    exact .inr ⟨⟨key, item, fenced, rfl⟩, hle, fun _ => ⟨_, fenced, State.phase?_wait_self _ id _⟩⟩
  | _ => exact .inl (le_max_left _ _)

structure Steady (marks : Watermarks) (s : State κ ι) : Prop where
  stalling : s.stalling = true
  watermarks : s.watermarks = marks
  opened : s.closed = false

instance (marks : Watermarks) : DecidablePred (Steady marks : State κ ι → Prop) := fun s =>
  decidable_of_iff (s.stalling = true ∧ s.watermarks = marks ∧ s.closed = false)
    ⟨fun ⟨hs, hw, hc⟩ => ⟨hs, hw, hc⟩, fun h => ⟨h.stalling, h.watermarks, h.opened⟩⟩

variable [Named κ]

/-- What a step does to the depth. Above the high watermark it grows only through an enqueue call, and
while stalling is on that call is held back. -/
theorem step_depth (hb : s.pool.Balanced) (h : step s e = some (t, out)) :
    t.depth ≤ max s.depth s.watermarks.high ∨
      ∃ id, (∃ key item fenced, e = .enqueue id key item fenced) ∧ s.call? id = none ∧ t.depth ≤ s.depth + 1 ∧
        (s.stalling = true → ∃ receipt fenced, t.phase? id = some (.stalled receipt fenced)) := by
  have hturn := step_turn hb h
  cases step_cases h with
  | made id _ _ _ _ a? free makes =>
    rcases makes.depth with hle | ⟨he, hle, hstalls⟩
    · exact .inl hle
    · exact .inr ⟨id, he, free, hle, hstalls⟩
  | _ => exact .inl (hturn.depth_le.trans (le_max_left _ _))

theorem Steady.step (hs : Steady marks s) (hm : marks.Valid) (hb : s.pool.Balanced) (hd : s.Distinct)
    (h : step s e = some (t, out)) (hle : s.depth ≤ marks.high + s.held.card) :
    t.depth ≤ marks.high + t.held.card := by
  have ht := hd.step h
  obtain ⟨stalling, rfl, opened⟩ := hs
  by_cases hreleased : s.isReleased = true
  · -- Producers may go on now, but then the depth is down at the low watermark.
    have hlow : s.depth ≤ s.watermarks.high := by
      simp only [State.isReleased, stalling, opened, Watermarks.isReleased, Bool.not_true, Bool.false_or,
        decide_eq_true_eq] at hreleased
      exact hreleased.trans hm.2
    rcases step_depth hb h with hmax | ⟨id, _, _, hnext, hstalls⟩
    · rw [max_eq_right hlow] at hmax
      omega
    · have hmem := ht.mem_held.mpr (hstalls stalling)
      have := Finset.card_pos.mpr ⟨id, hmem⟩
      omega
  · -- Nobody goes on.
    have hkeeps : s.held ⊆ t.held := by
      intro id hid
      obtain ⟨receipt, fenced, hp⟩ := hd.mem_held.mp hid
      obtain ⟨hp', _⟩ | ⟨_, hr, _⟩ := producer_step hb h hp
      · exact ht.mem_held.mpr ⟨receipt, fenced, hp'⟩
      · exact absurd hr hreleased
    have hcard := Finset.card_le_card hkeeps
    rcases step_depth hb h with hmax | ⟨id, _, free, hnext, hstalls⟩
    · omega
    · have hnot : id ∉ s.held := by
        intro hid
        obtain ⟨_, _, hp⟩ := hd.mem_held.mp hid
        simp [State.phase?, free] at hp
      have hinsert : insert id s.held ⊆ t.held :=
        Finset.insert_subset (ht.mem_held.mpr (hstalls stalling)) hkeeps
      have := Finset.card_le_card hinsert
      rw [Finset.card_insert_of_notMem hnot] at this
      omega

/-! ## Runs -/

/-- What holds in every state that a run passes, its first and its last included. -/
def Throughout (P : State κ ι → Prop) (s₀ : State κ ι) (events : List (Event κ ι)) : Prop :=
  ∀ before after s out, events = before ++ after → run s₀ before = some (s, out) → P s

variable {P : State κ ι → Prop}

theorem Throughout.take (h : Throughout P s₀ (events ++ later)) : Throughout P s₀ events := by
  intro before after s out heq hr
  exact h before (after ++ later) s out (by rw [heq, List.append_assoc]) hr

theorem Throughout.last (h : Throughout P s₀ events) (hr : run s₀ events = some (t, out)) : P t :=
  h events [] t out (List.append_nil _).symm hr

theorem throughout_nil : Throughout P s₀ ([] : List (Event κ ι)) ↔ P s₀ := by
  constructor
  · exact fun h => h.last (run_nil.mpr ⟨rfl, rfl⟩)
  · intro h before after s out heq hr
    obtain ⟨rfl, _⟩ := List.append_eq_nil_iff.mp heq.symm
    obtain ⟨rfl, _⟩ := run_nil.mp hr
    exact h

theorem throughout_cons : Throughout P s₀ (e :: later) ↔
    P s₀ ∧ ∀ effect ∈ step s₀ e, Throughout P effect.1 later := by
  constructor
  · intro h
    refine ⟨h [] (e :: later) s₀ [] rfl (run_nil.mpr ⟨rfl, rfl⟩), ?_⟩
    intro (t, o) he before after s out heq hr
    exact h (e :: before) after s _ (by rw [heq, List.cons_append]) (run_cons.mpr ⟨t, o, out, he, hr, rfl⟩)
  · intro ⟨hs, hlater⟩ before after s out heq hr
    cases before with
    | nil =>
      obtain ⟨rfl, _⟩ := run_nil.mp hr
      exact hs
    | cons e' before =>
      obtain ⟨rfl, rfl⟩ := List.cons.inj heq
      obtain ⟨t, o, o', he, hr', _⟩ := run_cons.mp hr
      exact hlater (t, o) he before after s o' rfl hr'

def Throughout.decidable [DecidablePred P] : (s : State κ ι) → (events : List (Event κ ι)) →
    Decidable (Throughout P s events)
  | _, [] => decidable_of_iff' _ throughout_nil
  | s, e :: later =>
    match he : step s e with
    | none => decidable_of_iff' (P s) (by simp [throughout_cons, he])
    | some effect =>
      have := Throughout.decidable effect.1 later
      decidable_of_iff' (P s ∧ Throughout P effect.1 later) (by simp [throughout_cons, he])

instance [DecidablePred P] (s : State κ ι) (events : List (Event κ ι)) : Decidable (Throughout P s events) :=
  Throughout.decidable s events

variable {config : QueueConfig} {connections : List Connection}

omit [DecidableEq κ] [Named κ] in
theorem Begins.watermarks_eq (h : Begins config connections s) : s.watermarks = config.watermarks := by
  obtain ⟨_, _, _, rfl⟩ := h.eq
  rfl

omit [DecidableEq κ] [Named κ] in
theorem Begins.depth (h : Begins config connections s) : s.depth = 0 := by
  unfold State.depth
  rw [h.buffer]
  rfl

theorem Begins.depth_le_held (h : Begins config connections s₀) (hr : run s₀ events = some (t, out))
    (hs : Throughout (Steady config.watermarks) s₀ events) :
    t.depth ≤ config.watermarks.high + t.held.card := by
  have hm : config.watermarks.Valid := h.watermarks_eq ▸ h.watermarks_valid (run_nil.mpr ⟨rfl, rfl⟩)
  refine run_induction (P := fun events _ t => Throughout (Steady config.watermarks) s₀ events →
    t.depth ≤ config.watermarks.high + t.held.card) (fun _ => ?_) ?_ hr hs
  · rw [h.depth]
    exact Nat.zero_le _
  · intro events o t e u o' hr ih he hs
    exact (hs.take.last hr).step hm (h.tended.run hr).balanced (h.distinct hr) he (ih hs.take)

theorem Begins.depth_le_high (h : Begins config connections s₀) (hr : run s₀ events = some (t, out))
    (hn : ∀ id key item fenced, Event.enqueue id key item fenced ∉ events)
    (hs : Throughout (fun s => s.watermarks = config.watermarks) s₀ events) :
    t.depth ≤ config.watermarks.high := by
  refine run_induction (P := fun events _ t => (∀ id key item fenced,
      Event.enqueue id key item fenced ∉ events) →
    Throughout (fun s => s.watermarks = config.watermarks) s₀ events → t.depth ≤ config.watermarks.high)
    (fun _ _ => ?_) ?_ hr hn hs
  · rw [h.depth]
    exact Nat.zero_le _
  · intro events o t e u o' hr ih he hn hs
    have hle := ih (fun id key item fenced hm => hn id key item fenced (List.mem_append_left _ hm)) hs.take
    rcases step_depth (h.tended.run hr).balanced he with hmax | ⟨id, ⟨key, item, fenced, rfl⟩, _⟩
    · rwa [hs.take.last hr, max_eq_right hle] at hmax
    · exact absurd (List.mem_append_right _ (List.mem_singleton_self _)) (hn id key item fenced)

/-- Backpressure bounds the depth. While stalling stays on, the watermarks stay as they are and the queue
is open, the depth exceeds the high watermark by no more than the enqueue calls in progress that found it
there, and so by no more than the producers, if each of them makes one call at a time. Without enqueue
calls it does not exceed it at all. The watermarks in force are always valid. -/
theorem depth_bounded (h : Begins config connections s₀) (hr : run s₀ events = some (t, out)) :
    (Throughout (Steady config.watermarks) s₀ events →
      (∃ held : Finset Nat, (∀ id, id ∈ held ↔
          ∃ s, Unanswered s₀ events id s ∧ config.watermarks.high ≤ s.depth) ∧
        t.depth ≤ config.watermarks.high + held.card) ∧
      ∀ producers (producer : Nat → Fin producers), (∀ id id' s s', Unanswered s₀ events id s →
          Unanswered s₀ events id' s' → producer id = producer id' → id = id') →
        t.depth ≤ config.watermarks.high + producers) ∧
    ((∀ id key item fenced, Event.enqueue id key item fenced ∉ events) →
      Throughout (fun s => s.watermarks = config.watermarks) s₀ events →
        t.depth ≤ config.watermarks.high) ∧
    1 ≤ t.watermarks.high ∧ t.watermarks.low ≤ t.watermarks.high := by
  refine ⟨fun hs => ?_, h.depth_le_high hr, h.watermarks_valid hr⟩
  have hmem : ∀ id, id ∈ t.held ↔ ∃ s, Unanswered s₀ events id s ∧ config.watermarks.high ≤ s.depth := by
    intro id
    rw [(h.distinct hr).mem_held, stalled_iff h hr]
    refine exists_congr fun s => and_congr_right fun hu => ?_
    obtain ⟨before, _, _, _, _, _, _, _, _, _, heq, hbefore, _⟩ := hu
    rw [(hs before _ s _ heq hbefore).watermarks]
  have hle := h.depth_le_held hr hs
  refine ⟨⟨t.held, hmem, hle⟩, fun producers producer apart => ?_⟩
  have hinj : Set.InjOn producer t.held := by
    intro id hid id' hid' heq
    obtain ⟨s, hu, _⟩ := (hmem id).mp hid
    obtain ⟨s', hu', _⟩ := (hmem id').mp hid'
    exact apart id id' s s' hu hu' heq
  have hcard : t.held.card ≤ producers := by
    have := Finset.card_le_univ (t.held.image producer)
    rwa [Finset.card_image_of_injOn hinj, Fintype.card_fin] at this
  omega

def narrow : QueueConfig := { workers := 1, watermarks := ⟨2, 1⟩ }

def pressed : List (Event String Nat) :=
  [.enqueue 1 "a" 1 false, .enqueue 2 "b" 2 false, .enqueue 3 "c" 3 false, .work 0, .work 0,
    .enqueue 4 "a" 4 true]

theorem depth_bounded_pressed : ∃ s t out, Begins narrow [⟨0, 0⟩] s ∧ run s pressed = some (t, out) ∧
    Throughout (Steady ⟨2, 1⟩) s pressed ∧ t.depth = 4 ∧ t.depth ≤ 2 + 2 := by
  obtain ⟨s, t, out, h, hr, hs, hd, hheld⟩ : ∃ (s t : State String Nat) (out : _), Begins narrow [⟨0, 0⟩] s ∧
      run s pressed = some (t, out) ∧ Throughout (Steady ⟨2, 1⟩) s pressed ∧ t.depth = 4 ∧
        t.held = {3, 4} := ⟨_, _, _, ⟨_, rfl, rfl⟩, rfl, by decide +kernel, rfl, rfl⟩
  have hmem : ∀ {id u}, Unanswered s pressed id u → id = 3 ∨ id = 4 := by
    intro id u hu
    have := (h.distinct hr).mem_held.mpr (hu.stalled h hr).2.2
    simpa [hheld] using this
  let producer (id : Nat) : Fin 2 := if id = 3 then 0 else 1
  have apart : ∀ id id' u u', Unanswered s pressed id u → Unanswered s pressed id' u' →
      producer id = producer id' → id = id' := by
    intro id id' u u' hu hu' heq
    rcases hmem hu with rfl | rfl <;> rcases hmem hu' with rfl | rfl <;> simp [producer] at heq ⊢
  exact ⟨s, t, out, h, hr, hs, hd, ((depth_bounded h hr).1 hs).2 2 producer apart⟩

end WriteBehind.Queue
