import WriteBehind.Proofs.Queue.Shadows
import WriteBehind.Queue.Recorder

/-!
# Scripts

A queue on its schedule is driven by a script: steps from outside, and cues to let everything move. Two
scripts that differ only in what they do to backpressure come to the same.
-/

namespace WriteBehind.Queue

variable {σ κ ι α : Type} {s₀ s t : State κ ι} {out o : List (Notice κ ι)} {e : Event κ ι} {id w n m : Nat}
  {hidden later : List Nat} {config : QueueConfig} {connections : List Connection}

inductive Cue (κ ι : Type) where
  /-- A step from outside. A call that is made looks at once. -/
  | step (event : Event κ ι)
  | settle

namespace Cue

def steers : Cue κ ι → Bool
  | .step e => e.steers
  | .settle => false

def made? : Cue κ ι → Option Nat
  | .step e => e.made?
  | .settle => none

/-- The owner keeps the queue, and what is done does not depend on how full it is. -/
def plain : Cue κ ι → Bool
  | .step .abandon => false
  | .step e => e.plain
  | .settle => true

def controls (cues : List (Cue κ ι)) : List Nat := (cues.filter steers).filterMap made?

/-- A script without what it does to backpressure. A queue that has come to rest is not stirred by that,
so that it need not settle again. -/
def unsteered (rested : Bool) : List (Cue κ ι) → List (Cue κ ι)
  | [] => []
  | .settle :: cues => if rested then unsteered true cues else .settle :: unsteered true cues
  | .step e :: cues => if e.steers then unsteered rested cues else .step e :: unsteered false cues

structure Proper (cues : List (Cue κ ι)) : Prop where
  plain : ∀ c ∈ cues, c.plain = true
  numbered : (cues.filterMap made?).Nodup

end Cue

variable [DecidableEq κ] [Named κ]

namespace Scene

def cue (backend : Stores σ κ ι) (r : Scene σ κ ι) : Cue κ ι → Scene σ κ ι
  | .step e =>
    match e.made? with
    | some id => (lookAt id (r.apply e)).2
    | none => r.apply e
  | .settle => r.settle backend lookAt

def play (backend : Stores σ κ ι) (r : Scene σ κ ι) (cues : List (Cue κ ι)) : Scene σ κ ι :=
  cues.foldl (cue backend) r

end Scene

theorem cue_quiet {r : Scene σ κ ι} {backend : Stores σ κ ι} (h : e.made? = none) :
    r.cue backend (.step e) = r.apply e := by
  simp only [Scene.cue, h]

theorem cue_call {r : Scene σ κ ι} {backend : Stores σ κ ι} (h : e.made? = some id) :
    r.cue backend (.step e) = ((r.apply e).lookTimes id 5).2 := by
  simp only [Scene.cue, h]
  rfl

omit [DecidableEq κ] [Named κ] in
theorem Rehearsal.scripted (r : Rehearsal α) (gated : Bool) :
    (∀ id e, e.made? = some id → r.issue id e = r.cue (recorder gated) (.step e)) ∧
    (∀ key outcome r', r.finish? key outcome = some r' →
      ∃ w, r' = r.cue (recorder gated) (.step (.finish w outcome))) ∧
    r.settle gated = r.cue (recorder gated) .settle := by
  refine ⟨fun id e h => (cue_call h).symm, fun key outcome r' h => ?_, rfl⟩
  obtain ⟨w, _, hr⟩ := Option.bind_eq_some_iff.mp h
  cases hr
  exact ⟨w, (cue_quiet rfl).symm⟩

/-! ## The start -/

omit [DecidableEq κ] [Named κ] in
theorem Begins.bare (h : Begins config connections s₀) :
    Begins { config with watermarks := {}, stall := false } connections s₀.bare := by
  obtain ⟨hpos, hmax, _⟩ := h.valid
  obtain ⟨pool, hp, _, rfl⟩ := h.eq
  have hvalid : QueueConfig.validate { config with watermarks := {}, stall := false } = .ok () := by
    unfold QueueConfig.validate
    rw [if_neg (Nat.ne_of_gt hpos), if_neg (Nat.not_lt.mpr hmax)]
    rfl
  refine ⟨pool, hp, ?_⟩
  unfold State.start
  rw [hvalid]
  rfl

/-- What two scenes have in common that differ in backpressure only, but for what the hidden calls are
told. -/
structure Agree (hidden : List Nat) (r r' : Scene σ κ ι) : Prop where
  queue : r'.queue.bare = r.queue.bare
  shared : r'.shared = r.shared
  notices : besides hidden r'.notices = besides hidden r.notices
  stored : stores r'.notices = stores r.notices
  receipts : ∀ id, heard id r'.notices ++ unheard id r'.queue = heard id r.notices ++ unheard id r.queue

section
variable {r b r' : Scene σ κ ι} {backend : Stores σ κ ι} {cues : List (Cue κ ι)} {rested : Bool}

theorem Begins.shadows (h : Begins config connections s₀) (hidden later : List Nat) (shared : σ) :
    Shadows hidden later { queue := s₀, shared } { queue := s₀.bare, shared } where
  fit := h.fit
  coherent := h.coherent
  coherent_bare := h.bare.coherent
  owned := h.owned
  queue := rfl
  shared := rfl
  notices := rfl
  receipts id := by simp [unheard, h.phase?, h.bare.phase?]
  unmade id _ := h.call? id

/-! ## Scripts and their shadows -/

omit [Named κ] in
theorem Shadows.mono {fewer : List Nat} (h : Shadows hidden later r b) (hsub : ∀ id ∈ fewer, id ∈ later) :
    Shadows hidden fewer r b :=
  { h with unmade := fun id hid => h.unmade id (hsub id hid) }

theorem steers_calls (h : e.steers = true) : (r.apply e).queue.calls = r.queue.calls := by
  unfold Scene.apply
  cases hs : step r.queue e with
  | none => rfl
  | some effect =>
    obtain ⟨t, out⟩ := effect
    show t.calls = _
    cases step_cases hs with
    | made _ _ _ _ _ _ _ makes => cases makes <;> first | rfl | cases h
    | stall => rfl
    | _ => cases h

variable (backend) in
theorem Shadows.control (h : Shadows hidden later r b) (hsteers : e.steers = true)
    (hhidden : ∀ id, e.made? = some id → id ∈ hidden) (hl : ∀ id ∈ later, e.made? ≠ some id)
    (hfresh : ∀ id, e.made? = some id → r.queue.call? id = none) :
    Shadows hidden later (r.cue backend (.step e)) b := by
  have hplain : e.plain = true := by cases e <;> first | rfl | cases hsteers
  have hthrottles : throttles r.queue e = true := by simp [throttles, hsteers]
  have happly : Shadows hidden later (r.apply e) b := by
    cases hs : step r.queue e with
    | none => rwa [Scene.apply_of_none hs]
    | some effect =>
      obtain ⟨t, out⟩ := effect
      rw [Scene.apply_eq hs]
      exact h.unmatched hs hplain hthrottles hhidden hl fun he => by subst he; cases hsteers
  cases hid : e.made? with
  | none => rwa [cue_quiet hid]
  | some id =>
    have hnone : (r.apply e).queue.call? id = none := by
      have hcall := hfresh id hid
      unfold State.call? at hcall ⊢
      rwa [steers_calls hsteers]
    rwa [cue_call hid, lookTimes_absent hnone]

variable (backend) in
theorem Shadows.cue (h : Shadows hidden later r b) (plain : (Cue.step e).plain = true)
    (unsteered : e.steers = false) (hl : ∀ id ∈ later, e.made? ≠ some id)
    (hfresh : ∀ id, e.made? = some id → r.queue.call? id = none) :
    Shadows hidden later (r.cue backend (.step e)) (b.cue backend (.step e)) := by
  have held : e ≠ .abandon := by
    intro he
    subst he
    cases plain
  have hplain : e.plain = true := by cases e <;> first | rfl | exact plain
  have happly := h.apply hplain unsteered hfresh hl held
  cases hid : e.made? with
  | none => rwa [cue_quiet hid, cue_quiet hid]
  | some id =>
    rw [cue_call hid, cue_call hid]
    exact (happly.lookTimes id 5).1

omit [DecidableEq κ] [Named κ] in
theorem Cue.Proper.tail {c : Cue κ ι} (h : Cue.Proper (c :: cues)) : Cue.Proper cues := by
  refine ⟨fun c hc => h.plain c (List.mem_cons_of_mem _ hc), h.numbered.sublist ?_⟩
  exact (List.sublist_cons_self c cues).filterMap _

omit [DecidableEq κ] [Named κ] in
theorem Cue.Proper.fresh {c : Cue κ ι} (h : Cue.Proper (c :: cues)) (hid : id ∈ cues.filterMap Cue.made?) :
    c.made? ≠ some id := by
  intro hc
  have hnum := h.numbered
  rw [List.filterMap_cons_some hc] at hnum
  exact (List.nodup_cons.mp hnum).1 hid

variable (backend) (rested) in
theorem Shadows.play (h : Shadows hidden (cues.filterMap Cue.made?) r b) (proper : Cue.Proper cues)
    (hhidden : ∀ id ∈ Cue.controls cues, id ∈ hidden) (hrest : rested = true → Settled b.queue) :
    Shadows hidden [] (r.play backend cues) (b.play backend (Cue.unsteered rested cues)) := by
  induction cues generalizing r b rested with
  | nil => exact h
  | cons c cues ih =>
    have hlater : ∀ id ∈ cues.filterMap Cue.made?, id ∈ (c :: cues).filterMap Cue.made? := fun id hid =>
      ((List.sublist_cons_self c cues).filterMap _).subset hid
    have hhidden' : ∀ id ∈ Cue.controls cues, id ∈ hidden := fun id hid =>
      hhidden id ((((List.sublist_cons_self c cues).filter _).filterMap _).subset hid)
    have hfresh : ∀ id, c.made? = some id → r.queue.call? id = none := fun id hid =>
      h.unmade id (by simp [List.filterMap_cons_some hid])
    have hmono := h.mono hlater
    cases c with
    | settle =>
      cases rested with
      | true => exact ih true (hmono.rounds_alone backend (hrest rfl) _) proper.tail hhidden' hrest
      | false =>
        have hsettled := (settle_settled backend h.coherent_bare).2
        exact ih true (hmono.settle backend) proper.tail hhidden' fun _ => hsettled
    | step e =>
      have hl : ∀ id ∈ cues.filterMap Cue.made?, e.made? ≠ some id := fun id hid => proper.fresh hid
      unfold Cue.unsteered
      by_cases hsteers : e.steers = true
      · have hcontrols : ∀ id, e.made? = some id → id ∈ hidden := fun id hid =>
          hhidden id (by simp [Cue.controls, Cue.steers, Cue.made?, hsteers, hid])
        rw [if_pos hsteers]
        exact ih rested (hmono.control backend hsteers hcontrols hl hfresh) proper.tail hhidden' hrest
      · rw [if_neg hsteers]
        have hcue := hmono.cue backend (proper.plain _ List.mem_cons_self) (by simpa using hsteers) hl hfresh
        exact ih false hcue proper.tail hhidden' (by simp)

/-! ## Two scripts -/

omit [DecidableEq κ] [Named κ] in
theorem stores_besides (hidden : List Nat) (out : List (Notice κ ι)) :
    stores (besides hidden out) = stores out := by
  rw [← stores_withoutReceipts out]
  unfold stores besides
  rw [List.filterMap_filter]
  refine List.filterMap_congr fun n _ => ?_
  cases n with
  | accepted | lent | returned => simp [Notice.store?]
  | _ => rfl

omit [Named κ] in
theorem Shadows.agree (h : Shadows hidden later r b) (h' : Shadows hidden later r' b) : Agree hidden r r' where
  queue := h'.queue.symm.trans h.queue
  shared := h'.shared.symm.trans h.shared
  notices := h'.notices.symm.trans h.notices
  stored := by rw [← stores_besides hidden, ← h'.notices, h.notices, stores_besides]
  receipts id := (h'.receipts id).symm.trans (h.receipts id)

theorem Begins.agree {config' : QueueConfig} {s₀' : State κ ι} {cues' : List (Cue κ ι)}
    (h : Begins config connections s₀) (h' : Begins config' connections s₀')
    (hw : config.workers = config'.workers) (proper : Cue.Proper cues) (proper' : Cue.Proper cues')
    (hsame : Cue.unsteered false cues' = Cue.unsteered false cues) (shared : σ) :
    Agree (Cue.controls cues ++ Cue.controls cues')
      (Scene.play backend { queue := s₀, shared } cues)
      (Scene.play backend { queue := s₀', shared } cues') := by
  have hstart := h.shadows (Cue.controls cues ++ Cue.controls cues') (cues.filterMap Cue.made?) shared
  have hstart' := h'.shadows (Cue.controls cues ++ Cue.controls cues') (cues'.filterMap Cue.made?) shared
  have hplay := hstart.play backend false proper (fun id hid => List.mem_append_left _ hid) nofun
  have hplay' := hstart'.play backend false proper' (fun id hid => List.mem_append_right _ hid) nofun
  rw [hsame, ← h.bare_eq h' hw] at hplay'
  exact hplay.agree hplay'

end

/-- Backpressure does not change what is stored. Let two queues start with as many workers over the same
connections. If two scripts differ only in what they do to backpressure, the queues come to the same on
their schedules: the same entries are handed over on the same connections, writes are given the same
receipts, whenever they are told, and fences and closing calls return the same. It is so under any other
interleaving. Let the same be done to both by their callers, their workers and their stores, but for the
controls of backpressure and the looks of producers that are held back: then the same is noticed at each
step. And whatever is done to backpressure in between, all the other steps of one queue can be taken by
the other. -/
theorem backpressure_transparent {config' : QueueConfig} {s₀' : State κ ι}
    (h : Begins config connections s₀) (h' : Begins config' connections s₀')
    (hw : config.workers = config'.workers) :
    (∀ (σ : Type) (backend : Stores σ κ ι) (shared : σ) (cues cues' : List (Cue κ ι)),
      Cue.Proper cues → Cue.Proper cues' → Cue.unsteered false cues' = Cue.unsteered false cues →
        Agree (Cue.controls cues ++ Cue.controls cues')
          (Scene.play backend { queue := s₀, shared } cues)
          (Scene.play backend { queue := s₀', shared } cues')) ∧
    (∀ events events' t t' out out', run s₀ events = some (t, out) → run s₀' events' = some (t', out') →
      (∀ e ∈ events, e.plain = true) → (∀ e ∈ events', e.plain = true) →
      deeds s₀' events' = deeds s₀ events →
        record s₀' events' = record s₀ events ∧ stores out' = stores out ∧
        acceptances s₀' events' = acceptances s₀ events ∧
        (∀ id, heard id out' ++ unheard id t' = heard id out ++ unheard id t) ∧ t'.bare = t.bare) ∧
    ∀ events events' t out, run s₀ events = some (t, out) → (∀ e ∈ events, e.plain = true) →
      (∀ e ∈ events', e.plain = true) → .abandon ∉ events' → (events'.filterMap Event.made?).Nodup →
      (events'.filter fun e => !e.steers) = deeds s₀ events →
        ∃ t' out', run s₀' events' = some (t', out') ∧ deeds s₀' events' = deeds s₀ events := by
  refine ⟨?_, ?_, ?_⟩
  · intro σ backend shared cues cues' proper proper' hsame
    exact h.agree h' hw proper proper' hsame shared
  · intro events events' t t' out out' hr hr' plain plain' hdeeds
    exact transparent_of_deeds h h' hw hr hr' plain plain' hdeeds
  · intro events events' t out hr plain plain' held hnum hsame
    exact h.replay h' hw hr plain hsame plain' held hnum

def tight : QueueConfig := { workers := 1, watermarks := ⟨1, 0⟩ }

def loose : QueueConfig := { workers := 1, watermarks := ⟨8, 4⟩, stall := false }

def gated : Stores Unit String Nat where
  begin _ _ _ _ := (none, ())

def halting : List (Cue String Nat) :=
  [.step (.enqueue 1 "a" 1 false), .settle, .step (.enqueue 2 "a" 2 false), .step (.enqueue 3 "b" 3 false),
    .step (.barrier 4), .settle, .step (.setWatermarks 5 2 1), .settle, .step (.finish 0 (.ok ())), .settle,
    .step (.finish 0 (.error .timeout)), .settle, .step (.finish 0 (.ok ())), .settle]

def smooth : List (Cue String Nat) :=
  [.step (.enqueue 1 "a" 1 false), .settle, .step (.enqueue 2 "a" 2 false), .step (.stall true),
    .step (.enqueue 3 "b" 3 false), .step (.barrier 4), .settle, .step (.finish 0 (.ok ())), .settle,
    .step (.finish 0 (.error .timeout)), .step (.setWatermarks 6 9 9), .settle, .settle,
    .step (.finish 0 (.ok ())), .settle]

def slowed : List (Event String Nat) :=
  [.enqueue 1 "a" 1 false, .enqueue 2 "a" 2 false, .work 0, .work 0, .work 0, .work 0,
    .enqueue 3 "b" 3 false, .barrier 4, .setWatermarks 5 3 1, .finish 0 (.ok ()), .work 0, .work 0, .look 3,
    .look 2, .work 0, .work 0, .work 0, .work 0, .finish 0 (.error .timeout), .work 0, .work 0, .look 4]

def unslowed : List (Event String Nat) :=
  [.enqueue 1 "a" 1 false, .enqueue 2 "a" 2 false, .stall true, .work 0, .work 0, .work 0, .work 0,
    .enqueue 3 "b" 3 false, .barrier 4, .finish 0 (.ok ()), .work 0, .work 0, .setWatermarks 6 1 1, .work 0,
    .work 0, .work 0, .work 0, .finish 0 (.error .timeout), .work 0, .work 0, .look 4]

theorem backpressure_transparent_slowed : ∃ (s₀ s₀' t t' : State String Nat) (out out' : _),
    Begins tight [⟨0, 0⟩] s₀ ∧ Begins loose [⟨0, 0⟩] s₀' ∧
    Cue.Proper halting ∧ Cue.Proper smooth ∧ Cue.unsteered false smooth = Cue.unsteered false halting ∧
    Agree [5, 6] (Scene.play gated { queue := s₀, shared := () } halting)
      (Scene.play gated { queue := s₀', shared := () } smooth) ∧
    (Scene.play gated { queue := s₀, shared := () } halting).queue.counters.stalls = 2 ∧
    stores (Scene.play gated { queue := s₀', shared := () } smooth).notices =
      [(⟨"a", ⟨1⟩, 1, 0⟩, ⟨0, 1⟩), (⟨"a", ⟨2⟩, 2, 0⟩, ⟨0, 2⟩),
        (⟨"b", ⟨3⟩, 3, 0⟩, ⟨0, 3⟩)] ∧
    run s₀ slowed = some (t, out) ∧ run s₀' unslowed = some (t', out') ∧
    deeds s₀' unslowed = deeds s₀ slowed ∧ record s₀' unslowed = record s₀ slowed ∧
    stores out' = [(⟨"a", ⟨1⟩, 2, 1⟩, ⟨0, 1⟩), (⟨"b", ⟨2⟩, 3, 0⟩, ⟨0, 2⟩)] ∧
    heard 3 out' ++ unheard 3 t' = [⟨⟨2⟩, false, 2⟩] ∧ t'.bare = t.bare := by
  obtain ⟨s₀, s₀', t, out, h, h', hr, hdeeds, hstores, htold, hstalls, hplayed⟩ :
      ∃ (s₀ s₀' t : State String Nat) (out : _),
      Begins tight [⟨0, 0⟩] s₀ ∧ Begins loose [⟨0, 0⟩] s₀' ∧
      run s₀ slowed = some (t, out) ∧ unslowed.filter (fun e => !e.steers) = deeds s₀ slowed ∧
      stores out = [(⟨"a", ⟨1⟩, 2, 1⟩, ⟨0, 1⟩), (⟨"b", ⟨2⟩, 3, 0⟩, ⟨0, 2⟩)] ∧
      heard 3 out ++ unheard 3 t = [⟨⟨2⟩, false, 2⟩] ∧
      (Scene.play gated { queue := s₀, shared := () } halting).queue.counters.stalls = 2 ∧
      stores (Scene.play gated { queue := s₀, shared := () } halting).notices =
        [(⟨"a", ⟨1⟩, 1, 0⟩, ⟨0, 1⟩), (⟨"a", ⟨2⟩, 2, 0⟩, ⟨0, 2⟩),
          (⟨"b", ⟨3⟩, 3, 0⟩, ⟨0, 3⟩)] :=
    ⟨_, _, _, _, ⟨_, rfl, rfl⟩, ⟨_, rfl, rfl⟩, rfl, rfl, rfl, rfl, rfl, rfl⟩
  have hplain : ∀ e ∈ unslowed, e.plain = true := by decide
  have proper : Cue.Proper halting := ⟨by decide, by decide⟩
  have proper' : Cue.Proper smooth := ⟨by decide, by decide⟩
  obtain ⟨hscripts, hsame, hreplay⟩ := backpressure_transparent h h' rfl
  have hagree := hscripts Unit gated () halting smooth proper proper' rfl
  obtain ⟨t', out', hr', hdeeds'⟩ := hreplay slowed unslowed t out hr (by decide) hplain (by simp [unslowed])
    (by decide) hdeeds
  obtain ⟨hrecord, hstores', _, htold', hbare⟩ :=
    hsame slowed unslowed t t' out out' hr hr' (by decide) hplain hdeeds'
  exact ⟨s₀, s₀', t, t', out, out', h, h', proper, proper', rfl, hagree, hstalls, hagree.stored.trans hplayed,
    hr, hr', hdeeds', hrecord, hstores'.trans hstores, (htold' 3).trans htold, hbare⟩

end WriteBehind.Queue
