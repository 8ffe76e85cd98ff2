import WriteBehind.Proofs.Queue.Bare
import WriteBehind.Proofs.Queue.Receipts

/-!
# What backpressure does not change

A run, seen without its producers that are held back, is a run of the queue without backpressure. So two
runs that differ in their watermarks, in their flags and in what is done to these store the same, and
their writes, fences and closing calls come to the same results.
-/

namespace WriteBehind.Queue

variable {κ ι : Type} [DecidableEq κ] {s₀ s t u : State κ ι} {out o : List (Notice κ ι)}
  {events : List (Event κ ι)} {e : Event κ ι} {id : Nat} {c : Call}

def Event.made? : Event κ ι → Option Nat
  | .enqueue id _ _ _ | .tryEnqueue id _ _ | .barrier id | .close id | .setWatermarks id _ _
  | .borrow id => some id
  | _ => none

/-- Steps that are there for backpressure only: its controls, and the looks of producers that are held
back. -/
def throttles (s : State κ ι) (e : Event κ ι) : Bool :=
  e.steers || match e with
    | .look id => (s.phase? id).any CallPhase.isStalled
    | _ => false

variable [Named κ]

def record (s : State κ ι) (events : List (Event κ ι)) : List (Event κ ι × List (Notice κ ι)) :=
  observe (fun s e effect => if throttles s e then [] else [(e, withoutReceipts effect.2)]) s events

def deeds (s : State κ ι) (events : List (Event κ ι)) : List (Event κ ι) := (record s events).map (·.1)

/-! ## Steps -/

omit [DecidableEq κ] [Named κ] in
theorem phase_of_call? {phase : CallPhase} (hc : s.call? id = some c) (hp : s.phase? id = some phase) :
    c.phase = phase := by
  rw [State.phase?_of_call hc, Option.some.injEq] at hp
  exact hp

theorem unheld_of_step (h : step s e = some (t, out)) (ht : throttles s e = false) : Unheld s e := by
  intro id c hid hc
  cases step_cases h with
  | made _ _ _ _ _ _ free makes =>
    cases hid.symm.trans makes.call
    rw [free] at hc
    cases hc
  | request _ conn holds =>
    cases hid
    rw [phase_of_call? hc holds]
    rfl
  | giveBack _ conn _ holds =>
    cases hid
    rw [phase_of_call? hc holds]
    rfl
  | look =>
    cases hid
    simpa [throttles, Event.steers, State.phase?_of_call hc] using ht
  | _ => cases hid

/-- A queue whose producers go on to no fence. -/
structure Fit (s : State κ ι) : Prop where
  tended : Tended s
  ordered : s.Ordered
  unfenced : ∀ id receipt, s.phase? id ≠ some (.stalled receipt true)

theorem Fit.step (hs : Fit s) (plain : e.plain = true) (h : step s e = some (t, out)) : Fit t := by
  refine ⟨hs.tended.step h, hs.ordered.step h, fun id receipt hp => ?_⟩
  rcases stalls_step hs.tended.balanced h hp with hp' | ⟨key, item, rfl, _⟩
  · exact hs.unfenced id receipt hp'
  · cases plain

theorem throttling_step (hs : Fit s) (h : step s e = some (t, out)) (ht : throttles s e = true) :
    t.bare = s.bare ∧ accepted? e (t, out) = none ∧
      ∀ n ∈ out, n.entry? = none ∧ (n.receipt? = none → ∃ id, e.made? = some id ∧ n.call? = some id) := by
  have hd := hs.ordered.distinct
  cases step_cases h with
  | made id _ _ _ _ _ _ makes =>
    cases makes with
    | refused _ _ asks => cases e <;> simp [Event.asks, throttles, Event.steers] at asks ht
    | watermarks => exact ⟨rfl, rfl, by simp [Notice.entry?, Event.made?, Notice.call?]⟩
    | invalid => exact ⟨rfl, rfl, by simp [Notice.entry?, Event.made?, Notice.call?]⟩
    | _ => cases ht
  | stall => exact ⟨rfl, rfl, by simp⟩
  | look id c _ _ call looks =>
    have hp : c.phase.isStalled = true := by
      simpa [throttles, Event.steers, State.phase?_of_call call] using ht
    cases looks with
    | asleep => exact ⟨hd.bare_asleep_stalled call hp, rfl, by simp⟩
    | released => exact ⟨hd.bare_leave_stalled call hp, rfl, by simp [Notice.entry?, Notice.receipt?]⟩
    | fenced receipt phase =>
      exact absurd ((State.phase?_of_call call).trans (congrArg some phase)) (hs.unfenced id receipt)
    | _ => simp_all [CallPhase.isStalled]
  | _ => cases ht

theorem deed_step (hs : Fit s) (plain : e.plain = true) (h : step s e = some (t, out))
    (ht : throttles s e = false) :
    ∃ o, step s.bare e = some (t.bare, o) ∧ withoutReceipts o = withoutReceipts out ∧
      accepted? e (t.bare, o) = accepted? e (t, out) := by
  have unsteered : e.steers = false := (Bool.or_eq_false_iff.mp ht).1
  have hbare := step_bare hs.ordered plain unsteered (unheld_of_step h ht)
  rw [h, Option.map_some] at hbare
  obtain ⟨⟨b, o⟩, hb, hseen⟩ := Option.map_eq_some_iff.mp hbare
  simp only [seen, Prod.mk.injEq] at hseen
  obtain ⟨rfl, hout, haccepted⟩ := hseen
  exact ⟨o, hb, hout, haccepted⟩

/-! ## Runs -/

theorem record_cons (h : step s e = some (t, out)) : record s (e :: events) =
    (if throttles s e then [] else [(e, withoutReceipts out)]) ++ record t events := by
  simp only [record, observe, h]

theorem run_bare (hs : Fit s) (plain : ∀ e ∈ events, e.plain = true) (h : run s events = some (t, out)) :
    (∃ o, run s.bare (deeds s events) = some (t.bare, o)) ∧
      record s events = observe (fun _ e effect => [(e, withoutReceipts effect.2)]) s.bare (deeds s events) ∧
      acceptances s events = acceptances s.bare (deeds s events) := by
  induction events generalizing s out with
  | nil =>
    obtain ⟨rfl, rfl⟩ := run_nil.mp h
    exact ⟨⟨[], rfl⟩, rfl, rfl⟩
  | cons e events ih =>
    obtain ⟨u, o, o', he, hr, rfl⟩ := run_cons.mp h
    have hplain := plain e (by simp)
    obtain ⟨⟨o₁, hrun⟩, hrecord, hacc⟩ :=
      ih (hs.step hplain he) (fun e he => plain e (List.mem_cons_of_mem _ he)) hr
    have haccepted : acceptances s (e :: events) = (accepted? e (u, o)).toList ++ acceptances u events := by
      simp only [acceptances, observe, he]
    unfold deeds at hrun hrecord hacc ⊢
    rw [record_cons he, haccepted]
    by_cases ht : throttles s e = true
    · obtain ⟨hbare, hnone, _⟩ := throttling_step hs he ht
      rw [if_pos ht, hnone, List.nil_append, ← hbare]
      exact ⟨⟨o₁, hrun⟩, hrecord, hacc⟩
    · obtain ⟨o₂, hstep, hout, hsame⟩ := deed_step hs hplain he (by simpa using ht)
      rw [if_neg ht, List.singleton_append, List.map_cons]
      refine ⟨⟨_, run_cons.mpr ⟨u.bare, o₂, o₁, hstep, hrun, rfl⟩⟩, ?_, ?_⟩
      · simp only [observe, hstep, hout, List.singleton_append]
        rw [← hrecord]
      · simp only [acceptances, observe, hstep, hsame] at hacc ⊢
        rw [hacc]

/-! ### Stores -/

omit [DecidableEq κ] [Named κ] in
def Notice.store? : Notice κ ι → Option (Claimed κ ι × Connection)
  | .invoked _ entry c => some (entry, c)
  | _ => none

omit [DecidableEq κ] [Named κ] in
def stores (out : List (Notice κ ι)) : List (Claimed κ ι × Connection) := out.filterMap Notice.store?

omit [DecidableEq κ] [Named κ] in
theorem stores_withoutReceipts (out : List (Notice κ ι)) : stores (withoutReceipts out) = stores out := by
  unfold stores withoutReceipts
  rw [List.filterMap_filter]
  refine List.filterMap_congr fun n _ => ?_
  cases n with
  | returned id result => split <;> rfl
  | _ => rfl

omit [DecidableEq κ] [Named κ] in
theorem stores_of_quiet (h : ∀ n ∈ out, n.entry? = none) : stores out = [] := by
  refine List.filterMap_eq_nil_iff.mpr fun n hn => ?_
  have := h n hn
  cases n <;> simp_all [Notice.entry?, Notice.store?]

theorem stores_record (hs : Fit s) (plain : ∀ e ∈ events, e.plain = true) (h : run s events = some (t, out)) :
    stores out = (record s events).flatMap fun x => stores x.2 := by
  induction events generalizing s out with
  | nil =>
    obtain ⟨rfl, rfl⟩ := run_nil.mp h
    rfl
  | cons e events ih =>
    obtain ⟨u, o, o', he, hr, rfl⟩ := run_cons.mp h
    have hlater := ih (hs.step (plain e (by simp)) he) (fun e he => plain e (List.mem_cons_of_mem _ he)) hr
    have happend : stores (o ++ o') = stores o ++ stores o' := List.filterMap_append
    rw [record_cons he, happend, hlater, List.flatMap_append]
    by_cases ht : throttles s e = true
    · rw [if_pos ht, stores_of_quiet fun n hn => ((throttling_step hs he ht).2.2 n hn).1]
      rfl
    · rw [if_neg ht, List.flatMap_singleton, stores_withoutReceipts]

/-! ### Receipts -/

omit [DecidableEq κ] [Named κ] in
def heard (id : Nat) (out : List (Notice κ ι)) : List Receipt :=
  out.filterMap fun n => if n.call? = some id then n.receipt? else none

omit [DecidableEq κ] [Named κ] in
def unheard (id : Nat) (s : State κ ι) : List Receipt := ((s.phase? id).bind CallPhase.receipt?).toList

def given (id : Nat) (accepted : List (Acceptance κ ι)) : List Receipt :=
  (accepted.filter fun a => decide (a.call = id)).map (·.receipt)

omit [DecidableEq κ] [Named κ] in
theorem accepted?_call {effect : Effect κ ι} {a : Acceptance κ ι} (h : accepted? e effect = some a) :
    e.call? = some a.call := by
  cases e with
  | enqueue | tryEnqueue =>
    obtain ⟨r, _, rfl⟩ := Option.map_eq_some_iff.mp h
    rfl
  | _ => cases h

omit [DecidableEq κ] [Named κ] in
theorem Made.receipts {a? : Option (Acceptance κ ι)} (h : Made s t e out id a?) :
    heard id out ++ unheard id t = given id a?.toList := by
  have hi := h.phase
  unfold unheard
  generalize t.phase? id = phase? at hi
  cases hi with
  | accepted a call => simp [heard, given, Notice.call?, Notice.receipt?, call]
  | stalled a call => simp [heard, given, CallPhase.receipt?, call]
  | fenced a call => simp [heard, given, Notice.call?, Notice.receipt?, CallPhase.receipt?, call]
  | _ => simp [heard, given, Notice.call?, Notice.receipt?, CallPhase.receipt?]

omit [DecidableEq κ] in
theorem Looked.receipts {phase : CallPhase} (h : Looked s t id phase (t.phase? id) out) :
    heard id out ++ unheard id t = phase.receipt?.toList := by
  unfold unheard
  generalize t.phase? id = phase? at h
  have hdone : ∀ failure : Option (Failure κ),
      heard (κ := κ) (ι := ι) id [.returned id ((surfaced failure).map fun _ => .done)] = [] := by
    intro failure
    cases failure <;> simp [heard, Notice.receipt?, surfaced, Except.map]
  cases h with
  | accepted r => simp [heard, Notice.call?, Notice.receipt?, CallPhase.receipt?]
  | fenced r => simp [heard, Notice.call?, Notice.receipt?, CallPhase.receipt?]
  | reported => simp [hdone, CallPhase.receipt?]
  | ended flushed =>
    cases flushed with
    | ok => simp [closing, hdone, CallPhase.receipt?]
    | error => simp [closing, heard, Notice.receipt?, CallPhase.receipt?]
  | _ => simp [heard, Notice.call?, Notice.receipt?, CallPhase.receipt?]

theorem receipts_step (hb : s.pool.Balanced) (h : step s e = some (t, out)) (id : Nat) :
    heard id out ++ unheard id t = unheard id s ++ given id (accepted? e (t, out)).toList := by
  by_cases hid : e.call? = some id
  · cases step_cases h with
    | made id' _ _ _ owned a? free makes =>
      cases hid.symm.trans makes.call
      have hnone : unheard id s = [] := by simp [unheard, State.phase?, free]
      rw [makes.accepted free, hnone]
      exact (makes.made hb owned free).receipts
    | request _ conn holds =>
      cases hid
      obtain ⟨c, hc, _⟩ := Option.map_eq_some_iff.mp holds
      simp [heard, unheard, holds, State.phase?_goOn hc, CallPhase.receipt?, given, accepted?]
    | giveBack _ conn result holds =>
      cases hid
      have hnone : (Notice.returned (κ := κ) (ι := ι) id
          ((result.mapError Error.store).map Answer.handed)).receipt? = none := by
        cases result with
        | error => rfl
        | ok conn? => cases conn? <;> rfl
      simp [heard, unheard, holds, State.phase?_leave_self, CallPhase.receipt?, given, accepted?, hnone]
    | look _ c _ _ call looks =>
      cases hid
      rw [(looks.looked hb call).receipts]
      simp [unheard, State.phase?_of_call call, given, accepted?]
    | _ => cases hid
  · have haside := step_aside h hid
    have htold : heard id out = [] := by
      refine List.filterMap_eq_nil_iff.mpr fun n hn => ?_
      exact if_neg (haside.silent n hn)
    have hgiven : given id (accepted? e (t, out)).toList = [] := by
      cases ha : accepted? e (t, out) with
      | none => rfl
      | some a =>
        have hne : a.call ≠ id := fun heq => hid ((accepted?_call ha).trans (congrArg some heq))
        simp [given, hne]
    rw [htold, hgiven]
    unfold unheard
    rw [haside.phase?, List.nil_append, List.append_nil]

variable {config : QueueConfig} {connections : List Connection}

theorem Begins.receipts_of (h : Begins config connections s₀) (hr : run s₀ events = some (t, out)) (id : Nat) :
    heard id out ++ unheard id t = given id (acceptances s₀ events) := by
  refine run_induction (P := fun events out t =>
    heard id out ++ unheard id t = given id (acceptances s₀ events)) ?_ ?_ hr
  · simp [heard, unheard, h.phase?, given, acceptances, observe]
  · intro events o t e u o' hr ih he
    have hstep := receipts_step (h.tended.run hr).balanced he id
    have hgiven : given id (acceptances s₀ (events ++ [e])) =
        given id (acceptances s₀ events) ++ given id (accepted? e (u, o')).toList := by
      rw [acceptances_snoc hr he]
      unfold given
      rw [List.filter_append, List.map_append]
    have happend : heard id (o ++ o') = heard id o ++ heard id o' := List.filterMap_append
    rw [happend, List.append_assoc, hstep, ← List.append_assoc, ih, hgiven]

/-! ## The same run under other backpressure -/

theorem owned_step (h : step s e = some (t, out)) (he : e ≠ .abandon) : t.abandoned = s.abandoned := by
  cases step_cases h with
  | made _ _ _ _ _ _ _ makes => cases makes <;> rfl
  | work _ _ _ works =>
    cases works with
    | noted _ outcome => cases outcome <;> rfl
    | _ => rfl
  | look _ _ _ _ _ looks => cases looks <;> rfl
  | abandon => exact absurd rfl he
  | _ => rfl

theorem fresh_step (h : step s e = some (t, out)) (hn : s.call? id = none) (he : e.made? ≠ some id) :
    t.call? id = none := by
  have hid : e.call? ≠ some id := by
    intro hid
    cases step_cases h with
    | made _ _ _ _ _ _ _ makes =>
      cases makes with
      | refused _ _ asks => cases e <;> first | exact he hid | cases asks
      | _ => exact he hid
    | request _ _ holds =>
      cases hid
      simp [State.phase?, hn] at holds
    | giveBack _ _ _ holds =>
      cases hid
      simp [State.phase?, hn] at holds
    | look _ _ _ _ call =>
      cases hid
      rw [hn] at call
      cases call
    | _ => cases hid
  obtain ⟨hcall, _⟩ | hcall := (step_aside h hid).call
  · rw [hcall, hn]
  · rw [hcall, hn]
    rfl

theorem control_step (he : e.steers = true) (owned : s.abandoned = false)
    (hfresh : ∀ id, e.made? = some id → s.call? id = none) : ∃ t out, step s e = some (t, out) := by
  cases e with
  | setWatermarks id high low =>
    have hstep : step s (.setWatermarks id high low) = some (s.setWatermarks id high low) := by
      simp [step, issue, owned, hfresh id rfl]
    exact ⟨_, _, hstep⟩
  | stall on => exact ⟨_, _, rfl⟩
  | _ => cases he

theorem unheld_of_bare {b : State κ ι} (hd : s.Distinct) (hb : step s.bare e = some (b, o))
    (hfresh : ∀ id, e.made? = some id → s.call? id = none) : Unheld s e := by
  intro id c hid hc
  by_contra hp
  -- Without backpressure the call is not there.
  have hnone := hd.call?_bare_stalled hc (by simpa using hp)
  have hmade : e.made? ≠ some id := by
    intro hm
    rw [hfresh id hm] at hc
    cases hc
  cases e with
  | request =>
    cases hid
    simp [step, State.request, State.holding?, hnone] at hb
  | giveBack =>
    cases hid
    simp [step, State.giveBack, State.holding?, hnone] at hb
  | look =>
    cases hid
    simp [step, State.look, hnone] at hb
  | _ => exact hmade hid

omit [DecidableEq κ] [Named κ] in
theorem Unheld.not_throttles (hu : Unheld s e) (unsteered : e.steers = false) : throttles s e = false := by
  unfold throttles
  rw [unsteered, Bool.false_or]
  split
  · rename_i id
    cases hc : s.call? id with
    | none => simp [State.phase?, hc]
    | some c => simpa [State.phase?_of_call hc] using hu id c rfl hc
  · rfl

/-- Whatever is done to backpressure in between, the other steps can be taken as without it. -/
theorem replay (hs : Fit s) (owned : s.abandoned = false)
    (hb : ∃ b o, run s.bare (events.filter fun e => !e.steers) = some (b, o))
    (plain : ∀ e ∈ events, e.plain = true) (held : .abandon ∉ events)
    (hnum : (events.filterMap Event.made?).Nodup)
    (hfresh : ∀ id ∈ events.filterMap Event.made?, s.call? id = none) :
    ∃ t out, run s events = some (t, out) ∧ deeds s events = events.filter fun e => !e.steers := by
  induction events generalizing s with
  | nil => exact ⟨s, [], rfl, rfl⟩
  | cons e events ih =>
    have hmade : ∀ id, e.made? = some id → s.call? id = none ∧ id ∉ events.filterMap Event.made? := by
      intro id hid
      rw [List.filterMap_cons_some hid] at hnum hfresh
      exact ⟨hfresh id List.mem_cons_self, (List.nodup_cons.mp hnum).1⟩
    have hrest : (events.filterMap Event.made?).Nodup ∧
        ∀ id ∈ events.filterMap Event.made?, s.call? id = none := by
      have hsub : (events.filterMap Event.made?).Sublist ((e :: events).filterMap Event.made?) :=
        (List.sublist_cons_self e events).filterMap _
      exact ⟨hnum.sublist hsub, fun id hid => hfresh id (hsub.subset hid)⟩
    have hplain := plain e List.mem_cons_self
    -- What is left to do once the step is taken.
    have later : ∀ {u o}, step s e = some (u, o) →
        (∃ b o, run u.bare (events.filter fun e => !e.steers) = some (b, o)) →
        ∃ t out, run s (e :: events) = some (t, out) ∧
          deeds s (e :: events) = (if throttles s e then [] else [e]) ++ events.filter fun e => !e.steers := by
      intro u o he hb
      have howned := (owned_step he fun heq => held (heq ▸ List.mem_cons_self)).trans owned
      obtain ⟨t, out, hr, hdeeds⟩ := ih (hs.step hplain he) howned hb
        (fun e he => plain e (List.mem_cons_of_mem _ he)) (fun hm => held (List.mem_cons_of_mem _ hm)) hrest.1
        fun id hid => fresh_step he (hrest.2 id hid) fun hm => (hmade id hm).2 hid
      refine ⟨t, o ++ out, run_cons.mpr ⟨u, o, out, he, hr, rfl⟩, ?_⟩
      rw [← hdeeds]
      unfold deeds
      rw [record_cons he, List.map_append]
      split <;> rfl
    obtain ⟨b, o₁, hb⟩ := hb
    by_cases hsteers : e.steers = true
    · obtain ⟨u, o, he⟩ := control_step hsteers owned fun id hid => (hmade id hid).1
      have hthrottles : throttles s e = true := by simp [throttles, hsteers]
      rw [List.filter_cons_of_neg (by simp [hsteers])] at hb ⊢
      obtain ⟨t, out, hr, hdeeds⟩ := later he ⟨b, o₁, by rwa [(throttling_step hs he hthrottles).1]⟩
      rw [if_pos hthrottles] at hdeeds
      exact ⟨t, out, hr, hdeeds⟩
    · have unsteered : e.steers = false := by simpa using hsteers
      rw [List.filter_cons_of_pos (by simp [unsteered])] at hb ⊢
      obtain ⟨b', o₂, o₃, hstep, hrun, _⟩ := run_cons.mp hb
      have hunheld := unheld_of_bare hs.ordered.distinct hstep fun id hid => (hmade id hid).1
      have hbare := step_bare hs.ordered hplain unsteered hunheld
      rw [hstep, Option.map_some] at hbare
      obtain ⟨⟨u, o⟩, he, hseen⟩ := Option.map_eq_some_iff.mp hbare.symm
      have hu : u.bare = b' := congrArg Prod.fst hseen
      obtain ⟨t, out, hr, hdeeds⟩ := later he ⟨b, o₃, by rwa [hu]⟩
      rw [hunheld.not_throttles unsteered] at hdeeds
      exact ⟨t, out, hr, hdeeds⟩

/-! ## Two runs -/

omit [DecidableEq κ] [Named κ] in
theorem Begins.bare_eq {config' : QueueConfig} {s₀' : State κ ι} (h : Begins config connections s₀)
    (h' : Begins config' connections s₀') (hw : config.workers = config'.workers) : s₀.bare = s₀'.bare := by
  obtain ⟨pool, hp, _, rfl⟩ := h.eq
  obtain ⟨pool', hp', _, rfl⟩ := h'.eq
  rw [hp, Except.ok.injEq] at hp'
  subst hp'
  simp [State.bare, hw]

omit [Named κ] in
theorem Begins.fit (h : Begins config connections s₀) : Fit s₀ := by
  refine ⟨h.tended, ?_, fun id receipt => by simp [h.phase?]⟩
  obtain ⟨_, _, _, rfl⟩ := h.eq
  exact List.Pairwise.nil

theorem transparent_of_deeds {config' : QueueConfig} {s₀' t' : State κ ι} {events' : List (Event κ ι)}
    {out' : List (Notice κ ι)} (h : Begins config connections s₀) (h' : Begins config' connections s₀')
    (hw : config.workers = config'.workers) (hr : run s₀ events = some (t, out))
    (hr' : run s₀' events' = some (t', out')) (plain : ∀ e ∈ events, e.plain = true)
    (plain' : ∀ e ∈ events', e.plain = true) (hdeeds : deeds s₀' events' = deeds s₀ events) :
    record s₀' events' = record s₀ events ∧ stores out' = stores out ∧
      acceptances s₀' events' = acceptances s₀ events ∧
      (∀ id, heard id out' ++ unheard id t' = heard id out ++ unheard id t) ∧ t'.bare = t.bare := by
  obtain ⟨⟨o, hrun⟩, hrecord, haccepted⟩ := run_bare h.fit plain hr
  obtain ⟨⟨o', hrun'⟩, hrecord', haccepted'⟩ := run_bare h'.fit plain' hr'
  rw [hdeeds, ← h.bare_eq h' hw] at hrun' hrecord' haccepted'
  have hsame : record s₀' events' = record s₀ events := hrecord'.trans hrecord.symm
  have hacc : acceptances s₀' events' = acceptances s₀ events := haccepted'.trans haccepted.symm
  refine ⟨hsame, ?_, hacc, fun id => ?_, ?_⟩
  · rw [stores_record h'.fit plain' hr', hsame, stores_record h.fit plain hr]
  · rw [h'.receipts_of hr', hacc, h.receipts_of hr]
  · rw [hrun'] at hrun
    exact congrArg Prod.fst (Option.some.inj hrun)

omit [DecidableEq κ] [Named κ] in
theorem Begins.owned (h : Begins config connections s₀) : s₀.abandoned = false := by
  obtain ⟨_, _, _, rfl⟩ := h.eq
  rfl

theorem Begins.replay {config' : QueueConfig} {s₀' : State κ ι} {events' : List (Event κ ι)}
    (h : Begins config connections s₀) (h' : Begins config' connections s₀')
    (hw : config.workers = config'.workers) (hr : run s₀ events = some (t, out))
    (plain : ∀ e ∈ events, e.plain = true) (hsame : (events'.filter fun e => !e.steers) = deeds s₀ events)
    (plain' : ∀ e ∈ events', e.plain = true) (held : .abandon ∉ events')
    (hnum : (events'.filterMap Event.made?).Nodup) :
    ∃ t' out', run s₀' events' = some (t', out') ∧ deeds s₀' events' = deeds s₀ events := by
  obtain ⟨⟨o, hrun⟩, _⟩ := run_bare h.fit plain hr
  rw [h.bare_eq h' hw, ← hsame] at hrun
  rw [← hsame]
  exact Queue.replay h'.fit h'.owned ⟨_, _, hrun⟩ plain' held hnum fun id _ => h'.call? id

end WriteBehind.Queue
