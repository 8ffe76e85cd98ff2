import WriteBehind.Proofs.Queue.Rounds
import WriteBehind.Proofs.Queue.Transparency

/-!
# The schedule without backpressure

A scene and its shadow, the same scene without backpressure, move on their schedules. What the scene does,
the shadow does as well, except for the producers that are held back: these move in the scene alone. So
the one remains the shadow of the other, though the scene may need more rounds.
-/

namespace WriteBehind.Queue

variable {σ κ ι : Type} {s t : State κ ι} {out o : List (Notice κ ι)} {e : Event κ ι} {id w n m : Nat}
  {hidden later : List Nat}

def besides (hidden : List Nat) (out : List (Notice κ ι)) : List (Notice κ ι) :=
  (withoutReceipts out).filter fun n => n.call?.all fun id => decide (id ∉ hidden)

theorem besides_append : besides hidden (out ++ o) = besides hidden out ++ besides hidden o := by
  unfold besides withoutReceipts
  rw [List.filter_append, List.filter_append]

variable [DecidableEq κ]

/-- One scene is another without backpressure. What the hidden calls are told counts for nothing, and the
later calls are not made yet. -/
structure Shadows (hidden later : List Nat) (r b : Scene σ κ ι) : Prop where
  fit : Fit r.queue
  coherent : Coherent r.queue
  coherent_bare : Coherent b.queue
  owned : r.queue.abandoned = false
  queue : b.queue = r.queue.bare
  shared : b.shared = r.shared
  notices : besides hidden b.notices = besides hidden r.notices
  receipts : ∀ id, heard id b.notices ++ unheard id b.queue = heard id r.notices ++ unheard id r.queue
  unmade : ∀ id ∈ later, r.queue.call? id = none

namespace Shadows

variable {r b r' b' : Scene σ κ ι} {stores : Stores σ κ ι}

/-! ## Steps -/

theorem distinct (h : Shadows hidden later r b) : r.queue.Distinct := h.fit.ordered.distinct

theorem absent (h : Shadows hidden later r b) (hb : b.queue.call? id = none) {c : Call}
    (hc : r.queue.call? id = some c) : c.phase.isStalled = true := by
  by_contra hp
  have hsame : r.queue.bare.call? id = r.queue.call? id := h.distinct.call?_bare fun d hd => by
    rw [hc] at hd
    cases hd
    simpa using hp
  rw [← h.queue, hb, hc] at hsame
  cases hsame

theorem present (h : Shadows hidden later r b) (hb : b.queue.call? id ≠ none) (c : Call)
    (hc : r.queue.call? id = some c) : c.phase.isStalled = false := by
  by_contra hp
  rw [h.queue] at hb
  exact hb (h.distinct.call?_bare_stalled hc (by simpa using hp))

theorem isAsleep (h : Shadows hidden later r b)
    (hlive : ∀ c, r.queue.call? id = some c → c.phase.isStalled = false) :
    Scene.isAsleep b.queue id = Scene.isAsleep r.queue id := by
  unfold Scene.isAsleep
  rw [h.queue, h.distinct.call?_bare hlive]

theorem setShared (h : Shadows hidden later r b) (shared : σ) :
    Shadows hidden later { r with shared } { b with shared } :=
  { h with shared := rfl }

theorem reach (h : Shadows hidden later r b) : b.reach = r.reach := by
  unfold Scene.reach
  rw [h.queue]
  rfl

theorem ids (h : Shadows hidden later r b) : b.queue.calls.map (·.id) =
    (r.queue.calls.map (·.id)).filter fun id => (b.queue.call? id).isSome := by
  have hcalls : b.queue.calls = r.queue.calls.filter fun c => !c.phase.isStalled := by
    rw [h.queue]
    rfl
  rw [List.filter_map]
  refine congrArg (List.map _) (hcalls.trans (List.filter_congr fun c hc => ?_))
  have hcall := h.distinct.call?_of_mem hc
  simp only [Function.comp]
  cases hb : b.queue.call? c.id with
  | none => simp [h.absent hb hcall]
  | some d => simp [h.present (by simp [hb]) c hcall]

variable [Named κ]

theorem unmatched (h : Shadows hidden later r b) (he : step r.queue e = some (t, out)) (plain : e.plain = true)
    (ht : throttles r.queue e = true) (hidden_of : ∀ id, e.made? = some id → id ∈ hidden)
    (hl : ∀ id ∈ later, e.made? ≠ some id) (held : e ≠ .abandon) :
    Shadows hidden later { r with queue := t, notices := r.notices ++ out } b := by
  obtain ⟨hbare, hnone, hquiet⟩ := throttling_step h.fit he ht
  refine { h with
    fit := h.fit.step plain he
    coherent := h.coherent.step he
    owned := (owned_step he held).trans h.owned
    queue := h.queue.trans hbare.symm
    notices := ?_
    receipts := fun id => ?_
    unmade := fun id hid => fresh_step he (h.unmade id hid) (hl id hid) }
  · have hout : besides hidden out = [] := by
      refine List.filter_eq_nil_iff.mpr fun n hn => ?_
      obtain ⟨hn, hr⟩ := List.mem_filter.mp hn
      obtain ⟨id, hmade, hcall⟩ := (hquiet n hn).2 (by simpa using hr)
      simp [hcall, hidden_of id hmade]
    rw [h.notices, besides_append, hout, List.append_nil]
  · have hstep := receipts_step h.coherent.tended.balanced he id
    have happend : heard id (r.notices ++ out) = heard id r.notices ++ heard id out := List.filterMap_append
    rw [hnone] at hstep
    rw [h.receipts, happend, List.append_assoc, hstep]
    simp [given]

theorem matched (h : Shadows hidden later r b) (he : step r.queue e = some (t, out)) (plain : e.plain = true)
    (ht : throttles r.queue e = false) (hl : ∀ id ∈ later, e.made? ≠ some id) (held : e ≠ .abandon) :
    ∃ o, step b.queue e = some (t.bare, o) ∧
      Shadows hidden later { r with queue := t, notices := r.notices ++ out }
        { b with queue := t.bare, notices := b.notices ++ o } := by
  obtain ⟨o, hstep, hout, haccepted⟩ := deed_step h.fit plain he ht
  rw [← h.queue] at hstep
  refine ⟨o, hstep, {
    fit := h.fit.step plain he
    coherent := h.coherent.step he
    coherent_bare := h.coherent_bare.step hstep
    owned := (owned_step he held).trans h.owned
    queue := rfl
    shared := h.shared
    notices := ?_
    receipts := fun id => ?_
    unmade := fun id hid => fresh_step he (h.unmade id hid) (hl id hid) }⟩
  · have hsame : besides hidden o = besides hidden out := congrArg (List.filter _) hout
    rw [besides_append, besides_append, h.notices, hsame]
  · have hr := receipts_step h.coherent.tended.balanced he id
    have hb := receipts_step h.coherent_bare.tended.balanced hstep id
    have happend : ∀ l l' : List (Notice κ ι), heard id (l ++ l') = heard id l ++ heard id l' :=
      fun _ _ => List.filterMap_append
    simp only [happend, List.append_assoc]
    rw [hb, hr, haccepted, ← List.append_assoc, ← List.append_assoc, h.receipts]

theorem enabled (h : Shadows hidden later r b) (he : step b.queue e = some (t, o)) (plain : e.plain = true)
    (unsteered : e.steers = false) (hfresh : ∀ id, e.made? = some id → r.queue.call? id = none) :
    throttles r.queue e = false ∧ ∃ u out, step r.queue e = some (u, out) := by
  rw [h.queue] at he
  have hunheld := unheld_of_bare h.distinct he hfresh
  have hbare := step_bare h.fit.ordered plain unsteered hunheld
  rw [he, Option.map_some] at hbare
  obtain ⟨⟨u, out⟩, hstep, _⟩ := Option.map_eq_some_iff.mp hbare.symm
  exact ⟨hunheld.not_throttles unsteered, u, out, hstep⟩

theorem apply (h : Shadows hidden later r b) (plain : e.plain = true) (unsteered : e.steers = false)
    (hfresh : ∀ id, e.made? = some id → r.queue.call? id = none) (hl : ∀ id ∈ later, e.made? ≠ some id)
    (held : e ≠ .abandon) : Shadows hidden later (r.apply e) (b.apply e) := by
  have hidden_of : throttles r.queue e = true → ∀ id, e.made? = some id → id ∈ hidden := by
    intro ht id hid
    cases e <;> simp [throttles, Event.steers, Event.made?] at ht hid unsteered
  cases hr : step r.queue e with
  | none =>
    cases hb : step b.queue e with
    | none => rwa [Scene.apply_of_none hr, Scene.apply_of_none hb]
    | some effect =>
      obtain ⟨_, u, out, hstep⟩ := h.enabled hb plain unsteered hfresh
      rw [hr] at hstep
      cases hstep
  | some effect =>
    obtain ⟨t, out⟩ := effect
    rw [Scene.apply_eq hr]
    by_cases ht : throttles r.queue e = true
    · cases hb : step b.queue e with
      | none =>
        rw [Scene.apply_of_none hb]
        exact h.unmatched hr plain ht (hidden_of ht) hl held
      | some effect =>
        have hmatched := (h.enabled hb plain unsteered hfresh).1
        rw [ht] at hmatched
        cases hmatched
    · obtain ⟨o, hb, hmatched⟩ := h.matched hr plain (by simpa using ht) hl held
      rw [Scene.apply_eq hb]
      exact hmatched

/-! ## Workers -/

theorem work (h : Shadows hidden later r b) (w : Nat) :
    step b.queue (.work w) = (step r.queue (.work w)).map Effect.bare := by
  rw [h.queue]
  exact State.pressure.work r.queue w

variable (stores) in
theorem moveWorker (h : Shadows hidden later r b) (w : Nat) :
    Option.Rel (Shadows hidden later) (r.moveWorker stores w) (b.moveWorker stores w) := by
  unfold Scene.moveWorker
  rw [h.work w]
  cases hr : step r.queue (.work w) with
  | none => exact .none
  | some effect =>
    obtain ⟨t, out⟩ := effect
    obtain ⟨o, hb, h'⟩ := h.matched hr rfl rfl (by simp [Event.made?]) (by simp)
    rw [h.work w, hr] at hb
    cases hb
    simp only [Option.map_some, Effect.bare, bind, Option.bind_some]
    cases Scene.invoked? out with
    | none => exact .some h'
    | some entry =>
      have hbegin : stores.begin b.shared t.bare.now w entry = stores.begin r.shared t.now w entry := by
        rw [h.shared]
        rfl
      cases hb : stores.begin r.shared t.now w entry with
      | mk outcome? shared =>
        have hshared := h'.setShared shared
        simp only [hbegin, hb]
        cases outcome? with
        | none => exact .some hshared
        | some outcome =>
          have hfinish := hshared.apply (e := .finish w outcome) rfl rfl (by simp [Event.made?])
            (by simp [Event.made?]) (by simp)
          exact .some hfinish

variable (stores) in
theorem runSteps (h : Shadows hidden later r b) (w n : Nat) :
    Shadows hidden later (r.runSteps stores w n) (b.runSteps stores w n) := by
  induction n generalizing r b with
  | zero => exact h
  | succ n ih =>
    have hmove := h.moveWorker stores w
    unfold Scene.runSteps
    generalize r.moveWorker stores w = r?, b.moveWorker stores w = b? at hmove
    cases hmove with
    | none => exact h
    | some h' => exact ih h'

theorem nextWorker? (h : Shadows hidden later r b) : Scene.nextWorker? b.queue = Scene.nextWorker? r.queue := by
  have hcandidates : Scene.candidates b.queue = Scene.candidates r.queue := by
    rw [h.queue]
    rfl
  unfold Scene.nextWorker?
  rw [hcandidates]
  congr 1
  funext w
  rw [h.work w, Option.isSome_map]

variable (stores) in
theorem runTurns (h : Shadows hidden later r b) (n : Nat) :
    Shadows hidden later (r.runTurns stores n) (b.runTurns stores n) := by
  induction n generalizing r b with
  | zero => exact h
  | succ n ih =>
    unfold Scene.runTurns
    rw [h.nextWorker?]
    cases Scene.nextWorker? r.queue with
    | none => exact h
    | some w =>
      simp only [Scene.runWorker, h.reach]
      exact ih (h.runSteps stores w r.reach)

variable (stores) in
theorem runWorkers (h : Shadows hidden later r b) :
    Shadows hidden later (r.runWorkers stores) (b.runWorkers stores) := by
  unfold Scene.runWorkers
  rw [h.reach]
  exact h.runTurns stores _

theorem apply_expire (h : Shadows hidden later r b) : r.apply .expire = r := by
  apply Scene.apply_of_none
  simp [step, h.owned]

theorem apply_expire_bare (h : Shadows hidden later r b) : b.apply .expire = b := by
  apply Scene.apply_of_none
  have howned : b.queue.abandoned = false := by
    rw [h.queue]
    exact h.owned
  simp [step, howned]

/-! ## Looks -/

theorem look_alone (h : Shadows hidden later r b) (hb : b.queue.call? id = none) (hr : r.look? id = some r') :
    Shadows hidden later r' b := by
  obtain ⟨⟨t, out⟩, hs, rfl⟩ := Option.map_eq_some_iff.mp hr
  obtain ⟨c, hc, _⟩ := look_cases hs
  have ht : throttles r.queue (.look id) = true := by
    simp [throttles, Event.steers, State.phase?_of_call hc, h.absent hb hc]
  exact h.unmatched hs rfl ht (by simp [Event.made?]) (by simp [Event.made?]) (by simp)

theorem look? (h : Shadows hidden later r b) (hb : b.queue.call? id ≠ none) :
    Option.Rel (fun r' b' => Shadows hidden later r' b' ∧
      Scene.isAsleep b'.queue id = Scene.isAsleep r'.queue id) (r.look? id) (b.look? id) := by
  have hlive := h.present hb
  have hlook : step b.queue (.look id) = (step r.queue (.look id)).map Effect.bare := by
    rw [h.queue]
    exact look_bare h.distinct hlive
  unfold Scene.look?
  rw [hlook]
  cases hr : step r.queue (.look id) with
  | none => exact .none
  | some effect =>
    obtain ⟨t, out⟩ := effect
    obtain ⟨c, hc, _⟩ := look_cases hr
    have ht : throttles r.queue (.look id) = false := by
      simp [throttles, Event.steers, State.phase?_of_call hc, hlive c hc]
    obtain ⟨o, hstep, h'⟩ := h.matched hr rfl ht (by simp [Event.made?]) (by simp)
    rw [hlook, hr] at hstep
    cases hstep
    refine .some ⟨h', h'.isAsleep fun d hd => ?_⟩
    by_contra hp
    obtain ⟨receipt, fenced, hp⟩ := CallPhase.isStalled_iff.mp (by simpa using hp)
    rcases stalls_step h.coherent.tended.balanced hr ((State.phase?_of_call hd).trans (congrArg some hp)) with
      hp | ⟨_, _, he, _⟩
    · have hstalled := hlive c hc
      rw [phase_of_call? hc hp] at hstalled
      cases hstalled
    · cases he

theorem look?_absent (hr : r.queue.call? id = none) : r.look? id = none :=
  Option.map_eq_none_iff.mpr (look_of_absent hr)

theorem lookTimes_absent (hr : r.queue.call? id = none) (n : Nat) : r.lookTimes id n = (false, r) := by
  cases n with
  | zero => rfl
  | succ n => rw [lookTimes_succ, look?_absent hr]

theorem lookTimes (h : Shadows hidden later r b) (id n : Nat) :
    Shadows hidden later (r.lookTimes id n).2 (b.lookTimes id n).2 ∧
      ((b.lookTimes id n).1 = true → (r.lookTimes id n).1 = true) := by
  induction n generalizing r b with
  | zero => exact ⟨h, nofun⟩
  | succ n ih =>
    rw [lookTimes_succ, lookTimes_succ]
    by_cases hb : b.queue.call? id = none
    · rw [look?_absent hb]
      refine ⟨?_, nofun⟩
      cases hr : r.look? id with
      | none => exact h
      | some r' =>
        have h' := h.look_alone hb hr
        have hlater := (ih h').1
        rw [lookTimes_absent hb] at hlater
        simp only
        split
        · exact h'
        · exact hlater
    · have hlook := h.look? hb
      generalize r.look? id = r?, b.look? id = b? at hlook
      cases hlook with
      | none => exact ⟨h, nofun⟩
      | some hlook =>
        obtain ⟨h', hasleep⟩ := hlook
        simp only [hasleep]
        split
        · exact ⟨h', nofun⟩
        · exact ⟨(ih h').1, fun _ => rfl⟩

/-! ### Looks of all calls -/

theorem absent_lookTimes {id' : Nat} (hr : r.queue.call? id' = none) (n : Nat) :
    (r.lookTimes id n).2.queue.call? id' = none := by
  have hlooks := lookTimes_looks r id n
  generalize (r.lookTimes id n).2 = r' at hlooks
  induction hlooks with
  | refl => exact hr
  | tail _ hl ih =>
    obtain ⟨⟨t, out⟩, hs, rfl⟩ := Option.map_eq_some_iff.mp hl
    exact fresh_step hs ih (by simp [Event.made?])

theorem lookAll (h : Shadows hidden later r b) (p : Nat → Bool)
    (hp : ∀ id, p id = false → b.queue.call? id = none) (ids : List Nat) :
    Shadows hidden later (Scene.lookAll Scene.lookAt ids r).2
        (Scene.lookAll Scene.lookAt (ids.filter p) b).2 ∧
      ((Scene.lookAll Scene.lookAt (ids.filter p) b).1 = true →
        (Scene.lookAll Scene.lookAt ids r).1 = true) := by
  induction ids generalizing r b with
  | nil => exact ⟨h, nofun⟩
  | cons id ids ih =>
    obtain ⟨hfirst, hflag⟩ := h.lookTimes id 5
    simp only [Scene.lookAll, Scene.lookAt]
    by_cases hid : p id = true
    · obtain ⟨hrest, hflag'⟩ := ih hfirst fun id' hid' => absent_lookTimes (hp id' hid') 5
      rw [List.filter_cons_of_pos hid]
      refine ⟨hrest, fun hmoved => ?_⟩
      rcases Bool.or_eq_true_iff.mp hmoved with hmoved | hmoved
      · exact Bool.or_eq_true_iff.mpr (.inl (hflag hmoved))
      · exact Bool.or_eq_true_iff.mpr (.inr (hflag' hmoved))
    · rw [lookTimes_absent (hp id (by simpa using hid))] at hfirst
      obtain ⟨hrest, hflag'⟩ := ih hfirst hp
      rw [List.filter_cons_of_neg hid]
      exact ⟨hrest, fun hmoved => Bool.or_eq_true_iff.mpr (.inr (hflag' hmoved))⟩

theorem lookEach (h : Shadows hidden later r b) : Shadows hidden later r.lookEach.2 b.lookEach.2 ∧
    (b.lookEach.1 = true → r.lookEach.1 = true) := by
  unfold Scene.lookEach
  rw [h.ids]
  exact h.lookAll _ (fun id hid => by simpa using hid) _

/-! ## Rounds -/

theorem atRest (h : Shadows hidden later r b) : b.queue.AtRest ↔ r.queue.AtRest := by
  unfold State.AtRest
  simp only [h.work, Option.map_eq_none_iff]

variable (stores) in
theorem runWorkers_alone (h : Shadows hidden later r b) (hb : b.queue.AtRest) : r.runWorkers stores = r :=
  runWorkers_of_rest (h.atRest.mp hb)

theorem lookAll_alone (h : Shadows hidden later r b) (hb : ∀ id, b.queue.look id = none) (ids : List Nat) :
    Shadows hidden later (Scene.lookAll Scene.lookAt ids r).2 b := by
  induction ids generalizing r with
  | nil => exact h
  | cons id ids ih =>
    have hfirst := (h.lookTimes id 5).1
    have hstill : b.lookTimes id 5 = (false, b) := by
      have hlook : b.look? id = none := Option.map_eq_none_iff.mpr (hb id)
      rw [lookTimes_succ, hlook]
    rw [hstill] at hfirst
    exact ih hfirst

variable (stores) in
theorem rounds_alone (h : Shadows hidden later r b) (hb : Settled b.queue) (n : Nat) :
    Shadows hidden later (r.rounds stores Scene.lookAt n) b := by
  induction n generalizing r with
  | zero => exact h
  | succ n ih =>
    have hlook : Shadows hidden later r.lookEach.2 b := h.lookAll_alone hb.2 _
    rw [rounds_succ, h.runWorkers_alone stores hb.1, h.apply_expire]
    split
    · exact ih hlook
    · rw [hlook.runWorkers_alone stores hb.1]
      exact hlook

variable (stores) in
theorem rounds (h : Shadows hidden later r b) (hn : r.queue.further < n) (hm : b.queue.further < m) :
    Shadows hidden later (r.rounds stores Scene.lookAt n) (b.rounds stores Scene.lookAt m) := by
  induction n generalizing r b m with
  | zero => omega
  | succ n ih =>
    cases m with
    | zero => omega
    | succ m =>
      have h₁ := h.runWorkers stores
      have hrest := runWorkers_rest stores h.coherent_bare
      have hfurther := runWorkers_further r stores
      have hfurther' := runWorkers_further b stores
      rw [rounds_succ, rounds_succ, h₁.apply_expire, h₁.apply_expire_bare]
      generalize r.runWorkers stores = r₁, b.runWorkers stores = b₁ at h₁ hrest hfurther hfurther'
      obtain ⟨h₂, hflags⟩ := h₁.lookEach
      cases hb : b₁.lookEach.1 with
      | true =>
        have hless := (lookEach_further h₁.coherent).2 (hflags hb)
        have hless' := (lookEach_further h₁.coherent_bare).2 hb
        rw [if_pos (hflags hb), if_pos rfl]
        exact ih h₂ (by omega) (by omega)
      | false =>
        have hsettled := lookEach_settled h₁.coherent_bare hrest hb
        rw [if_neg Bool.false_ne_true]
        split
        · rw [runWorkers_of_rest hsettled.1]
          exact h₂.rounds_alone stores hsettled n
        · exact h₂.runWorkers stores

variable (stores) in
theorem settle (h : Shadows hidden later r b) : Shadows hidden later (r.settle stores Scene.lookAt)
    (b.settle stores Scene.lookAt) := by
  have hr := r.queue.further_le
  have hb := b.queue.further_le
  exact h.rounds stores (by omega) (by omega)

end Shadows

end WriteBehind.Queue
