import Mathlib.Data.List.Induction
import WriteBehind.Proofs.Queue.Reports

/-!
# Failures that surface

A failure that a fence takes is returned by the call of that fence and by nobody else: at once by a
barrier, at its end by a closing call, which keeps it until the workers have exited.
-/

namespace WriteBehind.Queue

variable {κ ι : Type}

/-! ## Errors that fences take -/

def Report.error? : Report κ → Option Error
  | .taken _ (.error e) => some e
  | _ => none

def takenErrors (history : List (Report κ)) : List Error := history.filterMap Report.error?

def Notice.deferred? : Notice κ ι → Option Error
  | .returned _ (.error e) => if e.isDeferred then some e else none
  | _ => none

def surfacedErrors (out : List (Notice κ ι)) : List Error := out.filterMap Notice.deferred?

theorem surfacedErrors_append (out o : List (Notice κ ι)) :
    surfacedErrors (out ++ o) = surfacedErrors out ++ surfacedErrors o := List.filterMap_append

theorem mem_takenErrors {history : List (Report κ)} {e : Error} :
    e ∈ takenErrors history ↔ ∃ id, .taken id (.error e) ∈ history := by
  unfold takenErrors
  rw [List.mem_filterMap]
  constructor
  · intro ⟨r, hr, he⟩
    cases r with
    | failed => cases he
    | taken id result =>
      cases result with
      | ok => cases he
      | error => cases he; exact ⟨id, hr⟩
  · intro ⟨id, h⟩
    exact ⟨_, h, rfl⟩

theorem mem_surfacedErrors {out : List (Notice κ ι)} {id : Nat} {e : Error}
    (h : .returned id (.error e) ∈ out) (hd : e.isDeferred = true) : e ∈ surfacedErrors out :=
  List.mem_filterMap.mpr ⟨_, h, by simp [Notice.deferred?, hd]⟩

theorem of_mem_surfacedErrors {out : List (Notice κ ι)} {e : Error} (h : e ∈ surfacedErrors out) :
    ∃ id, .returned id (.error e) ∈ out ∧ e.isDeferred = true := by
  obtain ⟨n, hn, he⟩ := List.mem_filterMap.mp h
  unfold Notice.deferred? at he
  split at he
  · rename_i id err
    split at he
    · rename_i hd
      cases he
      exact ⟨id, hn, hd⟩
    · cases he
  · cases he

theorem surfacedErrors_returned (id : Nat) (err : Error) :
    surfacedErrors [(.returned id (.error err) : Notice κ ι)] = if err.isDeferred then [err] else [] := by
  unfold surfacedErrors
  rw [List.filterMap_cons]
  unfold Notice.deferred?
  by_cases h : err.isDeferred = true <;> simp [h]

variable [Named κ]

theorem error_nodup {failures : List (Failure κ)} (h : (failures.map (·.sequence)).Nodup) :
    (failures.map Failure.error).Nodup := by
  refine List.pairwise_map.mpr ((List.pairwise_map.mp h).imp ?_)
  intro f f' hne heq
  exact hne (Error.deferred.inj heq).2.1

/-- What fences have taken and what they have not taken are failures of the history, each once. -/
theorem takenErrors_sublist (history : List (Report κ))
    (taken : ∀ before id r after, history = before ++ .taken id r :: after →
      r = surfaced (unreported before).head?) :
    (takenErrors history ++ (unreported history).map Failure.error).Sublist
      ((failures history).map Failure.error) := by
  induction history using List.reverseRecOn with
  | nil => exact List.nil_sublist _
  | append_singleton history r ih =>
    have ih := ih fun before id r' after heq => taken before id r' (after ++ [r]) (by simp [heq])
    rw [unreported_snoc, failures_append]
    unfold takenErrors at ih ⊢
    rw [List.filterMap_append]
    cases r with
    | failed f =>
      have := ih.append (List.Sublist.refl [f.error])
      simpa [unreported1, Report.error?, failures, Report.failed?, List.filterMap_cons] using this
    | taken id result =>
      have hr := taken history id result [] rfl
      subst hr
      refine List.Sublist.trans ?_ (ih.trans (by simp))
      cases hu : unreported history with
      | nil => simp [unreported1, surfaced, Report.error?]
      | cons f rest => simp [unreported1, surfaced, Report.error?]

/-! ## Steps -/

variable {s t : State κ ι} {out o : List (Notice κ ι)} {history later : List (Report κ)} {id : Nat}
  {e : Event κ ι}

def CallPhase.flushed? : CallPhase → Option (Except Error Unit)
  | .flushed r | .stopping r | .joining r _ | .ending r => some r
  | _ => none

def CallPhase.kept? (phase : CallPhase) : Option Error :=
  match phase.flushed? with
  | some (.error e) => some e
  | _ => none

def State.kept? (s : State κ ι) (id : Nat) : Option Error := (s.phase? id).bind (·.kept?)

omit [Named κ] in
theorem State.kept?_congr (h : t.phase? id = s.phase? id) : t.kept? id = s.kept? id :=
  congrArg (Option.bind · CallPhase.kept?) h

inductive Surfaces (s t : State κ ι) (id : Nat) : List (Notice κ ι) → List (Report κ) → Prop where
  | quiet {o : List (Notice κ ι)} {later : List (Report κ)} (none : surfacedErrors o = [])
    (kept : ∀ err, t.kept? id = some err → s.kept? id = some err) : Surfaces s t id o later
  | returns {o : List (Notice κ ι)} (f : Failure κ) (held : s.failure = some f)
    (surfaces : surfacedErrors o = [f.error])
    (returned : ∀ id' err, .returned id' (.error err) ∈ o → id' = id ∧ err = f.error)
    (gone : t.kept? id = none) : Surfaces s t id o [.taken id (.error f.error)]
  | keeps {o : List (Notice κ ι)} (f : Failure κ) (held : s.failure = some f)
    (none : surfacedErrors o = []) (kept : t.kept? id = some f.error) :
    Surfaces s t id o [.taken id (.error f.error)]
  | ends {o : List (Notice κ ι)} {later : List (Report κ)} (err : Error) (before : s.kept? id = some err)
    (returned : ∀ id' err', .returned id' (.error err') ∈ o → id' = id ∧ err' = err)
    (surfaces : ∀ err' ∈ surfacedErrors o, err' = err) (single : (surfacedErrors o).Nodup)
    (gone : t.kept? id = none) : Surfaces s t id o later

theorem Made.surfaces {a? : Option (Acceptance κ ι)} (h : Made s t e o id a?) : Surfaces s t id o later := by
  have hi := h.phase
  have : surfacedErrors o = [] ∧ t.kept? id = none := by
    unfold State.kept?
    generalize t.phase? id = phase? at hi ⊢
    cases hi with
    | refused error direct => exact ⟨by simp [surfacedErrors, Notice.deferred?, direct], rfl⟩
    | _ => exact ⟨by simp [surfacedErrors, Notice.deferred?], rfl⟩
  exact .quiet this.1 (by simp [this.2])

theorem Looked.surfaces {phase : CallPhase} (hp : s.phase? id = some phase)
    (h : Looked s t id phase (t.phase? id) o) : Surfaces s t id o (takenBy s t id o) := by
  have hs : s.kept? id = phase.kept? := congrArg (Option.bind · CallPhase.kept?) hp
  have ht : t.kept? id = (t.phase? id).bind (·.kept?) := rfl
  generalize hq : t.phase? id = phase? at h ht
  unfold takenBy
  rw [hp, hq]
  cases h with
  | reported target =>
    cases hf : s.failure with
    | none => exact .quiet rfl (by simp [ht])
    | some f =>
      refine .returns f hf ?_ (by simp [surfaced, Except.map]) ht
      exact (surfacedErrors_returned id f.error).trans (if_pos rfl)
  | flushed target =>
    cases hf : s.failure with
    | none => exact .quiet rfl (by simp [ht, hf, surfaced, CallPhase.kept?, CallPhase.flushed?])
    | some f =>
      rw [hf] at ht
      exact .keeps f hf rfl ht
  | ended flushed =>
    cases flushed with
    | ok =>
      unfold closing
      cases hf : s.failure with
      | none => exact .quiet rfl (by simp [ht])
      | some f =>
        refine .returns f hf ?_ (by simp [surfaced, Except.map]) ht
        exact (surfacedErrors_returned id f.error).trans (if_pos rfl)
    | error err =>
      unfold closing
      refine .ends err hs (by simp) ?_ ?_ ht
      · rw [surfacedErrors_returned]
        split <;> simp
      · rw [surfacedErrors_returned]
        split <;> simp
  | asleep => exact .quiet rfl fun err he => by rw [hs, ← he, ht]; rfl
  | shut => exact .quiet rfl fun err he => by rw [hs, ← he, ht]; rfl
  | taken => exact .quiet rfl fun err he => by rw [hs, ← he, ht]; rfl
  | joined => exact .quiet rfl fun err he => by rw [hs, ← he, ht]; rfl
  | accepted => exact .quiet (by simp [surfacedErrors, Notice.deferred?]) (by simp [ht])
  | fenced =>
    have hnone : t.kept? id = none := ht
    exact .quiet (by simp [surfacedErrors, Notice.deferred?]) (by simp [hnone])
  | lent =>
    have hnone : t.kept? id = none := ht
    exact .quiet (by simp [surfacedErrors, Notice.deferred?]) (by simp [hnone])
  | refused => exact .quiet (by simp [surfacedErrors, Notice.deferred?, Error.isDeferred]) (by simp [ht])

/-! ## Runs -/

structure Told (history : List (Report κ)) (out : List (Notice κ ι)) (s : State κ ι) : Prop where
  nodup : (surfacedErrors out).Nodup
  told : ∀ id err, .returned id (.error err) ∈ out → err.isDeferred = true →
    .taken id (.error err) ∈ history
  /-- What a closing call keeps, its own fence has taken, and nobody has returned. -/
  carried : ∀ id err, s.kept? id = some err → .taken id (.error err) ∈ history ∧ err ∉ surfacedErrors out
  apart : ∀ id id' err, s.kept? id = some err → s.kept? id' = some err → id = id'

omit [Named κ] in
theorem Told.quiet (h : Told history out s) (none : surfacedErrors o = [])
    (kept : ∀ id err, t.kept? id = some err → s.kept? id = some err) :
    Told (history ++ later) (out ++ o) t := by
  have hout : surfacedErrors (out ++ o) = surfacedErrors out := by
    rw [surfacedErrors_append, none, List.append_nil]
  constructor
  case nodup => exact hout ▸ h.nodup
  case told =>
    intro id err hn hd
    rcases List.mem_append.mp hn with hn | hn
    · exact List.mem_append_left _ (h.told id err hn hd)
    · have := mem_surfacedErrors hn hd
      rw [none] at this
      cases this
  case carried =>
    intro id err hp
    obtain ⟨ht, hn⟩ := h.carried id err (kept id err hp)
    exact ⟨List.mem_append_left _ ht, hout ▸ hn⟩
  case apart =>
    intro id id' err hp hp'
    exact h.apart id id' err (kept id err hp) (kept id' err hp')

omit [Named κ] in
theorem Told.taken_of_surfaced (h : Told history out s) {err : Error} (he : err ∈ surfacedErrors out) :
    err ∈ takenErrors history := by
  obtain ⟨id, hn, hd⟩ := of_mem_surfacedErrors he
  exact mem_takenErrors.mpr ⟨id, h.told id err hn hd⟩

theorem Failures.fresh (h : Failures history out s) {f : Failure κ} (hf : s.failure = some f) :
    f.error ∉ takenErrors history := by
  have hs := (error_nodup h.once).sublist (takenErrors_sublist history h.taken)
  have hu : f ∈ unreported history := List.mem_of_head? (h.held.symm.trans hf)
  intro hm
  exact (List.nodup_append.mp hs).2.2 _ hm _ (List.mem_map.mpr ⟨f, hu, rfl⟩) rfl

theorem Told.returns (h : Told history out s) (hf : Failures history out s) {f : Failure κ}
    (held : s.failure = some f) (surfaces : surfacedErrors o = [f.error])
    (returned : ∀ id' err, .returned id' (.error err) ∈ o → id' = id ∧ err = f.error)
    (old : ∀ id' err, t.kept? id' = some err → s.kept? id' = some err) :
    Told (history ++ [.taken id (.error f.error)]) (out ++ o) t := by
  have hfresh := hf.fresh held
  constructor
  case nodup =>
    rw [surfacedErrors_append, surfaces]
    refine List.nodup_append.mpr ⟨h.nodup, by simp, ?_⟩
    rintro err he err' he' rfl
    rw [List.mem_singleton] at he'
    exact hfresh (he' ▸ h.taken_of_surfaced he)
  case told =>
    intro id' err hn hd
    rcases List.mem_append.mp hn with hn | hn
    · exact List.mem_append_left _ (h.told id' err hn hd)
    · obtain ⟨rfl, rfl⟩ := returned id' err hn
      exact List.mem_append_right _ (List.mem_singleton_self _)
  case carried =>
    intro id' err hp
    obtain ⟨ht, hn⟩ := h.carried id' err (old id' err hp)
    refine ⟨List.mem_append_left _ ht, ?_⟩
    rw [surfacedErrors_append, surfaces, List.mem_append, List.mem_singleton]
    rintro (he | rfl)
    · exact hn he
    · exact hfresh (mem_takenErrors.mpr ⟨id', ht⟩)
  case apart =>
    intro id₁ id₂ err hp hp'
    exact h.apart id₁ id₂ err (old _ _ hp) (old _ _ hp')

theorem Told.keeps (h : Told history out s) (hf : Failures history out s) {f : Failure κ}
    (held : s.failure = some f) (none : surfacedErrors o = [])
    (kept : ∀ id' err, t.kept? id' = some err → id' = id ∧ err = f.error ∨ s.kept? id' = some err) :
    Told (history ++ [.taken id (.error f.error)]) (out ++ o) t := by
  have hfresh := hf.fresh held
  -- Nothing is told, so what was told and what the other calls keep stands as before.
  have hquiet : Told (history ++ [.taken id (.error f.error)]) (out ++ o) s := h.quiet none fun _ _ hp => hp
  constructor
  case nodup => exact hquiet.nodup
  case told => exact hquiet.told
  case carried =>
    intro id' err hp
    obtain ⟨rfl, rfl⟩ | hp := kept id' err hp
    · refine ⟨by simp, fun he => hfresh (h.taken_of_surfaced ?_)⟩
      rwa [surfacedErrors_append, none, List.append_nil] at he
    · exact hquiet.carried id' err hp
  case apart =>
    intro id₁ id₂ err hp₁ hp₂
    obtain ⟨rfl, rfl⟩ | hs₁ := kept id₁ err hp₁
    · obtain ⟨rfl, _⟩ | hs₂ := kept id₂ _ hp₂
      · rfl
      · exact absurd (mem_takenErrors.mpr ⟨id₂, (h.carried id₂ _ hs₂).1⟩) hfresh
    · obtain ⟨rfl, rfl⟩ | hs₂ := kept id₂ err hp₂
      · exact absurd (mem_takenErrors.mpr ⟨id₁, (h.carried id₁ _ hs₁).1⟩) hfresh
      · exact h.apart id₁ id₂ err hs₁ hs₂

omit [Named κ] in
theorem Told.ends (h : Told history out s) {err : Error} (before : s.kept? id = some err)
    (returned : ∀ id' err', .returned id' (.error err') ∈ o → id' = id ∧ err' = err)
    (surfaces : ∀ err' ∈ surfacedErrors o, err' = err) (single : (surfacedErrors o).Nodup)
    (old : ∀ id' err, t.kept? id' = some err → id' ≠ id ∧ s.kept? id' = some err) :
    Told (history ++ later) (out ++ o) t := by
  have hbefore := h.carried id err before
  constructor
  case nodup =>
    rw [surfacedErrors_append]
    refine List.nodup_append.mpr ⟨h.nodup, single, ?_⟩
    rintro err₁ he err₂ he' rfl
    rw [surfaces err₁ he'] at he
    exact hbefore.2 he
  case told =>
    intro id' err' hn hd
    rcases List.mem_append.mp hn with hn | hn
    · exact List.mem_append_left _ (h.told id' err' hn hd)
    · obtain ⟨rfl, rfl⟩ := returned id' err' hn
      exact List.mem_append_left _ hbefore.1
  case carried =>
    intro id' err' hp
    obtain ⟨hid, hs⟩ := old id' err' hp
    obtain ⟨ht, hn⟩ := h.carried id' err' hs
    refine ⟨List.mem_append_left _ ht, ?_⟩
    rw [surfacedErrors_append, List.mem_append]
    rintro (he | he)
    · exact hn he
    · rw [surfaces err' he] at hs
      exact hid (h.apart id' id err hs before)
  case apart =>
    intro id₁ id₂ err hp hp'
    exact h.apart id₁ id₂ err (old _ _ hp).2 (old _ _ hp').2

theorem Told.surfaces (h : Told history out s) (hf : Failures history out s)
    (aside : ∀ id', id' ≠ id → t.kept? id' = s.kept? id') (hs : Surfaces s t id o later) :
    Told (history ++ later) (out ++ o) t := by
  -- A call that keeps a failure is another one, so it kept the failure before.
  have old : t.kept? id = none → ∀ id' err, t.kept? id' = some err →
      id' ≠ id ∧ s.kept? id' = some err := by
    intro hnone id' err hp
    have hid : id' ≠ id := by
      rintro rfl
      rw [hnone] at hp
      cases hp
    exact ⟨hid, aside id' hid ▸ hp⟩
  cases hs with
  | quiet none kept =>
    refine h.quiet none fun id' err hp => ?_
    by_cases hid : id' = id
    · subst hid
      exact kept err hp
    · exact aside id' hid ▸ hp
  | returns f held surfaces returned gone =>
    exact h.returns hf held surfaces returned fun id' err hp => (old gone id' err hp).2
  | keeps f held none kept =>
    refine h.keeps hf held none fun id' err hp => ?_
    by_cases hid : id' = id
    · subst hid
      rw [kept] at hp
      cases hp
      exact .inl ⟨rfl, rfl⟩
    · exact .inr (aside id' hid ▸ hp)
  | ends err before returned surfaces single gone =>
    exact h.ends before returned surfaces single (old gone)

variable [DecidableEq κ]

theorem Told.step (h : Told history out s) (hf : Failures history out s) (hb : s.pool.Balanced)
    (he : step s e = some (t, o)) : Told (history ++ reported s e (t, o)) (out ++ o) t := by
  cases hid : e.call? with
  | none =>
    have haside : ∀ id, Aside s t o id := fun id => step_aside he (by simp [hid])
    refine h.quiet (List.eq_nil_iff_forall_not_mem.mpr fun err hm => ?_) fun id err hp => ?_
    · obtain ⟨id, hn, _⟩ := of_mem_surfacedErrors hm
      exact (haside id).silent _ hn rfl
    · rwa [State.kept?_congr (haside id).phase?] at hp
  | some id =>
    have haside : ∀ id', id' ≠ id → t.kept? id' = s.kept? id' := by
      intro id' hne
      refine State.kept?_congr (step_aside he ?_).phase?
      rw [hid]
      exact fun heq => hne (Option.some.inj heq).symm
    obtain hm | ⟨conn, _, ⟨hp, rfl⟩ | ⟨result, _, hc, rfl⟩⟩ | ⟨rfl, phase, hp, hl⟩ := step_call hb he hid
    · exact h.surfaces hf haside hm.surfaces
    · exact h.surfaces hf haside (.quiet rfl (by simp [State.kept?, hp, CallPhase.kept?, CallPhase.flushed?]))
    · refine h.surfaces hf haside (.quiet ?_ (by simp [State.kept?, State.phase?, hc]))
      cases result with
      | ok => rfl
      | error => exact surfacedErrors_returned id _
    · exact h.surfaces hf haside (hl.surfaces hp)

variable {config : QueueConfig} {connections : List Connection} {events : List (Event κ ι)}

theorem Begins.told (h : Begins config connections s) (hr : run s events = some (t, out)) :
    Told (reports s events) out t := by
  refine run_induction (P := fun events out t => Told (reports s events) out t) ?_ ?_ hr
  · exact ⟨List.nodup_nil, by simp, by simp [State.kept?, h.phase?], by simp [State.kept?, h.phase?]⟩
  · intro events o t e u o' hr hp he
    rw [show reports s (events ++ [e]) = _ from observe_snoc hr he]
    exact hp.step (h.failures hr) (h.tended.run hr).balanced he

end WriteBehind.Queue
