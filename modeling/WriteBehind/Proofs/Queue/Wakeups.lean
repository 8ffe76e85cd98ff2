import Mathlib.Algebra.BigOperators.Group.Finset.Piecewise
import WriteBehind.Proofs.Buffer.Claimable
import WriteBehind.Proofs.Queue.Tended

/-!
# Wake-ups

A worker that sleeps relies on others to wake it. While one sleeps, there are as many looks to come as there
are entries that can be claimed: every worker that is awake looks, and a worker that was woken while it
drained an entry wakes another one in its place. In a closed queue, a worker that sleeps waits for an entry
that is drained.
-/

namespace WriteBehind.Queue

variable {κ ι : Type} {workers : List (Phase κ ι)} {ph ph' : Phase κ ι} {b b' : Bell} {v w : Nat}

/-! ## Sums over numbered workers -/

def weigh (f : Nat → Phase κ ι → Nat) (workers : List (Phase κ ι)) : Nat :=
  ∑ v ∈ Finset.range workers.length, (workers[v]?).elim 0 (f v)

theorem weigh_set {f g : Nat → Phase κ ι → Nat} (hw : workers[w]? = some ph) (ph' : Phase κ ι)
    (h : ∀ v, v ≠ w → ∀ ph, g v ph = f v ph) :
    weigh g (workers.set w ph') + f w ph = weigh f workers + g w ph' := by
  have hlt : w < workers.length := (List.getElem?_eq_some_iff.mp hw).1
  have hm : w ∈ Finset.range workers.length := Finset.mem_range.mpr hlt
  have hothers : ∑ v ∈ (Finset.range workers.length).erase w, ((workers.set w ph')[v]?).elim 0 (g v) =
      ∑ v ∈ (Finset.range workers.length).erase w, (workers[v]?).elim 0 (f v) := by
    refine Finset.sum_congr rfl fun v hv => ?_
    have hne := Finset.ne_of_mem_erase hv
    rw [List.getElem?_set_ne hne.symm]
    cases workers[v]? with
    | none => rfl
    | some ph => exact h v hne ph
  have hself : (workers.set w ph')[w]? = some ph' := by simp [hlt]
  unfold weigh
  rw [List.length_set, ← Finset.add_sum_erase _ _ hm, ← Finset.add_sum_erase _ _ hm, hothers, hself, hw]
  simp only [Option.elim_some]
  omega

theorem weigh_congr {f g : Nat → Phase κ ι → Nat} (hw : workers[w]? = some ph)
    (h : ∀ v, v ≠ w → ∀ ph, g v ph = f v ph) : weigh g workers + f w ph = weigh f workers + g w ph := by
  have hset := weigh_set hw ph h
  obtain ⟨hlt, rfl⟩ := List.getElem?_eq_some_iff.mp hw
  rwa [List.set_getElem_self] at hset

/-! ## Bells -/

namespace Bell

/-- A worker cannot tell two bells apart. -/
structure Agrees (b b' : Bell) (v : Nat) : Prop where
  waiters : v ∈ b'.waiters ↔ v ∈ b.waiters
  woken : v ∈ b'.woken ↔ v ∈ b.woken
  alert : v ∈ b'.alert ↔ v ∈ b.alert

theorem ask_eq (b : Bell) (w : Nat) : b.ask w =
    if b.permit then
      { b with permit := false, woken := b.woken.filter (· ≠ w), alert := b.alert ++ [w] }
    else
      { b with
        waiters := b.waiters ++ [w]
        woken := b.woken.filter (· ≠ w)
        alert := b.alert ++ [w] } := rfl

theorem ask_agrees (b : Bell) (h : v ≠ w) : Agrees b (b.ask w) v := by
  rw [ask_eq]
  constructor <;> split <;> simp [h]

theorem look_agrees (b : Bell) (h : v ≠ w) : Agrees b (b.look w) v := by
  constructor <;> simp [look, h]

theorem without_agrees (b : Bell) (h : v ≠ w) : Agrees b (b.without w) v := by
  constructor <;> simp [without, h]

theorem ringOne_of_nil (h : b.waiters = []) : b.ringOne = { b with permit := true } := by
  simp [ringOne, h]

theorem ringOne_of_cons {rest : List Nat} (h : b.waiters = w :: rest) :
    b.ringOne = { b with waiters := rest, woken := b.woken ++ [w] } := by
  simp [ringOne, h]

theorem ringOne_subset (b : Bell) : b.ringOne.waiters ⊆ b.waiters := by
  cases h : b.waiters with
  | nil => simp [ringOne_of_nil h, h]
  | cons x rest => simp [ringOne_of_cons h]

theorem without_subset (b : Bell) (w : Nat) : (b.without w).waiters ⊆ b.waiters := by
  simp [without]

theorem leave_subset (b : Bell) (w : Nat) : (b.leave w).waiters ⊆ b.waiters := by
  unfold leave
  split
  · exact List.Subset.trans (ringOne_subset _) (b.without_subset w)
  · exact b.without_subset w

theorem not_mem_leave (b : Bell) (w : Nat) : w ∉ (b.leave w).waiters := by
  have hnot : w ∉ (b.without w).waiters := by simp [without]
  unfold leave
  split
  · exact fun h => hnot (ringOne_subset _ h)
  · exact hnot

theorem ringOne_alert (b : Bell) : b.ringOne.alert = b.alert := by
  unfold ringOne
  split <;> rfl

theorem leave_alert (b : Bell) (w : Nat) : (b.leave w).alert = b.alert := by
  unfold leave
  split
  · exact ringOne_alert _
  · rfl

/-- The list holds workers that have not exited, each of them once, and nobody who was woken. -/
structure Sound (b : Bell) (workers : List (Phase κ ι)) : Prop where
  nodup : b.waiters.Nodup
  apart : ∀ v ∈ b.waiters, v ∉ b.woken
  listed : ∀ v ∈ b.waiters, ∃ ph, workers[v]? = some ph ∧ ph.isExited = false

theorem Sound.ringOne (h : b.Sound workers) : b.ringOne.Sound workers := by
  cases hb : b.waiters with
  | nil =>
    rw [ringOne_of_nil hb]
    exact ⟨h.nodup, h.apart, h.listed⟩
  | cons x rest =>
    have hnodup := h.nodup
    rw [hb, List.nodup_cons] at hnodup
    have hrest : ∀ v ∈ rest, v ∈ b.waiters := fun v hv => hb ▸ List.mem_cons_of_mem x hv
    rw [ringOne_of_cons hb]
    refine ⟨hnodup.2, fun v hv hm => ?_, fun v hv => h.listed v (hrest v hv)⟩
    rcases List.mem_append.mp hm with hm | hm
    · exact h.apart v (hrest v hv) hm
    · exact hnodup.1 (List.mem_singleton.mp hm ▸ hv)

theorem Sound.without (h : b.Sound workers) (w : Nat) : (b.without w).Sound workers := by
  refine ⟨h.nodup.filter _, fun v hv hm => ?_, fun v hv => h.listed v (b.without_subset w hv)⟩
  exact h.apart v (b.without_subset w hv) (List.mem_filter.mp hm).1

theorem Sound.leave (h : b.Sound workers) (w : Nat) : (b.leave w).Sound workers := by
  unfold Bell.leave
  split
  · exact (h.without w).ringOne
  · exact h.without w

theorem Sound.ask (h : b.Sound workers) (hw : workers[w]? = some ph) (runs : ph.isExited = false)
    (unlisted : w ∉ b.waiters) : (b.ask w).Sound workers := by
  rw [ask_eq]
  split
  · exact ⟨h.nodup, fun v hv hm => h.apart v hv (List.mem_filter.mp hm).1, h.listed⟩
  · refine ⟨?_, fun v hv hm => ?_, fun v hv => ?_⟩
    · exact h.nodup.append (List.nodup_singleton w) (List.disjoint_singleton.mpr unlisted)
    · obtain ⟨hm, hne⟩ := List.mem_filter.mp hm
      rcases List.mem_append.mp hv with hv | hv
      · exact h.apart v hv hm
      · simp [List.mem_singleton.mp hv] at hne
    · rcases List.mem_append.mp hv with hv | hv
      · exact h.listed v hv
      · exact List.mem_singleton.mp hv ▸ ⟨ph, hw, runs⟩

theorem Sound.set (h : b.Sound workers) (hl : w ∈ b.waiters → ph'.isExited = false) :
    b.Sound (workers.set w ph') := by
  refine ⟨h.nodup, h.apart, fun v hv => ?_⟩
  obtain ⟨ph, hph, runs⟩ := h.listed v hv
  by_cases heq : w = v
  · subst heq
    have hlt : w < workers.length := (List.getElem?_eq_some_iff.mp hph).1
    exact ⟨ph', by simp [hlt], hl hv⟩
  · exact ⟨ph, by rw [List.getElem?_set_ne heq]; exact hph, runs⟩

/-! ### Looks to come -/

/-- The looks that a worker sees to: its own if it is awake, and one more if it was woken while it was
about to look or drained an entry. -/
def owes (b : Bell) (v : Nat) : Phase κ ι → Nat
  | .idle => (if v ∈ b.waiters ∧ v ∉ b.alert then 0 else 1) + if v ∈ b.woken ∧ v ∈ b.alert then 1 else 0
  | .exited => 0
  | _ => if v ∈ b.woken then 1 else 0

theorem owes_drains (b : Bell) (v : Nat) (drains : ph.entry?.isSome = true) :
    b.owes v ph = if v ∈ b.woken then 1 else 0 := by
  cases ph with
  | idle | exited => cases drains
  | _ => rfl

theorem Agrees.owes (h : Agrees b b' v) (ph : Phase κ ι) : b'.owes v ph = b.owes v ph := by
  cases ph <;> simp [Bell.owes, h.waiters, h.woken, h.alert]

def owed (b : Bell) (workers : List (Phase κ ι)) : Nat := weigh b.owes workers

/-- A bell that is rung while somebody is on the list brings one more look. -/
theorem Sound.owed_ringOne (h : b.Sound workers) (hne : b.waiters ≠ []) :
    b.ringOne.owed workers = b.owed workers + 1 := by
  obtain ⟨x, rest, hb⟩ := List.exists_cons_of_ne_nil hne
  have hx : x ∈ b.waiters := by simp [hb]
  have hrest : x ∉ rest := by
    have hnodup := h.nodup
    rw [hb, List.nodup_cons] at hnodup
    exact hnodup.1
  obtain ⟨ph, hph, runs⟩ := h.listed x hx
  have hsum := weigh_congr (f := b.owes) (g := b.ringOne.owes) hph fun v hv ph =>
    Agrees.owes ⟨by simp [ringOne_of_cons hb, hb, hv], by simp [ringOne_of_cons hb, hv],
      by simp [ringOne_of_cons hb]⟩ ph
  have hmore : b.ringOne.owes x ph = b.owes x ph + 1 := by
    have hnot := h.apart x hx
    rw [ringOne_of_cons hb]
    cases ph with
    | idle => by_cases ha : x ∈ b.alert <;> simp [owes, hx, hrest, hnot, ha]
    | exited => cases runs
    | _ => simp [owes, hnot]
  unfold owed
  omega

theorem Sound.owed_leave (h : b.Sound workers) (hw : workers[w]? = some ph) (drains : ph.entry?.isSome = true)
    (hne : (b.leave w).waiters ≠ []) : (b.leave w).owed workers = b.owed workers := by
  have hsum := weigh_congr (f := b.owes) (g := (b.without w).owes) hw fun v hv ph =>
    (b.without_agrees hv).owes ph
  rw [owes_drains b w drains, owes_drains _ w drains] at hsum
  have hgone : w ∉ (b.without w).woken := by simp [Bell.without]
  unfold Bell.leave at hne ⊢
  split
  · rename_i hwoken
    rw [if_pos hwoken] at hne
    have hlisted : (b.without w).waiters ≠ [] := fun hnil => hne (by simp [ringOne_of_nil hnil, hnil])
    rw [(h.without w).owed_ringOne hlisted]
    simp only [hwoken, hgone, if_true, if_false] at hsum
    exact hsum
  · rename_i hwoken
    simp only [hwoken, hgone, if_false] at hsum
    exact hsum

end Bell

/-! ## Workers that sleep -/

structure State.Asleep (s : State κ ι) (v : Nat) : Prop where
  idle : s.workers[v]? = some .idle
  listed : v ∈ s.bell.waiters
  unready : v ∉ s.bell.alert

variable {s t : State κ ι} {out : List (Notice κ ι)} {e : Event κ ι} {id : Nat}

/-- Whoever sleeps relies on somebody. -/
structure Wakeful [DecidableEq κ] (s : State κ ι) : Prop where
  sound : s.bell.Sound s.workers
  alert : ∀ v ∈ s.bell.alert, s.workers[v]? = some .idle
  covered : ∀ v, s.Asleep v → s.buffer.claimable.length ≤ s.bell.owed s.workers
  relies : s.closed = true → ∀ v, s.Asleep v → ∃ w d, s.draining w = some d

variable [DecidableEq κ]

theorem Wakeful.quiet (h : Wakeful s) (hbuffer : t.buffer = s.buffer) (hworkers : t.workers = s.workers)
    (hbell : t.bell = s.bell) (hclosed : t.closed = s.closed) : Wakeful t := by
  have hasleep : ∀ {v}, t.Asleep v → s.Asleep v := fun ha =>
    ⟨hworkers ▸ ha.idle, hbell ▸ ha.listed, hbell ▸ ha.unready⟩
  refine ⟨hbell ▸ hworkers ▸ h.sound, hbell ▸ hworkers ▸ h.alert, fun v ha => ?_, fun hc v ha => ?_⟩
  · rw [hbuffer, hbell, hworkers]
    exact h.covered v (hasleep ha)
  · obtain ⟨w, d, hd⟩ := h.relies (hclosed ▸ hc) v (hasleep ha)
    exact ⟨w, d, (State.draining_congr hworkers w).trans hd⟩

theorem Wakeful.accept (h : Wakeful s) {key : κ} {item : ι} (opened : s.closed = false)
    (hbuffer : t.buffer = (s.buffer.insert key item).2) (hworkers : t.workers = s.workers)
    (hbell : t.bell = if (s.buffer.insert key item).1.isCoalesced then s.bell else s.bell.ringOne)
    (hclosed : t.closed = s.closed) : Wakeful t := by
  have hcount := s.buffer.insert_claimable key item
  refine ⟨?_, ?_, fun v ha => ?_, fun hc => ?_⟩
  · rw [hbell, hworkers]
    split
    · exact h.sound
    · exact h.sound.ringOne
  · rw [hbell, hworkers]
    split
    · exact h.alert
    · rw [Bell.ringOne_alert]
      exact h.alert
  · have hidle := hworkers ▸ ha.idle
    have hlisted := ha.listed
    have hunready := ha.unready
    rw [hbuffer, hbell, hworkers]
    rw [hbell] at hlisted hunready
    split at hcount <;> rename_i hco <;>
      simp only [hco, if_true, Bool.false_eq_true, if_false] at hlisted hunready ⊢
    · exact hcount.trans (h.covered v ⟨hidle, hlisted, hunready⟩)
    · have hm := s.bell.ringOne_subset hlisted
      rw [Bell.ringOne_alert] at hunready
      rw [h.sound.owed_ringOne (List.ne_nil_of_mem hm)]
      exact hcount.trans (Nat.add_le_add_right (h.covered v ⟨hidle, hm, hunready⟩) 1)
  · rw [hclosed, opened] at hc
    cases hc

theorem Wakeful.shut (h : Wakeful s) (hworkers : t.workers = s.workers) (hbell : t.bell = s.bell.ringAll) :
    Wakeful t := by
  have hnobody : ∀ v, ¬ t.Asleep v := fun v ha => by
    have := ha.listed
    rw [hbell] at this
    cases this
  refine ⟨?_, hbell ▸ hworkers ▸ h.alert, fun v ha => absurd ha (hnobody v),
    fun _ v ha => absurd ha (hnobody v)⟩
  rw [hbell]
  exact ⟨List.nodup_nil, nofun, nofun⟩

theorem Wakeful.drain (h : Wakeful s) (ph' : Phase κ ι) (move : Moves s t w ph ph')
    (before : ph.entry?.isSome = true) (after : ph'.entry?.isSome = true) (hbuffer : t.buffer = s.buffer)
    (hbell : t.bell = s.bell) : Wakeful t := by
  have hself : t.workers[w]? = some ph' := by rw [move.worker, if_pos rfl]
  have hidle : ∀ {v : Nat}, t.workers[v]? = some .idle ↔ s.workers[v]? = some .idle := by
    intro v
    rw [move.worker]
    split
    · rename_i heq
      subst heq
      constructor
      · rintro ⟨⟩
        cases after
      · intro hi
        rw [move.before] at hi
        cases hi
        cases before
    · rfl
  refine ⟨?_, fun v hv => hidle.mpr (h.alert v (hbell ▸ hv)), fun v ha => ?_, fun _ v ha => ?_⟩
  · rw [hbell, move.after]
    exact h.sound.set fun _ => by cases ph' <;> first | rfl | cases after
  · have hsum := weigh_set (f := s.bell.owes) (g := s.bell.owes) move.before ph' fun _ _ _ => rfl
    rw [Bell.owes_drains _ w before, Bell.owes_drains _ w after] at hsum
    have hcovered := h.covered v ⟨hidle.mp ha.idle, hbell ▸ ha.listed, hbell ▸ ha.unready⟩
    rw [hbuffer, hbell, move.after]
    unfold Bell.owed at hcovered ⊢
    omega
  · obtain ⟨d, hd⟩ := Option.isSome_iff_exists.mp after
    exact ⟨w, d, by unfold State.draining; rw [hself]; exact hd⟩

omit [DecidableEq κ] in
theorem State.rung_of_opened (opened : s.closed = false) (claimable : Bool) :
    s.rung claimable = if claimable then s.bell.ringOne else s.bell := by
  simp [State.rung, opened]

omit [DecidableEq κ] in
theorem State.rung_of_closed (closed : s.closed = true) (claimable : Bool) :
    (s.rung claimable).waiters = [] := by
  simp [State.rung, closed, Bell.ringAll]

omit [DecidableEq κ] in
theorem State.rung_subset (s : State κ ι) (claimable : Bool) : (s.rung claimable).waiters ⊆ s.bell.waiters := by
  by_cases hc : s.closed = true
  · rw [rung_of_closed hc]
    exact List.nil_subset _
  · rw [rung_of_opened (by simpa using hc)]
    split
    · exact s.bell.ringOne_subset
    · exact List.Subset.refl _

omit [DecidableEq κ] in
theorem State.rung_alert (s : State κ ι) (claimable : Bool) : (s.rung claimable).alert = s.bell.alert := by
  unfold State.rung
  split <;> split <;> first | rfl | exact s.bell.ringOne_alert

omit [DecidableEq κ] in
theorem Bell.Sound.rung (h : s.bell.Sound s.workers) (claimable : Bool) :
    (s.rung claimable).Sound s.workers := by
  by_cases hc : s.closed = true
  · have hnobody := State.rung_of_closed hc claimable
    exact ⟨hnobody ▸ List.nodup_nil, hnobody ▸ nofun, hnobody ▸ nofun⟩
  · rw [State.rung_of_opened (by simpa using hc)]
    split
    · exact h.ringOne
    · exact h

omit [DecidableEq κ] in
theorem Bell.Sound.owed_rung (h : s.bell.Sound s.workers) (opened : s.closed = false) (claimable : Bool)
    (hne : s.bell.waiters ≠ []) :
    (s.rung claimable).owed s.workers = s.bell.owed s.workers + if claimable then 1 else 0 := by
  rw [State.rung_of_opened opened]
  split
  · exact h.owed_ringOne hne
  · rfl

omit [DecidableEq κ] in
/-- A worker whose entry has retired is awake, and passes on what woke it meanwhile. -/
theorem Bell.Sound.owed_idle (h : b.Sound workers) (hw : workers[w]? = some ph)
    (drains : ph.entry?.isSome = true) (unready : w ∉ b.alert) (hne : (b.leave w).waiters ≠ []) :
    b.owed workers ≤ (b.leave w).owed (workers.set w .idle) := by
  have hleaves := h.owed_leave hw drains hne
  have hsum := weigh_set (f := (b.leave w).owes) (g := (b.leave w).owes) hw .idle fun _ _ _ => rfl
  have hawake : (b.leave w).owes w (.idle : Phase κ ι) = 1 := by
    simp [Bell.owes, Bell.not_mem_leave, Bell.leave_alert, unready]
  have hgone : (b.leave w).owes w ph ≤ 1 := by
    rw [Bell.owes_drains _ w drains]
    split <;> omega
  unfold Bell.owed at *
  omega

theorem Wakeful.retire (h : Wakeful s) (hv : s.buffer.Valid) {entry : Claimed κ ι} {outcome : Outcome}
    (before : s.workers[w]? = some (.retiring entry outcome)) : Wakeful (s.retire w entry) := by
  have move : Moves s (s.retire w entry) w (.retiring entry outcome) .idle := ⟨before, rfl⟩
  have hunready : w ∉ s.bell.alert := fun ha => by cases (h.alert w ha).symm.trans before
  have hcount := hv.complete_claimable entry.key entry.sequence
  obtain ⟨claimable, hclaimable⟩ : ∃ c, c = (s.buffer.complete entry.key entry.sequence).1 := ⟨_, rfl⟩
  rw [← hclaimable] at hcount
  have hbell : (s.retire w entry).bell = (s.rung claimable).leave w := by
    rw [hclaimable]
    rfl
  have halert : (s.retire w entry).bell.alert = s.bell.alert := by
    rw [hbell, Bell.leave_alert, State.rung_alert]
  have hasleep : ∀ {v}, (s.retire w entry).Asleep v →
      v ≠ w ∧ v ∈ (s.rung claimable).waiters ∧ s.Asleep v := by
    intro v ha
    have hlisted := hbell ▸ ha.listed
    have hrung := Bell.leave_subset _ _ hlisted
    have hne : v ≠ w := by
      rintro rfl
      exact Bell.not_mem_leave _ _ hlisted
    have hidle := ha.idle
    rw [move.worker, if_neg hne.symm] at hidle
    exact ⟨hne, hrung, hidle, s.rung_subset claimable hrung, halert ▸ ha.unready⟩
  refine ⟨?_, fun v hv => ?_, fun v ha => ?_, fun hc v ha => ?_⟩
  · rw [hbell, move.after]
    exact ((h.sound.rung claimable).leave w).set fun _ => rfl
  · rw [halert] at hv
    have hne : w ≠ v := by
      rintro rfl
      exact hunready hv
    rw [move.worker, if_neg hne]
    exact h.alert v hv
  · obtain ⟨_, hrung, hbefore⟩ := hasleep ha
    have opened : s.closed = false := by
      by_contra hc
      rw [State.rung_of_closed (by simpa using hc)] at hrung
      cases hrung
    have hcovered := h.covered v hbefore
    -- Somebody stays on the list, so both what the retirement rings for and what woke the worker go to one
    -- who has a look to come.
    have hrings := h.sound.owed_rung opened claimable (List.ne_nil_of_mem hbefore.listed)
    have hleaves := (h.sound.rung claimable).owed_idle before rfl (s.rung_alert claimable ▸ hunready)
      (List.ne_nil_of_mem (hbell ▸ ha.listed))
    rw [hbell, move.after]
    show (s.buffer.complete entry.key entry.sequence).2.claimable.length ≤ _
    omega
  · obtain ⟨_, hrung, _⟩ := hasleep ha
    rw [State.rung_of_closed (show s.closed = true from hc)] at hrung
    cases hrung

omit [DecidableEq κ] in
theorem Bell.Sound.look (h : b.Sound workers) (w : Nat) : (b.look w).Sound workers :=
  ⟨h.nodup, h.apart, h.listed⟩

theorem claim_nothing (hv : s.buffer.Valid) {buffer : Buffer κ ι} (claim : s.buffer.claim = (none, buffer)) :
    s.buffer.claimable.length = 0 := by
  rw [hv.claimable_eq_nil (hv.claim_none claim).2]
  rfl

theorem Wakeful.ask (h : Wakeful s) (before : s.workers[w]? = some .idle) (unready : w ∉ s.bell.alert)
    (unlisted : w ∉ s.bell.waiters) : Wakeful { s with bell := s.bell.ask w } := by
  have hasleep : ∀ {v}, { s with bell := s.bell.ask w }.Asleep v → s.Asleep v := by
    intro v ha
    have hne : v ≠ w := by
      rintro rfl
      exact ha.unready (by rw [Bell.ask_eq]; split <;> simp)
    have hagrees := s.bell.ask_agrees hne
    exact ⟨ha.idle, hagrees.waiters.mp ha.listed, fun hm => ha.unready (hagrees.alert.mpr hm)⟩
  refine ⟨h.sound.ask before rfl unlisted, fun v hv => ?_, fun v ha => ?_, fun hc v ha => ?_⟩
  · by_cases hne : v = w
    · exact hne ▸ before
    · exact h.alert v ((s.bell.ask_agrees hne).alert.mp hv)
  · have hsum := weigh_congr (f := s.bell.owes) (g := (s.bell.ask w).owes) before fun v hv ph =>
      (s.bell.ask_agrees hv).owes ph
    have hawake : s.bell.owes w (.idle : Phase κ ι) = 1 := by simp [Bell.owes, unready, unlisted]
    have halert : (s.bell.ask w).owes w (.idle : Phase κ ι) = 1 := by
      rw [Bell.ask_eq]
      split <;> simp [Bell.owes]
    have hcovered := h.covered v (hasleep ha)
    unfold Bell.owed at hcovered ⊢
    show s.buffer.claimable.length ≤ weigh (s.bell.ask w).owes s.workers
    omega
  · exact h.relies hc v (hasleep ha)

theorem Wakeful.claim (h : Wakeful s) (hv : s.buffer.Valid) {entry : Claimed κ ι} {since : Nat}
    (move : Moves s t w .idle (.claimed ⟨entry, since⟩)) (alert : w ∈ s.bell.alert)
    (claim : s.buffer.claim = (some entry, t.buffer)) (hbell : t.bell = s.bell.look w) : Wakeful t := by
  have hself := move.worker w
  rw [if_pos rfl] at hself
  refine ⟨?_, fun v hv => ?_, fun v ha => ?_, fun _ v ha => ⟨w, entry, ?_⟩⟩
  · rw [hbell, move.after]
    exact (h.sound.look w).set fun _ => rfl
  · rw [hbell] at hv
    obtain ⟨hv, hne⟩ := List.mem_filter.mp hv
    rw [move.worker, if_neg (Ne.symm (of_decide_eq_true hne))]
    exact h.alert v hv
  · have hne : v ≠ w := by
      rintro rfl
      cases ha.idle.symm.trans hself
    have hidle := ha.idle
    rw [move.worker, if_neg hne.symm] at hidle
    have hagrees := s.bell.look_agrees hne
    have hcovered := h.covered v ⟨hidle, hagrees.waiters.mp (hbell ▸ ha.listed), fun hm =>
      ha.unready (hbell ▸ hagrees.alert.mpr hm)⟩
    have hsum := weigh_set (f := s.bell.owes) (g := (s.bell.look w).owes) move.before
      (.claimed ⟨entry, since⟩) fun v hv ph => (s.bell.look_agrees hv).owes ph
    have hbefore : s.bell.owes w (.idle : Phase κ ι) = 1 + if w ∈ s.bell.woken then 1 else 0 := by
      simp [Bell.owes, alert]
    have hafter : (s.bell.look w).owes w (.claimed ⟨entry, since⟩ : Phase κ ι) =
      if w ∈ s.bell.woken then 1 else 0 := rfl
    -- The worker has used up its look, and the entry that it has claimed can be claimed no more.
    have hless := hv.claim_claimable claim
    rw [hbell, move.after]
    unfold Bell.owed at hcovered ⊢
    omega
  · rw [move.draining, if_pos rfl]
    rfl

theorem Wakeful.exit (h : Wakeful s) (move : Moves s t w .idle .exited) (closed : s.closed = true)
    (nothing : t.buffer.claimable.length = 0) (hbell : t.bell = (s.bell.look w).leave w) : Wakeful t := by
  have hready : ∀ {v}, v ∈ t.bell.alert ↔ v ∈ s.bell.alert ∧ v ≠ w := by
    intro v
    rw [hbell, Bell.leave_alert]
    simp [Bell.look]
  have hasleep : ∀ {v}, t.Asleep v → s.Asleep v := by
    intro v ha
    have hlisted := hbell ▸ ha.listed
    have hne : v ≠ w := by
      rintro rfl
      exact Bell.not_mem_leave _ _ hlisted
    have hidle := ha.idle
    rw [move.worker, if_neg hne.symm] at hidle
    exact ⟨hidle, (s.bell.look w).leave_subset w hlisted, fun hm => ha.unready (hready.mpr ⟨hm, hne⟩)⟩
  refine ⟨?_, fun v hv => ?_, fun v _ => ?_, fun _ v ha => ?_⟩
  · rw [hbell, move.after]
    exact ((h.sound.look w).leave w).set fun hm => absurd hm (Bell.not_mem_leave _ _)
  · obtain ⟨hv, hne⟩ := hready.mp hv
    rw [move.worker, if_neg hne.symm]
    exact h.alert v hv
  · rw [nothing]
    exact Nat.zero_le _
  · obtain ⟨w', d, hd⟩ := h.relies closed v (hasleep ha)
    exact ⟨w', d, (move.keeps rfl w').trans hd⟩

/-- In a closed queue, what is pending when a worker falls asleep waits for an entry that is drained. -/
theorem Wakeful.sleep (h : Wakeful s) (hs : Tended s) {buffer : Buffer κ ι}
    (claim : s.buffer.claim = (none, buffer)) (needed : s.closed = true → s.buffer.pending.size ≠ 0) :
    Wakeful { s with bell := s.bell.look w } := by
  refine ⟨h.sound.look w, fun v hv => h.alert v (List.mem_filter.mp hv).1, fun v _ => ?_, fun hc _ _ => ?_⟩
  · show s.buffer.claimable.length ≤ _
    rw [claim_nothing hs.valid claim]
    exact Nat.zero_le _
  · have hpending := needed hc
    rw [Ne, Table.size_eq_zero, not_forall] at hpending
    obtain ⟨k, hk⟩ := hpending
    obtain ⟨p, hp⟩ := Option.ne_none_iff_exists'.mp hk
    have hflight := (hs.valid.claim_none claim).2 k p.sequence ⟨p, hp, rfl⟩
    obtain ⟨q, hq⟩ := Option.isSome_iff_exists.mp hflight
    obtain ⟨w', d, hd, _⟩ := (hs.flight k q).mp hq
    exact ⟨w', d, hd⟩

theorem Works.wakeful (hs : Tended s) (h : Wakeful s) (works : Works s w t out) : Wakeful t := by
  cases works with
  | asked before unready unlisted => exact h.ask before unready unlisted
  | claimed entry buffer before alert claim => exact h.claim hs.valid ⟨before, rfl⟩ alert claim rfl
  | exited buffer before alert claim closed =>
    exact h.exit ⟨before, rfl⟩ closed (claim_nothing hs.valid claim) rfl
  | slept buffer before alert claim needed => exact h.sleep hs claim needed
  | lent drain c pool asks =>
    obtain ⟨before, _⟩ | ⟨before, _⟩ := asks
    · exact h.drain (.ready drain c) ⟨before, rfl⟩ rfl rfl rfl rfl
    · exact h.drain (.ready drain c) ⟨before, rfl⟩ rfl rfl rfl rfl
  | waits drain pool before => exact h.drain (.borrowing drain) ⟨before, rfl⟩ rfl rfl rfl rfl
  | refused drain e pool asks =>
    obtain ⟨before, _⟩ | ⟨before, _⟩ := asks
    · exact h.drain (.ended drain.entry _) ⟨before, rfl⟩ rfl rfl rfl rfl
    · exact h.drain (.ended drain.entry _) ⟨before, rfl⟩ rfl rfl rfl rfl
  | begun drain c before => exact h.drain (.storing drain c.use) ⟨before, rfl⟩ rfl rfl rfl rfl
  | noted entry outcome before =>
    cases outcome with
    | ok | error => exact h.drain (.retiring entry _) ⟨before, rfl⟩ rfl rfl rfl rfl
  | retired entry outcome before => exact h.retire hs.valid before

variable [Named κ]

theorem Wakeful.step (hs : Tended s) (h : Wakeful s) (he : step s e = some (t, out)) : Wakeful t := by
  cases step_cases he with
  | made _ _ _ _ _ _ _ makes =>
    cases makes with
    | tried _ _ opened => exact h.accept opened rfl rfl rfl rfl
    | written _ _ opened => exact h.accept opened rfl rfl rfl rfl
    | fenced _ _ opened => exact h.accept opened rfl rfl rfl rfl
    | stalled _ _ _ opened => exact h.accept opened rfl rfl rfl rfl
    | _ => exact h.quiet rfl rfl rfl rfl
  | work _ _ _ works => exact works.wakeful hs h
  | finish w outcome drain c before =>
    exact h.drain (.ended drain.entry outcome) ⟨before, rfl⟩ rfl rfl rfl rfl
  | look _ _ _ _ _ looks =>
    cases looks with
    | shut => exact h.shut rfl rfl
    | _ => exact h.quiet rfl rfl rfl rfl
  | expire => exact h.shut rfl rfl
  | _ => exact h.quiet rfl rfl rfl rfl

theorem Begins.wakeful {config : QueueConfig} {connections : List Connection} {s₀ : State κ ι}
    {events : List (Event κ ι)} (h₀ : Begins config connections s₀) (hr : run s₀ events = some (s, out)) :
    Wakeful s := by
  refine run_induction (P := fun _ _ s => Wakeful s) ?_ ?_ hr
  · obtain ⟨_, _, _, rfl⟩ := h₀.eq
    have hnobody : ∀ {v}, v ∉ ({} : Bell).waiters := nofun
    exact ⟨⟨List.nodup_nil, nofun, nofun⟩, nofun, fun v ha => absurd ha.listed hnobody, nofun⟩
  · intro events o s e t o' hr h he
    exact h.step (h₀.tended.run hr) he

/-! ## Workers that pass a wake-up on -/

/-- Workers that drain an entry and were woken meanwhile. When the entry has retired, each of them looks
for the next one and wakes another worker. -/
def State.carriers (s : State κ ι) : Finset Nat :=
  (Finset.range s.workers.length).filter fun v => (s.draining v).isSome = true ∧ v ∈ s.bell.woken

omit [DecidableEq κ] [Named κ] in
theorem owed_eq_carriers (h : ∀ v : Nat, s.workers[v]? = some .idle → s.Asleep v) :
    s.bell.owed s.workers = s.carriers.card := by
  unfold State.carriers Bell.owed weigh
  rw [Finset.card_filter]
  refine Finset.sum_congr rfl fun v _ => ?_
  have hd : s.draining v = s.workers[v]?.bind Phase.entry? := rfl
  cases hw : s.workers[v]? with
  | none => simp [hd, hw]
  | some ph =>
    cases ph with
    | idle =>
      have ha := h v hw
      simp [hd, hw, Phase.entry?, Bell.owes, ha.listed, ha.unready]
    | _ => simp [hd, hw, Phase.entry?, Bell.owes]

end WriteBehind.Queue
