import WriteBehind.Proofs.Queue.Delivery
import WriteBehind.Proofs.Queue.Fence

/-!
# Barriers

When a fence is over, every write accepted before it has been attempted and has retired. While the fence
lasts something up to its target is outstanding, and nothing that is accepted after it is attempted
before.
-/

namespace WriteBehind.Queue

variable {κ ι : Type} [DecidableEq κ] [Named κ]

variable {s₀ s t u v : State κ ι} {out o o₁ o₂ o₃ o₄ : List (Notice κ ι)}
  {before after later events : List (Event κ ι)} {e : Event κ ι} {id : Nat} {target : Sequence}
  {config : QueueConfig} {connections : List Connection}

theorem Begins.fences (h : Begins config connections s) (hr : run s events = some (t, out)) : Fences t := by
  refine run_induction (P := fun _ _ t => Fences t) ⟨?_, ?_⟩ ?_ hr
  · simp [State.fence?, h.call?]
  · simp [h.call?]
  · intro events o t e u o' hr hp he
    exact hp.step (h.tended.run hr) he

theorem fence_lasts (hs : Tended s) (hle : target ≤ s.buffer.last) (hf : s.fence? id = some target)
    (hr : run s events = some (t, out)) :
    t.fence? id = some target ∧ (∀ n ∈ out, n.call? ≠ some id) ∨
      t.buffer.isDrainedThrough target = true := by
  -- What has drained stays drained only up to the last number given, so that goes along.
  have : target ≤ t.buffer.last ∧ (t.fence? id = some target ∧ (∀ n ∈ out, n.call? ≠ some id) ∨
      t.buffer.isDrainedThrough target = true) := by
    refine run_induction (P := fun _ o t => target ≤ t.buffer.last ∧ (t.fence? id = some target ∧
      (∀ n ∈ o, n.call? ≠ some id) ∨ t.buffer.isDrainedThrough target = true)) ?_ ?_ hr
    · exact ⟨hle, .inl ⟨hf, by simp⟩⟩
    · intro events o t e u o' hr ⟨hle, hp⟩ he
      have ht := hs.run hr
      have turn := step_turn ht.balanced he
      refine ⟨Nat.le_trans hle turn.last_le, ?_⟩
      rcases hp with ⟨hf, hn⟩ | hd
      · rcases fence_step ht.balanced he hf with ⟨hf', hn'⟩ | ⟨_, hd⟩
        · refine .inl ⟨hf', fun n hm => ?_⟩
          exact (List.mem_append.mp hm).elim (hn n) (hn' n)
        · exact .inr (turn.drained_through ht (ht.step he) hle hd)
      · exact .inr (turn.drained_through ht (ht.step he) hle hd)
  exact this.2

omit [DecidableEq κ] in
theorem woken_of_look {c : Call} (hc : s.call? id = some c) (hp : c.phase.target? = some target)
    (h : s.look id = none) : c.woken = false := by
  unfold State.look at h
  simp only [hc, bind, Option.bind_some] at h
  by_contra hw
  have hw : c.woken = true := by simpa using hw
  cases hphase : c.phase with
  | fence =>
    rw [hphase] at h
    simp only [hw, Bool.not_true, Bool.false_eq_true, if_false] at h
    split at h <;> cases h
  | closing =>
    rw [hphase] at h
    simp only [hw, Bool.not_true, Bool.false_eq_true, if_false] at h
    split at h <;> cases h
  | _ => rw [hphase] at hp; cases hp

theorem fence_waits_iff (h₀ : Begins config connections s₀) (hu : run s₀ events = some (u, out))
    (hf : u.fence? id = some target ∨ u.buffer.isDrainedThrough target = true)
    (settled : step u (.look id) = none) :
    u.fence? id = some target ↔ ∃ q ∈ u.buffer.outstanding, q ≤ target := by
  have hv := (h₀.tended.run hu).valid.isDrainedThrough_iff target
  constructor
  · intro hf
    obtain ⟨c, hc, hp⟩ := Option.bind_eq_some_iff.mp hf
    have hd := (h₀.fences hu).awake id c target hc (woken_of_look hc hp settled) hp
    by_contra hn
    rw [hv.mpr fun q hq => Nat.not_le.mp fun hle => hn ⟨q, hq, hle⟩] at hd
    cases hd
  · intro ⟨q, hq, hle⟩
    refine hf.resolve_right fun hd => ?_
    exact absurd (hv.mp hd q hq) (Nat.not_lt.mpr hle)

/-! ## Attempts -/

/-- The entry of an accepted write was claimed, its attempt has ended and it has retired. Its store was
begun before, unless the worker was refused a connection by a closed pool. -/
def Attempted (a : Acceptance κ ι) (out : List (Notice κ ι)) (s : State κ ι) : Prop :=
  ∃ d r, d.sequence = a.sequence ∧ d.key = a.key ∧ .drained d r ∈ out ∧
    ((∃ w c, [.invoked w d c, .drained d r].Sublist out) ∨ r = refusal ∧ s.pool.closed = true)

theorem attempted_of_settled (h₀ : Begins config connections s₀) (hu : run s₀ events = some (u, out))
    {a : Acceptance κ ι} (ha : a ∈ acceptances s₀ events) (hn : a.sequence ∉ u.buffer.outstanding) :
    Attempted a out u := by
  have hat := h₀.attempts hu
  obtain ⟨d, r, hd, hq, hk⟩ := (hat.settled a ha).resolve_left hn
  exact ⟨d, r, hq, hk, hd, hat.drained d r hd⟩

omit [Named κ] in
theorem Turn.accept_waits {a : Acceptance κ ι} (h : Turn s t o (some a)) :
    t.buffer.Waits a.key a.sequence := by
  cases h with
  | accept _ _ buffer sequence =>
    rw [buffer, sequence]
    exact Buffer.insert_waits_self _ _ _

theorem invoked_after (h₀ : Begins config connections s₀) (hu : run s₀ events = some (u, out))
    (hv : run u later = some (v, o)) {b : Acceptance κ ι} (hb : b ∈ acceptances u later) {w : Nat}
    {d : Claimed κ ι} {c : Connection} (hd : .invoked w d c ∈ out ++ o) (hq : d.sequence = b.sequence)
    {n : Notice κ ι} (hn : n ∈ out) : [n, .invoked w d c].Sublist (out ++ o) := by
  obtain ⟨l₁, e, l₂, x, y, p₁, p₂, p₃, rfl, hx, he, _, rfl, ha⟩ := mem_observe hv hb
  have ha : accepted? e (y, p₂) = some b := by simpa using ha
  have hux := run_append.mpr ⟨u, out, p₁, hu, hx, rfl⟩
  have turn := step_turn (h₀.tended.run hux).balanced he
  rw [ha] at turn
  -- The entry was pending when the write was accepted, so nothing had been noticed of it.
  have hfresh : .invoked w d c ∉ out := by
    intro hm
    have := (h₀.ledger (run_snoc hux he)).passed (.invoked w d c) (by simp [hm]) d rfl b.key
    exact this (hq ▸ turn.accept_waits)
  have hd := (List.mem_append.mp hd).resolve_left hfresh
  exact (List.singleton_sublist.mpr hn).append (List.singleton_sublist.mpr hd)

/-! ## Barriers -/

theorem barrier_begins (h : step s (.barrier id) = some (t, out)) :
    s.fence? id = none ∧ t.fence? id = some s.buffer.last := by
  obtain ⟨_, free, he⟩ := issue_eq_some.mp h
  cases he
  have := State.call?_wait_self { s with counters := s.counters.recordFlush } id (.fence s.buffer.last)
  exact ⟨by simp [State.fence?, free], by simp [State.fence?, this, CallPhase.target?]⟩

/-- A fence is over: its call has returned, or does not wait at it any more. -/
def Over (id : Nat) (target : Sequence) (out : List (Notice κ ι)) (s : State κ ι) : Prop :=
  (∃ r, .returned id r ∈ out) ∨ s.fence? id ≠ some target

/-- Barriers are complete. A call comes to its fence at a step. When the fence is over, every write
accepted up to that step has been attempted and is not outstanding. The fence lasts as long as something
up to its target is outstanding, whatever was accepted since. A write that is accepted when the fence is
over is handed to the store after all those have retired. -/
theorem barrier_complete (h₀ : Begins config connections s₀) (hs : run s₀ before = some (s, o₁))
    (he : step s e = some (t, o₂)) (hn : s.fence? id = none) (hf : t.fence? id = some target)
    (hu : run t after = some (u, o₃)) :
    (Over id target o₃ u → ∀ a ∈ acceptances s₀ (before ++ [e]),
      a.sequence ∉ u.buffer.outstanding ∧ Attempted a (o₁ ++ o₂ ++ o₃) u) ∧
    (step u (.look id) = none →
      (u.fence? id = some target ↔ ∃ q ∈ u.buffer.outstanding, q ≤ target)) ∧
    (Over id target o₃ u → ∀ later v o₄, run u later = some (v, o₄) → ∀ b ∈ acceptances u later,
      ∀ w d c, .invoked w d c ∈ o₁ ++ o₂ ++ o₃ ++ o₄ → d.sequence = b.sequence →
        ∀ a ∈ acceptances s₀ (before ++ [e]), ∃ d' r, d'.sequence = a.sequence ∧ d'.key = a.key ∧
          [.drained d' r, .invoked w d c].Sublist (o₁ ++ o₂ ++ o₃ ++ o₄)) := by
  have ht := run_snoc hs he
  have hsu := run_append.mpr ⟨t, o₁ ++ o₂, o₃, ht, hu, rfl⟩
  have htarget := fence_opened (h₀.tended.run hs).balanced he hn hf
  have hlasts := fence_lasts (h₀.tended.run ht) (htarget ▸ Nat.le_refl _) hf hu
  have hdrained : Over id target o₃ u → u.buffer.isDrainedThrough target = true := by
    intro hover
    rcases hlasts with ⟨hstill, hsilent⟩ | hd
    · rcases hover with ⟨r, hr⟩ | hover
      · exact absurd rfl (hsilent _ hr)
      · exact absurd hstill hover
    · exact hd
  have hall : Over id target o₃ u → ∀ a ∈ acceptances s₀ (before ++ [e]),
      a.sequence ∉ u.buffer.outstanding ∧ Attempted a (o₁ ++ o₂ ++ o₃) u := by
    intro hover a ha
    have hle : a.sequence ≤ target := htarget ▸ (h₀.ledger ht).le_last a ha
    have hnot : a.sequence ∉ u.buffer.outstanding := by
      intro hm
      have := ((h₀.tended.run hsu).valid.isDrainedThrough_iff target).mp (hdrained hover) _ hm
      exact absurd this (Nat.not_lt.mpr hle)
    refine ⟨hnot, attempted_of_settled h₀ hsu ?_ hnot⟩
    rw [acceptances_append ht]
    exact List.mem_append_left _ ha
  refine ⟨hall, fun hsettled => fence_waits_iff h₀ hsu (hlasts.imp And.left fun hd => hd) hsettled, ?_⟩
  intro hover later v o₄ hv b hb w d c hd hq a ha
  obtain ⟨_, d', r, hq', hk, hdr, _⟩ := hall hover a ha
  exact ⟨d', r, hq', hk, invoked_after h₀ hsu hv hb hd hq hdr⟩

def drainOne (w : Nat) (outcome : Outcome) : List (Event String Nat) :=
  [.work w, .work w, .work w, .work w, .finish w outcome, .work w, .work w]

theorem barrier_complete_failed : ∃ s₀ s t u v : State String Nat, ∃ o₁ o₂ o₃ o₄,
    Begins pair [⟨0, 0⟩] s₀ ∧ run s₀ [.enqueue 1 "a" 1 false] = some (s, o₁) ∧
    step s (.barrier 2) = some (t, o₂) ∧
    run t (drainOne 0 (.error .timeout) ++ [.look 2]) = some (u, o₃) ∧
    run u [.enqueue 1 "b" 2 false, .work 1, .work 1, .work 1, .work 1] = some (v, o₄) ∧
    (acceptances s₀ ([.enqueue 1 "a" 1 false] ++ [.barrier 2])).map (·.item) = [1] ∧
    (∀ a ∈ acceptances s₀ ([.enqueue 1 "a" 1 false] ++ [.barrier 2]),
      a.sequence ∉ u.buffer.outstanding ∧ Attempted a (o₁ ++ o₂ ++ o₃) u) ∧
    ∀ b ∈ acceptances u [.enqueue 1 "b" 2 false, .work 1, .work 1, .work 1, .work 1],
      ∀ w d c, .invoked w d c ∈ o₁ ++ o₂ ++ o₃ ++ o₄ → d.sequence = b.sequence →
        ∀ a ∈ acceptances s₀ ([.enqueue 1 "a" 1 false] ++ [.barrier 2]), ∃ d' r,
          d'.sequence = a.sequence ∧ d'.key = a.key ∧
            [.drained d' r, .invoked w d c].Sublist (o₁ ++ o₂ ++ o₃ ++ o₄) := by
  obtain ⟨s₀, s, t, u, v, o₁, o₂, o₃, o₄, h₀, hs, he, hu, hv, ha, r, hr⟩ :
      ∃ s₀ s t u v : State String Nat,
      ∃ o₁ o₂ o₃ o₄, Begins pair [⟨0, 0⟩] s₀ ∧ run s₀ [.enqueue 1 "a" 1 false] = some (s, o₁) ∧
      step s (.barrier 2) = some (t, o₂) ∧
      run t (drainOne 0 (.error .timeout) ++ [.look 2]) = some (u, o₃) ∧
      run u [.enqueue 1 "b" 2 false, .work 1, .work 1, .work 1, .work 1] = some (v, o₄) ∧
      (acceptances s₀ ([.enqueue 1 "a" 1 false] ++ [.barrier 2])).map (·.item) = [1] ∧
      ∃ r, .returned 2 r ∈ o₃ :=
    ⟨_, _, _, _, _, _, _, _, _, ⟨_, rfl, rfl⟩, rfl, rfl, rfl, rfl, rfl, _, List.mem_of_getLast? rfl⟩
  obtain ⟨hn, hf⟩ := barrier_begins he
  have hall := barrier_complete h₀ hs he hn hf hu
  exact ⟨s₀, s, t, u, v, o₁, o₂, o₃, o₄, h₀, hs, he, hu, hv, ha, hall.1 (.inl ⟨r, hr⟩),
    hall.2.2 (.inl ⟨r, hr⟩) _ v o₄ hv⟩

end WriteBehind.Queue
