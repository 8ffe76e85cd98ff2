import WriteBehind.Proofs.Queue.Passed
import WriteBehind.Proofs.Session.Following

/-!
# Writes are readable after a fence

When a fence has been passed, the last write of an atom that was accepted before it has drained. If that
has succeeded, the backend holds what was written: no document after a removal, and after a store the atom
as it was when a worker read it, with the values set last until then.
-/

namespace WriteBehind.Session

open Queue (Acceptance Notice)

variable {name : String → String} {config : SessionConfig} {w₀ s t u v : World} {first rest : List Action}
  {id : Nat} {command : Command} {a : Acceptance AtomId Write}

/-! ## Fences -/

/-- The commands that return behind a fence. A closed session has nothing to wait for: a closing call returns
at once, and a store is refused. -/
def World.Fences (w : World) : Command → Prop
  | .barrier => True
  | .close | .storeAndWait _ => w.queue.closed = false
  | _ => False

theorem World.Fences.event (h : s.Fences command) (id : Nat) : (command.event id).Fences s.queue id := by
  cases command with
  | barrier => exact .barrier
  | close => exact .close h
  | storeAndWait atom => exact .write atom ⟨atom, .store⟩ h
  | _ => cases h

/-- A command that fences was given at some point of a run and has returned. -/
def Passed (name : String → String) (s : World) (actions : List Action) (u : World) : Prop :=
  ∃ before id command after v out r, actions = before ++ .call id command :: after ∧
    World.run name s before = some v ∧ v.Fences command ∧ u.notices = v.notices ++ out ∧
      Notice.returned id r ∈ out

theorem fence_settles {before after : List Action} {out : List (Notice AtomId Write)} {r : Queue.Result}
    (h₀ : Opens name config w₀) (hs : World.run name w₀ before = some s) (hf : s.Fences command)
    (ht : World.step name s (.call id command) = some t) (hu : World.run name t after = some u)
    (hn : u.notices = s.notices ++ out) (hr : .returned id r ∈ out)
    (ha : a ∈ World.acceptances name w₀ (before ++ [.call id command])) :
    ∃ e r, .drained e r ∈ u.notices ∧ e.sequence = a.sequence ∧ e.key = a.key := by
  obtain ⟨_, hb⟩ := h₀.begins
  have hwt := World.run_snoc hs ht
  obtain ⟨events, out₁, hqt, hnt, hat⟩ := World.queue_run hwt
  obtain ⟨later, out₂, hqu, hnu, _⟩ := World.queue_run hu
  cases World.step_cases ht with
  | created _ _ made => cases made
  | called _ _ _ o _ moved =>
    have hout : out = o ++ out₂ := by
      rw [hnu, moved.notices, List.append_assoc] at hn
      exact (List.append_cancel_left hn).symm
    have hdrained := Queue.fence_passed (h₀.tended hs) moved.step (hf.event id) hqu (hout ▸ hr)
    have hall := Queue.run_append.mpr ⟨_, _, _, hqt, hqu, rfl⟩
    rw [← hat] at ha
    have hle := (hb.ledger hqt).le_last a ha
    have hgone : a.sequence ∉ u.queue.buffer.outstanding := by
      intro hm
      have hlt := ((hb.tended.run hall).valid.isDrainedThrough_iff _).mp hdrained _ hm
      exact absurd hlt (Nat.not_lt.mpr hle)
    have hmem : a ∈ Queue.acceptances w₀.queue (events ++ later) := by
      rw [Queue.acceptances_append hqt]
      exact List.mem_append_left _ ha
    obtain ⟨e, r, he, hk⟩ := ((hb.attempts hall).settled a hmem).resolve_left hgone
    refine ⟨e, r, ?_, hk⟩
    rwa [hnu, hnt, h₀.empty.2.2.2, List.nil_append]

theorem Passed.settles (h₀ : Opens name config w₀) (hs : World.run name w₀ first = some s)
    (ht : World.step name s (.call id command) = some t) (hu : World.run name t rest = some u)
    (ha : s.accepted? (.call id command) = some a) (h : Passed name s (.call id command :: rest) u) :
    ∃ e r, .drained e r ∈ u.notices ∧ e.sequence = a.sequence ∧ e.key = a.key := by
  obtain ⟨before, id', command', after, v, out, r, heq, hv, hf, hn, hr⟩ := h
  have hsu : World.run name s (before ++ .call id' command' :: after) = some u :=
    heq ▸ World.run_cons.mpr ⟨t, ht, hu⟩
  obtain ⟨v', hv', hafter⟩ := World.run_append.mp hsu
  rw [hv] at hv'
  cases hv'
  obtain ⟨v', hstep, hafter⟩ := World.run_cons.mp hafter
  refine fence_settles h₀ (World.run_append.mpr ⟨s, hs, hv⟩) hf hstep hafter hn hr ?_
  obtain ⟨l, hl⟩ : ∃ l, before ++ [.call id' command'] = .call id command :: l := by
    cases before with
    | nil => exact ⟨[], congrArg (fun l => l.take 1) heq.symm⟩
    | cons b before =>
      rw [List.cons_append, List.cons.injEq] at heq
      exact ⟨before ++ [.call id' command'], by rw [heq.1, List.cons_append]⟩
  have hcut : first ++ before ++ [.call id' command'] = (first ++ [.call id command]) ++ l := by
    rw [List.append_assoc, hl]
    simp
  have hsnoc : World.acceptances name w₀ (first ++ [.call id command]) =
      World.acceptances name w₀ first ++ (s.accepted? (.call id command)).toList := World.observe_snoc hs ht
  have happend : World.acceptances name w₀ ((first ++ [.call id command]) ++ l) =
      World.acceptances name w₀ (first ++ [.call id command]) ++ World.acceptances name t l :=
    World.observe_append (World.run_snoc hs ht)
  rw [hcut, happend, hsnoc, ha]
  simp

/-! ## The last write -/

theorem Opens.follows {documents : Set String} (h₀ : Opens name config w₀)
    (hs : World.run name w₀ first = some s) (ht : World.step name s (.call id command) = some t)
    (hu : World.run name t rest = some u) (distinct : Set.InjOn name documents)
    (henc : ∀ d ∈ World.encodings name w₀ (first ++ .call id command :: rest), d ∈ documents)
    (ha : s.accepted? (.call id command) = some a)
    (hlast : ∀ b ∈ World.acceptances name t rest, b.key ≠ a.key) : Follows name t a rest u := by
  have hwt := World.run_snoc hs ht
  have hcut : ∀ rest, first ++ .call id command :: rest = (first ++ [.call id command]) ++ rest := by simp
  rw [hcut] at henc
  refine World.run_induction (P := fun rest u =>
    (∀ d ∈ World.encodings name w₀ ((first ++ [.call id command]) ++ rest), d ∈ documents) →
      (∀ b ∈ World.acceptances name t rest, b.key ≠ a.key) → Follows name t a rest u) ?_ ?_ hu henc hlast
  · intro _ _
    cases World.step_cases ht with
    | created _ _ made => cases made
    | called _ _ _ _ _ moved => exact Follows.begin (h₀.tended hs) moved ha
  · intro rest v action u hv hp hs' henc hlast
    have hwv : World.run name w₀ ((first ++ [.call id command]) ++ rest) = some v :=
      World.run_append.mpr ⟨t, hwt, hv⟩
    have hencodings : World.encodings name w₀ ((first ++ [.call id command]) ++ (rest ++ [action])) =
        World.encodings name w₀ ((first ++ [.call id command]) ++ rest) ++ (v.encoded? action).toList := by
      rw [← List.append_assoc]
      exact World.observe_snoc hwv hs'
    have hacceptances : World.acceptances name t (rest ++ [action]) =
        World.acceptances name t rest ++ (v.accepted? action).toList := World.observe_snoc hv hs'
    rw [hencodings] at henc
    rw [hacceptances] at hlast
    have henc' := fun d hd => henc d (List.mem_append_left _ hd)
    have hfollows := hp henc' fun b hb => hlast b (List.mem_append_left _ hb)
    refine hfollows.step (h₀.sound distinct hwv henc') (World.accepted_atom ha) hv hs' ?_ ?_
    · exact fun b hb => hlast b (List.mem_append_right _ (Option.mem_toList.mpr hb))
    · exact fun d hd => henc d (List.mem_append_right _ (Option.mem_toList.mpr hd))

/-- The backend holds what a write has left. After a removal there is no document. After a store there is that
of the atom at a moment between the acceptance of the write and now at which a worker carried it out; its
values are those set last until then, and if none was set since the acceptance it is the atom as it is now. -/
def Readable (name : String → String) (first : List Action) (t : World) (rest : List Action) (u : World)
    (a : Acceptance AtomId Write) : Prop :=
  match a.item.kind with
  | .remove => u.store.contents.document? a.key = none
  | .store => ∃ seen unseen v n atom, rest = seen ++ unseen ∧ World.run name t seen = some v ∧
      Carrying v n a ∧ v.catalog.get? a.key = some atom ∧
      u.store.contents.document? a.key = some atom.document ∧
      (∀ key, atom.get? key = (settings a.key key (first ++ seen)).getLast?) ∧
      ((∀ key, settings a.key key rest = []) → u.catalog.get? a.key = some atom)

theorem Shows.readable (h₀ : Opens name config w₀) (ht : World.run name w₀ first = some t)
    (hu : World.run name t rest = some u) (ha : a.item.atom = a.key)
    (h : Shows name t rest a u.store.contents) : Readable name first t rest u a := by
  unfold Shows at h
  unfold Readable
  rw [ha] at h
  cases hkind : a.item.kind with
  | remove =>
    rw [hkind] at h
    exact h
  | store =>
    rw [hkind] at h
    obtain ⟨_, atom, ⟨seen, unseen, v, n, rfl, hv, hn, rfl⟩, hatom, hd⟩ := h
    have hrecorded := h₀.recorded (World.run_append.mpr ⟨t, ht, hv⟩)
    obtain ⟨v', hv', hvu⟩ := World.run_append.mp hu
    rw [hv] at hv'
    cases hv'
    refine ⟨seen, unseen, v, n, atom, rfl, hv, hn, hatom, hd, fun key => ?_, fun hnone => ?_⟩
    · rw [← hrecorded.value a.key key]
      simp [Catalog.value?, hatom]
    · refine known_lasts hrecorded hatom hvu fun key => ?_
      have := hnone key
      rw [settings_append, List.append_eq_nil_iff] at this
      exact this.2

/-- Writes are readable after a fence. A write is accepted and no other write of its atom since. When a fence
that was called then or later has returned, the entry of the write has drained. If it has drained
successfully, the backend holds what was written. -/
theorem readable_after_fence (h₀ : Opens name config w₀) (hs : World.run name w₀ first = some s)
    (ht : World.step name s (.call id command) = some t) (hu : World.run name t rest = some u)
    (distinct : Set.InjOn name {d | d ∈ World.encodings name w₀ (first ++ .call id command :: rest)})
    (ha : s.accepted? (.call id command) = some a)
    (hlast : ∀ b ∈ World.acceptances name t rest, b.key ≠ a.key) :
    (Passed name s (.call id command :: rest) u →
      ∃ e r, .drained e r ∈ u.notices ∧ e.sequence = a.sequence ∧ e.key = a.key) ∧
    ∀ e, .drained e (.ok ()) ∈ u.notices → e.sequence = a.sequence →
      Readable name (first ++ [.call id command]) t rest u a := by
  have hwt := World.run_snoc hs ht
  have hwu := World.run_append.mpr ⟨t, hwt, hu⟩
  refine ⟨Passed.settles h₀ hs ht hu ha, fun e he hsequence => ?_⟩
  have hfollows := h₀.follows hs ht hu distinct (fun d hd => hd) ha hlast
  have hshows := hfollows.shows (h₀.tended hwu) (h₀.gone hwu) he hsequence
  exact hshows.readable h₀ hwt hu (World.accepted_atom ha)

def alone : SessionConfig := { queue := { workers := 1 } }

def cat : AtomId := ⟨7⟩

def early : List Action := [.node cat "ConceptNode" "cat", .set cat "weight" (.bool false)]

def late : List Action :=
  [.set cat "weight" (.bool true), .call 2 .barrier, .queue (.work 0), .queue (.work 0), .queue (.work 0),
    .queue (.work 0), .read 0, .write 0, .queue (.work 0), .queue (.work 0), .queue (.look 2)]

def byContent (text : String) : String := contentId text.toUTF8

theorem readable_after_fence_late : ∃ w₀ s t u : World, ∃ a : Acceptance AtomId Write, ∃ e,
    Opens byContent alone w₀ ∧ World.run byContent w₀ early = some s ∧
    World.step byContent s (.call 1 (.store cat)) = some t ∧ World.run byContent t late = some u ∧
    a.item = ⟨cat, .store⟩ ∧ s.accepted? (.call 1 (.store cat)) = some a ∧
    Passed byContent s (.call 1 (.store cat) :: late) u ∧ .drained e (.ok ()) ∈ u.notices ∧
    e.sequence = a.sequence ∧
    (∃ e r, .drained e r ∈ u.notices ∧ e.sequence = a.sequence ∧ e.key = a.key) ∧
    Readable byContent (early ++ [.call 1 (.store cat)]) t late u a := by
  obtain ⟨w₀, s, t, u, a, e, d, h₀, hs, ht, hu, hitem, ha, hlast, henc, he, hsequence, v, out, r, hv, hn, hr⟩ :
      ∃ w₀ s t u : World, ∃ a : Acceptance AtomId Write, ∃ e d,
        Opens byContent alone w₀ ∧ World.run byContent w₀ early = some s ∧
        World.step byContent s (.call 1 (.store cat)) = some t ∧ World.run byContent t late = some u ∧
        a.item = ⟨cat, .store⟩ ∧ s.accepted? (.call 1 (.store cat)) = some a ∧
        World.acceptances byContent t late = [] ∧
        World.encodings byContent w₀ (early ++ .call 1 (.store cat) :: late) = [d] ∧
        .drained e (.ok ()) ∈ u.notices ∧ e.sequence = a.sequence ∧
        ∃ v out r, World.run byContent s [.call 1 (.store cat), .set cat "weight" (.bool true)] = some v ∧
          u.notices = v.notices ++ out ∧ .returned 2 r ∈ out :=
    ⟨_, _, _, _, _, _, _, ⟨0, {}, _, _, rfl, rfl, rfl⟩, rfl, rfl, rfl, rfl, rfl, rfl, rfl,
      List.mem_of_getElem? (i := 2) rfl, rfl, _, _, _, rfl, rfl, List.mem_of_getLast? rfl⟩
  have hpassed : Passed byContent s (.call 1 (.store cat) :: late) u :=
    ⟨_, 2, .barrier, _, v, out, r, rfl, hv, trivial, hn, hr⟩
  have distinct : Set.InjOn byContent
      {d | d ∈ World.encodings byContent w₀ (early ++ .call 1 (.store cat) :: late)} := by
    rw [henc]
    simp
  have hall := readable_after_fence h₀ hs ht hu distinct ha (by simp [hlast])
  exact ⟨w₀, s, t, u, a, e, h₀, hs, ht, hu, hitem, ha, hpassed, he, hsequence, hall.1 hpassed,
    hall.2 e he hsequence⟩

end WriteBehind.Session
