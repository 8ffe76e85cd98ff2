import WriteBehind.Proofs.Queue.Fence
import WriteBehind.Proofs.Session.Documents

/-!
# The last write of an atom

The entry of a write waits, is drained by a worker and retires. As long as no other write of the atom is
accepted, nobody else touches the document of the atom after the entry was claimed, so what the worker
has left there stays.
-/

namespace WriteBehind.Session

open Queue (Acceptance Moves Notice Tended)

variable {name : String → String} {config : SessionConfig} {documents : Set String} {w₀ t u w : World}
  {actions seen : List Action} {action : Action} {a : Acceptance AtomId Write} {request : Write} {n : Nat}

/-! ## What is known at every point of a run -/

structure Sound (name : String → String) (documents : Set String) (w : World) : Prop where
  tended : Tended w.queue
  atoms : ∀ n e, w.queue.draining n = some e → e.item.atom = e.key
  gone : ∀ e r, .drained e r ∈ w.notices → e.sequence ∉ w.queue.buffer.outstanding
  drafted : Drafted w
  apart : Contents.Apart name (Belongs documents)
  kept : w.store.contents.Kept name (Belongs documents)

theorem Opens.sound (h₀ : Opens name config w₀) (distinct : Set.InjOn name documents)
    (hr : World.run name w₀ actions = some w) (henc : ∀ d ∈ World.encodings name w₀ actions, d ∈ documents) :
    Sound name documents w where
  tended := h₀.tended hr
  atoms := h₀.atoms hr
  gone := h₀.gone hr
  drafted := h₀.drafted hr
  apart := belongs_apart distinct
  kept := h₀.kept distinct hr henc

/-! ## What a request leaves -/

def Carrying (w : World) (n : Nat) (a : Acceptance AtomId Write) : Prop :=
  ∃ replaced since c, w.queue.workers[n]? = some (.storing ⟨⟨a.key, a.sequence, a.item, replaced⟩, since⟩ c)

/-- At some point of a run a worker that carries out a write has read the atoms. -/
def Read (name : String → String) (t : World) (seen : List Action) (a : Acceptance AtomId Write)
    (draft : Catalog) : Prop :=
  ∃ before after v n, seen = before ++ after ∧ World.run name t before = some v ∧ Carrying v n a ∧
    v.catalog = draft

theorem Read.later {draft : Catalog} (h : Read name t seen a draft) (l : List Action) :
    Read name t (seen ++ l) a draft := by
  obtain ⟨before, after, v, n, rfl, hv⟩ := h
  exact ⟨before, after ++ l, v, n, List.append_assoc _ _ _, hv⟩

/-- A removal leaves no document, a store that of the atom as it was read. -/
def Shows (name : String → String) (t : World) (seen : List Action) (a : Acceptance AtomId Write)
    (c : Contents) : Prop :=
  match a.item.kind with
  | .remove => c.document? a.item.atom = none
  | .store => ∃ draft atom, Read name t seen a draft ∧ draft.get? a.item.atom = some atom ∧
      c.document? a.item.atom = some atom.document

theorem Shows.later {c c' : Contents} (h : Shows name t seen a c)
    (hc : c'.document? a.item.atom = c.document? a.item.atom) (l : List Action) :
    Shows name t (seen ++ l) a c' := by
  unfold Shows at h ⊢
  rw [hc]
  split at h
  · exact h
  · obtain ⟨draft, atom, hr, ha, hd⟩ := h
    exact ⟨draft, atom, hr.later l, ha, hd⟩

theorem Read.shows {m m' : Memory} {draft : Catalog} (hr : Read name t seen a draft)
    (h : Memory.Carried name m draft a.item (.ok ()) m') : Shows name t seen a m'.contents := by
  unfold Shows
  cases h with
  | removed _ kind contents =>
    rw [kind, contents]
    exact Contents.document?_remove_self _ _
  | stored atom _ kind found _ contents =>
    rw [kind, contents]
    exact ⟨draft, atom, hr, found, Contents.document?_put_self _ _ _ _⟩

/-- What a worker has done for a write in each of its phases. -/
def Told (name : String → String) (t : World) (seen : List Action) (w : World) (n : Nat)
    (a : Acceptance AtomId Write) : Queue.Phase AtomId Write → Prop
  | .storing _ _ => ∀ draft, w.drafts.get? n = some draft → Read name t seen a draft
  | .ended _ outcome | .retiring _ outcome => outcome = .ok () → Shows name t seen a w.store.contents
  | _ => True

theorem Told.later {ph : Queue.Phase AtomId Write} (h : Told name t seen w n a ph) (l : List Action)
    (hd : ∀ drain c, ph = .storing drain c → ∀ draft, u.drafts.get? n = some draft →
      w.drafts.get? n = some draft ∨ Read name t (seen ++ l) a draft)
    (hc : u.store.contents.document? a.item.atom = w.store.contents.document? a.item.atom) :
    Told name t (seen ++ l) u n a ph := by
  cases ph with
  | storing drain c =>
    intro draft hdraft
    rcases hd drain c rfl draft hdraft with hold | hread
    · exact (h draft hold).later l
    · exact hread
  | ended | retiring => exact fun hok => (h hok).later hc l
  | _ => trivial

theorem told_of_awaiting {ph : Queue.Phase AtomId Write} {e : Claimed AtomId Write}
    (h : ph.awaiting? = some e) : Told name t seen w n a ph := by
  cases ph with
  | claimed | borrowing | ready => trivial
  | _ => cases h

/-! ## The last write -/

/-- Where the entry of a write is, and what the contents show of it, if no other write of its atom was
accepted since. -/
inductive Follows (name : String → String) (t : World) (a : Acceptance AtomId Write) (seen : List Action)
    (w : World) : Prop where
  | pending (replaced : Nat) (found : w.queue.buffer.pending.get? a.key = some ⟨a.sequence, a.item, replaced⟩)
  | draining (n : Nat) (ph : Queue.Phase AtomId Write) (replaced : Nat)
    (worker : w.queue.workers[n]? = some ph) (entry : ph.entry? = some ⟨a.key, a.sequence, a.item, replaced⟩)
    (alone : w.queue.buffer.pending.get? a.key = none) (told : Told name t seen w n a ph)
  | drained (alone : w.queue.buffer.pending.get? a.key = none)
    (idle : w.queue.buffer.inFlight.get? a.key = none) (le_last : a.sequence ≤ w.queue.buffer.last)
    (gone : a.sequence ∉ w.queue.buffer.outstanding)
    (shows : ∀ e, .drained e (.ok ()) ∈ w.notices → e.sequence = a.sequence →
      Shows name t seen a w.store.contents)

theorem draining_of_worker {s : Queue.State AtomId Write} {ph : Queue.Phase AtomId Write}
    {e : Claimed AtomId Write} (hw : s.workers[n]? = some ph) (he : ph.entry? = some e) :
    s.draining n = some e :=
  Option.bind_eq_some_iff.mpr ⟨ph, hw, he⟩

theorem Follows.still (h : Follows name t a seen w) (l : List Action) (hq : u.queue = w.queue)
    (hn : u.notices = w.notices)
    (hc : u.store.contents.document? a.item.atom = w.store.contents.document? a.item.atom)
    (hd : ∀ n draft, Carrying w n a → u.drafts.get? n = some draft →
      w.drafts.get? n = some draft ∨ Read name t (seen ++ l) a draft) :
    Follows name t a (seen ++ l) u := by
  cases h with
  | pending replaced found => exact .pending replaced (hq ▸ found)
  | draining n ph replaced worker entry alone told =>
    refine .draining n ph replaced (hq ▸ worker) entry (hq ▸ alone) (told.later l ?_ hc)
    rintro ⟨_, since⟩ c rfl draft hdraft
    cases entry
    exact hd n draft ⟨replaced, since, c, worker⟩ hdraft
  | drained alone idle le_last gone shows =>
    refine .drained (hq ▸ alone) (hq ▸ idle) (hq ▸ le_last) (hq ▸ gone) ?_
    rw [hn]
    exact fun e he hsequence => (shows e he hsequence).later hc l

section

variable {e : Queue.Event AtomId Write} {out : List (Notice AtomId Write)}
  {a? : Option (Acceptance AtomId Write)}

theorem Follows.pending_turn {replaced : Nat} (hs : Tended w.queue) (turn : Queue.Turn w.queue u.queue out a?)
    (hother : ∀ b, a? = some b → b.key ≠ a.key)
    (found : w.queue.buffer.pending.get? a.key = some ⟨a.sequence, a.item, replaced⟩) :
    Follows name t a seen u := by
  have same : u.queue.buffer = w.queue.buffer → Follows name t a seen u := fun hb =>
    .pending replaced (hb ▸ found)
  cases turn with
  | rest buffer => exact same buffer
  | accept b _ buffer =>
    refine .pending replaced ?_
    rw [buffer, Buffer.insert_pending _ _ _ _ (hother b rfl).symm, found]
  | claim k entry since move buffer =>
    obtain ⟨hp, _, _, _, _, _, ht⟩ := hs.valid.claim_some buffer
    by_cases hk : entry.key = a.key
    · rw [hk, found] at hp
      obtain ⟨hsequence, hitem, hreplaced⟩ := Pending.mk.inj (Option.some.inj hp)
      have hworker : u.queue.workers[k]? = some (.claimed ⟨entry, since⟩) := by rw [move.worker, if_pos rfl]
      refine .draining k _ replaced hworker ?_ ?_ trivial
      · obtain ⟨key, sequence, item, replaced'⟩ := entry
        cases hk; cases hsequence; cases hitem; cases hreplaced
        rfl
      · rw [ht]
        simp [Table.get?_erase, hk]
    · refine .pending replaced ?_
      rw [ht]
      simp [Table.get?_erase, hk, found]
  | retire k entry outcome move buffer => exact .pending replaced (by rw [buffer]; exact found)
  | exit _ _ _ _ buffer => exact same buffer
  | approach _ _ _ _ _ _ _ buffer => exact same buffer
  | refuse _ _ _ _ _ _ buffer => exact same buffer
  | invoke _ _ _ _ buffer => exact same buffer
  | finish _ _ _ _ _ buffer => exact same buffer
  | note _ _ _ _ buffer => exact same buffer

theorem Follows.draining_turn {ph : Queue.Phase AtomId Write} {replaced : Nat} (hs : Sound name documents w)
    (hm : World.Moved w u e out) (he : ∀ k r, e ≠ .finish k r) (turn : Queue.Turn w.queue u.queue out a?)
    (hother : ∀ b, a? = some b → b.key ≠ a.key) (l : List Action)
    (worker : w.queue.workers[n]? = some ph) (entry : ph.entry? = some ⟨a.key, a.sequence, a.item, replaced⟩)
    (alone : w.queue.buffer.pending.get? a.key = none) (told : Told name t seen w n a ph) :
    Follows name t a (seen ++ l) u := by
  have hdraining := draining_of_worker worker entry
  have hlater : ∀ {ph}, Told name t seen w n a ph → Told name t (seen ++ l) u n a ph := by
    intro ph told
    refine told.later l (fun _ _ _ draft hdraft => .inl ?_) (by rw [hm.contents])
    rw [← hm.drafts, hdraft]
  -- Another worker moves, or none.
  have aside : u.queue.workers[n]? = some ph → u.queue.buffer.pending.get? a.key = none →
      Follows name t a (seen ++ l) u := fun hw hp => .draining n ph replaced hw entry hp (hlater told)
  cases turn with
  | rest buffer workers => exact aside (workers ▸ worker) (buffer ▸ alone)
  | accept b _ buffer _ workers =>
    refine aside (workers ▸ worker) ?_
    rw [buffer, Buffer.insert_pending _ _ _ _ (hother b rfl).symm, alone]
  | claim k entry' since move buffer =>
    obtain ⟨_, _, _, _, _, _, ht⟩ := hs.tended.valid.claim_some buffer
    obtain ⟨_, rfl, _⟩ | ⟨_, hw⟩ := move.at worker
    · cases entry
    · refine aside hw ?_
      rw [ht]
      simp only [Table.get?_erase]
      split
      · rfl
      · exact alone
  | exit k move _ _ buffer =>
    obtain ⟨_, rfl, _⟩ | ⟨_, hw⟩ := move.at worker
    · cases entry
    · exact aside hw (buffer ▸ alone)
  | approach k ph₀ ph₁ entry' move before after buffer =>
    obtain ⟨_, rfl, hw⟩ | ⟨_, hw⟩ := move.at worker
    · have hentry : ph₁.entry? = ph.entry? :=
        (Queue.Phase.entry?_of_awaiting after).trans (Queue.Phase.entry?_of_awaiting before).symm
      exact .draining n ph₁ replaced hw (hentry.trans entry) (buffer ▸ alone) (told_of_awaiting after)
    · exact aside hw (buffer ▸ alone)
  | refuse k ph₀ entry' move before _ buffer =>
    obtain ⟨_, rfl, hw⟩ | ⟨_, hw⟩ := move.at worker
    · have hentry : some entry' = ph.entry? := (Queue.Phase.entry?_of_awaiting before).symm
      exact .draining n _ replaced hw (hentry.trans entry) (buffer ▸ alone) (by rintro ⟨⟩)
    · exact aside hw (buffer ▸ alone)
  | invoke k drain c move buffer =>
    obtain ⟨rfl, rfl, hw⟩ | ⟨_, hw⟩ := move.at worker
    · refine .draining k _ replaced hw entry (buffer ▸ alone) fun draft hdraft => ?_
      -- A store that begins has no draft yet.
      rw [hm.drafts] at hdraft
      obtain ⟨request, hr⟩ := hs.drafted.carries k draft hdraft
      obtain ⟨_, _, hstoring, _⟩ := World.request?_eq_some.mp hr
      rw [move.before] at hstoring
      cases hstoring
    · exact aside hw (buffer ▸ alone)
  | finish k drain c outcome move =>
    have hstays := Queue.storing_lasts hm.step move.before (he k)
    rw [move.worker, if_pos rfl] at hstays
    cases hstays
  | note k entry' outcome move buffer =>
    obtain ⟨rfl, rfl, hw⟩ | ⟨_, hw⟩ := move.at worker
    · exact .draining k _ replaced hw entry (buffer ▸ alone) (hlater told)
    · exact aside hw (buffer ▸ alone)
  | retire k entry' outcome move buffer =>
    obtain ⟨rfl, rfl, hw⟩ | ⟨_, hw⟩ := move.at worker
    · cases entry
      have hflight := hs.tended.flight_of hdraining
      have hmem := hs.tended.valid.flight_mem hflight
      refine .drained ?_ ?_ ?_ ?_ ?_
      · rw [buffer]
        exact alone
      · rw [buffer, Buffer.complete_flight hflight, if_pos rfl]
      · rw [buffer]
        exact hs.tended.valid.le_last _ hmem
      · rw [buffer, Buffer.mem_complete_outstanding]
        exact fun h => h.2 rfl
      · intro d hd hsequence
        rw [hm.notices, List.mem_append, List.mem_singleton] at hd
        rcases hd with hd | hd
        · exact absurd (hsequence ▸ hmem) (hs.gone d _ hd)
        · cases hd
          exact (told rfl).later (by rw [hm.contents]) l
    · exact aside hw (by rw [buffer]; exact alone)

theorem Follows.drained_turn (hs : Sound name documents w) (hm : World.Moved w u e out)
    (turn : Queue.Turn w.queue u.queue out a?) (hother : ∀ b, a? = some b → b.key ≠ a.key) (l : List Action)
    (alone : w.queue.buffer.pending.get? a.key = none) (idle : w.queue.buffer.inFlight.get? a.key = none)
    (le_last : a.sequence ≤ w.queue.buffer.last) (gone : a.sequence ∉ w.queue.buffer.outstanding)
    (shows : ∀ e, .drained e (.ok ()) ∈ w.notices → e.sequence = a.sequence →
      Shows name t seen a w.store.contents) : Follows name t a (seen ++ l) u := by
  have hentries : u.queue.buffer.pending.get? a.key = none ∧ u.queue.buffer.inFlight.get? a.key = none := by
    obtain ⟨_, hb, _⟩ | ⟨b, rfl, hb, _⟩ | ⟨k, entry, _, _, hb, _⟩ | ⟨k, entry, outcome, _, hd, hb, _⟩ :=
      turn.entries
    · rw [hb]
      exact ⟨alone, idle⟩
    · rw [hb, Buffer.insert_pending _ _ _ _ (hother b rfl).symm, Buffer.insert_inFlight]
      exact ⟨alone, idle⟩
    · obtain ⟨hp, _, _, _, _, _, ht⟩ := hs.tended.valid.claim_some hb
      have hk : entry.key ≠ a.key := by
        intro hk
        rw [hk, alone] at hp
        cases hp
      rw [ht]
      simp [Table.get?_erase, Table.get?_set, hk, alone, idle]
    · rw [hb, Buffer.complete_flight (hs.tended.flight_of hd), idle]
      refine ⟨alone, ?_⟩
      split <;> rfl
  have hgone : a.sequence ∉ u.queue.buffer.outstanding := by
    intro h
    rcases turn.outstanding_of h with h | h
    · exact gone h
    · exact absurd h (Nat.not_lt.mpr le_last)
  refine .drained hentries.1 hentries.2 (Nat.le_trans le_last turn.last_le) hgone fun d hd hsequence => ?_
  rw [hm.notices, List.mem_append] at hd
  rcases hd with hd | hd
  · exact (shows d hd hsequence).later (by rw [hm.contents]) l
  · obtain ⟨k, hd⟩ := turn.noticed hd rfl
    have hmem := hs.tended.valid.flight_mem (hs.tended.flight_of hd)
    rw [hsequence] at hmem
    exact absurd hmem gone

theorem Follows.moved (h : Follows name t a seen w) (hs : Sound name documents w) (hm : World.Moved w u e out)
    (he : ∀ k r, e ≠ .finish k r) (hother : ∀ b, Queue.accepted? e (u.queue, out) = some b → b.key ≠ a.key)
    (l : List Action) : Follows name t a (seen ++ l) u := by
  have turn := Queue.step_turn hs.tended.balanced hm.step
  cases h with
  | pending replaced found => exact Follows.pending_turn hs.tended turn hother found
  | draining n ph replaced worker entry alone told =>
    exact Follows.draining_turn hs hm he turn hother l worker entry alone told
  | drained alone idle le_last gone shows =>
    exact Follows.drained_turn hs hm turn hother l alone idle le_last gone shows

theorem Follows.wrote {worker : Nat} {draft : Catalog} {outcome : Queue.Outcome} {store : Memory}
    (h : Follows name t a seen w) (hs : Sound name documents w) (ha : a.item.atom = a.key)
    (carries : w.request? worker = some request) (found : w.drafts.get? worker = some draft)
    (carried : Memory.carryOut name w.store draft request = (outcome, store))
    (hm : World.Moved { w with store, drafts := w.drafts.erase worker } u (.finish worker outcome) out)
    (henc : ∀ d, w.store.encoded? draft request = some d → d ∈ documents) (l : List Action) :
    Follows name t a (seen ++ l) u := by
  obtain ⟨drain, c, hworker, hout, hu⟩ := Queue.finish_cases hm.step
  have move : Moves w.queue u.queue worker (.storing drain c) (.ended drain.entry outcome) := by
    rw [hu]
    exact ⟨hworker, rfl⟩
  have hbuffer : u.queue.buffer = w.queue.buffer := by
    rw [hu]
    rfl
  have hrequest : drain.entry.item = request := by
    obtain ⟨drain', _, hstoring, hitem⟩ := World.request?_eq_some.mp carries
    rw [move.before] at hstoring
    cases hstoring
    exact hitem
  have hdraining : w.queue.draining worker = some drain.entry := draining_of_worker move.before rfl
  have hkey : request.atom = drain.entry.key := hrequest ▸ hs.atoms worker drain.entry hdraining
  have hcarried := Memory.carryOut_cases carried
  have hother : a.key ≠ drain.entry.key →
      u.store.contents.document? a.item.atom = w.store.contents.document? a.item.atom := by
    intro hne
    rw [hm.contents]
    exact hcarried.other hs.kept hs.apart (hs.drafted.belongs found henc) (by rwa [ha, hkey])
  have hdrafts : ∀ n draft, u.drafts.get? n = some draft → w.drafts.get? n = some draft := by
    intro n draft hd
    rw [hm.drafts, Table.get?_erase] at hd
    split at hd
    · cases hd
    · exact hd
  cases h with
  | pending replaced found => exact .pending replaced (hbuffer ▸ found)
  | draining n ph replaced hw entry alone told =>
    obtain ⟨rfl, rfl, hw'⟩ | ⟨hne, hw'⟩ := move.at hw
    · have hitem : request = a.item := hrequest.symm.trans (congrArg Claimed.item (Option.some.inj entry))
      refine .draining worker _ replaced hw' entry (hbuffer ▸ alone) fun hok => ?_
      rw [hitem, hok] at hcarried
      exact ((told draft found).shows hcarried).later (by rw [hm.contents]) l
    · refine .draining n ph replaced hw' entry (hbuffer ▸ alone) (told.later l ?_ (hother fun hk => hne ?_))
      · exact fun _ _ _ draft hd => .inl (hdrafts n draft hd)
      · exact hs.tended.apart hdraining (draining_of_worker hw entry) hk.symm
  | drained alone idle le_last gone shows =>
    refine .drained (hbuffer ▸ alone) (hbuffer ▸ idle) (hbuffer ▸ le_last) (hbuffer ▸ gone) ?_
    intro d hd hsequence
    rw [hm.notices, hout, List.append_nil] at hd
    refine (shows d hd hsequence).later (hother fun hk => ?_) l
    have hflight := hs.tended.flight_of hdraining
    rw [← hk, idle] at hflight
    cases hflight

end

/-! ## Runs -/

theorem Follows.step (h : Follows name t a seen w) (hs : Sound name documents w) (ha : a.item.atom = a.key)
    (hr : World.run name t seen = some w) (he : World.step name w action = some u)
    (hother : ∀ b, w.accepted? action = some b → b.key ≠ a.key)
    (henc : ∀ d, w.encoded? action = some d → d ∈ documents) : Follows name t a (seen ++ [action]) u := by
  cases World.step_cases he with
  | created => exact h.still [_] rfl rfl rfl fun _ _ _ hd => .inl hd
  | set => exact h.still [_] rfl rfl rfl fun _ _ _ hd => .inl hd
  | adjusted control => exact h.still [_] rfl rfl (by rw [Control.apply_contents]) fun _ _ _ hd => .inl hd
  | called _ _ _ _ _ moved =>
    have hnone := fun b hb => hother b (moved.accepted.trans hb)
    exact h.moved hs moved (fun _ _ => World.finish_ne_event) hnone [_]
  | moved _ _ _ plain moved =>
    refine h.moved hs moved (fun _ _ => World.finish_ne_plain plain) (fun b hb => ?_) [_]
    rw [World.accepted_of_plain plain] at hb
    cases hb
  | read worker request carries =>
    refine h.still [_] rfl rfl rfl fun n draft hn hd => ?_
    rw [Table.get?_set] at hd
    split at hd
    · cases hd
      exact .inr ⟨seen, [.read worker], w, n, rfl, hr, hn, rfl⟩
    · exact .inl hd
  | wrote worker request draft outcome store _ _ carries found carried moved =>
    refine h.wrote hs ha carries found carried moved (fun d hd => henc d ?_) [_]
    simp [World.encoded?, carries, found, hd]

theorem Follows.begin {id : Nat} {command : Command} {out : List (Notice AtomId Write)} (hs : Tended w.queue)
    (hm : World.Moved w t (command.event id) out) (ha : w.accepted? (.call id command) = some a) :
    Follows name t a [] t := by
  have turn := Queue.step_turn hs.balanced hm.step
  rw [← hm.accepted, ha] at turn
  cases turn with
  | accept _ _ buffer sequence =>
    obtain ⟨p, hp, hitem, hsequence⟩ := w.queue.buffer.insert_pending_self a.key a.item
    refine .pending p.replaced ?_
    rw [buffer, hp, ← hitem, sequence, ← hsequence]

theorem Follows.shows {e : Claimed AtomId Write} (h : Follows name t a seen w) (hs : Tended w.queue)
    (hgone : ∀ e r, .drained e r ∈ w.notices → e.sequence ∉ w.queue.buffer.outstanding)
    (he : .drained e (.ok ()) ∈ w.notices) (hsequence : e.sequence = a.sequence) :
    Shows name t seen a w.store.contents := by
  have hnot : a.sequence ∉ w.queue.buffer.outstanding := hsequence ▸ hgone e _ he
  cases h with
  | pending replaced found =>
    have hwaits : w.queue.buffer.Waits a.key a.sequence := ⟨_, found, rfl⟩
    exact absurd (hs.valid.waits_mem hwaits) hnot
  | draining n ph replaced worker entry =>
    have hflight := hs.flight_of (draining_of_worker worker entry)
    exact absurd (hs.valid.flight_mem hflight) hnot
  | drained _ _ _ _ shows => exact shows e he hsequence

end WriteBehind.Session
