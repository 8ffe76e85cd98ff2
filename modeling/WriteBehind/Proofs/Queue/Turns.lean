import WriteBehind.Proofs.Pool.Balance
import WriteBehind.Proofs.Queue.Steps

/-!
# What a step does to the entries

Each step of a queue is one of ten turns: it leaves the entries alone, accepts a write, or moves one
worker on. `step_turn` says which; what follows about entries is proved turn by turn.
-/

namespace WriteBehind.Queue

variable {κ ι : Type}

def refusal : Outcome := .error (.connectionFailed Error.closed.message)

structure Moves (s t : State κ ι) (w : Nat) (ph ph' : Phase κ ι) : Prop where
  before : s.workers[w]? = some ph
  after : t.workers = s.workers.set w ph'

/-- What a step does to the entries: what is noticed of it and the write that it accepts. -/
inductive Turn [DecidableEq κ] (s t : State κ ι) :
    List (Notice κ ι) → Option (Acceptance κ ι) → Prop where
  | rest {out : List (Notice κ ι)} (buffer : t.buffer = s.buffer) (workers : t.workers = s.workers)
    (quiet : ∀ n ∈ out, n.entry? = none) : Turn s t out none
  | accept {out : List (Notice κ ι)} (a : Acceptance κ ι) (opened : s.closed = false)
    (buffer : t.buffer = (s.buffer.insert a.key a.item).2)
    (sequence : a.sequence = (s.buffer.insert a.key a.item).1.sequence)
    (workers : t.workers = s.workers) (quiet : ∀ n ∈ out, n.entry? = none) : Turn s t out (some a)
  | claim (w : Nat) (entry : Claimed κ ι) (since : Nat)
    (move : Moves s t w .idle (.claimed ⟨entry, since⟩))
    (buffer : s.buffer.claim = (some entry, t.buffer)) : Turn s t [] none
  | exit (w : Nat) (move : Moves s t w .idle .exited) (closed : s.closed = true)
    (empty : s.buffer.pending.size = 0) (buffer : t.buffer = s.buffer) : Turn s t [] none
  | approach (w : Nat) (ph ph' : Phase κ ι) (entry : Claimed κ ι) (move : Moves s t w ph ph')
    (before : ph.awaiting? = some entry) (after : ph'.awaiting? = some entry)
    (buffer : t.buffer = s.buffer) : Turn s t [] none
  | refuse (w : Nat) (ph : Phase κ ι) (entry : Claimed κ ι) (move : Moves s t w ph (.ended entry refusal))
    (before : ph.awaiting? = some entry) (closed : s.pool.closed = true)
    (buffer : t.buffer = s.buffer) : Turn s t [] none
  | invoke (w : Nat) (drain : Drain κ ι) (c : Connection)
    (move : Moves s t w (.ready drain c) (.storing drain c.use)) (buffer : t.buffer = s.buffer) :
    Turn s t [.invoked w drain.entry c.use] none
  | finish (w : Nat) (drain : Drain κ ι) (c : Connection) (outcome : Outcome)
    (move : Moves s t w (.storing drain c) (.ended drain.entry outcome))
    (buffer : t.buffer = s.buffer) : Turn s t [] none
  | note (w : Nat) (entry : Claimed κ ι) (outcome : Outcome)
    (move : Moves s t w (.ended entry outcome) (.retiring entry outcome))
    (buffer : t.buffer = s.buffer) : Turn s t [] none
  | retire (w : Nat) (entry : Claimed κ ι) (outcome : Outcome)
    (move : Moves s t w (.retiring entry outcome) .idle)
    (buffer : t.buffer = (s.buffer.complete entry.key entry.sequence).2) :
    Turn s t [.drained entry outcome] none

variable [DecidableEq κ] {s t : State κ ι} {out : List (Notice κ ι)} {e : Event κ ι} {id w : Nat}

theorem Makes.turn {a? : Option (Acceptance κ ι)} (h : Makes s id e t out a?) : Turn s t out a? := by
  cases h with
  | tried _ _ opened => exact .accept _ opened rfl rfl rfl (by simp [Notice.entry?])
  | written _ _ opened => exact .accept _ opened rfl rfl rfl (by simp [Notice.entry?])
  | fenced _ _ opened => exact .accept _ opened rfl rfl rfl (by simp [Notice.entry?])
  | stalled _ _ _ opened => exact .accept _ opened rfl rfl rfl (by simp)
  | _ => exact .rest rfl rfl (by simp [Notice.entry?])

theorem Works.turn (hb : s.pool.Balanced) (h : Works s w t out) : Turn s t out none := by
  cases h with
  | asked => exact .rest rfl rfl nofun
  | claimed entry buffer before _ claim => exact .claim w entry s.now ⟨before, rfl⟩ claim
  | exited _ before _ _ closed empty => exact .exit w ⟨before, rfl⟩ closed empty rfl
  | slept => exact .rest rfl rfl nofun
  | lent drain c pool asks =>
    obtain ⟨before, _⟩ | ⟨before, _⟩ := asks
    · exact .approach w _ (.ready drain c) drain.entry ⟨before, rfl⟩ rfl rfl rfl
    · exact .approach w _ (.ready drain c) drain.entry ⟨before, rfl⟩ rfl rfl rfl
  | waits drain pool before =>
    exact .approach w _ (.borrowing drain) drain.entry ⟨before, rfl⟩ rfl rfl rfl
  | refused drain e pool asks =>
    obtain ⟨before, hl⟩ | ⟨before, hl⟩ := asks
    · obtain ⟨hc, rfl⟩ := (hb.acquire (.worker w)).2.2 e (by rw [hl])
      exact .refuse w _ drain.entry ⟨before, rfl⟩ rfl hc rfl
    · obtain ⟨hc, rfl⟩ := (hb.collect (.worker w)).2.2 e (by rw [hl])
      exact .refuse w _ drain.entry ⟨before, rfl⟩ rfl hc rfl
  | begun drain c before => exact .invoke w drain c ⟨before, rfl⟩ rfl
  | noted entry outcome before =>
    cases outcome with
    | ok => exact .note w entry _ ⟨before, rfl⟩ rfl
    | error => exact .note w entry _ ⟨before, rfl⟩ rfl
  | retired entry outcome before => exact .retire w entry outcome ⟨before, rfl⟩ rfl

omit [DecidableEq κ] in
theorem Moves.stay {ph : Phase κ ι} (before : s.workers[w]? = some ph) (workers : t.workers = s.workers) :
    Moves s t w ph ph := by
  obtain ⟨hlt, rfl⟩ := List.getElem?_eq_some_iff.mp before
  exact ⟨before, by rw [workers, List.set_getElem_self]⟩

theorem Works.moves (h : Works s w t out) :
    ∃ ph ph', Moves s t w ph ph' ∧ ∀ drain c, ph ≠ .storing drain c := by
  cases h with
  | asked before | slept _ before => exact ⟨_, _, .stay before rfl, by simp⟩
  | lent drain c pool asks =>
    obtain ⟨before, _⟩ | ⟨before, _⟩ := asks <;> exact ⟨_, _, ⟨before, rfl⟩, by simp⟩
  | refused drain e pool asks =>
    obtain ⟨before, _⟩ | ⟨before, _⟩ := asks <;> exact ⟨_, _, ⟨before, rfl⟩, by simp⟩
  | noted entry outcome before => cases outcome <;> exact ⟨_, _, ⟨before, rfl⟩, by simp⟩
  | _ => exact ⟨_, _, ⟨by assumption, rfl⟩, by simp⟩

variable [Named κ]

theorem Looks.turn {c : Call} (h : Looks s id c t out) : Turn s t out none := by
  cases h <;> exact .rest rfl rfl (by simp [Notice.entry?])

theorem step_turn (hb : s.pool.Balanced) (h : step s e = some (t, out)) :
    Turn s t out (accepted? e (t, out)) := by
  cases step_cases h with
  | made id _ _ _ _ a? free makes => rw [makes.accepted free]; exact makes.turn
  | work w _ _ works => exact works.turn hb
  | finish w outcome drain c before => exact .finish w drain c outcome ⟨before, rfl⟩ rfl
  | look id c _ _ _ looks => exact looks.turn
  | _ => exact .rest rfl rfl (by simp [Notice.entry?])

end WriteBehind.Queue
