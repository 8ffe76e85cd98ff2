import Mathlib.Data.List.Nodup
import WriteBehind.Proofs.Buffer.Valid

/-!
# Runs of a buffer

A buffer changes by inserts, claims and completions, in any order. As long as only entries in flight
are completed, its five parts agree after every run, and new entries have been numbered 1, 2, 3 and so
on without gaps. A completion tells that the identity has a pending entry, which was blocked until then.
-/

namespace WriteBehind

/-! ## Tables as lists of entries -/

theorem Table.find?_eq_some {κ α : Type} [DecidableEq κ] {k : κ} {a : α} {entries : List (κ × α)}
    (h : (entries.map (·.1)).Nodup) : find? k entries = some a ↔ (k, a) ∈ entries := by
  induction entries with
  | nil => simp [find?]
  | cons e entries ih =>
    obtain ⟨k', a'⟩ := e
    rw [List.map_cons, List.nodup_cons] at h
    by_cases hk : k' = k
    · subst hk
      have hn : (k', a) ∉ entries := fun hm => h.1 (List.mem_map.mpr ⟨_, hm, rfl⟩)
      simp [find?, hn, eq_comm]
    · simp [find?, hk, Ne.symm hk, ih h.2]

theorem Table.get?_eq_some {κ α : Type} [DecidableEq κ] {t : Table κ α} {k : κ} {a : α} :
    t.get? k = some a ↔ (k, a) ∈ t.entries := Table.find?_eq_some t.distinct

theorem Table.mem_values {κ α : Type} [DecidableEq κ] {t : Table κ α} {a : α} :
    a ∈ t.values ↔ ∃ k, t.get? k = some a := by
  simp [Table.values, Table.get?_eq_some]

theorem Table.map_values_nodup {κ α β : Type} [DecidableEq κ] (t : Table κ α) (f : α → β)
    (h : ∀ k k' a a', t.get? k = some a → t.get? k' = some a' → f a = f a' → k = k') :
    (t.values.map f).Nodup := by
  unfold Table.values
  rw [List.map_map]
  apply List.Nodup.map_on
  · intro x hx y hy hf
    have hk := h x.1 y.1 x.2 y.2 (Table.get?_eq_some.mpr hx) (Table.get?_eq_some.mpr hy) hf
    have hx' := Table.get?_eq_some.mpr hx
    have hy' := Table.get?_eq_some.mpr hy
    rw [hk, hy', Option.some.injEq] at hx'
    exact Prod.ext hk hx'.symm
  · exact t.distinct.of_map

theorem Table.length_values {κ α : Type} (t : Table κ α) : t.values.length = t.size := List.length_map _

namespace Buffer

variable {κ ι : Type} [DecidableEq κ] {b b' : Buffer κ ι} {k : κ} {q : Sequence}

/-! ## Numbers of a buffer -/

omit [DecidableEq κ] in
def pendingNumbers (b : Buffer κ ι) : List Sequence := b.pending.values.map (·.sequence)

omit [DecidableEq κ] in
def flightNumbers (b : Buffer κ ι) : List Sequence := b.inFlight.values

theorem mem_pendingNumbers : q ∈ b.pendingNumbers ↔ ∃ k, b.Waits k q := by
  unfold pendingNumbers Waits
  rw [List.mem_map]
  constructor
  · intro ⟨p, hp, hq⟩
    obtain ⟨k, hk⟩ := Table.mem_values.mp hp
    exact ⟨k, p, hk, hq⟩
  · intro ⟨k, p, hk, hq⟩
    exact ⟨p, Table.mem_values.mpr ⟨k, hk⟩, hq⟩

theorem mem_flightNumbers : q ∈ b.flightNumbers ↔ ∃ k, b.inFlight.get? k = some q := Table.mem_values

theorem Valid.numbers_nodup (h : b.Valid) : (b.pendingNumbers ++ b.flightNumbers).Nodup := by
  have hp : b.pendingNumbers.Nodup := by
    apply Table.map_values_nodup
    intro k k' p p' hp hp' hq
    exact h.waits_inj ⟨p, hp, hq⟩ ⟨p', hp', rfl⟩
  have hf : b.flightNumbers.Nodup := by
    have := Table.map_values_nodup b.inFlight id fun k k' q q' hq hq' he => by
      have : q = q' := he
      exact h.flight_inj q k k' hq (this ▸ hq')
    rwa [List.map_id] at this
  refine List.nodup_append.mpr ⟨hp, hf, ?_⟩
  intro q hq q' hq' he
  subst he
  obtain ⟨k, hw⟩ := mem_pendingNumbers.mp hq
  obtain ⟨k', hk⟩ := mem_flightNumbers.mp hq'
  exact h.flight_waits q k' k hk hw

theorem Valid.outstanding_perm (h : b.Valid) :
    b.outstanding.Perm (b.pendingNumbers ++ b.flightNumbers) := by
  have hn : b.outstanding.Nodup := by
    apply h.outstanding_sorted.imp
    intro q q' hlt he
    subst he
    exact Nat.lt_irrefl _ hlt
  apply (List.perm_ext_iff_of_nodup hn h.numbers_nodup).mpr
  intro q
  rw [h.mem_outstanding, List.mem_append, mem_pendingNumbers, mem_flightNumbers]

theorem Valid.depth_eq (h : b.Valid) : b.depth = b.pending.size + b.inFlight.size := by
  have := h.outstanding_perm.length_eq
  simpa [depth, pendingNumbers, flightNumbers, Table.length_values] using this

/-! ## Operations -/

inductive Op (κ ι : Type) where
  | insert (key : κ) (item : ι)
  | claim
  | complete (key : κ) (sequence : Sequence)

inductive Reply (κ ι : Type) where
  | inserted (inserted : Inserted)
  | claimed (got? : Option (Claimed κ ι))
  | completed (claimable : Bool)

def apply (b : Buffer κ ι) : Op κ ι → Reply κ ι × Buffer κ ι
  | .insert key item => ((.inserted (b.insert key item).1), (b.insert key item).2)
  | .claim => (.claimed b.claim.1, b.claim.2)
  | .complete key sequence => (.completed (b.complete key sequence).1, (b.complete key sequence).2)

def run (b : Buffer κ ι) : List (Op κ ι) → List (Reply κ ι) × Buffer κ ι
  | [] => ([], b)
  | op :: ops => ((b.apply op).1 :: ((b.apply op).2.run ops).1, ((b.apply op).2.run ops).2)

/-- What is completed is in flight. -/
def Allows (b : Buffer κ ι) : Op κ ι → Prop
  | .complete key sequence => b.inFlight.get? key = some sequence
  | _ => True

def Proper (b : Buffer κ ι) : List (Op κ ι) → Prop
  | [] => True
  | op :: ops => b.Allows op ∧ (b.apply op).2.Proper ops

theorem Valid.apply (h : b.Valid) {op : Op κ ι} (ha : b.Allows op) : (b.apply op).2.Valid := by
  cases op with
  | insert key item => exact h.insert key item
  | claim =>
    show b.claim.2.Valid
    cases hc : b.claim with
    | mk e b' =>
      cases e with
      | none => rw [(h.claim_none hc).1]; exact h
      | some e => exact h.claim hc
  | complete key sequence => exact h.complete ha

theorem Valid.run (h : b.Valid) {ops : List (Op κ ι)} (hp : b.Proper ops) : (b.run ops).2.Valid := by
  induction ops generalizing b with
  | nil => exact h
  | cons op ops ih => exact ih (h.apply hp.1) hp.2

/-! ## Numbering -/

def Reply.created? : Reply κ ι → Option Sequence
  | inserted (.new q) => some q
  | _ => none

def created (replies : List (Reply κ ι)) : List Sequence := replies.filterMap Reply.created?

theorem apply_last (b : Buffer κ ι) (op : Op κ ι) :
    (b.apply op).1.created? = none ∧ (b.apply op).2.last = b.last ∨
      (b.apply op).1.created? = some b.last.next ∧ (b.apply op).2.last = b.last.next := by
  cases op with
  | insert key item =>
    cases hp : b.pending.get? key with
    | some p => left; simp [apply, insert_coalesced hp, Reply.created?]
    | none => right; simp [apply, insert_new hp, Reply.created?]
  | claim => exact .inl ⟨rfl, claim_last rfl⟩
  | complete key sequence => exact .inl ⟨rfl, rfl⟩

theorem run_last (b : Buffer κ ι) (ops : List (Op κ ι)) :
    (b.run ops).2.last.val = b.last.val + (created (b.run ops).1).length ∧
      created (b.run ops).1 =
        (List.range' (b.last.val + 1) (created (b.run ops).1).length).map Sequence.mk := by
  induction ops generalizing b with
  | nil => exact ⟨rfl, rfl⟩
  | cons op ops ih =>
    obtain ⟨hlast, hcreated⟩ := ih (b.apply op).2
    by_cases hn : (b.apply op).1.created? = none
    · have hl : (b.apply op).2.last = b.last := by
        rcases apply_last b op with h | h
        · exact h.2
        · rw [hn] at h; cases h.1
      have hc : created (b.run (op :: ops)).1 = created ((b.apply op).2.run ops).1 :=
        List.filterMap_cons_none hn
      rw [hc]
      rw [hl] at hlast hcreated
      exact ⟨hlast, hcreated⟩
    · obtain ⟨hs, hl⟩ := (apply_last b op).resolve_left fun h => hn h.1
      have hc : created (b.run (op :: ops)).1 = b.last.next :: created ((b.apply op).2.run ops).1 :=
        List.filterMap_cons_some hs
      rw [hc, List.length_cons]
      rw [hl] at hlast hcreated
      refine ⟨?_, ?_⟩
      · show ((b.apply op).2.run ops).2.last.val = _
        rw [hlast]
        simp [Sequence.next]
        omega
      · rw [List.range'_succ, List.map_cons]
        exact congrArg (b.last.next :: ·) hcreated

/-! ## Entries that can be claimed -/

def Claimable (b : Buffer κ ι) (k : κ) : Prop :=
  ∃ n e, .claimed (some e) ∈ (b.run (List.replicate n .claim)).1 ∧ e.key = k

theorem Valid.free_of_claims (h : b.Valid) {n : Nat} {e : Claimed κ ι}
    (he : .claimed (some e) ∈ (b.run (List.replicate n .claim)).1) :
    (∃ p, b.pending.get? e.key = some p) ∧ b.inFlight.get? e.key = none := by
  induction n generalizing b with
  | zero => cases he
  | succ n ih =>
    cases hc : b.claim with
    | mk d? b' =>
      have hrun : (b.run (List.replicate (n + 1) .claim)).1 =
          .claimed d? :: (b'.run (List.replicate n .claim)).1 := by
        rw [List.replicate_succ]
        show _ :: _ = _
        simp [Buffer.apply, hc]
      rw [hrun] at he
      cases d? with
      | none =>
        obtain ⟨rfl, _⟩ := h.claim_none hc
        exact ih h (by simpa using he)
      | some d =>
        obtain ⟨hp, hf, l₁, l₂, _, _, hb⟩ := h.claim_some hc
        rcases List.mem_cons.mp he with heq | he
        · cases heq
          exact ⟨⟨_, hp⟩, hf⟩
        · obtain ⟨⟨p, hp'⟩, hf'⟩ := ih (h.claim hc) he
          rw [hb] at hp' hf'
          simp only [Table.get?_erase, Table.get?_set] at hp' hf'
          by_cases hk : d.key = e.key
          · simp [hk] at hf'
          · rw [if_neg hk] at hp' hf'
            exact ⟨⟨p, hp'⟩, hf'⟩

theorem Valid.claims_of_free (h : b.Valid) {p : Pending ι} (hp : b.pending.get? k = some p)
    (hf : b.inFlight.get? k = none) : b.Claimable k := by
  -- Each claim shortens the order, so the entry's turn comes.
  induction hlen : b.order.length generalizing b with
  | zero =>
    have hm := (h.mem_order p.sequence k).mpr ⟨p, hp, rfl⟩
    rw [List.length_eq_zero_iff.mp hlen] at hm
    cases hm
  | succ m ih =>
    cases hc : b.claim with
    | mk d? b' =>
      cases d? with
      | none =>
        have := (h.claim_none hc).2 k p.sequence ⟨p, hp, rfl⟩
        rw [Table.contains_eq_false.mpr hf] at this
        cases this
      | some d =>
        obtain ⟨_, _, l₁, l₂, ho, _, hb⟩ := h.claim_some hc
        by_cases hk : d.key = k
        · exact ⟨1, d, by simp [Buffer.run, Buffer.apply, hc], hk⟩
        · have hlen' : b'.order.length = m := by
            rw [ho] at hlen
            rw [hb]
            simp only [List.length_append, List.length_cons] at hlen ⊢
            omega
          have hp' : b'.pending.get? k = some p := by rw [hb]; simp [Table.get?_erase, hk, hp]
          have hf' : b'.inFlight.get? k = none := by rw [hb]; simp [Table.get?_set, hk, hf]
          obtain ⟨n, e, he, hek⟩ := ih (h.claim hc) hp' hf' hlen'
          refine ⟨n + 1, e, ?_, hek⟩
          rw [List.replicate_succ]
          show _ ∈ _ :: _
          simp [Buffer.apply, hc, he]

theorem Valid.claimable_iff (h : b.Valid) :
    b.Claimable k ↔ (∃ p, b.pending.get? k = some p) ∧ b.inFlight.get? k = none := by
  constructor
  · intro ⟨n, e, he, hk⟩
    subst hk
    exact h.free_of_claims he
  · intro ⟨⟨p, hp⟩, hf⟩
    exact h.claims_of_free hp hf

/-- A completion answers whether it has made a pending entry of its identity claimable. -/
theorem Valid.complete_eq_true_iff (h : b.Valid) (hf : b.inFlight.get? k = some q) :
    (b.complete k q).1 = true ↔
      (∃ p, b.pending.get? k = some p) ∧ ¬ b.Claimable k ∧ (b.complete k q).2.Claimable k := by
  rw [h.claimable_iff, (h.complete hf).claimable_iff, complete_flight hf]
  show b.pending.contains k = true ↔
    (∃ p, b.pending.get? k = some p) ∧ _ ∧ (∃ p, b.pending.get? k = some p) ∧ _
  unfold Table.contains
  rw [Option.isSome_iff_exists, hf]
  simp

/-- The parts of a buffer agree after every run in which only entries in flight are completed. -/
theorem parts_agree (ops : List (Op κ ι)) (h : ({} : Buffer κ ι).Proper ops) {replies : List (Reply κ ι)}
    (hr : ({} : Buffer κ ι).run ops = (replies, b)) :
    b.order.Pairwise (fun x y => x.1 < y.1) ∧ (b.order.map (·.2)).Nodup ∧
    (∀ q k, (q, k) ∈ b.order ↔ ∃ p, b.pending.get? k = some p ∧ p.sequence = q) ∧
    (b.pendingNumbers ++ b.flightNumbers).Nodup ∧
    b.outstanding.Perm (b.pendingNumbers ++ b.flightNumbers) ∧
    b.depth = b.pending.size + b.inFlight.size ∧
    (∀ q ∈ b.outstanding, 1 ≤ q.val ∧ q ≤ b.last) ∧
    (∀ k q p, b.inFlight.get? k = some q → b.pending.get? k = some p → q < p.sequence) ∧
    (created replies).length = b.last.val ∧
    created replies = (List.range' 1 b.last.val).map Sequence.mk ∧
    ∀ k q, b.inFlight.get? k = some q → ((b.complete k q).1 = true ↔
      (∃ p, b.pending.get? k = some p) ∧ ¬ b.Claimable k ∧ (b.complete k q).2.Claimable k) := by
  have hb : b = (({} : Buffer κ ι).run ops).2 := by rw [hr]
  have hc : replies = (({} : Buffer κ ι).run ops).1 := by rw [hr]
  have hv : b.Valid := hb ▸ empty_valid.run h
  obtain ⟨hlast, hcreated⟩ := run_last ({} : Buffer κ ι) ops
  rw [← hb, ← hc] at hlast
  rw [← hc] at hcreated
  have hlen : (created replies).length = b.last.val := by
    rw [hlast]
    exact (Nat.zero_add _).symm
  rw [hlen] at hcreated
  refine ⟨hv.sorted, hv.keys_nodup, hv.mem_order, hv.numbers_nodup, hv.outstanding_perm, hv.depth_eq,
    ?_, ?_, hlen, hcreated, fun k q hf => hv.complete_eq_true_iff hf⟩
  · intro q hq
    exact ⟨hv.positive q hq, hv.le_last q hq⟩
  · intro k q p hf hp
    exact hv.flight_lt q p.sequence k hf ⟨p, hp, rfl⟩

def rewritten : List (Op String Nat) :=
  [.insert "a" 1, .insert "b" 2, .claim, .insert "a" 3, .claim, .complete "b" ⟨2⟩, .insert "b" 4]

theorem parts_agree_rewritten : ({} : Buffer String Nat).Proper rewritten ∧ ∃ replies b,
    ({} : Buffer String Nat).run rewritten = (replies, b) ∧
    b.order = [(⟨3⟩, "a"), (⟨4⟩, "b")] ∧ b.inFlight.get? "a" = some ⟨1⟩ ∧
    b.outstanding.Perm (b.pendingNumbers ++ b.flightNumbers) ∧ b.depth = b.pending.size + b.inFlight.size ∧
    created replies = (List.range' 1 b.last.val).map Sequence.mk ∧
    ¬ b.Claimable "a" ∧ (b.complete "a" ⟨1⟩).2.Claimable "a" := by
  have hp : ({} : Buffer String Nat).Proper rewritten :=
    ⟨trivial, trivial, trivial, trivial, trivial, rfl, trivial, trivial⟩
  obtain ⟨replies, b, hr, ho, hf, hc⟩ : ∃ replies b, ({} : Buffer String Nat).run rewritten = (replies, b) ∧
      b.order = [(⟨3⟩, "a"), (⟨4⟩, "b")] ∧ b.inFlight.get? "a" = some ⟨1⟩ ∧
      (b.complete "a" ⟨1⟩).1 = true := ⟨_, _, rfl, rfl, rfl, rfl⟩
  obtain ⟨_, _, _, _, hperm, hdepth, _, _, _, hcreated, hcomplete⟩ := parts_agree rewritten hp hr
  obtain ⟨_, hblocked, hfree⟩ := (hcomplete "a" ⟨1⟩ hf).mp hc
  exact ⟨hp, replies, b, hr, ho, hf, hperm, hdepth, hcreated, hblocked, hfree⟩

end Buffer

end WriteBehind
