import WriteBehind.Proofs.Buffer.Depth
import WriteBehind.Proofs.Buffer.Dispatch

/-!
# Stray completions

A completion may be wrong, early, late or repeated: then what it names is not in flight. It takes a number
from the outstanding ones and changes nothing else, and no insert and no claim looks at these. So a run with
such completions goes like the run without them, which is proper: its parts agree. What is left of that with
them is that the outstanding numbers are some of those that are pending or in flight.
-/

namespace WriteBehind.Buffer

variable {κ ι : Type} [DecidableEq κ] {b c : Buffer κ ι} {e : Claimed κ ι} {k : κ} {q : Sequence}
  {p : Pending ι} {op : Op κ ι} {ops : List (Op κ ι)}

/-! ## Runs without stray completions -/

/-- A completion of what is not in flight. -/
def isStray (b : Buffer κ ι) : Op κ ι → Bool
  | .complete key sequence => decide (b.inFlight.get? key ≠ some sequence)
  | _ => false

def withoutStrays (b : Buffer κ ι) : List (Op κ ι) → List (Op κ ι)
  | [] => []
  | op :: ops =>
    if b.isStray op then (b.apply op).2.withoutStrays ops else op :: (b.apply op).2.withoutStrays ops

def Reply.isDispatch : Reply κ ι → Bool
  | completed _ => false
  | _ => true

theorem run_append (b : Buffer κ ι) (front back : List (Op κ ι)) :
    (b.run (front ++ back)).2 = ((b.run front).2.run back).2 := by
  induction front generalizing b with
  | nil => rfl
  | cons op front ih => exact ih (b.apply op).2

theorem withoutStrays_append (b : Buffer κ ι) (front back : List (Op κ ι)) :
    b.withoutStrays (front ++ back) = b.withoutStrays front ++ (b.run front).2.withoutStrays back := by
  induction front generalizing b with
  | nil => rfl
  | cons op front ih =>
    have later := ih (b.apply op).2
    simp only [List.cons_append, withoutStrays]
    split
    case isTrue => exact later
    case isFalse => exact congrArg (op :: ·) later

theorem isStray_eq_true (h : b.isStray op = true) :
    ∃ key sequence, op = .complete key sequence ∧ b.inFlight.get? key ≠ some sequence := by
  cases op with
  | complete key sequence => exact ⟨key, sequence, rfl, of_decide_eq_true h⟩
  | _ => cases h

theorem complete_stray {key : κ} {sequence : Sequence} (h : b.inFlight.get? key ≠ some sequence) :
    (b.complete key sequence).2 =
      { b with outstanding := b.outstanding.filter fun s => decide (s ≠ sequence) } := by
  simp [complete, h]

/-! ## Two runs compared -/

/-- The buffers differ in outstanding numbers only, and the first has fewer. -/
structure Shadows (b c : Buffer κ ι) : Prop where
  pending : b.pending = c.pending
  order : b.order = c.order
  inFlight : b.inFlight = c.inFlight
  last : b.last = c.last
  fewer : b.outstanding.Sublist c.outstanding

omit [DecidableEq κ] in
theorem Shadows.refl (b : Buffer κ ι) : Shadows b b := ⟨rfl, rfl, rfl, rfl, .refl _⟩

omit [DecidableEq κ] in
theorem Shadows.eq (h : Shadows b c) : b = { c with outstanding := b.outstanding } := by
  cases b
  simp [← h.pending, ← h.order, ← h.inFlight, ← h.last]

theorem claim_outstanding_irrelevant (c : Buffer κ ι) (l : List Sequence) :
    claim { c with outstanding := l } = (c.claim.1, { c.claim.2 with outstanding := l }) := by
  unfold Buffer.claim
  cases takeFirst (fun e => !c.inFlight.contains e.2) c.order with
  | none => rfl
  | some found =>
    obtain ⟨⟨q, k⟩, rest⟩ := found
    dsimp only
    cases c.pending.get? k <;> rfl

theorem Shadows.apply (h : Shadows b c) (op : Op κ ι) :
    (b.apply op).1 = (c.apply op).1 ∧ Shadows (b.apply op).2 (c.apply op).2 := by
  have fewer := h.fewer
  rw [h.eq]
  generalize b.outstanding = l at fewer ⊢
  cases op with
  | insert key item =>
    cases hp : c.pending.get? key with
    | some p =>
      have hl : insert { c with outstanding := l } key item = _ := insert_coalesced hp
      simp only [Buffer.apply, insert_coalesced hp, hl]
      exact ⟨trivial, rfl, rfl, rfl, rfl, fewer⟩
    | none =>
      have hl : insert { c with outstanding := l } key item = _ := insert_new hp
      simp only [Buffer.apply, insert_new hp, hl]
      exact ⟨trivial, rfl, rfl, rfl, rfl, fewer.append_right _⟩
  | claim =>
    simp only [Buffer.apply, claim_outstanding_irrelevant]
    exact ⟨trivial, rfl, rfl, rfl, rfl, (claim_outstanding (b := c) rfl).symm ▸ fewer⟩
  | complete key sequence => exact ⟨rfl, rfl, rfl, rfl, rfl, fewer.filter _⟩

theorem Shadows.stray (h : Shadows b c) (hs : b.isStray op = true) : Shadows (b.apply op).2 c := by
  obtain ⟨key, sequence, rfl, hne⟩ := isStray_eq_true hs
  show Shadows (b.complete key sequence).2 c
  rw [complete_stray hne]
  exact ⟨h.pending, h.order, h.inFlight, h.last, List.filter_sublist.trans h.fewer⟩

theorem Shadows.allows (h : Shadows b c) (hs : b.isStray op = false) : c.Allows op := by
  cases op with
  | complete key sequence =>
    have hf : b.inFlight.get? key = some sequence := by simpa [isStray] using hs
    rw [h.inFlight] at hf
    exact hf
  | _ => trivial

theorem Shadows.run (h : Shadows b c) (ops : List (Op κ ι)) :
    c.Proper (b.withoutStrays ops) ∧ Shadows (b.run ops).2 (c.run (b.withoutStrays ops)).2 ∧
      (c.run (b.withoutStrays ops)).1.filter Reply.isDispatch = (b.run ops).1.filter Reply.isDispatch := by
  induction ops generalizing b c with
  | nil => exact ⟨trivial, h, rfl⟩
  | cons op ops ih =>
    cases hs : b.isStray op with
    | true =>
      obtain ⟨proper, shadows, replies⟩ := ih (h.stray hs)
      obtain ⟨key, sequence, rfl, _⟩ := isStray_eq_true hs
      have hskip : b.withoutStrays (.complete key sequence :: ops) = _ := if_pos hs
      rw [hskip]
      exact ⟨proper, shadows, replies⟩
    | false =>
      obtain ⟨hreply, hnext⟩ := h.apply op
      obtain ⟨proper, shadows, replies⟩ := ih hnext
      have hkeep : b.withoutStrays (op :: ops) = op :: (b.apply op).2.withoutStrays ops :=
        if_neg (by simp [hs])
      rw [hkeep]
      refine ⟨⟨h.allows hs, proper⟩, shadows, ?_⟩
      simp only [Buffer.run, List.filter_cons, hreply, replies]

theorem Shadows.claims (h : Shadows b c) (n : Nat) :
    (b.run (List.replicate n .claim)).1 = (c.run (List.replicate n .claim)).1 := by
  induction n generalizing b c with
  | zero => rfl
  | succ n ih =>
    obtain ⟨hreply, hnext⟩ := h.apply .claim
    simp only [List.replicate_succ, Buffer.run, hreply, ih hnext]

/-! ## What remains of validity -/

/-- The buffer differs from one whose parts agree only in having fewer outstanding numbers. -/
def Sound (b : Buffer κ ι) : Prop := ∃ c, Shadows b c ∧ c.Valid

theorem Valid.sound (h : b.Valid) : b.Sound := ⟨b, .refl b, h⟩

theorem Sound.apply (h : b.Sound) (op : Op κ ι) : (b.apply op).2.Sound := by
  obtain ⟨c, hs, hv⟩ := h
  cases stray : b.isStray op with
  | true => exact ⟨c, hs.stray stray, hv⟩
  | false => exact ⟨_, (hs.apply op).2, hv.apply (hs.allows stray)⟩

theorem Sound.run (h : b.Sound) (ops : List (Op κ ι)) : (b.run ops).2.Sound := by
  induction ops generalizing b with
  | nil => exact h
  | cons op ops ih => exact ih (h.apply op)

theorem sound_run (ops : List (Op κ ι)) : (({} : Buffer κ ι).run ops).2.Sound := empty_valid.sound.run ops

theorem Sound.outstanding_nodup (h : b.Sound) : b.outstanding.Nodup := by
  obtain ⟨c, hs, hv⟩ := h
  exact (hv.outstanding_perm.nodup_iff.mpr hv.numbers_nodup).sublist hs.fewer

theorem Sound.outstanding_subset (h : b.Sound) (hq : q ∈ b.outstanding) :
    q ∈ b.pendingNumbers ++ b.flightNumbers := by
  obtain ⟨c, hs, hv⟩ := h
  unfold pendingNumbers flightNumbers
  rw [hs.pending, hs.inFlight]
  exact hv.outstanding_perm.mem_iff.mp (hs.fewer.subset hq)

theorem Sound.depth_le (h : b.Sound) : b.depth ≤ b.pending.size + b.inFlight.size := by
  obtain ⟨c, hs, hv⟩ := h
  rw [hs.pending, hs.inFlight, ← hv.depth_eq]
  exact hs.fewer.length_le

theorem Sound.le_last (h : b.Sound) (hf : b.inFlight.get? k = some q) : q ≤ b.last := by
  obtain ⟨c, hs, hv⟩ := h
  rw [hs.last]
  exact hv.le_last q (hv.flight_mem (hs.inFlight ▸ hf))

theorem Sound.complete_stray (h : b.Sound) (hf : b.inFlight.get? k ≠ some q) :
    (b.complete k q).2 = { b with outstanding := b.outstanding.erase q } := by
  rw [Buffer.complete_stray hf, h.outstanding_nodup.erase_eq_filter]
  congr 1
  exact List.filter_congr fun s _ => by simp [bne, Bool.beq_eq_decide_eq]

theorem Sound.claim_oldest (h : b.Sound) (hc : b.claim.1 = some e) : b.Oldest e := by
  obtain ⟨c, hs, hv⟩ := h
  have hreply : Reply.claimed b.claim.1 = .claimed c.claim.1 := (hs.apply .claim).1
  obtain ⟨pending, free, least⟩ := hv.claim_eq_some_iff.mp (Reply.claimed.inj hreply ▸ hc)
  exact ⟨hs.pending ▸ pending, hs.inFlight ▸ free, hs.pending ▸ hs.inFlight ▸ least⟩

theorem Sound.claim_some (h : b.Sound) (hc : b.claim.1 = some e) :
    b.claim.2.pending = b.pending.erase e.key ∧ b.claim.2.inFlight = b.inFlight.set e.key e.sequence := by
  obtain ⟨c, hs, hv⟩ := h
  obtain ⟨hreply, hnext⟩ := hs.apply .claim
  have hc' : c.claim.1 = some e := Reply.claimed.inj hreply ▸ hc
  obtain ⟨_, _, _, _, _, _, hb⟩ := hv.claim_some (claim_eq hc')
  have hpending : b.claim.2.pending = c.claim.2.pending := hnext.pending
  have hflight : b.claim.2.inFlight = c.claim.2.inFlight := hnext.inFlight
  rw [hpending, hflight, hb, hs.pending, hs.inFlight]
  exact ⟨rfl, rfl⟩

theorem Sound.claim_none (h : b.Sound) (hc : b.claim.1 = none) : b.claim.2 = b := by
  obtain ⟨c, hs, hv⟩ := h
  obtain ⟨hreply, hnext⟩ := hs.apply .claim
  have hc' : c.claim.1 = none := Reply.claimed.inj hreply ▸ hc
  have hnext : b.claim.2 = { c.claim.2 with outstanding := b.claim.2.outstanding } := hnext.eq
  have hkept : b.claim.2.outstanding = b.outstanding := claim_outstanding rfl
  rw [hnext, (hv.claim_none (claim_eq hc')).1, hkept]
  exact hs.eq.symm

theorem Sound.claimable_iff (h : b.Sound) :
    b.Claimable k ↔ (∃ p, b.pending.get? k = some p) ∧ b.inFlight.get? k = none := by
  obtain ⟨c, hs, hv⟩ := h
  have hclaimable : b.Claimable k ↔ c.Claimable k := by simp only [Claimable, hs.claims]
  rw [hclaimable, hv.claimable_iff, hs.pending, hs.inFlight]

/-! ## Entries in flight -/

theorem Sound.flight_stays (h : b.Sound) (hf : b.inFlight.get? k = some q) (hn : op ≠ .complete k q) :
    (b.apply op).2.inFlight.get? k = some q := by
  cases op with
  | insert key item =>
    show (b.insert key item).2.inFlight.get? k = some q
    rw [insert_inFlight]
    exact hf
  | claim =>
    show b.claim.2.inFlight.get? k = some q
    cases hc : b.claim.1 with
    | none => rw [h.claim_none hc]; exact hf
    | some e =>
      rw [(h.claim_some hc).2, Table.get?_set, if_neg, hf]
      rintro rfl
      rw [(h.claim_oldest hc).free] at hf
      cases hf
  | complete key sequence =>
    show (b.complete key sequence).2.inFlight.get? k = some q
    by_cases hs : b.inFlight.get? key = some sequence
    · rw [complete_flight hs, if_neg, hf]
      rintro rfl
      rw [hf] at hs
      cases hs
      exact hn rfl
    · rw [Buffer.complete_stray hs]
      exact hf

theorem Sound.flight_stays_run (h : b.Sound) (hf : b.inFlight.get? k = some q)
    (hn : Op.complete k q ∉ ops) : (b.run ops).2.inFlight.get? k = some q := by
  induction ops generalizing b with
  | nil => exact hf
  | cons op ops ih =>
    rw [List.mem_cons, not_or] at hn
    exact ih (h.apply op) (h.flight_stays hf (Ne.symm hn.1)) hn.2

theorem Sound.completed_between {e' : Claimed κ ι} (h : b.Sound) (he : b.claim.1 = some e)
    (he' : (b.claim.2.run ops).2.claim.1 = some e') (hk : e.key = e'.key) :
    Op.complete e.key e.sequence ∈ ops := by
  have hnext : b.claim.2.Sound := h.apply .claim
  by_contra hn
  have hf : b.claim.2.inFlight.get? e.key = some e.sequence := by
    rw [(h.claim_some he).2, Table.get?_set, if_pos rfl]
  have hstays := hnext.flight_stays_run hf hn
  rw [hk, ((hnext.run ops).claim_oldest he').free] at hstays
  cases hstays

/-! ## Pending payloads -/

theorem Sound.pending_stays (h : b.Sound) (hp : b.pending.get? k = some p)
    (hn : ∀ item, op ≠ .insert k item) :
    (b.apply op).2.pending.get? k = some p ∨
      (b.apply op).1 = .claimed (some ⟨k, p.sequence, p.item, p.replaced⟩) := by
  cases op with
  | insert key item =>
    have hk : k ≠ key := fun heq => hn item (heq ▸ rfl)
    exact .inl ((b.insert_pending key k item hk).trans hp)
  | claim =>
    show b.claim.2.pending.get? k = some p ∨ Reply.claimed b.claim.1 = _
    cases hc : b.claim.1 with
    | none => rw [h.claim_none hc]; exact .inl hp
    | some e =>
      by_cases hk : e.key = k
      · have he := (h.claim_oldest hc).pending
        rw [hk, hp, Option.some.injEq] at he
        subst hk he
        exact .inr rfl
      · rw [(h.claim_some hc).1, Table.get?_erase, if_neg hk]
        exact .inl hp
  | complete key sequence => exact .inl hp

theorem Sound.pending_stays_run (h : b.Sound) (hp : b.pending.get? k = some p)
    (hn : ∀ item, Op.insert k item ∉ ops) :
    (b.run ops).2.pending.get? k = some p ∨
      ⟨k, p.sequence, p.item, p.replaced⟩ ∈ claims (b.run ops).1 := by
  induction ops generalizing b with
  | nil => exact .inl hp
  | cons op ops ih =>
    rw [claims_cons, List.mem_append]
    obtain hstays | hclaimed := h.pending_stays hp fun item heq => hn item (heq ▸ List.mem_cons_self)
    · exact (ih (h.apply op) hstays fun item hm => hn item (List.mem_cons_of_mem op hm)).imp_right .inr
    · rw [hclaimed]
      exact .inr (.inl (List.mem_singleton.mpr rfl))

/-! ## Repeated completions -/

theorem complete_twice (b : Buffer κ ι) (k : κ) (q : Sequence) :
    (b.complete k q).2.complete k q = b.complete k q := by
  by_cases hf : b.inFlight.get? k = some q
  · have herased : (b.inFlight.erase k).get? k ≠ some q := by simp [Table.get?_erase]
    simp [complete, hf, herased, List.filter_filter]
  · simp [complete, hf, List.filter_filter]

structure Over (b : Buffer κ ι) (k : κ) (q : Sequence) : Prop where
  given : q ≤ b.last
  retired : q ∉ b.outstanding
  landed : b.inFlight.get? k ≠ some q
  claimed : ¬ b.Waits k q

theorem Sound.over (h : b.Sound) (hf : b.inFlight.get? k = some q) : (b.complete k q).2.Over k q where
  given := h.le_last hf
  retired := by simp [mem_complete_outstanding]
  landed := by simp [complete_flight hf]
  claimed hw := by
    obtain ⟨c, hs, hv⟩ := h
    have hw' : c.Waits k q := by
      unfold Waits
      rw [← hs.pending]
      exact hw
    exact hv.flight_waits q k k (hs.inFlight ▸ hf) hw'

theorem Over.complete (h : b.Over k q) : (b.complete k q).2 = b := by
  rw [Buffer.complete_stray h.landed]
  have hall : b.outstanding.filter (fun s => decide (s ≠ q)) = b.outstanding :=
    List.filter_eq_self.mpr fun s hs => decide_eq_true fun heq => h.retired (heq ▸ hs)
  rw [hall]

theorem Over.apply (h : b.Over k q) (hs : b.Sound) (op : Op κ ι) : (b.apply op).2.Over k q := by
  cases op with
  | insert key item =>
    have hnew : q ≠ b.last.next := fun heq => Nat.not_succ_le_self _ (heq ▸ h.given)
    show (b.insert key item).2.Over k q
    refine ⟨Nat.le_trans h.given (insert_last_le b key item), ?_, ?_, fun hw => ?_⟩
    · rw [insert_outstanding]
      split <;> simp [h.retired, hnew]
    · rw [insert_inFlight]
      exact h.landed
    · rcases (insert_waits b key k item q).mp hw with hw | ⟨_, _, heq⟩
      · exact h.claimed hw
      · exact hnew heq
  | claim =>
    show b.claim.2.Over k q
    cases hc : b.claim.1 with
    | none => rw [hs.claim_none hc]; exact h
    | some e =>
      obtain ⟨hpending, hflight⟩ := hs.claim_some hc
      have hlast : b.claim.2.last = b.last := claim_last rfl
      have houtstanding : b.claim.2.outstanding = b.outstanding := claim_outstanding rfl
      refine ⟨hlast ▸ h.given, houtstanding ▸ h.retired, ?_, ?_⟩
      · rw [hflight, Table.get?_set]
        split
        case isTrue heq =>
          -- What is claimed was pending under the identity.
          intro hq
          cases hq
          exact h.claimed (heq ▸ ⟨_, (hs.claim_oldest hc).pending, rfl⟩)
        case isFalse => exact h.landed
      · rintro ⟨p, hp, hq⟩
        rw [hpending, Table.get?_erase] at hp
        split at hp
        · cases hp
        · exact h.claimed ⟨p, hp, hq⟩
  | complete key sequence =>
    show (b.complete key sequence).2.Over k q
    refine ⟨h.given, fun hm => h.retired ((mem_complete_outstanding b key sequence q).mp hm).1, ?_, h.claimed⟩
    by_cases hf : b.inFlight.get? key = some sequence
    · rw [complete_flight hf]
      split
      · simp
      · exact h.landed
    · rw [Buffer.complete_stray hf]
      exact h.landed

theorem Over.run (h : b.Over k q) (hs : b.Sound) (ops : List (Op κ ι)) : (b.run ops).2.Over k q := by
  induction ops generalizing b with
  | nil => exact h
  | cons op ops ih => exact ih (h.apply hs op) (hs.apply op)

/-! ## What callers see -/

/-- Nobody can tell the buffers apart by what they answer about identities, their sizes and the last number. -/
structure LooksLike (b c : Buffer κ ι) : Prop where
  state : ∀ k, b.state? k = c.state? k
  isPending : ∀ k, b.isPending k = c.isPending k
  pending : b.pending.size = c.pending.size
  inFlight : b.inFlight.size = c.inFlight.size
  last : b.last = c.last

theorem Shadows.looksLike (h : Shadows b c) : LooksLike b c where
  state k := by simp only [state?, h.pending, h.inFlight]
  isPending k := by simp only [Buffer.isPending, h.pending]
  pending := congrArg Table.size h.pending
  inFlight := congrArg Table.size h.inFlight
  last := h.last

/-- **Stray completions disturb nothing.** In a run with any completions, one of what is not in flight takes at
most its number from the outstanding ones; without all of these, the run answers every insert and claim alike
and looks the same at every moment. Still no identity is claimed twice without a completion in between, and the
payload that was inserted last is pending, and can be claimed when its identity is free, or was claimed. -/
theorem strays_disturb_nothing {ops : List (Op κ ι)} {replies : List (Reply κ ι)}
    (hr : ({} : Buffer κ ι).run ops = (replies, b)) :
    -- a stray completion, anywhere in the run
    (∀ front key sequence back c, ops = front ++ .complete key sequence :: back →
      (({} : Buffer κ ι).run front).2 = c → c.inFlight.get? key ≠ some sequence →
      (c.complete key sequence).2 = { c with outstanding := c.outstanding.erase sequence }) ∧
    -- the run without them
    (∀ front back c, ops = front ++ back → (({} : Buffer κ ι).run front).2 = c → ∃ later,
      ({} : Buffer κ ι).withoutStrays ops = ({} : Buffer κ ι).withoutStrays front ++ later ∧
      LooksLike c (({} : Buffer κ ι).run (({} : Buffer κ ι).withoutStrays front)).2) ∧
    ({} : Buffer κ ι).Proper (({} : Buffer κ ι).withoutStrays ops) ∧
    (({} : Buffer κ ι).run (({} : Buffer κ ι).withoutStrays ops)).1.filter Reply.isDispatch =
      replies.filter Reply.isDispatch ∧
    -- dispatch
    (∀ front mid back c e e', ops = front ++ .claim :: (mid ++ .claim :: back) →
      (({} : Buffer κ ι).run front).2 = c → c.claim.1 = some e → (c.run (.claim :: mid)).2.claim.1 = some e' →
      e.key = e'.key → Op.complete e.key e.sequence ∈ mid) ∧
    (∀ front key item back c, ops = front ++ .insert key item :: back →
      (({} : Buffer κ ι).run (front ++ [.insert key item])).2 = c → (∀ item', Op.insert key item' ∉ back) →
      (∃ p, b.pending.get? key = some p ∧ p.item = item) ∨
      ∃ e ∈ claims (c.run back).1, e.key = key ∧ e.item = item) ∧
    (∀ k, b.Claimable k ↔ (∃ p, b.pending.get? k = some p) ∧ b.inFlight.get? k = none) ∧
    -- outstanding numbers
    (∀ q ∈ b.outstanding, q ∈ b.pendingNumbers ++ b.flightNumbers) ∧
    b.depth ≤ b.pending.size + b.inFlight.size ∧
    -- repetition
    (∀ k q, (b.complete k q).2.complete k q = b.complete k q) ∧
    ∀ k q later, b.inFlight.get? k = some q →
      (((b.complete k q).2.run later).2.complete k q).2 = ((b.complete k q).2.run later).2 := by
  obtain ⟨proper, _, dispatches⟩ := (Shadows.refl ({} : Buffer κ ι)).run ops
  have hb : b.Sound := by
    have hall := sound_run ops
    rwa [hr] at hall
  refine ⟨?_, ?_, proper, by rw [dispatches, hr], ?_, ?_, fun k => hb.claimable_iff,
    fun q hq => hb.outstanding_subset hq, hb.depth_le, fun k q => complete_twice _ k q, ?_⟩
  · rintro front key sequence _ _ _ rfl hf
    exact (sound_run front).complete_stray hf
  · rintro front back _ rfl rfl
    exact ⟨_, withoutStrays_append _ front back, ((Shadows.refl _).run front).2.1.looksLike⟩
  · rintro front mid _ _ e e' _ rfl he he' hk
    exact (sound_run front).completed_between he he' hk
  · rintro front key item back _ rfl rfl hn
    have hfirst : (({} : Buffer κ ι).run (front ++ [.insert key item])).2 =
        ((({} : Buffer κ ι).run front).2.insert key item).2 := run_append _ front [.insert key item]
    have hlast : b = (((({} : Buffer κ ι).run front).2.insert key item).2.run back).2 := by
      have hall := run_append ({} : Buffer κ ι) (front ++ [.insert key item]) back
      rw [List.append_assoc, List.singleton_append, hr, hfirst] at hall
      exact hall
    obtain ⟨p, hp, hitem, _⟩ := (({} : Buffer κ ι).run front).2.insert_pending_self key item
    rw [hfirst, hlast]
    obtain hstays | hclaimed := ((sound_run front).apply (.insert key item)).pending_stays_run hp hn
    · exact .inl ⟨p, hstays, hitem⟩
    · exact .inr ⟨_, hclaimed, rfl, hitem⟩
  · intro k q later hf
    exact ((hb.over hf).run (hb.apply (.complete k q)) later).complete

def untimely : List (Op String Nat) :=
  [.insert "a" 1, .insert "b" 2, .complete "a" ⟨1⟩, .claim, .insert "a" 3, .claim, .complete "b" ⟨2⟩,
    .complete "b" ⟨2⟩]

theorem strays_disturb_nothing_untimely : ∃ replies, ∃ b c : Buffer String Nat,
    ({} : Buffer String Nat).run untimely = (replies, b) ∧
    (({} : Buffer String Nat).run (untimely.take 2)).2 = c ∧
    (c.complete "a" ⟨1⟩).2 = { c with outstanding := [⟨2⟩] } ∧
    ({} : Buffer String Nat).withoutStrays untimely =
      [.insert "a" 1, .insert "b" 2, .claim, .insert "a" 3, .claim, .complete "b" ⟨2⟩] ∧
    (({} : Buffer String Nat).run (({} : Buffer String Nat).withoutStrays untimely)).1.filter Reply.isDispatch =
      replies.filter Reply.isDispatch ∧
    b.outstanding = [⟨3⟩] ∧ b.inFlight.get? "a" = some ⟨1⟩ ∧ b.depth ≤ b.pending.size + b.inFlight.size ∧
    ∃ p, b.pending.get? "a" = some p ∧ p.item = 3 := by
  obtain ⟨hstray, _, _, hreplies, _, hpending, _, _, hdepth, _⟩ :=
    strays_disturb_nothing (show ({} : Buffer String Nat).run untimely = _ from rfl)
  refine ⟨_, _, _, rfl, rfl, hstray _ "a" ⟨1⟩ (untimely.drop 3) _ rfl rfl (by decide), rfl, hreplies, rfl, rfl,
    hdepth, ?_⟩
  obtain found | ⟨e, he, _⟩ := hpending (untimely.take 4) "a" 3 (untimely.drop 5) _ rfl rfl
    (by intro item hm; simp [untimely] at hm)
  · exact found
  · have hclaims : claims ((({} : Buffer String Nat).run (untimely.take 5)).2.run (untimely.drop 5)).1 =
        [⟨"b", ⟨2⟩, 2, 0⟩] := rfl
    have he : e ∈ claims ((({} : Buffer String Nat).run (untimely.take 5)).2.run (untimely.drop 5)).1 := he
    rw [hclaims, List.mem_singleton] at he
    subst he
    contradiction

end WriteBehind.Buffer
