import WriteBehind.Proofs.Buffer.Runs

/-!
# The order of claims

A claim takes the oldest pending entry whose identity is not in flight. An entry keeps its place until it is
claimed, whatever is folded into it, and nothing ever gets ahead of it. So the entries of one identity are
claimed in the order of their numbers.
-/

namespace WriteBehind.Buffer

variable {κ ι : Type} [DecidableEq κ] {b b' : Buffer κ ι} {e e' : Claimed κ ι} {k key : κ} {q : Sequence}
  {ops : List (Op κ ι)} {l₁ l₂ : List (Sequence × κ)}

/-! ## The entry that is claimed -/

structure Oldest (b : Buffer κ ι) (e : Claimed κ ι) : Prop where
  pending : b.pending.get? e.key = some ⟨e.sequence, e.item, e.replaced⟩
  free : b.inFlight.get? e.key = none
  least : ∀ k p, b.pending.get? k = some p → b.inFlight.get? k = none → e.sequence ≤ p.sequence

theorem Valid.claim_oldest (h : b.Valid) (hc : b.claim = (some e, b')) : b.Oldest e := by
  obtain ⟨hp, hf, l₁, l₂, ho, hblocked, _⟩ := h.claim_some hc
  refine ⟨hp, hf, fun k p hk hfree => ?_⟩
  have hm : (p.sequence, k) ∈ b.order := (h.mem_order _ _).mpr ⟨p, hk, rfl⟩
  have hs := h.sorted
  rw [ho] at hm hs
  rcases List.mem_append.mp hm with hm | hm
  · have := hblocked _ hm
    rw [Table.contains_eq_false.mpr hfree] at this
    cases this
  · rcases List.mem_cons.mp hm with heq | hm
    · have hq : p.sequence = e.sequence := congrArg Prod.fst heq
      rw [hq]
      exact Nat.le_refl _
    · exact Nat.le_of_lt (List.rel_of_pairwise_cons (List.pairwise_append.mp hs).2.1 hm)

theorem Oldest.unique (hv : b.Valid) (h : b.Oldest e) (h' : b.Oldest e') : e = e' := by
  have hle := h.least _ _ h'.pending h'.free
  have hge := h'.least _ _ h.pending h.free
  have hq : e.sequence = e'.sequence := congrArg Sequence.mk (Nat.le_antisymm hle hge)
  have hk : e.key = e'.key := hv.waits_inj ⟨_, h.pending, hq⟩ ⟨_, h'.pending, rfl⟩
  have hp := h.pending
  rw [hk, h'.pending, Option.some.injEq, Pending.mk.injEq] at hp
  obtain ⟨_, hi, hr⟩ := hp
  cases e
  cases e'
  simp_all

theorem claim_eq {e? : Option (Claimed κ ι)} (h : b.claim.1 = e?) : b.claim = (e?, b.claim.2) := Prod.ext h rfl

theorem Valid.claim_eq_some_iff (h : b.Valid) : b.claim.1 = some e ↔ b.Oldest e := by
  constructor
  · exact fun hc => h.claim_oldest (claim_eq hc)
  · intro ho
    cases hc : b.claim with
    | mk e? b' =>
      cases e? with
      | none =>
        have := (h.claim_none hc).2 e.key e.sequence ⟨_, ho.pending, rfl⟩
        rw [Table.contains_eq_false.mpr ho.free] at this
        cases this
      | some e' => rw [(h.claim_oldest hc).unique h ho]

theorem Valid.claim_eq_none_iff (h : b.Valid) :
    b.claim.1 = none ↔ ∀ k p, b.pending.get? k = some p → ∃ q, b.inFlight.get? k = some q := by
  constructor
  · intro hc k p hp
    have := (h.claim_none (claim_eq hc)).2 k p.sequence ⟨p, hp, rfl⟩
    exact Option.isSome_iff_exists.mp this
  · intro hall
    rw [Option.eq_none_iff_forall_ne_some]
    intro e hc
    have ho := h.claim_eq_some_iff.mp hc
    obtain ⟨q, hq⟩ := hall _ _ ho.pending
    rw [ho.free] at hq
    cases hq

theorem Oldest.blocked (h : b.Oldest e) {p : Pending ι} (hp : b.pending.get? k = some p)
    (hlt : p.sequence < e.sequence) : ∃ q, b.inFlight.get? k = some q := by
  by_contra hn
  have hfree : b.inFlight.get? k = none :=
    Option.eq_none_iff_forall_ne_some.mpr fun q hq => hn ⟨q, hq⟩
  exact absurd hlt (Nat.not_lt.mpr (h.least k p hp hfree))

theorem Valid.claim_order (h : b.Valid) :
    b.claim.2.order = (b.claim.1.elim b.order fun e => b.order.erase (e.sequence, e.key)) := by
  cases hc : b.claim with
  | mk e? b' =>
    cases e? with
    | none => rw [(h.claim_none hc).1]; rfl
    | some e =>
      obtain ⟨_, _, l₁, l₂, ho, _, hb⟩ := h.claim_some hc
      have hs := h.sorted
      rw [ho] at hs
      have hn : (e.sequence, e.key) ∉ l₁ := fun hm =>
        absurd ((List.pairwise_append.mp hs).2.2 _ hm _ (List.mem_cons_self ..)) (Nat.lt_irrefl _)
      rw [hb, Option.elim_some, ho, List.erase_append_right _ hn, List.erase_cons_head]

/-! ## Places -/

def Reply.claimed? : Reply κ ι → Option (Claimed κ ι)
  | claimed got? => got?
  | _ => none

def claims (replies : List (Reply κ ι)) : List (Claimed κ ι) := replies.filterMap Reply.claimed?

theorem claims_cons (op : Op κ ι) (ops : List (Op κ ι)) :
    claims (b.run (op :: ops)).1 =
      (b.apply op).1.claimed?.toList ++ claims ((b.apply op).2.run ops).1 := by
  show List.filterMap _ (_ :: _) = _
  rw [List.filterMap_cons]
  cases (b.apply op).1.claimed? <;> rfl

theorem insert_order (b : Buffer κ ι) (key : κ) (item : ι) :
    (b.insert key item).2.order =
      b.order ++ if b.pending.get? key = none then [(b.last.next, key)] else [] := by
  cases hp : b.pending.get? key with
  | some p => rw [insert_coalesced hp]; simp
  | none => rw [insert_new hp]; simp

theorem Valid.insert_in_place (h : b.Valid) {item : ι} (hq : (b.insert key item).1 = .coalesced q) :
    (q, key) ∈ b.order ∧ (b.insert key item).2.order = b.order := by
  cases hp : b.pending.get? key with
  | none =>
    rw [insert_new hp] at hq
    cases hq
  | some p =>
    rw [insert_coalesced hp] at hq ⊢
    cases hq
    exact ⟨(h.mem_order _ _).mpr ⟨p, hp, rfl⟩, rfl⟩

theorem Valid.apply_place (h : b.Valid) (op : Op κ ι) (ho : b.order = l₁ ++ (q, k) :: l₂)
    (hn : ∀ e ∈ (b.apply op).1.claimed?, e.sequence ≠ q) :
    ∃ l₁' l₂', (b.apply op).2.order = l₁' ++ (q, k) :: l₂' ∧ l₁'.Sublist l₁ := by
  cases op with
  | insert key item =>
    refine ⟨l₁, l₂ ++ if b.pending.get? key = none then [(b.last.next, key)] else [], ?_, .refl l₁⟩
    show (b.insert key item).2.order = _
    rw [insert_order, ho, List.append_assoc, List.cons_append]
  | claim =>
    have hn : ∀ e ∈ b.claim.1, e.sequence ≠ q := hn
    show ∃ l₁' l₂', b.claim.2.order = _ ∧ _
    rw [h.claim_order]
    cases hc : b.claim.1 with
    | none => exact ⟨l₁, l₂, ho, .refl l₁⟩
    | some e =>
      have hne : (q, k) ≠ (e.sequence, e.key) := fun heq =>
        hn e hc (congrArg Prod.fst heq).symm
      rw [Option.elim_some, ho]
      by_cases hm : (e.sequence, e.key) ∈ l₁
      · exact ⟨_, l₂, List.erase_append_left _ hm, List.erase_sublist ..⟩
      · refine ⟨l₁, l₂.erase (e.sequence, e.key), ?_, .refl l₁⟩
        rw [List.erase_append_right _ hm, List.erase_cons_tail (by simpa using hne)]
  | complete key sequence => exact ⟨l₁, l₂, ho, .refl l₁⟩

/-- Until an entry is claimed, nothing gets ahead of it. -/
theorem Valid.run_place (h : b.Valid) (hp : b.Proper ops) (ho : b.order = l₁ ++ (q, k) :: l₂)
    (hn : ∀ e ∈ claims (b.run ops).1, e.sequence ≠ q) :
    ∃ l₁' l₂', (b.run ops).2.order = l₁' ++ (q, k) :: l₂' ∧ l₁'.Sublist l₁ := by
  induction ops generalizing b l₁ l₂ with
  | nil => exact ⟨l₁, l₂, ho, .refl l₁⟩
  | cons op ops ih =>
    rw [claims_cons] at hn
    have hhead := fun e he => hn e (List.mem_append_left _ (Option.mem_toList.mpr he))
    obtain ⟨m₁, m₂, hm, hsub⟩ := h.apply_place op ho hhead
    obtain ⟨l₁', l₂', ho', hsub'⟩ := ih (h.apply hp.1) hp.2 hm fun e he => hn e (List.mem_append_right _ he)
    exact ⟨l₁', l₂', ho', hsub'.trans hsub⟩

/-! ## The entries of one identity -/

structure Follows (b : Buffer κ ι) (k : κ) (q : Sequence) : Prop where
  given : q ≤ b.last
  later : ∀ q', b.Waits k q' → q < q'

theorem Valid.claim_follows (h : b.Valid) (hc : b.claim.1 = some e) : b.claim.2.Follows e.key e.sequence := by
  obtain ⟨hp, _, l₁, l₂, _, _, hb⟩ := h.claim_some (claim_eq hc)
  have hle := h.le_last _ (h.waits_mem ⟨_, hp, rfl⟩)
  rw [hb]
  refine ⟨hle, fun q' hw => ?_⟩
  exact absurd rfl ((waits_erase b e.key e.key q' _ _).mp hw).2

theorem Follows.apply (h : b.Follows k q) (hv : b.Valid) (op : Op κ ι) : (b.apply op).2.Follows k q := by
  cases op with
  | insert key item =>
    refine ⟨Nat.le_trans h.given (insert_last_le b key item), fun q' hw => ?_⟩
    rcases (insert_waits b key k item q').mp hw with hw | ⟨_, _, rfl⟩
    · exact h.later q' hw
    · exact Nat.lt_of_le_of_lt h.given (Sequence.lt_next _)
  | claim =>
    show b.claim.2.Follows k q
    cases hc : b.claim with
    | mk e? b' =>
      cases e? with
      | none => rw [(hv.claim_none hc).1]; exact h
      | some e =>
        obtain ⟨_, _, l₁, l₂, _, _, hb⟩ := hv.claim_some hc
        rw [hb]
        exact ⟨h.given, fun q' hw => h.later q' ((waits_erase b e.key k q' _ _).mp hw).1⟩
  | complete key sequence => exact ⟨h.given, h.later⟩

theorem Follows.claims (h : b.Follows k q) (hv : b.Valid) (hp : b.Proper ops) :
    ∀ e ∈ claims (b.run ops).1, e.key = k → q < e.sequence := by
  induction ops generalizing b with
  | nil => simp [Buffer.run, Buffer.claims]
  | cons op ops ih =>
    intro e he hk
    rw [claims_cons] at he
    rcases List.mem_append.mp he with he | he
    · cases op with
      | claim =>
        have ho := hv.claim_eq_some_iff.mp (Option.mem_toList.mp he)
        exact h.later _ ⟨_, hk ▸ ho.pending, rfl⟩
      | _ => cases he
    · exact ih (h.apply hv op) (hv.apply hp.1) hp.2 e he hk

theorem Valid.claims_ascending (h : b.Valid) (hp : b.Proper ops) (k : κ) :
    (((claims (b.run ops).1).filter fun e => decide (e.key = k)).map (·.sequence)).Pairwise (· < ·) := by
  induction ops generalizing b with
  | nil => exact .nil
  | cons op ops ih =>
    have hrest := ih (h.apply hp.1) hp.2
    rw [claims_cons]
    cases hc : (b.apply op).1.claimed? with
    | none => exact hrest
    | some e =>
      cases op with
      | claim =>
        rw [Option.toList_some, List.singleton_append]
        by_cases hk : e.key = k
        · subst hk
          rw [List.filter_cons_of_pos (by simp), List.map_cons]
          refine List.pairwise_cons.mpr ⟨fun q hq => ?_, hrest⟩
          obtain ⟨e', he', rfl⟩ := List.mem_map.mp hq
          obtain ⟨he', hk⟩ := List.mem_filter.mp he'
          exact (h.claim_follows hc).claims (h.apply hp.1) hp.2 e' he' (by simpa using hk)
        · rw [List.filter_cons_of_neg (by simpa using hk)]
          exact hrest
      | _ => cases hc

end WriteBehind.Buffer
