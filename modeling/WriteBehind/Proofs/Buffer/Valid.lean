import WriteBehind.Buffer

/-!
# The representation of a buffer

The five parts of a buffer agree: the order lists the pending entries by age, the outstanding numbers
are those of the pending entries and of the entries in flight, and the two never share a number.
Inserts, claims and completions of entries in flight keep it so.
-/

namespace WriteBehind

/-! ## Tables -/

theorem Table.contains_eq_false {κ α : Type} [DecidableEq κ] {t : Table κ α} {k : κ} :
    t.contains k = false ↔ t.get? k = none := by
  unfold Table.contains
  cases t.get? k <;> simp

theorem Table.size_eq_zero {κ α : Type} [DecidableEq κ] {t : Table κ α} :
    t.size = 0 ↔ ∀ k, t.get? k = none := by
  obtain ⟨entries, distinct⟩ := t
  unfold Table.size Table.get?
  constructor
  · intro h k
    rw [List.length_eq_zero_iff.mp h]
    rfl
  · intro h
    cases entries with
    | nil => rfl
    | cons e rest =>
      have := h e.1
      simp [Table.find?] at this

/-! ## The first match -/

theorem takeFirst_eq_none {α : Type} {p : α → Bool} {l : List α} :
    takeFirst p l = none ↔ ∀ a ∈ l, p a = false := by
  induction l with
  | nil => simp [takeFirst]
  | cons a l ih =>
    unfold takeFirst
    by_cases h : p a = true
    · simp [h]
    · simp [h, ih]

theorem takeFirst_eq_some {α : Type} {p : α → Bool} {l rest : List α} {a : α}
    (h : takeFirst p l = some (a, rest)) :
    ∃ l₁ l₂, l = l₁ ++ a :: l₂ ∧ rest = l₁ ++ l₂ ∧ p a = true ∧ ∀ x ∈ l₁, p x = false := by
  induction l generalizing rest with
  | nil => cases h
  | cons b l ih =>
    unfold takeFirst at h
    by_cases hb : p b = true
    · simp only [hb, if_true, Option.some.injEq, Prod.mk.injEq] at h
      obtain ⟨rfl, rfl⟩ := h
      exact ⟨[], l, rfl, rfl, hb, by simp⟩
    · simp only [hb, Bool.false_eq_true, if_false, Option.map_eq_some_iff] at h
      obtain ⟨⟨c, r⟩, hc, he⟩ := h
      simp only [Prod.mk.injEq] at he
      obtain ⟨rfl, rfl⟩ := he
      obtain ⟨l₁, l₂, rfl, rfl, ha, hl⟩ := ih hc
      refine ⟨b :: l₁, l₂, rfl, rfl, ha, ?_⟩
      intro x hx
      rcases List.mem_cons.mp hx with rfl | hx
      · simpa using hb
      · exact hl x hx

namespace Buffer

variable {κ ι : Type} [DecidableEq κ] {b b' : Buffer κ ι} {e : Claimed κ ι} {k key : κ} {q : Sequence}

def Waits (b : Buffer κ ι) (k : κ) (q : Sequence) : Prop :=
  ∃ p, b.pending.get? k = some p ∧ p.sequence = q

/-- The parts of a buffer agree. -/
structure Valid (b : Buffer κ ι) : Prop where
  sorted : b.order.Pairwise fun x y => x.1 < y.1
  keys_nodup : (b.order.map (·.2)).Nodup
  mem_order : ∀ q k, (q, k) ∈ b.order ↔ b.Waits k q
  outstanding_sorted : b.outstanding.Pairwise (· < ·)
  mem_outstanding : ∀ q, q ∈ b.outstanding ↔
    (∃ k, b.Waits k q) ∨ ∃ k, b.inFlight.get? k = some q
  positive : ∀ q ∈ b.outstanding, Sequence.zero < q
  le_last : ∀ q ∈ b.outstanding, q ≤ b.last
  flight_inj : ∀ q k k', b.inFlight.get? k = some q → b.inFlight.get? k' = some q → k = k'
  flight_waits : ∀ q k k', b.inFlight.get? k = some q → ¬ b.Waits k' q
  flight_lt : ∀ q q' k, b.inFlight.get? k = some q → b.Waits k q' → q < q'

theorem empty_valid : Valid ({} : Buffer κ ι) where
  sorted := .nil
  keys_nodup := .nil
  mem_order := by simp [Waits]
  outstanding_sorted := .nil
  mem_outstanding := by simp [Waits]
  positive := by simp
  le_last := by simp
  flight_inj := by simp
  flight_waits := by simp
  flight_lt := by simp

theorem waits_unique {q' : Sequence} (h : b.Waits k q) (h' : b.Waits k q') : q = q' := by
  obtain ⟨p, hp, rfl⟩ := h
  obtain ⟨p', hp', rfl⟩ := h'
  rw [hp] at hp'
  cases hp'
  rfl

theorem Valid.waits_mem (hv : b.Valid) (h : b.Waits k q) : q ∈ b.outstanding :=
  (hv.mem_outstanding q).mpr (.inl ⟨k, h⟩)

theorem Valid.flight_mem (hv : b.Valid) (h : b.inFlight.get? k = some q) : q ∈ b.outstanding :=
  (hv.mem_outstanding q).mpr (.inr ⟨k, h⟩)

theorem Valid.waits_inj (hv : b.Valid) {k' : κ} (h : b.Waits k q) (h' : b.Waits k' q) : k = k' := by
  have hs := hv.sorted
  have h₁ := (hv.mem_order q k).mpr h
  have h₂ := (hv.mem_order q k').mpr h'
  generalize b.order = l at hs h₁ h₂
  induction hs with
  | nil => cases h₁
  | @cons x l hx _ ih =>
    rcases List.mem_cons.mp h₁ with e₁ | m₁ <;> rcases List.mem_cons.mp h₂ with e₂ | m₂
    · rw [← e₁] at e₂; cases e₂; rfl
    · subst e₁; exact absurd (hx _ m₂) (Nat.lt_irrefl _)
    · subst e₂; exact absurd (hx _ m₁) (Nat.lt_irrefl _)
    · exact ih m₁ m₂

/-! ## Inserts -/

theorem insert_coalesced {item : ι} {p : Pending ι} (h : b.pending.get? key = some p) :
    b.insert key item = (.coalesced p.sequence,
      { b with pending := b.pending.set key { p with item, replaced := p.replaced + 1 } }) := by
  simp [insert, h]

theorem insert_new {item : ι} (h : b.pending.get? key = none) :
    b.insert key item = (.new b.last.next,
      { b with
        pending := b.pending.set key { sequence := b.last.next, item }
        order := b.order ++ [(b.last.next, key)]
        outstanding := b.outstanding ++ [b.last.next]
        last := b.last.next }) := by
  simp [insert, h]

theorem insert_pending (b : Buffer κ ι) (key k : κ) (item : ι) (h : k ≠ key) :
    (b.insert key item).2.pending.get? k = b.pending.get? k := by
  cases hp : b.pending.get? key with
  | some p => rw [insert_coalesced hp]; simp [Table.get?_set, h.symm]
  | none => rw [insert_new hp]; simp [Table.get?_set, h.symm]

theorem insert_pending_self (b : Buffer κ ι) (key : κ) (item : ι) :
    ∃ p, (b.insert key item).2.pending.get? key = some p ∧ p.item = item ∧
      p.sequence = (b.insert key item).1.sequence := by
  cases hp : b.pending.get? key with
  | some p =>
    rw [insert_coalesced hp]
    exact ⟨{ p with item, replaced := p.replaced + 1 }, by simp [Table.get?_set], rfl, rfl⟩
  | none =>
    rw [insert_new hp]
    exact ⟨{ sequence := b.last.next, item }, by simp [Table.get?_set], rfl, rfl⟩

theorem insert_waits_self (b : Buffer κ ι) (key : κ) (item : ι) :
    (b.insert key item).2.Waits key (b.insert key item).1.sequence := by
  obtain ⟨p, hp, _, hq⟩ := b.insert_pending_self key item
  exact ⟨p, hp, hq⟩

theorem insert_sequence (b : Buffer κ ι) (key : κ) (item : ι) :
    b.Waits key (b.insert key item).1.sequence ∨ (b.insert key item).1.sequence = b.last.next := by
  cases hp : b.pending.get? key with
  | some p => rw [insert_coalesced hp]; exact .inl ⟨p, hp, rfl⟩
  | none => rw [insert_new hp]; exact .inr rfl

theorem insert_inFlight (b : Buffer κ ι) (key : κ) (item : ι) :
    (b.insert key item).2.inFlight = b.inFlight := by
  cases hp : b.pending.get? key with
  | some p => rw [insert_coalesced hp]
  | none => rw [insert_new hp]

theorem insert_last_le (b : Buffer κ ι) (key : κ) (item : ι) : b.last ≤ (b.insert key item).2.last := by
  cases hp : b.pending.get? key with
  | some p => rw [insert_coalesced hp]; exact Nat.le_refl _
  | none => rw [insert_new hp]; exact Nat.le_succ _

theorem insert_waits (b : Buffer κ ι) (key k : κ) (item : ι) (q : Sequence) :
    (b.insert key item).2.Waits k q ↔
      b.Waits k q ∨ k = key ∧ b.pending.get? key = none ∧ q = b.last.next := by
  cases hp : b.pending.get? key with
  | some p =>
    rw [insert_coalesced hp]
    unfold Waits
    simp only [Table.get?_set, reduceCtorEq, false_and, and_false, or_false]
    by_cases hk : key = k
    · subst hk; simp [hp]
    · simp [hk]
  | none =>
    rw [insert_new hp]
    unfold Waits
    simp only [Table.get?_set, true_and]
    by_cases hk : key = k
    · subst hk; simp [hp, eq_comm]
    · simp [hk, Ne.symm hk]

theorem insert_outstanding (b : Buffer κ ι) (key : κ) (item : ι) :
    (b.insert key item).2.outstanding =
      b.outstanding ++ if b.pending.get? key = none then [b.last.next] else [] := by
  cases hp : b.pending.get? key with
  | some p => rw [insert_coalesced hp]; simp
  | none => rw [insert_new hp]; simp

theorem Valid.insert (hv : b.Valid) (key : κ) (item : ι) : (b.insert key item).2.Valid := by
  -- A number above the last one is new to every part of the buffer.
  have hnext : b.last.next ∉ b.outstanding := fun h =>
    absurd (hv.le_last _ h) (Nat.not_le.mpr (Sequence.lt_next _))
  have hlt : ∀ q ∈ b.outstanding, q < b.last.next := fun q h =>
    Nat.lt_of_le_of_lt (hv.le_last q h) (Sequence.lt_next _)
  have hmem : ∀ q, q ∈ (b.insert key item).2.outstanding ↔
      q ∈ b.outstanding ∨ b.pending.get? key = none ∧ q = b.last.next := by
    intro q
    rw [insert_outstanding]
    by_cases hn : b.pending.get? key = none <;> simp [hn]
  constructor
  case sorted =>
    cases hp : b.pending.get? key with
    | some p => rw [insert_coalesced hp]; exact hv.sorted
    | none =>
      rw [insert_new hp]
      refine List.pairwise_append.mpr ⟨hv.sorted, List.pairwise_singleton _ _, ?_⟩
      intro ⟨q, k⟩ hx y hy
      rw [List.mem_singleton] at hy
      subst hy
      exact hlt q (hv.waits_mem ((hv.mem_order q k).mp hx))
  case keys_nodup =>
    cases hp : b.pending.get? key with
    | some p => rw [insert_coalesced hp]; exact hv.keys_nodup
    | none =>
      rw [insert_new hp]
      simp only [List.map_append, List.map_cons, List.map_nil]
      refine List.nodup_append.mpr ⟨hv.keys_nodup, by simp, ?_⟩
      intro k hk k' hk' heq
      rw [List.mem_singleton] at hk'
      subst heq hk'
      obtain ⟨⟨q, k'⟩, hx, rfl⟩ := List.mem_map.mp hk
      obtain ⟨p, hp', _⟩ := (hv.mem_order q k').mp hx
      rw [hp] at hp'
      cases hp'
  case mem_order =>
    intro q k
    rw [insert_waits, ← hv.mem_order]
    cases hp : b.pending.get? key with
    | some p => rw [insert_coalesced hp]; simp
    | none => rw [insert_new hp]; simp [and_comm]
  case outstanding_sorted =>
    rw [insert_outstanding]
    refine List.pairwise_append.mpr ⟨hv.outstanding_sorted, ?_, ?_⟩
    · split <;> simp
    · intro q hq q' hq'
      split at hq'
      · rw [List.mem_singleton] at hq'; subst hq'; exact hlt q hq
      · cases hq'
  case mem_outstanding =>
    intro q
    rw [hmem, hv.mem_outstanding, insert_inFlight]
    simp only [insert_waits]
    grind
  case positive =>
    intro q hq
    rcases (hmem q).mp hq with hq | ⟨_, rfl⟩
    · exact hv.positive q hq
    · exact Nat.succ_pos _
  case le_last =>
    intro q hq
    rcases (hmem q).mp hq with hq | ⟨hn, rfl⟩
    · exact Nat.le_trans (hv.le_last q hq) (insert_last_le b key item)
    · rw [insert_new hn]; exact Nat.le_refl _
  case flight_inj =>
    rw [insert_inFlight]; exact hv.flight_inj
  case flight_waits =>
    rw [insert_inFlight]
    intro q k k' hk hw
    rcases (insert_waits b key k' item q).mp hw with hw | ⟨_, _, rfl⟩
    · exact hv.flight_waits q k k' hk hw
    · exact hnext (hv.flight_mem hk)
  case flight_lt =>
    rw [insert_inFlight]
    intro q q' k hk hw
    rcases (insert_waits b key k item q').mp hw with hw | ⟨_, _, rfl⟩
    · exact hv.flight_lt q q' k hk hw
    · exact hlt q (hv.flight_mem hk)

/-! ## Claims -/

theorem Valid.claim_some (hv : b.Valid) (h : b.claim = (some e, b')) :
    b.pending.get? e.key = some ⟨e.sequence, e.item, e.replaced⟩ ∧ b.inFlight.get? e.key = none ∧
      ∃ l₁ l₂, b.order = l₁ ++ (e.sequence, e.key) :: l₂ ∧
        (∀ x ∈ l₁, b.inFlight.contains x.2 = true) ∧
        b' = { b with
          pending := b.pending.erase e.key
          order := l₁ ++ l₂
          inFlight := b.inFlight.set e.key e.sequence } := by
  unfold Buffer.claim at h
  split at h
  · cases h
  · rename_i q k rest ht
    obtain ⟨l₁, l₂, ho, rfl, hfree, hblocked⟩ := takeFirst_eq_some ht
    obtain ⟨p, hp, hq⟩ := (hv.mem_order q k).mp (by rw [ho]; simp)
    rw [hp] at h
    cases h
    refine ⟨by rw [hp, ← hq], ?_, l₁, l₂, ho, ?_, rfl⟩
    · exact Table.contains_eq_false.mp (by simpa using hfree)
    · intro x hx
      simpa using hblocked x hx

theorem claim_outstanding {c : Option (Claimed κ ι)} (h : b.claim = (c, b')) :
    b'.outstanding = b.outstanding := by
  unfold Buffer.claim at h
  split at h
  · cases h; rfl
  · split at h <;> cases h <;> rfl

theorem claim_last {c : Option (Claimed κ ι)} (h : b.claim = (c, b')) : b'.last = b.last := by
  unfold Buffer.claim at h
  split at h
  · cases h; rfl
  · split at h <;> cases h <;> rfl

theorem Valid.claim_none (hv : b.Valid) (h : b.claim = (none, b')) :
    b' = b ∧ ∀ k q, b.Waits k q → b.inFlight.contains k = true := by
  unfold Buffer.claim at h
  split at h
  · rename_i ht
    cases h
    refine ⟨rfl, ?_⟩
    intro k q hw
    simpa using takeFirst_eq_none.mp ht _ ((hv.mem_order q k).mpr hw)
  · rename_i q k rest ht
    obtain ⟨l₁, l₂, ho, _⟩ := takeFirst_eq_some ht
    obtain ⟨p, hp, _⟩ := (hv.mem_order q k).mp (by rw [ho]; simp)
    rw [hp] at h
    cases h

theorem waits_erase (b : Buffer κ ι) (key k : κ) (q : Sequence) (order : List (Sequence × κ))
    (inFlight : Table κ Sequence) :
    Waits { b with pending := b.pending.erase key, order, inFlight } k q ↔ b.Waits k q ∧ k ≠ key := by
  unfold Waits
  simp only [Table.get?_erase]
  by_cases hk : key = k
  · subst hk; simp
  · simp [hk, Ne.symm hk]

theorem Valid.claim (hv : b.Valid) (h : b.claim = (some e, b')) : b'.Valid := by
  obtain ⟨hp, hfree, l₁, l₂, ho, _, rfl⟩ := hv.claim_some h
  have hw : b.Waits e.key e.sequence := ⟨_, hp, rfl⟩
  have hsub : (l₁ ++ l₂).Sublist b.order := by
    rw [ho]; exact (List.sublist_cons_self _ _).append_left l₁
  constructor
  case sorted => exact hv.sorted.sublist hsub
  case keys_nodup => exact hv.keys_nodup.sublist (hsub.map _)
  case mem_order =>
    intro q k
    rw [waits_erase, ← hv.mem_order]
    have hn := hv.keys_nodup
    rw [ho, List.map_append, List.map_cons, List.perm_middle.nodup_iff, List.nodup_cons,
      ← List.map_append] at hn
    rw [ho]
    simp only [List.mem_append, List.mem_cons, Prod.mk.injEq]
    constructor
    · intro hx
      have hne : k ≠ e.key := by
        rintro rfl
        exact hn.1 (List.mem_map.mpr ⟨(q, e.key), List.mem_append.mpr hx, rfl⟩)
      exact ⟨hx.imp id .inr, hne⟩
    · rintro ⟨hx | ⟨_, rfl⟩ | hx, hne⟩
      · exact .inl hx
      · exact absurd rfl hne
      · exact .inr hx
  case outstanding_sorted => exact hv.outstanding_sorted
  case mem_outstanding =>
    intro q
    rw [hv.mem_outstanding]
    simp only [waits_erase, Table.get?_set]
    constructor
    · rintro (⟨k, hk⟩ | ⟨k, hk⟩)
      · by_cases hne : k = e.key
        · subst hne; exact .inr ⟨e.key, by simp [waits_unique hk hw]⟩
        · exact .inl ⟨k, hk, hne⟩
      · refine .inr ⟨k, ?_⟩
        rw [if_neg ?_]
        · exact hk
        · rintro rfl; rw [hfree] at hk; cases hk
    · rintro (⟨k, hk, _⟩ | ⟨k, hk⟩)
      · exact .inl ⟨k, hk⟩
      · split at hk
        · cases hk; exact .inl ⟨e.key, hw⟩
        · exact .inr ⟨k, hk⟩
  case positive => exact hv.positive
  case le_last => exact hv.le_last
  case flight_inj =>
    intro q k k' hk hk'
    simp only [Table.get?_set] at hk hk'
    split at hk <;> split at hk'
    · rename_i h₁ h₂; rw [← h₁, ← h₂]
    · cases hk; exact absurd hw (hv.flight_waits _ _ _ hk')
    · cases hk'; exact absurd hw (hv.flight_waits _ _ _ hk)
    · exact hv.flight_inj q k k' hk hk'
  case flight_waits =>
    intro q k k' hk hw'
    simp only [Table.get?_set] at hk
    obtain ⟨hw', hne⟩ := (waits_erase b e.key k' q _ _).mp hw'
    split at hk
    · cases hk; exact hne (hv.waits_inj hw' hw)
    · exact hv.flight_waits q k k' hk hw'
  case flight_lt =>
    intro q q' k hk hw'
    simp only [Table.get?_set] at hk
    obtain ⟨hw', hne⟩ := (waits_erase b e.key k q' _ _).mp hw'
    rw [if_neg hne.symm] at hk
    exact hv.flight_lt q q' k hk hw'

/-! ## Completions -/

theorem complete_waits (b : Buffer κ ι) (key k : κ) (sequence q : Sequence) :
    (b.complete key sequence).2.Waits k q ↔ b.Waits k q := Iff.rfl

theorem complete_flight (h : b.inFlight.get? key = some q) (k : κ) :
    (b.complete key q).2.inFlight.get? k = if key = k then none else b.inFlight.get? k := by
  simp [complete, h, Table.get?_erase]

theorem mem_complete_outstanding (b : Buffer κ ι) (key : κ) (sequence q : Sequence) :
    q ∈ (b.complete key sequence).2.outstanding ↔ q ∈ b.outstanding ∧ q ≠ sequence := by
  simp [complete]

theorem Valid.complete (hv : b.Valid) (h : b.inFlight.get? key = some q) :
    (b.complete key q).2.Valid where
  sorted := hv.sorted
  keys_nodup := hv.keys_nodup
  mem_order := hv.mem_order
  outstanding_sorted := hv.outstanding_sorted.filter _
  mem_outstanding := by
    intro q'
    rw [mem_complete_outstanding, hv.mem_outstanding]
    simp only [complete_waits, complete_flight h]
    constructor
    · rintro ⟨⟨k, hk⟩ | ⟨k, hk⟩, hne⟩
      · exact .inl ⟨k, hk⟩
      · refine .inr ⟨k, ?_⟩
        rw [if_neg ?_]
        · exact hk
        · rintro rfl; rw [h] at hk; cases hk; exact hne rfl
    · rintro (⟨k, hk⟩ | ⟨k, hk⟩)
      · exact ⟨.inl ⟨k, hk⟩, by rintro rfl; exact hv.flight_waits _ _ _ h hk⟩
      · split at hk
        · cases hk
        · rename_i hne
          exact ⟨.inr ⟨k, hk⟩, by rintro rfl; exact hne (hv.flight_inj _ _ _ h hk)⟩
  positive := fun q' hq => hv.positive q' ((mem_complete_outstanding b key q q').mp hq).1
  le_last := fun q' hq => hv.le_last q' ((mem_complete_outstanding b key q q').mp hq).1
  flight_inj := by
    intro q' k k' hk hk'
    rw [complete_flight h] at hk hk'
    split at hk
    · cases hk
    · split at hk'
      · cases hk'
      · exact hv.flight_inj q' k k' hk hk'
  flight_waits := by
    intro q' k k' hk
    rw [complete_flight h] at hk
    split at hk
    · cases hk
    · exact hv.flight_waits q' k k' hk
  flight_lt := by
    intro q' q'' k hk
    rw [complete_flight h] at hk
    split at hk
    · cases hk
    · exact hv.flight_lt q' q'' k hk

/-! ## Targets -/

omit [DecidableEq κ] in
/-- The oldest outstanding number speaks for all of them. -/
theorem isDrainedThrough_of_sorted (hs : b.outstanding.Pairwise (· < ·)) (target : Sequence) :
    b.isDrainedThrough target = true ↔ ∀ q ∈ b.outstanding, target < q := by
  unfold isDrainedThrough oldest?
  cases ho : b.outstanding with
  | nil => simp
  | cons q rest =>
    rw [ho] at hs
    simp only [List.head?_cons, decide_eq_true_eq, List.mem_cons, forall_eq_or_imp]
    constructor
    · intro h
      exact ⟨h, fun q' hq' => Nat.lt_trans h (List.rel_of_pairwise_cons hs hq')⟩
    · exact fun h => h.1

theorem Valid.isDrainedThrough_iff (hv : b.Valid) (target : Sequence) :
    b.isDrainedThrough target = true ↔ ∀ q ∈ b.outstanding, target < q :=
  isDrainedThrough_of_sorted hv.outstanding_sorted target

end Buffer

end WriteBehind
