import WriteBehind.Pool.Basic

/-!
# Permits and idle connections

In an open pool every permit that is free or promised has an idle connection behind it, so whoever
holds a permit gets a connection. A borrower is refused only because the pool was closed.
-/

namespace WriteBehind.Pool

variable {γ τ : Type} {p p' : Pool γ τ} {ticket : τ} {c : γ} {error : Error}

/-- Every permit of an open pool has a connection behind it. -/
def Balanced (p : Pool γ τ) : Prop :=
  p.closed = false → p.idle.length = p.free + p.promised.length

/-! ## Opening -/

section
variable {σ : Type} {connect : σ → Except StoreError γ × σ} {connections : List γ} {n : Nat} {s s' : σ}

theorem ofConnections_eq_ok : ofConnections connections = .ok p ↔ connections ≠ [] ∧
    p = { idle := connections.reverse, free := connections.length, capacity := connections.length } := by
  unfold ofConnections
  cases connections <;> simp [eq_comm]

theorem ofConnections_balanced (h : ofConnections connections = .ok p) : p.Balanced := by
  obtain ⟨-, rfl⟩ := ofConnections_eq_ok.mp h
  intro _
  simp

theorem ofConnections_closed (h : ofConnections connections = .ok p) : p.closed = false := by
  obtain ⟨-, rfl⟩ := ofConnections_eq_ok.mp h
  rfl

theorem openAll_length (h : openAll connect n s = (.ok connections, s')) : connections.length = n := by
  induction n generalizing s connections with
  | zero =>
    cases h
    rfl
  | succ n ih =>
    unfold openAll at h
    split at h
    · cases h
    · split at h <;> rename_i ho <;> cases h
      rw [List.length_cons, ih ho]

theorem connect_eq_ok (h : Pool.connect connect n s = (.ok p, s')) :
    ∃ connections : List γ, connections.length = n ∧ ofConnections connections = .ok p := by
  unfold Pool.connect at h
  split at h
  · cases h
  · split at h <;> rename_i ho
    · cases h
    · exact ⟨_, openAll_length ho, (Prod.mk.inj h).1⟩

theorem openAll_preserves {P : σ → Prop} (next : ∀ s, P s → P (connect s).2) (n : Nat) (hs : P s) :
    P (openAll connect n s).2 := by
  induction n generalizing s with
  | zero => exact hs
  | succ n ih =>
    have hfirst := next s hs
    unfold openAll
    split <;> rename_i hc <;> rw [hc] at hfirst
    · exact hfirst
    · have hrest := ih hfirst
      split <;> rename_i ho <;> rw [ho] at hrest <;> exact hrest

theorem connect_preserves {P : σ → Prop} (next : ∀ s, P s → P (connect s).2) (n : Nat) (hs : P s) :
    P (Pool.connect connect n s : Except Error (Pool γ τ) × σ).2 := by
  have hopened := openAll_preserves next n hs
  unfold Pool.connect
  split
  · exact hs
  · split <;> rename_i ho <;> rw [ho] at hopened <;> exact hopened

end

/-! ## Permits that come back -/

theorem returnPermit_closed (p : Pool γ τ) : p.returnPermit.closed = p.closed := by
  unfold returnPermit
  split <;> rfl

theorem returnPermit_balanced (h : p.closed = false → p.idle.length = p.free + p.promised.length + 1) :
    p.returnPermit.Balanced := by
  intro hc
  rw [returnPermit_closed] at hc
  have := h hc
  unfold returnPermit
  split
  · simp only [List.length_append, List.length_singleton]; omega
  · simp only; omega

theorem giveBack_closed (p : Pool γ τ) (c : γ) : (p.giveBack c).closed = p.closed :=
  returnPermit_closed _

theorem Balanced.giveBack (h : p.Balanced) (c : γ) : (p.giveBack c).Balanced := by
  refine returnPermit_balanced fun hc => ?_
  have := h hc
  simp only [List.length_cons]
  omega

/-! ## Permits that are used -/

theorem lend_of_idle (h : p.idle ≠ []) :
    ∃ c idle, p.idle = c :: idle ∧ p.lend = (.lent c, { p with idle }) := by
  unfold lend checkout
  cases hi : p.idle with
  | nil => exact absurd hi h
  | cons c idle => exact ⟨c, idle, rfl, rfl⟩

theorem Balanced.idle_ne_nil (h : p.Balanced) (hc : p.closed = false)
    (hpos : 0 < p.free + p.promised.length) : p.idle ≠ [] := by
  intro hn
  have := h hc
  rw [hn, List.length_nil] at this
  omega

theorem lend_balanced (h : p.idle.length = p.free + p.promised.length + 1) :
    ∃ c idle, p.lend = (.lent c, { p with idle }) ∧ Balanced { p with idle } := by
  have hne : p.idle ≠ [] := List.ne_nil_of_length_pos (by omega)
  obtain ⟨c, idle, hidle, hl⟩ := lend_of_idle hne
  refine ⟨c, idle, hl, fun _ => ?_⟩
  rw [hidle, List.length_cons] at h
  exact Nat.succ.inj h

theorem Balanced.acquire (h : p.Balanced) (ticket : τ) :
    (p.acquire ticket).2.Balanced ∧ (p.acquire ticket).2.closed = p.closed ∧
      ∀ error, (p.acquire ticket).1 = .refused error → p.closed = true ∧ error = .closed := by
  unfold Pool.acquire
  split
  · rename_i hc
    exact ⟨h, rfl, by rintro e he; cases he; exact ⟨hc, rfl⟩⟩
  · rename_i hc
    have hopen : p.closed = false := by simpa using hc
    have hb := h hopen
    split
    · exact ⟨h, rfl, by intro e he; cases he⟩
    · have hpermit : p.idle.length = p.free - 1 + p.promised.length + 1 := by omega
      obtain ⟨c, idle, hl, hb⟩ := lend_balanced (p := { p with free := p.free - 1 }) hpermit
      rw [hl]
      exact ⟨hb, rfl, by intro e he; cases he⟩

variable [DecidableEq τ]

theorem Balanced.collect (h : p.Balanced) (ticket : τ) :
    (p.collect ticket).2.Balanced ∧ (p.collect ticket).2.closed = p.closed ∧
      ∀ error, (p.collect ticket).1 = .refused error → p.closed = true ∧ error = .closed := by
  unfold Pool.collect
  split
  · rename_i hc
    refine ⟨fun hc' => ?_, ?_, by rintro e he; cases he; exact ⟨hc, rfl⟩⟩
    · split at hc' <;> simp [hc] at hc'
    · split <;> rfl
  · rename_i hc
    have hopen : p.closed = false := by simpa using hc
    have hb := h hopen
    split
    · rename_i hm
      have hlen := List.length_erase_of_mem hm
      have hpos := List.length_pos_of_mem hm
      have hpermit : p.idle.length = p.free + (p.promised.erase ticket).length + 1 := by omega
      obtain ⟨c, idle, hl, hb⟩ := lend_balanced (p := { p with promised := p.promised.erase ticket }) hpermit
      rw [hl]
      exact ⟨hb, rfl, by intro e he; cases he⟩
    · exact ⟨h, rfl, by intro e he; cases he⟩

omit [DecidableEq τ] in
theorem close_balanced (p : Pool γ τ) : p.close.2.Balanced := by
  intro h; cases h

/-! ## Uses of a pool -/

/-- What one use of a pool makes of it; it is closed only by a use that may do so. -/
inductive Served (p : Pool γ τ) (closes : Prop) : Pool γ τ → Prop where
  | same : Served p closes p
  | acquire (ticket : τ) : Served p closes (p.acquire ticket).2
  | collect (ticket : τ) : Served p closes (p.collect ticket).2
  | giveBack (c : γ) : Served p closes (p.giveBack c)
  | close (h : closes) : Served p closes p.close.2

variable {closes : Prop}

theorem Served.balanced (hs : p.Served closes p') (h : p.Balanced) : p'.Balanced := by
  cases hs with
  | same => exact h
  | acquire ticket => exact (h.acquire ticket).1
  | collect ticket => exact (h.collect ticket).1
  | giveBack c => exact h.giveBack c
  | close => exact close_balanced p

theorem Served.closed_iff (hs : p.Served closes p') (h : p.Balanced) :
    p'.closed = p.closed ∨ closes ∧ p'.closed = true := by
  cases hs with
  | same => exact .inl rfl
  | acquire ticket => exact .inl (h.acquire ticket).2.1
  | collect ticket => exact .inl (h.collect ticket).2.1
  | giveBack c => exact .inl (giveBack_closed p c)
  | close hc => exact .inr ⟨hc, rfl⟩

theorem Served.closed (hs : p.Served closes p') (h : p.Balanced) (hc : p.closed = true) :
    p'.closed = true := by
  rcases hs.closed_iff h with he | ⟨_, he⟩
  · rw [he, hc]
  · exact he

end WriteBehind.Pool
