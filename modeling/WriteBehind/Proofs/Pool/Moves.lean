import WriteBehind.Pool.Borrowing
import WriteBehind.Proofs.Buffer.Runs
import WriteBehind.Proofs.Pool.Permits

/-!
# Moves of borrowers

Permits, connections and borrowers are counted in every run of a pool. Permits that are free, promised or used
make up its capacity, and so do the connections that are idle, lent or given away. Those who wait stand in the
order in which they came, and those whose turn has come stand in front.
-/

namespace WriteBehind

/-! ## Tables -/

namespace Table

variable {κ α : Type} [DecidableEq κ] {t : Table κ α} {k : κ} {a : α}

theorem values_erase (h : t.get? k = some a) : t.values.Perm (a :: (t.erase k).values) := by
  obtain ⟨entries, distinct⟩ := t
  obtain ⟨front, back, rfl⟩ := List.append_of_mem (get?_eq_some.mp h)
  have hrest : remove k (front ++ (k, a) :: back) = front ++ back := by
    simp only [List.map_append, List.map_cons, List.nodup_append, List.nodup_cons, List.mem_map] at distinct
    have hfront : remove k front = front := List.filter_eq_self.mpr fun e he => by
      simpa using distinct.2.2 e.1 ⟨e, he, rfl⟩ k (by simp)
    have hback : remove k back = back := List.filter_eq_self.mpr fun e he => by
      simpa using fun hk => distinct.2.1.1 ⟨e, he, hk⟩
    unfold remove at hfront hback ⊢
    rw [List.filter_append, List.filter_cons_of_neg (by simp), hfront, hback]
  simp only [values, erase, hrest, List.map_append, List.map_cons]
  exact List.perm_middle

theorem values_erase_fresh (h : t.get? k = none) : (t.erase k).values = t.values := by
  have hkeep : remove k t.entries = t.entries := List.filter_eq_self.mpr fun e he => by
    have hk : e.1 ≠ k := by
      rintro rfl
      rw [get?_eq_some.mpr he] at h
      cases h
    simpa using hk
  simp only [values, erase, hkeep]

theorem values_set (t : Table κ α) (k : κ) (b : α) : (t.set k b).values.Perm (b :: (t.erase k).values) := by
  have herase : ((t.set k b).erase k).values = (t.erase k).values := by
    simp only [values, erase, set]
    congr 1
    induction t.entries with
    | nil => simp [put, remove]
    | cons e entries ih =>
      obtain ⟨k', a'⟩ := e
      by_cases hk : k' = k <;> simp_all [put, remove]
  rw [← herase]
  exact values_erase (by rw [get?_set, if_pos rfl])

theorem size_set_fresh (h : t.get? k = none) (b : α) : (t.set k b).size = t.size + 1 := by
  rw [← length_values, (values_set t k b).length_eq, values_erase_fresh h, List.length_cons, length_values]

theorem size_erase (h : t.get? k = some a) : t.size = (t.erase k).size + 1 := by
  rw [← length_values, (values_erase h).length_eq, List.length_cons, length_values]

theorem size_set (h : t.get? k = some a) (b : α) : (t.set k b).size = t.size := by
  rw [size_erase h, ← length_values, (values_set t k b).length_eq, List.length_cons, length_values]

end Table

/-! ## Queues of a pool -/

namespace Pool

variable {γ τ : Type} {p : Pool γ τ} {ticket : τ} {lent : Nat} {c : γ} {idle : List γ}

/-- Those who wait, in the order in which they came, if those whose turn has come have come first. -/
def queue (p : Pool γ τ) : List τ := p.promised ++ p.waiters

theorem returnPermit_queue (p : Pool γ τ) : p.returnPermit.queue = p.queue := by
  unfold returnPermit queue
  split
  · rename_i hwaiters
    simp [hwaiters]
  · rfl

theorem returnPermit_idle (p : Pool γ τ) : p.returnPermit.idle = p.idle := by
  unfold returnPermit
  split <;> rfl

theorem returnPermit_capacity (p : Pool γ τ) : p.returnPermit.capacity = p.capacity := by
  unfold returnPermit
  split <;> rfl

variable [DecidableEq τ]

theorem cancel_queue (p : Pool γ τ) (ticket : τ) : (p.cancel ticket).queue = p.queue.erase ticket := by
  unfold cancel
  split
  · rename_i hm
    rw [returnPermit_queue]
    exact (List.erase_append_left _ hm).symm
  · rename_i hm
    exact (List.erase_append_right _ hm).symm

theorem cancel_same (p : Pool γ τ) (ticket : τ) : (p.cancel ticket).idle = p.idle ∧
    (p.cancel ticket).capacity = p.capacity ∧ (p.cancel ticket).closed = p.closed := by
  unfold cancel
  split
  · exact ⟨returnPermit_idle _, returnPermit_capacity _, returnPermit_closed _⟩
  · exact ⟨rfl, rfl, rfl⟩

theorem Kept.cancel (h : p.Kept lent) (ticket : τ) : (p.cancel ticket).Kept lent := by
  unfold Pool.cancel
  split
  · rename_i hm
    obtain ⟨herase, hlen⟩ := h.erase_promised hm
    refine (Kept.returnPermit (p := { p with promised := p.promised.erase ticket })
      ⟨h.stocked, ?_, h.queued, ?_⟩).1
    · have := h.permits
      simp only
      omega
    · show (p.waiters ++ p.promised.erase ticket).Nodup
      rw [herase]
      exact h.distinct.erase ticket
  · refine ⟨h.stocked, h.permits, fun hc hw => h.queued hc fun hn => hw ?_, ?_⟩
    · simp [hn]
    · exact h.distinct.sublist (List.erase_sublist.append_right _)

/-! ## Turns at the pool -/

omit [DecidableEq τ] in
theorem Balanced.top_of_free (hb : p.Balanced) (hc : p.closed = false) (hf : p.free ≠ 0) :
    ∃ c idle, p.idle = c :: idle := List.exists_cons_of_ne_nil (hb.idle_ne_nil hc (by omega))

omit [DecidableEq τ] in
theorem Balanced.top_of_turn (hb : p.Balanced) (hc : p.closed = false) (hm : ticket ∈ p.promised) :
    ∃ c idle, p.idle = c :: idle := by
  have hpos := List.length_pos_of_mem hm
  exact List.exists_cons_of_ne_nil (hb.idle_ne_nil hc (by omega))

omit [DecidableEq τ] in
theorem acquire_of_closed (hc : p.closed = true) (ticket : τ) : p.acquire ticket = (.refused .closed, p) := by
  simp [acquire, hc]

omit [DecidableEq τ] in
theorem acquire_of_none (hc : p.closed = false) (hn : p.free = 0) (ticket : τ) :
    p.acquire ticket = (.waits, { p with waiters := p.waiters ++ [ticket] }) := by
  unfold acquire
  rw [hc, if_neg Bool.false_ne_true, if_pos hn]

omit [DecidableEq τ] in
theorem acquire_of_free (hc : p.closed = false) (hf : p.free ≠ 0) (htop : p.idle = c :: idle) (ticket : τ) :
    p.acquire ticket = (.lent c, { p with idle, free := p.free - 1 }) := by
  simp [acquire, lend, checkout, hc, hf, htop]

omit [DecidableEq τ] in
theorem tryAcquire_of_none (hn : p.closed = true ∨ p.free = 0) : p.tryAcquire = (none, p) := by
  unfold tryAcquire
  rw [if_pos (by simpa using hn)]

omit [DecidableEq τ] in
theorem tryAcquire_of_free (hc : p.closed = false) (hf : p.free ≠ 0) (htop : p.idle = c :: idle) :
    p.tryAcquire = (some c, { p with idle, free := p.free - 1 }) := by
  simp [tryAcquire, checkout, hc, hf, htop]

theorem collect_of_early (hc : p.closed = false) (hm : ticket ∉ p.promised) :
    p.collect ticket = (.waits, p) := by
  unfold collect
  rw [if_neg (by simp [hc]), if_neg hm]

theorem collect_of_turn (hc : p.closed = false) (hm : ticket ∈ p.promised) (htop : p.idle = c :: idle) :
    p.collect ticket = (.lent c, { p with idle, promised := p.promised.erase ticket }) := by
  simp [collect, lend, checkout, hc, hm, htop]

theorem collect_of_closed (hc : p.closed = true) (ticket : τ) : (p.collect ticket).1 = .refused .closed ∧
    (p.collect ticket).2.queue = p.queue.erase ticket ∧ (p.collect ticket).2.idle = p.idle ∧
    (p.collect ticket).2.capacity = p.capacity ∧ (p.collect ticket).2.closed = p.closed := by
  unfold collect
  rw [if_pos hc]
  split
  · rename_i hm
    exact ⟨rfl, (List.erase_append_left _ hm).symm, rfl, rfl, rfl⟩
  · rename_i hm
    exact ⟨rfl, (List.erase_append_right _ hm).symm, rfl, rfl, rfl⟩

end Pool

namespace Lending

variable {γ τ : Type} [DecidableEq τ] {l u v : Lending γ τ} {m : Move γ τ} {moves : List (Move γ τ)}
  {reply : Reply γ} {record : List (Move γ τ × Reply γ)} {ticket : τ} {c : γ} {loan : Loan γ}

/-! ## Moves -/

inductive Still (l : Lending γ τ) : Move γ τ → Reply γ → Prop where
  | refused (ticket : τ) (closed : l.pool.closed = true) :
    Still l (.operate (.acquire ticket)) (.loan (.refused .closed))
  | missed (ticket : τ) (unavailable : l.pool.closed = true ∨ l.pool.free = 0) :
    Still l (.operate (.tryAcquire ticket)) (.attempt none)
  | released (ticket : τ) : Still l (.operate (.release ticket)) (.held none)
  | used (ticket : τ) (effect : γ → γ) : Still l (.operate (.use ticket effect)) (.held none)
  | cancelled (ticket : τ) : Still l (.operate (.cancel ticket)) (.cancelled false)
  | waits (ticket : τ) (opened : l.pool.closed = false) (early : ticket ∉ l.pool.promised) :
    Still l (.look ticket) (.loan .waits)

inductive Grants (ticket : τ) (c : γ) : Move γ τ → Reply γ → Prop where
  | acquire : Grants ticket c (.operate (.acquire ticket)) (.loan (.lent c))
  | tryAcquire : Grants ticket c (.operate (.tryAcquire ticket)) (.attempt (some c))

inductive Moves (l : Lending γ τ) : Move γ τ → Reply γ → Lending γ τ → Prop where
  | still {m : Move γ τ} {reply : Reply γ} (same : Still l m reply) : Moves l m reply l
  | lent {m : Move γ τ} {reply : Reply γ} (ticket : τ) (c : γ) (idle : List γ)
    (grants : Grants ticket c m reply) (opened : l.pool.closed = false)
    (fresh : l.held.get? ticket = none) (waits : ticket ∉ l.waiting)
    (free : l.pool.free ≠ 0) (top : l.pool.idle = c :: idle) :
    Moves l m reply { l with
      pool := { l.pool with idle, free := l.pool.free - 1 }
      held := l.held.set ticket c }
  | waits (ticket : τ) (opened : l.pool.closed = false) (fresh : l.held.get? ticket = none)
    (new : ticket ∉ l.waiting) (unavailable : l.pool.free = 0) :
    Moves l (.operate (.acquire ticket)) (.loan .waits) { l with
      pool := { l.pool with waiters := l.pool.waiters ++ [ticket] }
      waiting := l.waiting ++ [ticket] }
  | released (ticket : τ) (c : γ) (held : l.held.get? ticket = some c) :
    Moves l (.operate (.release ticket)) (.held (some c)) { l with
      pool := l.pool.giveBack c
      held := l.held.erase ticket }
  | used (ticket : τ) (effect : γ → γ) (c : γ) (held : l.held.get? ticket = some c) :
    Moves l (.operate (.use ticket effect)) (.held (some (effect c)))
      { l with held := l.held.set ticket (effect c) }
  | cancelled (ticket : τ) (waits : ticket ∈ l.waiting) :
    Moves l (.operate (.cancel ticket)) (.cancelled true) { l with
      pool := l.pool.cancel ticket
      waiting := l.waiting.erase ticket }
  | closed : Moves l (.operate .close) (.surrendered l.pool.idle.reverse) { l with
      pool := { l.pool with idle := [], closed := true }
      surrendered := l.surrendered ++ l.pool.idle.reverse }
  | collected (ticket : τ) (c : γ) (idle : List γ) (opened : l.pool.closed = false)
    (waits : ticket ∈ l.waiting) (turn : ticket ∈ l.pool.promised) (top : l.pool.idle = c :: idle) :
    Moves l (.look ticket) (.loan (.lent c)) { l with
      pool := { l.pool with idle, promised := l.pool.promised.erase ticket }
      held := l.held.set ticket c
      waiting := l.waiting.erase ticket }
  | refused (ticket : τ) (closed : l.pool.closed = true) (waits : ticket ∈ l.waiting) :
    Moves l (.look ticket) (.loan (.refused .closed)) { l with
      pool := (l.pool.collect ticket).2
      waiting := l.waiting.erase ticket }

theorem isFresh_iff : l.isFresh ticket = true ↔ ticket ∉ l.waiting ∧ l.held.get? ticket = none := by
  unfold isFresh
  rw [Bool.and_eq_true, decide_eq_true_eq, Bool.not_eq_true', Table.contains_eq_false]

theorem look_cases (hb : l.pool.Balanced) (h : l.move (.look ticket) = some (reply, u)) :
    Moves l (.look ticket) reply u := by
  simp only [move, collect] at h
  split at h
  · rename_i hwaits
    cases hclosed : l.pool.closed with
    | true =>
      have hcollect : l.pool.collect ticket = (.refused .closed, (l.pool.collect ticket).2) := by
        rw [← (Pool.collect_of_closed hclosed ticket).1]
      rw [hcollect] at h
      cases h
      exact .refused ticket hclosed hwaits
    | false =>
      by_cases hturn : ticket ∈ l.pool.promised
      · obtain ⟨c, idle, htop⟩ := hb.top_of_turn hclosed hturn
        rw [Pool.collect_of_turn hclosed hturn htop] at h
        cases h
        exact .collected ticket c idle hclosed hwaits hturn htop
      · rw [Pool.collect_of_early hclosed hturn] at h
        cases h
        exact .still (.waits ticket hclosed hturn)
  · cases h

theorem acquire_cases (hb : l.pool.Balanced) (hn : l.isFresh ticket = true)
    (h : l.step (.acquire ticket) = (reply, u)) : Moves l (.operate (.acquire ticket)) reply u := by
  obtain ⟨hwaits, hfresh⟩ := isFresh_iff.mp hn
  simp only [Lending.step] at h
  cases hclosed : l.pool.closed with
  | true =>
    rw [Pool.acquire_of_closed hclosed] at h
    cases h
    exact .still (.refused ticket hclosed)
  | false =>
    by_cases hfree : l.pool.free = 0
    · rw [Pool.acquire_of_none hclosed hfree] at h
      cases h
      exact .waits ticket hclosed hfresh hwaits hfree
    · obtain ⟨c, idle, htop⟩ := hb.top_of_free hclosed hfree
      rw [Pool.acquire_of_free hclosed hfree htop] at h
      cases h
      exact .lent ticket c idle .acquire hclosed hfresh hwaits hfree htop

theorem tryAcquire_cases (hb : l.pool.Balanced) (hn : l.isFresh ticket = true)
    (h : l.step (.tryAcquire ticket) = (reply, u)) : Moves l (.operate (.tryAcquire ticket)) reply u := by
  obtain ⟨hwaits, hfresh⟩ := isFresh_iff.mp hn
  simp only [Lending.step] at h
  by_cases hnone : l.pool.closed = true ∨ l.pool.free = 0
  · rw [Pool.tryAcquire_of_none hnone] at h
    cases h
    exact .still (.missed ticket hnone)
  · obtain ⟨hopen, hfree⟩ := not_or.mp hnone
    have hclosed : l.pool.closed = false := by simpa using hopen
    obtain ⟨c, idle, htop⟩ := hb.top_of_free hclosed hfree
    rw [Pool.tryAcquire_of_free hclosed hfree htop] at h
    cases h
    exact .lent ticket c idle .tryAcquire hclosed hfresh hwaits hfree htop

theorem move_cases (hb : l.pool.Balanced) (h : l.move m = some (reply, u)) : Moves l m reply u := by
  cases m with
  | look ticket => exact look_cases hb h
  | operate step =>
    simp only [move] at h
    split at h
    · rename_i hallows
      have hstep : l.step step = (reply, u) := Option.some.inj h
      cases step with
      | acquire ticket => exact acquire_cases hb hallows hstep
      | tryAcquire ticket => exact tryAcquire_cases hb hallows hstep
      | release ticket =>
        simp only [Lending.step] at hstep
        split at hstep <;> rename_i hheld <;> cases hstep
        · exact .released ticket _ hheld
        · exact .still (.released ticket)
      | use ticket effect =>
        simp only [Lending.step] at hstep
        split at hstep <;> rename_i hheld <;> cases hstep
        · exact .used ticket effect _ hheld
        · exact .still (.used ticket effect)
      | cancel ticket =>
        simp only [Lending.step] at hstep
        split at hstep <;> rename_i hwaits <;> cases hstep
        · exact .cancelled ticket hwaits
        · exact .still (.cancelled ticket)
      | close =>
        cases hstep
        exact .closed
    · cases h

/-! ## Books -/

/-- The books of a pool and its borrowers. -/
structure Books (l : Lending γ τ) : Prop where
  kept : l.pool.Kept l.held.size
  stock : l.pool.idle.length + l.held.size + l.surrendered.length = l.pool.capacity
  opened : l.pool.closed = false → l.surrendered = []
  order : l.waiting = l.pool.queue
  apart : ∀ ticket ∈ l.waiting, l.held.get? ticket = none

theorem Books.permits (h : l.Books) :
    l.pool.free + l.pool.promised.length = l.pool.idle.length + l.surrendered.length := by
  have := h.kept.permits
  have := h.stock
  omega

theorem Books.balanced (h : l.Books) : l.pool.Balanced := by
  intro hc
  have := h.permits
  rw [h.opened hc, List.length_nil] at this
  omega

theorem Books.nodup (h : l.Books) : l.waiting.Nodup := by
  rw [h.order]
  exact List.perm_append_comm.nodup_iff.mp h.kept.distinct

theorem Books.apart_erase (h : l.Books) {ticket other : τ} (hm : other ∈ l.waiting.erase ticket) :
    ticket ≠ other ∧ l.held.get? other = none := by
  refine ⟨?_, h.apart other (List.mem_of_mem_erase hm)⟩
  rintro rfl
  exact h.nodup.not_mem_erase hm

theorem Moves.books (hm : Moves l m reply u) (h : l.Books) : u.Books := by
  have hstock := h.stock
  -- What is lent is counted by the size of the table of holders, so each case first says how that changes.
  cases hm with
  | still => exact h
  | lent ticket c idle _ opened fresh waits free top =>
    have hsize := Table.size_set_fresh fresh c
    refine ⟨?_, ?_, h.opened, h.order, fun other ho => ?_⟩
    · rw [hsize]
      exact (h.kept.acquire_lent h.balanced (Pool.acquire_of_free opened free top ticket)).1
    · rw [top, List.length_cons] at hstock
      simp only [hsize]
      omega
    · have hne : ticket ≠ other := fun he => waits (he ▸ ho)
      rw [Table.get?_set, if_neg hne, h.apart other ho]
  | waits ticket opened fresh new unavailable =>
    have hnew : ticket ∉ l.pool.enrolled := by
      rw [h.order] at new
      exact fun he => new (List.perm_append_comm.mem_iff.mp he)
    refine ⟨(h.kept.acquire_waits hnew (Pool.acquire_of_none opened unavailable ticket)).1, h.stock, h.opened,
      ?_, fun other ho => ?_⟩
    · rw [h.order]
      exact List.append_assoc _ _ _
    · rcases List.mem_append.mp ho with ho | ho
      · exact h.apart other ho
      · rw [List.mem_singleton.mp ho]
        exact fresh
  | released ticket c held =>
    have hsize := Table.size_erase held
    have hkept := h.kept
    rw [hsize] at hkept hstock
    refine ⟨(hkept.giveBack c).1, ?_, fun hc => ?_, ?_, fun other ho => ?_⟩
    · simp only [Pool.giveBack, Pool.returnPermit_idle, Pool.returnPermit_capacity, List.length_cons]
      omega
    · rw [Pool.giveBack_closed] at hc
      exact h.opened hc
    · rw [h.order]
      exact (Pool.returnPermit_queue { l.pool with idle := c :: l.pool.idle }).symm
    · rw [Table.get?_erase, h.apart other ho, ite_self]
  | used ticket effect c held =>
    have hsize := Table.size_set held (effect c)
    refine ⟨?_, ?_, h.opened, h.order, fun other ho => ?_⟩
    · rw [hsize]
      exact h.kept
    · rw [hsize]
      exact h.stock
    · have hnone := h.apart other ho
      rw [Table.get?_set, if_neg, hnone]
      rintro rfl
      rw [held] at hnone
      cases hnone
  | cancelled ticket waits =>
    obtain ⟨hidle, hcapacity, hclosed⟩ := l.pool.cancel_same ticket
    refine ⟨h.kept.cancel ticket, ?_, fun hc => h.opened (hclosed ▸ hc), ?_,
      fun other ho => (h.apart_erase ho).2⟩
    · simp only [hidle, hcapacity]
      exact hstock
    · rw [Pool.cancel_queue, h.order]
  | closed =>
    refine ⟨h.kept.close.1, ?_, (fun hc => by cases hc), h.order, h.apart⟩
    simp only [List.length_nil, List.length_append, List.length_reverse]
    omega
  | collected ticket c idle opened waits turn top =>
    have hsize := Table.size_set_fresh (h.apart ticket waits) c
    refine ⟨?_, ?_, h.opened, ?_, fun other ho => ?_⟩
    · rw [hsize]
      exact (h.kept.collect_lent h.balanced (Pool.collect_of_turn opened turn top)).1
    · rw [top, List.length_cons] at hstock
      simp only [hsize]
      omega
    · rw [h.order]
      exact List.erase_append_left _ turn
    · obtain ⟨hne, hnone⟩ := h.apart_erase ho
      rw [Table.get?_set, if_neg hne, hnone]
  | refused ticket closed waits =>
    obtain ⟨hrefused, hqueue, hidle, hcapacity, hclosed⟩ := Pool.collect_of_closed closed ticket
    refine ⟨(h.kept.collect_refused h.balanced (by rw [← hrefused])).1, ?_, fun hc => ?_, ?_,
      fun other ho => (h.apart_erase ho).2⟩
    · simp only [hidle, hcapacity]
      exact hstock
    · rw [hclosed, closed] at hc
      cases hc
    · rw [hqueue, h.order]

theorem Books.step (h : l.Books) (hm : l.move m = some (reply, u)) : u.Books :=
  (move_cases h.balanced hm).books h

theorem books_begin {connections : List γ} {p : Pool γ τ} (h : Pool.ofConnections connections = .ok p) :
    ({ pool := p } : Lending γ τ).Books := by
  obtain ⟨hkept, hnobody⟩ := Pool.ofConnections_kept h
  refine ⟨hkept, ?_, fun _ => rfl, ?_, by simp⟩
  · obtain ⟨-, rfl⟩ := Pool.ofConnections_eq_ok.mp h
    simp [Table.size]
  · obtain ⟨hwaiters, hpromised⟩ := List.append_eq_nil_iff.mp hnobody
    simp [Pool.queue, hwaiters, hpromised]

/-! ## Runs -/

theorem run_cons : l.run (m :: moves) = some (record, u) ↔ ∃ reply v rest,
    l.move m = some (reply, v) ∧ v.run moves = some (rest, u) ∧ record = (m, reply) :: rest := by
  simp only [run, bind, Option.bind_eq_some_iff, Prod.exists, pure, Option.some.injEq, Prod.mk.injEq]
  constructor
  · rintro ⟨reply, v, hv, rest, u', hu, rfl, rfl⟩
    exact ⟨reply, v, rest, hv, hu, rfl⟩
  · rintro ⟨reply, v, rest, hv, hu, rfl⟩
    exact ⟨reply, v, hv, rest, u, hu, rfl, rfl⟩

theorem Books.run_induction {P : Lending γ τ → List (Move γ τ) → List (Move γ τ × Reply γ) → Prop}
    (hl : l.Books) (hr : l.run moves = some (record, u)) (nil : u.Books → P u [] [])
    (cons : ∀ l m reply v moves record, l.Books → l.move m = some (reply, v) →
      v.run moves = some (record, u) → P v moves record → P l (m :: moves) ((m, reply) :: record)) :
    P l moves record := by
  induction moves generalizing l record with
  | nil =>
    cases hr
    exact nil hl
  | cons m moves ih =>
    obtain ⟨reply, v, rest, hm, hrest, rfl⟩ := run_cons.mp hr
    exact cons l m reply v moves rest hl hm hrest (ih (hl.step hm) hrest)

theorem Books.run (h : l.Books) (hr : l.run moves = some (record, u)) : u.Books :=
  h.run_induction (P := fun _ _ _ => u.Books) hr id fun _ _ _ _ _ _ _ _ _ hu => hu

end Lending

end WriteBehind
