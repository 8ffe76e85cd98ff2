import WriteBehind.Proofs.Pool.Moves

/-!
# Service at a pool

Borrowers are served in the order in which they come, whoever gives up in between, and as long as the pool is
open each free permit has an idle connection behind it. A closed pool serves nobody any more: each borrower that
waited when it was closed is refused once, unless it gives up.
-/

namespace WriteBehind.Lending

variable {γ τ : Type} {l u v s : Lending γ τ} {m : Move γ τ} {moves first rest : List (Move γ τ)}
  {reply : Reply γ} {record before after : List (Move γ τ × Reply γ)} {ticket : τ}

/-! ## Waits -/

inductive Ending where
  | served
  | refused (error : Error)
  | gaveUp
  deriving DecidableEq

def arrival? : Move γ τ × Reply γ → Option τ
  | (.operate (.acquire ticket), .loan .waits) => some ticket
  | _ => none

def ending? : Move γ τ × Reply γ → Option (τ × Ending)
  | (.look ticket, .loan (.lent _)) => some (ticket, .served)
  | (.look ticket, .loan (.refused error)) => some (ticket, .refused error)
  | (.operate (.cancel ticket), .cancelled true) => some (ticket, .gaveUp)
  | _ => none

def handedOut : Move γ τ × Reply γ → List γ
  | (_, .surrendered connections) => connections
  | _ => []

def arrivals (record : List (Move γ τ × Reply γ)) : List τ := record.filterMap arrival?

def endings (record : List (Move γ τ × Reply γ)) : List (τ × Ending) := record.filterMap ending?

theorem arrivals_cons (e : Move γ τ × Reply γ) (record : List (Move γ τ × Reply γ)) :
    arrivals (e :: record) = (arrival? e).toList ++ arrivals record := by
  unfold arrivals
  rw [List.filterMap_cons]
  cases arrival? e <;> rfl

theorem endings_cons (e : Move γ τ × Reply γ) (record : List (Move γ τ × Reply γ)) :
    endings (e :: record) = (ending? e).toList ++ endings record := by
  unfold endings
  rw [List.filterMap_cons]
  cases ending? e <;> rfl

theorem Still.no_arrival (h : Still l m reply) : arrival? (m, reply) = none := by cases h <;> rfl

theorem Still.no_ending (h : Still l m reply) : ending? (m, reply) = none := by cases h <;> rfl

variable [DecidableEq τ]

theorem Moves.wait_ends (hm : Moves l m reply v) :
    (((ending? (m, reply)).map (·.1)).toList ++ v.waiting).Perm
      (l.waiting ++ (arrival? (m, reply)).toList) := by
  cases hm with
  | still same => simp [same.no_arrival, same.no_ending]
  | lent _ _ _ grants => cases grants <;> simp [arrival?, ending?]
  | waits => simp [arrival?, ending?]
  | released => simp [arrival?, ending?]
  | used => simp [arrival?, ending?]
  | closed => simp [arrival?, ending?]
  | cancelled _ waits => simpa [arrival?, ending?] using (List.perm_cons_erase waits).symm
  | collected _ _ _ _ waits => simpa [arrival?, ending?] using (List.perm_cons_erase waits).symm
  | refused _ _ waits => simpa [arrival?, ending?] using (List.perm_cons_erase waits).symm

theorem Books.waits_end (h : l.Books) (hr : l.run moves = some (record, u)) :
    ((endings record).map (·.1) ++ u.waiting).Perm (l.waiting ++ arrivals record) := by
  refine h.run_induction (P := fun l _ record =>
    ((endings record).map (·.1) ++ u.waiting).Perm (l.waiting ++ arrivals record)) hr ?_ ?_
  · intro _
    simp [endings, arrivals]
  · intro l m reply v moves record hl hm _ ih
    have hstep := (move_cases hl.balanced hm).wait_ends
    rw [endings_cons, arrivals_cons, List.map_append, List.append_assoc]
    have hends : (ending? (m, reply)).toList.map (·.1) = ((ending? (m, reply)).map (·.1)).toList := by
      cases ending? (m, reply) <;> rfl
    rw [hends, ← List.append_assoc l.waiting]
    refine (ih.append_left _).trans ?_
    rw [← List.append_assoc]
    exact hstep.append_right _

/-! ## Turns -/

def come (l v : Lending γ τ) : List τ := v.pool.promised.filter fun ticket => decide (ticket ∉ l.pool.promised)

/-- The borrowers whose turn comes in a run, in the order in which it does. -/
def turns (l : Lending γ τ) : List (Move γ τ) → List τ
  | [] => []
  | m :: moves =>
    match l.move m with
    | some (_, v) => come l v ++ v.turns moves
    | none => []

theorem nobody_comes {waiters : List τ} (hsub : ∀ ticket ∈ v.pool.promised, ticket ∈ l.pool.promised)
    (hw : v.pool.waiters.Sublist waiters) : (come l v ++ v.pool.waiters).Sublist waiters := by
  have hnone : come l v = [] := by simpa [come, List.filter_eq_nil_iff] using hsub
  rw [hnone]
  exact hw

theorem come_returnPermit {p : Pool γ τ} (hsub : p.promised.Sublist l.pool.promised)
    (hwaiters : p.waiters = l.pool.waiters) (hn : l.pool.enrolled.Nodup) (hv : v.pool = p.returnPermit) :
    come l v ++ v.pool.waiters = l.pool.waiters := by
  unfold come
  rw [hv]
  have hnone : p.promised.filter (fun ticket => decide (ticket ∉ l.pool.promised)) = [] := by
    simpa [List.filter_eq_nil_iff] using fun ticket hm => hsub.subset hm
  unfold Pool.returnPermit
  split
  · rename_i first others _ heq
    -- It has not been promised anything before, so it is one whose turn has come with this step.
    have hfirst : first ∉ l.pool.promised := by
      refine fun hm => List.disjoint_of_nodup_append hn ?_ hm
      rw [← hwaiters, heq]
      exact List.mem_cons_self
    rw [List.filter_append, hnone, ← hwaiters, heq]
    simp [hfirst]
  · rw [hnone, ← hwaiters]
    rfl

theorem Moves.turns (hm : Moves l m reply v) (h : l.Books) :
    (come l v ++ v.pool.waiters).Sublist (l.pool.waiters ++ (arrival? (m, reply)).toList) := by
  have hdistinct := h.kept.distinct
  cases hm with
  | waits => exact nobody_comes (fun _ ht => ht) (.refl _)
  | released ticket c held =>
    rw [come_returnPermit (p := { l.pool with idle := c :: l.pool.idle }) (.refl _) rfl hdistinct rfl]
    exact List.sublist_append_left _ _
  | cancelled ticket waits =>
    refine List.Sublist.trans ?_ (List.sublist_append_left _ _)
    unfold Pool.cancel
    by_cases hturn : ticket ∈ l.pool.promised
    · rw [come_returnPermit (p := { l.pool with promised := l.pool.promised.erase ticket })
        List.erase_sublist rfl hdistinct (if_pos hturn)]
    · rw [if_neg hturn]
      exact nobody_comes (fun _ ht => ht) List.erase_sublist
  | collected => exact nobody_comes (fun _ ht => List.mem_of_mem_erase ht) (List.sublist_append_left _ _)
  | refused ticket closed waits =>
    refine List.Sublist.trans ?_ (List.sublist_append_left _ _)
    unfold Pool.collect
    rw [if_pos closed]
    by_cases hturn : ticket ∈ l.pool.promised
    · rw [if_pos hturn]
      exact nobody_comes (fun _ ht => List.mem_of_mem_erase ht) (.refl _)
    · rw [if_neg hturn]
      exact nobody_comes (fun _ ht => ht) List.erase_sublist
  | _ => exact nobody_comes (fun _ ht => ht) (List.sublist_append_left _ _)

theorem Books.turns (h : l.Books) (hr : l.run moves = some (record, u)) :
    (l.turns moves ++ u.pool.waiters).Sublist (l.pool.waiters ++ arrivals record) := by
  refine h.run_induction (P := fun l moves record =>
    (l.turns moves ++ u.pool.waiters).Sublist (l.pool.waiters ++ arrivals record)) hr ?_ ?_
  · intro _
    simp [Lending.turns, arrivals]
  · intro l m reply v moves record hl hm _ ih
    have hturns : l.turns (m :: moves) = come l v ++ v.turns moves := by simp [Lending.turns, hm]
    rw [hturns, arrivals_cons, List.append_assoc, ← List.append_assoc l.pool.waiters]
    refine (ih.append_left _).trans ?_
    rw [← List.append_assoc]
    exact ((move_cases hl.balanced hm).turns hl).append_right _

/-! ## Refusals -/

theorem Books.refusals (h : l.Books) (hr : l.run moves = some (record, u)) (error : Error)
    (hm : (m, .loan (.refused error)) ∈ record) : error = .closed := by
  refine h.run_induction (P := fun _ _ record => (m, .loan (.refused error)) ∈ record → error = .closed) hr
    (by simp) ?_ hm
  intro l m' reply v moves record hl hm' _ ih hmem
  rcases List.mem_cons.mp hmem with heq | hmem
  · cases heq
    cases move_cases hl.balanced hm' with
    | still same => cases same; rfl
    | lent _ _ _ grants => cases grants
    | refused => rfl
  · exact ih hmem

/-! ## Closing -/

theorem Moves.closed_iff (hm : Moves l m reply v) :
    v.pool.closed = true ↔ l.pool.closed = true ∨ m = .operate .close := by
  cases hm with
  | still same => cases same <;> simp
  | lent _ _ _ grants => cases grants <;> simp
  | waits => simp
  | released => simp [Pool.giveBack_closed]
  | used => simp
  | cancelled ticket => simp [(l.pool.cancel_same ticket).2.2]
  | closed => simp
  | collected => simp
  | refused ticket closed => simp [(Pool.collect_of_closed closed ticket).2.2.2.2]

theorem Books.closed_iff (h : l.Books) (hr : l.run moves = some (record, u)) :
    u.pool.closed = true ↔ l.pool.closed = true ∨ .operate .close ∈ moves := by
  refine h.run_induction (P := fun l moves _ =>
    u.pool.closed = true ↔ l.pool.closed = true ∨ .operate .close ∈ moves) hr (by simp) ?_
  intro l m reply v moves record hl hm _ ih
  rw [ih, (move_cases hl.balanced hm).closed_iff, List.mem_cons, or_assoc, eq_comm (a := m)]

/-- What a move may come to in a closed pool. -/
def Futile : Move γ τ × Reply γ → Prop
  | (.operate (.acquire _), reply) => reply = .loan (.refused .closed)
  | (.operate (.tryAcquire _), reply) => reply = .attempt none
  | (.look _, reply) => reply = .loan (.refused .closed)
  | _ => True

theorem Moves.futile (hm : Moves l m reply v) (hc : l.pool.closed = true) : Futile (m, reply) := by
  cases hm with
  | still same =>
    cases same with
    | waits _ opened => simp [hc] at opened
    | _ => simp [Futile]
  | lent _ _ _ _ opened => simp [hc] at opened
  | waits _ opened => simp [hc] at opened
  | collected _ _ _ opened => simp [hc] at opened
  | _ => simp [Futile]

theorem Books.futile (h : l.Books) (hr : l.run moves = some (record, u)) (hc : l.pool.closed = true) :
    ∀ e ∈ record, Futile e := by
  refine h.run_induction (P := fun l _ record => l.pool.closed = true → ∀ e ∈ record, Futile e) hr
    (by simp) ?_ hc
  intro l m reply v moves record hl hm _ ih hc e he
  have hcases := move_cases hl.balanced hm
  rcases List.mem_cons.mp he with rfl | he
  · exact hcases.futile hc
  · exact ih (hcases.closed_iff.mpr (.inl hc)) e he

omit [DecidableEq τ] in
theorem Futile.no_arrival {e : Move γ τ × Reply γ} (h : Futile e) : arrival? e = none := by
  obtain ⟨m, reply⟩ := e
  unfold arrival?
  split
  · rename_i heq
    cases heq
    cases h
  · rfl

omit [DecidableEq τ] in
theorem Futile.ending {e : Move γ τ × Reply γ} {x : τ × Ending} (h : Futile e) (hx : ending? e = some x) :
    x.2 = .refused .closed ∨ x.2 = .gaveUp := by
  obtain ⟨m, reply⟩ := e
  unfold ending? at hx
  split at hx
  · rename_i heq
    cases heq
    cases h
  · rename_i heq
    cases heq
    cases h
    cases hx
    exact .inl rfl
  · cases hx
    exact .inr rfl
  · cases hx

theorem Moves.hands_out (hm : Moves l m reply v) : v.surrendered = l.surrendered ++ handedOut (m, reply) := by
  cases hm with
  | still same => cases same <;> simp [handedOut]
  | lent _ _ _ grants => cases grants <;> simp [handedOut]
  | _ => simp [handedOut]

theorem Books.hands_out (h : l.Books) (hr : l.run moves = some (record, u)) :
    u.surrendered = l.surrendered ++ record.flatMap handedOut := by
  refine h.run_induction (P := fun l _ record => u.surrendered = l.surrendered ++ record.flatMap handedOut) hr
    (by simp) ?_
  intro l m reply v moves record hl hm _ ih
  rw [ih, (move_cases hl.balanced hm).hands_out, List.flatMap_cons, List.append_assoc]

/-! ## Looking around -/

theorem look_eq (hw : ticket ∈ l.waiting) :
    l.move (.look ticket) = some (.loan (l.collect ticket).1, (l.collect ticket).2) := by
  simp only [move, hw, if_true]

structure Looks (l : Lending γ τ) (tickets : List τ) (found : List (τ × Loan γ)) (u : Lending γ τ) : Prop where
  eq : l.collectAll tickets = (found, u)
  run : ∃ record, l.run (tickets.map .look) = some (record, u)

theorem looks_nil (l : Lending γ τ) : Looks l [] [] l := ⟨rfl, [], rfl⟩

theorem Looks.early {tickets : List τ} {found : List (τ × Loan γ)} (hlooks : Looks l tickets found u)
    (hw : ticket ∈ l.waiting) (hc : l.pool.closed = false) (hm : ticket ∉ l.pool.promised) :
    Looks l (ticket :: tickets) found u := by
  have hcollect : l.collect ticket = (.waits, l) := by
    unfold collect
    rw [Pool.collect_of_early hc hm]
  obtain ⟨record, hr⟩ := hlooks.run
  refine ⟨?_, (.look ticket, .loan .waits) :: record, ?_⟩
  · rw [collectAll, hcollect]
    exact hlooks.eq
  · have hmove := look_eq hw
    rw [hcollect] at hmove
    exact run_cons.mpr ⟨_, l, record, hmove, hr, rfl⟩

theorem Looks.ends {tickets : List τ} {found : List (τ × Loan γ)} {loan : Loan γ}
    (hlooks : Looks v tickets found u) (hw : ticket ∈ l.waiting)
    (hcollect : l.collect ticket = (loan, v)) (hloan : loan ≠ .waits) :
    Looks l (ticket :: tickets) ((ticket, loan) :: found) u := by
  obtain ⟨record, hr⟩ := hlooks.run
  refine ⟨?_, (.look ticket, .loan loan) :: record, ?_⟩
  · rw [collectAll, hcollect]
    cases loan with
    | waits => exact absurd rfl hloan
    | _ => simp only [hlooks.eq]
  · have hmove := look_eq hw
    rw [hcollect] at hmove
    exact run_cons.mpr ⟨_, v, record, hmove, hr, rfl⟩

theorem Books.looks_opened (h : l.Books) (hc : l.pool.closed = false) {others : List τ}
    (ho : ∀ ticket ∈ others, ticket ∈ l.waiting ∧ ticket ∉ l.pool.promised) :
    ∃ found u, Looks l (l.pool.promised ++ others) found u ∧ found.map (·.1) = l.pool.promised ∧
      (∀ e ∈ found, ∃ c, e.2 = .lent c) ∧ u.pool.promised = [] := by
  induction hp : l.pool.promised generalizing l with
  | nil =>
    refine ⟨[], l, ?_, rfl, by simp, hp⟩
    rw [List.nil_append]
    induction others with
    | nil => exact looks_nil l
    | cons ticket others ih =>
      obtain ⟨hw, hm⟩ := ho ticket List.mem_cons_self
      exact (ih fun t ht => ho t (List.mem_cons_of_mem _ ht)).early hw hc hm
  | cons ticket promised ih =>
    -- Keeping the first promise leaves the others and those who wait behind them as they were.
    have hturn : ticket ∈ l.pool.promised := by rw [hp]; exact List.mem_cons_self
    have hw : ticket ∈ l.waiting := by rw [h.order]; exact List.mem_append_left _ hturn
    obtain ⟨c, idle, htop⟩ := h.balanced.top_of_turn hc hturn
    obtain ⟨v, hcollect, hwaiting, hpromised, hclosed⟩ : ∃ v, l.collect ticket = (.lent c, v) ∧
        v.waiting = l.waiting.erase ticket ∧ v.pool.promised = promised ∧ v.pool.closed = false := by
      unfold collect
      rw [Pool.collect_of_turn hc hturn htop]
      exact ⟨_, rfl, rfl, by simp [note, hp], hc⟩
    have hmove := look_eq hw
    rw [hcollect] at hmove
    have hv : ∀ t ∈ others, t ∈ v.waiting ∧ t ∉ v.pool.promised := by
      intro t ht
      obtain ⟨htw, htp⟩ := ho t ht
      rw [hp, List.mem_cons, not_or] at htp
      rw [hwaiting, hpromised]
      exact ⟨(List.mem_erase_of_ne htp.1).mpr htw, htp.2⟩
    obtain ⟨found, u, hlooks, hfound, hlent, hnone⟩ := ih (h.step hmove) hclosed hv hpromised
    refine ⟨(ticket, .lent c) :: found, u, hlooks.ends hw hcollect (by simp), ?_, ?_, hnone⟩
    · rw [List.map_cons, hfound]
    intro e he
    rcases List.mem_cons.mp he with rfl | he
    · exact ⟨c, rfl⟩
    · exact hlent e he

theorem looks_closed {tickets : List τ} (hc : l.pool.closed = true) (hw : l.waiting = tickets) :
    ∃ u, Looks l tickets (tickets.map fun ticket => (ticket, .refused .closed)) u ∧ u.waiting = [] := by
  induction tickets generalizing l with
  | nil => exact ⟨l, looks_nil l, hw⟩
  | cons ticket tickets ih =>
    obtain ⟨hrefused, _, _, _, hclosed⟩ := Pool.collect_of_closed hc ticket
    have hpool : l.pool.collect ticket = (.refused .closed, (l.pool.collect ticket).2) := by rw [← hrefused]
    obtain ⟨v, hcollect, hwaiting, hv⟩ : ∃ v, l.collect ticket = (.refused .closed, v) ∧
        v.waiting = tickets ∧ v.pool.closed = true := by
      unfold collect
      rw [hpool]
      exact ⟨_, rfl, by simp [note, hw], hclosed.trans hc⟩
    obtain ⟨u, hlooks, hu⟩ := ih hv hwaiting
    exact ⟨u, hlooks.ends (by rw [hw]; exact List.mem_cons_self) hcollect (by simp), hu⟩

/-! ## Permits, borrowers and connections -/

/-- Permits, borrowers and connections agree. A permit that is promised counts as its borrower's. -/
structure Agrees (l : Lending γ τ) : Prop where
  permits : l.pool.free + l.pool.promised.length + l.held.size = l.pool.capacity
  stock : l.pool.free + l.pool.promised.length = l.pool.size + l.surrendered.length
  order : l.waiting = l.pool.promised ++ l.pool.waiters
  distinct : l.waiting.Nodup

/-- An open pool has a connection behind each permit, and somebody waits only if there is no other. When all who
wait have looked, those are served whose turn has come. -/
structure Serves (l : Lending γ τ) : Prop where
  stock : l.pool.free + l.pool.promised.length = l.pool.size
  queued : l.pool.waiters ≠ [] → l.pool.free = 0
  lends : l.pool.free ≠ 0 →
    ∀ ticket : τ, ∃ c, (l.pool.acquire ticket).1 = .lent c ∧ l.pool.tryAcquire.1 = some c
  collects : ∀ ticket ∈ l.pool.promised, ∃ c, (l.pool.collect ticket).1 = .lent c
  turns : l.settle.1.map (·.1) = l.pool.promised
  served : ∀ e ∈ l.settle.1, ∃ c, e.2 = .lent c
  settled : l.settle.2.pool.free = l.settle.2.pool.size
  idle : l.settle.2.waiting ≠ [] → l.settle.2.pool.size = 0

/-- A closed pool lends nothing more. Those who waited leave it with a refusal or give up, once each. -/
structure Refuses (s : Lending γ τ) (after : List (Move γ τ × Reply γ)) (l : Lending γ τ) : Prop where
  closed : l.pool.closed = true
  futile : ∀ e ∈ after, Futile e
  once : ((endings after).map (·.1) ++ l.waiting).Perm s.waiting
  refused : ∀ x ∈ endings after, x.2 = .refused .closed ∨ x.2 = .gaveUp
  turns : l.settle.1 = l.waiting.map fun ticket => (ticket, .refused .closed)
  gone : l.settle.2.waiting = []
  settled : l.settle.2.pool.free = l.settle.2.pool.size + l.settle.2.surrendered.length

theorem Books.agrees (h : l.Books) : l.Agrees where
  permits := h.kept.permits
  stock := h.permits
  order := h.order
  distinct := h.nodup

theorem Books.serves (h : l.Books) (hc : l.pool.closed = false) : l.Serves := by
  have hwaiting : ∀ ticket ∈ l.pool.waiters, ticket ∈ l.waiting ∧ ticket ∉ l.pool.promised := by
    intro ticket ht
    refine ⟨?_, List.disjoint_of_nodup_append h.kept.distinct ht⟩
    rw [h.order]
    exact List.mem_append_right _ ht
  obtain ⟨found, u, ⟨heq, record, hr⟩, hfound, hlent, hnone⟩ := h.looks_opened hc hwaiting
  have hsettle : l.settle = (found, u) := by
    unfold settle
    rw [h.order]
    exact heq
  have hu := h.run hr
  have hopen : u.pool.closed = false := by
    rw [Bool.eq_false_iff]
    intro hclosed
    rcases (h.closed_iff hr).mp hclosed with hclosed | hm
    · rw [hc] at hclosed
      cases hclosed
    · simp at hm
  have hstock : u.pool.free = u.pool.size := by
    have := hu.permits
    rwa [hnone, hu.opened hopen, List.length_nil, Nat.add_zero] at this
  refine ⟨?_, h.kept.queued hc, fun hf ticket => ?_, fun ticket hm => ?_, ?_, ?_, ?_, ?_⟩
  · have := h.permits
    rwa [h.opened hc] at this
  · obtain ⟨c, idle, htop⟩ := h.balanced.top_of_free hc hf
    rw [Pool.acquire_of_free hc hf htop, Pool.tryAcquire_of_free hc hf htop]
    exact ⟨c, rfl, rfl⟩
  · obtain ⟨c, idle, htop⟩ := h.balanced.top_of_turn hc hm
    rw [Pool.collect_of_turn hc hm htop]
    exact ⟨c, rfl⟩
  · rw [hsettle, hfound]
  · rw [hsettle]
    exact hlent
  · rw [hsettle]
    exact hstock
  · rw [hsettle]
    intro hw
    rw [← hstock]
    refine hu.kept.queued hopen ?_
    rwa [hu.order, Pool.queue, hnone, List.nil_append] at hw

theorem Books.refuses (h : s.Books) (hr : s.run rest = some (after, l)) (hc : s.pool.closed = true) :
    Refuses s after l := by
  have hl := h.run hr
  have hclosed := (h.closed_iff hr).mpr (.inl hc)
  have hfutile := h.futile hr hc
  have harrivals : arrivals after = [] := List.filterMap_eq_nil_iff.mpr fun e he => (hfutile e he).no_arrival
  obtain ⟨u, ⟨heq, record, hr'⟩, hnobody⟩ := looks_closed hclosed (Eq.refl l.waiting)
  have hsettle : l.settle = (l.waiting.map fun ticket => (ticket, .refused .closed), u) := heq
  refine ⟨hclosed, hfutile, ?_, fun x hx => ?_, by rw [hsettle], by rw [hsettle, hnobody], ?_⟩
  · have := h.waits_end hr
    rwa [harrivals, List.append_nil] at this
  · obtain ⟨e, he, hx⟩ := List.mem_filterMap.mp hx
    exact (hfutile e he).ending hx
  · have hu := hl.run hr'
    have hpromised : u.pool.promised = [] := (List.append_eq_nil_iff.mp (hu.order ▸ hnobody)).1
    have := hu.permits
    rw [hsettle]
    rwa [hpromised, List.length_nil, Nat.add_zero] at this

variable {connections : List γ} {p : Pool γ τ}

/-- Permits, borrowers and connections agree in every run of a pool. Permits that are free, promised or used for
a connection that is held are as many as the pool has, whoever has given up; those that are not used stand for
the idle connections and for those given away. Turns come in the order in which borrowers have come, each wait
ends once, and nobody is refused but because the pool is closed. While it is open it serves, and from then on
it refuses. -/
theorem permits_agree (hp : Pool.ofConnections connections = .ok p)
    (hs : ({ pool := p } : Lending γ τ).run first = some (before, s)) (hr : s.run rest = some (after, l)) :
    l.Agrees ∧ (l.pool.closed = true ↔ .operate .close ∈ first ++ rest) ∧
    l.surrendered = (before ++ after).flatMap handedOut ∧
    (s.turns rest ++ l.pool.waiters).Sublist (s.pool.waiters ++ arrivals after) ∧
    ((endings after).map (·.1) ++ l.waiting).Perm (s.waiting ++ arrivals after) ∧
    (∀ m error, (m, .loan (.refused error)) ∈ after → error = .closed) ∧
    (l.pool.closed = false → l.Serves) ∧ (s.pool.closed = true → Refuses s after l) := by
  have h₀ := books_begin (τ := τ) hp
  have h := h₀.run hs
  have hl := h.run hr
  refine ⟨hl.agrees, ?_, ?_, h.turns hr, h.waits_end hr, fun m error hm => h.refusals hr error hm, hl.serves,
    h.refuses hr⟩
  · have hopen := Pool.ofConnections_closed hp
    rw [h.closed_iff hr, h₀.closed_iff hs, List.mem_append]
    simp [hopen]
  · rw [h.hands_out hr, h₀.hands_out hs, List.flatMap_append]
    rfl

/-- Five ask for two connections. The first who waits gives up, and the turn of the next has come when the pool
is closed. -/
def crowd : List (Move Nat Nat) :=
  [.operate (.acquire 0), .operate (.acquire 1), .operate (.acquire 2), .operate (.acquire 3),
    .operate (.acquire 4), .operate (.cancel 2), .operate (.release 0), .operate .close]

def aftermath : List (Move Nat Nat) :=
  [.look 3, .operate (.acquire 5), .operate (.release 1), .operate (.tryAcquire 6), .operate (.cancel 4),
    .operate .close]

theorem permits_agree_closed : ∃ (p : Pool Nat Nat) (before after : List (Move Nat Nat × Reply Nat))
    (s l : Lending Nat Nat), Pool.ofConnections [10, 20] = .ok p ∧
    ({ pool := p } : Lending Nat Nat).run crowd = some (before, s) ∧ s.run aftermath = some (after, l) ∧
    s.waiting = [3, 4] ∧ endings after = [(3, .refused .closed), (4, .gaveUp)] ∧ l.surrendered = [20, 10] ∧
    l.pool.free = 2 ∧ l.Agrees ∧ Refuses s after l := by
  obtain ⟨p, before, after, s, l, hp, hs, hr, hclosed, hwaiting, hendings, hgiven, hfree⟩ :
      ∃ (p : Pool Nat Nat) (before after : List (Move Nat Nat × Reply Nat)) (s l : Lending Nat Nat),
        Pool.ofConnections [10, 20] = .ok p ∧ ({ pool := p } : Lending Nat Nat).run crowd = some (before, s) ∧
        s.run aftermath = some (after, l) ∧ s.pool.closed = true ∧ s.waiting = [3, 4] ∧
        endings after = [(3, .refused .closed), (4, .gaveUp)] ∧ l.surrendered = [20, 10] ∧ l.pool.free = 2 :=
    ⟨_, _, _, _, _, rfl, rfl, rfl, rfl, rfl, rfl, rfl, rfl⟩
  obtain ⟨hagrees, _, _, _, _, _, _, hrefuses⟩ := permits_agree hp hs hr
  exact ⟨p, before, after, s, l, hp, hs, hr, hwaiting, hendings, hgiven, hfree, hagrees, hrefuses hclosed⟩

end WriteBehind.Lending
