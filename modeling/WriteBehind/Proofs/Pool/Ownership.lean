import Mathlib.Data.List.FinRange
import Mathlib.Data.List.Nodup
import WriteBehind.Proofs.Pool.Moves

/-!
# Ownership of connections

A pool does not look at its connections, so it does the same with their numbers. The numbers tell where each
connection is after a run and which uses have changed it: it is idle, held by one borrower, or given away.
-/

namespace WriteBehind

/-! ## Other connections in the same places -/

namespace Table

variable {κ α β : Type} [DecidableEq κ] {t : Table κ α} {k : κ} {a : α}

omit [DecidableEq κ] in
def map (f : α → β) (t : Table κ α) : Table κ β :=
  ⟨t.entries.map fun e => (e.1, f e.2), by simpa [Function.comp_def] using t.distinct⟩

theorem get?_map (f : α → β) (t : Table κ α) (k : κ) : (t.map f).get? k = (t.get? k).map f := by
  simp only [get?, map]
  induction t.entries with
  | nil => rfl
  | cons e entries ih =>
    obtain ⟨k', a⟩ := e
    by_cases hk : k' = k <;> simp [find?, hk, ih]

theorem map_set (f : α → β) (t : Table κ α) (k : κ) (a : α) : (t.set k a).map f = (t.map f).set k (f a) := by
  simp only [set, map, mk.injEq]
  induction t.entries with
  | nil => rfl
  | cons e entries ih =>
    obtain ⟨k', a'⟩ := e
    by_cases hk : k' = k <;> simp [put, hk, ih]

theorem map_erase (f : α → β) (t : Table κ α) (k : κ) : (t.erase k).map f = (t.map f).erase k := by
  simp only [erase, map, mk.injEq, remove, List.filter_map]
  rfl

theorem map_update [DecidableEq α] (f : α → β) (b : β) (h : t.get? k = some a) (hn : t.values.Nodup) :
    (t.map f).set k b = (t.set k a).map (Function.update f a b) := by
  obtain ⟨entries, distinct⟩ := t
  simp only [set, map, mk.injEq]
  simp only [get?, values] at h hn
  induction entries with
  | nil => cases h
  | cons e entries ih =>
    obtain ⟨k', a'⟩ := e
    rw [List.map_cons, List.nodup_cons] at hn distinct
    by_cases hk : k' = k
    · subst hk
      rw [find?, if_pos rfl, Option.some.injEq] at h
      subst h
      have hsame : ∀ e ∈ entries, Function.update f a' b e.2 = f e.2 := fun e he =>
        Function.update_of_ne (fun heq => hn.1 (List.mem_map.mpr ⟨e, he, heq⟩)) _ _
      simpa [put] using fun k'' a'' he => (hsame (k'', a'') he).symm
    · rw [find?, if_neg hk] at h
      have hne : a' ≠ a := by
        rintro rfl
        exact hn.1 (List.mem_map.mpr ⟨(k, a'), (find?_eq_some distinct.2).mp h, rfl⟩)
      simp [put, hk, ih distinct.2 h hn.2, Function.update_of_ne hne]

end Table

namespace Loan

variable {γ δ : Type}

def map (f : γ → δ) : Loan γ → Loan δ
  | lent c => lent (f c)
  | waits => waits
  | refused error => refused error

end Loan

namespace Pool

variable {γ δ τ : Type}

def map (f : γ → δ) (p : Pool γ τ) : Pool δ τ where
  idle := p.idle.map f
  free := p.free
  waiters := p.waiters
  promised := p.promised
  closed := p.closed
  capacity := p.capacity

theorem map_returnPermit (f : γ → δ) (p : Pool γ τ) : p.returnPermit.map f = (p.map f).returnPermit := by
  unfold returnPermit map
  cases p.closed <;> cases p.waiters <;> rfl

theorem map_giveBack (f : γ → δ) (p : Pool γ τ) (c : γ) : (p.giveBack c).map f = (p.map f).giveBack (f c) :=
  map_returnPermit f _

theorem map_checkout (f : γ → δ) (p : Pool γ τ) :
    (p.map f).checkout = (p.checkout.1.map f, p.checkout.2.map f) := by
  unfold checkout
  cases hidle : p.idle with
  | nil =>
    have hmap : (p.map f).idle = [] := by simp [map, hidle]
    simp only [hmap, map_returnPermit]
    rfl
  | cons c idle =>
    have hmap : (p.map f).idle = f c :: idle.map f := by simp [map, hidle]
    simp only [hmap]
    rfl

theorem map_lend (f : γ → δ) (p : Pool γ τ) : (p.map f).lend = (p.lend.1.map f, p.lend.2.map f) := by
  unfold lend
  rw [map_checkout]
  cases p.checkout with
  | mk found p => cases found <;> rfl

theorem map_acquire (f : γ → δ) (p : Pool γ τ) (ticket : τ) :
    (p.map f).acquire ticket = ((p.acquire ticket).1.map f, (p.acquire ticket).2.map f) := by
  have hlend := map_lend f { p with free := p.free - 1 }
  unfold acquire
  by_cases hc : p.closed = true
  · rw [if_pos hc, if_pos (show (p.map f).closed = true from hc)]
    rfl
  · rw [if_neg hc, if_neg (show ¬(p.map f).closed = true from hc)]
    by_cases hf : p.free = 0
    · rw [if_pos hf, if_pos (show (p.map f).free = 0 from hf)]
      rfl
    · rw [if_neg hf, if_neg (show ¬(p.map f).free = 0 from hf)]
      exact hlend

theorem map_tryAcquire (f : γ → δ) (p : Pool γ τ) :
    (p.map f).tryAcquire = (p.tryAcquire.1.map f, p.tryAcquire.2.map f) := by
  have hcheckout := map_checkout f { p with free := p.free - 1 }
  unfold tryAcquire
  by_cases hn : (p.closed || p.free == 0) = true
  · rw [if_pos hn, if_pos (show ((p.map f).closed || (p.map f).free == 0) = true from hn)]
    rfl
  · rw [if_neg hn, if_neg (show ¬((p.map f).closed || (p.map f).free == 0) = true from hn)]
    have hsame : ({ p.map f with free := (p.map f).free - 1 } : Pool δ τ) =
      { p with free := p.free - 1 }.map f := rfl
    rw [hsame, hcheckout]
    cases checkout { p with free := p.free - 1 } with
    | mk found p => cases found <;> rfl

variable [DecidableEq τ]

theorem map_cancel (f : γ → δ) (p : Pool γ τ) (ticket : τ) :
    (p.cancel ticket).map f = (p.map f).cancel ticket := by
  unfold cancel
  by_cases hm : ticket ∈ p.promised
  · rw [if_pos hm, map_returnPermit]
    exact (if_pos hm).symm
  · rw [if_neg hm]
    exact (if_neg hm).symm

theorem map_collect (f : γ → δ) (p : Pool γ τ) (ticket : τ) :
    (p.map f).collect ticket = ((p.collect ticket).1.map f, (p.collect ticket).2.map f) := by
  have hlend := map_lend f { p with promised := p.promised.erase ticket }
  unfold collect
  by_cases hc : p.closed = true
  · rw [if_pos hc, if_pos (show (p.map f).closed = true from hc)]
    by_cases hm : ticket ∈ p.promised
    · rw [if_pos hm, if_pos (show ticket ∈ (p.map f).promised from hm)]
      rfl
    · rw [if_neg hm, if_neg (show ticket ∉ (p.map f).promised from hm)]
      rfl
  · rw [if_neg hc, if_neg (show ¬(p.map f).closed = true from hc)]
    by_cases hm : ticket ∈ p.promised
    · rw [if_pos hm, if_pos (show ticket ∈ (p.map f).promised from hm)]
      exact hlend
    · rw [if_neg hm, if_neg (show ticket ∉ (p.map f).promised from hm)]
      rfl

end Pool

namespace Lending

variable {γ ι τ : Type} [DecidableEq τ]

def map (f : ι → γ) (l : Lending ι τ) : Lending γ τ where
  pool := l.pool.map f
  held := l.held.map f
  waiting := l.waiting
  surrendered := l.surrendered.map f

variable {f : ι → γ} {l v : Lending ι τ} {m : Move γ τ} {moves : List (Move γ τ)} {u : Lending γ τ}
  {reply : Reply γ} {record : List (Move γ τ × Reply γ)}

theorem map_note (f : ι → γ) (l : Lending ι τ) (ticket : τ) (loan : Loan ι) :
    (l.note ticket loan).map f = (l.map f).note ticket (loan.map f) := by
  cases loan with
  | lent c => simp [note, map, Loan.map, Table.map_set]
  | _ => rfl

theorem map_collect (f : ι → γ) (l : Lending ι τ) (ticket : τ) :
    (l.map f).collect ticket = ((l.collect ticket).1.map f, (l.collect ticket).2.map f) := by
  unfold collect
  rw [show (l.map f).pool = l.pool.map f from rfl, Pool.map_collect]
  cases l.pool.collect ticket with
  | mk loan pool =>
    cases loan with
    | lent c =>
      have hnote := map_note f { l with pool, waiting := l.waiting.erase ticket } ticket (.lent c)
      exact congrArg (Prod.mk _) hnote.symm
    | _ => rfl

theorem isFresh_map (f : ι → γ) (l : Lending ι τ) (ticket : τ) :
    (l.map f).isFresh ticket = l.isFresh ticket := by
  unfold isFresh Table.contains
  rw [show (l.map f).held = l.held.map f from rfl, Table.get?_map, Option.isSome_map]
  rfl

theorem map_step_acquire (f : ι → γ) (l : Lending ι τ) (ticket : τ) :
    ((l.map f).step (.acquire ticket)).2 = (l.step (.acquire ticket)).2.map f := by
  simp only [step]
  rw [show (l.map f).pool = l.pool.map f from rfl, Pool.map_acquire]
  exact (map_note f { l with pool := (l.pool.acquire ticket).2 } ticket _).symm

theorem map_step_tryAcquire (f : ι → γ) (l : Lending ι τ) (ticket : τ) :
    ((l.map f).step (.tryAcquire ticket)).2 = (l.step (.tryAcquire ticket)).2.map f := by
  simp only [step]
  rw [show (l.map f).pool = l.pool.map f from rfl, Pool.map_tryAcquire]
  cases l.pool.tryAcquire with
  | mk found pool =>
    cases found with
    | none => rfl
    | some c => simp [map, Table.map_set]

theorem map_step_release (f : ι → γ) (l : Lending ι τ) (ticket : τ) :
    ((l.map f).step (.release ticket)).2 = (l.step (.release ticket)).2.map f := by
  simp only [step]
  rw [show (l.map f).held = l.held.map f from rfl, Table.get?_map]
  cases l.held.get? ticket with
  | none => rfl
  | some c => simp [map, Table.map_erase, Pool.map_giveBack]

theorem map_step_cancel (f : ι → γ) (l : Lending ι τ) (ticket : τ) :
    ((l.map f).step (.cancel ticket)).2 = (l.step (.cancel ticket)).2.map f := by
  simp only [step]
  rw [show (l.map f).waiting = l.waiting from rfl]
  split
  · simp [map, Pool.map_cancel]
  · rfl

theorem map_step_close (f : ι → γ) (l : Lending ι τ) :
    ((l.map f).step .close).2 = (l.step .close).2.map f := by
  simp [step, map, Pool.close, Pool.map]

/-! ## Places -/

def placed (l : Lending ι τ) : List ι := l.pool.idle ++ l.held.values ++ l.surrendered

inductive Place (τ : Type) where
  | idle
  | held (ticket : τ)
  | surrendered

def At (l : Lending ι τ) (i : ι) : Place τ → Prop
  | .idle => i ∈ l.pool.idle
  | .held ticket => l.held.get? ticket = some i
  | .surrendered => i ∈ l.surrendered

theorem mem_placed {i : ι} : i ∈ l.placed ↔ ∃ place, l.At i place := by
  unfold placed
  rw [List.mem_append, List.mem_append, Table.mem_values]
  constructor
  · rintro ((h | ⟨ticket, h⟩) | h)
    · exact ⟨.idle, h⟩
    · exact ⟨.held ticket, h⟩
    · exact ⟨.surrendered, h⟩
  · rintro ⟨place, h⟩
    cases place with
    | idle => exact .inl (.inl h)
    | held ticket => exact .inl (.inr ⟨ticket, h⟩)
    | surrendered => exact .inr h

theorem At.unique {i : ι} {place place' : Place τ} (hn : l.placed.Nodup) (h : l.At i place)
    (h' : l.At i place') : place = place' := by
  obtain ⟨hrest, _, hsurrendered⟩ := List.nodup_append.mp hn
  obtain ⟨_, hvalues, hidle⟩ := List.nodup_append.mp hrest
  have hheld : ∀ {ticket}, l.held.get? ticket = some i → i ∈ l.held.values :=
    fun h => Table.mem_values.mpr ⟨_, h⟩
  cases place with
  | idle =>
    cases place' with
    | idle => rfl
    | held => exact absurd rfl (hidle i h i (hheld h'))
    | surrendered => exact absurd rfl (hsurrendered i (List.mem_append_left _ h) i h')
  | held ticket =>
    cases place' with
    | idle => exact absurd rfl (hidle i h' i (hheld h))
    | held ticket' =>
      have heq := List.inj_on_of_nodup_map hvalues (Table.get?_eq_some.mp h) (Table.get?_eq_some.mp h') rfl
      cases heq
      rfl
    | surrendered => exact absurd rfl (hsurrendered i (List.mem_append_right _ (hheld h)) i h')
  | surrendered =>
    cases place' with
    | idle => exact absurd rfl (hsurrendered i (List.mem_append_left _ h') i h)
    | held => exact absurd rfl (hsurrendered i (List.mem_append_right _ (hheld h')) i h)
    | surrendered => rfl

theorem Moves.placed [DecidableEq ι] {m : Move ι τ} {reply : Reply ι} (hm : Moves l m reply v) (h : l.Books)
    (hsame : ∀ ticket effect, m = .operate (.use ticket effect) → effect = id) : v.placed.Perm l.placed := by
  rw [List.perm_iff_count]
  intro i
  unfold Lending.placed
  simp only [List.count_append]
  cases hm with
  | still => rfl
  | lent ticket c idle _ _ fresh _ _ top =>
    have hset := (Table.values_set l.held ticket c).count_eq i
    rw [Table.values_erase_fresh fresh, List.count_cons] at hset
    simp only [top, hset, List.count_cons]
    omega
  | waits => rfl
  | released ticket c held =>
    have herase := (Table.values_erase held).count_eq i
    rw [List.count_cons] at herase
    simp only [herase, Pool.giveBack, Pool.returnPermit_idle, List.count_cons]
    omega
  | used ticket effect c held =>
    rw [hsame ticket effect rfl, id, (Table.values_set l.held ticket c).count_eq i,
      (Table.values_erase held).count_eq i]
  | cancelled ticket => rw [(l.pool.cancel_same ticket).1]
  | closed =>
    simp only [List.count_nil, List.count_append, List.count_reverse]
    omega
  | collected ticket c idle _ waits _ top =>
    have hset := (Table.values_set l.held ticket c).count_eq i
    rw [Table.values_erase_fresh (h.apart ticket waits), List.count_cons] at hset
    simp only [top, hset, List.count_cons]
    omega
  | refused ticket closed => rw [(Pool.collect_of_closed closed ticket).2.2.1]

/-! ## Changes -/

/-- The same move in a pool of other connections, which no use changes. -/
def Move.bare : Move γ τ → Move ι τ
  | .operate (.acquire ticket) => .operate (.acquire ticket)
  | .operate (.tryAcquire ticket) => .operate (.tryAcquire ticket)
  | .operate (.release ticket) => .operate (.release ticket)
  | .operate (.use ticket _) => .operate (.use ticket id)
  | .operate (.cancel ticket) => .operate (.cancel ticket)
  | .operate .close => .operate .close
  | .look ticket => .look ticket

def change? (l : Lending ι τ) : Move γ τ → Option (ι × (γ → γ))
  | .operate (.use ticket effect) => (l.held.get? ticket).map fun i => (i, effect)
  | _ => none

def changes (l : Lending ι τ) : List (Move γ τ) → List (ι × (γ → γ))
  | [] => []
  | m :: moves =>
    (l.change? m).toList ++ match l.move m.bare with
      | some (_, v) => v.changes moves
      | none => []

variable [DecidableEq ι]

def changed (f : ι → γ) (changes : List (ι × (γ → γ))) : ι → γ :=
  changes.foldl (fun f change => Function.update f change.1 (change.2 (f change.1))) f

def effectsOn (i : ι) (changes : List (ι × (γ → γ))) : List (γ → γ) :=
  (changes.filter fun change => decide (change.1 = i)).map (·.2)

theorem changed_apply (f : ι → γ) (changes : List (ι × (γ → γ))) (i : ι) :
    changed f changes i = (effectsOn i changes).foldl (fun c effect => effect c) (f i) := by
  unfold changed effectsOn
  induction changes generalizing f with
  | nil => rfl
  | cons change changes ih =>
    rw [List.foldl_cons, ih]
    by_cases hi : change.1 = i
    · subst hi
      rw [List.filter_cons_of_pos (by simp), List.map_cons, List.foldl_cons, Function.update_self]
    · rw [List.filter_cons_of_neg (by simpa using hi), Function.update_of_ne (Ne.symm hi)]

theorem map_step_use (hn : l.placed.Nodup) (ticket : τ) (effect : γ → γ) :
    ((l.map f).step (.use ticket effect)).2 =
      (l.step (.use ticket id)).2.map (changed f (l.change? (.operate (.use ticket effect))).toList) := by
  simp only [step, change?]
  rw [show (l.map f).held = l.held.map f from rfl, Table.get?_map]
  cases hheld : l.held.get? ticket with
  | none => rfl
  | some i =>
    -- What is held stands nowhere else, so a change of it there is a change of it everywhere.
    obtain ⟨hrest, _, hsurrendered⟩ := List.nodup_append.mp hn
    obtain ⟨_, hvalues, hidle⟩ := List.nodup_append.mp hrest
    have hi : i ∈ l.held.values := Table.mem_values.mpr ⟨ticket, hheld⟩
    have hsame : ∀ list : List ι, i ∉ list →
        list.map f = list.map (Function.update f i (effect (f i))) := fun list hnot =>
      List.map_congr_left fun j hj => (Function.update_of_ne (fun he : j = i => hnot (he ▸ hj)) _ _).symm
    have hidle' := hsame l.pool.idle fun hm => hidle i hm i hi rfl
    have hsurrendered' := hsame l.surrendered fun hm => hsurrendered i (List.mem_append_right _ hi) i hm rfl
    have hheld' := Table.map_update f (effect (f i)) hheld hvalues
    simp only [map, Pool.map, Option.map_some, Option.toList_some, changed, List.foldl_cons, List.foldl_nil, id]
    rw [hidle', hsurrendered', hheld']

theorem map_move (hn : l.placed.Nodup) (h : (l.map f).move m = some (reply, u)) :
    ∃ reply' v, l.move m.bare = some (reply', v) ∧ u = v.map (changed f (l.change? m).toList) := by
  cases m with
  | look ticket =>
    simp only [move] at h
    split at h
    · rename_i hwaits
      rw [map_collect] at h
      cases h
      exact ⟨_, _, if_pos hwaits, rfl⟩
    · cases h
  | operate step =>
    simp only [move] at h
    split at h
    · rename_i hallows
      have hu : u = ((l.map f).step step).2 := (congrArg (·.2) (Option.some.inj h)).symm
      subst hu
      cases step with
      | acquire ticket =>
        have hfresh : l.isFresh ticket = true := isFresh_map f l ticket ▸ hallows
        exact ⟨_, _, if_pos hfresh, map_step_acquire f l ticket⟩
      | tryAcquire ticket =>
        have hfresh : l.isFresh ticket = true := isFresh_map f l ticket ▸ hallows
        exact ⟨_, _, if_pos hfresh, map_step_tryAcquire f l ticket⟩
      | release ticket => exact ⟨_, _, rfl, map_step_release f l ticket⟩
      | cancel ticket => exact ⟨_, _, rfl, map_step_cancel f l ticket⟩
      | close => exact ⟨_, _, rfl, map_step_close f l⟩
      | use ticket effect => exact ⟨_, _, rfl, map_step_use hn ticket effect⟩
    · cases h

/-! ## Runs -/

theorem changed_append (f : ι → γ) (changes changes' : List (ι × (γ → γ))) :
    changed f (changes ++ changes') = changed (changed f changes) changes' := List.foldl_append

omit [DecidableEq τ] [DecidableEq ι] in
theorem bare_use {ticket : τ} {effect : ι → ι} (h : m.bare = .operate (.use ticket effect)) : effect = id := by
  unfold Move.bare at h
  split at h <;> cases h
  rfl

theorem bare_step (h : l.Books) {reply' : Reply ι} (hm : l.move m.bare = some (reply', v)) :
    v.Books ∧ v.placed.Perm l.placed :=
  ⟨h.step hm, (move_cases h.balanced hm).placed h fun _ _ he => bare_use he⟩

theorem map_run (h : l.Books) (hn : l.placed.Nodup) (hr : (l.map f).run moves = some (record, u)) :
    ∃ record' v, l.run (moves.map Move.bare) = some (record', v) ∧ u = v.map (changed f (l.changes moves)) ∧
      v.placed.Perm l.placed := by
  induction moves generalizing l f record with
  | nil =>
    cases hr
    exact ⟨[], l, rfl, rfl, .refl _⟩
  | cons m moves ih =>
    obtain ⟨reply, w, rest, hm, hrest, rfl⟩ := run_cons.mp hr
    obtain ⟨reply', v, hv, rfl⟩ := map_move hn hm
    obtain ⟨hbooks, hperm⟩ := bare_step h hv
    obtain ⟨record', v', hr', rfl, hperm'⟩ := ih hbooks (hperm.nodup_iff.mpr hn) hrest
    refine ⟨_, v', run_cons.mpr ⟨reply', v, record', hv, hr', rfl⟩, ?_, hperm'.trans hperm⟩
    rw [changes, hv, changed_append]

/-! ## Numbers -/

def numbered (n : Nat) : Lending (Fin n) τ where
  pool := {
    idle := (List.finRange n).reverse
    free := n
    capacity := n }

theorem numbered_map {connections : List γ} {p : Pool γ τ} (hp : Pool.ofConnections connections = .ok p) :
    { pool := p } = (numbered connections.length : Lending _ τ).map connections.get ∧
      (numbered connections.length : Lending _ τ).Books := by
  obtain ⟨hne, rfl⟩ := Pool.ofConnections_eq_ok.mp hp
  have hnumbers : Pool.ofConnections (List.finRange connections.length) =
      .ok (numbered connections.length : Lending _ τ).pool := by
    refine Pool.ofConnections_eq_ok.mpr ⟨?_, by simp [numbered]⟩
    simpa [List.finRange_eq_nil_iff] using hne
  refine ⟨?_, books_begin hnumbers⟩
  simp only [map, numbered, Pool.map, List.map_reverse, List.map_get_finRange]
  rfl

/-- Each connection is in one place. The connections of a pool go where their numbers go in the same moves, each
changed by what those have done to it who held it then. Each number is in one place at a time, idle or held by
one borrower or given away, and none is lost; so the connections in the three places are as many as the pool
has. -/
theorem each_in_one_place {connections : List γ} {p : Pool γ τ} (hp : Pool.ofConnections connections = .ok p)
    (hr : ({ pool := p } : Lending γ τ).run moves = some (record, u)) :
    ∃ record' v, (numbered connections.length).run (moves.map Move.bare) = some (record', v) ∧
      u = v.map (fun i => (effectsOn i ((numbered connections.length).changes moves)).foldl
        (fun c effect => effect c) (connections.get i)) ∧
      v.placed.Perm (List.finRange connections.length) ∧ (∀ i, ∃! place, v.At i place) ∧
      u.pool.size + u.held.size + u.surrendered.length = u.pool.capacity ∧
      u.pool.capacity = connections.length := by
  have hbooks := (books_begin (τ := τ) hp).run hr
  obtain ⟨hmap, hnumbered⟩ := numbered_map hp
  have hbegin : (numbered connections.length : Lending _ τ).placed.Perm (List.finRange connections.length) := by
    simp [placed, numbered, Table.values, List.reverse_perm]
  rw [hmap] at hr
  obtain ⟨record', v, hv, hu, hperm⟩ := map_run hnumbered (hbegin.nodup_iff.mpr (List.nodup_finRange _)) hr
  have hplaced := hperm.trans hbegin
  have hn := hplaced.nodup_iff.mpr (List.nodup_finRange _)
  refine ⟨record', v, hv, ?_, hplaced, fun i => ?_, hbooks.stock, ?_⟩
  · rw [hu]
    congr 1
    exact funext fun i => changed_apply _ _ i
  · obtain ⟨place, hplace⟩ := mem_placed.mp (hplaced.mem_iff.mpr (List.mem_finRange i))
    exact ⟨place, hplace, fun place' h => h.unique hn hplace⟩
  · have hcount := hplaced.length_eq
    rw [placed, List.length_append, List.length_append, Table.length_values, List.length_finRange] at hcount
    have hstock := hbooks.stock
    have hidle : u.pool.idle.length = v.pool.idle.length := by simp [hu, map, Pool.map]
    have hheld : u.held.size = v.held.size := by simp [hu, map, Table.map, Table.size]
    have hsurrendered : u.surrendered.length = v.surrendered.length := by simp [hu, map]
    omega

def relay : List (Move Nat Nat) :=
  [.operate (.acquire 0), .operate (.acquire 1), .operate (.acquire 2), .operate (.use 0 (· + 1)),
    .operate (.acquire 3), .operate (.release 0), .operate (.cancel 3), .look 2, .operate (.use 2 (· * 2)),
    .operate (.release 1), .operate .close, .operate (.release 2), .operate (.tryAcquire 4)]

theorem each_in_one_place_relay : ∃ (p : Pool Nat Nat) (record : List (Move Nat Nat × Reply Nat))
    (u : Lending Nat Nat) (v : Lending (Fin 2) Nat), Pool.ofConnections [10, 20] = .ok p ∧
    ({ pool := p } : Lending Nat Nat).run relay = some (record, u) ∧ u.pool.idle = [42] ∧ u.surrendered = [10] ∧
    v.At 1 .idle ∧ v.At 0 .surrendered ∧ (∀ i, ∃! place, v.At i place) ∧ u.pool.capacity = 2 := by
  obtain ⟨p, record, u, record', v, hp, hr, hv, hidle, hsurrendered, hfirst, hsecond⟩ :
      ∃ (p : Pool Nat Nat) (record : List (Move Nat Nat × Reply Nat)) (u : Lending Nat Nat)
        (record' : List (Move (Fin 2) Nat × Reply (Fin 2))) (v : Lending (Fin 2) Nat),
        Pool.ofConnections [10, 20] = .ok p ∧ ({ pool := p } : Lending Nat Nat).run relay = some (record, u) ∧
        (numbered 2).run (relay.map Move.bare) = some (record', v) ∧ u.pool.idle = [42] ∧ u.surrendered = [10] ∧
        v.pool.idle = [1] ∧ v.surrendered = [0] := ⟨_, _, _, _, _, rfl, rfl, rfl, rfl, rfl, rfl, rfl⟩
  obtain ⟨_, v', hv', _, _, hplace, _, hcapacity⟩ := each_in_one_place hp hr
  have heq : some (record', v) = some (_, v') := hv.symm.trans hv'
  cases heq
  exact ⟨p, record, u, v, hp, hr, hidle, hsurrendered, by simp [At, hfirst], by simp [At, hsecond], hplace,
    hcapacity⟩

end Lending

end WriteBehind
