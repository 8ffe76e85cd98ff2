import Mathlib.Algebra.BigOperators.Group.List.Basic
import Mathlib.Algebra.GroupWithZero.Nat
import Mathlib.Algebra.Order.BigOperators.Group.List
import Mathlib.Algebra.Order.Group.Nat
import Mathlib.Data.List.Nodup
import WriteBehind.Proofs.Queue.Issued
import WriteBehind.Proofs.Queue.Tended

/-!
# Sums over workers and calls

No two waiting calls have the same number, so a call that moves on or returns changes one term of a sum
over all of them. The same holds of a worker that moves.
-/

namespace WriteBehind.Queue

variable {κ ι : Type} {s t u : State κ ι} {out : List (Notice κ ι)} {e : Event κ ι} {id w : Nat} {c : Call}
  {f : Phase κ ι → Nat} {g : CallPhase → Nat} {ph ph' : Phase κ ι}

theorem sum_map_set {α : Type} (f : α → Nat) {l : List α} {n : Nat} {a : α} (h : l[n]? = some a) (b : α) :
    ((l.set n b).map f).sum + f a = (l.map f).sum + f b := by
  induction l generalizing n with
  | nil => cases h
  | cons x rest ih =>
    cases n with
    | zero =>
      simp only [List.getElem?_cons_zero, Option.some.injEq] at h
      subst h
      simp only [List.set_cons_zero, List.map_cons, List.sum_cons]
      omega
    | succ n =>
      have := ih (n := n) (by simpa using h)
      simp only [List.set_cons_succ, List.map_cons, List.sum_cons]
      omega

/-! ## Workers -/

def State.tally (s : State κ ι) (f : Phase κ ι → Nat) : Nat := (s.workers.map f).sum

theorem Moves.tally (move : Moves s t w ph ph') (f : Phase κ ι → Nat) :
    t.tally f + f ph = s.tally f + f ph' := by
  unfold State.tally
  rw [move.after]
  exact sum_map_set f move.before ph'

theorem tally_congr (h : t.workers = s.workers) (f : Phase κ ι → Nat) : t.tally f = s.tally f := by
  unfold State.tally
  rw [h]

theorem tally_le (s : State κ ι) {n : Nat} (hf : ∀ ph, f ph ≤ n) : s.tally f ≤ s.workers.length * n := by
  have hle := List.sum_le_card_nsmul (s.workers.map f) n fun m hm => by
    obtain ⟨ph, _, rfl⟩ := List.mem_map.mp hm
    exact hf ph
  simpa [State.tally] using hle

namespace State

def phases (s : State κ ι) : List CallPhase := s.calls.map (·.phase)

def total (s : State κ ι) (f : Phase κ ι → Nat) (g : CallPhase → Nat) : Nat :=
  (s.workers.map f).sum + (s.phases.map g).sum

def Distinct (s : State κ ι) : Prop := (s.calls.map (·.id)).Nodup

/-! ## Calls -/

theorem calls_wait (s : State κ ι) (id : Nat) (phase : CallPhase) :
    (s.wait id phase).calls.Perm ({ id, phase } :: s.calls) := by
  have hsplit : s.calls.takeWhile (fun c => decide (c.id < id)) ++
      s.calls.dropWhile (fun c => decide (c.id < id)) = s.calls := List.takeWhile_append_dropWhile
  unfold wait
  refine List.perm_middle.trans (.cons _ ?_)
  rw [hsplit]

theorem call?_eq_none : s.call? id = none ↔ id ∉ s.calls.map (·.id) := by
  unfold call?
  simp [List.find?_eq_none]

theorem Distinct.call?_of_mem (hd : s.Distinct) (hc : c ∈ s.calls) : s.call? c.id = some c := by
  cases hf : s.call? c.id with
  | none => exact absurd (List.mem_map_of_mem hc) (call?_eq_none.mp hf)
  | some c' =>
    have hm := List.mem_of_find?_eq_some hf
    rw [List.inj_on_of_nodup_map hd hm hc (call?_id hf)]

theorem calls_leave (hd : s.Distinct) (hc : s.call? id = some c) :
    s.calls.Perm (c :: (s.leave id).calls) := by
  obtain ⟨hid, before, after, hsplit, hfirst⟩ := List.find?_eq_some_iff_append.mp hc
  have hid : c.id = id := by simpa using hid
  have hbefore : before.filter (fun c => decide (c.id ≠ id)) = before := by
    refine List.filter_eq_self.mpr fun c' hc' => ?_
    have := hfirst c' hc'
    simpa using this
  have hafter : after.filter (fun c => decide (c.id ≠ id)) = after := by
    refine List.filter_eq_self.mpr fun c' hc' => ?_
    unfold Distinct at hd
    rw [hsplit, List.map_append, List.map_cons, List.perm_middle.nodup_iff, List.nodup_cons] at hd
    have hne : c'.id ≠ c.id := by
      intro heq
      exact hd.1 (List.mem_append_right _ (heq ▸ List.mem_map_of_mem hc'))
    simpa [hid] using hne
  have hleave : (s.leave id).calls = before ++ after := by
    unfold leave
    simp only
    rw [hsplit, List.filter_append, hbefore, List.filter_cons_of_neg (by simp [hid]), hafter]
  rw [hleave, hsplit]
  exact List.perm_middle

theorem calls_mapCall (hd : s.Distinct) (hc : s.call? id = some c) (f : Call → Call) :
    (s.mapCall id f).calls.Perm (f c :: (s.leave id).calls) := by
  have hperm := (calls_leave hd hc).map fun c => if c.id = id then f c else c
  have hsame : ((s.leave id).calls.map fun c => if c.id = id then f c else c) = (s.leave id).calls := by
    refine (List.map_congr_left fun c' hc' => ?_).trans (List.map_id _)
    have hne : c'.id ≠ id := by simpa using (List.mem_filter.mp hc').2
    simp [hne]
  rw [List.map_cons, hsame, if_pos (call?_id hc)] at hperm
  exact hperm

/-! ## Sums -/

theorem total_worker (hw : s.workers[w]? = some ph) (ht : t.workers = s.workers.set w ph')
    (hp : t.phases = s.phases) : t.total f g + f ph = s.total f g + f ph' := by
  have := sum_map_set f hw ph'
  unfold total
  rw [ht, hp]
  omega

theorem total_wait (s : State κ ι) (id : Nat) (phase : CallPhase) :
    (s.wait id phase).total f g = s.total f g + g phase := by
  have hperm := (((calls_wait s id phase).map (·.phase)).map g).sum_eq
  simp only [List.map_cons, List.sum_cons] at hperm
  show (s.workers.map f).sum + ((s.wait id phase).phases.map g).sum = _
  unfold total phases
  omega

theorem total_leave (hd : s.Distinct) (hc : s.call? id = some c) :
    (s.leave id).total f g + g c.phase = s.total f g := by
  have hperm := (((calls_leave hd hc).map (·.phase)).map g).sum_eq
  simp only [List.map_cons, List.sum_cons] at hperm
  show (s.workers.map f).sum + ((s.leave id).phases.map g).sum + _ = _
  unfold total phases
  omega

theorem total_goOn (hd : s.Distinct) (hc : s.call? id = some c) (phase : CallPhase) :
    (s.goOn id phase).total f g + g c.phase = s.total f g + g phase := by
  have hperm := (((calls_mapCall hd hc fun c => { c with phase }).map (·.phase)).map g).sum_eq
  have hleave := total_leave (f := f) (g := g) hd hc
  simp only [List.map_cons, List.sum_cons] at hperm
  have hgo : (s.goOn id phase).total f g = (s.leave id).total f g + g phase := by
    show (s.workers.map f).sum + ((s.goOn id phase).phases.map g).sum =
      (s.workers.map f).sum + ((s.leave id).phases.map g).sum + g phase
    unfold phases goOn
    omega
  omega

theorem map_mapCall {α : Type} (s : State κ ι) (id : Nat) {h : Call → Call} {part : Call → α}
    (hh : ∀ c, part (h c) = part c) : (s.mapCall id h).calls.map part = s.calls.map part := by
  unfold mapCall
  rw [List.map_map]
  refine List.map_congr_left fun c _ => ?_
  simp only [Function.comp]
  split
  · exact hh c
  · rfl

theorem phases_mapCall (s : State κ ι) (id : Nat) {h : Call → Call} (hh : ∀ c, (h c).phase = c.phase) :
    (s.mapCall id h).phases = s.phases := s.map_mapCall id hh

theorem phases_wakeAll (s : State κ ι) : s.wakeAll.phases = s.phases := by
  simp [phases, wakeAll]

theorem total_wakeAll (s : State κ ι) : s.wakeAll.total f g = s.total f g := by
  show (s.workers.map f).sum + (s.wakeAll.phases.map g).sum = _
  rw [phases_wakeAll]
  rfl

/-! ## Numbers of calls -/

def ids (s : State κ ι) : List Nat := s.calls.map (·.id)

theorem ids_wait (s : State κ ι) (id : Nat) (phase : CallPhase) :
    (s.wait id phase).ids = s.ids.takeWhile (fun n => decide (n < id)) ++
      id :: s.ids.dropWhile fun n => decide (n < id) := by
  simp [ids, wait, List.takeWhile_map, List.dropWhile_map, Function.comp_def]

theorem ids_leave (s : State κ ι) (id : Nat) :
    (s.leave id).ids = s.ids.filter fun n => decide (n ≠ id) := by
  simp [ids, leave, List.filter_map, Function.comp_def]

theorem ids_mapCall (s : State κ ι) (id : Nat) {h : Call → Call} (hh : ∀ c, (h c).id = c.id) :
    (s.mapCall id h).ids = s.ids := s.map_mapCall id hh

theorem ids_goOn (s : State κ ι) (id : Nat) (phase : CallPhase) : (s.goOn id phase).ids = s.ids :=
  s.ids_mapCall id fun _ => rfl

theorem ids_wakeAll (s : State κ ι) : s.wakeAll.ids = s.ids := by
  simp [ids, wakeAll, Function.comp_def]

theorem Distinct.congr (hd : s.Distinct) (h : t.calls = s.calls) : t.Distinct := by
  unfold Distinct
  rw [h]
  exact hd

end State

/-! ## States with the same calls -/

structure Alike (s u : State κ ι) (id : Nat) (c : Call) : Prop where
  workers : u.workers = s.workers
  phase : ∀ id, u.phase? id = s.phase? id
  phases : u.phases = s.phases
  distinct : u.Distinct
  call : ∃ c', u.call? id = some c' ∧ c'.phase = c.phase

theorem Alike.total (h : Alike s u id c) : u.total f g = s.total f g := by
  unfold State.total
  rw [h.workers, h.phases]

theorem Alike.total_goOn (h : Alike s u id c) (phase : CallPhase) :
    (u.goOn id phase).total f g + g c.phase = s.total f g + g phase := by
  obtain ⟨c', hc', hphase⟩ := h.call
  rw [← hphase, ← h.total]
  exact State.total_goOn h.distinct hc' phase

theorem Alike.total_leave (h : Alike s u id c) : (u.leave id).total f g + g c.phase = s.total f g := by
  obtain ⟨c', hc', hphase⟩ := h.call
  rw [← hphase, ← h.total]
  exact State.total_leave h.distinct hc'

theorem State.Distinct.alike (hd : s.Distinct) (hc : s.call? id = some c) (workers : u.workers = s.workers)
    (calls : u.calls = s.calls) : Alike s u id c := by
  have hcall : ∀ id, u.call? id = s.call? id := by
    intro id
    unfold State.call?
    rw [calls]
  refine ⟨workers, fun id => ?_, ?_, hd.congr calls, c, (hcall id).trans hc, rfl⟩
  · unfold State.phase?
    rw [hcall]
  · unfold State.phases
    rw [calls]

theorem State.Distinct.alike_shut (hd : s.Distinct) (hc : s.call? id = some c) : Alike s s.shutDown id c := by
  have hcall := State.call?_shutDown hc
  have hd' : s.shutDown.Distinct := (congrArg List.Nodup (State.ids_wakeAll _)).mpr hd
  exact ⟨rfl, State.phase?_wakeAll _, State.phases_wakeAll _, hd', c.wake, hcall, rfl⟩

/-! ## What a step does to the numbers of calls -/

/-- The numbers stay, or one goes, or one that nobody else has comes to its place. -/
inductive Renumbers (s t : State κ ι) : Prop where
  | kept (ids : t.ids = s.ids)
  | left (id : Nat) (ids : t.ids = s.ids.filter fun n => decide (n ≠ id))
  | placed (id : Nat) (u : State κ ι) (phase : CallPhase) (others : u.ids = s.ids.filter fun n => decide (n ≠ id))
    (ids : t.ids = (u.wait id phase).ids)

theorem Renumbers.wait (free : s.call? id = none) (phase : CallPhase) (hu : u.ids = s.ids) :
    Renumbers s (u.wait id phase) := by
  refine .placed id u phase (hu.trans (Eq.symm (List.filter_eq_self.mpr fun n hn => ?_))) rfl
  simp only [decide_eq_true_eq]
  rintro rfl
  exact State.call?_eq_none.mp free hn

theorem Looks.renumbers [Named κ] (h : Looks s id c t out) : Renumbers s t := by
  cases h with
  | asleep => exact .kept (s.ids_mapCall id fun _ => rfl)
  | fenced => exact .placed id (s.leave id) _ (s.ids_leave id) rfl
  | shut => exact .kept ((State.ids_goOn _ _ _).trans (State.ids_wakeAll _))
  | flushed | taken | joined | lent => exact .kept (State.ids_goOn _ _ _)
  | _ => exact .left id (State.ids_leave _ _)

variable [DecidableEq κ]

theorem Makes.renumbers {a? : Option (Acceptance κ ι)} (free : s.call? id = none) (h : Makes s id e t out a?) :
    Renumbers s t := by
  cases h with
  | fenced | stalled | barrier | closing | lent | borrowing =>
    refine .wait free _ ?_
    rfl
  | _ => exact .kept rfl

theorem step_renumbers [Named κ] (h : step s e = some (t, out)) : Renumbers s t := by
  cases step_cases h with
  | made _ _ _ _ _ _ free makes => exact makes.renumbers free
  | request => exact .kept (State.ids_goOn _ _ _)
  | giveBack => exact .left _ (State.ids_leave _ _)
  | work w _ _ works =>
    cases works with
    | retired => exact .kept (State.ids_wakeAll _)
    | noted _ outcome => cases outcome <;> exact .kept rfl
    | _ => exact .kept rfl
  | look _ _ _ _ _ looks => exact looks.renumbers
  | expire => exact .kept (State.ids_wakeAll _)
  | _ => exact .kept rfl

omit [DecidableEq κ] in
theorem Renumbers.distinct (h : Renumbers s t) (hd : s.Distinct) : t.Distinct := by
  show t.ids.Nodup
  cases h with
  | kept ids => exact ids ▸ hd
  | left id ids => exact ids ▸ hd.filter _
  | placed id u phase others ids =>
    have hperm := (u.calls_wait id phase).map (·.id)
    have hu : (id :: u.ids).Nodup := by
      rw [others]
      exact List.nodup_cons.mpr ⟨by simp, hd.filter _⟩
    rw [ids]
    exact hperm.nodup_iff.mpr hu

theorem State.Distinct.step [Named κ] (hd : s.Distinct) (h : step s e = some (t, out)) : t.Distinct :=
  (step_renumbers h).distinct hd

theorem Begins.distinct [Named κ] {config : QueueConfig} {connections : List Connection}
    {events : List (Event κ ι)} (h : Begins config connections s) (hr : run s events = some (t, out)) :
    t.Distinct := by
  obtain ⟨_, _, _, rfl⟩ := h.eq
  refine run_preserves (P := State.Distinct) (fun hd he => hd.step he) ?_ hr
  exact List.nodup_nil

end WriteBehind.Queue
