import WriteBehind.Proofs.Bench.Requests

/-!
# Fences of a bench

There is one fence for each round, and it comes when all producers are done. When it returns nothing is
outstanding, so that a failure belongs to the round in which the request failed: the fence of this round takes
it, and the next round starts without one.
-/

namespace WriteBehind.Bench

open Queue (Begins Calm Drifts Level Notice Tended)
open Session (World)

variable {name : String → String} {luck : Luck} {w : Workload} {s t : State} {tick : Tick}
  {config : QueueConfig} {connections : List Connection} {s₀ q : Queue.State AtomId Write}
  {e : Queue.Event AtomId Write} {notices out : List (Notice AtomId Write)} {id : Nat}

/-! ## What a call has returned -/

theorem returned?_append (id : Nat) (notices out : List (Notice AtomId Write)) :
    returned? id (notices ++ out) = (returned? id notices).or (returned? id out) :=
  List.findSome?_append

theorem returned?_eq_none (h : ∀ r : Queue.Result, Notice.returned id r ∉ notices) :
    returned? id notices = none := by
  refine List.findSome?_eq_none_iff.mpr fun n hn => ?_
  split
  · rename_i r
    split
    · subst_vars
      exact absurd hn (h r)
    · rfl
  · rfl

theorem returned?_of_silent (h : ∀ n ∈ out, n.call? ≠ some id) : returned? id out = none :=
  returned?_eq_none fun _ hm => h _ hm rfl

theorem returned?_self (id : Nat) (r : Queue.Result) :
    returned? id [.returned id r] = some (r.map fun _ => ()) := by
  simp [returned?]

/-! ## Numbers of calls -/

structure Numbered (s : State) : Prop where
  waiting : ∀ id, (s.world.queue.call? id).isSome = true → id < s.next
  told : ∀ id r, .returned id r ∈ s.world.notices → id < s.next

theorem Numbered.moved (h : Numbered s) (he : Queue.step s.world.queue e = some (t.world.queue, out))
    (notices : t.world.notices = s.world.notices ++ out) (next : s.next ≤ t.next)
    (call : ∀ id, e.call? = some id → id < t.next) : Numbered t := by
  constructor
  case waiting =>
    intro id hid
    by_cases hcall : e.call? = some id
    · exact call id hcall
    · refine Nat.lt_of_lt_of_le (h.waiting id ?_) next
      obtain ⟨hc, _⟩ | hc := (Queue.step_aside he hcall).call
      · exact hc ▸ hid
      · rw [hc, Option.isSome_map] at hid
        exact hid
  case told =>
    intro id r hr
    rw [notices] at hr
    rcases List.mem_append.mp hr with hr | hr
    · exact Nat.lt_of_lt_of_le (h.told id r hr) next
    · by_cases hcall : e.call? = some id
      · exact call id hcall
      · exact absurd rfl ((Queue.step_aside he hcall).silent _ hr)

theorem Numbered.drifts (h : Numbered s) {u : Queue.State AtomId Write} (drifts : e.drifts = true)
    (he : Queue.step s.world.queue e = some (u, out)) : ∀ id, e.call? = some id → id < s.next := by
  intro id hid
  cases e with
  | look id' =>
    cases hid
    obtain ⟨c, hc, _⟩ := Queue.look_cases he
    exact h.waiting id (by rw [hc]; rfl)
  | _ => cases drifts <;> cases hid

theorem Numbered.same (h : Numbered s) (queue : t.world.queue = s.world.queue)
    (notices : t.world.notices = s.world.notices) (next : t.next = s.next) : Numbered t := by
  constructor
  · rw [queue, next]
    exact h.waiting
  · rw [notices, next]
    exact h.told

theorem Numbered.step (h : Numbered s) (hb : Booked luck w s) (hs : State.step name luck w s tick = some t) :
    Numbered t := by
  cases State.step_cases hs with
  | set _ _ _ _ _ world _ _ moved =>
    cases World.step_cases moved with
    | created _ _ made => cases made
    | set => exact h.same rfl rfl rfl
  | ordered k p command todo world present next moved =>
    obtain ⟨i, _, _, hevent⟩ := hb.event present next
    cases World.step_cases moved with
    | created _ _ made => cases made
    | called _ _ _ out _ moved =>
      refine h.moved moved.step moved.notices (Nat.le_succ _) fun id hid => ?_
      rw [hevent] at hid
      cases hid
      exact Nat.lt_succ_self _
  | fenced world early free done moved =>
    cases World.step_cases moved with
    | created _ _ made => cases made
    | called _ _ _ out _ moved =>
      refine h.moved moved.step moved.notices (Nat.le_succ _) fun id hid => ?_
      cases hid
      exact Nat.lt_succ_self _
  | proceeded => exact h.same rfl rfl rfl
  | stirred action world stirs moved =>
    cases Session.stirs_cases stirs moved with
    | read => exact h.same rfl rfl rfl
    | drifted e _ out drifts moved =>
      exact h.moved moved.step moved.notices (Nat.le_refl _) (h.drifts drifts moved.step)
    | wrote worker _ _ outcome _ _ out _ _ _ moved =>
      exact h.moved moved.step moved.notices (Nat.le_refl _) fun id hid => by cases hid

/-! ## Queues with nothing outstanding -/

theorem Tended.idle (hq : Tended q) (empty : q.buffer.outstanding = []) (n : Nat) : q.draining n = none := by
  cases hd : q.draining n with
  | none => rfl
  | some entry =>
    have hmem := hq.valid.flight_mem (hq.flight_of hd)
    rw [empty] at hmem
    cases hmem

theorem Tended.empty (hq : Tended q) (drained : q.buffer.isDrainedThrough q.buffer.last = true) :
    q.buffer.outstanding = [] := by
  refine List.eq_nil_iff_forall_not_mem.mpr fun x hx => ?_
  have hlt := (hq.valid.isDrainedThrough_iff _).mp drained x hx
  exact absurd hlt (Nat.not_lt.mpr (hq.valid.le_last x hx))

/-! ## Stages of a round -/

/-- The stages of a round. Until its fence has returned, the failures of the round and no others are on their
way. -/
inductive Stage (w : Workload) (s : State) : Prop where
  | producing (early : s.round < w.rounds) (fence : s.fence = none)
    (calls : ∀ id, s.world.queue.fence? id = none)
    (failure : s.world.queue.Troubled ↔ s.round ∈ s.failed)
  | fencing (id : Nat) (early : s.round < w.rounds) (fence : s.fence = some id)
    (calls : ∀ id', s.world.queue.fence? id' = if id = id' then some s.world.queue.buffer.last else none)
    (silent : returned? id s.world.notices = none)
    (failure : s.world.queue.Troubled ↔ s.round ∈ s.failed)
  | fenced (id : Nat) (r : Except Error Unit) (early : s.round < w.rounds) (fence : s.fence = some id)
    (calls : ∀ id, s.world.queue.fence? id = none) (empty : s.world.queue.buffer.outstanding = [])
    (clean : ¬ s.world.queue.Troubled) (told : returned? id s.world.notices = some r)
    (failure : r.isOk = false ↔ s.round ∈ s.failed)
  | finished (late : ¬ s.round < w.rounds) (fence : s.fence = none) (calls : ∀ id, s.world.queue.fence? id = none)
    (empty : s.world.queue.buffer.outstanding = []) (clean : ¬ s.world.queue.Troubled)
    (sound : s.round ∉ s.failed)

theorem failed_iff {failed : List Nat} {round : Nat} {fails : Bool} :
    round ∈ (if fails then failed ++ [round] else failed) ↔ round ∈ failed ∨ fails = true := by
  cases fails <;> simp

theorem stirs_empty {action : Session.Action} {v u : World} (hq : Tended v.queue) (hc : Calm v.queue)
    (calls : ∀ id, v.queue.fence? id = none) (empty : v.queue.buffer.outstanding = [])
    (h : Session.Stirs name v action u) : (∀ id, u.queue.fence? id = none) ∧
      u.queue.buffer.outstanding = [] ∧ (u.queue.Troubled ↔ v.queue.Troubled) ∧
      (∃ out, u.notices = v.notices ++ out) ∧ fails name v action = false := by
  cases h with
  | read => exact ⟨calls, empty, Iff.rfl, ⟨[], (List.append_nil _).symm⟩, rfl⟩
  | drifted e _ out drifts moved =>
    cases hc.drifts hq drifts moved.step with
    | still level fence last outstanding =>
      refine ⟨fun id => (fence id).trans (calls id), ?_, level.troubled, ⟨out, moved.notices⟩, rfl⟩
      exact List.eq_nil_iff_forall_not_mem.mpr fun x hx => by simpa [empty] using outstanding x hx
    | reports id target waits =>
      rw [calls id] at waits
      cases waits
  | wrote worker request draft outcome store _ out carries =>
    obtain ⟨drain, c, hworker, _⟩ := World.request?_eq_some.mp carries
    have hnone := Tended.idle hq empty worker
    unfold Queue.State.draining at hnone
    rw [hworker] at hnone
    cases hnone

/-- What the fences see of what moves behind the callers: nothing but failures, or one of them returns. -/
inductive Watched (v u : World) (failing : Bool) : Prop where
  | waits (out : List (Notice AtomId Write)) (fence : ∀ id, u.queue.fence? id = v.queue.fence? id)
    (last : u.queue.buffer.last = v.queue.buffer.last) (notices : u.notices = v.notices ++ out)
    (silent : ∀ id target, v.queue.fence? id = some target → ∀ n ∈ out, n.call? ≠ some id)
    (troubled : u.queue.Troubled ↔ v.queue.Troubled ∨ failing = true)
  | reports (id : Nat) (target : Sequence) (waits : v.queue.fence? id = some target)
    (drained : v.queue.buffer.isDrainedThrough target = true) (failure : u.queue.failure = none)
    (workers : u.queue.workers = v.queue.workers) (buffer : u.queue.buffer = v.queue.buffer)
    (fence : ∀ id', u.queue.fence? id' = if id = id' then none else v.queue.fence? id')
    (notices : u.notices = v.notices ++ [.returned id ((Queue.surfaced v.queue.failure).map fun _ => .done)])
    (sound : failing = false)

theorem watched {action : Session.Action} {v u : World} (hq : Tended v.queue) (hc : Calm v.queue)
    (h : Session.Stirs name v action u) : Watched v u (fails name v action) := by
  cases h with
  | read =>
    exact .waits [] (fun _ => rfl) rfl (List.append_nil _).symm (by simp) (by simp [fails])
  | drifted e _ out drifts moved =>
    cases hc.drifts hq drifts moved.step with
    | still level fence last =>
      refine .waits out fence last moved.notices (fun id target hf => ?_) (by simp [fails, level.troubled])
      rcases Queue.fence_step hq.balanced moved.step hf with ⟨_, hn⟩ | ⟨hnone, _⟩
      · exact hn
      · rw [fence, hf] at hnone
        cases hnone
    | reports id target waits drained failure workers counters buffer fence =>
      exact .reports id target waits drained failure workers buffer fence moved.notices rfl
  | wrote worker request draft outcome store _ out carries found carried moved =>
    obtain ⟨_, rfl, hbuffer, hcalls, _, _, htroubled⟩ := Queue.finish_ends moved.step
    have hfails : fails name v (.write worker) = !outcome.isOk := by
      simp only [fails, carries, found, carried]
    refine .waits [] (fun id => ?_) (congrArg Buffer.last hbuffer) moved.notices (by simp) ?_
    · unfold Queue.State.fence? Queue.State.call?
      rw [hcalls]
    · rw [htroubled, hfails]
      simp

theorem Stage.stirred {action : Session.Action} {world : World} (h : Stage w s) (hq : Tended s.world.queue)
    (hc : Calm s.world.queue) (stirs : Session.Stirs name s.world action world)
    (hworld : t.world = world) (round : t.round = s.round) (fence : t.fence = s.fence)
    (failed : t.failed = if fails name s.world action then s.failed ++ [s.round] else s.failed) : Stage w t := by
  subst hworld
  have hwatched := watched hq hc stirs
  cases h with
  | producing early free calls failure =>
    cases hwatched with
    | waits out fence' last notices silent troubled =>
      refine .producing (round ▸ early) (fence.trans free) (fun id => (fence' id).trans (calls id)) ?_
      rw [troubled, failure, failed, round, failed_iff]
    | reports id target waits =>
      rw [calls id] at waits
      cases waits
  | fencing id early waits calls silent failure =>
    have hself : s.world.queue.fence? id = some s.world.queue.buffer.last := (calls id).trans (if_pos rfl)
    cases hwatched with
    | waits out fence' last notices quiet troubled =>
      refine .fencing id (round ▸ early) (fence.trans waits) (fun id' => ?_) ?_ ?_
      · rw [fence', calls, last]
      · rw [notices, returned?_append, silent, returned?_of_silent (quiet id _ hself)]
        rfl
      · rw [troubled, failure, failed, round, failed_iff]
    | reports id' target hwaits drained hfailure workers buffer fence' notices sound =>
      rw [calls] at hwaits
      split at hwaits
      · rename_i hid
        subst hid
        cases hwaits
        -- Nothing is outstanding, so no worker has a failure that is not held.
        have hempty := Tended.empty hq drained
        have htally := Queue.tally_of_idle (f := Queue.Phase.unnoted) (Tended.idle hq hempty)
          fun ph hn => by cases ph <;> first | rfl | cases hn
        have htally' := (Queue.tally_congr workers Queue.Phase.unnoted).trans htally
        refine .fenced id (((Queue.surfaced s.world.queue.failure).map fun _ => Queue.Answer.done).map fun _ => ())
          (round ▸ early) (fence.trans waits) (fun id' => ?_) (buffer ▸ hempty) ?_ ?_ ?_
        · rw [fence', calls]
          split <;> rfl
        · unfold Queue.State.Troubled
          simp [hfailure, htally']
        · rw [notices, returned?_append, silent, returned?_self]
          rfl
        · have htroubled : s.world.queue.Troubled ↔ s.world.queue.failure.isSome = true := by
            unfold Queue.State.Troubled
            simp [htally]
          rw [failed, sound, round, if_neg Bool.false_ne_true, ← failure, htroubled]
          cases s.world.queue.failure <;> simp [Queue.surfaced, Except.map, Except.isOk, Except.toBool]
      · cases hwaits
  | fenced id r early waits calls empty clean told failure =>
    obtain ⟨hcalls, hempty, htroubled, ⟨out, hnotices⟩, hfails⟩ := stirs_empty hq hc calls empty stirs
    refine .fenced id r (round ▸ early) (fence.trans waits) hcalls hempty (fun ht => clean (htroubled.mp ht)) ?_ ?_
    · rw [hnotices, returned?_append, told]
      rfl
    · rw [failed, hfails, round]
      exact failure
  | finished late free calls empty clean sound =>
    obtain ⟨hcalls, hempty, htroubled, _, hfails⟩ := stirs_empty hq hc calls empty stirs
    refine .finished (round ▸ late) (fence.trans free) hcalls hempty (fun ht => clean (htroubled.mp ht)) ?_
    rw [failed, hfails, round]
    exact sound

/-- The fences that are behind have reported a failure exactly if a request of their round has failed. -/
structure Reported (s : State) : Prop where
  length : s.results.length = s.round
  past : ∀ j, (∃ e, s.results[j]? = some (.error e)) ↔ j < s.round ∧ j ∈ s.failed
  within : ∀ j ∈ s.failed, j ≤ s.round

theorem Booked.producing (hb : Booked luck w s) {k : Nat} {p : Producer} {m : Move} {todo : List Move}
    (present : s.producers[k]? = some p) (next : p.todo = m :: todo) : s.round < w.rounds ∧ s.fence = none := by
  refine ⟨(hb.underway k p present).1, ?_⟩
  by_contra hf
  have hnone := (hb.early (Option.isSome_iff_ne_none.mpr hf)).2 p (List.mem_of_getElem? present)
  rw [next] at hnone
  cases hnone

theorem Stage.free (h : Stage w s) (early : s.round < w.rounds) (free : s.fence = none) :
    (∀ id, s.world.queue.fence? id = none) ∧ (s.world.queue.Troubled ↔ s.round ∈ s.failed) := by
  cases h with
  | producing _ _ calls failure => exact ⟨calls, failure⟩
  | fencing id _ waits =>
    rw [free] at waits
    cases waits
  | fenced id _ _ waits =>
    rw [free] at waits
    cases waits
  | finished late => exact absurd early late

theorem Stage.returned {call : Nat} (h : Stage w s) (waits : s.fence = some call)
    (finished : s.world.queue.call? call = none) : s.round < w.rounds ∧ (∀ id, s.world.queue.fence? id = none) ∧
      s.world.queue.buffer.outstanding = [] ∧ ¬ s.world.queue.Troubled ∧
      ∃ r, returned? call s.world.notices = some r ∧ (r.isOk = false ↔ s.round ∈ s.failed) := by
  cases h with
  | producing _ free =>
    rw [free] at waits
    cases waits
  | fencing id _ waits' calls =>
    rw [waits] at waits'
    cases waits'
    have hself := (calls call).trans (if_pos rfl)
    unfold Queue.State.fence? at hself
    rw [finished] at hself
    cases hself
  | fenced id r early waits' calls empty clean told failure =>
    rw [waits] at waits'
    cases waits'
    exact ⟨early, calls, empty, clean, r, told, failure⟩
  | finished _ free =>
    rw [free] at waits
    cases waits

theorem Stage.step (h₀ : Begins config connections s₀) (hr : Ran luck w s₀ s) (hb : Booked luck w s)
    (hn : Numbered s) (hp : Reported s) (h : Stage w s) (hs : State.step name luck w s tick = some t) :
    Stage w t := by
  cases State.step_cases hs with
  | set _ _ _ _ _ world present next moved =>
    obtain ⟨early, free⟩ := hb.producing present next
    obtain ⟨calls, failure⟩ := h.free early free
    cases World.step_cases moved with
    | created _ _ made => cases made
    | set => exact .producing early free calls failure
  | ordered k p command todo world present next moved =>
    obtain ⟨early, free⟩ := hb.producing present next
    obtain ⟨calls, failure⟩ := h.free early free
    obtain ⟨i, _, _, hevent⟩ := hb.event present next
    cases World.step_cases moved with
    | created _ _ made => cases made
    | called _ _ _ out _ moved =>
      have he := moved.step
      rw [hevent] at he
      obtain ⟨_, level, _, hfence⟩ := (hr.calm h₀).accepts he
      exact .producing early free (fun id => (hfence id).trans (calls id)) (level.troubled.trans failure)
  | fenced world early free done moved =>
    obtain ⟨calls, failure⟩ := h.free early free
    cases World.step_cases moved with
    | created _ _ made => cases made
    | called _ _ _ out _ moved =>
      obtain ⟨rfl, level, buffer, _, hfence⟩ := Queue.barrier_waits moved.step
      refine .fencing s.next early rfl (fun id => ?_) ?_ (level.troubled.trans failure)
      · rw [hfence, calls, buffer]
      · rw [moved.notices, List.append_nil]
        exact returned?_eq_none fun r hm => Nat.lt_irrefl _ (hn.told s.next r hm)
  | proceeded call waits finished =>
    obtain ⟨_, calls, empty, clean, _⟩ := h.returned waits finished
    have hnone : s.round + 1 ∉ s.failed := fun hm => Nat.not_succ_le_self _ (hp.within _ hm)
    by_cases hnext : s.round + 1 < w.rounds
    · exact .producing hnext rfl calls (iff_of_false clean hnone)
    · exact .finished hnext rfl calls empty clean hnone
  | stirred action world stirs moved =>
    exact h.stirred (hr.tended h₀) (hr.calm h₀) (Session.stirs_cases stirs moved) rfl rfl rfl rfl

theorem Reported.same (h : Reported s) (round : t.round = s.round) (results : t.results = s.results)
    (failed : t.failed = s.failed) : Reported t := by
  constructor
  · rw [results, round]
    exact h.length
  · rw [results, round, failed]
    exact h.past
  · rw [round, failed]
    exact h.within

theorem Reported.step (h : Reported s) (hstage : Stage w s) (hs : State.step name luck w s tick = some t) :
    Reported t := by
  cases State.step_cases hs with
  | set => exact h.same rfl rfl rfl
  | ordered => exact h.same rfl rfl rfl
  | fenced => exact h.same rfl rfl rfl
  | proceeded call waits finished =>
    obtain ⟨_, _, _, _, r, told, failure⟩ := hstage.returned waits finished
    constructor
    case length =>
      rw [List.length_append, h.length]
      rfl
    case past =>
      intro j
      have hpast := h.past j
      rw [told]
      rcases Nat.lt_trichotomy j s.round with hlt | rfl | hgt
      · rw [List.getElem?_append_left (h.length ▸ hlt), hpast]
        exact and_congr_left fun _ => iff_of_true hlt (Nat.lt_succ_of_lt hlt)
      · rw [List.getElem?_append_right (Nat.le_of_eq h.length), h.length, Nat.sub_self, ← failure]
        cases r <;> simp [Except.isOk, Except.toBool]
      · rw [List.getElem?_eq_none (by rw [List.length_append, h.length]; exact hgt)]
        refine iff_of_false (by simp) fun hj => ?_
        exact Nat.not_succ_le_self _ (Nat.le_trans hj.1 hgt)
    case within => exact fun j hj => Nat.le_succ_of_le (h.within j hj)
  | stirred action world stirs moved =>
    have hmem : ∀ j, j ∈ (if fails name s.world action then s.failed ++ [s.round] else s.failed) →
        j ∈ s.failed ∨ j = s.round := by
      intro j hj
      split at hj
      · simpa using hj
      · exact .inl hj
    constructor
    case length => exact h.length
    case past =>
      intro j
      rw [h.past j]
      refine and_congr_right fun hlt => ⟨fun hj => ?_, fun hj => ?_⟩
      · show j ∈ if fails name s.world action then s.failed ++ [s.round] else s.failed
        split
        · exact List.mem_append_left _ hj
        · exact hj
      · exact (hmem j hj).resolve_right (Nat.ne_of_lt hlt)
    case within =>
      intro j hj
      rcases hmem j hj with hj | rfl
      · exact h.within j hj
      · exact Nat.le_refl _

theorem Opened.numbered {settings : Settings} (h : Opened settings luck s) : Numbered s := by
  obtain ⟨connections, hb⟩ := h.begins
  exact ⟨by simp [hb.call?], by simp [h.notices]⟩

theorem reported_start (luck : Luck) (w : Workload) (d : Desk) : Reported (.start luck w d) where
  length := rfl
  past j := by simp [State.start]
  within := by simp [State.start]

theorem Opened.stage {settings : Settings} (h : Opened settings luck s) (fence : s.fence = none) :
    Stage settings.workload s := by
  obtain ⟨connections, hb⟩ := h.begins
  have hcalls : ∀ id, s.world.queue.fence? id = none := by
    intro id
    unfold Queue.State.fence?
    rw [hb.call?]
    rfl
  have hfailed : s.round ∉ s.failed := by simp [h.failed]
  by_cases hr : s.round < settings.workload.rounds
  · exact .producing hr fence hcalls (iff_of_false hb.not_troubled hfailed)
  · exact .finished hr fence hcalls (by rw [hb.buffer]) hb.not_troubled hfailed

end WriteBehind.Bench
