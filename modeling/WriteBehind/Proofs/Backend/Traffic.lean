import Mathlib.Data.List.Nodup
import WriteBehind.Backend.Traffic
import WriteBehind.Proofs.Session.Documents

/-!
# A faithful map

The memory backend holds what the last successful request on each atom has left: nothing after a removal, and
after a store the document that was read by it, under the name of its text and under no other. A request that
fails changes nothing of this, but it is counted like all others.
-/

namespace WriteBehind

open Session (Belongs belongs_apart)

/-! ## Contents after a write -/

namespace Contents

theorem documents_put_eq (c : Contents) (x : AtomId) (n document m : String) :
    (c.put x n document).documents[m]? =
      if n = m then some document else if c.index[x]? = some m then none else c.documents[m]? := by
  by_cases hn : n = m
  · subst hn
    rw [if_pos rfl, documents_put_self]
  · rw [if_neg hn]
    by_cases hold : c.index[x]? = some m
    · rw [if_pos hold]
      unfold put
      simp only [hold, Ne.symm hn, if_false]
      rw [Std.TreeMap.getElem?_insert, Std.TreeMap.getElem?_erase]
      simp [hn]
    · rw [if_neg hold, documents_put_of_ne (Ne.symm hn) hold]

theorem documents_remove_eq (c : Contents) (x : AtomId) (m : String) :
    (c.remove x).documents[m]? = if c.index[x]? = some m then none else c.documents[m]? := by
  by_cases hold : c.index[x]? = some m
  · rw [if_pos hold]
    unfold remove
    simp only [hold]
    rw [Std.TreeMap.getElem?_erase]
    simp
  · rw [if_neg hold, documents_remove_of_ne hold]

/-- If the documents are those that the index names, one for each atom, there are as many as indexed atoms. -/
theorem size_eq {c : Contents}
    (hone : ∀ (x y : AtomId) (n : String), c.index[x]? = some n → c.index[y]? = some n → x = y)
    (hall : ∀ n : String, (∃ d, c.documents[n]? = some d) ↔ ∃ x : AtomId, c.index[x]? = some n) :
    c.size = c.index.size := by
  have hnames : (c.index.toList.map (·.2)).Nodup := by
    rw [List.Nodup, List.pairwise_map]
    refine Std.TreeMap.distinct_keys_toList.imp_of_mem ?_
    intro a b ha hb hab hname
    have hx := Std.TreeMap.mem_toList_iff_getElem?_eq_some.mp ha
    have hy := Std.TreeMap.mem_toList_iff_getElem?_eq_some.mp hb
    rw [hname] at hx
    exact hab (by rw [hone a.1 b.1 b.2 hx hy, Std.compare_self])
  have hkeys : c.documents.keys.Nodup := by
    refine Std.TreeMap.distinct_keys.imp ?_
    rintro a _ hab rfl
    exact hab Std.compare_self
  have hperm : c.documents.keys.Perm (c.index.toList.map (·.2)) := by
    refine (List.perm_ext_iff_of_nodup hkeys hnames).mpr fun n => ?_
    rw [Std.TreeMap.mem_keys, Std.TreeMap.mem_iff_isSome_getElem?, Option.isSome_iff_exists, hall, List.mem_map]
    constructor
    · intro ⟨x, hx⟩
      exact ⟨(x, n), Std.TreeMap.mem_toList_iff_getElem?_eq_some.mpr hx, rfl⟩
    · rintro ⟨⟨x, _⟩, hx, rfl⟩
      exact ⟨x, Std.TreeMap.mem_toList_iff_getElem?_eq_some.mp hx⟩
  have hlen := hperm.length_eq
  rwa [Std.TreeMap.length_keys, List.length_map, Std.TreeMap.length_toList] at hlen

end Contents

namespace Memory

variable {name : String → String} {documents : Set String} {done : List Success} {c : Contents} {x y : AtomId}
  {d e : String}

/-! ## What requests leave behind -/

/-- The document that the last successful request on an atom has left. -/
def left (x : AtomId) (done : List Success) : Option String :=
  (done.filter fun s => decide (s.atom = x)).getLast?.bind (·.document)

theorem left_snoc (done : List Success) (s : Success) (x : AtomId) :
    left x (done ++ [s]) = if s.atom = x then s.document else left x done := by
  unfold left
  by_cases h : s.atom = x <;> simp [List.filter_append, h]

theorem mem_of_left (h : left x done = some d) : ∃ s ∈ done, s.atom = x ∧ s.document = some d := by
  obtain ⟨s, hs, hd⟩ := Option.bind_eq_some_iff.mp h
  have := List.mem_of_getLast? hs
  simp only [List.mem_filter, decide_eq_true_eq] at this
  exact ⟨s, this.1, this.2, hd⟩

def stored (done : List Success) : Set String := {d | ∃ s ∈ done, s.document = some d}

def Owned (documents : Set String) (done : List Success) : Prop :=
  ∀ s ∈ done, ∀ d, s.document = some d → Belongs documents s.atom d

theorem Owned.left (h : Owned documents done) (hx : left x done = some d) : Belongs documents x d := by
  obtain ⟨s, hs, rfl, hd⟩ := mem_of_left hx
  exact h s hs d hd

/-- The contents are what the requests have left. -/
structure Faithful (name : String → String) (done : List Success) (c : Contents) : Prop where
  index : ∀ x, c.index[x]? = (left x done).map name
  documents : ∀ n d, c.documents[n]? = some d ↔ ∃ x, left x done = some d ∧ name d = n

theorem faithful_empty (name : String → String) : Faithful name [] {} where
  index x := by simp [left]
  documents n d := by simp [left]

theorem Faithful.index_eq_some (h : Faithful name done c) {n : String} (hx : c.index[x]? = some n) :
    ∃ d, left x done = some d ∧ name d = n := by
  rw [h.index] at hx
  exact Option.map_eq_some_iff.mp hx

/-- A request leaves a document of its atom, or none, and takes away what was there of the atom before. -/
theorem Faithful.change {c' : Contents} {d? : Option String} (h : Faithful name done c)
    (distinct : Set.InjOn name documents) (owned : Owned documents done) (hd : ∀ d ∈ d?, Belongs documents x d)
    (hindex : ∀ y, c'.index[y]? = if x = y then d?.map name else c.index[y]?)
    (hdocuments : ∀ n, c'.documents[n]? =
      if d?.map name = some n then d? else if c.index[x]? = some n then none else c.documents[n]?) :
    Faithful name (done ++ [⟨x, d?⟩]) c' := by
  have apart := belongs_apart distinct
  refine ⟨fun y => ?_, fun n e => ?_⟩
  · rw [hindex, left_snoc]
    split
    · rfl
    · exact h.index y
  · rw [hdocuments]
    simp only [left_snoc]
    by_cases hn : d?.map name = some n
    · obtain ⟨d, rfl, hname⟩ := Option.map_eq_some_iff.mp hn
      rw [if_pos hn, Option.some.injEq]
      constructor
      · rintro rfl
        exact ⟨x, if_pos rfl, hname⟩
      · intro ⟨y, hy, he⟩
        by_cases hxy : x = y
        · rw [if_pos hxy] at hy
          exact Option.some.inj hy
        · rw [if_neg hxy] at hy
          exact absurd (apart x y d e (hd d rfl) (owned.left hy) (hname.trans he.symm)) hxy
    · rw [if_neg hn]
      by_cases hold : c.index[x]? = some n
      · rw [if_pos hold]
        -- The document that goes was the one of this atom, and no other atom has one of that name.
        obtain ⟨d', hd', hname⟩ := h.index_eq_some hold
        simp only [reduceCtorEq, false_iff]
        intro ⟨y, hy, he⟩
        by_cases hxy : x = y
        · rw [if_pos hxy] at hy
          exact hn (by rw [hy, ← he]; rfl)
        · rw [if_neg hxy] at hy
          exact hxy (apart x y d' e (owned.left hd') (owned.left hy) (hname.trans he.symm))
      · rw [if_neg hold, h.documents]
        constructor
        · rintro ⟨y, hy, rfl⟩
          refine ⟨y, ?_, rfl⟩
          rw [if_neg, hy]
          rintro rfl
          exact hold (by rw [h.index, hy]; rfl)
        · intro ⟨y, hy, he⟩
          by_cases hxy : x = y
          · rw [if_pos hxy] at hy
            exact absurd (by rw [hy, ← he]; rfl) hn
          · rw [if_neg hxy] at hy
            exact ⟨y, hy, he⟩

theorem Faithful.put (h : Faithful name done c) (distinct : Set.InjOn name documents)
    (owned : Owned documents done) (hd : Belongs documents x d) :
    Faithful name (done ++ [⟨x, some d⟩]) (c.put x (name d) d) := by
  refine h.change distinct owned (by simpa using hd) (fun y => ?_) fun n => ?_
  · rw [Contents.index_put]
    rfl
  · rw [Contents.documents_put_eq]
    simp

theorem Faithful.remove (h : Faithful name done c) (distinct : Set.InjOn name documents)
    (owned : Owned documents done) (x : AtomId) : Faithful name (done ++ [⟨x, none⟩]) (c.remove x) := by
  refine h.change distinct owned (by simp) (fun y => ?_) fun n => ?_
  · rw [Contents.index_remove]
    rfl
  · rw [Contents.documents_remove_eq]
    simp

theorem Faithful.one (h : Faithful name done c) (distinct : Set.InjOn name documents)
    (owned : Owned documents done) {n : String} (hx : c.index[x]? = some n) (hy : c.index[y]? = some n) :
    x = y := by
  obtain ⟨d, hd, hname⟩ := h.index_eq_some hx
  obtain ⟨e, he, hname'⟩ := h.index_eq_some hy
  exact belongs_apart distinct x y d e (owned.left hd) (owned.left he) (hname.trans hname'.symm)

theorem Faithful.size (h : Faithful name done c) (distinct : Set.InjOn name documents)
    (owned : Owned documents done) : c.size = c.index.size := by
  refine Contents.size_eq (fun x y n hx hy => h.one distinct owned hx hy) fun n => ?_
  constructor
  · rintro ⟨d, hd⟩
    obtain ⟨x, hx, hname⟩ := (h.documents n d).mp hd
    exact ⟨x, by rw [h.index, hx, ← hname]; rfl⟩
  · rintro ⟨x, hx⟩
    obtain ⟨d, hd, hname⟩ := h.index_eq_some hx
    exact ⟨d, (h.documents n d).mpr ⟨x, hd, hname⟩⟩

/-! ## Steps -/

theorem stored_subset (done : List Success) (s : Success) : stored done ⊆ stored (done ++ [s]) := by
  intro d ⟨s', hs, hd⟩
  exact ⟨s', List.mem_append_left _ hs, hd⟩

theorem Owned.mono {documents' : Set String} (h : Owned documents done) (hsub : documents ⊆ documents') :
    Owned documents' done := by
  intro s hs d hd
  obtain ⟨hmem, hatom⟩ := h s hs d hd
  exact ⟨hsub hmem, hatom⟩

theorem Owned.snoc (h : Owned (stored done) done) (s : Success)
    (hs : ∀ d ∈ s.document, ∃ a : Atom, a.id = s.atom ∧ a.document = d) :
    Owned (stored (done ++ [s])) (done ++ [s]) := by
  intro s' hs' d hd
  rcases List.mem_append.mp hs' with hs' | hs'
  · exact h.mono (stored_subset done s) s' hs' d hd
  · obtain rfl := List.mem_singleton.mp hs'
    exact ⟨⟨s', by simp, hd⟩, hs d hd⟩

namespace Traffic

variable {t u v : Traffic} {deed : Deed} {deeds : List Deed} {n : Nat} {connection : Connection}
  {request : Write} {draft : Catalog}

inductive Steps (name : String → String) (t : Traffic) : Deed → Traffic → Prop where
  | created (a : Atom) (fresh : t.catalog.get? a.id = none) :
    Steps name t (.create a) { t with catalog := t.catalog.insert a }
  | set (id : AtomId) (key : String) (value : Json.Value) :
    Steps name t (.set id key value) { t with catalog := t.catalog.setValue id key value }
  | adjusted (control : Session.Control) :
    Steps name t (.adjust control) { t with backend := control.apply t.backend }
  | connected : Steps name t .connect { t with
      backend := { t.backend with opened := t.backend.opened + 1 }
      lines := t.lines ++ [⟨{ id := t.backend.opened }, none, none⟩] }
  | received (n : Nat) (request : Write) (c : Connection) (before : Option Catalog)
    (free : t.lines[n]? = some ⟨c, none, before⟩) :
    Steps name t (.receive n request) { t with
      backend := t.backend.receive request
      lines := t.lines.set n ⟨c.use, some request, none⟩ }
  | read (n : Nat) (request : Write) (c : Connection) (before : Option Catalog)
    (busy : t.lines[n]? = some ⟨c, some request, before⟩) :
    Steps name t (.read n) { t with lines := t.lines.set n ⟨c, some request, some t.catalog⟩ }
  | carried (n : Nat) (request : Write) (c : Connection) (draft : Catalog) (outcome : Queue.Outcome)
    (backend : Memory) (ready : t.lines[n]? = some ⟨c, some request, some draft⟩)
    (carried : Memory.carryOut name t.backend draft request = (outcome, backend)) :
    Steps name t (.carryOut n) { t with
      backend
      lines := t.lines.set n ⟨c, none, none⟩
      done := t.done ++ (success? draft request outcome).toList }

theorem step_cases (h : step name t deed = some u) : Steps name t deed u := by
  cases deed with
  | create a =>
    simp only [step] at h
    split at h
    · cases h
    · rename_i hfresh
      cases h
      exact .created a (by simpa using hfresh)
  | set id key value => cases h; exact .set id key value
  | adjust control => cases h; exact .adjusted control
  | connect => cases h; exact .connected
  | receive n request =>
    obtain ⟨⟨c, request?, before⟩, hline, h⟩ := Option.bind_eq_some_iff.mp (show t.lines[n]?.bind _ = _ from h)
    cases request? with
    | some => cases h
    | none => cases h; exact .received n request c before hline
  | read n =>
    obtain ⟨⟨c, request?, before⟩, hline, h⟩ := Option.bind_eq_some_iff.mp (show t.lines[n]?.bind _ = _ from h)
    obtain ⟨request, rfl, h⟩ := Option.bind_eq_some_iff.mp (show request?.bind _ = _ from h)
    cases h
    exact .read n request c before hline
  | carryOut n =>
    obtain ⟨⟨c, request?, draft?⟩, hline, h⟩ := Option.bind_eq_some_iff.mp (show t.lines[n]?.bind _ = _ from h)
    obtain ⟨request, rfl, h⟩ := Option.bind_eq_some_iff.mp (show request?.bind _ = _ from h)
    obtain ⟨draft, rfl, h⟩ := Option.bind_eq_some_iff.mp (show draft?.bind _ = _ from h)
    cases h
    exact .carried n request c draft _ _ hline rfl

/-! ## What is stored -/

structure Sound (name : String → String) (t : Traffic) : Prop where
  identified : t.catalog.Identified
  drafted : ∀ line ∈ t.lines, ∀ draft, line.draft = some draft → draft.Identified
  owned : Owned (stored t.done) t.done
  faithful : Set.InjOn name (stored t.done) → Faithful name t.done t.backend.contents

theorem Sound.drafted_set (h : t.Sound name) (n : Nat) (line : Line)
    (hline : ∀ draft, line.draft = some draft → draft.Identified) :
    ∀ line' ∈ t.lines.set n line, ∀ draft, line'.draft = some draft → draft.Identified := by
  intro line' hmem
  rcases List.mem_or_eq_of_mem_set hmem with hmem | rfl
  · exact h.drafted line' hmem
  · exact hline

theorem Sound.carried (h : t.Sound name) {outcome : Queue.Outcome} {backend : Memory}
    (hline : t.lines[n]? = some ⟨connection, some request, some draft⟩)
    (hc : Memory.carryOut name t.backend draft request = (outcome, backend)) :
    Sound name { t with
      backend
      lines := t.lines.set n ⟨connection, none, none⟩
      done := t.done ++ (success? draft request outcome).toList } := by
  have hdrafted := h.drafted_set n ⟨connection, none, none⟩ (by simp)
  cases carryOut_cases hc with
  | failed e _ same =>
    refine ⟨h.identified, hdrafted, ?_, ?_⟩
    · simpa [success?] using h.owned
    · simpa [success?, same] using h.faithful
  | removed _ kind contents =>
    have hs : success? draft request (.ok ()) = some ⟨request.atom, none⟩ := by simp [success?, kind]
    rw [hs, Option.toList_some]
    have howned := h.owned.snoc ⟨request.atom, none⟩ (by simp)
    refine ⟨h.identified, hdrafted, howned, fun distinct => ?_⟩
    have hsub := stored_subset t.done ⟨request.atom, none⟩
    simp only [contents]
    exact (h.faithful (distinct.mono hsub)).remove distinct (h.owned.mono hsub) request.atom
  | stored a _ kind found _ contents =>
    have hs : success? draft request (.ok ()) = some ⟨request.atom, some a.document⟩ := by
      simp [success?, kind, found]
    have hid := h.drafted _ (List.mem_of_getElem? hline) draft rfl request.atom a found
    rw [hs, Option.toList_some]
    have howned := h.owned.snoc ⟨request.atom, some a.document⟩ (by simpa using ⟨a, hid, rfl⟩)
    refine ⟨h.identified, hdrafted, howned, fun distinct => ?_⟩
    have hsub := stored_subset t.done ⟨request.atom, some a.document⟩
    simp only [contents]
    refine (h.faithful (distinct.mono hsub)).put distinct (h.owned.mono hsub) ?_
    exact howned _ (List.mem_append_right _ (List.mem_singleton_self _)) a.document rfl

theorem Sound.step (h : t.Sound name) (hs : step name t deed = some u) : u.Sound name := by
  cases step_cases hs with
  | created a => exact ⟨h.identified.insert a, h.drafted, h.owned, h.faithful⟩
  | set id key value =>
    refine ⟨?_, h.drafted, h.owned, h.faithful⟩
    show (t.catalog.setValue id key value).Identified
    unfold Catalog.setValue
    split
    · exact h.identified.insert _
    · exact h.identified
  | adjusted control =>
    refine ⟨h.identified, h.drafted, h.owned, ?_⟩
    simpa [Session.Control.apply_contents] using h.faithful
  | connected =>
    refine ⟨h.identified, fun line hline => ?_, h.owned, h.faithful⟩
    rcases List.mem_append.mp hline with hline | hline
    · exact h.drafted line hline
    · obtain rfl := List.mem_singleton.mp hline
      simp
  | received n => exact ⟨h.identified, h.drafted_set n _ (by simp), h.owned, h.faithful⟩
  | read n =>
    refine ⟨h.identified, h.drafted_set n _ ?_, h.owned, h.faithful⟩
    rintro draft ⟨⟩
    exact h.identified
  | carried n request c draft outcome backend ready carried => exact h.carried ready carried

theorem run_sound (hr : run name {} deeds = some t) : t.Sound name := by
  refine foldlM_induction (P := fun _ t => Sound name t) ?_ (fun _ _ _ _ _ h hs => h.step hs) hr
  exact ⟨fun x a h => by simp [Catalog.get?] at h, by simp, by simp [Owned], fun _ => faithful_empty name⟩

/-! ## Requests that are counted -/

def requests (deeds : List Deed) : List (Nat × Write) :=
  deeds.filterMap fun deed => match deed with
    | .receive n request => some (n, request)
    | _ => none

theorem requests_snoc (deeds : List Deed) (deed : Deed) :
    requests (deeds ++ [deed]) = requests deeds ++ requests [deed] := List.filterMap_append

def uses (t : Traffic) (n : Nat) : Nat := t.lines[n]?.elim 0 fun line => line.connection.requests

structure Counted (received : List (Nat × Write)) (t : Traffic) : Prop where
  log : t.backend.log = received.map (·.2)
  calls : ∀ x, t.backend.callsOf x = (received.filter fun r => decide (r.2.atom = x)).length
  uses : ∀ n, t.uses n = (received.filter fun r => decide (r.1 = n)).length

theorem uses_set {line line' : Line} (hline : t.lines[n]? = some line') (m : Nat) :
    ({ t with lines := t.lines.set n line } : Traffic).uses m =
      if n = m then line.connection.requests else t.uses m := by
  obtain ⟨hlt, _⟩ := List.getElem?_eq_some_iff.mp hline
  unfold Traffic.uses
  simp only [List.getElem?_set]
  by_cases hnm : n = m
  · subst hnm
    simp [hlt]
  · simp [hnm]

theorem uses_eq {line : Line} (hline : t.lines[n]? = some line) : t.uses n = line.connection.requests := by
  unfold uses
  rw [hline]
  rfl

theorem Counted.receive {received : List (Nat × Write)} (h : t.Counted received) {before : Option Catalog}
    (free : t.lines[n]? = some ⟨connection, none, before⟩) :
    Counted (received ++ [(n, request)]) { t with
      backend := t.backend.receive request
      lines := t.lines.set n ⟨connection.use, some request, none⟩ } := by
  have hlog : (t.backend.receive request).log = t.backend.log ++ [request] := List.reverse_cons
  have hcalls : ∀ x, (t.backend.receive request).callsOf x =
      if request.atom = x then t.backend.callsOf x + 1 else t.backend.callsOf x := by
    intro x
    unfold callsOf Memory.receive
    rw [Std.TreeMap.getElem?_insert]
    by_cases hx : request.atom = x
    · subst hx
      simp [callsOf]
    · simp [hx]
  refine ⟨?_, fun x => ?_, fun m => ?_⟩
  · rw [hlog, h.log, List.map_append]
    rfl
  · rw [hcalls, h.calls, List.filter_append, List.length_append]
    by_cases hx : request.atom = x <;> simp [hx]
  · have huses : Traffic.uses { t with
        backend := t.backend.receive request
        lines := t.lines.set n ⟨connection.use, some request, none⟩ } m = _ := uses_set free m
    have hm := h.uses m
    rw [huses, List.filter_append, List.length_append, ← hm]
    by_cases hnm : n = m
    · subst hnm
      simp [uses_eq free, Connection.use]
    · simp [hnm]

theorem Counted.same {received : List (Nat × Write)} (h : t.Counted received)
    (calls : u.backend.calls = t.backend.calls) (log : u.backend.received = t.backend.received)
    (uses : ∀ n, u.uses n = t.uses n) : u.Counted received where
  log := by
    rw [← h.log]
    unfold Memory.log
    rw [log]
  calls x := by
    rw [← h.calls]
    unfold callsOf
    rw [calls]
  uses n := by rw [uses, h.uses]

theorem carryOut_counts (name : String → String) (m : Memory) (catalog : Catalog) (request : Write) :
    (Memory.carryOut name m catalog request).2.calls = m.calls ∧
      (Memory.carryOut name m catalog request).2.received = m.received := by
  unfold Memory.carryOut
  simp only
  split
  · exact ⟨rfl, rfl⟩
  · exact ⟨rfl, rfl⟩
  · split <;> exact ⟨rfl, rfl⟩

theorem Counted.step {received : List (Nat × Write)} (h : t.Counted received) (hs : step name t deed = some u) :
    u.Counted (received ++ requests [deed]) := by
  cases step_cases hs with
  | received n request c before free => exact h.receive free
  | created => exact (List.append_nil received).symm ▸ h.same rfl rfl fun _ => rfl
  | set => exact (List.append_nil received).symm ▸ h.same rfl rfl fun _ => rfl
  | adjusted control =>
    refine (List.append_nil received).symm ▸ h.same ?_ ?_ fun _ => rfl <;> cases control <;> rfl
  | connected =>
    refine (List.append_nil received).symm ▸ h.same rfl rfl fun n => ?_
    unfold Traffic.uses
    rcases Nat.lt_trichotomy n t.lines.length with hn | hn | hn
    · rw [List.getElem?_append_left hn]
    · subst hn
      simp
    · rw [List.getElem?_eq_none (by simp; omega), List.getElem?_eq_none (by omega)]
  | read n request c before busy =>
    refine (List.append_nil received).symm ▸ h.same rfl rfl fun m => (uses_set busy m).trans ?_
    split
    · next hnm => rw [← hnm, uses_eq busy]
    · rfl
  | carried n request c draft outcome backend ready carried =>
    obtain ⟨hcalls, hlog⟩ := carryOut_counts name t.backend draft request
    rw [carried] at hcalls hlog
    refine (List.append_nil received).symm ▸ h.same hcalls hlog fun m => (uses_set ready m).trans ?_
    split
    · next hnm => rw [← hnm, uses_eq ready]
    · rfl

theorem run_counted (hr : run name {} deeds = some t) : t.Counted (requests deeds) := by
  refine foldlM_induction (P := fun deeds t => Counted (requests deeds) t) ?_ ?_ hr
  · exact ⟨rfl, fun x => by simp [callsOf, requests], fun n => by simp [uses, requests]⟩
  · intro deeds u deed v _ h hs
    rw [requests_snoc]
    exact h.step hs

/-! ## The map -/

theorem fails_untouched {line : Line} {e : StoreError} (hl : t.lines[n]? = some line)
    (hr : line.request = some request) (hd : line.draft = some draft)
    (he : (Memory.carryOut name t.backend draft request).1 = .error e) :
    ∃ u, step name t (.carryOut n) = some u ∧ u.backend.contents = t.backend.contents ∧ u.done = t.done := by
  cases hc : Memory.carryOut name t.backend draft request with
  | mk outcome backend =>
    rw [hc] at he
    cases he
    refine ⟨{ t with backend, lines := t.lines.set n { connection := line.connection } }, ?_, ?_, rfl⟩
    · simp [step, hl, hr, hd, hc, success?]
    · cases carryOut_cases hc with
      | failed _ _ same => exact same

/-- A memory backend is a faithful map. After any traffic in which no two stored documents have one name, the
index holds the atoms whose last successful request was a store, each with the name of the document that was
read then; the documents are these and no others, each under its own name and for one atom, so there are as
many as indexed atoms. All requests are in the log and are counted for their atoms and connections, and one
that fails leaves the contents as they are. -/
theorem faithful_map (hr : run name {} deeds = some t) (distinct : Set.InjOn name (stored t.done)) :
    (∀ x, t.backend.contents.name? x = (left x t.done).map name) ∧
    (∀ x, t.backend.contents.document? x = left x t.done) ∧
    (∀ n d, t.backend.contents.documents[n]? = some d ↔ ∃ x, left x t.done = some d ∧ name d = n) ∧
    (∀ x y n, t.backend.contents.name? x = some n → t.backend.contents.name? y = some n → x = y) ∧
    t.backend.contents.size = t.backend.contents.index.size ∧
    t.backend.log = (requests deeds).map (·.2) ∧
    (∀ x, t.backend.callsOf x = ((requests deeds).filter fun r => decide (r.2.atom = x)).length) ∧
    (∀ n line, t.lines[n]? = some line →
      line.connection.requests = ((requests deeds).filter fun r => decide (r.1 = n)).length) ∧
    ∀ n line request draft e, t.lines[n]? = some line → line.request = some request →
      line.draft = some draft → (Memory.carryOut name t.backend draft request).1 = .error e →
      ∃ u, step name t (.carryOut n) = some u ∧ u.backend.contents = t.backend.contents ∧
        u.done = t.done := by
  have hsound := run_sound hr
  have hcounted := run_counted hr
  have hf := hsound.faithful distinct
  refine ⟨hf.index, fun x => ?_, fun n d => hf.documents n d,
    fun x y n hx hy => hf.one distinct hsound.owned hx hy, hf.size distinct hsound.owned, hcounted.log,
    hcounted.calls, fun n line hl => ?_, fun n line request draft e hl hq hd he => fails_untouched hl hq hd he⟩
  · cases hx : left x t.done with
    | none => simp [Contents.document?, Contents.name?, hf.index, hx]
    | some d =>
      refine Contents.document?_eq_some.mpr ⟨name d, ?_, (hf.documents _ d).mpr ⟨x, hx, rfl⟩⟩
      rw [hf.index, hx]
      rfl
  · rw [← uses_eq hl, hcounted.uses]

def contentName (text : String) : String := contentId text.toUTF8

def cat : Atom := .node ⟨7⟩ "ConceptNode" "cat"

def dog : Atom := .node ⟨8⟩ "ConceptNode" "dog"

def tame : Atom := cat.set "tame" (.bool true)

/-- Two stores of an atom overlap, and a value is set between their reads. A third store fails, and an atom is
removed that has not been stored. -/
def overlap : List Deed :=
  [.create cat, .create dog, .connect, .connect, .receive 0 ⟨cat.id, .store⟩, .receive 1 ⟨cat.id, .store⟩,
    .read 0, .set cat.id "tame" (.bool true), .read 1, .carryOut 0, .carryOut 1, .adjust (.fail cat.id)] ++
  exchange 1 ⟨cat.id, .store⟩ ++ exchange 0 ⟨dog.id, .remove⟩

theorem faithful_map_overlap : ∃ t, run contentName {} overlap = some t ∧
    Set.InjOn contentName (stored t.done) ∧ t.backend.contents.document? cat.id = some tame.document ∧
    t.backend.contents.document? dog.id = none ∧
    t.backend.contents.size = t.backend.contents.index.size ∧ t.backend.callsOf cat.id = 3 := by
  obtain ⟨t, hr, hdone⟩ : ∃ t, run contentName {} overlap = some t ∧
      t.done = [⟨cat.id, some cat.document⟩, ⟨cat.id, some tame.document⟩, ⟨dog.id, none⟩] :=
    ⟨_, rfl, rfl⟩
  have hname : contentName cat.document ≠ contentName tame.document := by decide +kernel
  have hnames : ([cat.document, tame.document].map contentName).Nodup := by simp [hname]
  have hstored : ∀ d ∈ stored t.done, d ∈ [cat.document, tame.document] := by
    rintro d ⟨s, hs, hd⟩
    rw [hdone] at hs
    simp only [List.mem_cons, List.not_mem_nil, or_false] at hs
    rcases hs with rfl | rfl | rfl <;> cases hd <;> simp
  have distinct : Set.InjOn contentName (stored t.done) := fun d hd e he h =>
    List.inj_on_of_nodup_map hnames (hstored d hd) (hstored e he) h
  obtain ⟨_, hdocument, _, _, hsize, _, hcalls, _⟩ := faithful_map hr distinct
  refine ⟨t, hr, distinct, ?_, ?_, hsize, ?_⟩
  · rw [hdocument, hdone]
    rfl
  · rw [hdocument, hdone]
    rfl
  · rw [hcalls]
    rfl

end Traffic

end Memory

end WriteBehind
