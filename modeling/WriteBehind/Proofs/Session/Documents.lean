import WriteBehind.Proofs.Atom.Identity
import WriteBehind.Proofs.Backend.Contents
import WriteBehind.Proofs.Session.Requests

/-!
# Documents of a session

If the documents that are encoded in a run have different names, each request changes the document of its
own atom only.
-/

namespace WriteBehind

/-! ## Requests -/

namespace Memory

variable {name : String → String} {owned : AtomId → String → Prop} {m m' : Memory} {draft : Catalog}
  {request : Write} {outcome : Queue.Outcome} {x : AtomId} {d : String}

/-- The document that a request writes, unless it fails before. -/
def encoded? (m : Memory) (draft : Catalog) (request : Write) : Option String :=
  match ({ m with requests := m.requests + 1 } : Memory).failure? request, request.kind with
  | none, .store => (draft.get? request.atom).map Atom.document
  | _, _ => none

theorem encoded?_eq (h : m.encoded? draft request = some d) :
    ∃ a, draft.get? request.atom = some a ∧ a.document = d := by
  unfold encoded? at h
  split at h
  · exact Option.map_eq_some_iff.mp h
  · cases h

inductive Carried (name : String → String) (m : Memory) (draft : Catalog) (request : Write) :
    Queue.Outcome → Memory → Prop where
  | failed (e : StoreError) (m' : Memory) (same : m'.contents = m.contents) :
    Carried name m draft request (.error e) m'
  | removed (m' : Memory) (kind : request.kind = .remove)
    (contents : m'.contents = m.contents.remove request.atom) : Carried name m draft request (.ok ()) m'
  | stored (a : Atom) (m' : Memory) (kind : request.kind = .store) (found : draft.get? request.atom = some a)
    (encoded : m.encoded? draft request = some a.document)
    (contents : m'.contents = m.contents.put request.atom (name a.document) a.document) :
    Carried name m draft request (.ok ()) m'

theorem carryOut_cases (h : carryOut name m draft request = (outcome, m')) :
    Carried name m draft request outcome m' := by
  simp only [carryOut] at h
  split at h
  · cases h
    exact .failed _ _ rfl
  · rename_i hkind
    cases h
    exact .removed _ hkind rfl
  · rename_i hsound hkind
    split at h <;> rename_i hfound <;> cases h
    · refine .stored _ _ hkind hfound ?_ rfl
      simp [encoded?, hsound, hkind, hfound]
    · exact .failed _ _ rfl

theorem Carried.other (h : Carried name m draft request outcome m') (hk : m.contents.Kept name owned)
    (hn : Contents.Apart name owned) (ho : ∀ d, m.encoded? draft request = some d → owned request.atom d)
    (hx : x ≠ request.atom) : m'.contents.document? x = m.contents.document? x := by
  cases h with
  | failed _ _ same => rw [same]
  | removed _ _ contents => rw [contents, hk.document?_remove hn hx]
  | stored _ _ _ _ encoded contents => rw [contents, hk.document?_put hn (ho _ encoded) hx]

theorem Carried.kept (h : Carried name m draft request outcome m') (hk : m.contents.Kept name owned)
    (hn : Contents.Apart name owned) (ho : ∀ d, m.encoded? draft request = some d → owned request.atom d) :
    m'.contents.Kept name owned := by
  cases h with
  | failed _ _ same => rwa [same]
  | removed _ _ contents => rw [contents]; exact hk.remove hn request.atom
  | stored _ _ _ _ encoded contents => rw [contents]; exact hk.put hn (ho _ encoded)

end Memory

namespace Session

variable {name : String → String} {config : SessionConfig} {documents : Set String} {w₀ w u : World}
  {actions later : List Action} {action : Action} {n : Nat} {draft : Catalog} {request : Write}

/-! ## Encodings -/

def World.encoded? (w : World) : Action → Option String
  | .write worker => do
    let request ← w.request? worker
    let draft ← w.drafts.get? worker
    w.store.encoded? draft request
  | _ => none

def World.encodings (name : String → String) (w : World) (actions : List Action) : List String :=
  World.observe name (fun w action => (w.encoded? action).toList) w actions

theorem World.encodings_snoc {v : World} (h : World.run name w actions = some u)
    (hs : World.step name u action = some v) :
    World.encodings name w (actions ++ [action]) = World.encodings name w actions ++ (u.encoded? action).toList :=
  World.observe_snoc h hs

def Belongs (documents : Set String) (x : AtomId) (d : String) : Prop :=
  d ∈ documents ∧ ∃ a : Atom, a.id = x ∧ a.document = d

theorem belongs_apart (h : Set.InjOn name documents) : Contents.Apart name (Belongs documents) := by
  intro x y d e ⟨hd, a, hx, ha⟩ ⟨he, b, hy, hb⟩ hname
  have heq : a.document = b.document := by rw [ha, hb, h hd he hname]
  rw [← hx, ← hy]
  exact Atom.id_eq_of_document heq

theorem Drafted.belongs (h : Drafted w) (hd : w.drafts.get? n = some draft)
    (henc : ∀ d, w.store.encoded? draft request = some d → d ∈ documents) :
    ∀ d, w.store.encoded? draft request = some d → Belongs documents request.atom d := by
  intro d he
  obtain ⟨a, ha, hdoc⟩ := Memory.encoded?_eq he
  exact ⟨henc d he, a, h.identified n draft hd request.atom a ha, hdoc⟩

/-! ## Runs -/

theorem kept_step (h : w.store.contents.Kept name (Belongs documents)) (hd : Drafted w)
    (distinct : Set.InjOn name documents) (hs : World.step name w action = some u)
    (henc : ∀ d, w.encoded? action = some d → d ∈ documents) :
    u.store.contents.Kept name (Belongs documents) := by
  cases World.step_cases hs with
  | adjusted control => rwa [Control.apply_contents]
  | called _ _ _ _ _ moved => rwa [moved.contents]
  | moved _ _ _ _ moved => rwa [moved.contents]
  | wrote worker request draft outcome store _ _ carries found carried moved =>
    rw [moved.contents]
    refine (Memory.carryOut_cases carried).kept h (belongs_apart distinct) (hd.belongs found fun d he => ?_)
    exact henc d (by simp [World.encoded?, carries, found, he])
  | _ => exact h

theorem Opens.kept (h₀ : Opens name config w₀) (distinct : Set.InjOn name documents)
    (hr : World.run name w₀ actions = some w) (henc : ∀ d ∈ World.encodings name w₀ actions, d ∈ documents) :
    w.store.contents.Kept name (Belongs documents) := by
  refine World.run_induction (P := fun actions w => (∀ d ∈ World.encodings name w₀ actions, d ∈ documents) →
    w.store.contents.Kept name (Belongs documents)) ?_ ?_ hr henc
  · intro _
    rw [h₀.empty.1]
    exact Contents.kept_empty name _
  · intro actions v action u hv hp hs henc
    rw [World.encodings_snoc hv hs] at henc
    refine kept_step (hp fun d hd => henc d (List.mem_append_left _ hd)) (h₀.drafted hv) distinct hs ?_
    exact fun d hd => henc d (List.mem_append_right _ (Option.mem_toList.mpr hd))

end Session

end WriteBehind
