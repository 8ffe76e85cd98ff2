import WriteBehind.Proofs.Bench.Schedule

/-!
# The workload of a bench

A bench writes its whole workload once, and its report accounts for all of it: for what was ordered, what was
folded into another write, what was drained and what failed. No interleaving of producers and workers makes a
difference, and the schedule on which a bench runs is one of the interleavings.
-/

namespace WriteBehind.Bench

open Session (byContent)

variable {luck : Luck} {o : Options} {c : FileConfig} {since : Int} {d : Desk} {t : State}

/-- An interleaving leads from the opening of a bench to its report. -/
def Settings.Reports (s : Settings) (luck : Luck) (d : Desk) (t : State) : Prop :=
  (∃ ticks, State.run byContent luck s.workload (.start luck s.workload d) ticks = some t) ∧
    t.round = s.workload.rounds

/-- **A bench accounts for its workload.** Whatever the interleaving, every atom was ordered in every round by
the one producer it belongs to, and the statistics at the report are those of the workload. If no request is made
to fail, each atom is stored with a value that ends in the number of the last round, and so does the value that
is read from its document, if the strength in front is one that a generator draws. The rounds that a bench
reports are one of these runs, and its statistics are those of the run. -/
theorem workload_accounted (opened : (Settings.of o c).open? luck since = .ok d) :
    (∀ t, (Settings.of o c).Reports luck d t →
      t.orders.Perm (luck.orders (Settings.of o c).workload) ∧
      Accounts (Settings.of o c) t.counts t.world.queue.snapshot t.results t.failed ∧
      ((Settings.of o c).failEvery = 0 → 0 < (Settings.of o c).workload.rounds →
        luck.Distinct (Settings.of o c).workload →
        Set.InjOn byContent (luck.documents (Settings.of o c).workload) →
        ∀ i < (Settings.of o c).workload.atoms,
          let last := (Settings.of o c).workload.rounds - 1
          ∃ atom : Atom, t.world.store.contents.document? (luck.id i) = some atom.document ∧ atom.id = luck.id i ∧
            atom.get? "tv" = some (.array [.number (.real (luck.strength last i)), .number (.int last)]) ∧
            (0 ≤ luck.strength last i → luck.strength last i < 1 → last < wordSize →
              ∃ (read : Atom) (strength : Float),
              Atom.ofDocument? atom.document = some read ∧ read.id = luck.id i ∧
              read.get? "tv" = some (.array [.number (.real strength), .number (.int last)])))) ∧
    ∀ timing, ∃ t out d', (Settings.of o c).Reports luck d t ∧
      rounds luck timing (Settings.of o c).workload (Settings.of o c).workload.rounds 0 0 d =
        (out, t.results.countP (fun r => !r.isOk), d') ∧
      d'.session.stats.counts = t.counts ∧ d'.session.stats.queue = t.world.queue.snapshot ∧
      d'.session.store = t.world.store := by
  have hp : 0 < (Settings.of o c).workload.producers := Nat.le_max_left 1 _
  obtain ⟨connections, h₀⟩ := (Bench.opened opened).begins
  refine ⟨?_, fun timing => ?_⟩
  · rintro t ⟨⟨ticks, hr⟩, late⟩
    have hkept := (kept_start opened).run hp h₀ hr
    refine ⟨hkept.booked.complete hp late, hkept.accounts h₀ hp late,
      fun sound some hd distinct i hi => ⟨_, documented opened hp hr late sound some hd distinct hi,
        rfl, rfl, fun h0 h1 hword => ?_⟩⟩
    obtain ⟨strength, hread⟩ := ofDocument?_atom h0 h1 hword
    exact ⟨_, strength, hread, rfl, rfl⟩
  · obtain ⟨ticks, t, hr, late, hfailed, hcounts, hqueue, hstore⟩ := rounds_run timing opened hp
    exact ⟨t, _, _, ⟨⟨ticks, hr⟩, late⟩, Prod.ext rfl (Prod.ext hfailed rfl), hcounts,
      congrArg Queue.State.snapshot hqueue, hstore⟩

def single : Luck where
  id i := ⟨i⟩
  strength _ _ := 0.25
  valueFirst _ _ := true

def smallest : Options where
  workers := some 1
  foreground := some 0
  atoms := some 1
  rounds := some 2
  producers := some 0

def works (n : Nat) : List Tick := List.replicate n (.stir (.queue (.work 0)))

/-- The worker takes the value while the producer stores the atom, and the fence waits for both. -/
def overlapping (fence : Nat) : List Tick :=
  .produce 0 :: .produce 0 :: works 2 ++ .produce 0 :: .fence :: works 2 ++ .stir (.read 0) :: .stir (.write 0) ::
    works 6 ++ .stir (.read 0) :: .stir (.write 0) :: works 2 ++ [.stir (.queue (.look fence)), .proceed]

theorem workload_accounted_overlapping : ∃ d t text, ∃ (read : Atom) (strength : Float),
    (Settings.of smallest {}).open? single 0 = .ok d ∧
    State.run byContent single (Settings.of smallest {}).workload (.start single (Settings.of smallest {}).workload d)
      (overlapping 2 ++ overlapping 5) = some t ∧
    (t.counts.stores = 2 ∧ t.counts.valueStores = 2 ∧ t.world.queue.counters.drained = 4) ∧
    t.orders.Perm [⟨0, 0, .storeValue ⟨0⟩ valueKey⟩, ⟨0, 0, .store ⟨0⟩⟩,
      ⟨1, 0, .storeValue ⟨0⟩ valueKey⟩, ⟨1, 0, .store ⟨0⟩⟩] ∧
    Accounts (Settings.of smallest {}) t.counts t.world.queue.snapshot t.results t.failed ∧
    t.world.store.contents.document? ⟨0⟩ = some text ∧ Atom.ofDocument? text = some read ∧ read.id = ⟨0⟩ ∧
    read.get? "tv" = some (.array [.number (.real strength), .number (.int 1)]) := by
  obtain ⟨d, t, opened, hr, late, hcounts⟩ : ∃ d t, (Settings.of smallest {}).open? single 0 = .ok d ∧
      State.run byContent single (Settings.of smallest {}).workload
        (.start single (Settings.of smallest {}).workload d) (overlapping 2 ++ overlapping 5) = some t ∧
      t.round = 2 ∧ t.counts.stores = 2 ∧ t.counts.valueStores = 2 ∧ t.world.queue.counters.drained = 4 := by
    have hrun : (match (Settings.of smallest {}).open? single 0 with
        | .ok d => (State.run byContent single (Settings.of smallest {}).workload
            (.start single (Settings.of smallest {}).workload d) (overlapping 2 ++ overlapping 5)).any fun t =>
              t.round = 2 ∧ t.counts.stores = 2 ∧ t.counts.valueStores = 2 ∧ t.world.queue.counters.drained = 4
        | .error _ => false) = true := by
      decide +kernel
    split at hrun
    · rename_i d opened
      obtain ⟨t, hr, ht⟩ := (Option.any_eq_true _ _).mp hrun
      exact ⟨d, t, opened, hr, of_decide_eq_true ht⟩
    · cases hrun
  have distinct : Set.InjOn byContent (single.documents (Settings.of smallest {}).workload) := by
    have hdiffer : byContent (single.atom 0 0).document ≠ byContent (single.atom 0 1).document := by
      decide +kernel
    rintro _ ⟨i, hi, j, hj, rfl⟩ _ ⟨i', hi', j', hj', rfl⟩ hsame
    obtain rfl := Nat.lt_one_iff.mp hi
    obtain rfl := Nat.lt_one_iff.mp hi'
    obtain rfl | rfl := Nat.le_one_iff_eq_zero_or_eq_one.mp (Nat.le_of_lt_succ hj) <;>
      obtain rfl | rfl := Nat.le_one_iff_eq_zero_or_eq_one.mp (Nat.le_of_lt_succ hj')
    · rfl
    · exact absurd hsame hdiffer
    · exact absurd hsame.symm hdiffer
    · rfl
  obtain ⟨horders, haccounts, hdocuments⟩ := (workload_accounted opened).1 t ⟨⟨_, hr⟩, late⟩
  have hsingle : single.Distinct (Settings.of smallest {}).workload := by
    intro i hi i' hi' _
    exact (Nat.lt_one_iff.mp hi).trans (Nat.lt_one_iff.mp hi').symm
  obtain ⟨atom, hdocument, -, -, hreads⟩ := hdocuments rfl Nat.two_pos hsingle distinct 0 Nat.zero_lt_one
  obtain ⟨read, strength, hread, hid, hvalue⟩ := hreads (by decide) (by decide) (by decide)
  exact ⟨d, t, atom.document, read, strength, opened, hr, hcounts, horders, haccounts, hdocument, hread, hid,
    hvalue⟩

end WriteBehind.Bench
