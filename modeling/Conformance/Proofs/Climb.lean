import Conformance.Proofs.Chain
/-! What a climb visits of a superclass chain, and why it gives the chain up. The marker always lies
at a power of two less one, counted in superclasses from the first type; so it is met on a circle as
soon as it has passed the tail and stays for the whole period, and never on a chain that comes to an
end. -/
namespace Conformance

namespace Marker

/-- The counters of a marker tell how far up a chain the marker and the type reached lie. -/
structure Follows (metadata : Metadata) (start : Address) (hops : Nat) (type : Address)
    (marker : Marker) : Prop where
  reached : metadata.Ascends hops start type
  marked : metadata.Ascends (marker.reach - 1) start marker.type
  sum : marker.reach + marker.passed = hops + 1
  power : ∃ exponent, marker.reach = 2 ^ exponent

namespace Follows

variable {metadata : Metadata} {start type : Address} {hops : Nat} {marker : Marker}

theorem start_self (type : Address) : (Marker.start type).Follows metadata type 0 type :=
  ⟨.zero type, .zero type, rfl, 0, rfl⟩

theorem advance (follows : marker.Follows metadata start hops type) {superclass : Address}
    (hSuperclass : metadata.superclass? type = some superclass) (hNonnull : superclass ≠ 0) :
    (marker.advance superclass).Follows metadata start (hops + 1) superclass := by
  have reached := follows.reached.snoc hSuperclass hNonnull
  have hSum := follows.sum
  obtain ⟨exponent, hPower⟩ := follows.power
  unfold Marker.advance
  split_ifs with hMoves
  · have hHere : 2 * marker.reach - 1 = hops + 1 := by omega
    refine ⟨reached, ?_, ?_, exponent + 1, ?_⟩
    · rwa [hHere]
    · dsimp only
      omega
    · rw [hPower, Nat.pow_succ']
  · refine ⟨reached, follows.marked, ?_, exponent, hPower⟩
    dsimp only
    omega

/-- The hops that have been used and those that are left are the hops allowed. -/
theorem hops_add (follows : marker.Follows metadata start hops type) {limits : Limits}
    {hopsLeft : Nat} (tracks : marker.Tracks limits hopsLeft) :
    hops + hopsLeft = limits.superclassHops := by
  have hSum := follows.sum
  have hAll := tracks.sum
  omega

end Follows

end Marker

/-- How many types have been visited at the end of a lineage before which there were `hops`, and why
the chain was given up. -/
def Lineage.outcome (hops : Nat) (lineage : Lineage) : Nat × Option Anomaly :=
  (hops + lineage.types.length, lineage.reason)

@[simp] theorem Lineage.outcome_singleton (hops : Nat) (type : Address)
    (reason : Option Anomaly) : Lineage.outcome hops ⟨[], type, reason⟩ = (hops + 1, reason) :=
  rfl

@[simp] theorem Lineage.outcome_after (hops : Nat) (type : Address) (lineage : Lineage) :
    (lineage.after type).outcome hops = lineage.outcome (hops + 1) := by
  rw [outcome, types_after, List.length_cons, Nat.add_comm lineage.types.length, ← Nat.add_assoc]
  rfl

/-- Powers of two that are less than twice each other are equal. -/
theorem eq_of_two_pow {first second : Nat} (hFirst : 2 ^ first < 2 * 2 ^ second)
    (hSecond : 2 ^ second < 2 * 2 ^ first) : (2 : Nat) ^ first = 2 ^ second := by
  rw [← Nat.pow_succ'] at hFirst hSecond
  have hLeft := (Nat.pow_lt_pow_iff_right Nat.one_lt_two).mp hFirst
  have hRight := (Nat.pow_lt_pow_iff_right Nat.one_lt_two).mp hSecond
  obtain rfl : first = second := by omega
  rfl

namespace Inspector

variable {inspector : Inspector} {reader : Reader} {start type : Address} {hops hopsLeft : Nat}
  {marker : Marker}

variable (inspector reader) in
/-- The types that are visited lie on the chain, one superclass after the other. -/
theorem ascends_getElem (hopsLeft : Nat) (marker : Marker) (type : Address) (index : Nat)
    (hIndex : index < (inspector.lineageFrom reader hopsLeft marker type).types.length) :
    (inspector.metadata reader).Ascends index type
      (inspector.lineageFrom reader hopsLeft marker type).types[index] := by
  fun_induction inspector.lineageFrom reader hopsLeft marker type generalizing index with
  | case5 marker type superclass hSuperclass hNonnull hopsLeft _ ih =>
      cases index with
      | zero => exact .zero type
      | succ index => exact .succ hSuperclass hNonnull (ih index (Nat.lt_of_succ_lt_succ hIndex))
  | _ =>
      obtain rfl := Nat.lt_one_iff.mp hIndex
      exact .zero _

/-- A climb meets the end of a chain unless the hops are used up before, and it never meets its
marker there. -/
theorem lineageFrom_of_ends {length : Nat} {answer : Option Address}
    (ends : (inspector.metadata reader).Ends start length answer)
    (hAnswer : ∀ superclass ∈ answer, superclass = 0)
    (tracks : marker.Tracks inspector.limits hopsLeft)
    (follows : marker.Follows (inspector.metadata reader) start hops type) :
    (inspector.lineageFrom reader hopsLeft marker type).outcome hops =
      if length ≤ inspector.limits.superclassHops then
        (length + 1, answer.elim (some .invalidRead) fun _ => none)
      else (inspector.limits.superclassHops + 1, some .hopLimit) := by
  have hHops := follows.hops_add tracks
  obtain ⟨last, ascent, hLast⟩ := id ends
  have stops := Metadata.stops_of_answer hLast hAnswer
  fun_induction inspector.lineageFrom reader hopsLeft marker type generalizing hops with
  | case1 hopsLeft marker type hUnreadable =>
      obtain ⟨rfl, rfl⟩ := ends.unique ⟨type, follows.reached, hUnreadable⟩ hAnswer (by simp)
      rw [if_pos (by omega)]
      rfl
  | case2 hopsLeft marker type hNull =>
      obtain ⟨rfl, rfl⟩ := ends.unique ⟨type, follows.reached, hNull⟩ hAnswer (by simp)
      rw [if_pos (by omega)]
      rfl
  | case3 marker type superclass hSuperclass hNonnull =>
      obtain rfl : hops = inspector.limits.superclassHops := hHops
      have hBeyond := ascent.le_of_stops stops (follows.reached.snoc hSuperclass hNonnull)
      rw [if_neg (by omega)]
      rfl
  | case4 marker type hopsLeft hSuperclass hNonnull =>
      have again := follows.reached.snoc hSuperclass hNonnull
      have hTwice := ascent.eq_of_stops stops follows.marked again
      have hSum := follows.sum
      have hPassed := tracks.passed
      omega
  | case5 marker type superclass hSuperclass hNonnull hopsLeft hMarked ih =>
      rw [Lineage.outcome_after]
      exact ih (tracks.advance superclass) (follows.advance hSuperclass hNonnull) (by omega)

/-- A climb meets its marker on a circle when the marker has reached the circle and the reach of the
marker is at least the period, and not before. -/
theorem lineageFrom_of_circles {tail period : Nat} {chain : Nat → Address}
    (circles : (inspector.metadata reader).Circles start tail period chain)
    (tracks : marker.Tracks inspector.limits hopsLeft)
    (follows : marker.Follows (inspector.metadata reader) start hops type)
    (hAhead : hops < Fate.reach tail period - 1 + period) :
    (inspector.lineageFrom reader hopsLeft marker type).outcome hops =
      (Fate.loop tail period).met inspector.limits.superclassHops := by
  obtain ⟨⟨⟨exponent, hReach⟩, hTail, hPeriod⟩, hLeast⟩ := Fate.isLeast_reach tail period
  have hHops := follows.hops_add tracks
  unfold Fate.met
  dsimp only
  fun_induction inspector.lineageFrom reader hopsLeft marker type generalizing hops with
  | case1 hopsLeft marker type hUnreadable =>
      exact absurd ⟨type, follows.reached, hUnreadable⟩ (circles.not_ends (by simp))
  | case2 hopsLeft marker type hNull =>
      exact absurd ⟨type, follows.reached, hNull⟩ (circles.not_ends (by simp))
  | case3 marker type superclass hSuperclass hNonnull =>
      obtain rfl : hops = inspector.limits.superclassHops := hHops
      rw [if_neg (by omega)]
      rfl
  | case4 marker type hopsLeft hSuperclass hNonnull =>
      have again := follows.reached.snoc hSuperclass hNonnull
      have hSum := follows.sum
      have hPassed := tracks.passed
      have hMarker := (circles.ascends _).unique follows.marked
      have hNext := (circles.ascends _).unique again
      have hRound := circles.le_of_eq (show marker.reach - 1 < hops + 1 by omega)
        (hMarker.trans hNext.symm)
      have hMarked : Fate.reach tail period ≤ marker.reach :=
        hLeast ⟨follows.power, by omega, by omega⟩
      have hHere : hops + 1 = Fate.reach tail period - 1 + period := by omega
      rw [if_pos (by omega), Lineage.outcome_singleton, hHere]
  | case5 marker type superclass hSuperclass hNonnull hopsLeft hMarked ih =>
      have next := follows.advance hSuperclass hNonnull
      rw [Lineage.outcome_after]
      refine ih (tracks.advance superclass) next (Nat.lt_of_le_of_ne hAhead ?_) (by omega)
      -- Otherwise the marker lies one whole round back, where the climb would have met it.
      intro hMet
      apply hMarked
      obtain ⟨moved, hMoved⟩ := follows.power
      have hSum := follows.sum
      have hPassed := tracks.passed
      have hPos := circles.pos
      have hSame : marker.reach = Fate.reach tail period := by
        rw [hMoved, hReach]
        exact eq_of_two_pow (by omega) (by omega)
      have hBack : chain (hops + 1) = chain (marker.reach - 1) := by
        rw [hMet, ← hSame]
        exact circles.add_period (by omega)
      have hMarker := (circles.ascends _).unique follows.marked
      have hNext := (circles.ascends _).unique next.reached
      rw [← hNext, hBack, hMarker]

theorem lineage_outcome {fate : Fate} (fares : (inspector.metadata reader).Fares start fate) :
    (inspector.lineage reader start).outcome 0 = fate.met inspector.limits.superclassHops := by
  have tracks : (Marker.start start).Tracks inspector.limits inspector.limits.superclassHops :=
    .start start
  have follows : (Marker.start start).Follows (inspector.metadata reader) start 0 start :=
    .start_self start
  cases fate with
  | root length => exact lineageFrom_of_ends fares (by simp) tracks follows
  | broken length => exact lineageFrom_of_ends fares (by simp) tracks follows
  | loop tail period =>
      obtain ⟨chain, circles⟩ := fares
      have hPos := circles.pos
      exact lineageFrom_of_circles circles tracks follows (by omega)

/-- The types that a climb visits if its visitor is never done, and why it gives the chain up. -/
def ancestors (inspector : Inspector) (start : Address) : Probe (List Address × Option Anomaly) :=
  inspector.visitAncestry (fun type seen => pure (.yield (seen ++ [type]))) start []

theorem visitEach_record (types seen : List Address) :
    visitEach (fun type seen => .yield (seen ++ [type])) types seen = .yield (seen ++ types) := by
  induction types generalizing seen with
  | nil => rw [List.append_nil, visitEach]
  | cons type rest ih =>
      rw [visitEach]
      dsimp only
      rw [ih, List.append_assoc, List.singleton_append]

variable (inspector reader)

theorem run_ancestors (start : Address) :
    (inspector.ancestors start).run reader =
      ((inspector.lineage reader start).types, (inspector.lineage reader start).reason) := by
  unfold ancestors
  rw [run_visitAncestry, Lineage.visit]
  simp only [Probe.run_pure, visitEach_record]
  rfl

/-- Every chain of superclasses has exactly one fate, and every climb goes along an initial part of
the chain until its visitor is done. How long that part is and why it is not longer follows from the
fate and from the hops allowed. Where the chain is given up for a circle, every type on it has been
visited. -/
theorem ancestors_of_fares (start : Address) :
    let metadata := inspector.metadata reader
    let visited := (inspector.ancestors start).run reader
    (∃! fate, metadata.Fares start fate) ∧
      (∀ index (hIndex : index < visited.1.length),
        metadata.Ascends index start visited.1[index]) ∧
      (∀ (σ : Type) (visit : Address → σ → Probe (ForInStep σ)) (state : σ),
        ((inspector.visitAncestry visit start state).run reader).1 =
          (visitEach (fun type state => (visit type state).run reader) visited.1 state).value) ∧
      (∀ fate, metadata.Fares start fate →
        (visited.1.length, visited.2) = fate.met inspector.limits.superclassHops) ∧
      (visited.2 = some .cycle →
        ∀ hops ancestor, metadata.Ascends hops start ancestor → ancestor ∈ visited.1) := by
  intro metadata visited
  have hVisited : visited = _ := inspector.run_ancestors reader start
  rw [hVisited]
  refine ⟨?_, ?_, fun σ visit state => ?_, fun fate fares => ?_,
    fun hCycle hops ancestor ascent => ?_⟩
  · obtain ⟨fate, fares⟩ := metadata.exists_fares start
    exact ⟨fate, fares, fun other faresOther => faresOther.unique fares⟩
  · exact inspector.ascends_getElem reader _ _ start
  · rw [run_visitAncestry, Lineage.visit]
  · have hOutcome := lineage_outcome fares
    rwa [Lineage.outcome, Nat.zero_add] at hOutcome
  · have hReason : ∀ reason ∈ (inspector.lineage reader start).reason, reason = .cycle :=
      fun reason hFound => Option.some.inj (hFound.symm.trans hCycle)
    have closed := (Trail.start start).closed_of_reason hReason
    rw [List.append_nil] at closed
    exact closed.mem_of_ascends ascent (mem_lineage_iff.mpr ⟨0, Nat.zero_le _, .zero start⟩)

end Inspector

/-- Two types at `0x20` and `0x40`, and three at `0x60`, `0x80` and `0xA0` that are superclasses of
each other in a circle. -/
def circledMemory : Reader :=
  .ofWords [(0x28, 0x40), (0x48, 0x60), (0x68, 0x80), (0x88, 0xA0), (0xA8, 0x60)]

/-- The chain of superclasses of the type at `0x20`. -/
def circledChain : Nat → Address
  | 0 => 0x20
  | 1 => 0x40
  | further + 2 => if further % 3 = 0 then 0x60 else if further % 3 = 1 then 0x80 else 0xA0

theorem superclass?_circledChain (hops : Nat) :
    Metadata.superclass? ⟨Runtime.compact64.layout, circledMemory⟩ (circledChain hops) =
      some (circledChain (hops + 1)) ∧ circledChain (hops + 1) ≠ 0 := by
  have hPlace : hops = 0 ∨ hops = 1 ∨ ∃ further, hops = further + 2 ∧
      (further % 3 = 0 ∨ further % 3 = 1 ∨ further % 3 = 2) := by
    rcases hops with _ | _ | further
    · exact Or.inl rfl
    · exact Or.inr (Or.inl rfl)
    · exact Or.inr (Or.inr ⟨further, rfl, by omega⟩)
  rcases hPlace with rfl | rfl | ⟨further, rfl, hMod | hMod | hMod⟩
  · decide +kernel
  · decide +kernel
  all_goals
    have hNext : (further + 1) % 3 = (further % 3 + 1) % 3 := by omega
    simp only [circledChain, hNext, hMod]
    decide +kernel

theorem circledChain_circles :
    Metadata.Circles ⟨Runtime.compact64.layout, circledMemory⟩ 0x20 2 3 circledChain := by
  refine ⟨fun hops => ?_, by decide, by decide, by decide⟩
  induction hops with
  | zero => exact .zero 0x20
  | succ hops ih =>
      obtain ⟨hSuperclass, hNonnull⟩ := superclass?_circledChain hops
      exact ih.snoc hSuperclass hNonnull

theorem ancestors_of_fares_circled :
    let inspector : Inspector := ⟨Runtime.compact64.layout, .default⟩
    let visited := (inspector.ancestors 0x20).run circledMemory
    (inspector.metadata circledMemory).Fares 0x20 (.loop 2 3) ∧
      (visited.1.length, visited.2) = (6, some .cycle) := by
  intro inspector visited
  have fares : (inspector.metadata circledMemory).Fares 0x20 (.loop 2 3) :=
    ⟨circledChain, circledChain_circles⟩
  have hReach : Fate.reach 2 3 = 4 := by decide
  have hMet := (inspector.ancestors_of_fares circledMemory 0x20).2.2.2.1 _ fares
  rw [Fate.met, hReach] at hMet
  exact ⟨fares, hMet⟩

end Conformance
