import Conformance.Proofs.Bounds
import Mathlib.Data.Fintype.EquivFin
import Mathlib.Data.Nat.Log
/-! What a climb makes of a superclass chain. A chain that nothing cuts off comes to a null
superclass, comes to one that cannot be read, or goes round in a circle. Which of these a climb
meets, and after how many types, follows from the shape of the chain and from the number of
superclass pointers that may be followed. -/
namespace Conformance

namespace Metadata

variable {metadata : Metadata} {start type other last : Address} {hops more : Nat}

theorem Ascends.unique (first : metadata.Ascends hops start type)
    (second : metadata.Ascends hops start other) : type = other := by
  induction first with
  | zero =>
      cases second
      rfl
  | succ hSuperclass _ _ ih =>
      cases second with
      | succ hOther _ rest =>
          obtain rfl := Option.some.inj (hSuperclass.symm.trans hOther)
          exact ih rest

theorem Ascends.snoc (ascent : metadata.Ascends hops start type)
    (hSuperclass : metadata.superclass? type = some other) (hNonnull : other ≠ 0) :
    metadata.Ascends (hops + 1) start other := by
  induction ascent with
  | zero => exact .succ hSuperclass hNonnull (.zero other)
  | succ first hFirst _ ih => exact .succ first hFirst (ih hSuperclass)

/-- A longer way up passes through where a shorter one ends. -/
theorem Ascends.drop (ascent : metadata.Ascends hops start type)
    (longer : metadata.Ascends (hops + more) start other) : metadata.Ascends more type other := by
  induction ascent with
  | zero => rwa [Nat.zero_add] at longer
  | succ hSuperclass _ _ ih =>
      rw [Nat.add_right_comm] at longer
      cases longer with
      | succ hFirst _ rest =>
          obtain rfl := Option.some.inj (hSuperclass.symm.trans hFirst)
          exact ih rest

variable (metadata) in
/-- No superclass can be followed from a type: it is null, or it cannot be read. -/
def Stops (type : Address) : Prop :=
  ∀ superclass, metadata.superclass? type = some superclass → superclass = 0

theorem Ascends.le_of_stops (ascent : metadata.Ascends hops start last)
    (stops : metadata.Stops last) (further : metadata.Ascends more start type) : more ≤ hops := by
  by_contra hMore
  obtain ⟨rest, rfl⟩ := Nat.exists_eq_add_of_lt (Nat.not_le.mp hMore)
  rw [Nat.add_assoc] at further
  cases ascent.drop further with
  | succ hSuperclass hNonnull _ => exact hNonnull (stops _ hSuperclass)

/-- A chain that comes to an end does not come by a type twice. -/
theorem Ascends.eq_of_stops {first second : Nat} (ascent : metadata.Ascends hops start last)
    (stops : metadata.Stops last) (once : metadata.Ascends first start type)
    (again : metadata.Ascends second start type) : first = second := by
  obtain ⟨left, rfl⟩ := Nat.exists_eq_add_of_le (ascent.le_of_stops stops once)
  obtain ⟨rest, hRest⟩ := Nat.exists_eq_add_of_le (ascent.le_of_stops stops again)
  have upOnce : metadata.Ascends left type last := once.drop ascent
  have upAgain : metadata.Ascends rest type last := again.drop (hRest ▸ ascent)
  have hLeft : rest ≤ left := upOnce.le_of_stops stops upAgain
  have hRight : left ≤ rest := upAgain.le_of_stops stops upOnce
  omega

/-- A chain that never ends: after `tail` types it comes to a circle of `period` types, all of them
different. -/
structure Circles (metadata : Metadata) (start : Address) (tail period : Nat)
    (chain : Nat → Address) : Prop where
  ascends : ∀ hops, metadata.Ascends hops start (chain hops)
  pos : 0 < period
  closes : chain (tail + period) = chain tail
  apart : ∀ i < tail + period, ∀ j < tail + period, chain i = chain j → i = j

namespace Circles

variable {tail period : Nat} {chain : Nat → Address}

theorem add_period (circles : metadata.Circles start tail period chain) {i : Nat}
    (hTail : tail ≤ i) : chain (i + period) = chain i := by
  obtain ⟨further, rfl⟩ := Nat.exists_eq_add_of_le hTail
  have once : metadata.Ascends further (chain tail) (chain (tail + further)) :=
    (circles.ascends tail).drop (circles.ascends (tail + further))
  have round : metadata.Ascends further (chain (tail + period))
      (chain (tail + period + further)) :=
    (circles.ascends (tail + period)).drop (circles.ascends (tail + period + further))
  rw [circles.closes] at round
  rw [Nat.add_right_comm]
  exact round.unique once

/-- A type that is met again lies on the circle, and at least one round lies in between. -/
theorem le_of_eq (circles : metadata.Circles start tail period chain) {i j : Nat} (hOrder : i < j)
    (hSame : chain i = chain j) : tail ≤ i ∧ i + period ≤ j := by
  induction j using Nat.strong_induction_on generalizing i with
  | _ j ih =>
      by_cases hFirst : j < tail + period
      · have := circles.apart i (Nat.lt_trans hOrder hFirst) j hFirst hSame
        omega
      · have hPos := circles.pos
        -- One round earlier the same type is met, before `i`, at `i` or after it.
        obtain ⟨earlier, rfl⟩ := Nat.exists_eq_add_of_le' (show period ≤ j by omega)
        rw [circles.add_period (show tail ≤ earlier by omega)] at hSame
        rcases Nat.lt_trichotomy i earlier with hBefore | rfl | hAfter
        · have := ih earlier (by omega) hBefore hSame
          omega
        · omega
        · have := ih i hOrder hAfter hSame.symm
          omega

end Circles

end Metadata

/-- What becomes of a superclass chain that nothing cuts off. -/
inductive Fate where
  /-- After `length` superclasses there is a null one. -/
  | root (length : Nat)
  /-- After `length` superclasses there is one that cannot be read. -/
  | broken (length : Nat)
  /-- After `tail` superclasses there are `period` ones that come again and again. -/
  | loop (tail period : Nat)

namespace Fate

/-- The reach that a marker has when it is met on a circle: the least power of two that is more than
the tail and no less than the period. -/
def reach (tail period : Nat) : Nat := 2 ^ Nat.clog 2 (max (tail + 1) period)

theorem isLeast_reach (tail period : Nat) :
    IsLeast {reach | (∃ exponent, reach = 2 ^ exponent) ∧ tail + 1 ≤ reach ∧ period ≤ reach}
      (reach tail period) := by
  constructor
  · have hReach := Nat.le_pow_clog Nat.one_lt_two (max (tail + 1) period)
    exact ⟨⟨_, rfl⟩, max_le_iff.mp hReach⟩
  · rintro other ⟨⟨exponent, rfl⟩, hTail, hPeriod⟩
    have hClog : Nat.clog 2 (max (tail + 1) period) ≤ exponent :=
      Nat.clog_le_of_le_pow (max_le hTail hPeriod)
    exact Nat.pow_le_pow_right Nat.two_pos hClog

/-- What a climb that may follow `hops` superclass pointers makes of a chain: how many types it
visits, and why it gives the chain up. -/
def met (hops : Nat) : Fate → Nat × Option Anomaly
  | .root length =>
      if length ≤ hops then (length + 1, none) else (hops + 1, some .hopLimit)
  | .broken length =>
      if length ≤ hops then (length + 1, some .invalidRead) else (hops + 1, some .hopLimit)
  | .loop tail period =>
      if reach tail period - 1 + period ≤ hops then
        (reach tail period - 1 + period, some .cycle)
      else (hops + 1, some .hopLimit)

end Fate

namespace Metadata

variable {metadata : Metadata} {start type last : Address}

variable (metadata) in
/-- After `length` superclasses a chain comes to a type whose superclass reads as `answer`. -/
def Ends (start : Address) (length : Nat) (answer : Option Address) : Prop :=
  ∃ last, metadata.Ascends length start last ∧ metadata.superclass? last = answer

variable (metadata) in
/-- The chain of superclasses of a type has a fate. -/
def Fares (start : Address) : Fate → Prop
  | .root length => metadata.Ends start length (some 0)
  | .broken length => metadata.Ends start length none
  | .loop tail period => ∃ chain, metadata.Circles start tail period chain

theorem stops_of_answer {answer : Option Address} (hSuperclass : metadata.superclass? last = answer)
    (hAnswer : ∀ superclass ∈ answer, superclass = 0) : metadata.Stops last :=
  fun superclass hFound => hAnswer superclass (hSuperclass.symm.trans hFound)

/-- A chain comes to an end in one way only. -/
theorem Ends.unique {first second : Nat} {answer other : Option Address}
    (ends : metadata.Ends start first answer) (endsOther : metadata.Ends start second other)
    (hAnswer : ∀ superclass ∈ answer, superclass = 0)
    (hOther : ∀ superclass ∈ other, superclass = 0) : first = second ∧ answer = other := by
  obtain ⟨last, ascent, hSuperclass⟩ := ends
  obtain ⟨last', ascent', hSuperclass'⟩ := endsOther
  have hFirst : second ≤ first :=
    ascent.le_of_stops (stops_of_answer hSuperclass hAnswer) ascent'
  have hSecond : first ≤ second :=
    ascent'.le_of_stops (stops_of_answer hSuperclass' hOther) ascent
  obtain rfl := Nat.le_antisymm hSecond hFirst
  obtain rfl := ascent.unique ascent'
  exact ⟨rfl, hSuperclass.symm.trans hSuperclass'⟩

/-- A chain that goes round in a circle does not come to an end. -/
theorem Circles.not_ends {tail period length : Nat} {chain : Nat → Address}
    {answer : Option Address} (circles : metadata.Circles start tail period chain)
    (hAnswer : ∀ superclass ∈ answer, superclass = 0) : ¬ metadata.Ends start length answer := by
  intro ends
  obtain ⟨last, ascent, hSuperclass⟩ := ends
  have := ascent.le_of_stops (stops_of_answer hSuperclass hAnswer) (circles.ascends (length + 1))
  omega

/-- Two circles of one chain are the same circle. -/
theorem Circles.unique {tail period tail' period' : Nat} {chain chain' : Nat → Address}
    (circles : metadata.Circles start tail period chain)
    (circles' : metadata.Circles start tail' period' chain') : tail = tail' ∧ period = period' := by
  obtain rfl : chain = chain' :=
    funext fun hops => (circles.ascends hops).unique (circles'.ascends hops)
  have hFirst := circles.le_of_eq (Nat.lt_add_of_pos_right circles'.pos) circles'.closes.symm
  have hSecond := circles'.le_of_eq (Nat.lt_add_of_pos_right circles.pos) circles.closes.symm
  omega

theorem Fares.unique {fate other : Fate} (fares : metadata.Fares start fate)
    (faresOther : metadata.Fares start other) : fate = other := by
  have hNull : ∀ superclass ∈ some (0 : Address), superclass = 0 := by simp
  have hNone : ∀ superclass ∈ (none : Option Address), superclass = 0 := nofun
  cases fate with
  | root length =>
      cases other with
      | root => rw [(Ends.unique fares faresOther hNull hNull).1]
      | broken => cases (Ends.unique fares faresOther hNull hNone).2
      | loop =>
          obtain ⟨chain, circles⟩ := faresOther
          exact absurd fares (circles.not_ends hNull)
  | broken length =>
      cases other with
      | root => cases (Ends.unique fares faresOther hNone hNull).2
      | broken => rw [(Ends.unique fares faresOther hNone hNone).1]
      | loop =>
          obtain ⟨chain, circles⟩ := faresOther
          exact absurd fares (circles.not_ends hNone)
  | loop tail period =>
      obtain ⟨chain, circles⟩ := fares
      cases other with
      | root => exact absurd faresOther (circles.not_ends hNull)
      | broken => exact absurd faresOther (circles.not_ends hNone)
      | loop tail' period' =>
          obtain ⟨chain', circles'⟩ := faresOther
          obtain ⟨rfl, rfl⟩ := circles.unique circles'
          rfl

/-- There are finitely many addresses, so a chain that never ends comes by one of them twice. -/
theorem exists_circles {chain : Nat → Address}
    (ascends : ∀ hops, metadata.Ascends hops start (chain hops)) :
    ∃ tail period, metadata.Circles start tail period chain := by
  classical
  have hFinite : Finite Address := Finite.of_injective UInt64.toFin fun _ _ => UInt64.toFin_inj.mp
  obtain ⟨a, b, hSame, hOther⟩ :=
    Function.not_injective_iff.mp (not_injective_infinite_finite chain)
  have hMeets : ∃ j, ∃ i < j, chain i = chain j := by
    rcases Nat.lt_or_gt_of_ne hOther with hOrder | hOrder
    · exact ⟨b, a, hOrder, hSame⟩
    · exact ⟨a, b, hOrder, hSame.symm⟩
  obtain ⟨i, hOrder, hFound⟩ := Nat.find_spec hMeets
  obtain ⟨period, hPeriod⟩ := Nat.exists_eq_add_of_lt hOrder
  have hSum : i + (period + 1) = Nat.find hMeets := hPeriod.symm
  refine ⟨i, period + 1, ascends, Nat.succ_pos _, ?_, ?_⟩
  · rw [hSum]
    exact hFound.symm
  · intro m hm n hn hChain
    rw [hSum] at hm hn
    by_contra hDifferent
    rcases Nat.lt_or_gt_of_ne hDifferent with h | h
    · exact Nat.find_min hMeets hn ⟨m, h, hChain⟩
    · exact Nat.find_min hMeets hm ⟨n, h, hChain.symm⟩

/-- Every chain has a fate. -/
theorem exists_fares (start : Address) : ∃ fate, metadata.Fares start fate := by
  by_cases hEnds : ∃ hops last, metadata.Ascends hops start last ∧ metadata.Stops last
  · obtain ⟨hops, last, ascent, stops⟩ := hEnds
    cases hSuperclass : metadata.superclass? last with
    | none => exact ⟨.broken hops, last, ascent, hSuperclass⟩
    | some superclass =>
        obtain rfl := stops superclass hSuperclass
        exact ⟨.root hops, last, ascent, hSuperclass⟩
  · have hGoesOn (hops : Nat) : ∃ type, metadata.Ascends hops start type := by
      induction hops with
      | zero => exact ⟨start, .zero start⟩
      | succ hops ih =>
          obtain ⟨type, ascent⟩ := ih
          have hNext : ¬ metadata.Stops type := fun stops => hEnds ⟨hops, type, ascent, stops⟩
          obtain ⟨superclass, hRest⟩ := not_forall.mp hNext
          obtain ⟨hSuperclass, hNonnull⟩ := Classical.not_imp.mp hRest
          exact ⟨superclass, ascent.snoc hSuperclass hNonnull⟩
    choose chain ascends using hGoesOn
    obtain ⟨tail, period, circles⟩ := exists_circles ascends
    exact ⟨.loop tail period, chain, circles⟩

end Metadata

end Conformance
