import Conformance.Walk.Query
import Mathlib.Tactic.SplitIfs
/-! Refusals and what is made of them. A read that is refused, and an address that the address space
does not have, always shows in the result of the operation that met it, and nothing else looks the
same. Each operation of a query gives up at the first refusal, except where it has asked for a
second field in advance. -/
namespace Conformance

namespace Probe

variable {α β : Type}

/-- Something is refused in the course of a computation: a read, or an address for lack of room. -/
def Refuses (reader : Reader) (p : Probe α) : Prop :=
  ∃ event ∈ p.events reader, event.isRefusal = true

/-- The results of one kind are those of the runs in which something is refused. -/
def Tells (p : Probe α) (refused : α → Prop) : Prop :=
  ∀ reader, p.Refuses reader ↔ refused (p.run reader)

variable {refused : β → Prop}

theorem refuses_bind {reader : Reader} {p : Probe α} {f : α → Probe β} :
    (p >>= f).Refuses reader ↔ p.Refuses reader ∨ (f (p.run reader)).Refuses reader := by
  unfold Refuses
  simp only [events_bind, List.mem_append, or_and_right, exists_or]

theorem tells_pure {b : β} (hResult : ¬ refused b) : Tells (pure b) refused := by
  intro reader
  simp [Refuses, hResult]

/-- Where a first value is refused, the computation has to end as one that has met a refusal. -/
theorem tells_bind {p : Probe (Option α)} {f : Option α → Probe β} (tells : p.Tells (· = none))
    (hNone : ∀ reader, refused ((f none).run reader)) (hSome : ∀ a, (f (some a)).Tells refused) :
    (p >>= f).Tells refused := by
  intro reader
  rw [refuses_bind, tells reader, run_bind]
  cases p.run reader with
  | none => exact iff_of_true (Or.inl rfl) (hNone reader)
  | some a =>
      rw [or_iff_right (Option.some_ne_none a)]
      exact hSome a reader

theorem tells_fetch (position length : Nat) (decode : List UInt8 → α) :
    (fetch position length decode).Tells (· = none) := by
  intro reader
  unfold Refuses
  rw [events_fetch, run_fetch]
  cases Address.ofPosition? position with
  | none => simp [Event.isRefusal]
  | some address =>
      cases hAnswer : reader address length <;> simp [Event.isRefusal, hAnswer]

theorem tells_locate (position : Nat) : (locate position).Tells (· = none) := by
  intro reader
  unfold Refuses locate
  cases Address.ofPosition? position <;> simp [events, run, Event.isRefusal]

end Probe

namespace Layout

variable (layout : Layout) (base : Address)

theorem tells_readPointer (position : Nat) : (layout.readPointer position).Tells (· = none) :=
  Probe.tells_fetch _ _ _

theorem tells_readHop (hop : Hop) : (layout.readHop base hop).Tells (· = none) := by
  refine Probe.tells_bind (layout.tells_readPointer _) (fun _ => rfl) fun word => ?_
  dsimp only
  split_ifs
  · exact Probe.tells_pure nofun
  · exact layout.tells_readPointer _

theorem tells_followHops (hops : List Hop) : (layout.followHops base hops).Tells (· = none) := by
  induction hops generalizing base with
  | nil => exact Probe.tells_pure nofun
  | cons hop rest ih =>
      refine Probe.tells_bind (layout.tells_readHop base hop) (fun _ => rfl) fun next => ?_
      dsimp only
      split_ifs
      · exact Probe.tells_pure nofun
      · exact ih next

theorem tells_follow (path : Path) : (layout.follow base path).Tells (· = none) :=
  layout.tells_followHops base path.hops

end Layout

namespace Inspector

variable (inspector : Inspector)

theorem tells_typeOf (object : Address) :
    (inspector.typeOf object).Tells (· = .error .invalidRead) := by
  refine Probe.tells_bind (inspector.layout.tells_follow object _) (fun _ => rfl) fun type => ?_
  dsimp only
  split_ifs <;> exact Probe.tells_pure nofun

theorem tells_openList (list : Address) :
    (inspector.openList list).Tells (· = .refused .invalidRead) := by
  refine Probe.tells_bind (Probe.tells_fetch _ _ _) (fun _ => rfl) fun count => ?_
  dsimp only
  split_ifs <;> exact Probe.tells_pure nofun

theorem tells_inspect (target list : Address) (index : Nat) :
    (inspector.inspect target list index).Tells (· = .unreadable) := by
  have tellsPointer (position : Nat) := inspector.layout.tells_readPointer position
  refine Probe.tells_bind (tellsPointer _) (fun _ => rfl) fun interface => ?_
  dsimp only
  split_ifs
  · exact Probe.tells_pure nofun
  · exact Probe.tells_pure nofun
  · cases inspector.layout.nestedPosition? _ interface with
    | none => exact Probe.tells_pure nofun
    | some position =>
        refine Probe.tells_bind (tellsPointer position) (fun _ => rfl) fun nested => ?_
        dsimp only
        split_ifs <;> exact Probe.tells_pure nofun

/-- The flags and the count are both asked for before either is looked at. -/
theorem tells_readHeader (encoding : CompositionLayout) (composition : Address) :
    (inspector.readHeader encoding composition).Tells (· = .error .invalidRead) := by
  refine Probe.tells_bind (Probe.tells_fetch _ _ _) (fun _ => rfl) fun word => ?_
  dsimp only
  split_ifs
  · exact Probe.tells_pure nofun
  · refine Probe.tells_bind (Probe.tells_fetch _ _ _) (fun reader => ?_) fun flags =>
      Probe.tells_bind (Probe.tells_fetch _ _ _) (fun _ => rfl) fun count => ?_
    · rw [Probe.run_bind]
      rfl
    · dsimp only
      split_ifs <;> exact Probe.tells_pure nofun

end Inspector

end Conformance
