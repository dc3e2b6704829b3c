import Conformance.Walk.Query
import Mathlib.Tactic.SplitIfs
/-! How much a computation asks of memory. The bounds hold whatever memory answers: they are read
off the tree of everything that may be asked. -/
namespace Conformance

namespace Probe

variable {α β : Type}

/-- A computation asks for at most a number of ranges, whatever it is answered. A range that has no
address counts as well. -/
inductive Asks : Nat → Probe α → Prop where
  | done (bound : Nat) (result : α) : Asks bound (.done result)
  | read {bound length : Nat} {address : Address} {next : Option (List UInt8) → Probe α}
      (rest : ∀ answer, Asks bound (next answer)) : Asks (bound + 1) (.read address length next)
  | overrun {bound : Nat} {next : Probe α} (rest : Asks bound next) :
      Asks (bound + 1) (.overrun next)

theorem Asks.mono {bound larger : Nat} {p : Probe α} (asks : p.Asks bound)
    (hBound : bound ≤ larger) : p.Asks larger := by
  induction asks generalizing larger with
  | done bound result => exact .done _ _
  | read rest ih =>
      obtain ⟨more, rfl⟩ := Nat.exists_eq_add_of_le' hBound
      exact .read fun answer => ih answer (Nat.le_add_left _ _)
  | overrun rest ih =>
      obtain ⟨more, rfl⟩ := Nat.exists_eq_add_of_le' hBound
      exact .overrun (ih (Nat.le_add_left _ _))

theorem asks_bind {first second : Nat} {p : Probe α} {f : α → Probe β} (asks : p.Asks first)
    (hNext : ∀ a, (f a).Asks second) : (p >>= f).Asks (second + first) := by
  change (p.bind f).Asks _
  induction asks with
  | done bound result => exact (hNext result).mono (Nat.le_add_right _ _)
  | read rest ih => exact .read ih
  | overrun rest ih => exact .overrun ih

theorem asks_fetch (position length : Nat) (decode : List UInt8 → α) :
    (fetch position length decode).Asks 1 := by
  unfold fetch
  cases Address.ofPosition? position with
  | none => exact .overrun (.done _ _)
  | some address => exact .read fun answer => .done _ _

theorem asks_locate (position : Nat) : (locate position).Asks 1 := by
  unfold locate
  cases Address.ofPosition? position with
  | none => exact .overrun (.done _ _)
  | some address => exact .done _ _

theorem Asks.length_events_le {bound : Nat} {p : Probe α} (asks : p.Asks bound) (reader : Reader) :
    (p.events reader).length ≤ bound := by
  induction asks with
  | done => exact Nat.zero_le _
  | read rest ih => exact Nat.succ_le_succ (ih _)
  | overrun rest ih => exact Nat.succ_le_succ ih

end Probe

namespace Layout

variable (layout : Layout) (base : Address)

theorem asks_readHop (hop : Hop) :
    (layout.readHop base hop).Asks 2 := by
  refine Probe.asks_bind (Probe.asks_fetch _ _ _) fun word => ?_
  cases word with
  | none => exact .done _ _
  | some word =>
      dsimp only
      split_ifs
      · exact .done _ _
      · exact Probe.asks_fetch _ _ _

/-- A hop costs a read, and another one where it leads through a wrapper. -/
theorem asks_followHops (hops : List Hop) :
    (layout.followHops base hops).Asks (2 * hops.length) := by
  induction hops generalizing base with
  | nil => exact .done _ _
  | cons hop rest ih =>
      refine Probe.asks_bind (layout.asks_readHop base hop) fun next => ?_
      cases next with
      | none => exact .done _ _
      | some next =>
          dsimp only
          split_ifs
          · exact .done _ _
          · exact ih next

theorem asks_follow (path : Path) :
    (layout.follow base path).Asks (2 * Path.maxHops) := by
  have hLength : path.hops.length ≤ Path.maxHops := path.length_le
  exact (layout.asks_followHops base path.hops).mono (Nat.mul_le_mul_left 2 hLength)

end Layout

namespace Inspector

variable (inspector : Inspector)

theorem asks_typeOf (object : Address) : (inspector.typeOf object).Asks (2 * Path.maxHops) := by
  rw [← Nat.zero_add (2 * Path.maxHops)]
  refine Probe.asks_bind (inspector.layout.asks_follow object _) fun type => ?_
  cases type with
  | none => exact .done _ _
  | some type =>
      dsimp only
      split_ifs <;> exact .done _ _

theorem asks_openList (list : Address) : (inspector.openList list).Asks 1 := by
  refine Probe.asks_bind (Probe.asks_fetch _ _ _) fun count => ?_
  cases count with
  | none => exact .done _ _
  | some count =>
      dsimp only
      split_ifs <;> exact .done _ _

theorem asks_inspect (target list : Address) (index : Nat) :
    (inspector.inspect target list index).Asks 2 := by
  refine Probe.asks_bind (Probe.asks_fetch _ _ _) fun interface => ?_
  cases interface with
  | none => exact .done _ _
  | some interface =>
      dsimp only
      split_ifs
      · exact .done _ _
      · exact .done _ _
      · cases inspector.layout.nestedPosition? _ interface with
        | none => exact .done _ _
        | some position =>
            refine Probe.asks_bind (Probe.asks_fetch _ _ _) fun nested => ?_
            cases nested with
            | none => exact .done _ _
            | some nested =>
                dsimp only
                split_ifs <;> exact .done _ _

theorem asks_readHeader (encoding : CompositionLayout) (composition : Address) :
    (inspector.readHeader encoding composition).Asks 3 := by
  refine Probe.asks_bind (Probe.asks_fetch _ _ _) fun word => ?_
  cases word with
  | none => exact .done _ _
  | some word =>
      dsimp only
      split_ifs
      · exact .done _ _
      · refine Probe.asks_bind (Probe.asks_fetch _ _ _) fun flags =>
          Probe.asks_bind (Probe.asks_fetch _ _ _) fun count => ?_
        cases flags <;> cases count
        · exact .done _ _
        · exact .done _ _
        · exact .done _ _
        · dsimp only
          split_ifs <;> exact .done _ _

end Inspector

end Conformance
