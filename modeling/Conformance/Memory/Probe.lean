import Conformance.Memory.Address
/-! Computations that read memory. A probe is the tree of everything a query may ask of memory; it
is run against a read primitive, and what it asked for on the way can be listed. Nothing is
assumed of the primitive: it may refuse any range and may answer with any bytes. -/
namespace Conformance

/-- A read primitive: the bytes of a range, or `none` if the range is not readable as a whole. -/
abbrev Reader := Address → Nat → Option (List UInt8)

/-- A computation over memory that is inspected through a read primitive. -/
inductive Probe (α : Type) where
  /-- The computation has ended. -/
  | done (result : α)
  /-- The computation asks for `length` bytes and goes on with the answer. -/
  | read (address : Address) (length : Nat) (next : Option (List UInt8) → Probe α)
  /-- An address computation has passed the end of the address space. -/
  | overrun (next : Probe α)

namespace Probe

variable {α β : Type}

/-- Continues a computation with its result. -/
protected def bind : Probe α → (α → Probe β) → Probe β
  | .done result, f => f result
  | .read address length next, f => .read address length fun answer => (next answer).bind f
  | .overrun next, f => .overrun (next.bind f)

instance : Monad Probe where
  pure := .done
  bind := Probe.bind

/-- The result against a read primitive. -/
def run (reader : Reader) : Probe α → α
  | .done result => result
  | .read address length next => run reader (next (reader address length))
  | .overrun next => run reader next

/-- What a computation did: a read with whether it was granted, or an address computation that
passed the end of the address space. -/
inductive Event where
  | read (address : Address) (length : Nat) (granted : Bool)
  | overrun
deriving DecidableEq, Repr

/-- The events of a computation against a read primitive, in order. -/
def events (reader : Reader) : Probe α → List Event
  | .done _ => []
  | .read address length next =>
      let answer := reader address length
      .read address length answer.isSome :: events reader (next answer)
  | .overrun next => .overrun :: events reader next

/-- Whether something was refused: a read, or an address for lack of room. -/
def Event.isRefusal : Event → Bool
  | .read _ _ granted => !granted
  | .overrun => true

/-- The computation with every read replaced by a computation that answers it. -/
def through (answering : Address → Nat → Probe (Option (List UInt8))) : Probe α → Probe α
  | .done result => .done result
  | .read address length next =>
      (answering address length).bind fun answer => (next answer).through answering
  | .overrun next => .overrun (next.through answering)

/-- Asks for one range. -/
def ask (address : Address) (length : Nat) : Probe (Option (List UInt8)) :=
  .read address length .done

/-- The address of a position, noting when there is none. -/
def locate (position : Nat) : Probe (Option Address) :=
  match Address.ofPosition? position with
  | some address => .done (some address)
  | none => .overrun (.done none)

/-- Asks for the bytes at a position and decodes them. A position beyond the address space is
refused without asking. -/
def fetch (position length : Nat) (decode : List UInt8 → α) : Probe (Option α) :=
  match Address.ofPosition? position with
  | some address => .read address length fun answer => .done (answer.map decode)
  | none => .overrun (.done none)

theorem bind_done (p : Probe α) : (p.bind fun a => .done a) = p := by
  induction p with
  | done result => rfl
  | read address length next ih => simp [Probe.bind, ih]
  | overrun next ih => simp [Probe.bind, ih]

theorem bind_bind {γ : Type} (p : Probe α) (f : α → Probe β) (g : β → Probe γ) :
    (p.bind f).bind g = p.bind fun a => (f a).bind g := by
  induction p with
  | done result => rfl
  | read address length next ih => simp [Probe.bind, ih]
  | overrun next ih => simp [Probe.bind, ih]

instance : LawfulMonad Probe :=
  LawfulMonad.mk' Probe bind_done (fun _ _ => rfl) bind_bind

@[simp] theorem run_pure (reader : Reader) (a : α) : run reader (pure a) = a := rfl

@[simp] theorem run_bind (reader : Reader) (p : Probe α) (f : α → Probe β) :
    run reader (p >>= f) = run reader (f (run reader p)) := by
  change run reader (p.bind f) = _
  induction p with
  | done result => rfl
  | read address length next ih => exact ih _
  | overrun next ih => exact ih

@[simp] theorem run_map (reader : Reader) (p : Probe α) (f : α → β) :
    run reader (f <$> p) = f (run reader p) := by
  rw [map_eq_pure_bind, run_bind, run_pure]

@[simp] theorem events_pure (reader : Reader) (a : α) : events reader (pure a) = [] := rfl

@[simp] theorem events_bind (reader : Reader) (p : Probe α) (f : α → Probe β) :
    events reader (p >>= f) = events reader p ++ events reader (f (run reader p)) := by
  change events reader (p.bind f) = _
  induction p with
  | done result => rfl
  | read address length next ih => simpa [Probe.bind, events, run] using ih _
  | overrun next ih => simpa [Probe.bind, events, run] using ih

@[simp] theorem run_ask (reader : Reader) (address : Address) (length : Nat) :
    run reader (ask address length) = reader address length := rfl

@[simp] theorem run_locate (reader : Reader) (position : Nat) :
    run reader (locate position) = Address.ofPosition? position := by
  unfold locate
  split <;> simp_all [run]

/-- Fetching is reading at the address of the position, if it has one, and decoding. -/
@[simp] theorem run_fetch (reader : Reader) (position length : Nat) (decode : List UInt8 → α) :
    run reader (fetch position length decode) =
      (Address.ofPosition? position).bind fun address => (reader address length).map decode := by
  unfold fetch
  cases Address.ofPosition? position <;> rfl

/-- Fetching asks once, or notes that the position has no address. -/
@[simp] theorem events_fetch (reader : Reader) (position length : Nat) (decode : List UInt8 → α) :
    events reader (fetch position length decode) =
      match Address.ofPosition? position with
      | some address => [.read address length (reader address length).isSome]
      | none => [.overrun] := by
  unfold fetch
  cases Address.ofPosition? position <;> rfl

@[simp] theorem events_map (reader : Reader) (p : Probe α) (f : α → β) :
    events reader (f <$> p) = events reader p := by
  rw [map_eq_pure_bind, events_bind, events_pure, List.append_nil]

/-- Answering reads by computations and running those is running against their results. -/
theorem run_through (reader : Reader)
    (answering : Address → Nat → Probe (Option (List UInt8))) (p : Probe α) :
    run reader (p.through answering) =
      run (fun address length => run reader (answering address length)) p := by
  induction p with
  | done result => rfl
  | read address length next ih =>
      have step := run_bind reader (answering address length)
        fun answer => (next answer).through answering
      exact step.trans (ih _)
  | overrun next ih => exact ih

end Probe

end Conformance
