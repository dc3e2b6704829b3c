/-! Irregularities that a query meets, and its answer. An anomaly never changes the meaning of an
answer: a match that was found stands whatever else went wrong. -/
namespace Conformance

/-- An irregularity met while a query is answered. -/
inductive Anomaly where
  /-- An object, type, protocol or composition address was null. -/
  | nullAddress
  /-- There was no layout to read by. -/
  | unresolved
  /-- A read was refused, or an address passed the end of the address space. -/
  | invalidRead
  /-- An object had no type. -/
  | nullType
  /-- The superclass chain was longer than allowed. -/
  | hopLimit
  /-- The superclass chain led back onto itself. -/
  | cycle
  /-- Lists were nested deeper than allowed. -/
  | depthLimit
  /-- A list declared more records than allowed. -/
  | listTooLong
  /-- The records allowed for the query ran out. -/
  | budgetExhausted
  /-- The metadata was no composition, or the runtime has none. -/
  | notAComposition
deriving DecidableEq, Repr

namespace Anomaly

/-- All anomalies, in the order in which they are listed. -/
def all : List Anomaly :=
  [.nullAddress, .unresolved, .invalidRead, .nullType, .hopLimit, .cycle, .depthLimit,
    .listTooLong, .budgetExhausted, .notAComposition]

/-- The name of an anomaly. -/
def name : Anomaly → String
  | .nullAddress => "NULL_ADDRESS"
  | .unresolved => "UNRESOLVED"
  | .invalidRead => "INVALID_READ"
  | .nullType => "NULL_TYPE"
  | .hopLimit => "HOP_LIMIT"
  | .cycle => "CYCLE"
  | .depthLimit => "DEPTH_LIMIT"
  | .listTooLong => "LIST_TOO_LONG"
  | .budgetExhausted => "BUDGET_EXHAUSTED"
  | .notAComposition => "NOT_A_COMPOSITION"

/-- The place of an anomaly in the list of all. -/
def index : Anomaly → Fin 10
  | .nullAddress => 0
  | .unresolved => 1
  | .invalidRead => 2
  | .nullType => 3
  | .hopLimit => 4
  | .cycle => 5
  | .depthLimit => 6
  | .listTooLong => 7
  | .budgetExhausted => 8
  | .notAComposition => 9

/-- The bit of an anomaly in a set. -/
def bit : Anomaly → BitVec 10
  | .nullAddress => 0x001
  | .unresolved => 0x002
  | .invalidRead => 0x004
  | .nullType => 0x008
  | .hopLimit => 0x010
  | .cycle => 0x020
  | .depthLimit => 0x040
  | .listTooLong => 0x080
  | .budgetExhausted => 0x100
  | .notAComposition => 0x200

theorem bit_eq_twoPow (anomaly : Anomaly) : anomaly.bit = BitVec.twoPow 10 anomaly.index := by
  cases anomaly <;> rfl

theorem index_injective {a b : Anomaly} (same : a.index = b.index) : a = b := by
  revert same
  cases a <;> cases b <;> decide

theorem exists_index (i : Fin 10) : ∃ a : Anomaly, a.index = i := by
  have every : ∀ i : Fin 10, ∃ a ∈ all, a.index = i := by decide
  obtain ⟨a, _, found⟩ := every i
  exact ⟨a, found⟩

end Anomaly

/-- A set of anomalies, with one bit for each. -/
structure Anomalies where
  bits : BitVec 10
deriving DecidableEq, Repr

namespace Anomalies

instance : Membership Anomaly Anomalies where
  mem set anomaly := set.bits.getLsbD anomaly.index = true

instance (anomaly : Anomaly) (set : Anomalies) : Decidable (anomaly ∈ set) :=
  inferInstanceAs (Decidable (_ = true))

/-- The set without any anomaly. -/
def none : Anomalies := ⟨0⟩

/-- The set with one more anomaly. -/
def insert (anomaly : Anomaly) (set : Anomalies) : Anomalies :=
  ⟨set.bits ||| anomaly.bit⟩

/-- The set of one anomaly. -/
def only (anomaly : Anomaly) : Anomalies := insert anomaly none

/-- The anomalies of a set, in the order in which all are listed. -/
def toList (set : Anomalies) : List Anomaly := Anomaly.all.filter (· ∈ set)

/-- Whether a set is empty. -/
def isNone (set : Anomalies) : Bool := set.bits == 0

theorem mem_def {anomaly : Anomaly} {set : Anomalies} :
    anomaly ∈ set ↔ set.bits.getLsbD anomaly.index = true := Iff.rfl

@[ext] theorem ext {s t : Anomalies} (same : ∀ anomaly, anomaly ∈ s ↔ anomaly ∈ t) : s = t := by
  have bitsEq : s.bits = t.bits := by
    apply BitVec.eq_of_getLsbD_eq
    intro i bound
    obtain ⟨anomaly, found⟩ := Anomaly.exists_index ⟨i, bound⟩
    have here := same anomaly
    rw [mem_def, mem_def, found] at here
    exact Bool.eq_iff_iff.mpr here
  cases s
  cases t
  exact congrArg _ bitsEq

@[simp] theorem not_mem_none (anomaly : Anomaly) : anomaly ∉ none := by
  rw [mem_def]
  simp [none]

@[simp] theorem mem_insert {a b : Anomaly} {set : Anomalies} :
    a ∈ insert b set ↔ a = b ∨ a ∈ set := by
  have sameIndex : a.index = b.index ↔ a = b :=
    ⟨Anomaly.index_injective, fun e => congrArg _ e⟩
  rw [mem_def, mem_def]
  simp only [insert, Anomaly.bit_eq_twoPow, BitVec.getLsbD_or, BitVec.getLsbD_twoPow,
    Bool.or_eq_true, Bool.and_eq_true, decide_eq_true_eq, Fin.val_inj, b.index.isLt, true_and]
  rw [@eq_comm _ b.index, sameIndex]
  exact or_comm

@[simp] theorem mem_only {a b : Anomaly} : a ∈ only b ↔ a = b := by
  simp [only]

end Anomalies

/-- The answer to a query, with the irregularities met on the way. -/
structure Verdict where
  conforms : Bool
  anomalies : Anomalies
deriving DecidableEq, Repr

namespace Verdict

/-- A no for one reason alone. -/
def rejected (anomaly : Anomaly) : Verdict := ⟨false, .only anomaly⟩

/-- Whether no irregularity was met. -/
def isClean (verdict : Verdict) : Bool := verdict.anomalies.isNone

end Verdict

end Conformance
