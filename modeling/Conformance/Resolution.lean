import Conformance.Limits
import Conformance.Metadata.Runtime
import Conformance.Text.Numeral
/-! Configuration, and the layout it selects. A configuration that cannot be understood never
selects a layout by guess: an unknown runtime name turns queries off, and a limit that is no
number is left at its default. -/
namespace Conformance

/-- How the runtime is chosen. -/
inductive Selection where
  /-- The runtime of the platform. -/
  | detect
  | fixed (runtime : Runtime)
  /-- None; every query answers no. -/
  | disabled
deriving DecidableEq, Repr

/-- The runtime to look for and the bounds to keep. -/
structure Config where
  selection : Selection
  limits : Limits
deriving DecidableEq, Repr

namespace Config

/-- Detection with default bounds. -/
def default : Config := ⟨.detect, .default⟩

/-- The variable that names the runtime. -/
def runtimeKey : String := "PROTOSCOPE_RUNTIME"

/-- The variable that bounds the superclass pointers. -/
def hopsKey : String := "PROTOSCOPE_MAX_HOPS"

/-- The variable that bounds the nesting of lists. -/
def depthKey : String := "PROTOSCOPE_MAX_DEPTH"

/-- The number that a variable's value is, leaving out white space around it. -/
def number? (value : Option String) : Option Nat := do
  let word ← Text.parseWord? 10 (Text.trim (← value).toList)
  pure word.toNat

/-- The selection that a variable's value makes. -/
def selectionOf : Option String → Selection
  | none => .detect
  | some name =>
      match Runtime.ofName name with
      | .ok runtime => .fixed runtime
      | .error _ => .disabled

/-- The configuration of an environment, which gives each variable's value if it is set. -/
def ofEnvironment (environment : String → Option String) : Config where
  selection := selectionOf (environment runtimeKey)
  limits :=
    let limits := match number? (environment hopsKey) with
      | some hops => Limits.default.withSuperclassHops hops
      | none => Limits.default
    match number? (environment depthKey) with
    | some depth => limits.withNestedDepth depth
    | none => limits

end Config

/-- Why no layout was selected. -/
inductive UnresolvedReason where
  | unknownRuntime
  | disabled
  | invalidLayout
deriving DecidableEq, Repr

/-- The wording of a reason. -/
def UnresolvedReason.text : UnresolvedReason → String
  | .unknownRuntime => "unknown host runtime"
  | .disabled => "disabled by configuration"
  | .invalidLayout => "layout failed validation"

/-- The outcome of looking for a layout. -/
inductive Resolution where
  | resolved (runtime : Runtime) (layout : Layout)
  | unresolved (reason : UnresolvedReason)
deriving DecidableEq, Repr

namespace Resolution

/-- The layout that was found. -/
def layout? : Resolution → Option Layout
  | .resolved _ layout => some layout
  | .unresolved _ => none

/-- The runtime that was found. -/
def runtime? : Resolution → Option Runtime
  | .resolved runtime _ => some runtime
  | .unresolved _ => none

/-- Why there is no layout, if there is none. -/
def reason? : Resolution → Option UnresolvedReason
  | .resolved _ _ => none
  | .unresolved reason => some reason

/-- Whether a layout was found. -/
def isResolved (resolution : Resolution) : Bool := resolution.layout?.isSome

/-- The layout of a runtime, unless it is inconsistent. -/
def ofRuntime (runtime : Runtime) : Resolution :=
  match runtime.layout.validate with
  | .ok () => .resolved runtime runtime.layout
  | .error _ => .unresolved .invalidLayout

/-- The layout that a selection leads to on a platform. -/
def ofSelection (platform : Platform) : Selection → Resolution
  | .fixed runtime => ofRuntime runtime
  | .detect =>
      match Runtime.detect? platform with
      | some runtime => ofRuntime runtime
      | none => .unresolved .unknownRuntime
  | .disabled => .unresolved .disabled

end Resolution

end Conformance
