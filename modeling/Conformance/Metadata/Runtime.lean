import Conformance.Metadata.Layout
import Conformance.Text.Blank
/-! The catalogue of known runtimes. Every entry is one release of an object model with the layout
that belongs to it; layouts of other runtimes are not guessed at. -/
namespace Conformance

/-- A runtime with a known layout. -/
inductive Runtime where
  /-- The second Objective-C runtime on 64-bit ARM. -/
  | objc2Arm64
  /-- The second Objective-C runtime on x86-64. -/
  | objc2X86_64
  /-- The compact layout with pointers of eight bytes. -/
  | compact64
  /-- The compact layout with pointers of four bytes. -/
  | compact32
deriving DecidableEq, Repr

/-- What is known of the machine that queries run on. -/
inductive Platform where
  | appleArm64
  | appleX86_64
  | other
deriving DecidableEq, Repr

namespace Runtime

/-- All runtimes, in the order in which they are listed. -/
def all : List Runtime := [.objc2Arm64, .objc2X86_64, .compact64, .compact32]

/-- The canonical name of a runtime. -/
def name : Runtime → String
  | .objc2Arm64 => "objc2-arm64"
  | .objc2X86_64 => "objc2-x86_64"
  | .compact64 => "compact64"
  | .compact32 => "compact32"

/-- The runtime of a canonical name, whatever the case of its ASCII letters. -/
def ofName? (text : List Char) : Option Runtime :=
  all.find? fun runtime => runtime.name.toList == text.map Char.toLower

/-- The runtime that is named exactly, without white space around the name. -/
def parse (text : String) : Except Error Runtime :=
  match ofName? text.toList with
  | some runtime => .ok runtime
  | none => .error .unmatchedName

/-- The runtime that is named, leaving out white space around the name. -/
def ofName (text : String) : Except Error Runtime :=
  match ofName? (Text.trim text.toList) with
  | some runtime => .ok runtime
  | none => .error (.unknownRuntime text)

/-- The runtime of a platform, if it is in the catalogue. -/
def detect? : Platform → Option Runtime
  | .appleArm64 => some .objc2Arm64
  | .appleX86_64 => some .objc2X86_64
  | .other => none

end Runtime

namespace Layout

/-- The layout of the second Objective-C runtime. Object headers and class data share their word
with flags; the read-write data of a class points at the read-only data directly or, with its low
bit set, at an extension whose first word is that pointer. -/
def objc2 (isaMask : UInt64) : Layout where
  pointerWidth := .eight
  order := .little
  pointerMask := 0x00007FFFFFFFFFFF
  objectType := .single (.masked 0 isaMask)
  superclass := .direct 8
  conformances := ⟨.masked 32 0x00007FFFFFFFFFF8, [.tagged 8 1, .direct 40], by decide⟩
  list := ⟨0, .eight, 8⟩
  record := ⟨8, 0, .inInterface 16⟩
  composition := none

/-- The compact layout. A type keeps its superclass and conformance list behind its first word,
and a record keeps a protocol and the list of protocols it incorporates side by side. -/
def compact (width : Width) : Layout where
  pointerWidth := width
  order := .native
  pointerMask := width.maxValue
  objectType := .direct 0
  superclass := .direct width.word
  conformances := .direct (2 * width.word)
  list := ⟨0, .four, width.word⟩
  record := ⟨2 * width.word, 0, .inRecord width.word⟩
  composition := some ⟨0, width.word, width.word + 4, width.word + 8, ~~~1⟩

end Layout

/-- The layout of a runtime. -/
def Runtime.layout : Runtime → Layout
  | .objc2Arm64 => .objc2 0x0000000FFFFFFFF8
  | .objc2X86_64 => .objc2 0x00007FFFFFFFFFF8
  | .compact64 => .compact .eight
  | .compact32 => .compact .four

end Conformance
