/-! Metadata kinds and the flag words that go with them. -/
namespace Conformance

/-- The bits that qualify a metadata kind word. -/
inductive KindFlag where
  /-- The metadata is private to its runtime. -/
  | runtimePrivate
  /-- The metadata does not describe a heap-allocated type. -/
  | nonHeap
  /-- The metadata does not describe a type at all. -/
  | nonType
deriving DecidableEq, Repr

namespace KindFlag

/-- All flags, in the order in which they are listed. -/
def all : List KindFlag := [.runtimePrivate, .nonHeap, .nonType]

/-- The bit of a flag. -/
def bit : KindFlag → UInt64
  | .runtimePrivate => 0x100
  | .nonHeap => 0x200
  | .nonType => 0x400

/-- The name of a flag. -/
def name : KindFlag → String
  | .runtimePrivate => "RUNTIME_PRIVATE"
  | .nonHeap => "NON_HEAP"
  | .nonType => "NON_TYPE"

/-- The bits of all flags. -/
def mask : UInt64 := 0x700

/-- The flags that are set in a word. -/
def within (word : UInt64) : List KindFlag := all.filter fun flag => word &&& flag.bit != 0

end KindFlag

/-- What a piece of metadata describes. -/
inductive Kind where
  | struct
  | enum
  | optional
  | builtin
  | tuple
  | function
  /-- A protocol composition. -/
  | existential
  | metatype
  | objcClassWrapper
  | existentialMetatype
  | foreignClass
  | heapLocalVariable
  | heapGenericLocalVariable
  | errorObject
  | nativeClass
deriving DecidableEq, Repr

namespace Kind

/-- All kinds, in the order in which they are listed. -/
def all : List Kind :=
  [.struct, .enum, .optional, .builtin, .tuple, .function, .existential, .metatype,
    .objcClassWrapper, .existentialMetatype, .foreignClass, .heapLocalVariable,
    .heapGenericLocalVariable, .errorObject, .nativeClass]

/-- The name of a kind. -/
def name : Kind → String
  | .struct => "Struct"
  | .enum => "Enum"
  | .optional => "Optional"
  | .builtin => "Opaque"
  | .tuple => "Tuple"
  | .function => "Function"
  | .existential => "Existential"
  | .metatype => "Metatype"
  | .objcClassWrapper => "ObjCClassWrapper"
  | .existentialMetatype => "ExistentialMetatype"
  | .foreignClass => "ForeignClass"
  | .heapLocalVariable => "HeapLocalVariable"
  | .heapGenericLocalVariable => "HeapGenericLocalVariable"
  | .errorObject => "ErrorObject"
  | .nativeClass => "Class"

/-- The flag-qualified word of a kind. A native class has none, since its kind slot holds a
pointer. -/
def word : Kind → UInt64
  | .struct => 0x200
  | .enum => 0x201
  | .optional => 0x202
  | .foreignClass => 0x203
  | .builtin => 0x300
  | .tuple => 0x301
  | .function => 0x302
  | .existential => 0x303
  | .metatype => 0x304
  | .objcClassWrapper => 0x305
  | .existentialMetatype => 0x306
  | .heapLocalVariable => 0x400
  | .heapGenericLocalVariable => 0x500
  | .errorObject => 0x501
  | .nativeClass => 0

/-- The small number that older metadata uses for a kind. -/
def legacy? : Kind → Option UInt64
  | .struct => some 1
  | .enum => some 2
  | .optional => some 3
  | .builtin => some 8
  | .tuple => some 9
  | .function => some 10
  | .existential => some 12
  | .metatype => some 13
  | .objcClassWrapper => some 14
  | .existentialMetatype => some 15
  | .foreignClass => some 16
  | .heapLocalVariable => some 64
  | .heapGenericLocalVariable => some 65
  | .errorObject => some 128
  | .nativeClass => none

/-- The kind that a word stands for, by either of its numbers. Every other word is taken for the
pointer in the kind slot of a class. -/
def ofWord (word : UInt64) : Kind :=
  (all.find? fun kind => kind.word == word || kind.legacy? == some word).getD .nativeClass

/-- The flags of a kind. -/
def flags (kind : Kind) : List KindFlag := KindFlag.within kind.word

theorem ofWord_word (kind : Kind) : ofWord kind.word = kind := by
  cases kind <;> decide

end Kind

/-- The flags word of a protocol composition. -/
structure CompositionFlags where
  bits : UInt32
deriving DecidableEq, Repr

namespace CompositionFlags

/-- The composition is not constrained to class instances. -/
def anyObjectBit : UInt32 := 0x80000000

/-- A superclass constraint comes before the protocol references. -/
def superclassBit : UInt32 := 0x40000000

/-- The bits that identify a special protocol. -/
def specialMask : UInt32 := 0x3F000000

/-- The bits that count witness tables. -/
def witnessMask : UInt32 := 0x00FFFFFF

/-- Whether every bit of `mask` is set. -/
def hasAll (flags : CompositionFlags) (mask : UInt32) : Bool := flags.bits &&& mask == mask

/-- Whether some bit of `mask` is set. -/
def hasSome (flags : CompositionFlags) (mask : UInt32) : Bool := flags.bits &&& mask != 0

/-- Whether a superclass constraint comes before the protocol references. -/
def hasSuperclass (flags : CompositionFlags) : Bool := flags.hasAll superclassBit

end CompositionFlags

end Conformance
