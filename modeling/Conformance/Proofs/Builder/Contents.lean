import Conformance.Builder.Basic
import Conformance.Metadata.Runtime
import Conformance.Proofs.ByteOrder
import Conformance.Proofs.Metadata
import Mathlib.Tactic.ByContra
/-! What is known of the bytes of a memory, and how fields are read from it. A field is stored as
the bytes that encode it; what a layout reads there is the value again, as long as the masks of the
layout leave the value alone. -/
namespace Conformance

/-- The bytes that are known of an address space, by position. -/
abbrev Contents := Nat → Option UInt8

namespace Contents

/-- Some bytes lie at a position, one after the other. -/
def Holds (contents : Contents) (position : Nat) (bytes : List UInt8) : Prop :=
  ∀ index < bytes.length, contents (position + index) = bytes[index]?

/-- Everything that is known of one memory is known of another one, and is the same. -/
def Within (part whole : Contents) : Prop :=
  ∀ position byte, part position = some byte → whole position = some byte

theorem Holds.mono {part whole : Contents} {position : Nat} {bytes : List UInt8}
    (holds : part.Holds position bytes) (within : part.Within whole) :
    whole.Holds position bytes := by
  intro index hIndex
  have hHere := holds index hIndex
  rw [List.getElem?_eq_getElem hIndex] at hHere ⊢
  exact within _ _ hHere

theorem Holds.unique {contents : Contents} {position : Nat} {first second : List UInt8}
    (left : contents.Holds position first) (right : contents.Holds position second)
    (hLength : first.length = second.length) : first = second := by
  apply List.ext_getElem?
  intro index
  by_cases hIndex : index < first.length
  · exact (left index hIndex).symm.trans (right index (hLength ▸ hIndex))
  · rw [List.getElem?_eq_none (by omega), List.getElem?_eq_none (by omega)]

end Contents

/-- A read primitive answers with what is known of a memory. -/
def Reader.Shows (reader : Reader) (contents : Contents) : Prop :=
  ∀ position bytes, bytes ≠ [] → contents.Holds position bytes →
    ∃ address, Address.ofPosition? position = some address ∧
      reader address bytes.length = some bytes

theorem Reader.Shows.run_fetch {reader : Reader} {contents : Contents} {α : Type} {position : Nat}
    {bytes : List UInt8} (shows : reader.Shows contents) (holds : contents.Holds position bytes)
    (hBytes : bytes ≠ []) (decode : List UInt8 → α) :
    (Probe.fetch position bytes.length decode).run reader = some (decode bytes) := by
  obtain ⟨address, hAddress, hRead⟩ := shows position bytes hBytes holds
  rw [Probe.run_fetch, hAddress, Option.bind_some, hRead]
  rfl

theorem Reader.Shows.mono {reader : Reader} {part whole : Contents} (shows : reader.Shows whole)
    (within : part.Within whole) : reader.Shows part := by
  intro position bytes hBytes holds
  exact shows position bytes hBytes (holds.mono within)

/-- A pointer without flags: a multiple of the block alignment that `bits` bits can hold. -/
structure Address.Plain (bits : Nat) (address : Address) : Prop where
  aligned : address.toNat % 16 = 0
  bound : address.toNat < 2 ^ bits

/-- A mask leaves plain pointers alone. -/
def Address.Keeps (bits : Nat) (mask : UInt64) : Prop :=
  ∀ address, Address.Plain bits address → address &&& mask = address

/-- A tag is on no plain pointer. -/
def Address.Avoids (bits : Nat) (tag : UInt64) : Prop :=
  ∀ address, Address.Plain bits address → address &&& tag = 0

namespace Address

theorem plain_zero (bits : Nat) : Plain bits 0 :=
  ⟨rfl, Nat.two_pow_pos bits⟩

/-- Where the bits of a multiple of `2 ^ low` below `2 ^ high` are. -/
theorem range_of_testBit {low high : Nat} {address : Address}
    (hAligned : address.toNat % 2 ^ low = 0) (hBound : address.toNat < 2 ^ high) {index : Nat}
    (hBit : address.toNat.testBit index = true) : low ≤ index ∧ index < high := by
  constructor
  · by_contra hLow
    have hMod : (address.toNat % 2 ^ low).testBit index = true := by
      rw [Nat.testBit_mod_two_pow, hBit, decide_eq_true (by omega : index < low)]
      rfl
    rw [hAligned, Nat.zero_testBit] at hMod
    cases hMod
  · by_contra hHigh
    have hSmall := Nat.lt_of_lt_of_le hBound (Nat.pow_le_pow_right (by decide)
      (Nat.le_of_not_lt hHigh) : 2 ^ high ≤ 2 ^ index)
    rw [Nat.testBit_lt_two_pow hSmall] at hBit
    cases hBit

theorem Plain.testBit {bits : Nat} {address : Address} (plain : Plain bits address) {index : Nat}
    (hBit : address.toNat.testBit index = true) : 4 ≤ index ∧ index < bits :=
  range_of_testBit plain.aligned plain.bound hBit

theorem keeps_of_testBit {bits : Nat} {mask : UInt64}
    (hMask : ∀ index < bits, 4 ≤ index → mask.toNat.testBit index = true) :
    Keeps bits mask := by
  intro address plain
  apply UInt64.toNat_inj.mp
  rw [UInt64.toNat_and]
  apply Nat.eq_of_testBit_eq
  intro index
  rw [Nat.testBit_and]
  cases hBit : address.toNat.testBit index with
  | false => rfl
  | true =>
      obtain ⟨hLow, hHigh⟩ := plain.testBit hBit
      rw [hMask index hHigh hLow]
      rfl

theorem avoids_of_testBit {bits : Nat} {tag : UInt64}
    (hTag : ∀ index < bits, 4 ≤ index → tag.toNat.testBit index = false) :
    Avoids bits tag := by
  intro address plain
  apply UInt64.toNat_inj.mp
  rw [UInt64.toNat_and]
  apply Nat.eq_of_testBit_eq
  intro index
  rw [Nat.testBit_and, UInt64.toNat_zero, Nat.zero_testBit]
  cases hBit : address.toNat.testBit index with
  | false => rfl
  | true =>
      obtain ⟨hLow, hHigh⟩ := plain.testBit hBit
      rw [hTag index hHigh hLow]
      rfl

end Address

/-- A hop whose field lies in the smallest block and leads to plain pointers as they are. -/
structure Hop.Regular (bits word : Nat) (hop : Hop) : Prop where
  mask : Address.Keeps bits hop.mask
  tag : Address.Avoids bits hop.tag
  offset : hop.offset.toNat + word ≤ 64

theorem Hop.regular_of_testBit {bits word : Nat} {hop : Hop}
    (hBits : ∀ index < bits, 4 ≤ index →
      hop.mask.toNat.testBit index = true ∧ hop.tag.toNat.testBit index = false)
    (hOffset : hop.offset.toNat + word ≤ 64) : hop.Regular bits word := by
  refine ⟨?_, ?_, hOffset⟩
  · exact Address.keeps_of_testBit fun index hHigh hLow => (hBits index hHigh hLow).1
  · exact Address.avoids_of_testBit fun index hHigh hLow => (hBits index hHigh hLow).2

/-- A layout that reads back what a builder lays out below `2 ^ bits`. The superclass of a type lies
in the type itself, before the field that leads to its conformance list. -/
structure Layout.Regular (layout : Layout) (bits : Nat) : Prop where
  width : bits ≤ 8 * layout.pointerWidth.bytes
  pointerMask : Address.Keeps bits layout.pointerMask
  objectType : ∀ hop ∈ layout.objectType.hops, hop.Regular bits layout.pointerWidth.bytes
  superclass : layout.superclass.later = [] ∧
    layout.superclass.first.Regular bits layout.pointerWidth.bytes
  conformances : ∀ hop ∈ layout.conformances.hops, hop.Regular bits layout.pointerWidth.bytes
  order : layout.superclass.first.offset.toNat + layout.pointerWidth.bytes ≤
    layout.conformances.first.offset.toNat
  count : layout.list.countOffset.toNat + layout.list.countWidth.bytes ≤
    layout.list.entriesOffset.toNat
  interface : layout.record.interfaceOffset.toNat + layout.pointerWidth.bytes ≤
    layout.record.stride.toNat
  nested : match layout.record.nested with
    | .absent => False
    | .inRecord offset =>
        layout.record.interfaceOffset.toNat + layout.pointerWidth.bytes ≤ offset.toNat ∧
          offset.toNat + layout.pointerWidth.bytes ≤ layout.record.stride.toNat
    | .inInterface offset => offset.toNat + layout.pointerWidth.bytes ≤ 64

namespace Layout

variable (layout : Layout) (contents : Contents)

/-- A pointer-sized word lies at a position. -/
def Stores (position : Nat) (value : Address) : Prop :=
  contents.Holds position (layout.order.encode layout.pointerWidth.bytes value.toNat)

/-- A record count lies at a position. -/
def Counts (position count : Nat) : Prop :=
  contents.Holds position (layout.order.encode layout.list.countWidth.bytes count)

/-- The pointers along some hops lead to a value, by blocks whose addresses are plain. -/
def Links (bits : Nat) : (base : Address) → Hop → List Hop → (value : Address) → Prop
  | base, hop, [], value => layout.Stores contents (Address.plus base hop.offset) value
  | base, hop, next :: rest, value =>
      ∃ block, block ≠ 0 ∧ Address.Plain bits block ∧
        layout.Stores contents (Address.plus base hop.offset) block ∧
        Links bits block next rest value

variable {layout contents}

theorem Stores.mono {whole : Contents} {position : Nat} {value : Address}
    (stores : layout.Stores contents position value) (within : contents.Within whole) :
    layout.Stores whole position value :=
  Contents.Holds.mono stores within

theorem Counts.mono {whole : Contents} {position count : Nat}
    (counts : layout.Counts contents position count) (within : contents.Within whole) :
    layout.Counts whole position count :=
  Contents.Holds.mono counts within

theorem Links.mono {whole : Contents} {bits : Nat} {base value : Address} {hop : Hop}
    {rest : List Hop} (links : layout.Links contents bits base hop rest value)
    (within : contents.Within whole) : layout.Links whole bits base hop rest value := by
  induction rest generalizing base hop with
  | nil => exact Stores.mono links within
  | cons next rest ih =>
      obtain ⟨block, hNonnull, plain, stores, links⟩ := links
      exact ⟨block, hNonnull, plain, stores.mono within, ih links⟩

variable {bits : Nat} {reader : Reader}

theorem encode_ne_nil (order : ByteOrder) (width : Width) (value : Nat) :
    order.encode width.bytes value ≠ [] := by
  intro hNil
  have hLength := order.length_encode width.bytes value
  rw [hNil] at hLength
  exact absurd hLength.symm (Nat.ne_of_gt width.bytes_pos)

theorem decodeWord_encode {width : Nat} {value : UInt64} (hValue : value.toNat < 256 ^ width) :
    layout.decodeWord (layout.order.encode width value.toNat) = value := by
  unfold decodeWord
  rw [ByteOrder.decode_encode, Nat.mod_eq_of_lt hValue]
  exact UInt64.ofNat_toNat

/-- A stored word is read back as it is. -/
theorem run_readWord (shows : reader.Shows contents) {position : Nat} {value : UInt64}
    (stores : layout.Stores contents position value)
    (hValue : value.toNat < 256 ^ layout.pointerWidth.bytes) :
    (layout.readWord position).run reader = some value := by
  have hFetch := shows.run_fetch stores (encode_ne_nil _ _ _) layout.decodeWord
  rw [ByteOrder.length_encode, decodeWord_encode hValue] at hFetch
  exact hFetch

/-- A stored word is read back, without the bits that no pointer has. -/
theorem run_readPointer (regular : layout.Regular bits) (shows : reader.Shows contents)
    {position : Nat} {value : Address} (stores : layout.Stores contents position value)
    (plain : Address.Plain bits value) :
    (layout.readPointer position).run reader = some value := by
  have hBound : value.toNat < 256 ^ layout.pointerWidth.bytes := by
    have hPow : (256 : Nat) ^ layout.pointerWidth.bytes = 2 ^ (8 * layout.pointerWidth.bytes) := by
      rw [Nat.pow_mul]
    rw [hPow]
    exact Nat.lt_of_lt_of_le plain.bound (Nat.pow_le_pow_right (by decide) regular.width)
  have hFetch := shows.run_fetch stores (encode_ne_nil _ _ _) fun bytes =>
    layout.decodeWord bytes &&& layout.pointerMask
  rw [ByteOrder.length_encode, decodeWord_encode hBound, regular.pointerMask value plain] at hFetch
  exact hFetch

theorem run_readCount (shows : reader.Shows contents) {position count : Nat}
    (counts : layout.Counts contents position count)
    (hCount : count < 256 ^ layout.list.countWidth.bytes) :
    ∃ word, (layout.readCount position).run reader = some word ∧ word.toNat = count := by
  have hFetch := shows.run_fetch counts (encode_ne_nil _ _ _) layout.decodeWord
  rw [ByteOrder.length_encode] at hFetch
  refine ⟨_, hFetch, ?_⟩
  have hSize : (256 : Nat) ^ layout.list.countWidth.bytes ≤ 2 ^ 64 := by
    cases layout.list.countWidth <;> decide
  unfold decodeWord
  rw [ByteOrder.decode_encode, Nat.mod_eq_of_lt hCount]
  exact UInt64.toNat_ofNat_of_lt (Nat.lt_of_lt_of_le hCount hSize)

theorem run_readHop (regular : layout.Regular bits) (shows : reader.Shows contents)
    {base value : Address} {hop : Hop} (hHop : hop.Regular bits layout.pointerWidth.bytes)
    (stores : layout.Stores contents (Address.plus base hop.offset) value)
    (plain : Address.Plain bits value) :
    (layout.readHop base hop).run reader = some value := by
  unfold readHop
  rw [Probe.run_bind, run_readPointer regular shows stores plain]
  dsimp only
  rw [if_pos (hHop.tag value plain), hHop.mask value plain]
  rfl

/-- Linked hops lead to the value that was linked. -/
theorem run_followHops (regular : layout.Regular bits) (shows : reader.Shows contents)
    {base value : Address} {hop : Hop} {rest : List Hop}
    (hHops : ∀ other ∈ hop :: rest, other.Regular bits layout.pointerWidth.bytes)
    (links : layout.Links contents bits base hop rest value) (plain : Address.Plain bits value) :
    (layout.followHops base (hop :: rest)).run reader = some value := by
  have hFirst := hHops hop List.mem_cons_self
  induction rest generalizing base hop with
  | nil =>
      rw [followHops, Probe.run_bind, run_readHop regular shows hFirst links plain]
      dsimp only
      split_ifs with hNull
      · rw [hNull]
        rfl
      · rfl
  | cons next rest ih =>
      obtain ⟨block, hNonnull, hBlock, stores, links⟩ := links
      have hRest := fun other h => hHops other (List.mem_cons_of_mem _ h)
      rw [followHops, Probe.run_bind, run_readHop regular shows hFirst stores hBlock]
      dsimp only
      rw [if_neg hNonnull]
      exact ih hRest links (hRest next List.mem_cons_self)

end Layout

/-- The bits of an address that all masks of a runtime keep. -/
def Runtime.addressBits : Runtime → Nat
  | .objc2Arm64 => 36
  | .objc2X86_64 => 47
  | .compact64 => 64
  | .compact32 => 32

/-- Every layout of the catalogue is regular. -/
theorem Runtime.regular (runtime : Runtime) : runtime.layout.Regular runtime.addressBits := by
  have hHops : ∀ path ∈ [runtime.layout.objectType, runtime.layout.superclass,
      runtime.layout.conformances], ∀ hop ∈ path.hops,
      (∀ index < runtime.addressBits, 4 ≤ index →
        hop.mask.toNat.testBit index = true ∧ hop.tag.toNat.testBit index = false) ∧
      hop.offset.toNat + runtime.layout.pointerWidth.bytes ≤ 64 := by
    cases runtime <;> decide
  have hRegular (path : Path) (hPath : path ∈ [runtime.layout.objectType,
      runtime.layout.superclass, runtime.layout.conformances]) (hop : Hop)
      (hHop : hop ∈ path.hops) :
      hop.Regular runtime.addressBits runtime.layout.pointerWidth.bytes := by
    obtain ⟨hBits, hOffset⟩ := hHops path hPath hop hHop
    exact Hop.regular_of_testBit hBits hOffset
  constructor
  case pointerMask =>
    apply Address.keeps_of_testBit
    cases runtime <;> decide
  case objectType => exact hRegular _ (by simp)
  case conformances => exact hRegular _ (by simp)
  case superclass =>
    refine ⟨?_, hRegular _ (by simp) _ List.mem_cons_self⟩
    cases runtime <;> rfl
  case nested =>
    cases runtime with
    | objc2Arm64 | objc2X86_64 => exact (by decide : (16 : UInt64).toNat + 8 ≤ 64)
    | compact64 | compact32 => exact ⟨by decide, by decide⟩
  all_goals cases runtime <;> decide

end Conformance
