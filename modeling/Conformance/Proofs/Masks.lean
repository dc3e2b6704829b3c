import Conformance.Proofs.Builder.Contents
/-! What masks leave of a pointer. A pointer that is loaded has the bits that its width and the
pointer mask leave, and a hop leads to null only where its own mask leaves none of them. -/
namespace Conformance

/-- A reader answers with as many bytes as it is asked for. -/
def Reader.Sized (reader : Reader) : Prop :=
  ∀ address length bytes, reader address length = some bytes → bytes.length = length

namespace Layout

variable (layout : Layout)

/-- The bits that are left of a pointer when it has been loaded. -/
def pointerBits : UInt64 := layout.pointerWidth.maxValue &&& layout.pointerMask

/-- Whatever memory holds, a hop leads to null or nowhere. -/
def Erases (hop : Hop) : Prop :=
  ∀ (reader : Reader) (base pointer : Address), reader.Sized →
    (layout.readHop base hop).run reader = some pointer → pointer = 0

/-- Whatever memory holds, a mask leaves nothing of a reference that was loaded. -/
def ErasesReference (mask : UInt64) : Prop :=
  ∀ (reader : Reader) (position : Nat) (reference : Address), reader.Sized →
    (layout.readPointer position).run reader = some reference → reference &&& mask = 0

/-- A memory that answers every read with the same number. -/
def uniform (value : UInt64) : Reader :=
  fun _ length => some (layout.order.encode length value.toNat)

variable {layout} {reader : Reader} {position : Nat} {word mask : UInt64}

theorem pointerBits_lt : layout.pointerBits.toNat < 256 ^ layout.pointerWidth.bytes := by
  have hMax : layout.pointerWidth.maxValue.toNat < 256 ^ layout.pointerWidth.bytes := by
    cases layout.pointerWidth <;> decide
  refine Nat.lt_of_le_of_lt ?_ hMax
  unfold pointerBits
  rw [UInt64.toNat_and]
  exact Nat.and_le_left

/-- A loaded pointer has no bits but those that the layout leaves. -/
theorem and_pointerBits (hReader : reader.Sized)
    (hRead : (layout.readPointer position).run reader = some word) :
    word &&& layout.pointerBits = word := by
  unfold readPointer at hRead
  rw [Probe.run_fetch] at hRead
  obtain ⟨address, -, hRead⟩ := Option.bind_eq_some_iff.mp hRead
  obtain ⟨bytes, hBytes, rfl⟩ := Option.map_eq_some_iff.mp hRead
  have hDecode := layout.order.decode_lt bytes
  rw [hReader _ _ _ hBytes] at hDecode
  have hWord : layout.decodeWord bytes &&& layout.pointerWidth.maxValue =
      layout.decodeWord bytes := by
    have hPower : layout.pointerWidth.maxValue.toNat = 2 ^ (8 * layout.pointerWidth.bytes) - 1 := by
      cases layout.pointerWidth <;> rfl
    have hSmall : (layout.decodeWord bytes).toNat < 2 ^ (8 * layout.pointerWidth.bytes) := by
      rw [Nat.pow_mul]
      exact Nat.lt_of_le_of_lt (Nat.mod_le _ _) hDecode
    apply UInt64.toNat_inj.mp
    rw [UInt64.toNat_and, hPower, Nat.and_two_pow_sub_one_of_lt_two_pow hSmall]
  unfold pointerBits
  rw [← UInt64.and_assoc, UInt64.and_assoc _ layout.pointerMask, UInt64.and_comm layout.pointerMask,
    ← UInt64.and_assoc, hWord, UInt64.and_assoc, UInt64.and_self]

/-- Bits that are not left of any pointer are not in a loaded one. -/
theorem and_eq_zero (hReader : reader.Sized)
    (hRead : (layout.readPointer position).run reader = some word)
    (hMask : layout.pointerBits &&& mask = 0) : word &&& mask = 0 := by
  rw [← and_pointerBits hReader hRead, UInt64.and_assoc, hMask, UInt64.and_zero]

theorem sized_uniform (value : UInt64) : Reader.Sized (layout.uniform value) := by
  intro address length bytes hBytes
  obtain rfl := Option.some.inj hBytes
  exact ByteOrder.length_encode _ _ _

/-- A pointer that has all the bits that are left of any can be loaded. -/
theorem run_readPointer_uniform (hPosition : position < UInt64.size) :
    (layout.readPointer position).run (layout.uniform layout.pointerBits) =
      some layout.pointerBits := by
  have hAddress : position.toUInt64.toNat = position := UInt64.toNat_ofNat_of_lt hPosition
  unfold readPointer
  rw [Probe.run_fetch, Address.ofPosition?_eq_some_iff.mpr hAddress.symm, Option.bind_some]
  unfold uniform
  rw [Option.map_some, decodeWord_encode pointerBits_lt]
  unfold pointerBits
  rw [UInt64.and_assoc, UInt64.and_self]

theorem erasesReference_iff : layout.ErasesReference mask ↔ layout.pointerBits &&& mask = 0 := by
  constructor
  · intro erases
    exact erases _ 0 _ (sized_uniform _) (run_readPointer_uniform (by decide))
  · intro hMask reader position reference hReader hRead
    exact and_eq_zero hReader hRead hMask

theorem run_readHop_eq {base : Address} {hop : Hop} :
    (layout.readHop base hop).run reader =
      ((layout.readPointer (Address.plus base hop.offset)).run reader).bind fun word =>
        if word &&& hop.tag = 0 then some (word &&& hop.mask)
        else (layout.readPointer (word &&& hop.mask).toNat).run reader := by
  unfold readHop
  rw [Probe.run_bind]
  cases (layout.readPointer (Address.plus base hop.offset)).run reader with
  | none => rfl
  | some word =>
      dsimp only [Option.bind_some]
      split_ifs <;> rfl

/-- A hop leads to null only if its masks leave nothing of a pointer and no pointer has its tag, so
that it never goes through a wrapper. -/
theorem erases_iff {hop : Hop} : layout.Erases hop ↔
    layout.pointerBits &&& hop.mask = 0 ∧ layout.pointerBits &&& hop.tag = 0 := by
  constructor
  · intro erases
    have hFirst : Address.plus 0 hop.offset < UInt64.size := by
      unfold Address.plus
      rw [UInt64.toNat_zero, Nat.zero_add]
      exact hop.offset.toNat_lt_size
    have hHop := @run_readHop_eq layout (layout.uniform layout.pointerBits) 0 hop
    rw [run_readPointer_uniform hFirst, Option.bind_some] at hHop
    split_ifs at hHop with hTag
    · exact ⟨erases _ _ _ (sized_uniform _) hHop, hTag⟩
    · -- A wrapper is entered, and its first word has a bit.
      rw [run_readPointer_uniform (UInt64.toNat_lt_size _)] at hHop
      rw [erases _ _ _ (sized_uniform _) hHop, UInt64.zero_and] at hTag
      exact absurd rfl hTag
  · intro h reader base pointer hReader hRead
    obtain ⟨hMask, hTag⟩ := h
    rw [run_readHop_eq] at hRead
    obtain ⟨word, hWord, hPointer⟩ := Option.bind_eq_some_iff.mp hRead
    rw [if_pos (and_eq_zero hReader hWord hTag)] at hPointer
    exact Option.some.inj hPointer ▸ and_eq_zero hReader hWord hMask

end Layout

end Conformance
