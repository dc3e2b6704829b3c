import Conformance.Proofs.Builder.Steps
import Conformance.Walk.Records
/-! Fields at the end of a path, and lists. What is laid out for them lies in new blocks, apart from
the field that a path starts with, so it is described by the bytes from a position on. -/
namespace Conformance

namespace Contents

/-- What is known from a position on. -/
def since (contents : Contents) (start : Nat) : Contents := fun position =>
  if start ≤ position then contents position else none

theorem Within.since {part whole : Contents} {first second : Nat} (hStart : second ≤ first)
    (within : ∀ position byte, first ≤ position → part position = some byte →
      whole position = some byte) : (part.since first).Within (whole.since second) := by
  intro position byte h
  unfold Contents.since at h ⊢
  split_ifs at h with hFirst
  rw [if_pos (Nat.le_trans hStart hFirst)]
  exact within position byte hFirst h

theorem Holds.since {contents : Contents} {position start : Nat} {bytes : List UInt8}
    (holds : contents.Holds position bytes) (hStart : start ≤ position) :
    (contents.since start).Holds position bytes := by
  intro index hIndex
  unfold Contents.since
  rw [if_pos (Nat.le_trans hStart (Nat.le_add_right _ _))]
  exact holds index hIndex

end Contents

theorem ByteOrder.encode_zero (order : ByteOrder) (width : Nat) :
    order.encode width 0 = List.replicate width 0 := by
  have hLittle : littleBytes width 0 = List.replicate width 0 := by
    induction width with
    | zero => rfl
    | succ width ih =>
        rw [littleBytes, Nat.zero_div, ih, List.replicate_succ]
        rfl
  cases order with
  | little => exact hLittle
  | big => rw [encode, hLittle, List.reverse_replicate]

namespace Layout

/-- A record names a protocol. Where records have the list nested below their protocol, it is the
one that `nest` gives. -/
def StoresRecord (layout : Layout) (contents : Contents) (nest : Address → Address) (record : Nat)
    (interface : Address) : Prop :=
  layout.Stores contents (record + layout.record.interfaceOffset.toNat) interface ∧
    ∀ offset, layout.record.nested = .inRecord offset →
      layout.Stores contents (record + offset.toNat) (nest interface)

/-- The list of some protocols lies at an address. -/
structure Lists (layout : Layout) (contents : Contents) (nest : Address → Address)
    (interfaces : List Address) (list : Address) : Prop where
  nonnull : list ≠ 0
  aligned : list.toNat % 16 = 0
  nonempty : interfaces ≠ []
  bound : interfaces.length < 256 ^ layout.list.countWidth.bytes
  count : layout.Counts contents (Address.plus list layout.list.countOffset) interfaces.length
  records : ∀ index interface, interfaces[index]? = some interface →
    layout.StoresRecord contents nest (layout.recordPosition list index) interface

/-- The same, with the null pointer for the list of no protocols. -/
def Lays (layout : Layout) (contents : Contents) (nest : Address → Address)
    (interfaces : List Address) (list : Address) : Prop :=
  interfaces = [] ∧ list = 0 ∨ layout.Lists contents nest interfaces list

variable {layout : Layout} {contents whole : Contents} {nest : Address → Address}
  {interfaces : List Address} {list : Address}

theorem StoresRecord.mono {record : Nat} {interface : Address}
    (stores : layout.StoresRecord contents nest record interface)
    (within : contents.Within whole) : layout.StoresRecord whole nest record interface :=
  ⟨stores.1.mono within, fun offset hNested => (stores.2 offset hNested).mono within⟩

theorem Lays.mono (lays : layout.Lays contents nest interfaces list)
    (within : contents.Within whole) : layout.Lays whole nest interfaces list := by
  refine lays.imp_right fun lists => ?_
  constructor
  · exact lists.nonnull
  · exact lists.aligned
  · exact lists.nonempty
  · exact lists.bound
  · exact lists.count.mono within
  · intro index interface hIndex
    exact (lists.records index interface hIndex).mono within

/-- The records of some protocols lie one after the other. -/
def StoresRecords (layout : Layout) (contents : Contents) (nest : Address → Address) (entry : Nat)
    (interfaces : List Address) : Prop :=
  ∀ index interface, interfaces[index]? = some interface →
    layout.StoresRecord contents nest (entry + index * layout.record.stride.toNat) interface

theorem storesRecords_cons {entry : Nat} {interface : Address}
    (first : layout.StoresRecord contents nest entry interface)
    (later : layout.StoresRecords contents nest (entry + layout.record.stride.toNat) interfaces) :
    layout.StoresRecords contents nest entry (interface :: interfaces) := by
  intro index other hIndex
  cases index with
  | zero =>
      obtain rfl := Option.some.inj hIndex
      rwa [Nat.zero_mul, Nat.add_zero]
  | succ index =>
      have hRecord := later index other hIndex
      rwa [Nat.succ_mul, Nat.add_comm (index * _), ← Nat.add_assoc]

theorem stores_zero {position : Nat}
    (hZero : ∀ other, position ≤ other → other < position + layout.pointerWidth.bytes →
      contents other = some 0) : layout.Stores contents position 0 := by
  intro index hIndex
  rw [ByteOrder.length_encode] at hIndex
  rw [hZero _ (Nat.le_add_right _ _) (by omega), UInt64.toNat_zero, ByteOrder.encode_zero,
    List.getElem?_replicate, if_pos hIndex]

/-- A zeroed field that is read at all is read as the null pointer. -/
theorem readPointer_of_zero {builder : Builder} {position : Nat} {existing : Address}
    (stores : layout.Stores builder.byte? position 0)
    (h : (layout.readPointer position).run builder.read = some existing) : existing = 0 := by
  unfold readPointer at h
  rw [Probe.run_fetch] at h
  obtain ⟨address, hAddress, hRead⟩ := Option.bind_eq_some_iff.mp h
  obtain ⟨bytes, hBytes, rfl⟩ := Option.map_eq_some_iff.mp hRead
  obtain rfl := Address.ofPosition?_eq_some_iff.mp hAddress
  obtain ⟨-, -, -, hLength, holds⟩ := Builder.read_eq_some_iff.mp hBytes
  have hSame := holds.unique stores (by rw [hLength, ByteOrder.length_encode])
  rw [hSame, decodeWord, ByteOrder.decode_encode, UInt64.toNat_zero, Nat.zero_mod]
  exact UInt64.zero_and

end Layout

namespace Build

variable {builder : Builder} {bits : Nat}

/-- A field is set to a new block, which is zero. -/
structure Attaches (before : Builder) (field : Nat) (block : Address) (after : Builder) : Prop where
  grows : Builder.Grows (Outside field before.layout.pointerWidth.bytes) before after
  address : block.toNat = before.finish
  room : before.finish + 64 ≤ after.finish
  zero : ∀ position, before.finish ≤ position → position < before.finish + 64 →
    after.byte? position = some 0
  stores : before.layout.Stores after.byte? field block

theorem ensures_attach {α : Type} {field : Address} {size : UInt64} {next : Address → Build α}
    {post : α → Builder → Prop} {fail : Builder → Prop} (hSound : builder.Sound)
    (hInside : field.toNat + builder.layout.pointerWidth.bytes ≤ builder.finish)
    (hSize : size.toNat ≤ 64)
    (hNext : ∀ block after, Attaches builder field.toNat block after →
      Ensures (next block) after post fail)
    (hFail : ∀ after, Builder.Grows (Outside field.toNat builder.layout.pointerWidth.bytes)
      builder after → fail after) :
    Ensures (do
      let block ← allocate size
      writePointer field block
      next block) builder post fail := by
  rw [ensures_bind]
  refine (ensures_allocate size hSound).mono (fun block first h => ?_) fun after h =>
    hFail after (h ▸ Builder.Grows.refl _)
  obtain ⟨extended, hBlock, hZero, hLarge⟩ := h
  have hRoom := hLarge (Nat.le_trans hSize (by decide))
  rw [ensures_bind]
  refine (ensures_writePointer field block).mono (fun _ second h => hNext block second ?_)
    fun after h => hFail after (h ▸ extended.of_extends)
  obtain ⟨written, hFinish, stores⟩ := h
  rw [extended.layout] at written stores
  refine ⟨extended.of_extends.beyond written fun _ _ h => h, hBlock, by omega, ?_, stores⟩
  intro position hLow hHigh
  exact written.bytes position 0 (Or.inr (by omega)) (hZero position hLow (by omega))

theorem toNat_field_le {layout : Layout} {offset : UInt64}
    (hOffset : offset.toNat + layout.pointerWidth.bytes ≤ 64) :
    (offset + layout.word).toNat ≤ 64 := by
  have hWord : layout.word.toNat = layout.pointerWidth.bytes := Width.word_toNat _
  rw [UInt64.toNat_add, hWord]
  exact Nat.le_trans (Nat.mod_le _ _) hOffset

/-- What is written in the new block and after it leaves the field alone. -/
theorem Attaches.grows_after {second after : Builder} {field position : Nat} {block : Address}
    (attaches : Attaches builder field block second) (hPosition : block.toNat ≤ position)
    (grows : Builder.Grows (Outside position builder.layout.pointerWidth.bytes) second after) :
    Builder.Grows (Outside field builder.layout.pointerWidth.bytes) builder after := by
  have hBlock := attaches.address
  exact attaches.grows.beyond grows fun other _ _ => Or.inl (by omega)

/-- A path from the new block makes a path from the field. -/
theorem Attaches.links {second after : Builder} {base block value : Address} {hop next : Hop}
    {rest : List Hop} (attaches : Attaches builder (Address.plus base hop.offset) block second)
    (hSound : builder.Sound) (hInside : Address.plus base hop.offset +
      builder.layout.pointerWidth.bytes ≤ builder.finish) (hBits : after.finish ≤ 2 ^ bits)
    (grows : Builder.Grows (Outside (Address.plus block next.offset)
      builder.layout.pointerWidth.bytes) second after)
    (links : builder.layout.Links (after.byte?.since (Address.plus block next.offset)) bits block
      next rest value) :
    builder.layout.Links (after.byte?.since (Address.plus base hop.offset)) bits base hop
      (next :: rest) value := by
  have hBlock := attaches.address
  have hRoom := attaches.room
  have hFinish := grows.finish_le
  have hStart : block.toNat ≤ Address.plus block next.offset := Nat.le_add_right _ _
  obtain ⟨hNonnull, hAligned⟩ := hSound.finish_block hBlock
  have stored : builder.layout.Stores after.byte? (Address.plus base hop.offset) block :=
    grows.stores attaches.stores fun position _ hHigh => Or.inl (by omega)
  refine ⟨block, hNonnull, ⟨hAligned, by omega⟩, stored.since (Nat.le_refl _), links.mono ?_⟩
  exact Contents.Within.since (by omega) fun _ _ _ h => h

/-- Following the fields of new blocks to the value stored at the end of the path. All of them lie
at the first field or after the bytes laid out before. -/
theorem ensures_storeAlong (base value : Address) (hop : Hop) (rest : List Hop)
    (hSound : builder.Sound)
    (hHops : ∀ other ∈ hop :: rest, other.Regular bits builder.layout.pointerWidth.bytes)
    (hField : rest ≠ [] → builder.layout.Stores builder.byte? (Address.plus base hop.offset) 0) :
    Ensures (storeAlong base value hop rest) builder
      (fun _ after =>
        Builder.Grows (Outside (Address.plus base hop.offset) builder.layout.pointerWidth.bytes)
          builder after ∧
        (after.finish ≤ 2 ^ bits → builder.layout.Links
          (after.byte?.since (Address.plus base hop.offset)) bits base hop rest value))
      (fun after =>
        Builder.Grows (Outside (Address.plus base hop.offset) builder.layout.pointerWidth.bytes)
          builder after) := by
  induction rest generalizing builder base hop with
  | nil =>
      unfold storeAlong
      rw [ensures_bind]
      refine ensures_place (fun field hPlace => ?_) (Builder.Grows.refl _)
      rw [← hPlace]
      refine (ensures_writePointer field value).mono (fun _ after h => ?_) fun after h =>
        h ▸ Builder.Grows.refl _
      obtain ⟨grows, -, stores⟩ := h
      refine ⟨grows, fun _ => ?_⟩
      unfold Layout.Links
      rw [← hPlace]
      exact stores.since (Nat.le_refl _)
  | cons next rest ih =>
      have hStored := hField (List.cons_ne_nil _ _)
      have hInside := (Builder.bounds_of_holds hStored (Layout.encode_ne_nil _ _ _)).2
      have hNext := (hHops next (List.mem_cons_of_mem _ List.mem_cons_self)).offset
      rw [ByteOrder.length_encode] at hInside
      unfold storeAlong
      rw [ensures_bind]
      refine ensures_place (fun field hPlace => ?_) (Builder.Grows.refl _)
      rw [ensures_bind, ensures_get]
      cases hRead : (builder.layout.readPointer field.toNat).run builder.read with
      | none => exact Builder.Grows.refl _
      | some existing =>
          obtain rfl := Layout.readPointer_of_zero (hPlace ▸ hStored) hRead
          dsimp only
          rw [if_neg (not_not.mpr UInt64.zero_and)]
          refine ensures_attach hSound (hPlace ▸ hInside) (toNat_field_le hNext)
            (fun block second attaches => ?_) fun _ h => hPlace ▸ h
          rw [hPlace] at attaches
          have hLayout := attaches.grows.layout
          have hBlock := attaches.address
          have hZero : second.layout.Stores second.byte? (Address.plus block next.offset) 0 := by
            rw [hLayout]
            apply Layout.stores_zero
            unfold Address.plus
            intro position hLow hHigh
            exact attaches.zero position (by omega) (by omega)
          have inner := ih block next (attaches.grows.sound hSound)
            (fun other h => by rw [hLayout]; exact hHops other (List.mem_cons_of_mem _ h))
            fun _ => hZero
          rw [hLayout] at inner
          have hStart : block.toNat ≤ Address.plus block next.offset := Nat.le_add_right _ _
          refine inner.mono (fun _ after h => ?_) fun after h => attaches.grows_after hStart h
          obtain ⟨grows, links⟩ := h
          exact ⟨attaches.grows_after hStart grows, fun hBits =>
            attaches.links hSound hInside hBits grows (links hBits)⟩

theorem storesRecord_of_grows {first second : Builder} {kept : Nat → Prop} {layout : Layout}
    {nest : Address → Address} {record : Nat} {interface : Address} (hRegular : layout.Regular bits)
    (grows : Builder.Grows kept first second)
    (stores : layout.StoresRecord first.byte? nest record interface)
    (hKept : ∀ position, record ≤ position → position < record + layout.record.stride.toNat →
      kept position) : layout.StoresRecord second.byte? nest record interface := by
  have hInterface := hRegular.interface
  constructor
  · exact grows.stores stores.1 fun other hLow hHigh => hKept other (by omega) (by omega)
  · intro offset hOffset
    have hNested := hRegular.nested
    rw [hOffset] at hNested
    dsimp only at hNested
    exact grows.stores (stores.2 offset hOffset) fun other hLow hHigh =>
      hKept other (by omega) (by omega)

/-- The list that is nested below a protocol, where records have it. -/
def nestedBelow (builder : Builder) (protocol : Address) : Address :=
  (builder.nestedLists.lookup protocol).getD 0

theorem nestedBelow_eq {kept : Nat → Prop} {first second : Builder}
    (grows : Builder.Grows kept first second) : nestedBelow second = nestedBelow first := by
  unfold nestedBelow
  rw [grows.nestedLists]

/-- A record is written after everything that was written before. -/
theorem ensures_record {entry interface : Address} {next : Build Unit}
    {post : Unit → Builder → Prop} {fail : Builder → Prop} (hRegular : builder.layout.Regular bits)
    (hNext : ∀ after, Builder.Grows (fun position => position < entry.toNat) builder after →
      after.finish = builder.finish →
      builder.layout.StoresRecord after.byte? (nestedBelow builder) entry.toNat interface →
      Ensures next after post fail)
    (hFail : ∀ after, Builder.Grows (fun position => position < entry.toNat) builder after →
      fail after) :
    Ensures (do
      writePointer (← place entry builder.layout.record.interfaceOffset) interface
      match builder.layout.record.nested with
      | .inRecord offset =>
          writePointer (← place entry offset) ((builder.nestedLists.lookup interface).getD 0)
      | _ => pure ()
      next) builder post fail := by
  have hInterface := hRegular.interface
  rw [ensures_bind]
  refine ensures_place (fun field hField => ?_) (hFail _ (Builder.Grows.refl _))
  unfold Address.plus at hField
  rw [ensures_bind]
  refine (ensures_writePointer field interface).mono (fun _ first h => ?_) fun after h =>
    hFail after (h ▸ Builder.Grows.refl _)
  obtain ⟨written, hFinish, named⟩ := h
  have grown : Builder.Grows (fun position => position < entry.toNat) builder first := by
    exact written.weaken fun position _ _ h => Or.inl (by omega)
  cases hNested : builder.layout.record.nested with
  | absent =>
      refine hNext first grown hFinish ⟨hField ▸ named, fun offset h => ?_⟩
      rw [hNested] at h
      cases h
  | inInterface _ =>
      refine hNext first grown hFinish ⟨hField ▸ named, fun offset h => ?_⟩
      rw [hNested] at h
      cases h
  | inRecord offset =>
      have hOffset := hRegular.nested
      rw [hNested] at hOffset
      dsimp only at hOffset ⊢
      rw [ensures_bind]
      refine ensures_place (fun below hBelow => ?_) (hFail _ grown)
      unfold Address.plus at hBelow
      rw [ensures_bind]
      refine (ensures_writePointer below _).mono (fun _ second h => ?_) fun after h =>
        hFail after (h ▸ grown)
      obtain ⟨rewritten, hSame, nested⟩ := h
      rw [written.layout] at rewritten nested
      refine hNext second ?_ (hSame.trans hFinish) ⟨?_, fun other h => ?_⟩
      · exact grown.trans (rewritten.weaken fun position _ _ h => Or.inl (by omega))
      · rw [← hField]
        exact rewritten.stores named fun position _ _ => Or.inl (by omega)
      · rw [hNested] at h
        cases h
        rw [← hBelow]
        exact nested

theorem ensures_writeRecords (entry : Address) (interfaces : List Address)
    (hRegular : builder.layout.Regular bits) :
    Ensures (writeRecords entry interfaces) builder
      (fun _ after => Builder.Grows (fun position => position < entry.toNat) builder after ∧
        after.finish = builder.finish ∧
        builder.layout.StoresRecords after.byte? (nestedBelow builder) entry.toNat interfaces)
      (fun after => Builder.Grows (fun position => position < entry.toNat) builder after) := by
  induction interfaces generalizing builder entry with
  | nil => exact ⟨Builder.Grows.refl _, rfl, fun index interface h => by simp at h⟩
  | cons interface rest ih =>
      unfold writeRecords
      rw [ensures_bind, ensures_get]
      refine ensures_record hRegular (fun second grown hFinish record => ?_) fun _ h => h
      rw [ensures_bind]
      refine ensures_place (fun next hNext => ?_) grown
      unfold Address.plus at hNext
      have later := @ih second next (grown.layout ▸ hRegular)
      rw [grown.layout, nestedBelow_eq grown] at later
      have hKept (after : Builder)
          (grows : Builder.Grows (fun position => position < next.toNat) second after) :
          Builder.Grows (fun position => position < entry.toNat) builder after :=
        grown.trans (grows.weaken fun position _ _ h => by omega)
      refine later.mono (fun _ after h => ?_) hKept
      obtain ⟨grows, hSame, records⟩ := h
      refine ⟨hKept after grows, hSame.trans hFinish, Layout.storesRecords_cons ?_ ?_⟩
      · exact storesRecord_of_grows hRegular grows record fun position _ hHigh => by omega
      · exact hNext ▸ records

/-- A list with the number of its records, which are not written yet. -/
structure Headed (before : Builder) (interfaces : List Address) (list : Address) (after : Builder) :
    Prop where
  grows : Builder.Extends before after
  address : list.toNat = before.finish
  bound : interfaces.length < 256 ^ before.layout.list.countWidth.bytes
  count : before.layout.Counts after.byte? (Address.plus list before.layout.list.countOffset)
    interfaces.length

theorem toNat_length {interfaces : List Address} {size : Address} {stride offset : UInt64}
    (hStride : 0 < stride.toNat)
    (hSize : Address.ofPosition? (interfaces.length * stride.toNat + offset.toNat) = some size) :
    interfaces.length.toUInt64.toNat = interfaces.length := by
  have hBound := size.toNat_lt
  have hRecords := Nat.le_mul_of_pos_right interfaces.length hStride
  rw [← Address.ofPosition?_eq_some_iff.mp hSize] at hBound
  exact UInt64.toNat_ofNat_of_lt (by change interfaces.length < 2 ^ 64; omega)

theorem ensures_header {α : Type} {interfaces : List Address} {size : UInt64}
    {next : Address → Build α} {post : α → Builder → Prop} {fail : Builder → Prop}
    (hSound : builder.Sound)
    (hLength : interfaces.length.toUInt64.toNat = interfaces.length)
    (hNext : ∀ list after, Headed builder interfaces list after →
      Ensures (next list) after post fail)
    (hFail : ∀ after, Builder.Extends builder after → fail after) :
    Ensures (do
      let list ← allocate size
      writeField (← place list builder.layout.list.countOffset)
        builder.layout.list.countWidth.bytes interfaces.length.toUInt64
      next list) builder post fail := by
  rw [ensures_bind]
  refine (ensures_allocate size hSound).mono (fun list first h => ?_) fun after h =>
    hFail after (h ▸ Builder.Grows.refl _)
  obtain ⟨extended, hList, -, -⟩ := h
  rw [ensures_bind]
  refine ensures_place (fun head hHead => ?_) (hFail _ extended)
  have hStart : list.toNat ≤ Address.plus list builder.layout.list.countOffset :=
    Nat.le_add_right _ _
  rw [ensures_bind]
  refine (ensures_writeField head _ _).mono (fun _ second h => hNext list second ?_) fun after h =>
    hFail after (h ▸ extended)
  obtain ⟨written, -, hCount, counts⟩ := h
  rw [extended.layout, hLength, hHead] at counts
  rw [hLength] at hCount
  refine ⟨extended.beyond written fun position _ _ => Or.inl (by omega), hList, hCount, counts⟩

/-- A list is whole when its records are written. -/
theorem Headed.lists {second after : Builder} {interfaces : List Address} {list entry : Address}
    {nest : Address → Address} (headed : Headed builder interfaces list second)
    (hSound : builder.Sound) (hRegular : builder.layout.Regular bits) (hNonempty : interfaces ≠ [])
    (hEntry : entry.toNat = Address.plus list builder.layout.list.entriesOffset)
    (grows : Builder.Grows (fun position => position < entry.toNat) second after)
    (records : builder.layout.StoresRecords after.byte? nest entry.toNat interfaces) :
    builder.layout.Lists (after.byte?.since builder.finish) nest interfaces list := by
  have hHeader := hRegular.count
  have hAddress := headed.address
  obtain ⟨hNonnull, hAligned⟩ := hSound.finish_block hAddress
  unfold Address.plus at hEntry
  refine ⟨hNonnull, hAligned, hNonempty, headed.bound, ?_, fun index interface hIndex => ?_⟩
  · have kept := grows.holds headed.count fun position _ hHigh => by
      rw [ByteOrder.length_encode] at hHigh
      unfold Address.plus at hHigh
      omega
    refine kept.since ?_
    unfold Address.plus
    omega
  · have stored := records index interface hIndex
    have hRecord : builder.layout.recordPosition list index =
        entry.toNat + index * builder.layout.record.stride.toNat := by
      rw [hEntry]
      rfl
    rw [hRecord]
    exact ⟨stored.1.since (by omega),
      fun offset hOffset => (stored.2 offset hOffset).since (by omega)⟩

/-- A list is laid out after everything else. -/
theorem ensures_list (interfaces : List Address) (hSound : builder.Sound)
    (hRegular : builder.layout.Regular bits) :
    Ensures (list interfaces) builder
      (fun list after => Builder.Extends builder after ∧
        builder.layout.Lays (after.byte?.since builder.finish) (nestedBelow builder) interfaces
          list)
      (fun after => Builder.Extends builder after) := by
  unfold Build.list
  by_cases hEmpty : interfaces = []
  · rw [hEmpty]
    exact ⟨Builder.Grows.refl _, Or.inl ⟨rfl, rfl⟩⟩
  · have hNonempty : interfaces.isEmpty = false := by simpa using hEmpty
    rw [hNonempty]
    simp only [Bool.false_eq_true, if_false]
    rw [ensures_bind, ensures_get]
    cases hSize : Address.ofPosition? (interfaces.length * builder.layout.record.stride.toNat +
        builder.layout.list.entriesOffset.toNat) with
    | none => exact Builder.Grows.refl _
    | some size =>
        have hStride := Nat.lt_of_lt_of_le builder.layout.pointerWidth.bytes_pos
          (Nat.le_trans (Nat.le_add_left _ _) hRegular.interface)
        dsimp only
        refine ensures_header hSound (toNat_length hStride hSize) (fun list second headed => ?_)
          fun _ h => h
        have hList := headed.address
        have hLayout := headed.grows.layout
        rw [ensures_bind]
        refine ensures_place (fun entry hEntry => ?_) headed.grows
        have hStart : list.toNat ≤ entry.toNat := hEntry ▸ Nat.le_add_right _ _
        have records := @ensures_writeRecords second bits entry interfaces (hLayout ▸ hRegular)
        rw [hLayout, nestedBelow_eq headed.grows] at records
        have hKept (after : Builder)
            (grows : Builder.Grows (fun position => position < entry.toNat) second after) :
            Builder.Extends builder after :=
          headed.grows.beyond grows fun position hHigh _ => by omega
        rw [ensures_bind]
        refine records.mono (fun _ after h => ?_) hKept
        obtain ⟨grows, -, stores⟩ := h
        exact ⟨hKept after grows, Or.inr (headed.lists hSound hRegular hEmpty hEntry grows stores)⟩

end Build

end Conformance
