import Conformance.Proofs.Builder.Headers
/-! What calls of a builder leave alone. Laying out a structure follows pointers that are there
already and writes at the end of the way, so it has to be shown that it meets nothing but blocks of
its own: the fields that it follows lie in blocks that it has just appended, which are zero. -/
namespace Conformance

namespace Builder

/-- What an operation leaves that hands out a new block and has not written it yet. -/
structure Opens (before : Builder) (block : Address) (after : Builder) : Prop
    extends before.HandsOut block after where
  fills : before.Fills before.finish after
  zero : ∀ position, block.toNat ≤ position → position < block.toNat + 64 →
    after.byte? position = some 0

/-- Everything that was laid out or recorded is kept. -/
structure Keeps (before after : Builder) : Prop where
  layout : after.layout = before.layout
  base : after.base = before.base
  bytes : before.bytes.toList <+: after.bytes.toList
  nestedLists : ∀ protocol list, before.nestedLists.lookup protocol = some list →
    after.nestedLists.lookup protocol = some list

/-- The field at a position is set to a value, and nothing else is changed. -/
structure Edits (before : Builder) (position : Nat) (value : Address) (after : Builder) : Prop where
  layout : after.layout = before.layout
  base : after.base = before.base
  nestedLists : after.nestedLists = before.nestedLists
  size : after.bytes.size = before.bytes.size
  others : ∀ other, Build.Outside position before.layout.pointerWidth.bytes other →
    after.byte? other = before.byte? other
  stores : before.layout.Stores after.byte? position value

variable {before after first last : Builder} {effects : List Effect}

theorem Opens.stores_zero {block : Address} {offset : UInt64} (opens : before.Opens block after)
    (hOffset : offset.toNat + before.layout.pointerWidth.bytes ≤ 64) :
    before.layout.Stores after.byte? (Address.plus block offset) 0 :=
  Build.stores_zero_of_block opens.zero hOffset

theorem Performs.keeps (run : first.Performs effects last) (fits : first.Fits)
    (beyond : ∀ effect ∈ effects, effect.Beyond first.finish)
    (recorded : ∀ entry ∈ first.nestedLists, entry.1.toNat < first.finish) : first.Keeps last := by
  have continues := run.continues fits
  refine ⟨continues.layout, continues.base, ?_, fun protocol list hList => ?_⟩
  · rw [List.prefix_iff_getElem?]
    intro index hIndex
    have hSize : index < first.bytes.size := Array.length_toList ▸ hIndex
    have hByte := run.byte?_eq fits beyond (Nat.le_refl _)
      (Nat.add_lt_add_left hSize first.base.toNat)
    rw [byte?_of_le, ← continues.base, byte?_of_le] at hByte
    rw [Array.getElem?_toList, hByte, Array.getElem?_eq_getElem hSize, Array.getElem_toList]
  · have hLaid : protocol.toNat < first.finish := by
      obtain ⟨earlier, later, hEntries, -⟩ := List.lookup_eq_some_iff.mp hList
      exact recorded (protocol, list) (hEntries ▸ by simp)
    have hNew : (Effect.entries effects).lookup protocol = none := by
      refine List.lookup_eq_none_iff.mpr fun entry hEntry => bne_iff_ne.mpr fun hSame => ?_
      have hFloor := Effect.le_of_mem_entries beyond hEntry
      rw [← hSame] at hFloor
      omega
    rw [run.nestedLists fits, List.lookup_append, hNew, Option.none_or, hList]

theorem edits_of_grows {position : Nat} {value : Address}
    (grows : Grows (Build.Outside position before.layout.pointerWidth.bytes) before after)
    (hFinish : after.finish = before.finish)
    (stores : before.layout.Stores after.byte? position value) :
    before.Edits position value after := by
  refine ⟨grows.layout, grows.base, grows.nestedLists, ?_, fun other hOther => ?_, stores⟩
  · unfold finish at hFinish
    rw [grows.base] at hFinish
    exact Nat.add_left_cancel hFinish
  · by_cases hLaid : other < before.finish
    · exact grows.byte?_eq hOther hLaid
    · have hNone {builder : Builder} (h : builder.finish ≤ other) : builder.byte? other = none := by
        cases hByte : builder.byte? other with
        | none => rfl
        | some byte => exact absurd (byte?_eq_some hByte).2 (Nat.not_lt.mpr h)
      rw [hNone (Nat.not_lt.mp hLaid), hNone (hFinish ▸ Nat.not_lt.mp hLaid)]

end Builder

namespace Build

variable {builder : Builder} {bits floor : Nat}

theorem ensures_allocate_opens {size : UInt64} (fits : builder.Fits) (hSize : size.toNat ≤ 64) :
    Ensures (allocate size) builder builder.Opens (builder.Fills builder.finish) := by
  refine (((works_allocate size) builder fits (Nat.le_refl _)).and
    ((ensures_allocate_of_fits size fits).and (ensures_allocate_handsOut fits hSize))).mono
      (fun block after h => ?_) fun _ h => h.1
  obtain ⟨⟨-, fills⟩, ⟨-, -, -, hZero, -⟩, handsOut⟩ := h
  refine ⟨handsOut, fills, fun position hLow hHigh => ?_⟩
  have hStart := handsOut.position
  have hRoom := handsOut.room
  exact hZero position (by omega) (by omega)

/-- Along a path that starts with a null field, a value is stored in new blocks and in that
field. -/
theorem ensures_storeAlong_fills {base value : Address} {hop : Hop} {rest : List Hop}
    (fits : builder.Fits) (hFloor : floor ≤ builder.finish) (hBase : floor ≤ base.toNat)
    (hOffsets : ∀ other ∈ hop :: rest,
      other.offset.toNat + builder.layout.pointerWidth.bytes ≤ 64)
    (hNull : builder.layout.Stores builder.byte? (Address.plus base hop.offset) 0) :
    Ensures (storeAlong base value hop rest) builder (fun _ after => builder.Fills floor after)
      (builder.Fills floor) := by
  induction rest generalizing builder base hop with
  | nil =>
      exact (works_bind (works_place _ hBase) fun _ hField =>
        works_writePointer _ hField).ensures_fills fits hFloor
  | cons next rest ih =>
      have hNext := fun other h => hOffsets other (List.mem_cons_of_mem _ h)
      have hRefl := Builder.Fills.refl floor builder
      unfold storeAlong
      rw [ensures_bind]
      refine ensures_place (fun field hField => ?_) hRefl
      rw [ensures_bind, ensures_get]
      rw [← hField] at hNull
      cases hRead : (builder.layout.readPointer field.toNat).run builder.read with
      | none => exact hRefl
      | some existing =>
          obtain rfl := Layout.readPointer_of_zero hNull hRead
          have hInside := Builder.bounds_of_holds hNull (Layout.encode_ne_nil _ _ _)
          rw [ByteOrder.length_encode] at hInside
          dsimp only
          rw [UInt64.zero_and, if_neg (not_not_intro rfl), ensures_bind]
          refine (ensures_allocate_opens fits (toNat_field_le (hNext next List.mem_cons_self))).mono
            (fun block first opens => ?_) fun _ h => h.mono hFloor
          have hStart := opens.position
          have hLayout := opens.layout
          have hFirst : floor ≤ first.finish := Nat.le_trans hFloor opens.finish_le
          have fills := opens.fills.mono hFloor
          rw [ensures_bind]
          refine ((works_writePointer block (hField ▸ Nat.le_trans hBase (Nat.le_add_right _ _))
            first opens.fits hFirst).and (ensures_writePointer field block)).mono
              (fun _ second h => ?_) fun _ h => fills.trans h.1
          obtain ⟨⟨-, written⟩, grows, -, -⟩ := h
          have continues := written.continues opens.fits
          have hSecond := grows.layout.trans hLayout
          have hField := opens.stores_zero (hNext next List.mem_cons_self)
          refine (ih continues.fits (Nat.le_trans hFirst continues.finish_le) (by omega)
            (hSecond ▸ hNext) ?_).mono
              (fun _ _ h => (fills.trans written).trans h) fun _ h => (fills.trans written).trans h
          rw [hSecond]
          refine grows.stores hField fun other hLow _ => Or.inr ?_
          rw [hLayout]
          unfold Address.plus at hLow
          omega

theorem ensures_object_fills (type : Address) (fits : builder.Fits)
    (hRegular : builder.layout.Regular bits) :
    Ensures (object type) builder (fun _ after => builder.Fills builder.finish after)
      (builder.Fills builder.finish) := by
  have hOffsets := fun hop h => (hRegular.objectType hop h).offset
  unfold object
  rw [ensures_bind, ensures_get, ensures_bind]
  refine (ensures_allocate_opens fits (toNat_field_le (hOffsets _ List.mem_cons_self))).mono
    (fun object first opens => ?_) fun _ h => h
  have hNull := opens.stores_zero (hOffsets _ List.mem_cons_self)
  rw [ensures_bind]
  refine (ensures_storeAlong_fills opens.fits opens.finish_le (Nat.le_of_eq opens.position.symm)
    (opens.layout ▸ hOffsets) (opens.layout ▸ hNull)).mono (fun _ after h => ?_)
      fun _ h => opens.fills.trans h
  exact opens.fills.trans h

theorem ensures_type_fills (superclass : Option Address) (declared : List Address)
    (fits : builder.Fits) (hRegular : builder.layout.Regular bits) :
    Ensures (type superclass declared) builder (fun _ after => builder.Fills builder.finish after)
      (builder.Fills builder.finish) := by
  have hOffsets := fun hop h => (hRegular.conformances hop h).offset
  have hFirst := hOffsets _ List.mem_cons_self
  unfold Build.type
  rw [ensures_bind, ensures_get]
  dsimp only
  rw [ensures_bind]
  refine (ensures_allocate_opens fits (toNat_max_add_le hRegular.superclass.2.offset hFirst)).mono
    (fun type first opens => ?_) fun _ h => h
  have hStart := opens.position
  have hRoom := opens.room
  have hLow := opens.finish_le
  rw [ensures_bind]
  -- The list is laid out after the block of the type, so that the fields of the type stay null.
  refine ((works_list declared).ensures_fills opens.fits (Nat.le_refl _)).mono
    (fun list second listed => ?_) fun _ h => opens.fills.trans (h.mono hLow)
  have second_of_first := listed.continues opens.fits
  have fills := opens.fills.trans (listed.mono hLow)
  have hSecond : builder.finish ≤ second.finish := Nat.le_trans hLow second_of_first.finish_le
  have hLayout : second.layout = builder.layout := second_of_first.layout.trans opens.layout
  have hNull : builder.layout.Stores second.byte?
      (Address.plus type builder.layout.conformances.first.offset) 0 := by
    refine stores_zero_of_block (fun position hAbove hBelow => ?_) hFirst
    rw [listed.byte?_eq opens.fits (Nat.le_refl _) (by omega)]
    exact opens.zero position hAbove hBelow
  rw [ensures_bind]
  refine (ensures_storeAlong_fills second_of_first.fits hSecond (Nat.le_of_eq hStart.symm)
    (hLayout ▸ hOffsets) (hLayout ▸ hNull)).mono (fun _ third stored => ?_)
      fun _ h => fills.trans h
  have third_of_second := stored.continues second_of_first.fits
  have fills := fills.trans stored
  cases superclass with
  | none => exact fills
  | some superclass =>
      have hSingle : third.layout.superclass.later = [] := by
        rw [third_of_second.layout, hLayout]
        exact hRegular.superclass.1
      have works : Works builder.finish (store type third.layout.superclass superclass)
          anything := by
        unfold store
        rw [hSingle]
        exact works_bind (works_place _ (Nat.le_of_eq hStart.symm)) fun _ hField =>
          works_writePointer _ hField
      dsimp only
      rw [ensures_bind]
      unfold setSuperclass
      rw [ensures_bind, ensures_get]
      exact (works.ensures_fills third_of_second.fits
        (Nat.le_trans hSecond third_of_second.finish_le)).mono
          (fun _ _ h => fills.trans h) fun _ h => fills.trans h

/-- The calls that lay out a structure. -/
inductive LaysOut : Build Address → Prop where
  | protocol (incorporated : List Address) : LaysOut (protocol incorporated)
  | type (superclass : Option Address) (declared : List Address) :
      LaysOut (type superclass declared)
  | object (type : Address) : LaysOut (object type)
  | composition (protocols : List Address) (superclass : Option Address) :
      LaysOut (composition protocols superclass)

theorem LaysOut.reaches {call : Build Address} {first : Builder} (lays : LaysOut call)
    (run : first.Reaches builder) : first.Reaches (builder.after call) := by
  cases lays with
  | protocol incorporated => exact .protocol run incorporated
  | type superclass declared => exact .type run superclass declared
  | object type => exact .object run type
  | composition protocols superclass => exact .composition run protocols superclass

theorem LaysOut.appends {call : Build Address} (lays : LaysOut call) (fits : builder.Fits)
    (hRegular : builder.layout.Regular bits) : Appends call builder := by
  cases lays with
  | protocol incorporated => exact appends_protocol incorporated fits
  | type superclass declared =>
      exact appends_of_fills (ensures_type_fills superclass declared fits hRegular)
  | object type => exact appends_of_fills (ensures_object_fills type fits hRegular)
  | composition protocols superclass =>
      exact appends_of_fills
        ((works_composition protocols superclass).ensures_fills fits (Nat.le_refl _))

end Build

namespace Builder

variable {runtime : Runtime} {base : Address} {builder : Builder}

/-- Lists are recorded only for what is laid out. -/
theorem Reaches.recorded {layout : Layout} (run : (start layout base).Reaches builder) :
    ∀ entry ∈ builder.nestedLists, entry.1.toNat < builder.finish := by
  obtain ⟨effects, performs⟩ := run.performs (fits_start _ _)
  exact performs.recorded (fits_start _ _) fun _ h => nomatch h

/-- A call that lays out a structure keeps all that was laid out and recorded, and records no list
if it fails. A call that edits changes one field, or nothing if it fails. However a run goes, the
blocks that were handed out on the way have no position in common. -/
theorem Reaches.leaves_alone (run : (start runtime.layout base).Reaches builder) :
    (∀ call, Build.LaysOut call → builder.Keeps (builder.after call) ∧
      (builder.result? call = none →
        (builder.after call).nestedLists = builder.nestedLists)) ∧
    (∀ type superclass, Build.Ensures (Build.setSuperclass type superclass) builder
      (fun _ => builder.Edits (Build.superclassPosition builder.layout type) superclass)
      fun after => after = builder) ∧
    (∀ address value, Build.Ensures (Build.writePointer address value) builder
      (fun _ => builder.Edits address.toNat value) fun after => after = builder) ∧
    (∃ effects, (start runtime.layout base).Performs effects builder) ∧
    ∀ effects, (start runtime.layout base).Performs effects builder →
      (Effect.blocks effects).Pairwise (fun earlier later =>
        earlier.finish ≤ later.address.toNat) ∧
      ∀ block ∈ Effect.blocks effects, block.finish ≤ builder.finish ∧
        (block.size.toNat ≤ 2 ^ 63 → max block.size.toNat 64 ≤ block.length) := by
  have fits := fits_start runtime.layout base
  have continues := run.continues fits
  have hRegular : builder.layout.Regular runtime.addressBits :=
    continues.layout ▸ runtime.regular
  refine ⟨fun call lays => ?_, fun type superclass => ?_, fun address value => ?_,
    run.performs fits, fun effects performs => ?_⟩
  · have appends := lays.appends continues.fits hRegular
    obtain ⟨effects, performs, beyond⟩ := appends.performs
    refine ⟨performs.keeps continues.fits beyond run.recorded, fun hFail => ?_⟩
    exact ((Build.ensures_iff_result.mp appends).2 hFail).nestedLists continues.fits
  · refine (Build.ensures_setSuperclass type superclass hRegular).mono (fun _ after h => ?_)
      fun _ h => h
    exact edits_of_grows h.1 h.2.1 h.2.2
  · refine (Build.ensures_writePointer address value).mono (fun _ after h => ?_) fun _ h => h
    exact edits_of_grows h.1 h.2.1 h.2.2
  · have tile := performs.tile fits
    exact ⟨tile.pairwise, fun block hBlock =>
      ⟨(tile.bounds.2 block hBlock).2, performs.room fits block hBlock⟩⟩

/-- A type has room for its block and none for its list. It fails halfway, and the protocol that was
laid out before is kept with its list. -/
theorem leaves_alone_halfway :
    let builder := (start Runtime.compact32.layout 0xFFFFFF80).after (Build.protocol [])
    let after := builder.after (Build.type none [0xFFFFFF80])
    builder.result? (Build.type none [0xFFFFFF80]) = none ∧ after.bytes.size = 128 ∧
      builder.Keeps after ∧ after.nestedLists = [(0xFFFFFF80, 0)] := by
  intro builder after
  have hFail : builder.result? (Build.type none [0xFFFFFF80]) = none := by decide +kernel
  have hSize : after.bytes.size = 128 := by decide +kernel
  have hLists : builder.nestedLists = [(0xFFFFFF80, 0)] := by decide +kernel
  have run : (start Runtime.compact32.layout 0xFFFFFF80).Reaches builder := .protocol .refl []
  obtain ⟨keeps, hRecords⟩ := run.leaves_alone.1 _ (.type none [0xFFFFFF80])
  exact ⟨hFail, hSize, keeps, (hRecords hFail).trans hLists⟩

end Builder

end Conformance
