import Conformance.Proofs.Builder.Lists
/-! Protocols, types and objects. Each of them is a block of its own with the list or the path
blocks that belong to it; only the superclass of a type is ever written again. -/
namespace Conformance.Build

variable {builder : Builder} {bits : Nat}

/-- The position of the superclass of a type. -/
def superclassPosition (layout : Layout) (type : Address) : Nat :=
  Address.plus type layout.superclass.first.offset

/-- What a protocol is laid out as: a block, and a list that is found from the block or, for layouts
that keep it in records, in the lists of the builder. -/
structure LaidProtocol (before : Builder) (incorporated : List Address) (protocol list : Address)
    (after : Builder) : Prop where
  grows : Builder.Extends before { after with nestedLists := before.nestedLists }
  address : protocol.toNat = before.finish
  room : before.finish + 64 ≤ after.finish
  lays : before.layout.Lays (after.byte?.since before.finish) (nestedBelow before) incorporated list
  nestedLists : after.nestedLists = match before.layout.record.nested with
    | .inRecord _ => (protocol, list) :: before.nestedLists
    | _ => before.nestedLists
  nested : ∀ offset, before.layout.record.nested = .inInterface offset →
    before.layout.Stores (after.byte?.since before.finish) (Address.plus protocol offset) list

/-- What a type is laid out as: a block with its superclass and, after that, all that leads to its
conformance list. -/
structure LaidType (bits : Nat) (before : Builder) (superclass : Option Address)
    (declared : List Address) (type list : Address) (after : Builder) : Prop where
  grows : Builder.Extends before after
  address : type.toNat = before.finish
  room : before.finish + 64 ≤ after.finish
  superclass : before.layout.Stores after.byte? (superclassPosition before.layout type)
    (superclass.getD 0)
  lays : before.layout.Lays (after.byte?.since (superclassPosition before.layout type +
    before.layout.pointerWidth.bytes)) (nestedBelow before) declared list
  links : after.finish ≤ 2 ^ bits → before.layout.Links (after.byte?.since
    (superclassPosition before.layout type + before.layout.pointerWidth.bytes)) bits type
    before.layout.conformances.first before.layout.conformances.later list

/-- What an object is laid out as: a block that leads to its type. -/
structure LaidObject (bits : Nat) (before : Builder) (type object : Address) (after : Builder) :
    Prop where
  grows : Builder.Extends before after
  address : object.toNat = before.finish
  room : before.finish + 64 ≤ after.finish
  links : after.finish ≤ 2 ^ bits → before.layout.Links (after.byte?.since before.finish) bits
    object before.layout.objectType.first before.layout.objectType.later type

/-- The fields of a new block are null. -/
theorem stores_zero_of_block {layout : Layout} {contents : Contents} {block : Address}
    {offset : UInt64} (hZero : ∀ position, block.toNat ≤ position → position < block.toNat + 64 →
      contents position = some 0) (hOffset : offset.toNat + layout.pointerWidth.bytes ≤ 64) :
    layout.Stores contents (Address.plus block offset) 0 := by
  apply Layout.stores_zero
  unfold Address.plus
  intro position hLow hHigh
  exact hZero position (by omega) (by omega)

theorem ensures_object (type : Address) (hSound : builder.Sound)
    (hRegular : builder.layout.Regular bits) :
    Ensures (object type) builder (fun object after => LaidObject bits builder type object after)
      (fun after => Builder.Extends builder after) := by
  have hHops := hRegular.objectType
  have hFirst := (hHops _ List.mem_cons_self).offset
  unfold object
  rw [ensures_bind, ensures_get, ensures_bind]
  refine (ensures_allocate _ hSound).mono (fun object first h => ?_) fun after h =>
    h ▸ Builder.Grows.refl _
  obtain ⟨extended, hObject, hZero, hLarge⟩ := h
  have hRoom := hLarge (Nat.le_trans (toNat_field_le hFirst) (by decide))
  have hField : builder.layout.Stores first.byte?
      (Address.plus object builder.layout.objectType.first.offset) 0 :=
    stores_zero_of_block (fun position _ _ => hZero position (by omega) (by omega)) hFirst
  have stored := ensures_storeAlong object type _ _ (extended.sound hSound)
    (by rw [extended.layout]; exact hHops) (fun _ => by rw [extended.layout]; exact hField)
  rw [extended.layout] at stored
  have hStart : object.toNat ≤ Address.plus object builder.layout.objectType.first.offset :=
    Nat.le_add_right _ _
  have hKept (after : Builder) (grows : Builder.Grows (Outside
      (Address.plus object builder.layout.objectType.first.offset)
      builder.layout.pointerWidth.bytes) first after) : Builder.Extends builder after :=
    extended.beyond grows fun position _ _ => Or.inl (by omega)
  unfold store
  rw [ensures_bind]
  refine stored.mono (fun _ after h => ?_) hKept
  obtain ⟨grows, links⟩ := h
  rw [ensures_pure]
  refine ⟨hKept after grows, hObject, Nat.le_trans (by omega) grows.finish_le, fun hBits => ?_⟩
  exact (links hBits).mono (Contents.Within.since (by omega) fun _ _ _ h => h)

theorem ensures_setSuperclass (type superclass : Address)
    (hRegular : builder.layout.Regular bits) :
    Ensures (setSuperclass type superclass) builder
      (fun _ after =>
        Builder.Grows (Outside (superclassPosition builder.layout type)
          builder.layout.pointerWidth.bytes) builder after ∧
        after.finish = builder.finish ∧
        builder.layout.Stores after.byte? (superclassPosition builder.layout type) superclass)
      (fun after => after = builder) := by
  unfold setSuperclass store superclassPosition
  rw [ensures_bind, ensures_get, hRegular.superclass.1]
  unfold storeAlong
  rw [ensures_bind]
  refine ensures_place (fun field hField => ?_) rfl
  rw [← hField]
  exact ensures_writePointer field superclass

/-- A new block with a list after it. The block is not written yet. -/
structure BlockWithList (before : Builder) (interfaces : List Address) (block list : Address)
    (after : Builder) : Prop where
  grows : Builder.Extends before after
  address : block.toNat = before.finish
  room : before.finish + 64 ≤ after.finish
  zero : ∀ position, block.toNat ≤ position → position < block.toNat + 64 →
    after.byte? position = some 0
  lays : before.layout.Lays (after.byte?.since (before.finish + 64)) (nestedBelow before)
    interfaces list

theorem ensures_blockWithList {α : Type} {size : UInt64} {interfaces : List Address}
    {next : Address → Address → Build α} {post : α → Builder → Prop} {fail : Builder → Prop}
    (hSound : builder.Sound) (hRegular : builder.layout.Regular bits) (hSize : size.toNat ≤ 64)
    (hNext : ∀ block list after, BlockWithList builder interfaces block list after →
      Ensures (next block list) after post fail)
    (hFail : ∀ after, Builder.Extends builder after → fail after) :
    Ensures (do
      let block ← allocate size
      let list ← list interfaces
      next block list) builder post fail := by
  rw [ensures_bind]
  refine (ensures_allocate size hSound).mono (fun block first h => ?_) fun after h =>
    hFail after (h ▸ Builder.Grows.refl _)
  obtain ⟨extended, hBlock, hZero, hLarge⟩ := h
  have hRoom := hLarge (Nat.le_trans hSize (by decide))
  have laid := ensures_list interfaces (extended.sound hSound) (extended.layout ▸ hRegular)
  rw [nestedBelow_eq extended, extended.layout] at laid
  rw [ensures_bind]
  refine laid.mono (fun list second h => hNext block list second ?_) fun after h =>
    hFail after (extended.trans h)
  obtain ⟨grown, lays⟩ := h
  refine ⟨extended.trans grown, hBlock, Nat.le_trans (by omega) grown.finish_le, ?_, ?_⟩
  · intro position hLow hHigh
    exact grown.bytes position 0 trivial (hZero position (by omega) (by omega))
  · exact lays.mono (Contents.Within.since (by omega) fun _ _ _ h => h)

theorem grows_withNestedLists {first second : Builder} (grows : Builder.Extends first second) :
    Builder.Extends first { second with nestedLists := first.nestedLists } := by
  rw [← grows.nestedLists]
  exact grows

theorem ensures_protocol (incorporated : List Address) (hSound : builder.Sound)
    (hRegular : builder.layout.Regular bits) :
    Ensures (protocol incorporated) builder
      (fun protocol after => ∃ list, LaidProtocol builder incorporated protocol list after)
      (fun after => Builder.Extends builder after) := by
  unfold protocol
  rw [ensures_bind, ensures_get]
  have hNested := hRegular.nested
  cases hWhere : builder.layout.record.nested with
  | absent =>
      rw [hWhere] at hNested
      exact hNested.elim
  | inRecord offset =>
      refine ensures_blockWithList hSound hRegular (toNat_word_le builder)
        (fun protocol list after h => ?_) fun _ h => h
      rw [ensures_bind, ensures_modify, ensures_pure]
      refine ⟨list, @grows_withNestedLists builder after h.grows, h.address, h.room, ?_, ?_,
        fun other hOther => ?_⟩
      · exact h.lays.mono (Contents.Within.since (Nat.le_add_right _ _) fun _ _ _ h => h)
      · rw [hWhere, ← h.grows.nestedLists]
      · rw [hWhere] at hOther
        cases hOther
  | inInterface offset =>
      rw [hWhere] at hNested
      dsimp only at hNested
      refine ensures_blockWithList hSound hRegular (toNat_field_le hNested)
        (fun protocol list second h => ?_) fun _ h => h
      have hAddress := h.address
      rw [ensures_bind]
      refine ensures_place (fun field hField => ?_) h.grows
      have hStart : protocol.toNat ≤ field.toNat := hField ▸ Nat.le_add_right _ _
      have hEnd : field.toNat + builder.layout.pointerWidth.bytes ≤ protocol.toNat + 64 := by
        unfold Address.plus at hField
        omega
      rw [ensures_bind]
      refine (ensures_writePointer field list).mono (fun _ after hAfter => ?_) fun after hAfter =>
        hAfter ▸ h.grows
      obtain ⟨written, -, stores⟩ := hAfter
      rw [h.grows.layout] at written stores
      have hKept : Builder.Extends builder after :=
        h.grows.beyond written fun position _ _ => Or.inl (by omega)
      rw [ensures_pure]
      refine ⟨list, grows_withNestedLists hKept, hAddress,
        Nat.le_trans h.room written.finish_le, ?_, ?_, fun other hOther => ?_⟩
      · refine h.lays.mono (Contents.Within.since (by omega) fun position byte hLow hByte => ?_)
        exact written.bytes position byte (Or.inr (by omega)) hByte
      · rw [hWhere]
        exact hKept.nestedLists
      · rw [hWhere] at hOther
        cases hOther
        rw [← hField]
        exact stores.since (by omega)

theorem toNat_max_add_le {layout : Layout} {first second : UInt64}
    (hFirst : first.toNat + layout.pointerWidth.bytes ≤ 64)
    (hSecond : second.toNat + layout.pointerWidth.bytes ≤ 64) :
    (max first second + layout.word).toNat ≤ 64 := by
  change ((if first ≤ second then second else first) + layout.word).toNat ≤ 64
  split_ifs
  · exact toNat_field_le hSecond
  · exact toNat_field_le hFirst

/-- Replacing the superclass changes nothing else of a type that was just laid out. -/
theorem LaidType.setSuperclass {middle after : Builder} {old : Option Address}
    {superclass type list : Address} {declared : List Address}
    (laid : LaidType bits builder old declared type list middle)
    (grows : Builder.Grows (Outside (superclassPosition builder.layout type)
      builder.layout.pointerWidth.bytes) middle after) (hFinish : after.finish = middle.finish)
    (stores : builder.layout.Stores after.byte? (superclassPosition builder.layout type)
      superclass) : LaidType bits builder (some superclass) declared type list after := by
  have hAddress := laid.address
  have hStart : type.toNat ≤ superclassPosition builder.layout type := Nat.le_add_right _ _
  have hLater := Contents.Within.since (Nat.le_refl _) fun position byte hLow
    (h : middle.byte? position = some byte) => grows.bytes position byte (Or.inr hLow) h
  refine ⟨?_, hAddress, hFinish ▸ laid.room, stores, laid.lays.mono hLater, fun hBits => ?_⟩
  · exact laid.grows.beyond grows fun position _ _ => Or.inl (by omega)
  · exact (laid.links (hFinish ▸ hBits)).mono hLater

theorem ensures_type (superclass : Option Address) (declared : List Address)
    (hSound : builder.Sound) (hRegular : builder.layout.Regular bits) :
    Ensures (type superclass declared) builder
      (fun type after => ∃ list, LaidType bits builder superclass declared type list after)
      (fun after => Builder.Extends builder after) := by
  have hHops := hRegular.conformances
  have hFirst := (hHops _ List.mem_cons_self).offset
  have hSuperclass := hRegular.superclass.2.offset
  have hOrder := hRegular.order
  unfold Build.type
  rw [ensures_bind, ensures_get]
  refine ensures_blockWithList hSound hRegular (toNat_max_add_le hSuperclass hFirst)
    (fun type list second h => ?_) fun _ h => h
  have hAddress := h.address
  have hLayout := h.grows.layout
  have hField := stores_zero_of_block h.zero hFirst
  have hTop := stores_zero_of_block h.zero hSuperclass
  have stored := @ensures_storeAlong second bits type list _ _ (h.grows.sound hSound)
    (by rw [hLayout]; exact hHops) (fun _ => by rw [hLayout]; exact hField)
  rw [hLayout] at stored
  unfold store
  rw [ensures_bind]
  unfold Address.plus at stored hTop
  have hKept (after : Builder) (grows : Builder.Grows (Outside
      (type.toNat + builder.layout.conformances.first.offset.toNat)
      builder.layout.pointerWidth.bytes) second after) : Builder.Extends builder after :=
    h.grows.beyond grows fun position _ _ => Or.inl (by omega)
  refine stored.mono (fun _ third hThird => ?_) hKept
  obtain ⟨written, links⟩ := hThird
  have hPosition : superclassPosition builder.layout type =
      type.toNat + builder.layout.superclass.first.offset.toNat := rfl
  have laid : LaidType bits builder none declared type list third := by
    refine ⟨hKept third written, hAddress, Nat.le_trans h.room written.finish_le, ?_,
      h.lays.mono ?_, fun hBits => (links hBits).mono ?_⟩
    · exact written.stores hTop fun position _ _ => Or.inl (by omega)
    · refine Contents.Within.since (by omega) fun position byte hLow hByte => ?_
      exact written.bytes position byte (Or.inr (by omega)) hByte
    · exact Contents.Within.since (by omega) fun _ _ _ h => h
  cases superclass with
  | none => exact ⟨list, laid⟩
  | some superclass =>
      have replaced := ensures_setSuperclass type superclass (laid.grows.layout ▸ hRegular)
      rw [laid.grows.layout] at replaced
      dsimp only
      rw [ensures_bind]
      refine replaced.mono (fun _ after h => ?_) fun after h => h ▸ laid.grows
      obtain ⟨grows, hFinish, stores⟩ := h
      rw [ensures_pure]
      exact ⟨list, laid.setSuperclass grows hFinish stores⟩

end Conformance.Build
