import Conformance.Proofs.Builder.Draft
/-! Runs keep drafts represented. Each call adds a structure in new memory or replaces one
superclass, so what was represented before it is represented after it; a call that fails only
leaves memory behind. -/
namespace Conformance

namespace Declarations

/-- What holds of something new and of all that was there holds when the new is entered. -/
theorem forall_mem_cons_update {α : Type} {p : Address → α → Prop} {addresses : List Address}
    {field : Address → α} {address : Address} {value : α} (hNew : p address value)
    (hOld : ∀ other ∈ addresses, other ≠ address → p other (field other)) :
    ∀ other ∈ address :: addresses, p other (Function.update field address value other) := by
  intro other hOther
  rw [Function.update_apply]
  split_ifs with hSame
  · exact hSame ▸ hNew
  · exact hOld other ((List.mem_cons.mp hOther).resolve_left hSame) hSame

variable {declarations : Declarations} {address : Address}

theorem names_addProtocol_iff {protocol : Address} {incorporated : List Address} :
    (declarations.addProtocol protocol incorporated).Names address ↔
      address = protocol ∨ declarations.Names address := by
  unfold Names addProtocol
  rw [List.mem_cons, or_assoc]

theorem names_addType_iff {type : Address} {superclass : Option Address}
    {declared : List Address} : (declarations.addType type superclass declared).Names address ↔
      address = type ∨ declarations.Names address := by
  unfold Names addType
  rw [List.mem_cons, or_assoc, or_left_comm]

theorem names_addObject_iff {object type : Address} :
    (declarations.addObject object type).Names address ↔
      address = object ∨ declarations.Names address := by
  unfold Names addObject
  rw [List.mem_cons]
  tauto

namespace Closed

variable (closed : declarations.Closed)

include closed

theorem addProtocol {protocol : Address} {incorporated : List Address} (hProtocol : protocol ≠ 0)
    (hIncorporated : incorporated ⊆ declarations.protocols) :
    (declarations.addProtocol protocol incorporated).Closed where
  protocol_ne := List.forall_mem_cons.mpr ⟨hProtocol, closed.protocol_ne⟩
  type_ne := closed.type_ne
  object_ne := closed.object_ne
  incorporated := by
    apply forall_mem_cons_update (p := fun _ list => list ⊆ protocol :: declarations.protocols)
    · exact List.subset_cons_of_subset _ hIncorporated
    · intro other h _
      exact List.subset_cons_of_subset _ (closed.incorporated other h)
  declared type h := List.subset_cons_of_subset _ (closed.declared type h)
  superclass := closed.superclass
  typeOf := closed.typeOf

theorem addType {type : Address} {superclass : Option Address} {declared : List Address}
    (hType : type ≠ 0) (hSuperclass : ∀ ancestor ∈ superclass, ancestor ∈ declarations.types)
    (hDeclared : declared ⊆ declarations.protocols) :
    (declarations.addType type superclass declared).Closed where
  protocol_ne := closed.protocol_ne
  type_ne := List.forall_mem_cons.mpr ⟨hType, closed.type_ne⟩
  object_ne := closed.object_ne
  incorporated := closed.incorporated
  declared := by
    apply forall_mem_cons_update (p := fun _ list => list ⊆ declarations.protocols) hDeclared
    exact fun other h _ => closed.declared other h
  superclass := by
    apply forall_mem_cons_update (p := fun _ superclass? =>
      ∀ ancestor ∈ superclass?, ancestor ∈ type :: declarations.types)
    · intro ancestor h
      exact List.mem_cons_of_mem _ (hSuperclass ancestor h)
    · intro other hOther _ ancestor h
      exact List.mem_cons_of_mem _ (closed.superclass other hOther ancestor h)
  typeOf object h := List.mem_cons_of_mem _ (closed.typeOf object h)

theorem addObject {object type : Address} (hObject : object ≠ 0)
    (hType : type ∈ declarations.types) : (declarations.addObject object type).Closed where
  protocol_ne := closed.protocol_ne
  type_ne := closed.type_ne
  object_ne := List.forall_mem_cons.mpr ⟨hObject, closed.object_ne⟩
  incorporated := closed.incorporated
  declared := closed.declared
  superclass := closed.superclass
  typeOf := by
    apply forall_mem_cons_update (p := fun _ ofType => ofType ∈ declarations.types) hType
    exact fun other h _ => closed.typeOf other h

theorem setSuperclass {type superclass : Address} (hSuperclass : superclass ∈ declarations.types) :
    (declarations.setSuperclass type superclass).Closed where
  protocol_ne := closed.protocol_ne
  type_ne := closed.type_ne
  object_ne := closed.object_ne
  incorporated := closed.incorporated
  declared := closed.declared
  superclass other h ancestor hAncestor := by
    dsimp only [Declarations.setSuperclass] at hAncestor
    rw [Function.update_apply] at hAncestor
    split_ifs at hAncestor with hSame
    · cases hAncestor
      exact hSuperclass
    · exact closed.superclass other h ancestor hAncestor
  typeOf := closed.typeOf

end Closed

end Declarations

namespace Builder

variable {before after : Builder} {types : List Address}

/-- New types have their superclasses in new memory, so nothing that was steady is lost. -/
theorem steady_within_steady {more : List Address} (hLayout : after.layout = before.layout)
    (within : before.byte?.Within after.byte?)
    (hMore : ∀ type ∈ more, type ∈ types ∨ before.finish ≤ type.toNat) :
    (before.steady types).Within (after.steady more) := by
  intro position byte h
  obtain ⟨hOld, hByte⟩ := steady_eq_some_iff.mp h
  have hHigh := (byte?_eq_some hByte).2
  refine steady_eq_some_iff.mpr ⟨fun type hType hInside => ?_, within position byte hByte⟩
  unfold InSuperclass at hInside hOld
  rw [hLayout] at hInside
  rcases hMore type hType with hSame | hFresh
  · exact hOld type hSame hInside
  · have hStart : type.toNat ≤ Build.superclassPosition before.layout type := Nat.le_add_right _ _
    omega

/-- A new type lies in new memory as a whole, so nothing that was steady is lost beside it. -/
theorem steady_within_of_type {type : Address} (grows : Extends before after)
    (hAddress : type.toNat = before.finish) :
    (before.steady types).Within (after.steady (type :: types)) := by
  refine steady_within_steady grows.layout grows.within fun other h => ?_
  rcases List.mem_cons.mp h with rfl | hOther
  · exact Or.inr (Nat.le_of_eq hAddress.symm)
  · exact Or.inl hOther

/-- What lies after the superclasses of all types is steady. -/
theorem since_within_steady {builder : Builder} {start : Nat} (hStart : ∀ type ∈ types,
    Build.superclassPosition builder.layout type + builder.layout.pointerWidth.bytes ≤ start) :
    (builder.byte?.since start).Within (builder.steady types) := by
  intro position byte h
  unfold Contents.since at h
  split_ifs at h with hLow
  refine steady_eq_some_iff.mpr ⟨fun type hType hInside => ?_, h⟩
  have hEnd := hStart type hType
  unfold InSuperclass at hInside
  omega

/-- Replacing the superclass of a type changes nothing that is steady. -/
theorem steady_within_of_superclass {type : Address} (hType : type ∈ types)
    (grows : Grows (Build.Outside (Build.superclassPosition before.layout type)
      before.layout.pointerWidth.bytes) before after) :
    (before.steady types).Within (after.steady types) := by
  intro position byte h
  obtain ⟨hOld, hByte⟩ := steady_eq_some_iff.mp h
  unfold InSuperclass at hOld
  have hOutside := hOld type hType
  refine steady_eq_some_iff.mpr ⟨fun other hOther hInside => ?_, ?_⟩
  · unfold InSuperclass at hInside
    rw [grows.layout] at hInside
    exact hOld other hOther hInside
  · refine grows.bytes position byte ?_ hByte
    unfold Build.Outside
    omega

theorem Placed.grows {address : Address} (placed : before.Placed address)
    (hBase : after.base = before.base) (hFinish : before.finish ≤ after.finish) :
    after.Placed address :=
  ⟨hBase ▸ placed.low, placed.aligned, Nat.le_trans placed.high hFinish⟩

theorem placed_of_room {address : Address} (sound : before.Sound)
    (hAddress : address.toNat = before.finish) (hRoom : before.finish + 64 ≤ after.finish)
    (hBase : after.base = before.base) : after.Placed address := by
  refine ⟨?_, (sound.finish_block hAddress).2, hAddress ▸ hRoom⟩
  rw [hBase, hAddress]
  exact Nat.le_add_right _ _

theorem Placed.ne_of_finish {old address : Address} (placed : before.Placed old)
    (hAddress : address.toNat = before.finish) : old ≠ address := by
  intro h
  have hHigh := placed.high
  rw [h, hAddress] at hHigh
  omega

end Builder

namespace Layout

variable {layout : Layout} {contents whole : Contents} {nest other : Address → Address}

/-- Where records hold the lists below protocols, those of other protocols do not matter. -/
theorem Lays.congr {interfaces : List Address} {list : Address}
    (lays : layout.Lays contents nest interfaces list)
    (hNest : ∀ interface ∈ interfaces, ∀ offset, layout.record.nested = .inRecord offset →
      nest interface = other interface) : layout.Lays contents other interfaces list := by
  refine lays.imp_right fun lists => ?_
  refine ⟨lists.nonnull, lists.aligned, lists.nonempty, lists.bound, lists.count, ?_⟩
  intro index interface hIndex
  obtain ⟨hName, hNested⟩ := lists.records index interface hIndex
  refine ⟨hName, fun offset hOffset => ?_⟩
  rw [← hNest interface (List.mem_of_getElem? hIndex) offset hOffset]
  exact hNested offset hOffset

theorem HasProtocol.mono {below beyond : Address → Address} {incorporated : List Address}
    {protocol : Address} (has : layout.HasProtocol contents nest below incorporated protocol)
    (within : contents.Within whole) (hNest : other protocol = nest protocol)
    (hIncorporated : ∀ interface ∈ incorporated, nest interface = other interface)
    (hBelow : beyond protocol = below protocol) :
    layout.HasProtocol whole other beyond incorporated protocol where
  lays := by
    rw [hNest]
    exact (has.lays.mono within).congr fun interface h _ _ => hIncorporated interface h
  inInterface offset hOffset := by
    rw [hNest]
    exact (has.inInterface offset hOffset).mono within
  inRecord offset hOffset := by
    rw [hNest, hBelow]
    exact has.inRecord offset hOffset

theorem HasType.mono {bits : Nat} {declared : List Address} {type : Address}
    (has : layout.HasType contents bits nest declared type) (within : contents.Within whole)
    (hDeclared : ∀ interface ∈ declared, nest interface = other interface) :
    layout.HasType whole bits other declared type := by
  obtain ⟨list, lays, links⟩ := has
  exact ⟨list, (lays.mono within).congr fun interface h _ _ => hDeclared interface h,
    links.mono within⟩

end Layout

namespace Draft.Represents

variable {draft : Draft} {bits : Nat} {nest : Address → Address} {after : Builder}

/-- What was represented is still there for a builder that has kept the steady bytes. -/
theorem steady_mono (represents : draft.Represents bits nest) {kept : Nat → Prop}
    {more : List Address} (grows : Builder.Grows kept draft.builder after)
    (hSteady : (draft.builder.steady draft.declarations.types).Within (after.steady more)) :
    (∀ protocol ∈ draft.declarations.protocols, after.layout.HasProtocol (after.steady more) nest
      (Build.nestedBelow after) (draft.declarations.incorporated protocol) protocol) ∧
    (∀ type ∈ draft.declarations.types, after.layout.HasType (after.steady more) bits nest
      (draft.declarations.declared type) type) ∧
    ∀ object ∈ draft.declarations.objects, after.layout.HasObject (after.steady more) bits
      (draft.declarations.typeOf object) object := by
  rw [grows.layout, Build.nestedBelow_eq grows]
  refine ⟨fun protocol h => ?_, fun type h => ?_, fun object h => ?_⟩
  · exact (represents.protocols protocol h).mono hSteady rfl (fun _ _ => rfl) rfl
  · exact (represents.types type h).mono hSteady fun _ _ => rfl
  · exact (represents.objects object h).mono hSteady

/-- What a failed call leaves behind does no harm. -/
theorem extend (represents : draft.Represents bits nest)
    (grows : Builder.Extends draft.builder after) :
    Represents ⟨after, draft.declarations⟩ bits nest := by
  have hSteady := Builder.steady_within_steady grows.layout grows.within
    fun type (h : type ∈ draft.declarations.types) => Or.inl h
  obtain ⟨hProtocols, hTypes, hObjects⟩ := represents.steady_mono grows hSteady
  constructor
  case regular => exact grows.layout ▸ represents.regular
  case sound => exact grows.sound represents.sound
  case closed => exact represents.closed
  case placed =>
    intro address hNames
    exact (represents.placed address hNames).grows grows.base grows.finish_le
  case apart => exact represents.apart
  case protocols => exact hProtocols
  case types => exact hTypes
  case objects => exact hObjects
  case superclass =>
    intro type hType
    dsimp only
    rw [grows.layout]
    exact (represents.superclass type hType).mono grows.within

/-- The superclasses of all types lie in memory laid out already. -/
theorem superclass_le_finish (represents : draft.Represents bits nest) {type : Address}
    (hType : type ∈ draft.declarations.types) :
    Build.superclassPosition draft.builder.layout type +
      draft.builder.layout.pointerWidth.bytes ≤ draft.builder.finish := by
  have hHigh := (represents.placed type (Or.inr (Or.inl hType))).high
  have hOffset := represents.regular.superclass.2.offset
  unfold Build.superclassPosition Address.plus
  omega

/-- What is laid out after everything else is steady. -/
theorem since_within_steady (represents : draft.Represents bits nest)
    (hLayout : after.layout = draft.builder.layout) :
    (after.byte?.since draft.builder.finish).Within (after.steady draft.declarations.types) := by
  apply Builder.since_within_steady
  rw [hLayout]
  exact fun type h => represents.superclass_le_finish h

theorem addObject (represents : draft.Represents bits nest) {type object : Address}
    (laid : Build.LaidObject bits draft.builder type object after)
    (hBits : after.finish ≤ 2 ^ bits) (hType : type ∈ draft.declarations.types) :
    Represents ⟨after, draft.declarations.addObject object type⟩ bits nest := by
  have extended := represents.extend laid.grows
  have hObject := (represents.sound.finish_block laid.address).1
  have hSteady := represents.since_within_steady laid.grows.layout
  refine { extended with closed := ?_, placed := ?_, objects := ?_ }
  · exact represents.closed.addObject hObject hType
  · intro address hNames
    rcases Declarations.names_addObject_iff.mp hNames with rfl | hOld
    · exact Builder.placed_of_room represents.sound laid.address laid.room laid.grows.base
    · exact extended.placed address hOld
  · apply Declarations.forall_mem_cons_update (p := fun object type =>
      after.layout.HasObject (after.steady draft.declarations.types) bits type object)
    · rw [laid.grows.layout]
      exact (laid.links hBits).mono hSteady
    · exact fun other h _ => extended.objects other h

/-- A new protocol has its list, wherever the layout keeps it. -/
theorem hasProtocol_of_laid (represents : draft.Represents bits nest)
    {incorporated : List Address} {protocol list : Address}
    (laid : Build.LaidProtocol draft.builder incorporated protocol list after)
    (hIncorporated : incorporated ⊆ draft.declarations.protocols) :
    after.layout.HasProtocol (after.steady draft.declarations.types)
      (Function.update nest protocol list) (Build.nestedBelow after) incorporated protocol := by
  have hLayout : after.layout = draft.builder.layout := laid.grows.layout
  have hSteady := represents.since_within_steady hLayout
  rw [hLayout]
  constructor
  · rw [Function.update_self]
    refine (laid.lays.mono hSteady).congr fun interface h offset hOffset => ?_
    have hOld := hIncorporated h
    have hNe := (represents.placed interface (Or.inl hOld)).ne_of_finish laid.address
    rw [Function.update_of_ne hNe]
    exact (represents.protocols interface hOld).inRecord offset hOffset
  · intro offset hOffset
    rw [Function.update_self]
    exact (laid.nested offset hOffset).mono hSteady
  · intro offset hOffset
    unfold Build.nestedBelow
    rw [laid.nestedLists, hOffset, Function.update_self]
    simp

theorem addProtocol (represents : draft.Represents bits nest) {incorporated : List Address}
    {protocol list : Address}
    (laid : Build.LaidProtocol draft.builder incorporated protocol list after)
    (hIncorporated : incorporated ⊆ draft.declarations.protocols) :
    Represents ⟨after, draft.declarations.addProtocol protocol incorporated⟩ bits
      (Function.update nest protocol list) := by
  have extended := represents.extend laid.grows
  have hProtocol := (represents.sound.finish_block laid.address).1
  have hNest (other : Address) (h : other ∈ draft.declarations.protocols) :
      Function.update nest protocol list other = nest other :=
    Function.update_of_ne ((represents.placed other (Or.inl h)).ne_of_finish laid.address) _ _
  have hBelow (other : Address) (h : other ≠ protocol) :
      Build.nestedBelow after other = Build.nestedBelow draft.builder other := by
    unfold Build.nestedBelow
    rw [laid.nestedLists]
    split
    · rw [List.lookup_cons, beq_false_of_ne h]
    · rfl
  constructor
  case regular => exact extended.regular
  case sound => exact ⟨extended.sound.1, extended.sound.2, extended.sound.3, extended.sound.4⟩
  case closed => exact represents.closed.addProtocol hProtocol hIncorporated
  case placed =>
    intro address hNames
    rcases Declarations.names_addProtocol_iff.mp hNames with rfl | hOld
    · exact Builder.placed_of_room represents.sound laid.address laid.room laid.grows.base
    · exact (represents.placed address hOld).grows laid.grows.base laid.grows.finish_le
  case apart => exact represents.apart
  case protocols =>
    apply Declarations.forall_mem_cons_update (p := fun protocol' incorporated' =>
      after.layout.HasProtocol (after.steady draft.declarations.types)
        (Function.update nest protocol list) (Build.nestedBelow after) incorporated' protocol')
    · exact represents.hasProtocol_of_laid laid hIncorporated
    · intro other hOld hNe
      refine (extended.protocols other hOld).mono (fun _ _ h => h) (hNest other hOld)
        (fun interface h => ?_) (hBelow other hNe)
      exact (hNest interface (represents.closed.incorporated other hOld h)).symm
  case types =>
    intro type hType
    refine (extended.types type hType).mono (fun _ _ h => h) fun interface h => ?_
    exact (hNest interface (represents.closed.declared type hType h)).symm
  case objects => exact extended.objects
  case superclass => exact extended.superclass

/-- What leads to the conformance list of a new type is steady. -/
theorem since_within_addType (represents : draft.Represents bits nest)
    {superclass : Option Address} {declared : List Address} {type list : Address}
    (laid : Build.LaidType bits draft.builder superclass declared type list after) :
    (after.byte?.since (Build.superclassPosition draft.builder.layout type +
      draft.builder.layout.pointerWidth.bytes)).Within
        (after.steady (type :: draft.declarations.types)) := by
  have hAddress := laid.address
  apply Builder.since_within_steady
  rw [laid.grows.layout]
  intro other h
  rcases List.mem_cons.mp h with rfl | hOther
  · exact Nat.le_refl _
  · have hEnd := represents.superclass_le_finish hOther
    have hStart : type.toNat ≤ Build.superclassPosition draft.builder.layout type :=
      Nat.le_add_right _ _
    omega

/-- The block of a new type lies behind those of all other types. -/
theorem apart_addType (represents : draft.Represents bits nest) {type : Address}
    (hAddress : type.toNat = draft.builder.finish) :
    ∀ first ∈ type :: draft.declarations.types, ∀ second ∈ type :: draft.declarations.types,
      first ≠ second → first.toNat + 64 ≤ second.toNat ∨ second.toNat + 64 ≤ first.toNat := by
  have hBefore (other : Address) (h : other ∈ draft.declarations.types) :
      other.toNat + 64 ≤ type.toNat := by
    rw [hAddress]
    exact (represents.placed other (Or.inr (Or.inl h))).high
  intro first hFirst second hSecond hNe
  rcases List.mem_cons.mp hFirst with rfl | hOldFirst
  · rcases List.mem_cons.mp hSecond with rfl | hOldSecond
    · exact absurd rfl hNe
    · exact Or.inr (hBefore second hOldSecond)
  · rcases List.mem_cons.mp hSecond with rfl | hOldSecond
    · exact Or.inl (hBefore first hOldFirst)
    · exact represents.apart first hOldFirst second hOldSecond hNe

theorem addType (represents : draft.Represents bits nest) {superclass : Option Address}
    {declared : List Address} {type list : Address}
    (laid : Build.LaidType bits draft.builder superclass declared type list after)
    (hBits : after.finish ≤ 2 ^ bits)
    (hSuperclass : ∀ ancestor ∈ superclass, ancestor ∈ draft.declarations.types)
    (hDeclared : declared ⊆ draft.declarations.protocols) :
    Represents ⟨after, draft.declarations.addType type superclass declared⟩ bits nest := by
  have hLayout := laid.grows.layout
  have hType := (represents.sound.finish_block laid.address).1
  have hNew := represents.since_within_addType laid
  obtain ⟨hProtocols, hTypes, hObjects⟩ := represents.steady_mono laid.grows
    (Builder.steady_within_of_type laid.grows laid.address)
  constructor
  case regular => exact hLayout ▸ represents.regular
  case sound => exact laid.grows.sound represents.sound
  case closed => exact represents.closed.addType hType hSuperclass hDeclared
  case placed =>
    intro address hNames
    rcases Declarations.names_addType_iff.mp hNames with rfl | hOther
    · exact Builder.placed_of_room represents.sound laid.address laid.room laid.grows.base
    · exact (represents.placed address hOther).grows laid.grows.base laid.grows.finish_le
  case apart => exact represents.apart_addType laid.address
  case protocols => exact hProtocols
  case types =>
    apply Declarations.forall_mem_cons_update (p := fun other declared =>
      after.layout.HasType (after.steady (type :: draft.declarations.types)) bits nest declared
        other)
    · rw [hLayout]
      refine ⟨list, (laid.lays.mono hNew).congr ?_, (laid.links hBits).mono hNew⟩
      intro interface h offset hOffset
      exact (represents.protocols interface (hDeclared h)).inRecord offset hOffset
    · exact fun other hOther _ => hTypes other hOther
  case objects => exact hObjects
  case superclass =>
    dsimp only
    rw [hLayout]
    apply Declarations.forall_mem_cons_update (p := fun other (superclass? : Option Address) =>
      draft.builder.layout.Stores after.byte?
        (Build.superclassPosition draft.builder.layout other) (superclass?.getD 0))
    · exact laid.superclass
    · exact fun other hOther _ => (represents.superclass other hOther).mono laid.grows.within

theorem setSuperclass (represents : draft.Represents bits nest) {type superclass : Address}
    (grows : Builder.Grows (Build.Outside (Build.superclassPosition draft.builder.layout type)
      draft.builder.layout.pointerWidth.bytes) draft.builder after)
    (stores : draft.builder.layout.Stores after.byte?
      (Build.superclassPosition draft.builder.layout type) superclass)
    (hType : type ∈ draft.declarations.types)
    (hSuperclass : superclass ∈ draft.declarations.types) :
    Represents ⟨after, draft.declarations.setSuperclass type superclass⟩ bits nest := by
  have hLayout := grows.layout
  have hOffset := represents.regular.superclass.2.offset
  have hSteady := Builder.steady_within_of_superclass hType grows
  obtain ⟨hProtocols, hTypes, hObjects⟩ := represents.steady_mono grows hSteady
  constructor
  case regular => exact hLayout ▸ represents.regular
  case sound => exact grows.sound represents.sound
  case closed => exact represents.closed.setSuperclass hSuperclass
  case placed =>
    intro address hNames
    exact (represents.placed address hNames).grows grows.base grows.finish_le
  case apart => exact represents.apart
  case protocols => exact hProtocols
  case types => exact hTypes
  case objects => exact hObjects
  case superclass =>
    intro other hOther
    dsimp only [Declarations.setSuperclass]
    rw [Function.update_apply, hLayout]
    split_ifs with hSame
    · rw [hSame]
      exact stores
    · have hApart := represents.apart other hOther type hType hSame
      refine grows.stores (represents.superclass other hOther) fun position hLow hHigh => ?_
      unfold Build.Outside
      unfold Build.superclassPosition Address.plus at hLow hHigh ⊢
      omega

end Draft.Represents

namespace Draft

variable {draft : Draft} {bits : Nat} {nest : Address → Address}

/-- What a call makes of a draft. A call that fails leaves memory behind and declares nothing. -/
inductive Changes (bits : Nat) (draft : Draft) : Call → Draft → Prop where
  | failed {call : Call} {after : Builder} (grows : Builder.Extends draft.builder after) :
      Changes bits draft call ⟨after, draft.declarations⟩
  | protocol {incorporated : List Address} {protocol list : Address} {after : Builder}
      (laid : Build.LaidProtocol draft.builder incorporated protocol list after) :
      Changes bits draft (.protocol incorporated)
        ⟨after, draft.declarations.addProtocol protocol incorporated⟩
  | type {superclass : Option Address} {declared : List Address} {type list : Address}
      {after : Builder}
      (laid : Build.LaidType bits draft.builder superclass declared type list after) :
      Changes bits draft (.type superclass declared)
        ⟨after, draft.declarations.addType type superclass declared⟩
  | object {type object : Address} {after : Builder}
      (laid : Build.LaidObject bits draft.builder type object after) :
      Changes bits draft (.object type) ⟨after, draft.declarations.addObject object type⟩
  | setSuperclass {type superclass : Address} {after : Builder}
      (grows : Builder.Grows (Build.Outside (Build.superclassPosition draft.builder.layout type)
        draft.builder.layout.pointerWidth.bytes) draft.builder after)
      (stores : draft.builder.layout.Stores after.byte?
        (Build.superclassPosition draft.builder.layout type) superclass) :
      Changes bits draft (.setSuperclass type superclass)
        ⟨after, draft.declarations.setSuperclass type superclass⟩

/-- An operation that fails only has to keep what was laid out before it. -/
theorem changes_apply {α : Type} {call : Call} {action : Build α} {post : α → Builder → Prop}
    {declare : α → Declarations → Declarations}
    (ensures : Build.Ensures action draft.builder post (Builder.Extends draft.builder))
    (hPost : ∀ result after, post result after →
      draft.Changes bits call ⟨after, declare result draft.declarations⟩) :
    draft.Changes bits call (draft.apply action declare) := by
  unfold Build.Ensures at ensures
  unfold Draft.apply
  cases hRun : action.run draft.builder with
  | ok result after =>
      rw [hRun] at ensures
      exact hPost result after ensures
  | error error after =>
      rw [hRun] at ensures
      exact .failed ensures

theorem changes_perform (sound : draft.builder.Sound) (regular : draft.builder.layout.Regular bits)
    (call : Call) : draft.Changes bits call (draft.perform call) := by
  unfold Draft.perform
  cases call with
  | protocol incorporated =>
      refine changes_apply (Build.ensures_protocol incorporated sound regular) fun _ _ h => ?_
      obtain ⟨list, laid⟩ := h
      exact .protocol laid
  | type superclass declared =>
      refine changes_apply (Build.ensures_type superclass declared sound regular) fun _ _ h => ?_
      obtain ⟨list, laid⟩ := h
      exact .type laid
  | object type =>
      exact changes_apply (Build.ensures_object type sound regular) fun _ _ laid => .object laid
  | setSuperclass type superclass =>
      have ensures := Build.ensures_setSuperclass type superclass regular
      refine changes_apply (ensures.mono (fun _ _ h => h) fun after h => h ▸ Builder.Grows.refl _)
        fun _ _ h => ?_
      exact .setSuperclass h.1 h.2.2

/-- What a call leaves of a draft: the steady bytes stay what they are, and everything declared
stays declared. -/
structure Keeps (before after : Draft) : Prop where
  layout : after.builder.layout = before.builder.layout
  finish_le : before.builder.finish ≤ after.builder.finish
  steady : (before.builder.steady before.declarations.types).Within
    (after.builder.steady after.declarations.types)
  protocols : before.declarations.protocols ⊆ after.declarations.protocols
  types : before.declarations.types ⊆ after.declarations.types

theorem keeps_of_extends {after : Builder} {declarations : Declarations}
    (grows : Builder.Extends draft.builder { after with nestedLists := draft.builder.nestedLists })
    (hProtocols : draft.declarations.protocols ⊆ declarations.protocols)
    (hTypes : declarations.types = draft.declarations.types) :
    draft.Keeps ⟨after, declarations⟩ where
  layout := grows.layout
  finish_le := grows.finish_le
  steady := by
    have within : draft.builder.byte?.Within after.byte? := grows.within
    exact Builder.steady_within_steady grows.layout within fun _ h => Or.inl (hTypes ▸ h)
  protocols := hProtocols
  types := hTypes ▸ List.Subset.refl _

theorem Changes.keeps {call : Call} {after : Draft} (changes : draft.Changes bits call after)
    (wellSorted : call.WellSorted draft.declarations) : draft.Keeps after := by
  cases changes with
  | failed grows => exact keeps_of_extends (Build.grows_withNestedLists grows) (fun _ h => h) rfl
  | protocol laid => exact keeps_of_extends laid.grows (List.subset_cons_self _ _) rfl
  | object laid =>
      exact keeps_of_extends (Build.grows_withNestedLists laid.grows) (fun _ h => h) rfl
  | type laid =>
      exact ⟨laid.grows.layout, laid.grows.finish_le,
        Builder.steady_within_of_type laid.grows laid.address, fun _ h => h,
        List.subset_cons_self _ _⟩
  | setSuperclass grows _ =>
      exact ⟨grows.layout, grows.finish_le,
        Builder.steady_within_of_superclass wellSorted.1 grows, fun _ h => h, fun _ h => h⟩

/-- What holds of every draft of a run. That the declarations are represented is only known as long
as the masks of the layout keep all addresses. -/
structure Running (layout : Layout) (bits : Nat) (draft : Draft) : Prop where
  layout : draft.builder.layout = layout
  sound : draft.builder.Sound
  represents : draft.builder.finish ≤ 2 ^ bits → ∃ nest, draft.Represents bits nest

namespace Running

variable {layout : Layout} (running : draft.Running layout bits)

include running

/-- A draft that comes next is represented if the draft before it is. -/
theorem next {after : Draft} (keeps : draft.Keeps after) (hSound : after.builder.Sound)
    (hRepresents : after.builder.finish ≤ 2 ^ bits → ∀ nest, draft.Represents bits nest →
      ∃ more, after.Represents bits more) : after.Running layout bits := by
  refine ⟨keeps.layout.trans running.layout, hSound, fun hBits => ?_⟩
  obtain ⟨nest, represents⟩ := running.represents (Nat.le_trans keeps.finish_le hBits)
  exact hRepresents hBits nest represents

/-- Memory that is only left behind keeps what holds of every draft of a run. -/
theorem extend {after : Builder} (grows : Builder.Extends draft.builder after) :
    Running layout bits ⟨after, draft.declarations⟩ := by
  have keeps : draft.Keeps ⟨after, draft.declarations⟩ :=
    keeps_of_extends (Build.grows_withNestedLists grows) (fun _ h => h) rfl
  apply running.next keeps (grows.sound running.sound)
  exact fun _ nest represents => ⟨nest, represents.extend grows⟩

/-- A call keeps what holds of every draft of a run. -/
theorem perform (hRegular : layout.Regular bits) {call : Call}
    (wellSorted : call.WellSorted draft.declarations) :
    (draft.perform call).Running layout bits := by
  have sound := running.sound
  have changes := draft.changes_perform sound (running.layout ▸ hRegular) call
  have keeps := changes.keeps wellSorted
  generalize draft.perform call = after at changes keeps ⊢
  cases changes with
  | failed grows => exact running.extend grows
  | protocol laid =>
      have hSound := laid.grows.sound sound
      apply running.next keeps ⟨hSound.1, hSound.2, hSound.3, hSound.4⟩
      exact fun _ _ represents => ⟨_, represents.addProtocol laid wellSorted⟩
  | type laid =>
      apply running.next keeps (laid.grows.sound sound)
      intro hBits nest represents
      exact ⟨nest, represents.addType laid hBits wellSorted.1 wellSorted.2⟩
  | object laid =>
      apply running.next keeps (laid.grows.sound sound)
      exact fun hBits nest represents => ⟨nest, represents.addObject laid hBits wellSorted⟩
  | setSuperclass grows stores =>
      apply running.next keeps (grows.sound sound)
      intro _ nest represents
      exact ⟨nest, represents.setSuperclass grows stores wellSorted.1 wellSorted.2⟩

end Running

theorem running_start {layout : Layout} {base : Address} (hRegular : layout.Regular bits)
    (hBase : base ≠ 0) (hAligned : base.toNat % 16 = 0) :
    (Draft.start layout base).Running layout bits := by
  have sound : (Draft.start layout base).builder.Sound :=
    ⟨hBase, hAligned, rfl, Nat.le_of_lt base.toNat_lt⟩
  refine ⟨rfl, sound, fun _ => ⟨fun _ => 0, ?_⟩⟩
  constructor
  case regular => exact hRegular
  case sound => exact sound
  case closed => constructor <;> exact fun _ h => absurd h List.not_mem_nil
  case placed =>
    intro address hNames
    rcases hNames with h | h | h <;> exact absurd h List.not_mem_nil
  all_goals exact fun _ h => absurd h List.not_mem_nil

/-- Every draft of a run is represented, as long as the masks of the layout keep all addresses. -/
theorem Reaches.running {layout : Layout} {base : Address} (hRegular : layout.Regular bits)
    (hBase : base ≠ 0) (hAligned : base.toNat % 16 = 0)
    (run : (Draft.start layout base).Reaches draft) : draft.Running layout bits := by
  induction run with
  | refl => exact running_start hRegular hBase hAligned
  | perform _ wellSorted ih => exact ih.perform hRegular wellSorted

end Draft

end Conformance
