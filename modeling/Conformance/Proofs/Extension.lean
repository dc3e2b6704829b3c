import Conformance.Proofs.Path
/-! Memories that hold more, and paths that may go further. A path is made of granted reads, so it
is still there in a memory that grants these reads with the same bytes; and what is within reach is
within every longer reach. -/
namespace Conformance

/-- A reader grants whatever another one grants, with the same bytes. -/
def Reader.Extends (larger smaller : Reader) : Prop :=
  ∀ address length bytes, smaller address length = some bytes → larger address length = some bytes

theorem Reader.Extends.refl (reader : Reader) : reader.Extends reader :=
  fun _ _ _ h => h

theorem Reader.Extends.trans {largest larger smaller : Reader} (first : larger.Extends smaller)
    (second : largest.Extends larger) : largest.Extends smaller :=
  fun address length bytes h => second address length bytes (first address length bytes h)

/-- One reach goes as far as another one in every respect. -/
structure Reach.Within (shorter longer : Reach) : Prop where
  hops : shorter.hops ≤ longer.hops
  depth : shorter.depth ≤ longer.depth
  entries : shorter.entries ≤ longer.entries

theorem Reach.Within.refl (reach : Reach) : reach.Within reach :=
  ⟨le_rfl, le_rfl, le_rfl⟩

/-- Of the bounds of a query, the number of records is no part of its reach. -/
theorem Limits.reach_within {strict loose : Limits}
    (hHops : strict.superclassHops ≤ loose.superclassHops)
    (hDepth : strict.effectiveDepth ≤ loose.effectiveDepth)
    (hEntries : strict.listEntries ≤ loose.listEntries) : strict.reach.Within loose.reach :=
  ⟨Nat.cast_le.mpr hHops, Nat.cast_le.mpr hDepth, Nat.cast_le.mpr hEntries⟩

/-- What is fetched where less is granted is fetched where more is. -/
theorem Probe.run_fetch_of_extends {α : Type} {larger smaller : Reader}
    (more : larger.Extends smaller) {position length : Nat} {decode : List UInt8 → α} {value : α}
    (h : (fetch position length decode).run smaller = some value) :
    (fetch position length decode).run larger = some value := by
  rw [run_fetch] at h ⊢
  obtain ⟨address, hAddress, hValue⟩ := Option.bind_eq_some_iff.mp h
  obtain ⟨bytes, hBytes, hDecode⟩ := Option.map_eq_some_iff.mp hValue
  rw [hAddress, Option.bind_some, more address length bytes hBytes, Option.map_some, hDecode]

namespace Layout

variable {layout : Layout} {larger smaller : Reader} (more : larger.Extends smaller)
  {base value : Address}

include more

theorem run_readPointer_of_extends {position : Nat}
    (h : (layout.readPointer position).run smaller = some value) :
    (layout.readPointer position).run larger = some value :=
  Probe.run_fetch_of_extends more h

theorem run_readHop_of_extends {hop : Hop}
    (h : (layout.readHop base hop).run smaller = some value) :
    (layout.readHop base hop).run larger = some value := by
  simp only [readHop, Probe.run_bind] at h ⊢
  cases hWord : (layout.readPointer (Address.plus base hop.offset)).run smaller with
  | none =>
      rw [hWord] at h
      cases h
  | some word =>
      rw [hWord] at h
      rw [run_readPointer_of_extends more hWord]
      dsimp only at h ⊢
      split_ifs at h ⊢
      · exact h
      · exact run_readPointer_of_extends more h

theorem run_followHops_of_extends {hops : List Hop}
    (h : (layout.followHops base hops).run smaller = some value) :
    (layout.followHops base hops).run larger = some value := by
  induction hops generalizing base with
  | nil => exact h
  | cons hop rest ih =>
      simp only [followHops, Probe.run_bind] at h ⊢
      cases hNext : (layout.readHop base hop).run smaller with
      | none =>
          rw [hNext] at h
          cases h
      | some next =>
          rw [hNext] at h
          rw [run_readHop_of_extends more hNext]
          dsimp only at h ⊢
          split_ifs at h ⊢
          · exact h
          · exact ih h

end Layout

namespace Metadata

/-- A memory has whatever metadata another one has. -/
structure Extends (larger smaller : Metadata) : Prop where
  layout : larger.layout = smaller.layout
  reader : larger.reader.Extends smaller.reader

namespace Extends

variable {larger smaller : Metadata} (more : larger.Extends smaller) {position index level : Nat}
  {address value base list : Address}

include more

theorem field? {path : Path} (h : smaller.field? base path = some value) :
    larger.field? base path = some value := by
  unfold Metadata.field? at h ⊢
  rw [more.layout]
  exact Layout.run_followHops_of_extends more.reader h

theorem pointer? (h : smaller.pointer? position = some value) :
    larger.pointer? position = some value := by
  unfold Metadata.pointer? at h ⊢
  rw [more.layout]
  exact Layout.run_readPointer_of_extends more.reader h

theorem objectType? (h : smaller.objectType? address = some value) :
    larger.objectType? address = some value := by
  unfold Metadata.objectType? at h ⊢
  rw [more.layout]
  exact more.field? h

theorem superclass? (h : smaller.superclass? address = some value) :
    larger.superclass? address = some value := by
  unfold Metadata.superclass? at h ⊢
  rw [more.layout]
  exact more.field? h

theorem conformances? (h : smaller.conformances? address = some value) :
    larger.conformances? address = some value := by
  unfold Metadata.conformances? at h ⊢
  rw [more.layout]
  exact more.field? h

theorem count? {count : UInt64} (h : smaller.count? list = some count) :
    larger.count? list = some count := by
  unfold Metadata.count? at h ⊢
  rw [more.layout]
  exact Probe.run_fetch_of_extends more.reader h

theorem interface? (h : smaller.interface? list index = some value) :
    larger.interface? list index = some value := by
  unfold Metadata.interface? at h ⊢
  rw [more.layout]
  exact more.pointer? h

theorem nested? {interface : Address} (h : smaller.nested? list index interface = some value) :
    larger.nested? list index interface = some value := by
  unfold Metadata.nested? at h ⊢
  rw [more.layout]
  split at h
  · exact h
  · exact more.pointer? h

theorem ascends {hops : Nat} {type ancestor : Address}
    (ascent : smaller.Ascends hops type ancestor) : larger.Ascends hops type ancestor := by
  induction ascent with
  | zero type => exact .zero type
  | succ first hNonnull _ ih => exact .succ (more.superclass? first) hNonnull ih

variable {shorter longer : Reach} (within : shorter.Within longer)

include within

theorem hasRecord (h : smaller.HasRecord shorter list index) :
    larger.HasRecord longer list index := by
  obtain ⟨count, hCount, hEntries, hIndex⟩ := h
  exact ⟨count, more.count? hCount, hEntries.trans within.entries, hIndex⟩

theorem names {protocol : Address} (h : smaller.Names shorter list protocol) :
    larger.Names longer list protocol := by
  obtain ⟨index, hIndex, hNamed⟩ := h
  exact ⟨index, more.hasRecord within hIndex, more.interface? hNamed⟩

theorem nests {nested : Address} (h : smaller.Nests shorter list nested) :
    larger.Nests longer list nested := by
  obtain ⟨index, interface, hIndex, hInterface, hNonnull, hNested, hList⟩ := h
  exact ⟨index, interface, more.hasRecord within hIndex, more.interface? hInterface, hNonnull,
    more.nested? hNested, hList⟩

theorem descends {last : Address} (descent : smaller.Descends shorter level list last) :
    larger.Descends longer level list last := by
  induction descent with
  | zero list => exact .zero list
  | succ first _ ih => exact .succ (more.nests within first) ih

theorem declares {type protocol : Address} (h : smaller.Declares shorter type protocol) :
    larger.Declares longer type protocol := by
  obtain ⟨list, level, hList, hNonnull, hLevel, last, descent, hNames⟩ := h
  exact ⟨list, level, more.conformances? hList, hNonnull, hLevel.trans within.depth, last,
    more.descends within descent, more.names within hNames⟩

/-- A declared path is not lost where more is granted and it may go further. -/
theorem typeConforms {type protocol : Address} (h : smaller.TypeConforms shorter type protocol) :
    larger.TypeConforms longer type protocol := by
  obtain ⟨hops, ancestor, hHops, ascent, hDeclares⟩ := h
  exact ⟨hops, ancestor, hHops.trans within.hops, more.ascends ascent,
    more.declares within hDeclares⟩

end Extends

end Metadata

end Conformance
