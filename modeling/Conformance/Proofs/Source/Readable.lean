import Conformance.Builder.Basic
import Conformance.Memory.Live
import Conformance.Proofs.Image.Segments
/-! Tests and reads agree. Whether a range is readable is told without reading it, and in a running
process by asking for it piece by piece; in every memory the answer is yes exactly if a read of the
range succeeds. -/
namespace Conformance

/-- A range passes the test exactly if reading it succeeds. -/
def Source.Consistent (source : Source) : Prop :=
  ∀ address length,
    source.isReadable address length = true ↔ ∃ bytes, source.read address length = some bytes

theorem Buffer.slice?_of_inside {buffer : Buffer} {offset length : Nat}
    (hInside : offset + length ≤ buffer.size) :
    ∃ bytes, buffer.slice? offset length = some bytes :=
  ⟨_, if_pos hInside⟩

/-- What holds a range has all its bytes. -/
theorem Image.consistent (image : Image) : image.source.Consistent := by
  intro address length
  change (image.holder? address length).isSome = true ↔
    ∃ bytes, image.read address length = some bytes
  unfold read
  cases hHolder : image.holder? address length with
  | none => simp
  | some segment =>
      obtain ⟨-, hStart, hEnd⟩ := holds_of_holder? hHolder
      rw [UInt64.le_iff_toNat_le] at hStart
      unfold Segment.finish at hEnd
      have hInside : address.toNat - segment.base.toNat + length ≤ segment.bytes.size := by omega
      simpa using Buffer.slice?_of_inside hInside

theorem Dump.consistent (dump : Dump) : dump.source.Consistent := by
  intro address length
  change dump.isReadable address length = true ↔ ∃ bytes, dump.read address length = some bytes
  unfold isReadable read Buffer.slice?
  split_ifs with hStart hInside
  · simp [hStart, hInside]
  · simp [hInside]
  · simp [hStart]

theorem Builder.consistent (builder : Builder) : builder.source.Consistent := by
  intro address length
  change builder.isReadable address length = true ↔
    ∃ bytes, builder.read address length = some bytes
  unfold isReadable read
  cases Address.rangeEnd? address length with
  | none => simp
  | some finish =>
      cases hOffset : builder.offsetOf? address length with
      | none => simp
      | some offset =>
          unfold offsetOf? at hOffset
          split_ifs at hOffset with hHolds
          obtain rfl := Option.some.inj hOffset
          simpa using Buffer.slice?_of_inside hHolds.2

/-- A kernel reads a range of a process exactly if all its bytes are mapped. -/
def Reader.Grants (kernel : Reader) (mapped : Nat → Prop) : Prop :=
  ∀ address length, 1 ≤ length → address.toNat + length ≤ UInt64.size →
    ((∃ bytes, kernel address length = some bytes) ↔
      ∀ position, address.toNat ≤ position → position < address.toNat + length → mapped position)

namespace LiveMemory

theorem lt_size_of_admits {memory : LiveMemory} {address : Address} {length : Nat}
    (hAdmits : memory.admits address length = true) :
    address.toNat + length < UInt64.size := by
  have hRange : (Address.rangeEnd? address length).isSome = true := by
    unfold admits RegionMap.contains at hAdmits
    split at hAdmits
    · split at hAdmits
      · simp [*]
      · cases hAdmits
    · exact hAdmits
  obtain ⟨finish, hFinish⟩ := Option.isSome_iff_exists.mp hRange
  rw [Address.ofPosition?_eq_some_iff.mp hFinish]
  exact finish.toNat_lt_size

variable {kernel : Reader} {mapped : Nat → Prop}

/-- Asking in chunks goes through the whole range: each chunk is at its place in the range, and the
last one ends with it. -/
theorem run_askInChunks_iff (grants : kernel.Grants mapped) {chunks position length : Nat}
    (hEnough : length ≤ chunks * chunk) (hNeeded : chunks * chunk < length + chunk)
    (hEnd : 1 ≤ length → position + length ≤ UInt64.size) :
    (askInChunks chunks position length).run kernel = true ↔
      ∀ other, position ≤ other → other < position + length → mapped other := by
  have hChunk : chunk = 256 := rfl
  induction chunks generalizing position length with
  | zero =>
      refine iff_of_true rfl fun other hLow hHigh => ?_
      omega
  | succ chunks ih =>
      rw [Nat.succ_mul] at hEnough hNeeded
      have hLength : 1 ≤ length := by omega
      have hEnd := hEnd hLength
      have hSize : position < UInt64.size := by omega
      have hPosition : position.toUInt64.toNat = position := UInt64.toNat_ofNat_of_lt hSize
      have hAddress : Address.ofPosition? position = some position.toUInt64 :=
        Address.ofPosition?_eq_some_iff.mpr hPosition.symm
      have hFirst := grants position.toUInt64 (min length chunk) (by omega) (by omega)
      rw [hPosition] at hFirst
      have hRest := @ih (position + chunk) (length - chunk) (by omega) (by omega)
        fun _ => by omega
      unfold askInChunks
      rw [Probe.run_bind, Probe.run_fetch, hAddress, Option.bind_some, Option.map_id, id]
      cases hAnswer : kernel position.toUInt64 (min length chunk) with
      | none =>
          refine iff_of_false Bool.false_ne_true fun hMapped => ?_
          obtain ⟨bytes, hBytes⟩ := hFirst.mpr fun other hLow hHigh =>
            hMapped other hLow (by omega)
          rw [hAnswer] at hBytes
          cases hBytes
      | some bytes =>
          have hHere := hFirst.mp ⟨bytes, hAnswer⟩
          refine hRest.trans ⟨fun hLater other hLow hHigh => ?_, fun hMapped other hLow hHigh => ?_⟩
          · by_cases hChunk : other < position + min length chunk
            · exact hHere other hLow hChunk
            · exact hLater other (by omega) (by omega)
          · exact hMapped other (by omega) (by omega)

/-- A live memory tests a range in chunks and reads it at once. The empty range needs no kernel. -/
theorem consistent (grants : kernel.Grants mapped) (memory : LiveMemory) :
    (memory.source kernel).Consistent := by
  intro address length
  change (memory.isReadable address length).run kernel = true ↔
    ∃ bytes, (memory.read address length).run kernel = some bytes
  unfold isReadable read
  split_ifs with hAdmits hEmpty
  · subst hEmpty
    exact iff_of_true rfl ⟨[], rfl⟩
  · have hEnd := lt_size_of_admits hAdmits
    have hEnough : length ≤ (length + (chunk - 1)) / chunk * chunk := by
      unfold chunk
      omega
    have hNeeded : (length + (chunk - 1)) / chunk * chunk < length + chunk := by
      unfold chunk
      omega
    rw [run_askInChunks_iff grants hEnough hNeeded fun _ => Nat.le_of_lt hEnd, Probe.run_ask,
      grants address length (Nat.pos_of_ne_zero hEmpty) (Nat.le_of_lt hEnd)]
  · exact iff_of_false Bool.false_ne_true (by simp)

end LiveMemory

/-- In every memory a range passes the test exactly if reading it succeeds. Of a kernel it is only
assumed that it reads what is mapped and refuses the rest. -/
theorem Source.consistent_of_grants {kernel : Reader} {mapped : Nat → Prop}
    (grants : kernel.Grants mapped) :
    (∀ image : Image, image.source.Consistent) ∧ (∀ dump : Dump, dump.source.Consistent) ∧
      (∀ builder : Builder, builder.source.Consistent) ∧
      ∀ memory : LiveMemory, (memory.source kernel).Consistent :=
  ⟨Image.consistent, Dump.consistent, Builder.consistent, LiveMemory.consistent grants⟩

/-- A process in which `0x258` bytes are mapped, as they were dumped. -/
def mappedBytes : Dump := ⟨0x1000, Array.replicate 0x258 0⟩

/-- The region map knows of the page that the bytes are in. -/
def pagedMemory : LiveMemory := ⟨some ⟨[⟨0x1000, 0x2000, .readOnly⟩]⟩⟩

theorem mappedBytes_grants :
    Reader.Grants mappedBytes.read fun position => 0x1000 ≤ position ∧ position < 0x1258 := by
  intro address length hLength _
  have hTested := mappedBytes.consistent address length
  have hBase : mappedBytes.base.toNat = 0x1000 := rfl
  have hSize : mappedBytes.bytes.size = 0x258 := Array.size_replicate
  refine hTested.symm.trans ?_
  change mappedBytes.isReadable address length = true ↔ _
  simp only [Dump.isReadable, Bool.and_eq_true, decide_eq_true_iff, UInt64.le_iff_toNat_le, hBase,
    hSize]
  constructor
  · intro h position hLow hHigh
    omega
  · intro h
    have hFirst := h address.toNat (Nat.le_refl _) (by omega)
    have hLast := h (address.toNat + length - 1) (by omega) (by omega)
    omega

/-- A range of three chunks is readable, and one that ends a byte later is not. -/
theorem consistent_of_grants_paged :
    Reader.Grants mappedBytes.read (fun position => 0x1000 ≤ position ∧ position < 0x1258) ∧
      (∃ bytes, (pagedMemory.source mappedBytes.read).read 0x1010 0x248 = some bytes) ∧
      ¬ ∃ bytes, (pagedMemory.source mappedBytes.read).read 0x1010 0x249 = some bytes := by
  obtain ⟨-, -, -, hLive⟩ := Source.consistent_of_grants mappedBytes_grants
  have hTested := hLive pagedMemory
  rw [← hTested 0x1010 0x248, ← hTested 0x1010 0x249]
  exact ⟨mappedBytes_grants, by decide +kernel⟩

end Conformance
