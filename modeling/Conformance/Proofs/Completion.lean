import Conformance.Proofs.Composition
import Conformance.Proofs.Image.Additions
import Conformance.Proofs.Loosening
/-! Partial memories. A read that is refused cuts off part of a search and is never the cause of a
match, so an object that conforms as far as a partial dump shows conforms in the completed dump too,
unless what has come to light uses up the records before the match is met. -/
namespace Conformance

/-- A query that conforms in a memory conforms in every memory that grants all its reads with the
same bytes, unless the records run out there. An image with more segments is such a memory. -/
theorem Inspector.conforms_of_extends (inspector : Inspector) (query : Query) :
    (∀ smaller larger : Reader, larger.Extends smaller →
      ((query.probe inspector).run smaller).conforms = true →
      .budgetExhausted ∉ ((query.probe inspector).run larger).anomalies →
      ((query.probe inspector).run larger).conforms = true) ∧
    ∀ changes additions after, (Image.ofEdits changes).addSegments additions = .ok after →
      ((query.probe inspector).run (Image.ofEdits changes).read).conforms = true →
      .budgetExhausted ∉ ((query.probe inspector).run after.read).anomalies →
      ((query.probe inspector).run after.read).conforms = true := by
  have transfer (smaller larger : Reader) (more : larger.Extends smaller)
      (hConforms : ((query.probe inspector).run smaller).conforms = true)
      (hBudget : .budgetExhausted ∉ ((query.probe inspector).run larger).anomalies) :
      ((query.probe inspector).run larger).conforms = true := by
    have outreaches : Outreaches False inspector inspector larger smaller :=
      outreaches_of_extends ⟨rfl, more⟩ (.refl _)
    exact (outreaches.keeps_query query hConforms).resolve_right fun h => hBudget h.2
  refine ⟨transfer, fun changes additions after hAfter => ?_⟩
  exact transfer _ _ ((Image.sound_ofEdits changes).read_addSegments hAfter)

/-- The words of a segment. -/
def Buffer.ofWords (words : List Nat) : Buffer :=
  (words.flatMap (ByteOrder.little.encode 8)).toArray

/-- An object at `0x10` and the superclass of its type at `0x20`. What the type itself declares is
missing. -/
def partialDump : List Image.Edit :=
  [.addSegment 0x10 (.ofWords [0x20]), .addSegment 0x28 (.ofWords [0x40]),
    .addSegment 0x48 (.ofWords [0, 0x60, 0, 1, 0x80, 0x90]), .addSegment 0x90 (.ofWords [1, 0xB0])]

/-- The rest of the dump, with a list that is searched before that of the superclass. -/
def missingSegments : List (Address × Buffer) :=
  [(0x30, .ofWords [0xC0]), (0xC0, .ofWords [1, 0xE0, 0])]

def completedDump : List Image.Edit :=
  partialDump ++ missingSegments.map fun (base, bytes) => .addSegment base bytes

theorem conforms_of_extends_completed :
    let inspector : Inspector := ⟨Runtime.compact64.layout, .default⟩
    let query : Query := .ofObject 0x10 0xB0
    ((query.probe inspector).run composedMemory).conforms = true ∧
      (Image.ofEdits partialDump).addSegments missingSegments =
        .ok (Image.ofEdits completedDump) ∧
      ((query.probe inspector).run (Image.ofEdits completedDump).read).conforms = true := by
  intro inspector query
  have hAdditions : (Image.ofEdits partialDump).addSegments missingSegments =
      .ok (Image.ofEdits completedDump) := by decide +kernel
  obtain ⟨hMore, hSegments⟩ := inspector.conforms_of_extends query
  refine ⟨hMore inheritedMemory composedMemory ?_ (by decide +kernel) (by decide +kernel),
    hAdditions, hSegments _ _ _ hAdditions (by decide +kernel) (by decide +kernel)⟩
  exact fun _ _ _ h => Option.or_eq_some_iff.mpr (.inl h)

end Conformance
