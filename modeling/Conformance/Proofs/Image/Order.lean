import Conformance.Proofs.Image.Additions
import Conformance.Proofs.Source.Agreement
/-! Segments that are added in another order. All of them are admitted exactly if they and the
segments that are there make up a sound image, which is then the only one that they make up. Neither
of this depends on which segment comes first. -/
namespace Conformance

namespace Image

open Segment

/-- The changes that add segments, one after the other. -/
def additions (segments : List Segment) : List Edit :=
  segments.map fun segment => .addSegment segment.base segment.bytes

/-- The answers to a run of changes. The run goes on after a change that is refused. -/
def answers (image : Image) : List Edit → List (Except Error Unit)
  | [] => []
  | change :: rest => (image.edit change).1 :: (image.edit change).2.answers rest

variable {image after other : Image} {segment : Segment} {segments rest others : List Segment}

theorem edit_of_ok {change : Edit} (h : image.edited change = .ok after) :
    image.edit change = (.ok (), after) := by
  unfold edit
  rw [h]

theorem edit_of_error {change : Edit} {error : Error} (h : image.edited change = .error error) :
    image.edit change = (.error error, image) := by
  unfold edit
  rw [h]

/-- The segments of a sound image stand in one order only. -/
theorem Sound.eq_of_perm (sound : image.Sound) (hOther : other.Sound)
    (perm : image.segments.Perm other.segments) : image = other := by
  suffices hSegments : image.segments = other.segments from
    (mk.injEq image.segments other.segments).mpr hSegments
  refine List.Perm.eq_of_pairwise ?_ sound.ascending hOther.ascending perm
  intro first second _ _ hBefore hAfter
  exact absurd hAfter (UInt64.lt_asymm hBefore)

/-- A segment of a sound image is admitted by an image that has only other segments of it. -/
theorem Sound.exists_addSegment_of_perm (sound : image.Sound) (hAfter : after.Sound)
    (perm : after.segments.Perm (segment :: rest ++ image.segments)) :
    ∃ next, image.addSegment segment.base segment.bytes = .ok next := by
  have hHere : segment ∈ after.segments := perm.mem_iff.mpr List.mem_cons_self
  have hApart :=
    (perm.pairwise_iff fun h position hBoth => h position hBoth.symm).mp hAfter.disjoint
  refine (sound.admits segment.base segment.bytes).ok_iff.mpr
    ⟨hAfter.nonempty segment hHere, hAfter.finish_lt segment hHere, fun hMeets => ?_⟩
  obtain ⟨position, hLow, hHigh, found, hFound, hCovers⟩ := hMeets
  have hRest := List.rel_of_pairwise_cons hApart (List.mem_append_right rest hFound)
  exact hRest position ⟨⟨hLow, hHigh⟩, hCovers⟩

/-- What a run of additions leads to if none of them is refused, without the order of the run. -/
theorem Sound.forall_answers_additions_iff (sound : image.Sound) :
    (∀ answer ∈ image.answers (additions segments), answer = .ok ()) ∧
      (additions segments).foldl (fun image change => (image.edit change).2) image = after ↔
    after.Sound ∧ after.segments.Perm (segments ++ image.segments) := by
  induction segments generalizing image with
  | nil =>
      refine ⟨?_, fun ⟨hAfter, perm⟩ => ⟨fun _ h => absurd h List.not_mem_nil, ?_⟩⟩
      · rintro ⟨-, rfl⟩
        exact ⟨sound, .refl _⟩
      · exact sound.eq_of_perm hAfter perm.symm
  | cons segment rest ih =>
      rw [additions, List.map_cons, ← additions, answers, List.foldl_cons, List.forall_mem_cons]
      cases hAnswer : image.edited (.addSegment segment.base segment.bytes) with
      | error error =>
          rw [edit_of_error hAnswer]
          refine iff_of_false (fun h => ?_) fun ⟨hAfter, perm⟩ => ?_
          · cases h.1.1
          · obtain ⟨next, hNext⟩ := sound.exists_addSegment_of_perm hAfter perm
            cases hAnswer.symm.trans hNext
      | ok next =>
          have hMoved : (rest ++ next.segments).Perm (segment :: rest ++ image.segments) :=
            ((perm_addSegment hAnswer).append_left rest).trans List.perm_middle
          rw [edit_of_ok hAnswer, and_iff_right rfl, ih (sound.addSegment hAnswer)]
          exact and_congr_right fun _ => ⟨(·.trans hMoved), (·.trans hMoved.symm)⟩

theorem ofEdits_append (changes further : List Edit) :
    ofEdits (changes ++ further) =
      further.foldl (fun image change => (image.edit change).2) (ofEdits changes) :=
  List.foldl_append

/-- If no segment is refused in one order, none is in another, and the image is the same. -/
theorem forall_answers_additions_of_perm (changes : List Edit) (perm : segments.Perm others)
    (h : ∀ answer ∈ (ofEdits changes).answers (additions segments), answer = .ok ()) :
    (∀ answer ∈ (ofEdits changes).answers (additions others), answer = .ok ()) ∧
      ofEdits (changes ++ additions others) = ofEdits (changes ++ additions segments) := by
  have sound := sound_ofEdits changes
  obtain ⟨hAfter, hMade⟩ :=
    sound.forall_answers_additions_iff.mp ⟨h, (ofEdits_append changes (additions segments)).symm⟩
  rw [ofEdits_append changes (additions others)]
  exact sound.forall_answers_additions_iff.mpr ⟨hAfter, hMade.trans (perm.append_right _)⟩

theorem exists_error_of_not_forall {answers : List (Except Error Unit)}
    (h : ¬ ∀ answer ∈ answers, answer = .ok ()) : ∃ error, .error error ∈ answers := by
  push Not at h
  obtain ⟨answer | error, hAnswer, hOk⟩ := h
  · exact ⟨answer, hAnswer⟩
  · exact absurd rfl hOk

/-- The order in which segments are added to an image is without effect. If no addition is refused,
none is in another order, and the image is the same one, with the same answers to reads and to
queries. If some addition is refused, some addition is in every order. -/
theorem additions_in_any_order (changes : List Edit) (perm : segments.Perm others) :
    let image := ofEdits changes
    ((∀ answer ∈ image.answers (additions segments), answer = .ok ()) →
      (∀ answer ∈ image.answers (additions others), answer = .ok ()) ∧
      ofEdits (changes ++ additions others) = ofEdits (changes ++ additions segments) ∧
      (ofEdits (changes ++ additions others)).source.Agrees
        (ofEdits (changes ++ additions segments)).source) ∧
    ((∃ error, .error error ∈ image.answers (additions segments)) →
      ∃ error, .error error ∈ image.answers (additions others)) := by
  intro image
  constructor
  · intro h
    obtain ⟨hOthers, hSame⟩ := forall_answers_additions_of_perm changes perm h
    refine ⟨hOthers, hSame, ?_⟩
    rw [hSame]
    exact Source.agrees_of_read (fun _ _ => rfl) fun _ _ => rfl
  · rintro ⟨error, hError⟩
    refine exists_error_of_not_forall fun h => ?_
    have hBack := (forall_answers_additions_of_perm changes perm.symm h).1 _ hError
    cases hBack

/-- Segments that touch go in from both ends, and segments that overlap go in from neither. -/
theorem additions_in_any_order_touching :
    let segments : List Segment := [⟨0x1002, #[3]⟩, ⟨0x1000, #[1, 2]⟩, ⟨0x1003, #[4, 5]⟩]
    let clashing : List Segment := [⟨0x1000, #[1, 2]⟩, ⟨0x1002, #[3]⟩, ⟨0x1001, #[9]⟩]
    ofEdits (additions segments.reverse) =
        ⟨[⟨0x1000, #[1, 2]⟩, ⟨0x1002, #[3]⟩, ⟨0x1003, #[4, 5]⟩]⟩ ∧
      ∃ error, .error error ∈ empty.answers (additions clashing.reverse) := by
  intro segments clashing
  obtain ⟨-, hSame, -⟩ :=
    (additions_in_any_order [] segments.reverse_perm.symm).1 (by decide +kernel)
  have hRefused := (additions_in_any_order [] clashing.reverse_perm.symm).2
    ⟨.malformed (.segmentOverlap 0x1001 0x1002 0x1000), by decide +kernel⟩
  exact ⟨hSame.trans (by decide +kernel), hRefused⟩

end Image

end Conformance
