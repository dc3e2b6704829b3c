import Conformance.Proofs.Region.Canonical
import Conformance.Proofs.Text
import Conformance.Region.Listing
/-! What the lines of a listing say, and what keeps a line from being read. A line that cannot be
read keeps the whole listing from being read; lines that can be read give one region each, in their
order, apart from hazardous mappings. -/
namespace Conformance.RegionMap

open Text

/-- A field is the range from `start` to `finish`: a hexadecimal numeral on either side of its first
dash. -/
def IsRange (field : List Char) (start finish : Address) : Prop :=
  ∃ before after, field = before ++ '-' :: after ∧ '-' ∉ before ∧
    parseWord? 16 before = some start ∧ parseWord? 16 after = some finish

/-- The bytes of a field in which the permissions are listed. -/
def permissionBytes (field : List Char) : List UInt8 := field.flatMap String.utf8EncodeChar

/-- A field of four bytes lists permissions. Each one is granted by its own letter in its own
place. -/
def Permits (field : List Char) (protection : Protection) : Prop :=
  ∃ read write execute shared,
    permissionBytes field = [read, write, execute, shared] ∧
    (protection.read = true ↔ read = 'r'.toUInt8) ∧
    (protection.write = true ↔ write = 'w'.toUInt8) ∧
    (protection.execute = true ↔ execute = 'x'.toUInt8) ∧
    (protection.shared = true ↔ shared = 's'.toUInt8)

/-- The first field of a line is a range. -/
def Spans (line : List Char) (start finish : Address) : Prop :=
  ∃ field, (words line)[0]? = some field ∧ IsRange field start finish

/-- A line lists a region: its first two fields are the range and the permissions. -/
structure Lists (line : List Char) (region : Region) : Prop where
  spans : Spans line region.start region.finish
  permits : ∃ field, (words line)[1]? = some field ∧ Permits field region.protection

/-- The sixth field of a line names a device, or pages of the kernel that fault when they are
read. -/
def Hazardous (line : List Char) : Prop :=
  ∃ path, (words line)[5]? = some path ∧
    ("/dev/".toList <+: path ∨ "[vvar".toList <+: path ∨ path = "[vsyscall]".toList)

/-- What keeps a line from being read. The permissions of a hazardous mapping do not matter. -/
inductive Unreadable (line : List Char) : Prop where
  | fields (few : (words line).length < 2)
  | dash {field : List Char} (first : (words line)[0]? = some field) (missing : '-' ∉ field)
  | start {before after : List Char} (first : (words line)[0]? = some (before ++ '-' :: after))
      (ends : '-' ∉ before) (refused : parseWord? 16 before = none)
  | finish {before after : List Char} (first : (words line)[0]? = some (before ++ '-' :: after))
      (ends : '-' ∉ before) (refused : parseWord? 16 after = none)
  | permissions {field : List Char} (second : (words line)[1]? = some field)
      (ordinary : ¬ Hazardous line) (width : (permissionBytes field).length ≠ 4)

/-- A line that may not stand in a listing: it cannot be read, or what it maps ends before it
starts. -/
def Refused (line : List Char) : Prop :=
  Unreadable line ∨
    ¬ Hazardous line ∧ ∃ start finish, Spans line start finish ∧ finish < start

variable {line field : List Char} {start finish : Address} {protection : Protection}
  {region : Region}

theorem isHazardous_iff (path : List Char) : isHazardous path = true ↔
    "/dev/".toList <+: path ∨ "[vvar".toList <+: path ∨ path = "[vsyscall]".toList := by
  simp only [isHazardous, Bool.or_eq_true, List.isPrefixOf_iff_prefix, beq_iff_eq, or_assoc]

/-- A line without a sixth field is not hazardous. -/
theorem hazardous_iff : Hazardous line ↔ isHazardous ((words line).getD 5 []) = true := by
  rw [Hazardous, List.getD_eq_getElem?_getD]
  cases (words line)[5]? with
  | none => simp [show isHazardous [] = false by decide]
  | some path => simp [isHazardous_iff]

instance (line : List Char) : Decidable (Hazardous line) := decidable_of_iff _ hazardous_iff.symm

theorem parseRange?_eq_some_iff :
    parseRange? field = some (start, finish) ↔ IsRange field start finish := by
  simp only [parseRange?, IsRange, Option.bind_eq_bind, Option.bind_eq_some_iff, Prod.exists,
    cutAt?_eq_some_iff, Option.pure_def, Option.some.injEq, Prod.mk.injEq]
  constructor
  · rintro ⟨before, after, ⟨hField, hEnds⟩, _, hStart, _, hFinish, rfl, rfl⟩
    exact ⟨before, after, hField, hEnds, hStart, hFinish⟩
  · rintro ⟨before, after, hField, hEnds, hStart, hFinish⟩
    exact ⟨before, after, ⟨hField, hEnds⟩, start, hStart, finish, hFinish, rfl, rfl⟩

theorem cutAt?_eq_none_iff {mark : Char} {text : List Char} :
    cutAt? mark text = none ↔ mark ∉ text := by
  induction text with
  | nil => simp [cutAt?]
  | cons c rest ih =>
      by_cases h : c = mark
      · simp [cutAt?, h]
      · simp [cutAt?, h, ih, Ne.symm h]

/-- A text is cut at its first mark in one way only. -/
theorem cut_unique {mark : Char} {before after first rest : List Char}
    (hSame : before ++ mark :: after = first ++ mark :: rest) (hBefore : mark ∉ before)
    (hFirst : mark ∉ first) : before = first ∧ after = rest := by
  have hCut : cutAt? mark (before ++ mark :: after) = some (before, after) :=
    cutAt?_eq_some_iff.mpr ⟨rfl, hBefore⟩
  rw [hSame, cutAt?_eq_some_iff.mpr ⟨rfl, hFirst⟩] at hCut
  obtain ⟨rfl, rfl⟩ := Prod.mk.inj (Option.some.inj hCut)
  exact ⟨rfl, rfl⟩

theorem Spans.unique {otherStart otherFinish : Address} (spans : Spans line start finish)
    (other : Spans line otherStart otherFinish) : start = otherStart ∧ finish = otherFinish := by
  obtain ⟨field, hFirst, hRange⟩ := spans
  obtain ⟨otherField, hOtherFirst, hOther⟩ := other
  obtain rfl := Option.some.inj (hFirst.symm.trans hOtherFirst)
  have hSame := (parseRange?_eq_some_iff.mpr hRange).symm.trans (parseRange?_eq_some_iff.mpr hOther)
  exact Prod.mk.inj (Option.some.inj hSame)

/-- A field that is no range has no dash, or there is no numeral on one side of the first one. -/
theorem unreadable_of_parseRange? (hFirst : (words line)[0]? = some field)
    (hRange : parseRange? field = none) : Unreadable line := by
  cases hCut : cutAt? '-' field with
  | none => exact .dash hFirst (cutAt?_eq_none_iff.mp hCut)
  | some parts =>
      obtain ⟨before, after⟩ := parts
      obtain ⟨rfl, hEnds⟩ := cutAt?_eq_some_iff.mp hCut
      cases hStart : parseWord? 16 before with
      | none => exact .start hFirst hEnds hStart
      | some start =>
          cases hFinish : parseWord? 16 after with
          | none => exact .finish hFirst hEnds hFinish
          | some finish =>
              rw [parseRange?_eq_some_iff.mpr ⟨_, _, rfl, hEnds, hStart, hFinish⟩] at hRange
              cases hRange

theorem parseProtection_eq_ok_iff :
    parseProtection field = .ok protection ↔ Permits field protection := by
  unfold parseProtection Permits permissionBytes
  split
  · next read write execute shared hBytes =>
    obtain ⟨r, w, x, s⟩ := protection
    simp only [hBytes, Except.ok.injEq, Protection.mk.injEq, List.cons.injEq, and_true]
    constructor
    · rintro ⟨rfl, rfl, rfl, rfl⟩
      exact ⟨_, _, _, _, ⟨rfl, rfl, rfl, rfl⟩, by simp⟩
    · rintro ⟨_, _, _, _, ⟨rfl, rfl, rfl, rfl⟩, hRead, hWrite, hExecute, hShared⟩
      exact ⟨Bool.eq_iff_iff.mpr (beq_iff_eq.trans hRead.symm),
        Bool.eq_iff_iff.mpr (beq_iff_eq.trans hWrite.symm),
        Bool.eq_iff_iff.mpr (beq_iff_eq.trans hExecute.symm),
        Bool.eq_iff_iff.mpr (beq_iff_eq.trans hShared.symm)⟩
  · next hWidth =>
    refine iff_of_false (by simp) ?_
    rintro ⟨read, write, execute, shared, hBytes, -⟩
    exact hWidth _ _ _ _ hBytes

/-- A permission field is refused for its width alone. -/
theorem width_of_parseProtection {error : Error} (h : parseProtection field = .error error) :
    (permissionBytes field).length ≠ 4 := by
  intro hWidth
  obtain ⟨read, write, execute, shared, hBytes⟩ := List.length_eq_four.mp hWidth
  unfold permissionBytes at hBytes
  rw [parseProtection, hBytes] at h
  cases h

theorem Permits.unique {other : Protection} (permits : Permits field protection)
    (hOther : Permits field other) : protection = other :=
  Except.ok.inj ((parseProtection_eq_ok_iff.mpr permits).symm.trans
    (parseProtection_eq_ok_iff.mpr hOther))

theorem Permits.width (permits : Permits field protection) :
    (permissionBytes field).length = 4 := by
  obtain ⟨_, _, _, _, hBytes, -⟩ := permits
  rw [hBytes]
  rfl

/-- A line lists one region at most. -/
theorem Lists.unique {other : Region} (lists : Lists line region) (hOther : Lists line other) :
    region = other := by
  obtain ⟨hStart, hFinish⟩ := lists.spans.unique hOther.spans
  obtain ⟨field, hSecond, permits⟩ := lists.permits
  obtain ⟨otherField, hOtherSecond, otherPermits⟩ := hOther.permits
  obtain rfl := Option.some.inj (hSecond.symm.trans hOtherSecond)
  have hProtection := permits.unique otherPermits
  obtain ⟨start, finish, protection⟩ := region
  exact Region.mk.injEq .. ▸ ⟨hStart, hFinish, hProtection⟩

/-- What keeps a line from being read is not to be found on a line with a range and, unless the
mapping is hazardous, with permissions. -/
theorem not_unreadable {others : List (List Char)} {range permissions : List Char}
    (hWords : words line = range :: permissions :: others) (hRange : IsRange range start finish)
    (hWidth : ¬ Hazardous line → (permissionBytes permissions).length = 4) :
    ¬ Unreadable line := by
  obtain ⟨before, after, rfl, hEnds, hStart, hFinish⟩ := hRange
  have hFirst {field : List Char} (h : (words line)[0]? = some field) :
      before ++ '-' :: after = field := by
    rw [hWords] at h
    exact Option.some.inj h
  intro unreadable
  cases unreadable with
  | fields few =>
      simp only [hWords, List.length_cons] at few
      omega
  | dash first missing => simp [← hFirst first] at missing
  | start first ends refused =>
      obtain ⟨rfl, -⟩ := cut_unique (hFirst first) hEnds ends
      rw [hStart] at refused
      cases refused
  | finish first ends refused =>
      obtain ⟨-, rfl⟩ := cut_unique (hFirst first) hEnds ends
      rw [hFinish] at refused
      cases refused
  | permissions second ordinary width =>
      rw [hWords] at second
      exact width (Option.some.inj second ▸ hWidth ordinary)

/-- What a line is read as. -/
inductive ReadsAs (line : List Char) : Except Error (Option Region) → Prop where
  | refused (unreadable : Unreadable line) (error : Error) : ReadsAs line (.error error)
  | omitted (readable : ¬ Unreadable line) (hazardous : Hazardous line) : ReadsAs line (.ok none)
  | listed (readable : ¬ Unreadable line) (ordinary : ¬ Hazardous line) {region : Region}
      (lists : Lists line region) : ReadsAs line (.ok (some region))

theorem readsAs_parseLine (line : List Char) : ReadsAs line (parseLine line) := by
  unfold parseLine
  split
  · next range permissions others hWords =>
    have hFirst : (words line)[0]? = some range := by rw [hWords]; rfl
    have hSecond : (words line)[1]? = some permissions := by rw [hWords]; rfl
    have hHazard : Hazardous line ↔ isHazardous (others.getD 3 []) = true := by
      rw [hazardous_iff, hWords]
      rfl
    split
    · next hRange => exact .refused (unreadable_of_parseRange? hFirst hRange) _
    · next start finish hRange =>
      have hRange := parseRange?_eq_some_iff.mp hRange
      split_ifs with hPath
      · have hazardous := hHazard.mpr hPath
        exact .omitted (not_unreadable hWords hRange (absurd hazardous)) hazardous
      · have ordinary := hPath ∘ hHazard.mp
        cases hPermits : parseProtection permissions with
        | error error =>
            exact .refused (.permissions hSecond ordinary (width_of_parseProtection hPermits)) error
        | ok protection =>
            have hPermits := parseProtection_eq_ok_iff.mp hPermits
            refine .listed (not_unreadable hWords hRange fun _ => hPermits.width) ordinary ?_
            exact ⟨⟨range, hFirst, hRange⟩, permissions, hSecond, hPermits⟩
  · next hFew =>
    refine .refused (.fields ?_) _
    match hWords : words line with
    | [] => simp
    | [_] => simp
    | range :: permissions :: others => exact absurd hWords (hFew range permissions others)

/-- The lines that hold something besides white space. -/
def filled (lines : List (List Char)) : List (List Char) := lines.filter fun line => trim line ≠ []

/-- The lines with a mapping that is no hazard. -/
def ordinary (lines : List (List Char)) : List (List Char) :=
  (filled lines).filter fun line => ¬ Hazardous line

theorem trim_eq_nil_iff (text : List Char) : trim text = [] ↔ text.all isBlank = true := by
  rw [← trims_iff, List.all_eq_true]
  constructor
  · intro trims
    obtain ⟨before, after, rfl, hBlank⟩ := trims.split
    simpa using hBlank
  · exact fun hBlank => ⟨⟨text, [], by simp, by simpa using hBlank⟩, nofun, nofun⟩

theorem filled_cons_of_blank (h : line.all isBlank = true) (rest : List (List Char)) :
    filled (line :: rest) = filled rest :=
  List.filter_cons_of_neg (by simpa using (trim_eq_nil_iff line).mpr h)

theorem filled_cons (h : ¬ line.all isBlank = true) (rest : List (List Char)) :
    filled (line :: rest) = line :: filled rest :=
  List.filter_cons_of_pos (by simpa using h ∘ (trim_eq_nil_iff line).mp)

/-- What the lines of a listing are read as. -/
inductive ReadsAllAs (lines : List (List Char)) : Except Error (List Region) → Prop where
  | refused {line : List Char} (mem : line ∈ filled lines) (unreadable : Unreadable line)
      (error : Error) : ReadsAllAs lines (.error error)
  | listed (readable : ∀ line ∈ filled lines, ¬ Unreadable line) {regions : List Region}
      (lists : List.Forall₂ Lists (ordinary lines) regions) : ReadsAllAs lines (.ok regions)

theorem readsAllAs_parseLines (lines : List (List Char)) : ReadsAllAs lines (parseLines lines) := by
  induction lines with
  | nil => exact .listed (fun _ h => absurd h List.not_mem_nil) .nil
  | cons line rest ih =>
      unfold parseLines
      generalize parseLines rest = later at ih ⊢
      split_ifs with hBlank
      · have hSkip := filled_cons_of_blank hBlank rest
        cases ih with
        | refused mem unreadable error => exact .refused (hSkip ▸ mem) unreadable error
        | listed readable lists =>
            refine .listed (hSkip ▸ readable) ?_
            rwa [ordinary, hSkip]
      · have hLine := filled_cons hBlank rest
        have hRead := readsAs_parseLine line
        generalize parseLine line = reading at hRead ⊢
        cases hRead with
        | refused unreadable error => exact .refused (hLine ▸ List.mem_cons_self) unreadable error
        | omitted readable hazardous =>
            cases ih with
            | refused mem unreadable error =>
                exact .refused (hLine ▸ List.mem_cons_of_mem _ mem) unreadable error
            | listed readableRest lists =>
                refine .listed (hLine ▸ List.forall_mem_cons.mpr ⟨readable, readableRest⟩) ?_
                rwa [ordinary, hLine, List.filter_cons_of_neg (by simpa using hazardous)]
        | listed readable notHazardous listsLine =>
            cases ih with
            | refused mem unreadable error =>
                exact .refused (hLine ▸ List.mem_cons_of_mem _ mem) unreadable error
            | listed readableRest lists =>
                refine .listed (hLine ▸ List.forall_mem_cons.mpr ⟨readable, readableRest⟩) ?_
                rw [ordinary, hLine, List.filter_cons_of_pos (by simpa using notHazardous)]
                exact .cons listsLine lists

end Conformance.RegionMap
