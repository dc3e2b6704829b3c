import Conformance.Proofs.Text
import Conformance.Session
/-! Configuration fails safe. A variable that is not understood never selects a layout by guess and
never moves a bound, and a session without a layout answers no without a look at memory. -/
namespace Conformance

namespace Runtime

/-- Every layout of the catalogue is consistent. -/
theorem validate_layout (runtime : Runtime) : runtime.layout.validate = .ok () := by
  cases runtime <;> rfl

theorem map_toLower_name (runtime : Runtime) :
    runtime.name.toList.map Char.toLower = runtime.name.toList := by
  cases runtime <;> rfl

theorem ofName?_eq_some_iff {text : List Char} {runtime : Runtime} :
    ofName? text = some runtime ↔ Text.SameLetters text runtime.name.toList := by
  rw [Text.sameLetters_iff, map_toLower_name]
  constructor
  · intro hFound
    unfold ofName? at hFound
    have hName := List.find?_some hFound
    exact (eq_of_beq hName).symm
  · intro hText
    unfold ofName?
    rw [hText]
    cases runtime <;> rfl

end Runtime

/-- The runtime that a selection leads to on a platform. -/
inductive Selection.LeadsTo : Selection → Platform → Runtime → Prop where
  | fixed (platform : Platform) (runtime : Runtime) : LeadsTo (.fixed runtime) platform runtime
  | appleArm64 : LeadsTo .detect .appleArm64 .objc2Arm64
  | appleX86_64 : LeadsTo .detect .appleX86_64 .objc2X86_64

namespace Resolution

variable {platform : Platform} {selection : Selection}

theorem layout?_ofSelection {runtime : Runtime} (leads : selection.LeadsTo platform runtime) :
    (ofSelection platform selection).layout? = some runtime.layout := by
  have hRuntime : (ofRuntime runtime).layout? = some runtime.layout := by
    rw [ofRuntime, runtime.validate_layout]
    rfl
  cases leads <;> exact hRuntime

theorem layout?_ofSelection_eq_none (hNone : ∀ runtime, ¬selection.LeadsTo platform runtime) :
    (ofSelection platform selection).layout? = none := by
  cases selection with
  | fixed runtime => exact absurd (.fixed platform runtime) (hNone runtime)
  | disabled => rfl
  | detect =>
      cases platform with
      | appleArm64 => exact absurd .appleArm64 (hNone .objc2Arm64)
      | appleX86_64 => exact absurd .appleX86_64 (hNone .objc2X86_64)
      | other => rfl

end Resolution

namespace Config

/-- The setting of a variable names a runtime, whatever the case of its ASCII letters and the white
space around it. -/
def Names (setting : Option String) (runtime : Runtime) : Prop :=
  ∃ value name, setting = some value ∧ Text.Trims value.toList name ∧
    Text.SameLetters name runtime.name.toList

/-- The setting of a variable is a number below `2 ^ 64` in decimal, whatever the white space around
it. -/
def SetTo (setting : Option String) (number : Nat) : Prop :=
  ∃ value numeral, setting = some value ∧ Text.Trims value.toList numeral ∧
    Text.Decimal numeral number ∧ number < 2 ^ 64

theorem names_iff {value : String} {runtime : Runtime} :
    Names (some value) runtime ↔ Runtime.ofName value = .ok runtime := by
  have hName : Runtime.ofName value = .ok runtime ↔
      Runtime.ofName? (Text.trim value.toList) = some runtime := by
    unfold Runtime.ofName
    cases Runtime.ofName? (Text.trim value.toList) <;> simp
  simp only [Names, hName, Runtime.ofName?_eq_some_iff, Text.trims_iff, Option.some.injEq]
  constructor
  · rintro ⟨_, _, rfl, rfl, hLetters⟩
    exact hLetters
  · intro hLetters
    exact ⟨value, _, rfl, rfl, hLetters⟩

theorem number?_eq_some_iff {setting : Option String} {number : Nat} :
    number? setting = some number ↔ SetTo setting number := by
  simp only [number?, SetTo, Text.trims_iff, Option.bind_eq_bind, Option.bind_eq_some_iff,
    Text.parseWord?_ten_iff, Option.pure_def, Option.some.injEq]
  constructor
  · rintro ⟨value, hValue, word, hNumeral, rfl⟩
    exact ⟨value, _, hValue, rfl, hNumeral, word.toNat_lt_size⟩
  · rintro ⟨value, _, hValue, rfl, hNumeral, hSize⟩
    have hWord : number.toUInt64.toNat = number := UInt64.toNat_ofNat_of_lt' hSize
    exact ⟨value, hValue, number.toUInt64, hWord.symm ▸ hNumeral, hWord⟩

/-- What a configuration has to do with the environment that it comes from. A selection comes from
the first variable alone, the two bounds from one variable each. -/
structure Reflects (config : Config) (environment : String → Option String) : Prop where
  fixed : ∀ runtime,
    config.selection = .fixed runtime ↔ Names (environment runtimeKey) runtime
  disabled : config.selection = .disabled ↔
    environment runtimeKey ≠ none ∧ ∀ runtime, ¬Names (environment runtimeKey) runtime
  detect : config.selection = .detect ↔ environment runtimeKey = none
  hops : ∀ hops, SetTo (environment hopsKey) hops → config.limits.superclassHops = hops
  defaultHops : (∀ hops, ¬SetTo (environment hopsKey) hops) →
    config.limits.superclassHops = Limits.default.superclassHops
  depth : ∀ depth, SetTo (environment depthKey) depth →
    config.limits.nestedDepth = min depth nestingCapacity
  defaultDepth : (∀ depth, ¬SetTo (environment depthKey) depth) →
    config.limits.nestedDepth = Limits.default.nestedDepth
  entries : config.limits.listEntries = Limits.default.listEntries
  records : config.limits.recordsVisited = Limits.default.recordsVisited

/-- Two bounds are the same if both come from the setting of one variable, or from one default where
it is no number. -/
theorem bounds_eq {setting : Option String} {first second fallback : Nat} (bound : Nat → Nat)
    (hFirst : ∀ number, SetTo setting number → first = bound number)
    (hFirstUnset : (∀ number, ¬SetTo setting number) → first = fallback)
    (hSecond : ∀ number, SetTo setting number → second = bound number)
    (hSecondUnset : (∀ number, ¬SetTo setting number) → second = fallback) : first = second := by
  by_cases hSet : ∃ number, SetTo setting number
  · obtain ⟨number, hNumber⟩ := hSet
    exact (hFirst number hNumber).trans (hSecond number hNumber).symm
  · have hUnset := not_exists.mp hSet
    exact (hFirstUnset hUnset).trans (hSecondUnset hUnset).symm

/-- No two configurations reflect the same environment. -/
theorem Reflects.unique {config other : Config} {environment : String → Option String}
    (reflects : config.Reflects environment) (reflectsOther : other.Reflects environment) :
    config = other := by
  have hSelection : config.selection = other.selection := by
    cases hOther : other.selection with
    | fixed runtime => exact (reflects.fixed runtime).mpr ((reflectsOther.fixed runtime).mp hOther)
    | disabled => exact reflects.disabled.mpr (reflectsOther.disabled.mp hOther)
    | detect => exact reflects.detect.mpr (reflectsOther.detect.mp hOther)
  have hHops : config.limits.superclassHops = other.limits.superclassHops :=
    bounds_eq id reflects.hops reflects.defaultHops reflectsOther.hops reflectsOther.defaultHops
  have hDepth : config.limits.nestedDepth = other.limits.nestedDepth :=
    bounds_eq (min · nestingCapacity) reflects.depth reflects.defaultDepth reflectsOther.depth
      reflectsOther.defaultDepth
  have hEntries := reflects.entries.trans reflectsOther.entries.symm
  have hRecords := reflects.records.trans reflectsOther.records.symm
  change Config.mk config.selection ⟨config.limits.superclassHops, config.limits.nestedDepth,
    config.limits.listEntries, config.limits.recordsVisited⟩ = other
  rw [hSelection, hHops, hDepth, hEntries, hRecords]

theorem limits_ofEnvironment (environment : String → Option String) :
    (ofEnvironment environment).limits =
      { Limits.default with
        superclassHops := (number? (environment hopsKey)).getD Limits.default.superclassHops
        nestedDepth := ((number? (environment depthKey)).map (min · nestingCapacity)).getD
          Limits.default.nestedDepth } := by
  unfold ofEnvironment
  cases number? (environment hopsKey) <;> cases number? (environment depthKey) <;> rfl

theorem selectionOf_eq_fixed_iff {setting : Option String} {runtime : Runtime} :
    selectionOf setting = .fixed runtime ↔ Names setting runtime := by
  cases setting with
  | none => simp [selectionOf, Names]
  | some value =>
      rw [names_iff, selectionOf]
      cases Runtime.ofName value <;> simp

theorem selectionOf_eq_detect_iff {setting : Option String} :
    selectionOf setting = .detect ↔ setting = none := by
  cases setting with
  | none => simp [selectionOf]
  | some value =>
      rw [selectionOf]
      cases Runtime.ofName value <;> simp

theorem selectionOf_eq_disabled_iff {setting : Option String} :
    selectionOf setting = .disabled ↔
      setting ≠ none ∧ ∀ runtime, ¬Names setting runtime := by
  simp only [← selectionOf_eq_fixed_iff, ne_eq, ← selectionOf_eq_detect_iff]
  cases selectionOf setting <;> simp

theorem number?_eq_none {setting : Option String} (hUnset : ∀ number, ¬SetTo setting number) :
    number? setting = none :=
  Option.eq_none_iff_forall_ne_some.mpr fun number hNumber =>
    hUnset number (number?_eq_some_iff.mp hNumber)

theorem reflects_ofEnvironment (environment : String → Option String) :
    (ofEnvironment environment).Reflects environment where
  fixed _ := selectionOf_eq_fixed_iff
  disabled := selectionOf_eq_disabled_iff
  detect := selectionOf_eq_detect_iff
  hops hops hSet := by
    rw [limits_ofEnvironment, number?_eq_some_iff.mpr hSet]
    rfl
  defaultHops hUnset := by
    rw [limits_ofEnvironment, number?_eq_none hUnset]
    rfl
  depth depth hSet := by
    rw [limits_ofEnvironment, number?_eq_some_iff.mpr hSet]
    rfl
  defaultDepth hUnset := by
    rw [limits_ofEnvironment, number?_eq_none hUnset]
    rfl
  entries := by rw [limits_ofEnvironment]
  records := by rw [limits_ofEnvironment]

end Config

namespace Session

/-- Every query is answered with no, and none of them looks at memory. -/
structure Silent (session : Session) : Prop where
  conforms : ∀ object protocol, session.conforms object protocol = false
  typeConforms : ∀ type protocol, session.typeConforms type protocol = false
  conformsToComposition : ∀ object composition,
    session.conformsToComposition object composition = false
  verdict : ∀ object protocol, session.verdict object protocol = .rejected .unresolved
  reads : ∀ query reader, (session.probe query).events reader = []

/-- Every query is answered as an inspector answers it over a memory. -/
structure AnswersAs (session : Session) (inspector : Inspector) (source : Source) : Prop where
  conforms : ∀ object protocol, session.conforms object protocol =
    (source.run (inspector.verdict object protocol)).conforms
  typeConforms : ∀ type protocol, session.typeConforms type protocol =
    (source.run (inspector.typeVerdict type protocol)).conforms
  conformsToComposition : ∀ object composition,
    session.conformsToComposition object composition =
      (source.run (inspector.compositionVerdict object composition)).conforms
  verdict : ∀ object protocol, session.verdict object protocol =
    source.run (inspector.verdict object protocol)

variable {session : Session}

theorem silent_of_unresolved (hNone : session.resolution.layout? = none) : session.Silent := by
  have hProbe (query : Inspector → Probe Verdict) :
      session.probe query = pure (.rejected .unresolved) := by
    rw [probe, inspector?, hNone]
    rfl
  have hAnswer (query : Inspector → Probe Verdict) :
      session.answer query = .rejected .unresolved := by
    rw [answer, hProbe]
    rfl
  exact {
    conforms := fun _ _ => by rw [conforms, verdict, hAnswer]; rfl
    typeConforms := fun _ _ => by rw [typeConforms, hAnswer]; rfl
    conformsToComposition := fun _ _ => by rw [conformsToComposition, hAnswer]; rfl
    verdict := fun _ _ => hAnswer _
    reads := fun query reader => by rw [hProbe]; rfl }

theorem answersAs_of_resolved {layout : Layout}
    (hLayout : session.resolution.layout? = some layout) :
    session.AnswersAs ⟨layout, session.limits⟩ session.source := by
  have hAnswer (query : Inspector → Probe Verdict) :
      session.answer query = session.source.run (query ⟨layout, session.limits⟩) := by
    rw [answer, probe, inspector?, hLayout]
    rfl
  exact {
    conforms := fun _ _ => by rw [conforms, verdict, hAnswer]
    typeConforms := fun _ _ => by rw [typeConforms, hAnswer]
    conformsToComposition := fun _ _ => by rw [conformsToComposition, hAnswer]
    verdict := fun _ _ => hAnswer _ }

/-- A session answers as a configuration has it on a platform: by the layout of the runtime that is
selected and the bounds that are set, over a memory, or with no, if no runtime is selected. -/
structure Serves (session : Session) (platform : Platform) (config : Config) (source : Source) :
    Prop where
  answers : ∀ runtime, config.selection.LeadsTo platform runtime →
    session.AnswersAs ⟨runtime.layout, config.limits⟩ source
  silent : (∀ runtime, ¬config.selection.LeadsTo platform runtime) → session.Silent

variable {platform : Platform} {config : Config} {source : Source}

theorem serves_ofSelection :
    (Session.mk (.ofSelection platform config.selection) source config.limits).Serves platform
      config source where
  answers _ leads := answersAs_of_resolved (Resolution.layout?_ofSelection leads)
  silent hNone := silent_of_unresolved (Resolution.layout?_ofSelection_eq_none hNone)

end Session

/-- Configuration fails safe from the variables to the answers. A configuration reflects its
environment, each of its fields no other variable than its own. Without a runtime that is named or
known, the session on any memory keeps silent; with a runtime that is named, it answers by the
layout of that runtime and the bounds of the configuration. -/
theorem Config.ofEnvironment_failsSafe (environment : String → Option String)
    (platform : Platform) (source : Source) :
    let config := Config.ofEnvironment environment
    let session := Session.ofConfig platform config source
    [runtimeKey, hopsKey, depthKey].Nodup ∧ config.Reflects environment ∧
      (∀ other : String → Option String,
        let changed := Config.ofEnvironment other
        (other runtimeKey = environment runtimeKey → changed.selection = config.selection) ∧
          (other hopsKey = environment hopsKey →
            changed.limits.superclassHops = config.limits.superclassHops) ∧
          (other depthKey = environment depthKey →
            changed.limits.nestedDepth = config.limits.nestedDepth)) ∧
      (config.selection = .disabled ∨
          config.selection = .detect ∧ platform = .other → session.Silent) ∧
      ∀ runtime, config.selection = .fixed runtime →
        session.AnswersAs ⟨runtime.layout, config.limits⟩ source := by
  intro config session
  have serves : session.Serves platform config source := Session.serves_ofSelection
  refine ⟨by decide, Config.reflects_ofEnvironment environment, fun other => ⟨?_, ?_, ?_⟩,
    fun hSelection => serves.silent fun runtime leads => ?_, fun runtime hFixed =>
      serves.answers runtime (hFixed ▸ .fixed platform runtime)⟩
  · intro hSame
    exact congrArg Config.selectionOf hSame
  · intro hSame
    simp only [config, limits_ofEnvironment, hSame]
  · intro hSame
    simp only [config, limits_ofEnvironment, hSame]
  · obtain hDisabled | ⟨hDetect, rfl⟩ := hSelection
    · rw [hDisabled] at leads
      cases leads
    · rw [hDetect] at leads
      cases leads

/-- A name in other letters and between blanks is understood; a part of it is not, and is no reason
to detect a runtime that would be known. -/
theorem Config.ofEnvironment_failsSafe_names :
    let environment (name key : String) : Option String :=
      if key = runtimeKey then some name else if key = hopsKey then some "+7" else none
    let named := Config.ofEnvironment (environment " Compact64\n")
    let misspelt := Config.ofEnvironment (environment "compact")
    let source := Source.periodic #[0]
    (Session.ofConfig .other named source).AnswersAs ⟨Layout.compact .eight, named.limits⟩ source ∧
      (Session.ofConfig .appleArm64 misspelt source).Silent ∧
      named.limits.superclassHops = 7 ∧ misspelt.limits.superclassHops = 7 := by
  intro environment named misspelt source
  have hFixed : named.selection = .fixed .compact64 := by decide
  have hDisabled : misspelt.selection = .disabled := by decide
  obtain ⟨-, hReflects, hOther, -, hAnswers⟩ :=
    Config.ofEnvironment_failsSafe (environment " Compact64\n") .other source
  obtain ⟨-, -, -, hSilent, -⟩ :=
    Config.ofEnvironment_failsSafe (environment "compact") .appleArm64 source
  have hSet : Config.SetTo (environment " Compact64\n" hopsKey) 7 :=
    Config.number?_eq_some_iff.mp (by decide)
  have hHops := hReflects.hops 7 hSet
  obtain ⟨-, hSame, -⟩ := hOther (environment "compact")
  exact ⟨hAnswers .compact64 hFixed, hSilent (.inl hDisabled), hHops, (hSame rfl).trans hHops⟩

end Conformance
