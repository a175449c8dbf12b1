import TaggedText.Proofs.Value.RoundTrip
import TaggedText.Settings

/-!
# Settings read back from their JSON text

Settings may be made step by step, or read from a JSON object that holds the options and, anywhere
among them, the variables. Where the values are plain data with whole numbers, and no option takes
the name of the variables, both ways lead to the same settings, and the order of all entries is kept.

Missing variables may be written as null or not at all, but an empty dictionary of variables is not
the same as missing variables.
-/
namespace TaggedText

theorem Json.settledMembers_append (members others : List (String × Json)) :
    settledMembers (members ++ others) = settledMembers members ++ settledMembers others := by
  simp only [settledMembers_eq, List.map_append]

namespace Value

variable {v : Value} {entries : Bindings}

/-- Plain data without repeated keys in which every number is whole and not above the bound for
integers. -/
structure IsLoadable (v : Value) : Prop where
  distinct : v.Distinct
  isExact : v.IsExact
  isPlain : v.IsPlain

theorem entriesJson_append (entries others : Bindings) :
    entriesJson (entries ++ others) = entriesJson entries ++ entriesJson others := by
  simp only [entriesJson_eq, List.map_append]

theorem isLoadable_map_iff : (map entries).IsLoadable ↔
    Entries.Distinct entries ∧ ∀ entry ∈ entries, entry.2.IsLoadable := by
  constructor
  · rintro ⟨⟨hkeys, hdistinct⟩, hexact, hplain⟩
    cases hexact with
    | map hexact =>
        cases hplain with
        | map hplain =>
            have hdistincts := distinctEntries_iff.mp hdistinct
            exact ⟨hkeys, fun entry hentry =>
              ⟨hdistincts entry hentry, hexact entry hentry, hplain entry hentry⟩⟩
  · rintro ⟨hkeys, hentries⟩
    constructor
    · exact ⟨hkeys, distinctEntries_iff.mpr fun entry hentry => (hentries entry hentry).distinct⟩
    · exact .map fun entry hentry => (hentries entry hentry).isExact
    · exact .map fun entry hentry => (hentries entry hentry).isPlain

theorem IsLoadable.insert {name : String} (h : (map entries).IsLoadable) (hv : v.IsLoadable) :
    (map (Entries.insert name v entries)).IsLoadable := by
  have ⟨hkeys, hentries⟩ := isLoadable_map_iff.mp h
  apply isLoadable_map_iff.mpr
  constructor
  · exact Entries.distinct_insert hkeys
  · intro entry hentry
    rcases Entries.mem_of_mem_insert hentry with rfl | hold
    · exact hv
    · exact hentries entry hold

theorem isLoadable_empty : (map []).IsLoadable :=
  isLoadable_map_iff.mpr ⟨List.nodup_nil, nofun⟩

/-- A loadable value is read back as itself. -/
theorem IsLoadable.sameData (h : v.IsLoadable) : SameData (ofJson v.toJson.settled) v := by
  have hdata := h.isExact.sameData h.distinct
  rwa [h.isPlain.plain_eq_self] at hdata

end Value

namespace Settings

/-- A step of the making of settings. -/
inductive Step where
  | binding (name : String) (value : Value)
  | option (name : String) (value : Value)

namespace Step

def apply (settings : Settings) : Step → Settings
  | binding name value => settings.withVariable name value
  | option name value => settings.withOption name value

/-- The value can be read back, and an option does not pass for the variables. -/
def IsLoadable : Step → Prop
  | binding _ value => value.IsLoadable
  | option name value => name ≠ variablesKey ∧ value.IsLoadable

end Step

/-- The settings that the steps make of empty ones. -/
def build (steps : List Step) : Settings :=
  steps.foldl Step.apply {}

/-- Settings that can be read back. -/
structure IsLoadable (settings : Settings) : Prop where
  bindings : ∀ bindings, settings.bindings = some bindings → (Value.map bindings).IsLoadable
  options : (Value.map settings.options).IsLoadable
  not_mem_keys : variablesKey ∉ settings.options.keys

variable {settings : Settings} {bindings : Option Bindings} {before after entries : Bindings}
  {members member : List (String × Json)}

theorem IsLoadable.apply {step : Step} (h : settings.IsLoadable) (hstep : step.IsLoadable) :
    (step.apply settings).IsLoadable := by
  cases step with
  | binding name value =>
      have hbound : (Value.map (settings.bindings.getD [])).IsLoadable := by
        cases hbindings : settings.bindings with
        | none => exact Value.isLoadable_empty
        | some bindings => exact h.bindings bindings hbindings
      constructor
      · intro bindings hbindings
        cases hbindings
        exact hbound.insert hstep
      · exact h.options
      · exact h.not_mem_keys
  | option name value =>
      have ⟨hname, hvalue⟩ := hstep
      constructor
      · exact h.bindings
      · exact h.options.insert hvalue
      · intro hmem
        rcases Entries.mem_of_mem_keys_insert hmem with heq | hold
        · exact hname heq.symm
        · exact h.not_mem_keys hold

theorem IsLoadable.foldl {steps : List Step} (h : settings.IsLoadable)
    (hsteps : ∀ step ∈ steps, step.IsLoadable) : (steps.foldl Step.apply settings).IsLoadable := by
  induction steps generalizing settings with
  | nil => exact h
  | cons step steps ih =>
      have ⟨hstep, hsteps⟩ := List.forall_mem_cons.mp hsteps
      exact ih (h.apply hstep) hsteps

theorem isLoadable_build {steps : List Step} (hsteps : ∀ step ∈ steps, step.IsLoadable) :
    (build steps).IsLoadable := by
  apply IsLoadable.foldl _ hsteps
  constructor
  · exact nofun
  · exact Value.isLoadable_empty
  · exact List.not_mem_nil

/-- The members that may stand for the variables in an object. -/
inductive VariablesMember : Option Bindings → List (String × Json) → Prop
  | missing : VariablesMember none []
  | null : VariablesMember none [(variablesKey, .null)]
  | object (bindings : Bindings) :
      VariablesMember (some bindings) [(variablesKey, .object (Value.entriesJson bindings))]

/-- An object with these members holds the settings: the options in order, and among them the
variables. -/
def WrittenAs (settings : Settings) (members : List (String × Json)) : Prop :=
  ∃ before member after, settings.options = before ++ after ∧
    VariablesMember settings.bindings member ∧
    members = Value.entriesJson before ++ member ++ Value.entriesJson after

theorem filter_entriesJson_eq (h : variablesKey ∉ entries.keys) :
    (Json.settledMembers (Value.entriesJson entries)).filter (·.1 == variablesKey) = [] := by
  rw [List.filter_eq_nil_iff, Json.settledMembers_eq, Value.entriesJson_eq, List.map_map,
    List.forall_mem_map]
  intro entry hentry hkey
  have hname : entry.1 = variablesKey := eq_of_beq hkey
  exact h (List.mem_map.mpr ⟨entry, hentry, hname⟩)

theorem filter_entriesJson_ne (h : variablesKey ∉ entries.keys) :
    (Json.settledMembers (Value.entriesJson entries)).filter (·.1 != variablesKey) =
      Json.settledMembers (Value.entriesJson entries) := by
  have hnone := List.filter_eq_nil_iff.mp (filter_entriesJson_eq h)
  rw [List.filter_eq_self]
  intro other hother
  exact bne_iff_ne.mpr fun heq => hnone other hother (beq_iff_eq.mpr heq)

/-- The dictionary that is read from the members by which a dictionary is written. -/
def reread (entries : Bindings) : Bindings :=
  Entries.ofList (Value.membersOfJson (Json.settledMembers (Value.entriesJson entries)))

theorem sameData_reread (h : (Value.map entries).IsLoadable) :
    Value.SameData (.map (reread entries)) (.map entries) :=
  h.sameData

theorem filter_member_eq (h : VariablesMember bindings member) :
    (Json.settledMembers member).filter (·.1 == variablesKey) = Json.settledMembers member := by
  cases h with
  | missing => rfl
  | null => rfl
  | object bindings => rfl

theorem filter_member_ne (h : VariablesMember bindings member) :
    (Json.settledMembers member).filter (·.1 != variablesKey) = [] := by
  cases h with
  | missing => rfl
  | null => rfl
  | object bindings => rfl

/-- Wherever the variables stand, they are told apart from the options. -/
theorem ofMembers_settledMembers (hbefore : variablesKey ∉ before.keys)
    (hafter : variablesKey ∉ after.keys) (hmember : VariablesMember bindings member) :
    ofMembers (Json.settledMembers
      (Value.entriesJson before ++ member ++ Value.entriesJson after)) =
        .ok { bindings := bindings.map reread, options := reread (before ++ after) } := by
  have hvariables : (Json.settledMembers (Value.entriesJson before ++ member ++
      Value.entriesJson after)).filter (·.1 == variablesKey) = Json.settledMembers member := by
    simp only [Json.settledMembers_append, List.filter_append, filter_entriesJson_eq hbefore,
      filter_entriesJson_eq hafter, filter_member_eq hmember, List.nil_append, List.append_nil]
  have hoptions : (Json.settledMembers (Value.entriesJson before ++ member ++
      Value.entriesJson after)).filter (·.1 != variablesKey) =
        Json.settledMembers (Value.entriesJson (before ++ after)) := by
    simp only [Json.settledMembers_append, Value.entriesJson_append, List.filter_append,
      filter_entriesJson_ne hbefore, filter_entriesJson_ne hafter, filter_member_ne hmember,
      List.append_nil]
  rw [ofMembers, hvariables, hoptions]
  cases hmember with
  | missing => rfl
  | null => rfl
  | object bindings => rfl

/-- Equality of variables, which are missing on both sides or on neither. -/
def sameBindings : Option Bindings → Option Bindings → Bool
  | none, none => true
  | some a, some b => (Value.map a).same (.map b)
  | _, _ => false

/-- Equality of settings, which does not know the order of entries. -/
def same (settings other : Settings) : Bool :=
  sameBindings settings.bindings other.bindings &&
    (Value.map settings.options).same (.map other.options)

/-- Equality of settings that knows the order of entries, in the dictionaries and inside them. -/
structure SameData (settings other : Settings) : Prop where
  bindings : Option.Rel (fun a b => Value.SameData (.map a) (.map b))
    settings.bindings other.bindings
  options : Value.SameData (.map settings.options) (.map other.options)

theorem SameData.same {other : Settings} (h : settings.SameData other) (hother : other.IsLoadable) :
    settings.same other = true := by
  obtain ⟨bindings, options⟩ := settings
  obtain ⟨bindings', options'⟩ := other
  have hoptions : (Value.map options).same (.map options') = true :=
    h.options.same hother.options.distinct
  have hbindings := h.bindings
  unfold Settings.same
  rw [hoptions, Bool.and_true]
  cases hbindings with
  | none => rfl
  | some hdata => exact hdata.same (hother.bindings _ rfl).distinct

theorem integral_entriesJson (h : (Value.map entries).IsLoadable) :
    (Json.object (Value.entriesJson entries)).Integral :=
  h.isExact.integral_toJson

theorem integral_member
    (h : ∀ entries, bindings = some entries → (Value.map entries).IsLoadable)
    (hmember : VariablesMember bindings member) : (Json.object member).Integral := by
  apply Json.Integral.object
  cases hmember with
  | missing => exact nofun
  | null => exact List.forall_mem_singleton.mpr .null
  | object entries => exact List.forall_mem_singleton.mpr (integral_entriesJson (h entries rfl))

theorem IsLoadable.integral (h : settings.IsLoadable) (hwritten : settings.WrittenAs members) :
    (Json.object members).Integral := by
  obtain ⟨before, member, after, hoptions, hmember, rfl⟩ := hwritten
  have hall := integral_entriesJson h.options
  have hvariables := integral_member h.bindings hmember
  rw [hoptions, Value.entriesJson_append] at hall
  rw [Json.integral_object_iff] at hall hvariables ⊢
  simp only [List.forall_mem_append] at hall ⊢
  exact ⟨⟨hall.1, hvariables⟩, hall.2⟩

/-- Loadable settings are read back from their text. -/
theorem IsLoadable.exists_ofText (h : settings.IsLoadable) (hwritten : settings.WrittenAs members)
    (hdepth : (Json.object members).depth ≤ Json.nestingLimit) :
    ∃ loaded, ofText (Json.object members).compress = .ok loaded ∧ loaded.SameData settings := by
  have hread := Json.ofText?_compress (h.integral hwritten) hdepth
  obtain ⟨before, member, after, hoptions, hmember, rfl⟩ := hwritten
  have hkeys := h.not_mem_keys
  rw [hoptions, Entries.keys, List.map_append, List.mem_append, not_or] at hkeys
  refine ⟨{ bindings := settings.bindings.map reread, options := reread settings.options }, ?_, ?_⟩
  · rw [ofText, hread, hoptions]
    exact ofMembers_settledMembers hkeys.1 hkeys.2 hmember
  · constructor
    · cases hbindings : settings.bindings with
      | none => exact .none
      | some bindings => exact .some (sameData_reread (h.bindings bindings hbindings))
    · exact sameData_reread h.options

/-- Settings that were made step by step are read back from any text that holds them. -/
theorem exists_ofText_build {steps : List Step} (hsteps : ∀ step ∈ steps, step.IsLoadable)
    (hwritten : (build steps).WrittenAs members)
    (hdepth : (Json.object members).depth ≤ Json.nestingLimit) :
    ∃ loaded, ofText (Json.object members).compress = .ok loaded ∧
      loaded.same (build steps) = true ∧ loaded.SameData (build steps) := by
  have hloadable := isLoadable_build hsteps
  have ⟨loaded, hloaded, hdata⟩ := hloadable.exists_ofText hwritten hdepth
  exact ⟨loaded, hloaded, hdata.same hloadable, hdata⟩

/-- A name that is set twice keeps its place, and the variables stand between the options. -/
theorem exists_ofText_build_mode :
    let levels := Value.array [.map [("b", .null), ("a", .bool true)]]
    let steps := [Step.option "mode" (.string "draft"), .binding "n" (.string "\""),
      .option "levels" levels, .binding "é" (.map []), .option "mode" (.string "strict"),
      .binding "n" (.number (.ofRank true 0))]
    let members := [("mode", Json.string "strict"),
      ("variables", .object [("n", .integer 0), ("é", .object [])]), ("levels", levels.toJson)]
    (∀ step ∈ steps, step.IsLoadable) ∧ (build steps).WrittenAs members ∧
      (Json.object members).depth ≤ Json.nestingLimit ∧
      ∃ loaded, ofText (Json.object members).compress = .ok loaded ∧
        loaded.same (build steps) = true ∧ loaded.SameData (build steps) := by
  intro levels steps members
  have hstring : ∀ text : String, (Value.string text).IsLoadable := fun text =>
    ⟨trivial, .string text, .string text⟩
  have hentries : (Value.map [("b", .null), ("a", .bool true)]).IsLoadable := by
    have hkeys : ["b", "a"].Nodup := by decide
    refine Value.isLoadable_map_iff.mpr ⟨hkeys, List.forall_mem_cons.mpr ?_⟩
    exact ⟨⟨trivial, .null, .null⟩, List.forall_mem_singleton.mpr ⟨trivial, .bool _, .bool _⟩⟩
  have hlevels : levels.IsLoadable := by
    constructor
    · exact Value.distinctItems_iff.mpr (List.forall_mem_singleton.mpr hentries.distinct)
    · exact .array (List.forall_mem_singleton.mpr hentries.isExact)
    · exact .array (List.forall_mem_singleton.mpr hentries.isPlain)
  have hwhole : Number.toInt? (.ofRank true 0) = some 0 := by decide +kernel
  have hzero : (Value.number (.ofRank true 0)).IsLoadable :=
    ⟨trivial, .whole hwhole (by decide), .number rfl⟩
  have hsteps : ∀ step ∈ steps, step.IsLoadable := by
    simp only [steps, List.forall_mem_cons, Step.IsLoadable]
    exact ⟨⟨by decide, hstring _⟩, hstring _, ⟨by decide, hlevels⟩, Value.isLoadable_empty,
      ⟨by decide, hstring _⟩, hzero, nofun⟩
  have hvariables : Value.entriesJson [("n", .number (.ofRank true 0)), ("é", .map [])] =
      [("n", .integer 0), ("é", .object [])] := by
    rw [Value.entriesJson, Value.toJson, Value.numberJson_whole hwhole (by decide)]
    rfl
  have hwritten : (build steps).WrittenAs members := by
    refine ⟨[("mode", .string "strict")], _, [("levels", levels)], rfl, .object _, ?_⟩
    exact congrArg (fun held => [("mode", Json.string "strict"), ("variables", .object held),
      ("levels", levels.toJson)]) hvariables.symm
  have hdepth : (Json.object members).depth ≤ Json.nestingLimit := by decide +kernel
  exact ⟨hsteps, hwritten, hdepth, exists_ofText_build hsteps hwritten hdepth⟩

end Settings
end TaggedText
