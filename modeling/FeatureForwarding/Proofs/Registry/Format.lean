import FeatureForwarding.Proofs.Json.Validation
import FeatureForwarding.Proofs.Registry.Snapshot

/-! The format of snapshots. The schema as a document and the checks that answer a faulty snapshot accept
the same values, and the decoder takes each of them for what it states: the fallbacks of the decoder are
never used where the schema requires a field. -/

namespace FeatureForwarding

namespace Json

variable {cs rest : List Char} {members : List (String × Json)}

theorem not_object_of_simpleValue : simpleValue cs ≠ some (.object members, rest) := by
  intro h
  unfold simpleValue at h
  split at h
  · simp at h
  · simp at h
  · simp at h
  · simp at h
  · obtain ⟨_, -, h⟩ := Option.bind_eq_some_iff.1 h
    simp at h

theorem pairwise_of_valueWithin {limit : Nat} (h : valueWithin limit cs = some (.object members, rest)) :
    members.Pairwise fun a b => a.1 < b.1 := by
  cases limit with
  | zero =>
    rw [valueWithin] at h
    split at h
    · exact absurd h nofun
    · exact absurd h not_object_of_simpleValue
  | succ depth =>
    rw [valueWithin] at h
    split at h
    · simp at h
    · obtain ⟨_, -, h⟩ := Option.map_eq_some_iff.1 h
      obtain ⟨rfl⟩ := (Prod.mk.inj h).1
      exact NameMap.sorted _
    · exact absurd h not_object_of_simpleValue

/-- The members of an object that was read are in order, each name once. -/
theorem pairwise_of_read? {text : String} (h : read? text = some (.object members)) :
    members.Pairwise fun a b => a.1 < b.1 := by
  unfold read? at h
  split at h
  · next hvalue =>
    split at h
    · obtain rfl := Option.some.inj h
      exact pairwise_of_valueWithin hvalue
    · exact absurd h nofun
  · exact absurd h nofun

end Json

namespace Registry

open Files (Path Tree)
open Json (member?)

variable {document value : Json} {place : List String} {name : String} {members : List (String × Json)}

/-! ### Values of fields -/

def IsText (value : Json) : Prop := ∃ text, value = .string text

/-- A text of at least one character. -/
def IsName (value : Json) : Prop := ∃ text, value = .string text ∧ text ≠ ""

def IsVersion (value : Json) : Prop := value = .null ∨ IsText value

/-- Texts that are pairwise distinct. -/
def IsTextSet (value : Json) : Prop :=
  ∃ texts : List String, value = .array (texts.map .string) ∧ texts.Nodup

def IsFlag (value : Json) : Prop := ∃ flag, value = .boolean flag

/-- The value may stand under the name in a fact. -/
def IsField (name : String) (value : Json) : Prop :=
  name = "name" ∧ IsName value ∨ name = "version" ∧ IsVersion value ∨
    (name = "features" ∨ name = "used_features") ∧ IsTextSet value ∨ name = "direct" ∧ IsFlag value

/-- Every field is one of a fact, and none but the version may be left out. -/
def IsFact (value : Json) : Prop :=
  ∃ fields, value = .object fields ∧ (∀ field ∈ fields, IsField field.1 field.2) ∧
    ∀ name ∈ ["name", "features", "used_features", "direct"], ∃ content, (name, content) ∈ fields

/-- An object of facts. -/
def IsSnapshot (value : Json) : Prop :=
  ∃ members, value = .object members ∧ ∀ member ∈ members, IsFact member.2

/-! ### The schema as a document -/

def nameRule : Json := .object [("type", .string "string"), ("minLength", .number (.natural 1))]

def versionRule : Json := .object [("type", .array [.string "string", .string "null"])]

def textRule : Json := .object [("type", .string "string")]

def listRule : Json :=
  .object [("type", .string "array"), ("items", textRule), ("uniqueItems", .boolean true)]

def flagRule : Json := .object [("type", .string "boolean")]

def fieldRules : List (String × Json) :=
  [("name", nameRule), ("version", versionRule), ("features", listRule), ("used_features", listRule),
    ("direct", flagRule)]

def factRule : Json :=
  .object [("type", .string "object"),
    ("required", .array [.string "name", .string "features", .string "used_features", .string "direct"]),
    ("additionalProperties", .boolean false), ("properties", .object fieldRules)]

/-- The schema as it is written, without its title and description. -/
def schemaDocument : Json :=
  .object [("$schema", .string "http://json-schema.org/draft-07/schema#"), ("type", .string "object"),
    ("additionalProperties", .object [("$ref", .string "#/definitions/package_fact")]),
    ("definitions", .object [("package_fact", factRule)])]

theorem accepts_textRule : Json.Accepts document textRule value ↔ IsText value := by
  rw [textRule, Json.accepts_keywords_iff rfl]
  constructor
  · rintro ⟨type, -⟩
    have htype := type _ rfl
    cases value <;> simp [Json.typeName, IsText] at htype ⊢
  · rintro ⟨text, rfl⟩
    constructor <;> simp [member?, Json.typeName]

theorem accepts_nameRule : Json.Accepts document nameRule value ↔ IsName value := by
  rw [nameRule, Json.accepts_keywords_iff rfl]
  constructor
  · rintro ⟨type, -, minLength, -⟩
    have htype := type _ rfl
    cases value with
    | string text =>
      refine ⟨text, rfl, ?_⟩
      rintro rfl
      exact absurd (minLength 1 _ rfl rfl) (by decide)
    | _ => simp [Json.typeName] at htype
  · rintro ⟨text, rfl, hne⟩
    have hlength : 1 ≤ text.length := by
      rw [Nat.one_le_iff_ne_zero, ne_eq, String.length_eq_zero_iff]
      exact hne
    constructor <;> simp [member?, Json.typeName]
    exact hlength

theorem accepts_versionRule : Json.Accepts document versionRule value ↔ IsVersion value := by
  rw [versionRule, Json.accepts_keywords_iff rfl]
  constructor
  · rintro ⟨-, types, -⟩
    have htype := types _ rfl
    cases value <;> simp [Json.typeName, IsVersion, IsText] at htype ⊢
  · rintro (rfl | ⟨text, rfl⟩) <;> constructor <;> simp [member?, Json.typeName]

theorem accepts_flagRule : Json.Accepts document flagRule value ↔ IsFlag value := by
  rw [flagRule, Json.accepts_keywords_iff rfl]
  constructor
  · rintro ⟨type, -⟩
    have htype := type _ rfl
    cases value <;> simp [Json.typeName, IsFlag] at htype ⊢
  · rintro ⟨flag, rfl⟩
    constructor <;> simp [member?, Json.typeName]

/-- Texts are told apart by any equality of values. -/
theorem pairwise_texts (texts : List String) :
    ((texts.map Json.string).Pairwise fun a b => Json.sameValue a b = false) ↔ texts.Nodup := by
  simp [List.pairwise_map, Json.sameValue, Json.agree, List.Nodup]

theorem eq_texts {elements : List Json} (h : ∀ element ∈ elements, IsText element) :
    ∃ texts : List String, elements = texts.map .string := by
  induction elements with
  | nil => exact ⟨[], rfl⟩
  | cons element rest ih =>
    obtain ⟨text, rfl⟩ := h element List.mem_cons_self
    obtain ⟨texts, rfl⟩ := ih fun element hmem => h element (List.mem_cons_of_mem _ hmem)
    exact ⟨text :: texts, rfl⟩

theorem accepts_listRule : Json.Accepts document listRule value ↔ IsTextSet value := by
  rw [listRule, Json.accepts_keywords_iff rfl]
  constructor
  · rintro ⟨type, -, -, items, uniqueItems, -⟩
    have htype := type _ rfl
    cases value with
    | array elements =>
      obtain ⟨texts, rfl⟩ := eq_texts fun element hmem =>
        accepts_textRule.1 (items _ elements rfl rfl element hmem)
      exact ⟨texts, rfl, (pairwise_texts texts).1 (uniqueItems _ rfl rfl)⟩
    | _ => simp [Json.typeName] at htype
  · rintro ⟨texts, rfl, hnodup⟩
    constructor <;> simp [member?, Json.typeName, accepts_textRule, IsText]
    simpa using (pairwise_texts texts).2 hnodup

/-- Each field has its rule, and no other name has one. -/
theorem accepts_fieldRule (document : Json) :
    (∃ rule, member? name fieldRules = some rule ∧ Json.Accepts document rule value) ↔
      IsField name value := by
  by_cases hname : name = "name"
  · simp [fieldRules, member?, IsField, hname, accepts_nameRule]
  by_cases hversion : name = "version"
  · simp [fieldRules, member?, IsField, hversion, accepts_versionRule]
  by_cases hlists : name = "features" ∨ name = "used_features"
  · rcases hlists with rfl | rfl <;> simp [fieldRules, member?, IsField, accepts_listRule]
  by_cases hdirect : name = "direct"
  · simp [fieldRules, member?, IsField, hdirect, accepts_flagRule]
  · simp only [not_or] at hlists
    simp [fieldRules, member?, IsField, hname, hversion, hlists, hdirect]

theorem accepts_factRule : Json.Accepts document factRule value ↔ IsFact value := by
  rw [factRule, Json.accepts_keywords_iff rfl]
  constructor
  · rintro ⟨type, -, -, -, -, required, properties, additional⟩
    have htype := type _ rfl
    cases value with
    | object fields =>
      refine ⟨fields, rfl, fun field hfield => ?_, fun name hname => ?_⟩
      · rw [← accepts_fieldRule document]
        cases hrule : member? field.1 fieldRules with
        | some rule => exact ⟨rule, rfl, properties _ fields rfl rfl field hfield rule hrule⟩
        | none =>
          -- a field without a rule is an additional one, and no value passes the rule for those
          have hnone := additional _ fields rfl rfl field hfield fun ⟨rules, hrules, hdeclared⟩ => by
            obtain rfl := Json.object.inj (Option.some.inj hrules)
            simp [hrule] at hdeclared
          exact absurd (Json.accepts_boolean_iff.1 hnone) (by decide)
      · exact required _ fields rfl rfl name (by simpa using hname)
    | _ => simp [Json.typeName] at htype
  · rintro ⟨fields, rfl, hfields, hrequired⟩
    constructor
    case required =>
      rintro _ _ ⟨⟩ ⟨⟩ name hname
      exact hrequired name (by simpa using hname)
    case properties =>
      rintro _ _ ⟨⟩ ⟨⟩ field hfield rule hrule
      obtain ⟨_, hrule', haccepted⟩ := (accepts_fieldRule document).2 (hfields field hfield)
      exact Option.some.inj (hrule'.symm.trans hrule) ▸ haccepted
    case additionalProperties =>
      rintro _ _ ⟨⟩ ⟨⟩ field hfield hundeclared
      obtain ⟨_, hrule, -⟩ := (accepts_fieldRule document).2 (hfields field hfield)
      exact absurd ⟨fieldRules, rfl, Option.isSome_of_mem hrule⟩ hundeclared
    all_goals simp [member?, Json.typeName]

theorem accepts_schemaDocument : Json.Accepts schemaDocument schemaDocument value ↔ IsSnapshot value := by
  have hfact : schemaDocument.referred? "#/definitions/package_fact" = some factRule := rfl
  rw [schemaDocument, Json.accepts_keywords_iff rfl, ← schemaDocument]
  constructor
  · rintro ⟨type, -, -, -, -, -, -, additional⟩
    have htype := type _ rfl
    cases value with
    | object members =>
      refine ⟨members, rfl, fun member hmember => ?_⟩
      have hrule := additional _ members rfl rfl member hmember fun ⟨rules, hrules, _⟩ => by
        simp [member?] at hrules
      rwa [Json.accepts_reference_iff rfl hfact, accepts_factRule] at hrule
    | _ => simp [Json.typeName] at htype
  · rintro ⟨members, rfl, hmembers⟩
    constructor
    case additionalProperties =>
      rintro _ _ ⟨⟩ ⟨⟩ member hmember -
      exact (Json.accepts_reference_iff rfl hfact).2 (accepts_factRule.2 (hmembers member hmember))
    all_goals simp [member?, Json.typeName]

/-! ### Checks -/

theorem checkName_eq_nil : Schema.checkName place value = [] ↔ IsName value := by
  cases value <;> simp [Schema.checkName, IsName]

theorem checkVersion_eq_nil : Schema.checkVersion place value = [] ↔ IsVersion value := by
  cases value <;> simp [Schema.checkVersion, IsVersion, IsText]

theorem checkDirect_eq_nil : Schema.checkDirect place value = [] ↔ IsFlag value := by
  cases value <;> simp [Schema.checkDirect, IsFlag]

theorem checkElementsFrom_eq_nil {index : Nat} {elements : List Json} :
    Schema.checkElementsFrom place index elements = [] ↔ ∀ element ∈ elements, IsText element := by
  induction elements generalizing index with
  | nil => simp [Schema.checkElementsFrom]
  | cons element rest ih =>
    rw [Schema.checkElementsFrom, List.append_eq_nil_iff, ih, List.forall_mem_cons]
    cases element <;> simp [Schema.isText, IsText]

theorem checkList_eq_nil : Schema.checkList place value = [] ↔ IsTextSet value := by
  constructor
  · intro h
    cases value with
    | array elements =>
      rw [Schema.checkList, List.append_eq_nil_iff, checkElementsFrom_eq_nil] at h
      obtain ⟨texts, rfl⟩ := eq_texts h.1
      exact ⟨texts, rfl, by simpa [Schema.areDistinct_texts] using h.2⟩
    | _ => simp [Schema.checkList] at h
  · rintro ⟨texts, rfl, hnodup⟩
    exact Schema.checkList_texts place hnodup

/-- Each field has its check, and no other name has one. -/
theorem checkField_eq_nil (place : List String) :
    name ∈ Schema.knownFields ∧ Schema.checkField place name value = [] ↔ IsField name value := by
  by_cases hname : name = "name"
  · simp [Schema.knownFields, Schema.checkField, IsField, hname, checkName_eq_nil]
  by_cases hversion : name = "version"
  · simp [Schema.knownFields, Schema.checkField, IsField, hversion, checkVersion_eq_nil]
  by_cases hlists : name = "features" ∨ name = "used_features"
  · rcases hlists with rfl | rfl <;>
      simp [Schema.knownFields, Schema.checkField, IsField, checkList_eq_nil]
  by_cases hdirect : name = "direct"
  · simp [Schema.knownFields, Schema.checkField, IsField, hdirect, checkDirect_eq_nil]
  · simp only [not_or] at hlists
    simp [Schema.knownFields, IsField, hname, hversion, hlists, hdirect]

theorem isSome_member? :
    (member? name members).isSome ↔ ∃ content, (name, content) ∈ members := by
  induction members with
  | nil => simp [member?]
  | cons member rest ih =>
    obtain ⟨other, content⟩ := member
    rw [member?]
    split
    · next heq => exact iff_of_true rfl ⟨content, heq ▸ List.mem_cons_self⟩
    · next hne => simp [ih, hne]

theorem checkFact_eq_nil : Schema.checkFact place value = [] ↔ IsFact value := by
  cases value with
  | object fields =>
    have hunknown (names : List String) :
        (if names.isEmpty then [] else [(⟨place, .unexpected names⟩ : Schema.Violation)]) = [] ↔
          names = [] := by
      cases names <;> simp
    have hrequired (names : List String) : (names.filter fun name => (member? name fields).isNone) = [] ↔
        ∀ name ∈ names, ∃ content, (name, content) ∈ fields := by
      simp [List.filter_eq_nil_iff, ← isSome_member?, ← Option.isSome_iff_ne_none]
    have hknown : (fields.map (·.1)).filter (!Schema.knownFields.contains ·) = [] ↔
        ∀ field ∈ fields, field.1 ∈ Schema.knownFields := by
      simp [List.filter_eq_nil_iff]
    simp only [Schema.checkFact, List.append_eq_nil_iff, List.flatMap_eq_nil_iff, List.map_eq_nil_iff,
      hunknown, hknown, hrequired]
    constructor
    · rintro ⟨⟨hchecks, hknown⟩, hrequired⟩
      exact ⟨fields, rfl, fun field hfield =>
        (checkField_eq_nil place).1 ⟨hknown field hfield, hchecks field hfield⟩, hrequired⟩
    · rintro ⟨_, ⟨⟩, hfields, hrequired⟩
      have hchecked field (hfield : field ∈ fields) := (checkField_eq_nil place).2 (hfields field hfield)
      exact ⟨⟨fun field hfield => (hchecked field hfield).2, fun field hfield =>
        (hchecked field hfield).1⟩, hrequired⟩
  | _ => simp [Schema.checkFact, IsFact]

theorem violations_eq_nil : Schema.violations value = [] ↔ IsSnapshot value := by
  cases value with
  | object members =>
    simp [Schema.violations, IsSnapshot, List.flatMap_eq_nil_iff, checkFact_eq_nil]
  | _ => simp [Schema.violations, IsSnapshot]

/-! ### Decoding -/

/-- The value says what the fact says, and leaves out nothing but a version that is not known. -/
def States (value : Json) (fact : Fact) : Prop :=
  ∃ fields, value = .object fields ∧ member? "name" fields = some (.string fact.name) ∧
    (member? "version" fields).getD .null = (fact.version.map Json.string).getD .null ∧
    member? "features" fields = some (.array (fact.features.map .string)) ∧
    member? "used_features" fields = some (.array (fact.usedFeatures.map .string)) ∧
    member? "direct" fields = some (.boolean fact.direct)

theorem mem_of_member? (h : member? name members = some value) : (name, value) ∈ members := by
  induction members with
  | nil => exact absurd h nofun
  | cons member rest ih =>
    obtain ⟨other, content⟩ := member
    rw [member?] at h
    split at h
    · next heq => exact heq ▸ Option.some.inj h ▸ List.mem_cons_self
    · exact List.mem_cons_of_mem _ (ih h)

theorem exists_states (h : IsFact value) : ∃ fact, Fact.ofJson? value = some fact ∧ States value fact := by
  obtain ⟨fields, rfl, hfields, hrequired⟩ := h
  have hfield {name : String} {content : Json} (hcontent : member? name fields = some content) :
      IsField name content :=
    hfields _ (mem_of_member? hcontent)
  have hgiven (name : String) (hname : name ∈ ["name", "features", "used_features", "direct"]) :
      ∃ content, member? name fields = some content ∧ IsField name content := by
    obtain ⟨content, hcontent⟩ := Option.isSome_iff_exists.1 (isSome_member?.2 (hrequired name hname))
    exact ⟨content, hcontent, hfield hcontent⟩
  obtain ⟨_, hname, hnamed⟩ := hgiven "name" (by decide)
  obtain ⟨_, hfeatures, hfeatured⟩ := hgiven "features" (by decide)
  obtain ⟨_, hused, huses⟩ := hgiven "used_features" (by decide)
  obtain ⟨_, hdirect, hflagged⟩ := hgiven "direct" (by decide)
  obtain ⟨name, rfl, -⟩ : IsName _ := by simpa [IsField] using hnamed
  obtain ⟨features, rfl, -⟩ : IsTextSet _ := by simpa [IsField] using hfeatured
  obtain ⟨usedFeatures, rfl, -⟩ : IsTextSet _ := by simpa [IsField] using huses
  obtain ⟨direct, rfl⟩ : IsFlag _ := by simpa [IsField] using hflagged
  -- the version is the one field that the decoder may have to fill in
  obtain ⟨version, hversion, hdecoded⟩ : ∃ version : Option String,
      (member? "version" fields).getD .null = (version.map Json.string).getD .null ∧
        Fact.decodeVersion? (member? "version" fields) = some version := by
    cases hcontent : member? "version" fields with
    | none => exact ⟨none, rfl, rfl⟩
    | some content =>
      rcases (by simpa [IsField] using hfield hcontent : IsVersion content) with rfl | ⟨text, rfl⟩
      · exact ⟨none, rfl, rfl⟩
      · exact ⟨some text, rfl, rfl⟩
  refine ⟨⟨name, version, features, usedFeatures, direct⟩, ?_,
    fields, rfl, hname, hversion, hfeatures, hused, hdirect⟩
  simp [Fact.ofJson?, Fact.decodeFields?, hname, hdecoded, hfeatures, hused, hdirect, Fact.decodeText?,
    Fact.decodeList?, Fact.decodeTexts?_texts, Fact.decodeFlag?]

/-- The facts are those of the members, under the same names. -/
def Lists (members : List (String × Json)) (facts : NameMap Fact) : Prop :=
  List.Forall₂ (fun member entry => entry.1 = member.1 ∧ States member.2 entry.2) members facts.entries

theorem exists_decodeEntries? (h : ∀ member ∈ members, IsFact member.2) :
    ∃ entries, decodeEntries? members = some entries ∧
      List.Forall₂ (fun member entry => entry.1 = member.1 ∧ States member.2 entry.2) members entries := by
  induction members with
  | nil => exact ⟨[], rfl, .nil⟩
  | cons member rest ih =>
    obtain ⟨fact, hfact, hstates⟩ := exists_states (h member List.mem_cons_self)
    obtain ⟨entries, hentries, hall⟩ := ih fun member hmember => h member (List.mem_cons_of_mem _ hmember)
    exact ⟨(member.1, fact) :: entries, by simp [decodeEntries?, hfact, hentries], .cons ⟨rfl, hstates⟩ hall⟩

theorem exists_lists (hsorted : members.Pairwise fun a b => a.1 < b.1)
    (h : ∀ member ∈ members, IsFact member.2) :
    ∃ facts, ofJson? (.object members) = some facts ∧ Lists members facts := by
  obtain ⟨entries, hentries, hall⟩ := exists_decodeEntries? h
  have hnames : entries.map (·.1) = members.map (·.1) := by
    clear hentries hsorted h
    induction hall with
    | nil => rfl
    | cons h _ ih => rw [List.map_cons, List.map_cons, h.1, ih]
  have hsorted : entries.Pairwise fun a b => a.1 < b.1 := by
    rwa [← List.pairwise_map (f := Prod.fst) (R := (· < ·)), hnames, List.pairwise_map]
  refine ⟨.ofList entries, by rw [ofJson?, hentries]; rfl, ?_⟩
  rwa [Lists, NameMap.entries_ofList hsorted]

theorem readSnapshot_of_isSnapshot (path : Path) {text : String} (hread : Json.read? text = some value)
    (h : IsSnapshot value) :
    ∃ members facts, value = .object members ∧ readSnapshot path text = .ok facts ∧ Lists members facts := by
  have hvalid := violations_eq_nil.2 h
  obtain ⟨members, rfl, hmembers⟩ := h
  obtain ⟨facts, hfacts, hlists⟩ := exists_lists (Json.pairwise_of_read? hread) hmembers
  refine ⟨members, facts, rfl, ?_, hlists⟩
  simp only [readSnapshot, hread, hvalid, hfacts]

theorem readSnapshot_of_not_isSnapshot (path : Path) {text : String} (hread : Json.read? text = some value)
    (h : ¬ IsSnapshot value) :
    readSnapshot path text = .error (.invalid path (Schema.violations value)) := by
  have hfaults : Schema.violations value ≠ [] := mt violations_eq_nil.1 h
  simp only [readSnapshot, hread]

/-- What passes the schema is decoded. -/
theorem loadSnapshot_ne_decoding (t : Tree) (path place : Path) :
    loadSnapshot t path ≠ .error (.decoding place) := by
  intro hload
  unfold loadSnapshot at hload
  split at hload
  · next text htext =>
    cases hread : Json.read? text with
    | none => simp [readSnapshot, hread] at hload
    | some value =>
      by_cases h : IsSnapshot value
      · obtain ⟨_, _, -, hok, -⟩ := readSnapshot_of_isSnapshot path hread h
        exact absurd (hok.symm.trans hload) (by simp)
      · exact absurd ((readSnapshot_of_not_isSnapshot path hread h).symm.trans hload) (by simp)
  · exact absurd hload (by simp)

/-- The schema and the checks that answer a faulty snapshot accept the same values. The decoder takes
each of them for exactly the facts that its members state, and nothing but a version that is left out is
filled in; so a snapshot is loaded or answered by the faults of its text, and never fails to decode. -/
theorem schema_fits_decoder :
    (∀ value, (Schema.violations value = [] ↔ IsSnapshot value) ∧
      (Json.Accepts schemaDocument schemaDocument value ↔ IsSnapshot value)) ∧
    (∀ members, IsSnapshot (.object members) → (members.Pairwise fun a b => a.1 < b.1) →
      ∃ facts, ofJson? (.object members) = some facts ∧ Lists members facts) ∧
    (∀ (t : Tree) path text value, t.readText? path = some text → Json.read? text = some value →
      (IsSnapshot value → ∃ members facts, value = .object members ∧
        loadSnapshot t path = .ok facts ∧ Lists members facts) ∧
      (¬ IsSnapshot value → loadSnapshot t path = .error (.invalid path (Schema.violations value)))) ∧
    ∀ t path place, loadSnapshot t path ≠ .error (.decoding place) := by
  refine ⟨fun value => ⟨violations_eq_nil, accepts_schemaDocument⟩, ?_, ?_, loadSnapshot_ne_decoding⟩
  · rintro _ ⟨members, ⟨⟩, hmembers⟩ hsorted
    exact exists_lists hsorted hmembers
  · intro t path text value htext hread
    rw [loadSnapshot_of_readText? htext]
    exact ⟨readSnapshot_of_isSnapshot path hread, readSnapshot_of_not_isSnapshot path hread⟩

/-- The fields in another order, one version left out and the other null. -/
def unorderedText : String :=
  "\x7b\"b\":\x7b\"used_features\":[],\"direct\":true,\"name\":\"c\",\"features\":[\"x\",\"\"]\x7d,"
    ++ "\"a\":\x7b\"version\":null,\"name\":\"a\",\"features\":[],\"used_features\":[],\"direct\":false\x7d\x7d"

def unorderedFacts : NameMap Fact :=
  .ofList [("a", ⟨"a", none, [], [], false⟩), ("b", ⟨"c", none, ["x", ""], [], true⟩)]

/-- A version that is a number, and a list left out. -/
def faultyText : String :=
  "\x7b\"b\":\x7b\"version\":1,\"direct\":true,\"name\":\"c\",\"features\":[]\x7d\x7d"

theorem schema_fits_decoder_unordered :
    (∃ members, Json.read? unorderedText = some (.object members) ∧ IsSnapshot (.object members) ∧
      Json.Accepts schemaDocument schemaDocument (.object members) ∧
      loadSnapshot (holding "r" unorderedText) ⟨"r"⟩ = .ok unorderedFacts ∧
      Lists members unorderedFacts) ∧
    ∃ value, Json.read? faultyText = some value ∧
      ¬ Json.Accepts schemaDocument schemaDocument value ∧
      loadSnapshot (holding "r" faultyText) ⟨"r"⟩ = .error (.invalid ⟨"r"⟩ (Schema.violations value)) ∧
      (Schema.violations value).map (·.text) = ["/b/version: 1 is not of types \"null\", \"string\"",
        "/b: \"used_features\" is a required property"] := by
  obtain ⟨haccepted, -, hloaded, -⟩ := schema_fits_decoder
  have hreads (text : String) : (holding "r" text).readText? ⟨"r"⟩ = some text := by rfl
  constructor
  · have htest : (Json.read? unorderedText).any fun value =>
        (Schema.violations value).isEmpty && ofJson? value == some unorderedFacts := by
      decide +kernel
    obtain ⟨value, hread, htest⟩ := (Option.any_eq_true _ _).1 htest
    rw [Bool.and_eq_true, List.isEmpty_iff, beq_iff_eq] at htest
    obtain ⟨hvalid, hfacts⟩ := htest
    have hsnapshot := (haccepted value).1.1 hvalid
    obtain ⟨members, facts, rfl, hload, hlists⟩ :=
      (hloaded _ ⟨"r"⟩ _ _ (hreads unorderedText) hread).1 hsnapshot
    have hok : loadSnapshot (holding "r" unorderedText) ⟨"r"⟩ = .ok unorderedFacts := by
      rw [loadSnapshot_of_readText? (hreads _), readSnapshot, hread]
      simp only [hvalid, hfacts]
    obtain rfl := Except.ok.inj (hok.symm.trans hload)
    exact ⟨members, hread, hsnapshot, (haccepted _).2.2 hsnapshot, hload, hlists⟩
  · have htest : (Json.read? faultyText).any fun value => (Schema.violations value).map (·.text) ==
        ["/b/version: 1 is not of types \"null\", \"string\"",
          "/b: \"used_features\" is a required property"] := by
      decide +kernel
    obtain ⟨value, hread, htest⟩ := (Option.any_eq_true _ _).1 htest
    rw [beq_iff_eq] at htest
    have hfaulty : ¬ IsSnapshot value := by
      rw [← (haccepted value).1]
      intro hnone
      simp [hnone] at htest
    exact ⟨value, hread, mt (haccepted value).2.1 hfaulty,
      (hloaded _ ⟨"r"⟩ _ _ (hreads faultyText) hread).2 hfaulty, htest⟩

end Registry

end FeatureForwarding
