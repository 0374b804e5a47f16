import FeatureForwarding.Json.Basic

/-! Schemas that are JSON values themselves. A keyword means what draft 7 of JSON Schema says of it and
asks for nothing of values of another type; keywords that are not listed here are annotations. -/

namespace FeatureForwarding.Json

/-- The name that the keyword `type` has for a value. -/
def typeName : Json → String
  | .null => "null"
  | .boolean _ => "boolean"
  | .number _ => "number"
  | .string _ => "string"
  | .array _ => "array"
  | .object _ => "object"

/-- What stands at the end of a row of names. -/
def below? : List String → Json → Option Json
  | [], value => some value
  | name :: names, .object members => (member? name members).bind (below? names)
  | _ :: _, _ => none

/-- What a reference within a document stands for; no name in it is escaped. -/
def referred? (document : Json) (reference : String) : Option Json :=
  match (reference.toList.splitOnP (· == '/')).map String.ofList with
  | "#" :: names => document.below? names
  | _ => none

/-- The schema has a rule for the property. -/
def Declares (schema : List (String × Json)) (name : String) : Prop :=
  ∃ rules, member? "properties" schema = some (.object rules) ∧ (member? name rules).isSome

mutual

/-- The value passes a schema of the document. A reference stands for itself alone, whatever is written
beside it. -/
inductive Accepts (document : Json) : Json → Json → Prop
  | always {value : Json} : Accepts document (.boolean true) value
  | reference {schema : List (String × Json)} {reference : String} {rule value : Json}
      (href : member? "$ref" schema = some (.string reference))
      (hrule : document.referred? reference = some rule) (h : Accepts document rule value) :
      Accepts document (.object schema) value
  | keywords {schema : List (String × Json)} {value : Json} (href : member? "$ref" schema = none)
      (h : Meets document schema value) : Accepts document (.object schema) value

/-- The value meets the keywords of a schema. -/
inductive Meets (document : Json) : List (String × Json) → Json → Prop
  | intro {schema : List (String × Json)} {value : Json}
      (type : ∀ name, member? "type" schema = some (.string name) → value.typeName = name)
      (types : ∀ names, member? "type" schema = some (.array names) → .string value.typeName ∈ names)
      (minLength : ∀ n content, member? "minLength" schema = some (.number (.natural n)) →
        value = .string content → n ≤ content.length)
      (items : ∀ rule elements, member? "items" schema = some rule → value = .array elements →
        ∀ element ∈ elements, Accepts document rule element)
      (uniqueItems : ∀ elements, member? "uniqueItems" schema = some (.boolean true) →
        value = .array elements → elements.Pairwise fun a b => sameValue a b = false)
      (required : ∀ names members, member? "required" schema = some (.array names) →
        value = .object members → ∀ name, .string name ∈ names → ∃ content, (name, content) ∈ members)
      (properties : ∀ rules members, member? "properties" schema = some (.object rules) →
        value = .object members → ∀ member ∈ members, ∀ rule, member? member.1 rules = some rule →
          Accepts document rule member.2)
      (additionalProperties : ∀ rule members, member? "additionalProperties" schema = some rule →
        value = .object members → ∀ member ∈ members,
          ¬Declares schema member.1 → Accepts document rule member.2) :
      Meets document schema value

end

variable {document rule value : Json} {schema : List (String × Json)} {reference : String}

theorem accepts_boolean_iff {always : Bool} : Accepts document (.boolean always) value ↔ always := by
  constructor
  · rintro ⟨⟩
    rfl
  · rintro rfl
    exact .always

theorem accepts_reference_iff (href : member? "$ref" schema = some (.string reference))
    (hrule : document.referred? reference = some rule) :
    Accepts document (.object schema) value ↔ Accepts document rule value := by
  refine ⟨fun h => ?_, .reference href hrule⟩
  cases h with
  | reference href' hrule' h =>
    obtain rfl := Json.string.inj (Option.some.inj (href.symm.trans href'))
    exact Option.some.inj (hrule'.symm.trans hrule) ▸ h
  | keywords href' _ => exact absurd (href.symm.trans href') nofun

theorem accepts_keywords_iff (href : member? "$ref" schema = none) :
    Accepts document (.object schema) value ↔ Meets document schema value := by
  refine ⟨fun h => ?_, .keywords href⟩
  cases h with
  | reference href' _ _ => exact absurd (href.symm.trans href') nofun
  | keywords _ h => exact h

end FeatureForwarding.Json
