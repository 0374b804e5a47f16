import FeatureForwarding.Json.Basic

/-! The text of JSON values: on one line without blanks, or with a line for each element
and member, indented by two blanks. Members are written in the order in which they are
listed. -/

namespace FeatureForwarding.Json

def lowerHexDigit (n : Nat) : Char :=
  if n < 10 then Char.ofNat (48 + n) else Char.ofNat (87 + n)

/-- Quotes, backslashes and control characters are escaped and nothing else is. -/
def escapeChar (c : Char) : List Char :=
  if c = '"' then ['\\', '"']
  else if c = '\\' then ['\\', '\\']
  else if c = '\x08' then ['\\', 'b']
  else if c = '\x0c' then ['\\', 'f']
  else if c = '\n' then ['\\', 'n']
  else if c = '\r' then ['\\', 'r']
  else if c = '\t' then ['\\', 't']
  else if c.toNat < 0x20 then
    ['\\', 'u', '0', '0', lowerHexDigit (c.toNat / 16), lowerHexDigit (c.toNat % 16)]
  else [c]

def quote (content : String) : String :=
  "\"" ++ String.ofList (content.toList.flatMap escapeChar) ++ "\""

def Number.text : Number → String
  | .natural n => toString n
  | .negative n => "-" ++ toString n
  | .double d => d.text

/-- How the elements of a container are set off from its brackets and from each other. -/
structure Layout where
  opening : String
  separator : String
  closing : String
  colon : String

namespace Layout

def compact : Layout := ⟨"", ",", "", ":"⟩

/-- Elements stand one level deeper than their brackets. -/
def indented (depth : Nat) : Layout :=
  let inner := "\n" ++ String.ofList (List.replicate (2 * (depth + 1)) ' ')
  ⟨inner, "," ++ inner, "\n" ++ String.ofList (List.replicate (2 * depth) ' '), ": "⟩

/-- An empty container is written without anything between its brackets. -/
def enclose (layout : Layout) (left right : String) (parts : List String) : String :=
  if parts.isEmpty then left ++ right
  else left ++ layout.opening ++ layout.separator.intercalate parts ++ layout.closing ++ right

end Layout

mutual

/-- `layout` gives the layout of a container by its depth. -/
def textWith (layout : Nat → Layout) (depth : Nat) : Json → String
  | .null => "null"
  | .boolean value => if value then "true" else "false"
  | .number value => value.text
  | .string content => quote content
  | .array elements => (layout depth).enclose "[" "]" (elementTexts layout (depth + 1) elements)
  | .object members => (layout depth).enclose "\x7b" "\x7d" (memberTexts layout depth members)
  termination_by structural value => value

def elementTexts (layout : Nat → Layout) (depth : Nat) : List Json → List String
  | [] => []
  | v :: vs => textWith layout depth v :: elementTexts layout depth vs
  termination_by structural vs => vs

/-- The depth is that of the object itself. -/
def memberTexts (layout : Nat → Layout) (depth : Nat) : List (String × Json) → List String
  | [] => []
  | (name, v) :: rest =>
    (quote name ++ (layout depth).colon ++ textWith layout (depth + 1) v) :: memberTexts layout depth rest
  termination_by structural members => members

end

def compact (value : Json) : String := textWith (fun _ => .compact) 0 value

def pretty (value : Json) : String := textWith .indented 0 value

end FeatureForwarding.Json
