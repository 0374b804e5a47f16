import FeatureForwarding.Toml.Basic

/-! How a string is written that has no spelling yet. The plainest of four forms
that needs no escape is taken: a quoted line, a literal line, a quoted block and a
literal block, in this order; where all of them fall out the text is escaped. -/

namespace FeatureForwarding.Toml

/-- The four forms of a string. -/
inductive Quotation where
  | line
  | literalLine
  | block
  | literalBlock
  deriving DecidableEq, Inhabited

namespace Quotation

def delimiter : Quotation → String
  | .line => "\""
  | .literalLine => "'"
  | .block => "\"\"\""
  | .literalBlock => "'''"

end Quotation

namespace Spelling

/-- Control characters that no form can hold unescaped; tabs and line feeds are none. -/
def isControl (c : Char) : Bool :=
  (c.toNat < 0x20 && c != '\t' && c != '\n') || c.toNat == 0x7F

def longestRunFrom (mark : Char) (best current : Nat) : List Char → Nat
  | [] => max best current
  | c :: cs =>
    if c == mark then longestRunFrom mark best (current + 1) cs
    else longestRunFrom mark (max best current) 0 cs

def longestRun (mark : Char) (cs : List Char) : Nat := longestRunFrom mark 0 0 cs

/-- Whether the form shows the text as it is. -/
def fits (cs : List Char) : Quotation → Bool
  | .line => !cs.any isControl && !cs.contains '\\' && !cs.contains '"' && !cs.contains '\n'
  | .literalLine => !cs.any isControl && !cs.contains '\'' && !cs.contains '\n'
  | .block => !cs.any isControl && !cs.contains '\\' && longestRun '"' cs ≤ 2
  | .literalBlock => !cs.any isControl && longestRun '\'' cs ≤ 2

def choose (cs : List Char) : Quotation :=
  match [Quotation.line, .literalLine, .block, .literalBlock].find? (fits cs) with
  | some form => form
  | none => if cs.contains '\n' then .block else .line

def upperHexDigit (n : Nat) : Char :=
  if n < 10 then Char.ofNat (48 + n) else Char.ofNat (55 + n)

def unicodeEscape (c : Char) : String :=
  "\\u" ++ String.ofList [upperHexDigit (c.toNat / 4096 % 16), upperHexDigit (c.toNat / 256 % 16),
    upperHexDigit (c.toNat / 16 % 16), upperHexDigit (c.toNat % 16)]

/-- The text of one character other than a quote. -/
def escapeChar (isBlock : Bool) (c : Char) : String :=
  match c with
  | '\x08' => "\\b"
  | '\t' => "\\t"
  | '\n' => if isBlock then "\n" else "\\n"
  | '\x0c' => "\\f"
  | '\r' => "\\r"
  | '\\' => "\\\\"
  | c => if isControl c then unicodeEscape c else String.singleton c

/-- A line admits no bare quote and a block admits two in a row; `quotes` counts the bare
quotes just written. -/
def escapeFrom (isBlock : Bool) (quotes : Nat) : List Char → String
  | [] => ""
  | c :: cs =>
    if c = '"' then
      if isBlock && quotes < 2 then "\"" ++ escapeFrom isBlock (quotes + 1) cs
      else "\\\"" ++ escapeFrom isBlock 0 cs
    else escapeChar isBlock c ++ escapeFrom isBlock 0 cs

def body (form : Quotation) (cs : List Char) : String :=
  match form with
  | .line => escapeFrom false 0 cs
  | .block => escapeFrom true 0 cs
  | .literalLine | .literalBlock => String.ofList cs

/-- A block that spans lines starts on a line of its own. -/
def opening (form : Quotation) (cs : List Char) : String :=
  match form with
  | .line | .literalLine => form.delimiter
  | .block | .literalBlock => form.delimiter ++ (if cs.contains '\n' then "\n" else "")

def text (content : String) : String :=
  let cs := content.toList
  let form := choose cs
  opening form cs ++ body form cs ++ form.delimiter

end Spelling

def isBareKeyChar (c : Char) : Bool :=
  c.isAlphanum || c == '-' || c == '_'

namespace Key

/-- The key as it stands in a line; a new key is bare if it can be. -/
def shown (key : Key) : String :=
  match key.spelling with
  | some spelling => spelling
  | none =>
    if !key.name.isEmpty && key.name.toList.all isBareKeyChar then key.name
    else if Spelling.fits key.name.toList .line || !Spelling.fits key.name.toList .literalLine then
      "\"" ++ Spelling.body .line key.name.toList ++ "\""
    else "'" ++ key.name ++ "'"

end Key

namespace Scalar

def shown : Scalar → String
  | .text content spelling => spelling.getD (Spelling.text content)
  | .boolean value => if value then "true" else "false"
  | .integer spelling => spelling
  | .float spelling => spelling
  | .dateTime spelling => spelling

end Scalar

end FeatureForwarding.Toml
