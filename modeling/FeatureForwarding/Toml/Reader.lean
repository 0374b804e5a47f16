import FeatureForwarding.Toml.Assembly
import FeatureForwarding.Toml.Numeral

/-! Reading documents. The text is read line by line into assignments and sections, where
the blank and comment lines above a line become the text in front of its key or header;
these are then assembled into a tree. -/

namespace FeatureForwarding.Toml

namespace Reading

open Lexeme
open Text (Reader literal)

/-- Arrays and inline tables nest less deeply than this. -/
def nestingLimit : Nat := 80

def simpleValue : Reader Value
  | '"' :: cs => (text ('"' :: cs)).map fun (content, rest) =>
    (.scalar {} (.text content (some (consumed ('"' :: cs) rest))), rest)
  | '\'' :: cs => (text ('\'' :: cs)).map fun (content, rest) =>
    (.scalar {} (.text content (some (consumed ('\'' :: cs) rest))), rest)
  | 't' :: 'r' :: 'u' :: 'e' :: cs => some (.scalar {} (.boolean true), cs)
  | 'f' :: 'a' :: 'l' :: 's' :: 'e' :: cs => some (.scalar {} (.boolean false), cs)
  | cs => (Numeral.scalar cs).map fun (content, rest) => (.scalar {} content, rest)

/-- What stands between the brackets of an array. -/
structure Elements where
  values : List Value
  trailingComma : Bool
  trailing : String

def elementsFrom (value : Reader Value) (afterComma : Bool) : Nat → Reader Elements
  | 0, _ => none
  | fuel + 1, cs =>
    let (before, cs) := gap cs
    match cs with
    | ']' :: rest => some (⟨[], afterComma, before⟩, rest)
    | cs => do
      let (v, cs) ← value cs
      let (after, cs) := gap cs
      let v := v.withDecor ⟨some before, some after⟩
      match cs with
      | ',' :: cs =>
        let (more, rest) ← elementsFrom value true fuel cs
        some ({ more with values := v :: more.values }, rest)
      | ']' :: rest => some (⟨[v], false, ""⟩, rest)
      | _ => none

/-- The entries of an inline table; `mayEnd` is only true right behind the brace. -/
def pairsFrom (value : Reader Value) (mayEnd : Bool) : Nat → Reader (String × List Assignment)
  | 0, _ => none
  | fuel + 1, cs =>
    let (blank, next) := spaces cs
    if mayEnd && next.head? == some '\x7d' then some ((blank, []), next.tail)
    else do
      let (path, cs) ← keyPath cs
      let cs ← literal '=' cs
      let (before, cs) := spaces cs
      let (v, cs) ← value cs
      let (after, cs) := spaces cs
      let pair : Assignment := ⟨path, v.withDecor ⟨some before, some after⟩⟩
      match cs with
      | ',' :: cs =>
        let ((_, more), rest) ← pairsFrom value false fuel cs
        some (("", pair :: more), rest)
      | '\x7d' :: rest => some (("", [pair]), rest)
      | _ => none

/-- The parameter is the number of brackets that may still be opened. -/
def valueWithin : Nat → Reader Value
  | 0, cs => if cs.head? == some '[' || cs.head? == some '\x7b' then none else simpleValue cs
  | depth + 1, cs =>
    match cs with
    | '[' :: cs => do
      let (elements, rest) ← elementsFrom (valueWithin depth) false (cs.length + 1) cs
      some (.array {} elements.values elements.trailingComma elements.trailing, rest)
    | '\x7b' :: cs => do
      let ((preamble, pairs), rest) ← pairsFrom (valueWithin depth) true (cs.length + 1) cs
      let entries ← Value.assignAll? [] pairs
      some (.inline {} false preamble entries, rest)
    | cs => simpleValue cs

def value : Reader Value := valueWithin (nestingLimit - 1)

/-- A line `path = value`; `lead` is the text above it. -/
def assignment (lead : String) : Reader Assignment := fun cs => do
  let (path, cs) ← keyPath cs
  let cs ← literal '=' cs
  let (before, cs) := spaces cs
  let (v, cs) ← value cs
  let (after, cs) ← lineTail cs
  let last := { path.last with decor := { path.last.decor with before := some lead } }
  some (⟨{ path with last }, v.withDecor ⟨some before, some after⟩⟩, cs)

/-- A header without its lines. -/
def header (lead : String) : Reader Section
  | '[' :: '[' :: cs => do
    let (path, cs) ← keyPath cs
    let cs ← literal ']' cs
    let cs ← literal ']' cs
    let (after, cs) ← lineTail cs
    some (⟨true, path, ⟨some lead, some after⟩, []⟩, cs)
  | '[' :: cs => do
    let (path, cs) ← keyPath cs
    let cs ← literal ']' cs
    let (after, cs) ← lineTail cs
    some (⟨false, path, ⟨some lead, some after⟩, []⟩, cs)
  | _ => none

/-- The lines up to the first header, the sections, and the text at the end. -/
structure Lines where
  body : List Assignment
  sections : List Section
  trailing : String

/-- The blank and comment lines in front of the next line, and its indentation. -/
def dropLeadFrom : Nat → List Char → Option (List Char)
  | 0, _ => none
  | fuel + 1, cs =>
    let cs := cs.dropWhile isSpace
    match cs with
    | '#' :: rest => (lineEnd (rest.dropWhile isPrintable)).bind fun cs => dropLeadFrom fuel cs
    | cs =>
      match newline cs with
      | some cs => dropLeadFrom fuel cs
      | none => some cs

def lines : Nat → List Char → Option Lines
  | 0, _ => none
  | fuel + 1, cs => do
    let rest ← dropLeadFrom (cs.length + 1) cs
    let lead := consumed cs rest
    match rest with
    | [] => some ⟨[], [], lead⟩
    | '[' :: _ =>
      let (start, rest) ← header lead rest
      let below ← lines fuel rest
      some ⟨[], { start with body := below.body } :: below.sections, below.trailing⟩
    | rest =>
      let (line, rest) ← assignment lead rest
      let below ← lines fuel rest
      some { below with body := line :: below.body }

def withoutByteOrderMark : List Char → List Char
  | '\uFEFF' :: cs => cs
  | cs => cs

end Reading

/-- The document that a text spells, if it spells one. -/
def Document.read? (text : String) : Option Document := do
  let cs := Reading.withoutByteOrderMark text.toList
  let lines ← Reading.lines (cs.length + 1) cs
  assemble? lines.body lines.sections lines.trailing

end FeatureForwarding.Toml
