import FeatureForwarding.Text.Reader
import FeatureForwarding.Toml.Basic

/-! The smallest pieces of a document's text: blanks, line ends, comments, quoted
texts and keys. -/

namespace FeatureForwarding.Toml

open Text (Reader push hexNumber?)

/-- What was read, given the characters before and after. -/
def consumed (start rest : List Char) : String :=
  String.ofList (start.take (start.length - rest.length))

namespace Lexeme

def isSpace (c : Char) : Bool := c == ' ' || c == '\t'

/-- Tabs and all characters that are no ASCII control characters. -/
def isPrintable (c : Char) : Bool := c == '\t' || (0x20 ≤ c.toNat && c.toNat != 0x7F)

def spaces (cs : List Char) : String × List Char :=
  (String.ofList (cs.takeWhile isSpace), cs.dropWhile isSpace)

/-- A line ends with a line feed, which a carriage return may precede. -/
def newline : List Char → Option (List Char)
  | '\n' :: cs => some cs
  | '\r' :: '\n' :: cs => some cs
  | _ => none

/-- The last line need not end. -/
def lineEnd : List Char → Option (List Char)
  | [] => some []
  | cs => newline cs

def dropComment : List Char → List Char
  | '#' :: cs => cs.dropWhile isPrintable
  | cs => cs

/-- The blanks and the comment behind a value or a header, up to the end of the line. -/
def lineTail : Reader String := fun cs =>
  let rest := dropComment (cs.dropWhile isSpace)
  (lineEnd rest).map fun next => (consumed cs rest, next)

/-- Blanks, line ends and comments between the elements of an array. -/
def dropGapFrom (inComment : Bool) : List Char → List Char
  | [] => []
  | c :: cs =>
    if inComment && isPrintable c then dropGapFrom true cs
    else if isSpace c || c == '\n' then dropGapFrom false cs
    else if c == '\r' && cs.head? == some '\n' then dropGapFrom false cs
    else if c == '#' then dropGapFrom true cs
    else c :: cs

def gap (cs : List Char) : String × List Char :=
  let rest := dropGapFrom false cs
  (consumed cs rest, rest)

/-- The character with the code point that `length` hexadecimal digits give. -/
def codePoint? (length : Nat) (cs : List Char) : Option Char :=
  (hexNumber? length cs).bind fun n => if n.isValidChar then some (Char.ofNat n) else none

/-- The character that an escape stands for and the number of characters behind the
backslash that spell it. -/
def escape? : List Char → Option (Char × Nat)
  | 'b' :: _ => some ('\x08', 1)
  | 't' :: _ => some ('\t', 1)
  | 'n' :: _ => some ('\n', 1)
  | 'f' :: _ => some ('\x0c', 1)
  | 'r' :: _ => some ('\r', 1)
  | '"' :: _ => some ('"', 1)
  | '\\' :: _ => some ('\\', 1)
  | 'u' :: cs => (codePoint? 4 cs).map (·, 5)
  | 'U' :: cs => (codePoint? 8 cs).map (·, 9)
  | _ => none

/-- Behind a backslash at the end of a line: how many characters up to the next text. -/
def continuation? (cs : List Char) : Option Nat :=
  (newline (cs.dropWhile isSpace)).map fun rest => cs.length - (dropBlankLines rest).length
where
  dropBlankLines : List Char → List Char
    | [] => []
    | c :: cs =>
      if isSpace c || c == '\n' || (c == '\r' && cs.head? == some '\n') then dropBlankLines cs
      else c :: cs

/-- The rest of a quoted line; `skip` characters belong to an escape that was read. -/
def quotedLineFrom (skip : Nat) : Reader (List Char)
  | [] => none
  | c :: cs =>
    match skip with
    | skip + 1 => quotedLineFrom skip cs
    | 0 =>
      if c = '"' then some ([], cs)
      else if c = '\\' then (escape? cs).bind fun (x, n) => (quotedLineFrom n cs).map (push x)
      else if isPrintable c then (quotedLineFrom 0 cs).map (push c)
      else none

def literalLineFrom : Reader (List Char)
  | [] => none
  | c :: cs =>
    if c = '\'' then some ([], cs)
    else if isPrintable c then (literalLineFrom cs).map (push c)
    else none

/-- How a run of quotes inside a block reads: three close it, and one or two in front of
those still belong to the text. -/
def closing? (mark : Char) (cs : List Char) : Option (List Char × List Char) :=
  let run := (cs.takeWhile (· == mark)).length
  if run < 3 then none
  else
    let kept := min (run - 3) 2
    some (List.replicate kept mark, cs.drop (kept + 3))

/-- The rest of a quoted block. -/
def quotedBlockFrom (skip : Nat) : Reader (List Char)
  | [] => none
  | c :: cs =>
    match skip with
    | skip + 1 => quotedBlockFrom skip cs
    | 0 =>
      if c = '"' then
        match closing? '"' (c :: cs) with
        | some close => some close
        | none => (quotedBlockFrom 0 cs).map (push c)
      else if c = '\\' then
        match continuation? cs with
        | some n => quotedBlockFrom n cs
        | none => (escape? cs).bind fun (x, n) => (quotedBlockFrom n cs).map (push x)
      else if c = '\r' && cs.head? = some '\n' then quotedBlockFrom 0 cs
      else if c = '\n' || isPrintable c then (quotedBlockFrom 0 cs).map (push c)
      else none

/-- The rest of a literal block. -/
def literalBlockFrom : Reader (List Char)
  | [] => none
  | c :: cs =>
    if c = '\'' then
      match closing? '\'' (c :: cs) with
      | some close => some close
      | none => (literalBlockFrom cs).map (push c)
    else if c = '\r' && cs.head? = some '\n' then literalBlockFrom cs
    else if c = '\n' || isPrintable c then (literalBlockFrom cs).map (push c)
    else none

/-- A block starts behind the line end that follows its opening. -/
def dropFirstNewline (cs : List Char) : List Char :=
  (newline cs).getD cs

def lineText : Reader String
  | '"' :: cs => (quotedLineFrom 0 cs).map fun (text, rest) => (String.ofList text, rest)
  | '\'' :: cs => (literalLineFrom cs).map fun (text, rest) => (String.ofList text, rest)
  | _ => none

def text : Reader String
  | '"' :: '"' :: '"' :: cs =>
    (quotedBlockFrom 0 (dropFirstNewline cs)).map fun (text, rest) => (String.ofList text, rest)
  | '\'' :: '\'' :: '\'' :: cs =>
    (literalBlockFrom (dropFirstNewline cs)).map fun (text, rest) => (String.ofList text, rest)
  | cs => lineText cs

/-- One part of a key: a quoted line or a run of bare characters. -/
def keyPart : Reader (String × String) := fun cs =>
  if cs.head? == some '"' || cs.head? == some '\'' then
    (lineText cs).map fun (name, rest) => ((name, consumed cs rest), rest)
  else
    let name := cs.takeWhile fun c => c.isAlphanum || c == '-' || c == '_'
    if name.isEmpty then none
    else some ((String.ofList name, String.ofList name), cs.drop name.length)

/-- The parts of a key with the blanks around them, read as long as a dot follows. -/
def keyPartsFrom : Nat → Reader (List Key)
  | 0, _ => none
  | fuel + 1, cs =>
    let (before, cs) := spaces cs
    (keyPart cs).bind fun ((name, spelling), cs) =>
      let (after, cs) := spaces cs
      let part : Key := ⟨name, some spelling, {}, ⟨some before, some after⟩⟩
      match cs with
      | '.' :: cs => (keyPartsFrom fuel cs).map fun (parts, rest) => (part :: parts, rest)
      | cs => some ([part], cs)

/-- Keys have fewer parts than this. -/
def keyPartLimit : Nat := 80

/-- The tables that a key leads through and the name that it gives in the last of them. -/
structure KeyPath where
  parents : List Key
  last : Key

/-- The text around a dotted key belongs to its last part, not to the dots. -/
def KeyPath.ofParts? (parts : List Key) : Option KeyPath :=
  let before := parts.head?.bind (·.dotDecor.before)
  let parts := parts.mapIdx fun i key =>
    if i = 0 then { key with dotDecor := { key.dotDecor with before := some "" } } else key
  parts.getLast?.map fun last =>
    ⟨parts.dropLast, { last with
      decor := ⟨before, last.dotDecor.after⟩
      dotDecor := { last.dotDecor with after := some "" } }⟩

def keyPath : Reader KeyPath := fun cs =>
  (keyPartsFrom cs.length cs).bind fun (parts, rest) =>
    if parts.length < keyPartLimit then (KeyPath.ofParts? parts).map (·, rest) else none

end Lexeme

end FeatureForwarding.Toml
