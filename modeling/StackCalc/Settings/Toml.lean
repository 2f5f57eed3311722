import StackCalc.Settings.Document
import StackCalc.Text.Split

/-!
Documents of settings in the TOML format, as lines `key = value`. The only keys are `load_prelude`,
a truth value, and `max_depth`, a natural number; each may stand once. Comments start with `#`.

Every other key and every other kind of value is refused, whether or not the format allows it, so
the reader knows no more of the format than what can be accepted.
-/
namespace StackCalc

namespace Settings

open Text

/-- One line of a document. -/
inductive Line where
  | blank
  | loadPrelude (value : Bool)
  | maxDepth (value : Nat)
  deriving DecidableEq, Repr

/-- The lines of a text. A line feed ends a line, and may have a carriage return before it. -/
def textLines : List Char → List (List Char)
  | [] => [[]]
  | '\r' :: '\n' :: rest => [] :: textLines rest
  | '\n' :: rest => [] :: textLines rest
  | c :: rest =>
    match textLines rest with
    | [] => [[c]]
    | line :: lines => (c :: line) :: lines

def isBlank (c : Char) : Bool :=
  c = ' ' || c = '\t'

/-- Comments hold no control characters but tabulators. -/
def isCommentChar (c : Char) : Bool :=
  c = '\t' || (0x20 ≤ c.toNat && c.toNat ≠ 0x7F)

/-- What may stand after a value: blanks, and a comment. -/
def endsLine (text : List Char) : Bool :=
  match text.dropWhile isBlank with
  | [] => true
  | c :: comment => c = '#' && comment.all isCommentChar

/-- The characters of a key without quotes. -/
def isKeyChar (c : Char) : Bool :=
  c.isAlphanum || c = '_' || c = '-'

/-- The value of a digit, with letters for the digits from ten on. -/
def digitValue? (c : Char) : Option Nat :=
  if c.isDigit then some (c.toNat - '0'.toNat)
  else if 'a' ≤ c && c ≤ 'f' then some (c.toNat - 'a'.toNat + 10)
  else if 'A' ≤ c && c ≤ 'F' then some (c.toNat - 'A'.toNat + 10)
  else none

/-- A natural number of digits in the given base. -/
def natural? (base : Nat) (digits : List Char) : Option Nat := do
  let values ← digits.mapM digitValue?
  if values.isEmpty || !values.all (· < base) then none
  else return values.foldl (fun total value => total * base + value) 0

/-- The character that an escape in hexadecimal digits stands for. -/
def escaped? (digits : List Char) : Option Char :=
  (natural? 16 digits).map Char.ofNat

/-- The text up to the closing double quote, and what follows the quote. -/
def quotedKey? : List Char → Option (List Char × List Char)
  | [] => none
  | '"' :: rest => some ([], rest)
  | '\\' :: 'u' :: a :: b :: c :: d :: rest => do
    let char ← escaped? [a, b, c, d]
    let (key, after) ← quotedKey? rest
    return (char :: key, after)
  | '\\' :: 'U' :: a :: b :: c :: d :: e :: f :: g :: h :: rest => do
    let char ← escaped? [a, b, c, d, e, f, g, h]
    let (key, after) ← quotedKey? rest
    return (char :: key, after)
  | c :: rest => (quotedKey? rest).map fun (key, after) => (c :: key, after)

/-- The key at the start of a text, and what follows it. -/
def key? : List Char → Option (List Char × List Char)
  | '"' :: rest => quotedKey? rest
  | '\'' :: rest =>
    match rest.dropWhile (· != '\'') with
    | [] => none
    | _ :: after => some (rest.takeWhile (· != '\''), after)
  | text => some (text.takeWhile isKeyChar, text.dropWhile isKeyChar)

/-- Digits in groups, with an underscore between two groups. -/
def grouped? (base : Nat) (text : List Char) : Option Nat :=
  let groups := split '_' text
  if groups.any List.isEmpty then none else natural? base groups.flatten

/-- A decimal number has no needless zero in front. -/
def decimal? (text : List Char) : Option Nat :=
  if text.head? = some '0' && text.length ≠ 1 then none else grouped? 10 text

/-- A natural number in one of four bases; only a decimal one may have a sign, and minus only at
zero. -/
def count? : List Char → Option Nat
  | '0' :: 'x' :: digits => grouped? 16 digits
  | '0' :: 'o' :: digits => grouped? 8 digits
  | '0' :: 'b' :: digits => grouped? 2 digits
  | '+' :: digits => decimal? digits
  | '-' :: digits => (decimal? digits).filter (· = 0)
  | digits => decimal? digits

/-- The largest integer of the format, in 64 bits with a sign. -/
def maxInteger : Nat := UInt64.size / 2 - 1

def truth? (text : List Char) : Option Bool :=
  if text = "true".toList then some true
  else if text = "false".toList then some false
  else none

/-- The setting that a key and the text of a value make. -/
def setting? (key value : List Char) : Option Line :=
  if key = "load_prelude".toList then (truth? value).map .loadPrelude
  else if key = "max_depth".toList then
    ((count? value).filter (· ≤ maxInteger)).map .maxDepth
  else none

/-- A value ends at a blank or at a comment. -/
def isValueChar (c : Char) : Bool :=
  !(isBlank c || c = '#')

/-- A line of a document, if it is one. -/
def line? (text : List Char) : Option Line :=
  if endsLine text then some .blank
  else do
    let (key, after) ← key? (text.dropWhile isBlank)
    match after.dropWhile isBlank with
    | '=' :: rest =>
      let rest := rest.dropWhile isBlank
      if endsLine (rest.dropWhile isValueChar) then setting? key (rest.takeWhile isValueChar)
      else none
    | _ => none

/-- The only item of a list that has one, `default` for a list without items. -/
def atMostOne? {α : Type} (default : α) : List α → Option α
  | [] => some default
  | [a] => some a
  | _ => none

/-- The settings that a list of lines makes; what is not set keeps its default. -/
def ofLines? (lines : List Line) : Option Settings := do
  let defaults : Settings := {}
  let loadPrelude ← atMostOne? defaults.loadPrelude
    (lines.filterMap fun | .loadPrelude value => some value | _ => none)
  let maxDepth ← atMostOne? defaults.maxDepth
    (lines.filterMap fun | .maxDepth value => some value | _ => none)
  return { loadPrelude, maxDepth }

/-- The text without a byte order mark at its start. -/
def withoutMark : List Char → List Char
  | '\uFEFF' :: text => text
  | text => text

/-- Documents of the format. -/
def toml : DocumentReader := fun document =>
  match ((textLines (withoutMark document.toList)).mapM line?).bind ofLines? with
  | some settings => .ok settings
  | none => .error "no table of known settings"

/-- The settings of a document of the format. -/
def ofDocument (document : String) : Except SettingsFault Settings :=
  toml.settings document

/-- The settings of a document of the format in a file. -/
def ofFile (read : FileReader) (path : String) : Except SettingsFault Settings :=
  toml.settingsIn read path

end Settings

end StackCalc
