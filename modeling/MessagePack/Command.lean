import MessagePack.Config
import MessagePack.Tree.Render
import MessagePack.Value

/-!
Commands on files of messages, and how they are asked for.

The words of a command line may stand in any order behind the command's name. A word that
starts with a hyphen is an option unless it follows a lone double hyphen. The value of an
option is the next word, or stands behind an equals sign; that of a short option may also
follow at once.
-/

namespace MessagePack

structure Format where
  extensions : Bool := false
  legacy : Bool := false
  tracking : Bool := true
  rawFloats : Bool := false
  maxDepth : Nat := 1000
  deriving DecidableEq

namespace Format

def float (format : Format) : FloatMode :=
  if format.rawFloats then .raw else .native

def config (format : Format) : Config where
  extensions := format.extensions
  compatibility := format.legacy
  version := if format.legacy then .v4 else .v5
  readTracking := format.tracking
  writeTracking := format.tracking
  float := format.float
  maxDepth := format.maxDepth

end Format

inductive Task where
  /-- Show every message, each on one line if compact. -/
  | inspect (file : String) (layout : Tree.Layout)
  /-- Check that the file holds nothing but messages. -/
  | validate (file : String)
  /-- Write a JSON document as a message. -/
  | encode (input output : String) (framing : Value.Framing)
  /-- Write every message as a JSON document. -/
  | decode (file : String) (output? : Option String)
  /-- Count what the messages are made of. -/
  | stats (file : String)
  deriving DecidableEq

structure Command where
  task : Task
  format : Format := {}
  deriving DecidableEq

namespace Command

/-- What the words behind the name of a command say. -/
structure Words where
  paths : List String := []
  output? : Option String := none
  compact : Bool := false
  builder : Bool := false
  format : Format := {}

/-- A word that stands for itself. -/
def switch? (words : Words) (word : String) : Option Words :=
  match word with
  | "-v" | "--verbose" => some words
  | "--compact" => some { words with compact := true }
  | "--builder" => some { words with builder := true }
  | "--extensions" => some { words with format := { words.format with extensions := true } }
  | "--legacy" => some { words with format := { words.format with legacy := true } }
  | "--no-tracking" => some { words with format := { words.format with tracking := false } }
  | "--raw-floats" => some { words with format := { words.format with rawFloats := true } }
  | _ => none

inductive Valued where
  | output
  | maxDepth
  deriving DecidableEq

def behind? (start word : String) : Option String :=
  if start.toList.isPrefixOf word.toList then
    some (String.ofList (word.toList.drop start.length))
  else
    none

/-- An option that takes a value, and the value if the word holds it. -/
def valued? (word : String) : Option (Valued × Option String) :=
  if word = "--output" ∨ word = "-o" then some (.output, none)
  else if word = "--max-depth" then some (.maxDepth, none)
  else
    ((behind? "--output=" word).map fun value => (.output, some value)) <|>
    ((behind? "--max-depth=" word).map fun value => (.maxDepth, some value)) <|>
    ((behind? "-o=" word).map fun value => (.output, some value)) <|>
    ((behind? "-o" word).map fun value => (.output, some value))

/-- Short options may share a hyphen, so that `-vo` is `-v` and `-o`. -/
def withoutVerbose (word : String) : String :=
  match word.toList with
  | '-' :: 'v' :: c :: rest => String.ofList ('-' :: c :: rest)
  | _ => word

def number? (text : String) : Option Nat :=
  let digits := match text.toList with
    | '+' :: digits => digits
    | digits => digits
  if digits ≠ [] ∧ digits.all Char.isDigit then
    let value := digits.foldl (fun value c => 10 * value + (c.toNat - '0'.toNat)) 0
    if value < UInt64.size then some value else none
  else
    none

def isOption (word : String) : Bool :=
  match word.toList with
  | '-' :: _ :: _ => true
  | _ => false

def setValue? (words : Words) (option : Valued) (value : String) : Option Words :=
  match option with
  | .output => if value = "" then none else some { words with output? := some value }
  | .maxDepth =>
      (number? value).map fun maxDepth =>
        { words with format := { words.format with maxDepth } }

def readWords? (words : Words) : List String → Option Words
  | [] => some words
  | "" :: _ => none
  | "--" :: paths => some { words with paths := words.paths ++ paths }
  | word :: rest =>
      if !isOption word then
        readWords? { words with paths := words.paths ++ [word] } rest
      else
        match switch? words word with
        | some words => readWords? words rest
        | none =>
            match valued? (withoutVerbose word) with
            | none => none
            | some (option, some value) => do readWords? (← setValue? words option value) rest
            | some (option, none) =>
                match rest with
                | [] => none
                | value :: rest =>
                    if isOption value then
                      none
                    else do
                      readWords? (← setValue? words option value) rest

def task? (name : String) (words : Words) : Option Task :=
  let layout : Tree.Layout := if words.compact then .compact else .pretty
  let framing : Value.Framing := if words.builder then .built else .counted
  match name, words.paths, words.output?, words.compact, words.builder with
  | "inspect", [file], none, _, false => some (.inspect file layout)
  | "validate", [file], none, false, false => some (.validate file)
  | "encode", [input], some output, false, _ => some (.encode input output framing)
  | "decode", [file], output?, false, false => some (.decode file output?)
  | "stats", [file], none, false, false => some (.stats file)
  | _, _, _, _, _ => none

def ofWords? : List String → Option Command
  | "-v" :: words | "--verbose" :: words => ofWords? words
  | name :: words => do
      let words ← readWords? {} words
      let task ← task? name words
      return { task, format := words.format }
  | [] => none

end Command
end MessagePack
