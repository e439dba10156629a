import MessagePack.Json.Number
import MessagePack.Json.Quoted

/-!
The tokens of JSON text.
-/

namespace MessagePack.Json

inductive Token where
  | openArray
  | closeArray
  | openObject
  | closeObject
  | comma
  | colon
  | scalar (value : Json)

namespace Token

def isBlank (c : Char) : Bool :=
  c = ' ' || c = '\t' || c = '\n' || c = '\r'

def ofMark? (c : Char) : Option Token :=
  if c = '[' then some .openArray
  else if c = ']' then some .closeArray
  else if c = '\x7b' then some .openObject
  else if c = '\x7d' then some .closeObject
  else if c = ',' then some .comma
  else if c = ':' then some .colon
  else none

/-- Numbers and literals are runs of characters that have no meaning of their own. -/
def isWord (c : Char) : Bool :=
  !isBlank c && (ofMark? c).isNone && c != '"'

def ofWord? (word : List Char) : Option Json :=
  if word = "null".toList then some .null
  else if word = "true".toList then some (.bool true)
  else if word = "false".toList then some (.bool false)
  else number? word

def tokens? (found : Array Token) (text : List Char) : Option (List Token) :=
  match text with
  | [] => some found.toList
  | c :: rest =>
      if isBlank c then
        tokens? found rest
      else
        match ofMark? c with
        | some token => tokens? (found.push token) rest
        | none =>
            if c = '"' then
              match _hread : readQuoted [] rest with
              | some (content, after) => tokens? (found.push (.scalar (.string content))) after
              | none => none
            else
              match ofWord? (c :: rest.takeWhile isWord) with
              | some value => tokens? (found.push (.scalar value)) (rest.dropWhile isWord)
              | none => none
termination_by text.length
decreasing_by
  · simp
  · simp
  · have := length_readQuoted _hread
    simp only [List.length_cons]
    omega
  · have := (List.dropWhile_suffix (l := rest) isWord).length_le
    simp only [List.length_cons]
    omega

def ofText? (text : String) : Option (List Token) :=
  tokens? #[] text.toList

end Token
end MessagePack.Json
