import MessagePack.Bytes

/-!
Text in quotes.

Only the quote, the backslash and the controls below U+0020 have to be escaped. A reader takes
any character in its escaped form too; one beyond U+FFFF is escaped as a pair of surrogates.
-/

namespace MessagePack.Json

def escape (c : Char) : List Char :=
  if c = '"' then ['\\', '"']
  else if c = '\\' then ['\\', '\\']
  else if c = '\x08' then ['\\', 'b']
  else if c = '\t' then ['\\', 't']
  else if c = '\n' then ['\\', 'n']
  else if c = '\x0c' then ['\\', 'f']
  else if c = '\r' then ['\\', 'r']
  else if c.toNat < 0x20 then '\\' :: 'u' :: (hex 4 c.toNat).toList
  else [c]

def quote (text : String) : String :=
  String.ofList ('"' :: text.toList.flatMap escape ++ ['"'])

/-! Reading. -/

/-- What a backslash and a letter stand for. -/
def unescape? (c : Char) : Option Char :=
  if c = '"' ∨ c = '\\' ∨ c = '/' then some c
  else if c = 'b' then some '\x08'
  else if c = 't' then some '\t'
  else if c = 'n' then some '\n'
  else if c = 'f' then some '\x0c'
  else if c = 'r' then some '\r'
  else none

def hexValue? (c : Char) : Option Nat :=
  if c.isDigit then some (c.toNat - '0'.toNat)
  else if 'a' ≤ c ∧ c ≤ 'f' then some (c.toNat - 'a'.toNat + 10)
  else if 'A' ≤ c ∧ c ≤ 'F' then some (c.toNat - 'A'.toNat + 10)
  else none

def hexNumber? (digits : List Char) : Option Nat :=
  digits.foldlM (fun value c => (hexValue? c).map (16 * value + ·)) 0

def isHighSurrogate (unit : Nat) : Bool :=
  0xd800 ≤ unit && unit < 0xdc00

def isLowSurrogate (unit : Nat) : Bool :=
  0xdc00 ≤ unit && unit < 0xe000

/-- The character that a pair of surrogates stands for. -/
def joinSurrogates (high low : Nat) : Char :=
  Char.ofNat (0x10000 + (high - 0xd800) * 0x400 + (low - 0xdc00))

/-- The text up to the closing quote, and what follows the quote. The characters already read
are given in reverse. -/
def readQuoted (done : List Char) : List Char → Option (String × List Char)
  | [] => none
  | '"' :: rest => some (String.ofList done.reverse, rest)
  | '\\' :: 'u' :: a :: b :: c :: d :: rest =>
      match hexNumber? [a, b, c, d] with
      | none => none
      | some unit =>
          if isLowSurrogate unit then
            none
          else if isHighSurrogate unit then
            match rest with
            | '\\' :: 'u' :: e :: f :: g :: h :: rest =>
                match (hexNumber? [e, f, g, h]).filter isLowSurrogate with
                | none => none
                | some low => readQuoted (joinSurrogates unit low :: done) rest
            | _ => none
          else
            readQuoted (Char.ofNat unit :: done) rest
  | '\\' :: c :: rest =>
      match unescape? c with
      | none => none
      | some character => readQuoted (character :: done) rest
  | c :: rest => if c.toNat < 0x20 ∨ c = '\\' then none else readQuoted (c :: done) rest

theorem length_readQuoted {done text rest : List Char} {content : String}
    (hread : readQuoted done text = some (content, rest)) : rest.length < text.length := by
  fun_induction readQuoted done text
  case case2 => cases hread; simp
  case case6 ih | case8 ih | case10 ih | case12 ih =>
    have := ih hread
    simp only [List.length_cons]
    omega
  all_goals cases hread

end MessagePack.Json
