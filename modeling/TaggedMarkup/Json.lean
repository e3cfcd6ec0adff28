import TaggedMarkup.Number.Text

/-!
# JSON

JSON values with **ordered** object members, and their compact text. A number is either an integer,
written as such, or a double that is no such integer, written with the shortest digits that read
back.
-/

namespace TaggedMarkup

/-- A JSON value. -/
inductive Json where
  | null
  | bool (b : Bool)
  | int (n : Int)
  | float (d : Double)
  | str (s : String)
  | arr (members : List Json)
  | obj (members : List (String × Json))

namespace Json

/-- The style of numbers that are not written as integers. -/
def floatStyle : NumberStyle where
  least := -5
  past := 16
  pointZero := true
  tie := .even

/-- The two lower-case hexadecimal digits of a number below 256. -/
def hexPair (n : Nat) : List Char := [Nat.digitChar (n / 16), Nat.digitChar (n % 16)]

/-- What is written for one character of a string. -/
def quotedChar (c : Char) : List Char :=
  if c = '"' then ['\\', '"']
  else if c = '\\' then ['\\', '\\']
  else if c = '\n' then ['\\', 'n']
  else if c = '\r' then ['\\', 'r']
  else if c = '\t' then ['\\', 't']
  else if c.toNat = 0x08 then ['\\', 'b']
  else if c.toNat = 0x0C then ['\\', 'f']
  else if c.toNat < 0x20 then ['\\', 'u', '0', '0'] ++ hexPair c.toNat
  else [c]

/-- A string between double quotes, with the characters escaped that may not stand there. -/
def quoted (s : String) : String :=
  String.ofList ('"' :: s.toList.flatMap quotedChar ++ ['"'])

/-- Texts with commas between them. -/
def commaSeparated (texts : List String) : String := String.intercalate "," texts

mutual

/-- The compact text of a JSON value. -/
def text : Json → String
  | null => "null"
  | bool b => if b then "true" else "false"
  | int n => (if n < 0 then "-" else "") ++ String.ofList (Nat.toDigits 10 n.natAbs)
  | float d => d.written floatStyle
  | str s => quoted s
  | arr members => "[" ++ commaSeparated (memberTexts members) ++ "]"
  | obj members => "\x7b" ++ commaSeparated (entryTexts members) ++ "\x7d"

def memberTexts : List Json → List String
  | [] => []
  | member :: rest => text member :: memberTexts rest

def entryTexts : List (String × Json) → List String
  | [] => []
  | (key, value) :: rest => (quoted key ++ ":" ++ text value) :: entryTexts rest

end

end Json

end TaggedMarkup
