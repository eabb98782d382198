import GrammarFlow.Json.Value

namespace GrammarFlow.Json

def hexDigit (n : Nat) : Char :=
  if n < 10 then Char.ofNat (0x30 + n) else Char.ofNat (0x57 + n)

/-- Quotes, backslashes and control characters are escaped, the usual ones by a letter. -/
def escape (c : Char) : List Char :=
  if c = '"' then ['\\', '"']
  else if c = '\\' then ['\\', '\\']
  else if c = '\x08' then ['\\', 'b']
  else if c = '\x0c' then ['\\', 'f']
  else if c = '\n' then ['\\', 'n']
  else if c = '\r' then ['\\', 'r']
  else if c = '\t' then ['\\', 't']
  else if c.toNat < 0x20 then ['\\', 'u', '0', '0', hexDigit (c.toNat / 16), hexDigit (c.toNat % 16)]
  else [c]

def quote (s : String) : String :=
  String.ofList ('"' :: (s.toList.flatMap escape ++ ['"']))

def zeros (n : Nat) : List Char := List.replicate n '0'

/-- Positional for decimal exponents from -5 to 15, with at least one digit after the point;
scientific with a signed exponent beyond. -/
def numeralText (n : Decimal.Numeral) : String :=
  let digits := Nat.toDigits 10 n.digits
  let point := digits.length + n.exponent
  let text :=
    if -5 < point ∧ point ≤ 16 then
      if 0 ≤ n.exponent then digits ++ zeros n.exponent.toNat ++ ['.', '0']
      else if 0 < point then digits.take point.toNat ++ '.' :: digits.drop point.toNat
      else '0' :: '.' :: (zeros (-point).toNat ++ digits)
    else
      let fraction := digits.drop 1
      digits.take 1 ++ (if fraction.isEmpty then [] else '.' :: fraction)
        ++ ['e', if 0 < point then '+' else '-'] ++ Nat.toDigits 10 (point - 1).natAbs
  String.ofList text

def Number.text : Number → String
  | .integer n => toString n
  | .binary negative magnitude =>
    (if negative then "-" else "") ++
      (if magnitude.isZero then "0.0" else numeralText (Decimal.shortest magnitude))

mutual

def Value.compact : Value → String
  | .null => "null"
  | .bool b => if b then "true" else "false"
  | .number n => n.text
  | .string s => quote s
  | .array items => "[" ++ ",".intercalate (compactItems items) ++ "]"
  | .object members => "\x7b" ++ ",".intercalate (compactMembers members) ++ "\x7d"

def compactItems : List Value → List String
  | [] => []
  | v :: rest => v.compact :: compactItems rest

def compactMembers : List (String × Value) → List String
  | [] => []
  | (k, v) :: rest => (quote k ++ ":" ++ v.compact) :: compactMembers rest

end

def indent (depth : Nat) : String := "\n" ++ String.ofList (List.replicate (2 * depth) ' ')

/-- One part a line between brackets; no parts leave the brackets together. -/
def block (depth : Nat) (opening closing : String) (parts : List String) : String :=
  if parts.isEmpty then opening ++ closing
  else opening ++ ",".intercalate (parts.map (indent (depth + 1) ++ ·)) ++ indent depth ++ closing

mutual

def Value.pretty (depth : Nat) : Value → String
  | .null => "null"
  | .bool b => if b then "true" else "false"
  | .number n => n.text
  | .string s => quote s
  | .array items => block depth "[" "]" (prettyItems (depth + 1) items)
  | .object members => block depth "\x7b" "\x7d" (prettyMembers (depth + 1) members)

def prettyItems (depth : Nat) : List Value → List String
  | [] => []
  | v :: rest => v.pretty depth :: prettyItems depth rest

def prettyMembers (depth : Nat) : List (String × Value) → List String
  | [] => []
  | (k, v) :: rest => (quote k ++ ": " ++ v.pretty depth) :: prettyMembers depth rest

end

end GrammarFlow.Json
