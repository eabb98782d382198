namespace GrammarFlow.Text

/-- The code point ranges of Unicode's `White_Space` property, ends included. -/
def blankRanges : List (Nat × Nat) :=
  [(0x9, 0xD), (0x20, 0x20), (0x85, 0x85), (0xA0, 0xA0), (0x1680, 0x1680), (0x2000, 0x200A),
    (0x2028, 0x2029), (0x202F, 0x202F), (0x205F, 0x205F), (0x3000, 0x3000)]

def isBlank (c : Char) : Bool :=
  blankRanges.any fun r => r.1 ≤ c.toNat && c.toNat ≤ r.2

/-- Adds one character in front of pieces that have already been cut. -/
def consPiece (isCut : Char → Bool) (c : Char) (pieces : List (List Char)) : List (List Char) :=
  if isCut c then [] :: pieces
  else match pieces with
    | [] => [[c]]
    | w :: ws => (c :: w) :: ws

/-- The pieces of a text between the cut characters; there is one more piece than there are cuts. -/
def pieces (isCut : Char → Bool) (text : List Char) : List (List Char) :=
  text.foldr (consPiece isCut) [[]]

@[simp] theorem pieces_cons (isCut : Char → Bool) (c : Char) (text : List Char) :
    pieces isCut (c :: text) = consPiece isCut c (pieces isCut text) := rfl

/-- The maximal runs of characters that are not blank. -/
def words (text : String) : List String :=
  ((pieces isBlank text.toList).filter (!·.isEmpty)).map String.ofList

def isBlankText (text : String) : Bool :=
  text.toList.all isBlank

def trim (text : String) : String :=
  String.ofList (((text.toList.dropWhile isBlank).reverse.dropWhile isBlank).reverse)

def dropReturn (line : List Char) : List Char :=
  if line.getLast? = some '\r' then line.dropLast else line

/-- A piece that a line feed ends loses one carriage return before it; the last piece is a line as
it stands, unless it is empty. -/
def linesOf : List (List Char) → List (List Char)
  | [] => []
  | [last] => if last.isEmpty then [] else [last]
  | line :: next :: rest => dropReturn line :: linesOf (next :: rest)

def lines (text : String) : List String :=
  (linesOf (pieces (· == '\n') text.toList)).map String.ofList

end GrammarFlow.Text
