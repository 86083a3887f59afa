/-!
# Blanks

The characters that stand between words, which are those with the Unicode property
White_Space, and lines of text cut into their words.
-/
namespace ElevatorFleet.Blank

/-- A character with the Unicode property White_Space. -/
def isBlank (c : Char) : Bool :=
  ('\t' ≤ c && c ≤ '\r') || c = ' ' || c = '\u0085' || c = '\u00a0' || c = '\u1680' ||
  ('\u2000' ≤ c && c ≤ '\u200a') || c = '\u2028' || c = '\u2029' || c = '\u202f' ||
  c = '\u205f' || c = '\u3000'

/-- The words of some characters, after the letters of a word that has begun, which
    are in reverse. -/
def wordsFrom (begun : List Char) : List Char → List (List Char)
  | [] => if begun = [] then [] else [begun.reverse]
  | c :: rest =>
    if isBlank c then
      if begun = [] then wordsFrom [] rest else begun.reverse :: wordsFrom [] rest
    else wordsFrom (c :: begun) rest

def words (line : String) : List String := (wordsFrom [] line.toList).map String.ofList

def trim (text : String) : String :=
  String.ofList ((text.toList.dropWhile isBlank).reverse.dropWhile isBlank).reverse

def isAllBlank (text : String) : Bool := text.toList.all isBlank

end ElevatorFleet.Blank
