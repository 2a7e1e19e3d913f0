import FieldAccess.Text.LetterCase

namespace FieldAccess.Text

def isSeparator (c : Char) : Bool :=
  c = '_' || c = '-' || c = ' '

-- A word ends at a separator, which is dropped; between a lower-case letter and an upper-case one;
-- between a letter and a digit, either way round; and before the last capital of a run of capitals
-- that a lower-case letter follows.
def endsWord (c : Char) : List Char → Bool
  | [] => false
  | d :: rest =>
    (isLower c && (isUpper d || d.isDigit)) ||
    (isUpper c && d.isDigit) ||
    (c.isDigit && (isLower d || isUpper d)) ||
    (isUpper c && isUpper d && rest.head?.any isLower)

-- Splits a text into words, of which `word` is the part of the first already seen.
def wordsFrom (word : List Char) : List Char → List (List Char)
  | [] => [word]
  | c :: rest =>
    if isSeparator c then word :: wordsFrom [] rest
    else if endsWord c rest then (word ++ [c]) :: wordsFrom [] rest
    else wordsFrom (word ++ [c]) rest

def words (text : List Char) : List (List Char) :=
  wordsFrom [] text

def capitalized : List Char → List Char
  | [] => []
  | c :: rest => upper c ++ lowerText rest

def upperCamel (text : String) : String :=
  String.ofList ((words text.toList).flatMap capitalized)

def lowerCamel (text : String) : String :=
  match words text.toList with
  | [] => ""
  | first :: rest => String.ofList (lowerText first ++ rest.flatMap capitalized)

end FieldAccess.Text
