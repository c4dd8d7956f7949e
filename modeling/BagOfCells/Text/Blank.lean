/-!
# Blank characters

The characters with the Unicode property `White_Space`, and the three ways a text is freed of them:
at its ends, everywhere, and by cutting it into words.

## Main definitions

* `Blank.isBlank`: the class
* `Blank.trim`, `Blank.remove`, `Blank.words`: the text without it
-/

namespace BagOfCells.Blank

/-- The property `White_Space`: twenty-five characters. -/
def isBlank (c : Char) : Bool :=
  let n := c.toNat
  (0x09 ≤ n && n ≤ 0x0d) || n == 0x20 || n == 0x85 || n == 0xa0 || n == 0x1680 ||
    (0x2000 ≤ n && n ≤ 0x200a) || n == 0x2028 || n == 0x2029 || n == 0x202f || n == 0x205f ||
    n == 0x3000

/-- A text without the blanks at its ends. -/
def trim (text : List Char) : List Char :=
  ((text.dropWhile isBlank).reverse.dropWhile isBlank).reverse

/-- A text without any blanks. -/
def remove (text : List Char) : List Char :=
  text.filter (!isBlank ·)

/-- A word in front of some words, unless it is empty. -/
def consWord (word : List Char) (words : List (List Char)) : List (List Char) :=
  if word.isEmpty then words else word :: words

/-- The words of a text: the longest runs without blanks, in order. -/
def words (text : List Char) : List (List Char) :=
  let (word, later) := text.foldr
    (fun c (word, later) => if isBlank c then ([], consWord word later) else (c :: word, later))
    ([], [])
  consWord word later

end BagOfCells.Blank
