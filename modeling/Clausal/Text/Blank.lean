/-!
# Blanks and words

The characters with the Unicode property `White_Space`, and the words between them.
-/

set_option autoImplicit false

namespace Clausal

/-- The code points with the property `White_Space`, as first and last of each range. -/
def blankRanges : List (Nat × Nat) :=
  [(0x09, 0x0D), (0x20, 0x20), (0x85, 0x85), (0xA0, 0xA0), (0x1680, 0x1680), (0x2000, 0x200A),
    (0x2028, 0x2029), (0x202F, 0x202F), (0x205F, 0x205F), (0x3000, 0x3000)]

def isBlank (c : Char) : Bool :=
  blankRanges.any fun range => range.1 ≤ c.toNat && c.toNat ≤ range.2

def trimBlanks (text : List Char) : List Char :=
  ((text.dropWhile isBlank).reverse.dropWhile isBlank).reverse

/-- The words of a text when `word`, last character first, has been read of the first one. -/
def wordsAfter (word : List Char) : List Char → List (List Char)
  | [] => if word.isEmpty then [] else [word.reverse]
  | c :: rest =>
      if isBlank c then
        if word.isEmpty then wordsAfter [] rest else word.reverse :: wordsAfter [] rest
      else
        wordsAfter (c :: word) rest

def words (text : List Char) : List (List Char) := wordsAfter [] text

example : (blankRanges.map fun range => range.2 + 1 - range.1).sum = 25 := by decide

end Clausal
