
/-!
# White space in texts

The characters with the Unicode property `White_Space`, and the texts that have nothing else.
-/
namespace Intentd.UnicodeText

def isWhitespace (c : Char) : Bool :=
  (9 ≤ c.toNat && c.toNat ≤ 13) || (0x2000 ≤ c.toNat && c.toNat ≤ 0x200A) ||
    c.toNat ∈ [0x20, 0x85, 0xA0, 0x1680, 0x2028, 0x2029, 0x202F, 0x205F, 0x3000]

/-- The text without the white space at its ends. -/
def trim (chars : List Char) : List Char :=
  ((chars.dropWhile isWhitespace).reverse.dropWhile isWhitespace).reverse

def isBlank (s : String) : Bool := s.toList.all isWhitespace

end Intentd.UnicodeText
