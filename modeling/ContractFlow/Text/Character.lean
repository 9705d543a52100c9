/-!
This module contains the characters that count as white space, the removal of margins, and words in capital letters.
-/

namespace ContractFlow.Text

def isBlank (c : Char) : Bool :=
  let n := c.toNat
  (9 ≤ n && n ≤ 13) || (28 ≤ n && n ≤ 32) || n == 0x85 || n == 0xA0 || n == 0x1680 ||
    (0x2000 ≤ n && n ≤ 0x200A) || n == 0x2028 || n == 0x2029 || n == 0x202F || n == 0x205F ||
    n == 0x3000

def dropMargins (p : Char → Bool) (cs : List Char) : List Char :=
  ((cs.dropWhile p).reverse.dropWhile p).reverse

def trim (s : String) : String :=
  String.ofList (dropMargins isBlank s.toList)

def unusualCapitals : List (Char × String) :=
  [('ß', "SS"), ('ı', "I"), ('ſ', "S"), ('ﬀ', "FF"), ('ﬁ', "FI"), ('ﬂ', "FL"), ('ﬃ', "FFI"), ('ﬄ', "FFL"),
   ('ﬅ', "ST"), ('ﬆ', "ST")]

def capital (c : Char) : String :=
  (unusualCapitals.lookup c).getD c.toUpper.toString

def capitals (word : String) : String :=
  String.join (word.toList.map capital)

end ContractFlow.Text
