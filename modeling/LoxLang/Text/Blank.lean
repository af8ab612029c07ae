/-!
# Blank text

The characters with the property `White_Space`, twenty-five in all, and the texts
that hold nothing else.
-/

namespace LoxLang.Text

/-- First and last code points of the runs of white space characters, in order. -/
def blankRuns : List (Nat × Nat) :=
  [(0x09, 0x0D), (0x20, 0x20), (0x85, 0x85), (0xA0, 0xA0), (0x1680, 0x1680), (0x2000, 0x200A),
    (0x2028, 0x2029), (0x202F, 0x202F), (0x205F, 0x205F), (0x3000, 0x3000)]

def isBlankChar (c : Char) : Bool :=
  blankRuns.any fun run => run.1 ≤ c.toNat && c.toNat ≤ run.2

/-- A text without the white space at its ends. -/
def trim (text : String) : String :=
  String.ofList (((text.toList.dropWhile isBlankChar).reverse.dropWhile isBlankChar).reverse)

def isBlank (text : List Char) : Bool := text.all isBlankChar

end LoxLang.Text
