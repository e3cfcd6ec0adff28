import TaggedMarkup.Text.Ranges

/-!
# Names

Tags and attributes are written into markup unescaped, so what may stand there is decided by two
grammars: a **start** character followed by any number of **rest** characters. Void tags are the
fifteen that have neither children nor a closing tag.
-/

namespace TaggedMarkup.Name

/-- A nonempty list of characters, the first from one class and the others from another. -/
def wellFormed (start rest : Char → Bool) : List Char → Bool
  | [] => false
  | c :: cs => start c && cs.all rest

def isTagStart (c : Char) : Bool := c.isAlpha

def isTagRest (c : Char) : Bool := c.isAlphanum || c == '_' || c == '.' || c == ':' || c == '-'

/-- An acceptable tag name: an ASCII letter, then ASCII letters, digits, `_`, `.`, `:` and `-`. -/
def isTag (name : String) : Bool := wellFormed isTagStart isTagRest name.toList

/-- The letters beyond ASCII that an attribute name may start with, as inclusive ranges. -/
def attributeLetters : List (Nat × Nat) :=
  [(0xC0, 0xD6), (0xD8, 0xF6), (0xF8, 0x2FF), (0x370, 0x37D), (0x37F, 0x1FFF), (0x200C, 0x200D),
   (0x2070, 0x218F), (0x2C00, 0x2FEF), (0x3001, 0xD7FF), (0xF900, 0xFDCF), (0xFDF0, 0xFFFD)]

/-- The marks beyond ASCII that may follow, as inclusive ranges. -/
def attributeMarks : List (Nat × Nat) := [(0xB7, 0xB7), (0x300, 0x36F), (0x203F, 0x2040)]

def isAttributeStart (c : Char) : Bool :=
  c == ':' || c == '_' || c.isAlpha || inRanges attributeLetters c

def isAttributeRest (c : Char) : Bool :=
  isAttributeStart c || c == '-' || c == '.' || c.isDigit || inRanges attributeMarks c

/-- An acceptable attribute name. -/
def isAttribute (name : String) : Bool :=
  wellFormed isAttributeStart isAttributeRest name.toList

/-- The tags without children and closing tag. -/
def voidTags : List String :=
  ["area", "base", "br", "col", "embed", "hr", "img", "input", "keygen", "link", "meta", "param",
   "source", "track", "wbr"]

/-- One of the void tags, in exactly that spelling. -/
def isVoid (tag : String) : Bool := tag ∈ voidTags

end TaggedMarkup.Name
