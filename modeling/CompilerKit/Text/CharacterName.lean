import CompilerKit.Text.NameTable

/-!
# Characters by name

The character that a name stands for. Small letters count as capital ones. The names of syllables
and of ideographs follow from their code points, so they are in no table; those that have to be
spelled out in capitals are marked so.
-/

namespace CompilerKit.Text

def capitalHex? (c : Char) : Option Nat :=
  if c.isDigit then some (c.toNat - 48)
  else if 'A' ≤ c && c ≤ 'F' then some (c.toNat - 55)
  else none

def capitalNumber? (cs : List Char) : Option Nat :=
  if cs.isEmpty then none
  else cs.foldlM (fun n c => (capitalHex? c).map (n * 16 + ·)) 0

/-- Families whose names end in the code point: what the names start with, the code points, and
whether small letters count as capital ones. -/
def numberedNames : List (String × List (Nat × Nat) × Bool) := [
  ("CJK UNIFIED IDEOGRAPH-", [(0x3400, 0x4DBF), (0x4E00, 0x9FFF), (0x20000, 0x2A6DF),
    (0x2A700, 0x2B738), (0x2B740, 0x2B81D), (0x2B820, 0x2CEA1), (0x2CEB0, 0x2EBE0),
    (0x30000, 0x3134A)], false),
  ("CJK COMPATIBILITY IDEOGRAPH-", [(0xF900, 0xFA6D), (0xFA70, 0xFAD9), (0x2F800, 0x2FA1D)], true),
  ("KHITAN SMALL SCRIPT CHARACTER-", [(0x18B00, 0x18CD5)], true),
  ("NUSHU CHARACTER-", [(0x1B170, 0x1B2FB)], true)]

/-- The code point of a name that ends in it. It has four or five digits. -/
def numberedCode? (name : String) : Option Nat :=
  numberedNames.findSome? fun (start, ranges, anyCase) => do
    let name := if anyCase then name.toUpper else name
    guard (name.startsWith start)
    let digits := name.toList.drop start.length
    guard (digits.length = 4 || digits.length = 5)
    guard (!anyCase || digits.head? ≠ some '0')
    let n ← capitalNumber? digits
    guard (ranges.any fun (lo, hi) => lo ≤ n && n ≤ hi)
    pure n

/-- How the parts of syllables are spelled: what they start with, their middle, and their end. -/
def syllableParts : List (List String) := [
  ["G", "GG", "N", "D", "DD", "R", "M", "B", "BB", "S", "SS", "", "J", "JJ", "C", "K", "T", "P",
   "H"],
  ["A", "AE", "YA", "YAE", "EO", "E", "YEO", "YE", "O", "WA", "WAE", "OE", "YO", "U", "WEO", "WE",
    "WI", "YU", "EU", "YI", "I"],
  ["", "G", "GG", "GS", "N", "NJ", "NH", "D", "L", "LG", "LM", "LB", "LS", "LT", "LP", "LH", "M",
    "B", "BS", "S", "SS", "NG", "J", "C", "K", "T", "P", "H"]]

/-- The longest of the parts that the text starts with: its index, and the rest. -/
def longestPart (parts : List String) (cs : List Char) : Option (Nat × List Char) :=
  let fits := parts.zipIdx.filter fun (p, _) => p.toList.isPrefixOf cs
  (fits.foldl (fun (best : Option (String × Nat)) (p, i) =>
    if best.all fun (b, _) => b.length < p.length then some (p, i) else best) none).map
    fun (p, i) => (i, cs.drop p.length)

def syllableIndex? : List (List String) → List Char → Nat → Option Nat
  | [], [], n => some n
  | [], _ :: _, _ => none
  | parts :: more, cs, n => do
    let (i, rest) ← longestPart parts cs
    syllableIndex? more rest (n * parts.length + i)

def syllableCode? (name : String) : Option Nat := do
  let start := "HANGUL SYLLABLE "
  guard (name.startsWith start)
  (syllableIndex? syllableParts (name.toList.drop start.length) 0).map (0xAC00 + ·)

def characterNamed? (name : String) : Option Nat :=
  syllableCode? name <|> numberedCode? name <|> nameRows.findSome? (·.code? name.toUpper.toList)

end CompilerKit.Text
