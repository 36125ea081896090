/-!
# Floating-point numbers and their text

A double is kept as its 64 bits. Its text is the shortest decimal that reads back as the same
double, the nearest one if there are several, positional from `10^-4` up to `10^16` and with an
exponent of at least two digits outside.
-/

namespace CompilerKit.Text

structure Double where
  bits : UInt64
  deriving BEq, DecidableEq, Inhabited

namespace Double

def ofFloat (f : Float) : Double := ⟨f.toBits⟩

def toFloat (d : Double) : Float := Float.ofBits d.bits

def isNegative (d : Double) : Bool := d.bits >>> 63 = 1

def exponentField (d : Double) : Nat := ((d.bits >>> 52) &&& 0x7ff).toNat

def fractionField (d : Double) : Nat := (d.bits &&& 0xfffffffffffff).toNat

def isFinite (d : Double) : Bool := d.exponentField ≠ 2047

def isNaN (d : Double) : Bool := d.exponentField = 2047 && d.fractionField ≠ 0

/-- The magnitude of a finite double is `significand * 2 ^ scale`. -/
def significand (d : Double) : Nat :=
  if d.exponentField = 0 then d.fractionField else d.fractionField + 0x10000000000000

def scale (d : Double) : Int :=
  if d.exponentField = 0 then -1074 else (d.exponentField : Int) - 1075

/-- The order of `a * 2 ^ p` and `b * 10 ^ u`. -/
def compareScaled (a : Nat) (p : Int) (b : Nat) (u : Int) : Ordering :=
  compare ((a <<< p.toNat) * Nat.pow 10 (-u).toNat) ((b <<< (-p).toNat) * Nat.pow 10 u.toNat)

def quotient (a : Nat) (p u : Int) : Nat :=
  ((a <<< p.toNat) * Nat.pow 10 (-u).toNat) / (Nat.pow 10 u.toNat <<< (-p).toNat)

/-- The reals that round to a positive finite double, in units of a quarter of its last place:
lower end, upper end, and whether the ends belong. -/
def interval (d : Double) : Nat × Nat × Bool :=
  let m := d.significand
  let lower := if d.fractionField = 0 && d.exponentField > 1 then 4 * m - 1 else 4 * m - 2
  (lower, 4 * m + 2, m % 2 = 0)

def reads (d : Double) (c : Nat) (u : Int) : Bool :=
  let (lower, upper, closed) := d.interval
  let q := d.scale - 2
  let below := compareScaled lower q c u
  let above := compareScaled upper q c u
  (below = .lt || (closed && below = .eq)) && (above = .gt || (closed && above = .eq))

/-- The power of ten below or at a positive finite double, searched from `k` downwards. -/
def magnitude (d : Double) : (fuel : Nat) → (k : Int) → Int
  | 0, k => k
  | fuel + 1, k =>
    if compareScaled d.significand d.scale 1 k = .lt then magnitude d fuel (k - 1) else k

/-- The nearer to the double of `c` and `c + 1` times `10 ^ u`; an exact tie goes to the even
one. -/
def nearer (d : Double) (c : Nat) (u : Int) : Nat :=
  match compareScaled (2 * d.significand) d.scale (2 * c + 1) u with
  | .lt => c
  | .gt => c + 1
  | .eq => if c % 2 = 0 then c else c + 1

/-- The shortest decimal `c * 10 ^ u` that reads back, trying `n` digits and more. -/
def shortest (d : Double) (k : Int) : (fuel n : Nat) → Nat × Int
  | 0, n => (quotient d.significand d.scale (k - n + 1), k - n + 1)
  | fuel + 1, n =>
    let u := k - (n : Int) + 1
    let c := quotient d.significand d.scale u
    match d.reads c u, d.reads (c + 1) u with
    | true, true => (d.nearer c u, u)
    | true, false => (c, u)
    | false, true => (c + 1, u)
    | false, false => shortest d k fuel (n + 1)

def dropZeros (cs : List Char) : List Char := (cs.reverse.dropWhile (· = '0')).reverse

def decimalText (c : Nat) (u : Int) : String :=
  let all := (toString c).toList
  let point := (all.length : Int) + u
  let digits := dropZeros all
  if -4 < point && point ≤ 16 then
    if point ≤ 0 then
      String.ofList ('0' :: '.' :: List.replicate (-point).toNat '0' ++ digits)
    else
      let p := point.toNat
      let whole := digits.take p ++ List.replicate (p - digits.length) '0'
      let part := digits.drop p
      String.ofList (whole ++ '.' :: (if part.isEmpty then ['0'] else part))
  else
    let e := point - 1
    let mark := if e < 0 then '-' else '+'
    let power := (toString e.natAbs).toList
    let power := if power.length < 2 then '0' :: power else power
    let head := match digits with
      | [d] => [d]
      | d :: rest => d :: '.' :: rest
      | [] => ['0']
    String.ofList (head ++ 'e' :: mark :: power)

def text (d : Double) : String :=
  let mark := if d.isNegative then "-" else ""
  if d.isNaN then "nan"
  else if !d.isFinite then mark ++ "inf"
  else if d.significand = 0 then mark ++ "0.0"
  else
    let k := d.magnitude 700 310
    let (c, u) := d.shortest k 17 1
    mark ++ decimalText c u

def digitsValue (cs : List Char) : Nat :=
  cs.foldl (fun n c => n * 10 + (c.toNat - 48)) 0

def readUnsigned? (cs : List Char) : Option Float :=
  let whole := cs.takeWhile Char.isDigit
  let rest := cs.dropWhile Char.isDigit
  let (part, rest) := match rest with
    | '.' :: more => (more.takeWhile Char.isDigit, more.dropWhile Char.isDigit)
    | _ => ([], rest)
  let mantissa := digitsValue (whole ++ part)
  let power? : Option Int := match rest with
    | [] => some 0
    | 'e' :: '-' :: ds => if ds.all Char.isDigit then some (-(digitsValue ds : Int)) else none
    | 'e' :: '+' :: ds => if ds.all Char.isDigit then some (digitsValue ds) else none
    | 'e' :: ds => if ds.all Char.isDigit then some (digitsValue ds) else none
    | _ => none
  if whole.isEmpty && part.isEmpty then none
  else power?.map fun power =>
    let u : Int := power - (part.length : Int)
    Float.ofScientific mantissa (u < 0) u.natAbs

def read? (s : String) : Option Double :=
  let (negative, cs) := match s.toList with
    | '-' :: cs => (true, cs)
    | cs => (false, cs)
  let magnitude? : Option Float := match cs with
    | ['i', 'n', 'f'] => some (1.0 / 0.0)
    | ['n', 'a', 'n'] => some (0.0 / 0.0)
    | _ => readUnsigned? cs
  magnitude?.map fun f => ofFloat (if negative then -f else f)

/-- The order of a double and an integer; none if the double is undefined. -/
def compareInt (d : Double) (n : Int) : Option Ordering :=
  if d.isNaN then none
  else if !d.isFinite then some (if d.isNegative then .lt else .gt)
  else
    let m : Int := if d.isNegative then -(d.significand : Int) else d.significand
    some (compare (m * (1 <<< d.scale.toNat : Nat)) (n * (1 <<< (-d.scale).toNat : Nat)))

def compareDouble (a b : Double) : Option Ordering :=
  let x := a.toFloat
  let y := b.toFloat
  if x < y then some .lt else if x == y then some .eq else if y < x then some .gt else none

/-- The magnitude of a finite double with its sign, in units of `2 ^ e` for an `e` up to its
scale. -/
def unitsOf (d : Double) (e : Int) : Int :=
  let n : Nat := d.significand <<< (d.scale - e).toNat
  if d.isNegative then -(n : Int) else n

/-- The remainder of the division to the floor by a double that is not zero, with the sign of the
divisor. The remainder of the division toward zero is exact. -/
def remainder (a b : Double) : Double :=
  if a.isNaN || b.isNaN || !a.isFinite then ofFloat (0.0 / 0.0)
  else
    let truncated : Float :=
      if b.isFinite then
        let e := min a.scale b.scale
        Float.scaleB (Float.ofInt ((a.unitsOf e).tmod (b.unitsOf e))) e
      else a.toFloat
    if truncated == 0.0 then ofFloat (if b.isNegative then -0.0 else 0.0)
    else if (truncated < 0.0) == b.isNegative then ofFloat truncated
    else ofFloat (truncated + b.toFloat)

end Double

end CompilerKit.Text
