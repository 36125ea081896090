/-!
# Character classes

Tables of the Unicode classes that reading and writing text depend on. ASCII is decided by
arithmetic; the tables list the code points above it.
-/

namespace CompilerKit.Text

/-!
## Tables in digits

Long tables of numbers are written as texts of digits.
-/

/-- The value of a digit: visible characters without quotes, braces and the backslash. -/
def digitOf (c : Char) : Nat :=
  c.toNat - 33 - ([34, 39, 92, 96, 123, 125].filter (· < c.toNat)).length

/-- The numbers of a text. A digit below 64 ends a number; the ones before it are higher places, in
which the digits from 64 to 87 stand for those from 0 to 23. Blanks do not count. -/
def numbersOf (s : String) : List Nat :=
  let step (state : List Nat × Nat) (c : Char) : List Nat × Nat :=
    let d := digitOf c
    if d < 64 then ((state.2 * 64 + d) :: state.1, 0) else (state.1, state.2 * 24 + (d - 64))
  ((s.toList.filter fun c => !c.isWhitespace).foldl step ([], 0)).1.reverse

/-- A code point as a character. The code points from D800 to DFFF have no characters of their own;
characters for private use stand for them. -/
def charOfCode (n : Nat) : Char :=
  if 0xD800 ≤ n && n ≤ 0xDFFF then Char.ofNat (n - 0xD800 + 0x10E000) else Char.ofNat n

def codeOfChar (c : Char) : Nat :=
  let n := c.toNat
  if 0x10E000 ≤ n && n ≤ 0x10E7FF then n - 0x10E000 + 0xD800 else n

def inRanges (table : Array (Nat × Nat)) (c : Nat) : Bool :=
  table.any fun (lo, hi) => lo ≤ c && c ≤ hi

def blankRanges : Array (Nat × Nat) := #[
  (133, 133), (160, 160), (5760, 5760), (8192, 8202), (8232, 8233), (8239, 8239), (8287, 8287),
  (12288, 12288)]

/-- White space: the separators of every script, and the control characters that separate. -/
def isBlank (c : Char) : Bool :=
  let n := c.toNat
  if n < 128 then (9 ≤ n && n ≤ 13) || (28 ≤ n && n ≤ 32) else inRanges blankRanges n

/-- The code points above ASCII that stand for zero, given by the distances between them; the digits
one to nine follow each. -/
def digitZeros : List Nat := (numbersOf "
  ffCg3h3kIg!g!g!g!g!g!g!g!g!fMg!f3iCf3fj3SiYg-gS3h!fCg33|~3oSSh3CfCkCryC|3fo3qYg-f)g=iCjCg!k!fSfSkS
  fSq!i!f3qx!fCg3wfc----fr-kSffChgC").foldl (fun zs gap => (zs.headD 0 + gap) :: zs) []

def digitValue? (c : Char) : Option Nat :=
  let n := c.toNat
  if n < 128 then
    if 48 ≤ n && n ≤ 57 then some (n - 48) else none
  else
    (digitZeros.find? fun z => z ≤ n && n ≤ z + 9).map (n - ·)

/-- Runs of code points of one class from `n` on: a number is five times the length of a run without
its first code point, and the class. -/
def classesAfter (n : Nat) : List Nat → List (Nat × Nat × Nat)
  | [] => []
  | m :: rest => (n, n + m / 5, m % 5) :: classesAfter (n + m / 5 + 1) rest

def classRuns : List (Nat × Nat × Nat) := classesAfter 128 (numbersOf "
  gCM#*!4,$#/&#$1$fR$g:$fpQ4[f%8C#$#f5mQ8$)(3$#2*#$.!#!fC!k>$oV$:*q^!g^(#>h,*(/!hB$%$+$+$%Fg%23*f3RX
  $!/h6fJQ4)%lN$#D!$?)+$5f**#f%(#%g5g((k]X#f#h6N)4#(%*fM5#N#0#:(f+!f]0($!V7fW$=KIh1fY!gFi-0#f;#DQ+*Q
  $f/0!G()(fM!B!#-3(%#D(+(0#F%2)!.+([*@*#$%(0!=2)(fM!B!)!)!)(%!:2+(0-%A3!#AQ+.%$P0!L!.!fM!B!)!8(%#I!
  0!0(#f))+(Q*A#?!0!G()(fM!B!)!8(%#D(+(0A02)!.+(Q$#@P%#!=-.!3-)!#!)-)-.-[2:-0!5(#<%f#Q1H7:G!.!fR!f/(
  %#D!0!5A+!.(#()+(QA$E$#0$G!.!fR!Q!8(%#D!0!5A+<)!)+(Q!)a5L!.!h,+#D!0!5#$2.%E.+(QO$=!0!f9-fW!L!#(B-%
  2?!%!I<Q(+$ZhO%)D2$BI$Q*gW)!#!8!fW!#!Q%)N#(8!#!?(Q(3g>#fS+>QT$%$%$%4+G!gS2fE$+8X!gU!H%>!cgWh6fEV>=
  530#0)D.5b^#%Q5*g^!#7#(h6$ffb!3(B!#!3(h,!3(gD!3(B!#!3(f*!i<!3(j.(0MfF-f/R<kM(=($ge;*f4!fc*-jV/VAf9
  5Kf>0*Kf9+Zb!.!+Zi!gA/#4#%(Q<T<W0!%Q<k]A8+gI%#7j=Pg:!^2^2$-*h&(8Uh;2fc<Q&-gJfR:(*i(S!g2(%Q<Q<C#>(f
  &$f1hS:hJf6G-Qf5NW!0g5di7f&F4gSfE-9Q-hT*LAh6(.HF0$fJ3%=%)0#7saiczM(=(g^(=(G!#!#!#!g:(i(!B$#/.!B/3(
  =!/b/(.!B*f3fXFf++f?%Rf3&#(@9#T9!b-gEf)d4%/^f)*#4#*Q$#/8>#$#$#$3$V*3984#$f2h,&*2ghSf[WfGiNk%fPgf.g
  8hj@(g@!m-vX>30)74&*g^!#7#(i7A#$f#%fRKB!B!B!B!B!B!B!B!gAhK#hFgHfd!k^ZuNfb]74.f^L?$8*8/!kM(+*.$kc$3
  7h6!l5!*6Rg?gTZf/g;!Tg6J$f-g@Th!f-febzoaibhegb-i3KhE*yb/g+fBhJ%4S$g:+k/+>FfSL*ld*ia7)!#!8fVf/%.%3%
  fR:4%-@4<i!4F+hYf;F*Q<f;=/#$)%g^I*fRdU$g0-5hJf&c!V2*8%f]!h,f&K.%G+(Q(4fR/#0hY%#0)+8+#%#fV.*V:*.+P=
  (=(=KB!B!h6$f$*2m_I$+(Q<fqmSZfR2hTfhq2fiE(m1g]BZ87#%Q$b!8!#!)!)!m;f5f.fi6f:ia(i-A$g>[4f1R<f1/+fX0/
  !f?!428!oB2f+QCfc4%$fcWk]-=(=(=(.-C!Ca*([!fc!f>!)!f*(f$gHnF7/2hC-Mi(6f5,/!c-$hIhA%o(g0-hTf)%g)2g?6
  Kg57g^:7g5!$gS2G$8h0q5(Q<gS2gS2h&Fi!U$V!f*!B!)!V!f*!B!)j-fe2KfMPGfV=!h1!Lj7=(#!h;!)-#(fR!$JfR*Eg:F
  OhNf>!)7;fM@-$fc7$i_i72,)f2(hH#0!+753!.!g0(02%OAMAg0,$g01g>G$g++2;CKi--CfM(Jf>7Jf9A4ZEk.jLi1h_ah_A
  @gS5FQ|]g=!h1!+$()k#g0T#FfMX69fLf954g]fHEfBfRK0i(f,C2fFQ%)+#K5h@X*!4%af]AQ<0gSf&!Q4#+#FgN%*#K0hOf&
  345$+V$#/!fFUf9!f]^>%j!B!#!3!f*!Q$<hJ^7Q<5!G()(fM!B!)!8!+#D(+(0(#<%78+(D-:oUi(f;39Q*!$%.g4hOfE)$#F
  Qq]hJD(NfS3+gHhOf6/#UQ<cf=h6d#$<Qi,g%(f,2Q,4Bs;h;f,$lRjQOZG(#(G!)!fW?!+(5#%#+/KQj<G(gdD(D#$#%g$#Sh
  &D#5H%F#XhEf1/#9ajLyAL!gXI!I#9PQfA-*g5(fO!f&jKB!)!g^?-%!+!D#%FQ<=!)!g?:!+!:#AQfe,f>5*s1#f)fKg1a$g~
  cl]mJ!9Ut3mrZlD*ahpJri3fzBfig;fy<Ag:!Q2*k*!Q<g5(:$PhODM3*PQ!E!fH7f>gjNiafU4lWjV2%#i4A5bi_)$#%U+f#x
  ~7FieMh0Lfjfc3!B!)!|Nh?.f33Ffk[lq2m67b-LAQ($+$tl>hG(fTKn#iJx.Ph!(iL:/?FI*Dg65iQfGj*0$pbfFZkSKfaoAk
  H!jB!)(#()(3![!#!B!j#!3(G!B!g+!3!8!#-B!fgC(f]$f]$g:$f]$g:$f]$g:$f]$g:$f]$G(hYftbi44h[H%f%%Cf):!f,h
  s.g:vCD!f6(D!+!:uGh@-DB(Q2#$fe_g5%f3h;5Q7$if>B!3!)!f*!t8(ODh+j3D#2Q2*gr3iI$1$6jZhC$f-t(3!g%!)!#(#!
  Q!3!#!#<#2#!#!#!.!)!#(#!#!#!#!#!)!#(3!B!3!3!#!Q!f47.!8!f4hd*z#h<2lTZf+(f+!f+!gYPf!qEi6g1ah<2MA*f#>
  pbhiX7f0-c-n#Zk^A]2$f)]2i8FR<h(Fg6(*k#fgDZf%(9-9-CKg1-W7>PR<HFCKp?!i3gWQhm<jxf?g>rq<Av5(ww)f#felTo
  g9fw5izHufVifho&wQfgsn.")

def rangesOf (classes : List Nat) : Array (Nat × Nat) :=
  (classRuns.filterMap fun (lo, hi, c) =>
    if classes.contains c then some (lo, hi) else none).toArray

/-- Code points above ASCII that have no printed form of their own: controls, formats, separators,
unassigned and private code points. -/
def unprintableRanges : Array (Nat × Nat) := rangesOf [0]

def isPrintable (c : Char) : Bool :=
  let n := c.toNat
  if n < 128 then 32 ≤ n && n ≤ 126 else !inRanges unprintableRanges n

def alphanumericRanges : Array (Nat × Nat) := rangesOf [1, 4]

def isWordChar (c : Char) : Bool :=
  let n := c.toNat
  if n < 128 then c.isAlphanum || c == '_' else inRanges alphanumericRanges n

/-!
## Characters of names

Which characters can stand in a name: letters, marks, connecting punctuation, and behind the first
place also digits and letter numbers. Identifiers follow almost the same rule; the few characters in
which the two differ are listed.
-/

/-- Letters, marks, connectors, decimal digits and letter numbers above ASCII. -/
def nameRanges : Array (Nat × Nat) := rangesOf [1, 3]

def letterNumberRanges : Array (Nat × Nat) := #[
  (5870, 5872), (8544, 8578), (8581, 8584), (12295, 12295), (12321, 12329), (12344, 12346),
  (42726, 42735), (65856, 65908), (66369, 66369), (66378, 66378), (66513, 66517), (74752, 74862)]

def isNameChar (c : Char) : Bool :=
  let n := c.toNat
  if n < 128 then c.isAlphanum || c == '_' else inRanges nameRanges n

def isNameStart (c : Char) : Bool :=
  isNameChar c && (digitValue? c).isNone && !inRanges letterNumberRanges c.toNat

def isNameText (s : String) : Bool := s.toList.all isNameChar

def identifierSigns : List Nat := [6277, 6278, 8472, 8494]

def identifierExtras : Array (Nat × Nat) := #[(183, 183), (903, 903), (4969, 4977), (6618, 6618)]

/-- Letters that never stand in identifiers: their compatible form is no letter. -/
def identifierExceptions : Array (Nat × Nat) := #[
  (890, 890), (11823, 11823), (64606, 64611), (65018, 65019), (65136, 65136), (65138, 65138),
  (65140, 65140), (65142, 65142), (65144, 65144), (65146, 65146), (65148, 65148), (65150, 65150)]

/-- Letters that an identifier cannot start with: their compatible form starts with a mark. -/
def identifierInnerLetters : List Nat := [3635, 3763, 65438, 65439]

def isIdentifierStart (c : Char) : Bool :=
  identifierSigns.contains c.toNat
    || (isNameChar c && isWordChar c && (digitValue? c).isNone
      && !inRanges identifierExceptions c.toNat && !identifierInnerLetters.contains c.toNat)

def isIdentifierChar (c : Char) : Bool :=
  identifierSigns.contains c.toNat || inRanges identifierExtras c.toNat
    || (isNameChar c && !inRanges identifierExceptions c.toNat)

def isIdentifier (s : String) : Bool :=
  match s.toList with
  | [] => false
  | c :: cs => isIdentifierStart c && cs.all isIdentifierChar

/-!
## Whole numbers as text

A numeral may be surrounded by blanks, may have a sign, and is a sequence of decimal digits of any
script in which single underscores may stand between digits.
-/

/-- Digits with single underscores between them, most significant first. -/
def readDigits? : List Char → (value count : Nat) → Option (Nat × Nat)
  | [], _, 0 => none
  | [], value, count => some (value, count)
  | '_' :: c :: rest, value, count =>
    if count = 0 then none
    else (digitValue? c).bind fun d => readDigits? rest (value * 10 + d) (count + 1)
  | c :: rest, value, count =>
    (digitValue? c).bind fun d => readDigits? rest (value * 10 + d) (count + 1)

def trimBlanks (cs : List Char) : List Char :=
  ((cs.dropWhile isBlank).reverse.dropWhile isBlank).reverse

def maxDigits : Nat := 4300

def readNat? (cs : List Char) : Option Nat :=
  (readDigits? cs 0 0).bind fun (value, count) => if count ≤ maxDigits then some value else none

def readInt? (s : String) : Option Int :=
  match trimBlanks s.toList with
  | '-' :: cs => (readNat? cs).map fun n => -(n : Int)
  | '+' :: cs => (readNat? cs).map fun n => (n : Int)
  | cs => (readNat? cs).map fun n => (n : Int)

/-!
## Quoted text

A text is quoted with single quotes, or with double quotes when it holds a single quote and no
double one. Inside, the quote in use and the backslash are escaped by a backslash, tab, line feed
and carriage return have letters, and every other unprintable character is written by its code.
-/

def hexDigit (n : Nat) : Char :=
  if n < 10 then Char.ofNat (48 + n) else Char.ofNat (87 + n)

def hexDigits : (width : Nat) → (n : Nat) → List Char
  | 0, _ => []
  | width + 1, n => hexDigits width (n / 16) ++ [hexDigit (n % 16)]

/-- An unprintable character by its code, in the shortest of the three widths that holds it. -/
def escapeCode (c : Char) : List Char :=
  let n := codeOfChar c
  if n < 0x100 then '\\' :: 'x' :: hexDigits 2 n
  else if n < 0x10000 then '\\' :: 'u' :: hexDigits 4 n
  else '\\' :: 'U' :: hexDigits 8 n

def quoteChar (q c : Char) : List Char :=
  if c = q || c = '\\' then ['\\', c]
  else if c = '\n' then ['\\', 'n']
  else if c = '\r' then ['\\', 'r']
  else if c = '\t' then ['\\', 't']
  else if isPrintable c then [c]
  else escapeCode c

def quoteMark (cs : List Char) : Char :=
  if cs.contains '\'' && !cs.contains '"' then '"' else '\''

def quote (s : String) : String :=
  let cs := s.toList
  let q := quoteMark cs
  String.ofList (q :: cs.flatMap (quoteChar q) ++ [q])

end CompilerKit.Text
