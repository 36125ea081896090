import CompilerKit.Text.Charset

/-!
# Letter case

Case mappings and case classes of all scripts. ASCII is decided by arithmetic; above it the tables
list runs of code points `(first, last, step, shift)`: every `step`-th code point of the run moves
by `shift`.
-/

namespace CompilerKit.Text

/-- Runs with a first code point from `n` on, given in turns by the distance of the first one, the
number of steps and their length. -/
def stepsAfter (n : Nat) : List Nat → List (Nat × Nat × Nat)
  | gap :: count :: step :: rest =>
    (n + gap, n + gap + count * step, step) :: stepsAfter (n + gap) rest
  | _ => []

def stepsOf (s : String) : Array (Nat × Nat × Nat) := (stepsAfter 0 (numbersOf s)).toArray

/-- Runs with shifts: even numbers are twice a shift up, odd ones count shifts down from 1 on. -/
def shiftsAfter (n : Nat) : List Nat → List (Nat × Nat × Nat × Int)
  | gap :: count :: step :: shift :: rest =>
    let k : Int := shift / 2
    (n + gap, n + gap + count * step, step, if shift % 2 = 0 then k else -k - 1)
      :: shiftsAfter (n + gap) rest
  | _ => []

def shiftsOf (s : String) : Array (Nat × Nat × Nat × Int) := (shiftsAfter 0 (numbersOf s)).toArray

def lowerRuns : Array (Nat × Nat × Nat × Int) := shiftsOf "
  h!9#f!;)#f!K:$$S!#k0$$$$**$$49$$Q!#hT#$$$+!#kG##$$&!#k?#!#$$##k=$!#$%!#gA#!#k7#!#k9#!#$$!#k=#!#kA$
  !#kI#!#kE#!#$&!#kI#!#kM$!#kO#$$$)!#kW#!#$$!#kW%!#$$!#kW#!#$$##kU$#$$&!#kY#!#$&!#$+!#&#!#$$!#&#!#$$
  !#&#+$$6+$$6!#&##$$&!#h##!#fR#6$$K!#i%$+$$;!#sf9#!#$$!#j(#!#sf3%!#$$!#k(#!#g-#!#g1#&$$iM#$$)!#$,!#
  hK*!#f/$$#f-&!#g!$##fc%3#f!5+#f!O!#3,.$$?!#fZ%!#$$!#0#!#$%$#i%%2#gC3B#f!f33$$M=$$Y!#A#)$$2R$$fDH#f
  CfzRH#np!J!#np!)!#np!p6f2#ggsCf3(#3foCM#hzdP$#hzdj%f-$$gA!#nzb$R$$fK*#23(#23*#23*#23(#24%$22*#2C*#
  23*#23*#23##2$##g6$!#4/%#gN&!#4/##2$##h*1##2$##hB$!#0/##hd$##h_$!#4iM!#nw]&!#ozb#!#ow.*!#[Q2#CF!#$
  qV<#Wfj-R#fCfC!#$$!#r~P#!#i~.#!#r~0%$$$)!#seZ#!#r~]#!#seb#!#se_$!#$%!#$,##sfb$T$$fN#$$*!#$yj19$$f!
  0$$gE)$$3A$$f*#$$&!#f|e*#&$$0!#$$!#glf2%#$$),$$7!#glg*#!#glg@#!#glg8#!#glg##!#glg*$!#gleF#!#glf6#!
  #gleL#!#fj!#*$$3!#fB#!#glg(#!#f|fR##$$,!#$)#$$B!#$sqO<#f!xBJ#f3gSF#f3h!-#f1/1#f13)#f1+##f1fhOU#g!g
  eCB#f!skCB#f!yp!D#f&"

/-- Upper-case mapping of code points that are not the lower case of another one. -/
def upperRuns : Array (Nat × Nat × Nat × Int) := shiftsOf "
  gX!#~1fa!#l2f1!#n:f)$%#P!##j6!#gKfb!#b1!#f_#!#fT&!#f@#!#fN=!#gN#!#gB&!#gdig.!#mh>#!#mh<#!#mh*###mh
  %$!#mh(#!#mgZ#!#mf,#!#fz|&m6!#fXiF!#nn,"

/-- Texts for code points from `n` on, given in turns by the distance of the code point and three
characters, of which the last may be missing. -/
def textsAfter (n : Nat) : List Nat → List (Nat × List Nat)
  | gap :: a :: b :: c :: rest =>
    (n + gap, if c = 0 then [a, b] else [a, b, c]) :: textsAfter (n + gap) rest
  | _ => []

def upperMany : Array (Nat × List Nat) := (textsAfter 0 (numbersOf "
  hBf6f6!fMoaf1!gJf-q/!kCs<q+q#CsHq+q#l:yXz5!ii2f+qT!#f7q+!#f:q-!#f<q-!#f#oc!gYsHq6!$sHq6q!$sHq6q#$s
  Hq6r$Mji+s<!#ji,s<!#ji-s<!#ji.s<!#ji/s<!#ji0s<!#ji1s<!#ji2s<!#ji+s<!#ji,s<!#ji-s<!#ji.s<!#ji/s<!#j
  i0s<!#ji1s<!#ji2s<!#jiKs<!#jiLs<!#jiMs<!#jiNs<!#jiOs<!#jiPs<!#jiQs<!#jiRs<!#jiKs<!#jiLs<!#jiMs<!#j
  iNs<!#jiOs<!#jiPs<!#jiQs<!#jiRs<!#jjKs<!#jjLs<!#jjMs<!#jjNs<!#jjOs<!#jjPs<!#jjQs<!#jjRs<!#jjKs<!#j
  jLs<!#jjMs<!#jjNs<!#jjOs<!#jjPs<!#jjQs<!#jjRs<!%jk^s<!#s4s<!#s)s<!$s4r$!#s4r$s<(s4s<!)jl-s<!#s:s<!
  #s,s<!$s:r$!#s:r$s<(s:s<!)s<q+q!#s<q+q#%s<r$!#s<q+r$.sHq+q!#sHq+q##sDq6!$sHr$!#sHq+r$.jl^s<!#sLs<!
  #s2s<!$sLr$!#sLr$s<(sLs<!fqq&f)f)!#f)f,!#f)f/!#f)f)f,#f)f)f/#f6f7!#f6f7!0z&z)!#z&yX!#z&y_!#z1z)!#z
  &yb!")).toArray

/-- Upper-case code points that are not mapped to another one. -/
def upperSteps : Array (Nat × Nat × Nat) := stepsOf "
  t5$#iyS!#(#&(##&$#(#&(%#-$&,#%&#$0##*!#heo_<#W<#W<#W#$%$%*#%&$#&*#E<#W##%%#)*#,)#E##%%#(&#)#&((#D<
  #W<#W<#W<#W<#W<#[;#^;#^;#^;#^;#^!#ijI<#C<#C<#"

/-- Lower-case code points that no other one is mapped to. -/
def lowerSteps : Array (Nat × Nat × Nat) := stepsOf "
  gM!#.!#(!#fZ!#*!#4!#Y!#1!#1!#2##3#&Y!#T!#6(#D#%(#%&##&#$(!#)##%#%&#$%(#*##%#%&##+&#)#$%)#,<#D##C&#
  fH!#X!#9!#C!#5!#1##(##>##(!#*!#jG!#J##hx]+#g!f[#f^$#&2#4S#i**#,!#gT%$fE$$(!#*#&)#$%!#.##&##/$#&##/
  $$(!#f^!#1!#4/#f^#&(#&C!#(!#(#%&!#,%#fyN$%*(#fO!#yk[##g7##f!+#A!#*!#=!#G#$H$#q[E#G)#+/#rkG)#6&#gfP
  #%&##%L#N+#fofK<#W)#+4#O<#W%#(#$%(#*-#H<#W<#W<#W<#W<#W<#W<#W<#W>#[;#=(#C;#=(#C;#=(#C;#=(#C;#=(#*!#
  fiX,#.6#"

def titleSteps : Array (Nat × Nat × Nat) := stepsOf "
  l($%P!#i|9*#3*#3*#7!#3!#S!#"

def shiftBy (runs : Array (Nat × Nat × Nat × Int)) (n : Nat) : Option Nat :=
  (runs.find? fun (lo, hi, step, _) => lo ≤ n && n ≤ hi && (n - lo) % step == 0).map
    fun (_, _, _, shift) => ((n : Int) + shift).toNat

def inSteps (runs : Array (Nat × Nat × Nat)) (n : Nat) : Bool :=
  runs.any fun (lo, hi, step) => lo ≤ n && n ≤ hi && (n - lo) % step == 0

def lowerCode (n : Nat) : Nat :=
  if n < 128 then (if 65 ≤ n && n ≤ 90 then n + 32 else n)
  else (shiftBy lowerRuns n).getD n

def movedTo (runs : Array (Nat × Nat × Nat × Int)) (n : Nat) : List Nat :=
  runs.toList.filterMap fun (lo, hi, step, shift) =>
    let m := ((n : Int) - shift).toNat
    if lo ≤ m && m ≤ hi && (m - lo) % step == 0 then some m else none

def lowerSources (n : Nat) : List Nat :=
  let own := if lowerCode n == n then [n] else []
  let ascii := if 97 ≤ n && n ≤ 122 then [n - 32] else []
  own ++ ascii ++ movedTo lowerRuns n

def upperChars (c : Char) : List Char :=
  let n := c.toNat
  if n < 128 then [if 97 ≤ n && n ≤ 122 then Char.ofNat (n - 32) else c]
  else match upperMany.find? fun (a, _) => a == n with
    | some (_, codes) => codes.map Char.ofNat
    | none => [Char.ofNat ((shiftBy upperRuns n).getD ((movedTo lowerRuns n).headD n))]

/-- For a lower-case code point the other ones with the same upper case. -/
def twinsOf (n : Nat) : List Nat :=
  let upper (m : Nat) := upperChars (Char.ofNat m)
  let sources := match upper n with
    | [u] => lowerCode u.toNat :: movedTo upperRuns u.toNat
    | _ => upperMany.toList.map Prod.fst
  sources.filter fun m => m != n && lowerCode m == m && upper m == upper n

/-- The first code point of the upper case. -/
def upperCode (n : Nat) : Nat := ((upperChars (Char.ofNat n)).head?.map Char.toNat).getD n

def isCased (n : Nat) : Bool := lowerCode n != n || upperCode n != n

def toUpper (s : String) : String := String.ofList (s.toList.flatMap upperChars)

def isUpperChar (c : Char) : Bool :=
  let n := c.toNat
  if n < 128 then 65 ≤ n && n ≤ 90
  else inSteps upperSteps n || (lowerCode n != n && !inSteps titleSteps n)

def isLowerChar (c : Char) : Bool :=
  let n := c.toNat
  if n < 128 then 97 ≤ n && n ≤ 122
  else inSteps lowerSteps n || !(movedTo lowerRuns n).isEmpty

/-- The text has an upper-case letter, and no letter in lower or title case. -/
def isUpper (s : String) : Bool :=
  let cs := s.toList
  cs.any isUpperChar && !cs.any fun c => isLowerChar c || inSteps titleSteps c.toNat

end CompilerKit.Text
