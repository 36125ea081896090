import CompilerKit.Syntax.Text
import CompilerKit.Bindings

/-!
# Workspaces

The files that the compiler reads and writes, the commands that it gives, and what it tells.
-/

namespace CompilerKit

/-!
## The journal

What the compiler tells about its work, if it is asked to.
-/

/-- The lines that were told, and whether lines are told at all. -/
structure Journal where
  enabled : Bool := false
  text : String := ""

namespace Journal

def note (line : String) (j : Journal) : Journal :=
  if j.enabled then { j with text := j.text ++ line ++ "\n" } else j

def noteText (ind : Nat) (x : Term) (j : Journal) : Except Fault Unit × Journal :=
  if j.enabled then
    match x.text ind with
    | .ok s => (.ok (), j.note s)
    | .error m => (.error m.fault, j)
  else (.ok (), j)

def noteForms (ind : Nat) (x : Term) (j : Journal) : Except Fault Unit × Journal :=
  match noteText ind x (j.note "concrete syntax:") with
  | (.error f, j) => (.error f, j)
  | (.ok _, j) =>
    let j := (j.note "").note "AST:"
    match x.dump ind with
    | .ok s => (.ok (), j.note s)
    | .error m => (.error m.fault, j)

end Journal

end CompilerKit

namespace CompilerKit.Path

/-! ## Paths -/

/-- The last part of a path, reversed, and what stands before it, reversed. -/
def lastPart (path : String) : List Char × List Char :=
  let cs := path.toList.reverse
  (cs.takeWhile (· ≠ '/'), cs.dropWhile (· ≠ '/'))

def fileName (path : String) : String := String.ofList (lastPart path).1.reverse

/-- A path without its extension, and the extension with its point. Points at the start of the
name do not start an extension. -/
def split (path : String) : String × String :=
  let (name, directory) := lastPart path
  let extension := name.takeWhile (· ≠ '.')
  match name.dropWhile (· ≠ '.') with
  | '.' :: base =>
    if base.all (· == '.') then (path, "")
    else (String.ofList (base ++ directory).reverse, String.ofList ('.' :: extension.reverse))
  | _ => (path, "")

def isSource (path : String) : Bool := (split path).2 == ".py"

def parts (path : String) : List String :=
  (path.splitOn "/").filter fun p => p ≠ "" && p ≠ "."

def clean (path : String) : String := "/".intercalate (parts path)

/-! ## Hashed directories

A hashed directory lists its files by a digest of their names: three rounds over four words of the
state, for every 32 bytes of the name. -/

structure Digest where
  a : UInt32 := 0x67452301
  b : UInt32 := 0xefcdab89
  c : UInt32 := 0x98badcfe
  d : UInt32 := 0x10325476

namespace Digest

def rotate (x : UInt32) (n : UInt32) : UInt32 := (x <<< n) ||| (x >>> (32 - n))

/-- One step: mix an input word into the first word, and move on to the next word. -/
def step (mix : UInt32 → UInt32 → UInt32 → UInt32) (s : Digest) (input shift : UInt32) : Digest :=
  { a := s.d, b := rotate (s.a + mix s.b s.c s.d + input) shift, c := s.b, d := s.c }

/-- One round: all input words in an order, with the shifts in turn. -/
def round (mix : UInt32 → UInt32 → UInt32 → UInt32) (key : UInt32) (order : List Nat)
    (shifts : List UInt32) (input : List UInt32) (s : Digest) : Digest :=
  (order.zip (shifts ++ shifts)).foldl (fun s (i, n) => step mix s (input.getD i 0 + key) n) s

def absorb (s : Digest) (input : List UInt32) : Digest :=
  let t := s
    |> round (fun x y z => z ^^^ (x &&& (y ^^^ z))) 0 [0, 1, 2, 3, 4, 5, 6, 7] [3, 7, 11, 19] input
    |> round (fun x y z => (x &&& y) + ((x ^^^ y) &&& z)) 0x5a827999 [1, 3, 5, 7, 0, 2, 4, 6]
      [3, 5, 9, 13] input
    |> round (fun x y z => x ^^^ y ^^^ z) 0x6ed9eba1 [3, 7, 2, 6, 1, 5, 0, 4] [3, 9, 11, 15] input
  { a := s.a + t.a, b := s.b + t.b, c := s.c + t.c, d := s.d + t.d }

def signed (b : UInt8) : UInt32 := if b < 128 then b.toUInt32 else b.toUInt32 - 256

/-- Eight words from at most 32 bytes. Words that are not full are filled up with the length. -/
def words (length : Nat) (bytes : List UInt8) : List UInt32 :=
  let n := UInt32.ofNat length
  let pad := n ||| (n <<< 8)
  let pad := pad ||| (pad <<< 16)
  (List.range 8).map fun i =>
    ((bytes.drop (4 * i)).take 4).foldl (fun w b => signed b + (w <<< 8)) pad

def feed (s : Digest) (bytes : List UInt8) : Digest :=
  if bytes.isEmpty then s
  else feed (s.absorb (words bytes.length (bytes.take 32))) (bytes.drop 32)
termination_by bytes.length
decreasing_by
  cases bytes with
  | nil => simp_all
  | cons b bs => simp only [List.length_drop, List.length_cons]; omega

def ofName (name : String) : Nat × Nat :=
  let s := feed {} name.toUTF8.toList
  (s.b.toNat / 2, s.c.toNat)

end Digest

def listing (names : List String) : List String :=
  let before (x y : (Nat × Nat) × String) : Bool :=
    x.1.1 < y.1.1 || (x.1.1 == y.1.1 && x.1.2 ≤ y.1.2)
  ((names.map fun x => (Digest.ofName x, x)).mergeSort before).map Prod.snd

end CompilerKit.Path

namespace CompilerKit

structure Workspace where
  files : List (String × String) := []
  directories : List String := []
  commands : List String := []
  /-- The outcomes of the commands to come; zero when they are used up. -/
  outcomes : List Int := []
  output : String := ""
  journal : Journal := {}
  names : Nat := 0

namespace Workspace

def hasDirectory (w : Workspace) (path : String) : Bool :=
  let wanted := Path.parts path
  (w.directories.any fun d => wanted.isPrefixOf (Path.parts d))
    || w.files.any fun (f, _) => wanted.isPrefixOf (Path.parts f).dropLast

def filesIn (w : Workspace) (path : String) : List String :=
  let directory := Path.parts path
  Path.listing (w.files.filterMap fun (f, _) =>
    let parts := Path.parts f
    if parts.dropLast == directory then parts.getLast? else none)

end Workspace

abbrev Build := EStateM Fault Workspace

namespace Build

def readFile (path : String) : Build String := do
  match Bindings.get? (← get).files (Path.clean path) with
  | some text => pure text
  | none => throw .missingFile

def writeFile (path text : String) : Build Unit :=
  modify fun w => { w with files := Bindings.put w.files (Path.clean path) text }

def command (line : String) : Build Int :=
  modifyGet fun w => (w.outcomes.headD 0,
    { w with commands := w.commands ++ [line], outcomes := w.outcomes.tail })

def printLine (line : String) : Build Unit :=
  modify fun w => { w with output := w.output ++ line ++ "\n" }

def note (line : String) : Build Unit :=
  modify fun w => { w with journal := w.journal.note line }

def tell (f : Journal → Except Fault Unit × Journal) : Build Unit := do
  match ← modifyGet fun w =>
    let (r, journal) := f w.journal
    (r, { w with journal }) with
  | .ok _ => pure ()
  | .error e => throw e

end Build

end CompilerKit
