import CompilerKit.Build.Workspace
import CompilerKit.Compile

/-!
# Compiling and testing

Programs are compiled pass by pass. After every pass the program can be checked and run, and what it
prints is compared with what is expected.
-/

namespace CompilerKit

open Build

/-- A compiler, with checkers and interpreters for the programs between its passes. -/
structure Toolchain where
  heap : Heap := #[]
  name : String
  backend : Backend
  /-- The passes that the compiler has besides its own, and that leave a program as it is. -/
  idle : List String := []
  checks : List (String × (Artifact → Except Fault Artifact)) := []
  interpreters : List (String × (Artifact → Console → Except Fault Unit × Console)) := []

/-- How a check after a pass is told of. -/
inductive CheckNote where
  | silent
  | announced
  | reported

structure Stage where
  name : String
  blank : Bool := false
  check : Option CheckNote := some .silent

/-- How many passes and programs came out as expected. -/
structure Score where
  passed : Nat := 0
  passes : Nat := 0
  tests : Nat := 0

def Score.add (a b : Score) : Score where
  passed := a.passed + b.passed
  passes := a.passes + b.passes
  tests := a.tests + b.tests

namespace Toolchain

variable (t : Toolchain)

def hasPass (name : String) : Bool := t.idle.contains name || (Pass.ofName? name).isSome

def runPass (name : String) (p : Artifact) : Build Artifact := do
  if t.idle.contains name then pure p
  else match Pass.ofName? name with
    | none => throw .missingPart
    | some pass =>
      match (pass.run t.backend t.heap p).run (← get).names with
      | .ok (p, names) =>
        modify fun w => { w with names }
        pure p
      | .error f => throw f

def check (name : String) (p : Artifact) : Build Artifact :=
  match Bindings.get? t.checks name with
  | some f => match f p with
    | .ok p => pure p
    | .error e => throw e
  | none => pure p

def writeProgram (path : String) (p : Artifact) : Build Unit := do
  writeFile path ""
  match (p.toTerm t.heap).text baseIndent with
  | .ok s => writeFile path s
  | .error m => throw m.fault

/-! ## Compiling -/

def compileStage (name title : String) (p : Artifact) : Build Artifact := do
  note ("\n# " ++ title ++ "\n")
  let p ← t.runPass name p
  tell (Journal.noteForms baseIndent (p.toTerm t.heap))
  pure p

/-- Run a pass that the compiler may not have, after a check if it needs one. -/
def optionalStage (name title : String) (checked : Bool) (p : Artifact) : Build Artifact := do
  if t.hasPass name then
    note ("\n# " ++ title ++ "\n")
    let p ← if checked then t.check "L" p else pure p
    let p ← t.runPass name p
    tell (Journal.noteForms baseIndent (p.toTerm t.heap))
    pure p
  else pure p

def compile (path : String) (p : Artifact) : Build Unit := do
  let _ ← readFile path
  note "\n# type check\n"
  let p ← t.check "L" p
  tell (Journal.noteForms baseIndent (p.toTerm t.heap))
  let p ← t.optionalStage "shrink" "shrink" false p
  let p ← t.optionalStage "uniquify" "uniquify" false p
  let p ← t.optionalStage "reveal_functions" "reveal functions" true p
  let p ← t.optionalStage "convert_assignments" "assignment conversion" true p
  let p ← t.optionalStage "limit_functions" "limit functions" true p
  let p ← t.optionalStage "convert_to_closures" "closure conversion" true p
  let p ← t.optionalStage "expose_allocation" "expose allocation" true p
  let p ← t.compileStage "remove_complex_operands" "remove complex" p
  let p ← t.optionalStage "explicate_control" "explicate control" false p
  let p ← t.check "C" p
  let p ← t.compileStage "select_instructions" "select instructions" p
  let p ← t.compileStage "assign_homes" "assign homes" p
  let p ← t.compileStage "patch_instructions" "patch instructions" p
  let p ← t.compileStage "prelude_and_conclusion" "prelude and conclusion" p
  t.writeProgram ((Path.split path).1 ++ ".s") p

/-! ## Testing -/

def stages : List Stage := [
  { name := "shrink", blank := true }, { name := "uniquify" }, { name := "reveal_functions" },
  { name := "resolve", blank := true }, { name := "erase_types", blank := true },
  { name := "cast_insert" }, { name := "lower_casts" }, { name := "differentiate_proxies" },
  { name := "reveal_casts" }, { name := "convert_assignments" }, { name := "convert_to_closures" },
  { name := "limit_functions", check := some .announced },
  { name := "expose_allocation", check := some .announced },
  { name := "remove_complex_operands" },
  { name := "explicate_control", check := some .reported },
  { name := "select_instructions", check := none }, { name := "assign_homes", check := none },
  { name := "patch_instructions", check := none }]

/-- The lines of a text end in one way only. -/
def plainLines : List Char → List Char
  | '\r' :: '\n' :: cs => '\n' :: plainLines cs
  | '\r' :: cs => '\n' :: plainLines cs
  | c :: cs => c :: plainLines cs
  | [] => []

def compareOutput (root : String) : Build Bool := do
  return (← command ("diff -b " ++ root ++ ".out " ++ root ++ ".golden")) == 0

def testPass (pass root : String) (p : Artifact) : Build Bool := do
  match Bindings.get? t.interpreters pass with
  | none =>
    note ("compiler " ++ t.name ++ " skip test on pass " ++ pass ++ " on test\n" ++ root ++ "\n")
    pure false
  | some run =>
    let input ← readFile (root ++ ".in")
    let (r, console) := run p { input := plainLines input.toList }
    writeFile (root ++ ".out") console.output
    match r with
    | .error f => throw f
    | .ok _ => writeFile (root ++ ".out") (console.output ++ "\n")
    if ← compareOutput root then
      note ("compiler " ++ t.name ++ " success on pass " ++ pass ++ " on test\n" ++ root ++ "\n")
      pure true
    else
      printLine ("compiler " ++ t.name ++ " failed pass " ++ pass ++ " on test:\n" ++ root ++ "\n")
      pure false

def checkStage (s : Stage) (p : Artifact) : Build Artifact := do
  let known := Bindings.has t.checks s.name
  match s.check with
  | none => pure p
  | some .silent => t.check s.name p
  | some .announced =>
    if known then note ("type checking after " ++ s.name ++ "\n")
    t.check s.name p
  | some .reported =>
    let p ← t.check s.name p
    note (if known then "type checking passed" else "skipped type checking")
    pure p

def testStage (root : String) (s : Stage) (p : Artifact) (score : Score) :
    Build (Artifact × Score) := do
  if t.hasPass s.name then
    note ("\n# " ++ s.name ++ "\n")
    let p ← t.runPass s.name p
    tell (Journal.noteText baseIndent (p.toTerm t.heap))
    if s.blank then note ""
    let p ← t.checkStage s p
    let good ← t.testPass s.name root p
    pure (p, { score with passed := score.passed + good.toNat, passes := score.passes + 1 })
  else pure (p, score)

def testStages (root : String) : List Stage → Artifact → Score → Build (Artifact × Score)
  | [], p, score => pure (p, score)
  | s :: ss, p, score => do
    let (p, score) ← t.testStage root s p score
    testStages root ss p score

def testExecutable (root : String) (p : Artifact) (score : Score) : Build Score := do
  note "\n# prelude_and_conclusion\n"
  let p ← t.runPass "prelude_and_conclusion" p
  tell (Journal.noteText baseIndent (p.toTerm t.heap))
  note ""
  t.writeProgram (root ++ ".s") p
  let _ ← command ("gcc runtime.o " ++ root ++ ".s")
  let _ ← command ("./a.out < " ++ root ++ ".in > " ++ root ++ ".out")
  let score := { score with passes := score.passes + 1 }
  if ← compareOutput root then
    pure { score with passed := score.passed + 1, tests := score.tests + 1 }
  else
    printLine ("compiler " ++ t.name ++ ", executable failed on test " ++ root)
    pure score

def test (path : String) (p : Artifact) : Build Score := do
  let root := (Path.split path).1
  let _ ← readFile path
  note ("\n# source program: " ++ Path.fileName root ++ "\n")
  tell (Journal.noteText baseIndent (p.toTerm t.heap))
  note ""
  if Bindings.has t.checks "source" then note "\n# type checking source program\n"
  let p ← t.check "source" p
  let (p, score) ← t.testStages root stages p {}
  t.testExecutable root p score

def testEach (p : Artifact) : List String → Score → Build Score
  | [], score => pure score
  | path :: rest, score => do
    testEach p rest (score.add (← t.test path p))

/-- Test all programs of a language. Every file stands for the same program. -/
def testAll (language : String) (p : Artifact) : Build Unit := do
  let directory := "./tests/" ++ language ++ "/"
  let w ← get
  unless w.hasDirectory directory do
    throw (.failure ("missing directory for test programs: " ++ directory))
  let paths := ((w.filesIn directory).filter Path.isSource).map (directory ++ ·)
  let score ← t.testEach p paths {}
  let ending := " for compiler " ++ t.name ++ " on language " ++ language
  printLine ("tests: " ++ toString score.tests ++ "/" ++ toString paths.length ++ ending)
  printLine ("passes: " ++ toString score.passed ++ "/" ++ toString score.passes ++ ending)

end Toolchain

end CompilerKit
