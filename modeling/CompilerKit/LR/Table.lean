import CompilerKit.LR.Automaton

/-!
# Parse tables

What a parser does with each token in each state of the automaton. A production is reduced when the
token can follow it in the state that the production started from. A token that can be shifted is
shifted.
-/

namespace CompilerKit.LR

open Grammar

inductive Action where
  | shift (state : Nat)
  | reduce (rule : Nat)

/-- Actions by state and by kind of token or rule, and where each start rule starts and ends. -/
structure Table where
  rules : Array Production
  rows : Array (List (String × Action))
  starts : List (String × Nat)
  ends : List (String × Nat)

namespace Follow

/-- Rules that are expected in some state: what follows them is to be found. -/
structure Demand where
  state : Nat
  rule : String
  deriving BEq, Hashable

/-- Demands with the relations between them. Sets of terminals are bit masks. -/
structure Relations where
  demands : Array Demand
  index : Std.HashMap Demand Nat
  /-- The terminals that can come right behind. -/
  direct : Array Nat
  /-- Demands for rules that can be empty, right behind. -/
  reads : Array (List Nat)
  /-- Demands that end where this one ends. -/
  within : Array (List Nat)
  /-- Where the productions of the demanded rule end. -/
  ends : Array (List (Nat × Nat))

def terminalIndex (rs : RuleSet) : Std.HashMap String Nat :=
  rs.productions.foldl (fun m p => p.symbols.foldl (fun m s =>
    if s.isTerminal && !m.contains s.name then m.insert s.name m.size else m) m)
    (Std.HashMap.ofList [(Token.endKind, 0)])

def demandsOf (rs : RuleSet) (a : Automaton) : Array Demand :=
  a.moves.foldl (fun (ds, i) row =>
    (row.foldl (fun ds (x, _) => if rs.isRule x then ds.push ⟨i, x⟩ else ds) ds, i + 1))
    ((#[] : Array Demand), 0) |>.1

/-- The demands that the productions of a demanded rule make at their ends, and the states in
which these productions are complete. -/
def trace (rs : RuleSet) (a : Automaton) (empty : Std.HashMap String Unit)
    (index : Std.HashMap Demand Nat) :
    List Symbol → Nat → List Nat × Option Nat
  | [], state => ([], some state)
  | s :: ss, state =>
    match a.move? state s.name with
    | none => ([], none)
    | some next =>
      let (later, stop) := trace rs a empty index ss next
      if ss.all fun s => empty.contains s.name then
        match index[Demand.mk state s.name]? with
        | some d => (d :: later, stop)
        | none => (later, stop)
      else (later, stop)

def relations (rs : RuleSet) (a : Automaton) (starts : List String) : Relations :=
  let empty := rs.nullable
  let terminals := terminalIndex rs
  let demands := demandsOf rs a
  let index := demands.foldl (fun (m, i) d => (m.insert d i, i + 1))
    (({} : Std.HashMap Demand Nat), 0) |>.1
  let roots := starts.zipIdx.map fun (s, i) => Demand.mk i s
  let direct := demands.map fun d =>
    let row := match a.move? d.state d.rule with
      | some j => a.moves.getD j []
      | none => []
    row.foldl (fun mask (x, _) => match terminals[x]? with
      | some t => mask ||| (1 <<< t)
      | none => mask) (if roots.contains d then 1 else 0)
  let reads := demands.map fun d =>
    match a.move? d.state d.rule with
    | some j => (a.moves.getD j []).filterMap fun (x, _) =>
      if empty.contains x then index[Demand.mk j x]? else none
    | none => []
  let traces := demands.map fun d => (rs.ofRule d.rule).map fun r =>
    (r, trace rs a empty index ((Item.mk r 0).rest rs) d.state)
  let within := traces.foldl (fun (w, i) ts =>
    (ts.foldl (fun w (_, ds, _) => ds.foldl (fun (w : Array (List Nat)) d =>
      w.modify d (i :: ·)) w) w, i + 1))
    (Array.replicate demands.size ([] : List Nat), 0) |>.1
  let ends := traces.map fun ts => ts.filterMap fun (r, _, stop) => stop.map fun j => (j, r)
  { demands, index, direct, reads, within, ends }

def round (edges : Array (List Nat)) (sets : Array Nat) : Array Nat :=
  edges.foldl (fun (sets, i) js =>
    (sets.modify i fun s => js.foldl (fun s j => s ||| sets.getD j 0) s, i + 1)) (sets, 0) |>.1

def settle (edges : Array (List Nat)) : Nat → Array Nat → Array Nat
  | 0, sets => sets
  | fuel + 1, sets =>
    let next := round edges sets
    if next = sets then sets else settle edges fuel next

def sets (r : Relations) (terminals : Nat) : Array Nat :=
  let fuel := r.demands.size * (terminals + 1) + 1
  settle r.within fuel (settle r.reads fuel r.direct)

/-- For each state the productions that can be reduced there, each with the terminals that it can be
reduced before. -/
def reductions (states : Nat) (r : Relations) (follow : Array Nat) : Array (List (Nat × Nat)) :=
  r.ends.foldl (fun (m, i) es =>
    (es.foldl (fun (m : Array (List (Nat × Nat))) (state, rule) =>
      m.modify state fun row => add row rule (follow.getD i 0)) m, i + 1))
    (Array.replicate states ([] : List (Nat × Nat)), 0) |>.1
where
  add : List (Nat × Nat) → Nat → Nat → List (Nat × Nat)
    | [], rule, mask => [(rule, mask)]
    | (q, old) :: row, rule, mask =>
      if q = rule then (q, old ||| mask) :: row else (q, old) :: add row rule mask

end Follow

namespace Table

/-- The productions that win, by priority; none if the best ones are even. -/
def best (rules : Array Production) (candidates : List Nat) : Option Nat :=
  let priority (r : Nat) : Int := ((rules[r]?.bind fun p => p.options.priority)).getD 0
  let sorted := candidates.mergeSort fun a b => priority b ≤ priority a
  match sorted with
  | [] => none
  | [r] => some r
  | a :: b :: _ => if priority b < priority a then some a else none

def conflict (rules : Array Production) (terminal : String) (candidates : List Nat) : String :=
  "Reduce/Reduce collision in " ++ (Grammar.Symbol.terminal terminal false none).dump
    ++ " between the following rules: "
    ++ String.join (candidates.filterMap fun r => rules[r]?.map fun p => "\n\t- " ++ p.text)

/-- The reductions of a state: an action for each terminal, or a message. -/
def reduceRow (rules : Array Production) (terminals : List (String × Nat))
    (row : List (Nat × Nat)) : List (String × Except String Action) :=
  terminals.filterMap fun (x, t) =>
    match (row.filter fun (_, mask) => mask.testBit t).map Prod.fst with
    | [] => none
    | candidates => some (x, match best rules candidates with
      | some r => .ok (.reduce r)
      | none => .error (conflict rules x (candidates.mergeSort (· ≤ ·))))

def ofProductions (ps : List Production) (starts : List String) : Parsing Table := do
  let starts := starts.eraseDups
  let rs ← RuleSet.ofProductions ps starts
  let a := Automaton.ofRules rs starts
  let terminals := Follow.terminalIndex rs
  let rel := Follow.relations rs a starts
  let reductions := Follow.reductions a.items.size rel (Follow.sets rel terminals.size)
  let names := terminals.toList.mergeSort fun a b => a.2 ≤ b.2
  let reduced := reductions.map (reduceRow rs.productions names)
  let conflicts := reduced.toList.flatMap fun row => row.filterMap fun (_, r) => match r with
    | .error m => some m
    | .ok _ => none
  unless conflicts.isEmpty do throw (.grammar ("\n\n".intercalate conflicts))
  let rows := a.moves.zipWith (fun moves row =>
    let shifts := moves.map fun (x, j) => (x, Action.shift j)
    shifts ++ row.filterMap fun (x, r) => match r with
      | .ok action => if (shifts.lookup x).isSome then none else some (x, action)
      | .error _ => none) reduced
  let ends := starts.filterMap fun s => do
    let state ← starts.idxOf? s
    pure (s, ← a.move? state s)
  pure { rules := rs.productions, rows, starts := starts.zipIdx, ends }

def action? (t : Table) (state : Nat) (kind : String) : Option Action :=
  (t.rows.getD state []).lookup kind

def kinds (t : Table) (state : Nat) : List String := (t.rows.getD state []).map Prod.fst

end Table

end CompilerKit.LR
