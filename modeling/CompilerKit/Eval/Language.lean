/-!
# Languages

The family of languages that programs are run in. Each language adds features to an earlier one;
the block languages are what source programs are lowered to.
-/

namespace CompilerKit

inductive Language where
  | integers
  | vars
  | conditionals
  | loops
  | tuples
  | arrays
  | functions
  | lambdas
  | anys
  /-- Casts between types, and the proxies that they need. -/
  | casts
  | proxies
  /-- Every value is tagged and every operation checks its operands. -/
  | dynamic
  | generics
  | conditionalBlocks
  | tupleBlocks
  | arrayBlocks
  | functionBlocks
  | lambdaBlocks
  | anyBlocks
  | proxyBlocks
  deriving BEq

namespace Language

/-- The language has labelled blocks and jumps in place of nested statements. -/
def isBlocks : Language → Bool
  | conditionalBlocks | tupleBlocks | arrayBlocks | functionBlocks | lambdaBlocks | anyBlocks
  | proxyBlocks => true
  | _ => false

def level : Language → Nat
  | integers => 0
  | vars => 1
  | conditionals | conditionalBlocks => 2
  | loops => 3
  | tuples | tupleBlocks => 4
  | arrays | arrayBlocks => 5
  | functions | functionBlocks => 6
  | lambdas | lambdaBlocks | dynamic | generics => 7
  | anys | anyBlocks => 8
  | casts => 9
  | proxies | proxyBlocks => 10

def isDynamic (l : Language) : Bool := l == dynamic

def hasVariables (l : Language) : Bool := 1 ≤ l.level

def hasConditionals (l : Language) : Bool := 2 ≤ l.level

def hasLoops (l : Language) : Bool := 3 ≤ l.level && !l.isBlocks

def hasTuples (l : Language) : Bool := 4 ≤ l.level

def hasArrays (l : Language) : Bool := 5 ≤ l.level

def hasFunctions (l : Language) : Bool := 6 ≤ l.level

def hasLambdas (l : Language) : Bool := 7 ≤ l.level

def hasTags (l : Language) : Bool := 8 ≤ l.level

def hasCasts (l : Language) : Bool := 9 ≤ l.level && !l.isBlocks

def hasProxies (l : Language) : Bool := 10 ≤ l.level

/-- Aggregates may be proxies, so access goes through them. -/
def seesProxies (l : Language) : Bool := l.hasCasts || l.hasProxies

end Language

def builtins : List String :=
  ["input_int", "print", "arity", "len", "array_len", "array_load", "array_store", "any_load",
    "any_load_unsafe", "any_store", "any_store_unsafe", "any_len", "make_any", "exit",
    "is_tuple_proxy", "project_tuple", "proxy_tuple_load", "proxy_tuple_len", "is_array_proxy",
    "project_array", "proxy_array_load", "proxy_array_len", "proxy_array_store"]

end CompilerKit
