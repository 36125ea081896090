import CompilerKit.X86.Tree

/-!
# Assembly texts and their grammar

A text is cut into lexemes: words, which are as long as they can be, and signs. The grammar of
assembly programs derives sequences of lexemes, and each derivation has a tree with one node for
each alternative.
-/

namespace CompilerKit.X86

open List Option

variable {w : String} {c : Char} {names r : List String}
variable {p : String → Bool} {s : List String}

/-! ## Lexemes -/

/-- The characters of names, numerals and directives. -/
def isWordChar (c : Char) : Bool := c.isAlphanum || c == '_' || c == '.'

def isBlankChar (c : Char) : Bool := c == ' ' || c == '\t' || c == '\n' || c == '\r' || c == '\x0c'

/-- A word that has come to its end. -/
def closed (word : List Char) : List String := if word.isEmpty then [] else [String.ofList word]

/-- The lexemes of the rest of a text, after the beginning of a word. -/
def lexemesFrom : (word : List Char) → List Char → List String
  | word, [] => closed word
  | word, c :: cs =>
    if isWordChar c then lexemesFrom (word ++ [c]) cs
    else if isBlankChar c then closed word ++ lexemesFrom [] cs
    else closed word ++ String.singleton c :: lexemesFrom [] cs

/-- The lexemes of a text. -/
def lexemes (cs : List Char) : List String := lexemesFrom [] cs

/-- No word goes on here. -/
def Opens (cs : List Char) : Prop := ∀ c ∈ cs.head?, isWordChar c = false

theorem lexemesFrom_append (hcs : ∀ c ∈ cs, isWordChar c) (word rest) :
    lexemesFrom word (cs ++ rest) = lexemesFrom (word ++ cs) rest := by
  induction cs generalizing word with
  | nil => rw [nil_append, append_nil]
  | cons c cs ih =>
    rw [forall_mem_cons] at hcs
    rw [cons_append, lexemesFrom, if_pos hcs.1, ih hcs.2, append_assoc]
    rfl

theorem lexemesFrom_of_opens (h : Opens rest) (word) :
    lexemesFrom word rest = closed word ++ lexemes rest := by
  cases rest with
  | nil => simp [lexemesFrom, lexemes, closed]
  | cons c rest =>
    have hc : isWordChar c = false := h c rfl
    rw [lexemes, lexemesFrom, lexemesFrom, hc]
    split
    · contradiction
    · split <;> rfl

/-- A text of characters of words. -/
def isWord (w : String) : Bool := w != "" && w.toList.all isWordChar

theorem lexemes_word (hw : isWord w) (h : Opens rest) :
    lexemes (w.toList ++ rest) = w :: lexemes rest := by
  rw [isWord, Bool.and_eq_true, bne_iff_ne, List.all_eq_true] at hw
  have hne : w.toList.isEmpty = false := by simpa using hw.1
  rw [lexemes, lexemesFrom_append hw.2, lexemesFrom_of_opens h, List.nil_append, closed, hne]
  simp

theorem lexemes_blank (hc : isBlankChar c) (rest) : lexemes (c :: rest) = lexemes rest := by
  have hword : isWordChar c = false := by
    simp only [isBlankChar, Bool.or_eq_true, beq_iff_eq] at hc
    rcases hc with (((rfl | rfl) | rfl) | rfl) | rfl <;> decide
  rw [lexemes, lexemesFrom, hword, hc]
  rfl

theorem lexemes_sign (hword : isWordChar c = false) (hblank : isBlankChar c = false) (rest) :
    lexemes (c :: rest) = String.singleton c :: lexemes rest := by
  rw [lexemes, lexemesFrom, hword, hblank]
  rfl

theorem lexemes_blanks (n rest) : lexemes ((blanks n).toList ++ rest) = lexemes rest := by
  rw [blanks, String.toList_ofList]
  induction n with
  | zero => rfl
  | succ n ih =>
    exact ih

/-! ## Derivations -/

@[ext]
structure Word (p : String → Bool) where
  text : String
  isOf : p text

/-- The texts that are names. -/
def isName (w : String) : Bool :=
  match w.toList with
  | [] => false
  | c :: cs => (c.isAlpha || c == '_') && cs.all fun c => c.isAlphanum || c == '_'

/-- The texts that are sequences of digits. -/
def isDigits (w : String) : Bool := w != "" && w.toList.all Char.isDigit

def registerNames : List String :=
  ["rsp", "rbp", "rax", "rbx", "rcx", "rdx", "rsi", "rdi", "r8", "r9", "r10", "r11", "r12", "r13",
    "r14", "r15", "al", "rip"]

/-- The instructions with two operands. -/
def pairNames : List String := ["movq", "addq", "subq", "cmpq", "xorq", "leaq", "movzbq"]

/-- The instructions with one operand. -/
def singleNames : List String :=
  ["negq", "sete", "setl", "setle", "setg", "setge", "pushq", "popq"]

/-- The instructions with a label. -/
def labelNames : List String := ["jmp", "je", "jl", "jle", "jg", "jge", "callq"]

/-- The instructions that can be indirect. -/
def starNames : List String := ["jmp", "callq"]

/-- Numbers with signs. -/
inductive Atom where
  | number (n : Word isDigits)
  | neg (a : Atom)

/-- Operands. -/
inductive Arg where
  | int (a : Atom)
  | reg (r : Word registerNames.contains)
  | var (x : Word isName)
  | direct (r : Word registerNames.contains)
  | mem (a : Atom) (r : Word registerNames.contains)
  | global (x : Word isName) (r : Word registerNames.contains)

/-- Instructions. -/
inductive Line where
  | pair (op : Word pairNames.contains) (a b : Arg)
  | single (op : Word singleNames.contains) (a : Arg)
  | label (op : Word labelNames.contains) (x : Word isName)
  | star (op : Word starNames.contains) (a : Arg)
  | ret

/-- Parts of a program: directives, and labels with the instructions that follow. -/
inductive Section where
  | exported (x : Word isName)
  | aligned (n : Word isDigits)
  | code (x : Word isName) (ls : List Line)

/-! ### What is derived -/

def Atom.lexemes : Atom → List String
  | number n => [n.text]
  | neg a => "-" :: a.lexemes

def Arg.lexemes : Arg → List String
  | int a => "$" :: a.lexemes
  | reg r => ["%", r.text]
  | var x => ["#", x.text]
  | direct r => ["(", "%", r.text, ")"]
  | mem a r => a.lexemes ++ ["(", "%", r.text, ")"]
  | global x r => [x.text, "(", "%", r.text, ")"]

def Line.lexemes : Line → List String
  | pair op a b => op.text :: a.lexemes ++ "," :: b.lexemes
  | single op a => op.text :: a.lexemes
  | label op x => [op.text, x.text]
  | star op a => op.text :: "*" :: a.lexemes
  | ret => ["retq"]

def Section.lexemes : Section → List String
  | exported x => [".globl", x.text]
  | aligned n => [".align", n.text]
  | code x ls => x.text :: ":" :: ls.flatMap Line.lexemes

/-! ### Trees -/

def nameToken (x : Word isName) : ParseTree := .token { kind := "CNAME", text := x.text }

def numberToken (n : Word isDigits) : ParseTree := .token { kind := "NUMBER", text := n.text }

/-- Registers are words of their own, each of its own kind. -/
def registerToken (r : Word registerNames.contains) : ParseTree :=
  .token { kind := r.text.toUpper, text := r.text }

def Atom.tree : Atom → ParseTree
  | number n => .bare "int_a" [numberToken n]
  | neg a => .bare "neg_a" [a.tree]

def Arg.tree : Arg → ParseTree
  | int a => .bare "int_a" [a.tree]
  | reg r => .bare "reg_a" [registerToken r]
  | var x => .bare "var_a" [nameToken x]
  | direct r => .bare "direct_mem_a" [registerToken r]
  | mem a r => .bare "mem_a" [a.tree, registerToken r]
  | global x r => .bare "global_val_a" [nameToken x, registerToken r]

def Line.tree : Line → ParseTree
  | pair op a b => .bare op.text [a.tree, b.tree]
  | single op a => .bare op.text [a.tree]
  | label op x => .bare op.text [nameToken x]
  | star op a => .bare ("indirect_" ++ op.text) [a.tree]
  | ret => .bare "retq" []

def Section.tree : Section → ParseTree
  | exported x => .bare "block" [nameToken x]
  | aligned n => .bare "block" [numberToken n]
  | code x ls => .bare "block" (nameToken x :: ls.map Line.tree)

/-- The lexemes that a program derives. -/
def derived (ss : List Section) : List String := ss.flatMap Section.lexemes

/-- The tree of the derivation of a program. -/
def derivedTree (ss : List Section) : ParseTree := .bare "prog" (ss.map Section.tree)

/-! ## Texts have at most one derivation

Each part of a derivation is found from the left: where a part begins, its first lexeme or two tell
which alternative it is. -/

theorem Word.text_ne (x : Word p) {s} (hs : p s = false) : x.text ≠ s := by
  rintro rfl
  exact Bool.false_ne_true (hs.symm.trans x.isOf)

theorem Word.isOther (hnames : names.all (fun s => !p s)) (x : Word names.contains) :
    p x.text = false := by
  rw [List.all_eq_true] at hnames
  exact Bool.not_eq_true' _ ▸ hnames x.text (List.contains_iff_mem.mp x.isOf)

theorem toNat_of_isDigit (h : c.isDigit) : 48 ≤ c.toNat ∧ c.toNat ≤ 57 := by
  simp only [Char.isDigit, Bool.and_eq_true, decide_eq_true_eq] at h
  constructor
  · simpa using UInt32.le_iff_toNat_le.mp h.1
  · simpa using UInt32.le_iff_toNat_le.mp h.2

theorem isAlpha_of_isDigit (h : c.isDigit) : c.isAlpha = false := by
  have hhigh : c.val.toNat ≤ 57 := (toNat_of_isDigit h).2
  have hupper : ¬ 'A'.val ≤ c.val := fun hle =>
    absurd (UInt32.le_iff_toNat_le.mp hle) (Nat.not_le_of_lt (Nat.lt_of_le_of_lt hhigh (by decide)))
  have hlower : ¬ 'a'.val ≤ c.val := fun hle =>
    absurd (UInt32.le_iff_toNat_le.mp hle) (Nat.not_le_of_lt (Nat.lt_of_le_of_lt hhigh (by decide)))
  change (decide ('A'.val ≤ c.val ∧ c.val ≤ 'Z'.val) ||
    (decide ('a'.val ≤ c.val) && decide (c.val ≤ 'z'.val))) = false
  rw [decide_eq_false fun hc => hupper hc.1, decide_eq_false hlower]
  rfl

theorem isName_of_isDigits {s} (h : isDigits s) : isName s = false := by
  rw [isDigits, Bool.and_eq_true, List.all_eq_true] at h
  unfold isName
  split
  · rfl
  · next c cs hs =>
    have hc : c.isDigit := h.2 c (by rw [hs]; exact List.mem_cons_self)
    have hunderscore : c ≠ '_' := by
      rintro rfl
      exact absurd hc (by decide)
    rw [isAlpha_of_isDigit hc, Bool.false_or, beq_false_of_ne hunderscore, Bool.false_and]

theorem Atom.append_inj {a b : Atom} (h : a.lexemes ++ r = b.lexemes ++ s) : a = b ∧ r = s := by
  induction a generalizing b with
  | number n =>
    cases b with
    | number k =>
      obtain ⟨htext, hrest⟩ := cons.inj h
      exact ⟨congrArg _ (Word.ext htext), hrest⟩
    | neg b => exact absurd (cons.inj h).1 (n.text_ne (by decide))
  | neg a ih =>
    cases b with
    | number k => exact absurd (cons.inj h).1.symm (k.text_ne (by decide))
    | neg b =>
      obtain ⟨rfl, hrest⟩ := ih (cons.inj h).2
      exact ⟨rfl, hrest⟩

/-- Which operand begins with a lexeme. -/
def leadOf (w : String) : Nat :=
  if w = "$" then 0 else if w = "%" then 1 else if w = "#" then 2 else if w = "(" then 3
  else if isName w then 4 else 5

def Arg.lead : Arg → Nat
  | int _ => 0
  | reg _ => 1
  | var _ => 2
  | direct _ => 3
  | global _ _ => 4
  | mem _ _ => 5

theorem leadOf_of_isName (h : isName w) : leadOf w = 4 := by
  have hne (s : String) (hs : isName s = false) : w ≠ s := Word.text_ne ⟨w, h⟩ hs
  rw [leadOf, if_neg (hne "$" (by decide)), if_neg (hne "%" (by decide)),
    if_neg (hne "#" (by decide)), if_neg (hne "(" (by decide)), if_pos h]

theorem leadOf_of_isDigits (h : isDigits w) : leadOf w = 5 := by
  have hne (s : String) (hs : isDigits s = false) : w ≠ s := Word.text_ne ⟨w, h⟩ hs
  rw [leadOf, if_neg (hne "$" (by decide)), if_neg (hne "%" (by decide)),
    if_neg (hne "#" (by decide)), if_neg (hne "(" (by decide)), isName_of_isDigits h]
  rfl

theorem Arg.leadOf_head (g : Arg) (r) : (g.lexemes ++ r).head?.map leadOf = some g.lead := by
  cases g with
  | global x b => exact congrArg some (leadOf_of_isName x.isOf)
  | mem a b =>
    cases a with
    | number n => exact congrArg some (leadOf_of_isDigits n.isOf)
    | neg a => rfl
  | _ => rfl

theorem Arg.append_inj {g h : Arg} (heq : g.lexemes ++ r = h.lexemes ++ s) : g = h ∧ r = s := by
  have hlead : g.lead = h.lead := by
    have hhead := g.leadOf_head r
    rw [heq, h.leadOf_head] at hhead
    exact (some.inj hhead).symm
  cases g with
  | int a =>
    cases h <;> cases hlead
    next b =>
    obtain ⟨rfl, hrest⟩ := Atom.append_inj (cons.inj heq).2
    exact ⟨rfl, hrest⟩
  | mem a x =>
    cases h <;> cases hlead
    next b y =>
    simp only [lexemes, append_assoc] at heq
    obtain ⟨rfl, hrest⟩ := Atom.append_inj heq
    simp only [cons_append, nil_append, cons.injEq, true_and] at hrest
    exact ⟨congrArg _ (Word.ext hrest.1), hrest.2⟩
  | reg x | var x | direct x =>
    cases h <;> cases hlead
    simp only [lexemes, cons_append, nil_append, cons.injEq, true_and] at heq
    exact ⟨congrArg _ (Word.ext heq.1), heq.2⟩
  | global x b =>
    cases h <;> cases hlead
    simp only [lexemes, cons_append, nil_append, cons.injEq, true_and] at heq
    rw [Word.ext heq.1, Word.ext heq.2.1]
    exact ⟨rfl, heq.2.2⟩

/-- Which instruction begins with a lexeme, before another. -/
def opOf (w : String) (next : Option String) : Nat :=
  if pairNames.contains w then 0 else if singleNames.contains w then 1
  else if w = "retq" then 2 else if next = some "*" then 3 else 4

def Line.lead : Line → Nat
  | pair _ _ _ => 0
  | single _ _ => 1
  | ret => 2
  | star _ _ => 3
  | label _ _ => 4

theorem opOf_label
    (hnames : names.all (fun w => !(pairNames ++ "retq" :: singleNames).contains w))
    (op : Word names.contains) (next) : opOf op.text next = if next = some "*" then 3 else 4 := by
  have hother := op.isOther hnames
  simp only [contains_append, contains_cons, Bool.or_eq_false_iff, beq_eq_false_iff_ne] at hother
  rw [opOf, hother.1, hother.2.2, if_neg hother.2.1]
  rfl

theorem Line.opOf_head (l : Line) (r) :
    (l.lexemes ++ r).head?.map (opOf · (l.lexemes ++ r).tail.head?) = some l.lead := by
  cases l with
  | pair op g h => exact congrArg some (if_pos op.isOf)
  | single op g =>
    have hpair : pairNames.contains op.text = false := op.isOther (by decide)
    refine congrArg some ?_
    change opOf op.text _ = 1
    rw [opOf, hpair, op.isOf]
    rfl
  | label op x =>
    have hstar : x.text ≠ "*" := x.text_ne (by decide)
    simp [lexemes, lead, opOf_label (by decide) op, hstar]
  | star op g => exact congrArg some (opOf_label (by decide) op _)
  | ret => rfl

theorem Line.append_inj {l k : Line} (heq : l.lexemes ++ r = k.lexemes ++ s) : l = k ∧ r = s := by
  have hlead : l.lead = k.lead := by
    have hhead := l.opOf_head r
    rw [heq, k.opOf_head] at hhead
    exact (some.inj hhead).symm
  cases l with
  | pair op g h =>
    cases k <;> cases hlead
    next op' g' h' =>
    simp only [lexemes, cons_append, append_assoc] at heq
    obtain ⟨hop, hargs⟩ := cons.inj heq
    obtain ⟨rfl, hcomma⟩ := Arg.append_inj hargs
    obtain ⟨rfl, hrest⟩ := Arg.append_inj (cons.inj hcomma).2
    exact ⟨by rw [Word.ext hop], hrest⟩
  | single op g =>
    cases k <;> cases hlead
    obtain ⟨hop, hargs⟩ := cons.inj heq
    obtain ⟨rfl, hrest⟩ := Arg.append_inj hargs
    exact ⟨by rw [Word.ext hop], hrest⟩
  | star op g =>
    cases k <;> cases hlead
    obtain ⟨hop, hargs⟩ := cons.inj heq
    obtain ⟨rfl, hrest⟩ := Arg.append_inj (cons.inj hargs).2
    exact ⟨by rw [Word.ext hop], hrest⟩
  | label op x =>
    cases k <;> cases hlead
    obtain ⟨hop, hargs⟩ := cons.inj heq
    obtain ⟨hx, hrest⟩ := cons.inj hargs
    exact ⟨by rw [Word.ext hop, Word.ext hx], hrest⟩
  | ret =>
    cases k <;> cases hlead
    exact ⟨rfl, (cons.inj heq).2⟩

theorem Arg.head_ne_colon (g : Arg) (r) : (g.lexemes ++ r).head? ≠ some ":" := by
  cases g with
  | global x b => exact fun h => x.text_ne (by decide) (some.inj h)
  | mem a b =>
    cases a with
    | number n => exact fun h => n.text_ne (by decide) (some.inj h)
    | neg a => simp [lexemes, Atom.lexemes]
  | _ => simp [lexemes]

theorem isName_of_contains (hnames : names.all isName) (x : Word names.contains) :
    isName x.text :=
  all_eq_true.mp hnames x.text (contains_iff_mem.mp x.isOf)

/-- An instruction begins with a name that is no label. -/
theorem Line.exists_cons (l : Line) (hr : r.head? ≠ some ":") :
    ∃ w rest, l.lexemes ++ r = w :: rest ∧ isName w ∧ rest.head? ≠ some ":" := by
  cases l with
  | pair op g h =>
    have hcolon := g.head_ne_colon ("," :: h.lexemes ++ r)
    rw [← append_assoc] at hcolon
    exact ⟨_, _, rfl, isName_of_contains (by decide) op, hcolon⟩
  | single op g => exact ⟨_, _, rfl, isName_of_contains (by decide) op, g.head_ne_colon r⟩
  | label op x =>
    exact ⟨_, _, rfl, isName_of_contains (by decide) op,
      fun h => x.text_ne (by decide) (some.inj h)⟩
  | star op g => exact ⟨_, _, rfl, isName_of_contains (by decide) op, by simp⟩
  | ret => exact ⟨_, _, rfl, rfl, hr⟩

theorem derived_cons (s ss) : derived (s :: ss) = s.lexemes ++ derived ss := flatMap_cons

theorem head_derived_ne_colon (ss) : (derived ss).head? ≠ some ":" := by
  cases ss with
  | nil => simp [derived]
  | cons s ss =>
    rw [derived_cons]
    cases s with
    | code x ls => exact fun h => x.text_ne (by decide) (some.inj h)
    | _ => simp [Section.lexemes]

theorem head_lines_ne_colon (ls : List Line) (ss) :
    (ls.flatMap Line.lexemes ++ derived ss).head? ≠ some ":" := by
  induction ls with
  | nil => exact head_derived_ne_colon ss
  | cons l ls ih =>
    rw [flatMap_cons, append_assoc]
    obtain ⟨w, rest, heq, hw, -⟩ := l.exists_cons ih
    rw [heq]
    exact fun h => Word.text_ne ⟨w, hw⟩ (by decide) (some.inj h)

theorem Line.ne_derived (l : Line) (hr : r.head? ≠ some ":") (ss) :
    l.lexemes ++ r ≠ derived ss := by
  obtain ⟨w, rest, heq, hw, hrest⟩ := l.exists_cons hr
  rw [heq]
  cases ss with
  | nil => exact cons_ne_nil _ _
  | cons s ss =>
    intro hderived
    cases s with
    | exported | aligned => exact Word.text_ne ⟨w, hw⟩ (by decide) (cons.inj hderived).1
    | code x ls =>
      rw [(cons.inj hderived).2] at hrest
      exact hrest rfl

theorem lines_inj {ls ks : List Line} {ss rs}
    (h : ls.flatMap Line.lexemes ++ derived ss = ks.flatMap Line.lexemes ++ derived rs) :
    ls = ks ∧ derived ss = derived rs := by
  induction ls generalizing ks with
  | nil =>
    cases ks with
    | nil => exact ⟨rfl, h⟩
    | cons k ks =>
      rw [flatMap_cons, append_assoc] at h
      exact absurd h.symm (k.ne_derived (head_lines_ne_colon ks rs) ss)
  | cons l ls ih =>
    rw [flatMap_cons, append_assoc] at h
    cases ks with
    | nil => exact absurd h (l.ne_derived (head_lines_ne_colon ls ss) rs)
    | cons k ks =>
      rw [flatMap_cons, append_assoc] at h
      obtain ⟨rfl, hrest⟩ := Line.append_inj h
      obtain ⟨rfl, hss⟩ := ih hrest
      exact ⟨rfl, hss⟩

/-- A text has at most one derivation. -/
theorem derived_inj {ss rs} (h : derived ss = derived rs) : ss = rs := by
  induction ss generalizing rs with
  | nil =>
    cases rs with
    | nil => rfl
    | cons r rs => cases r <;> cases h
  | cons s ss ih =>
    cases rs with
    | nil => cases s <;> cases h
    | cons r rs =>
      rw [derived_cons, derived_cons] at h
      cases s with
      | exported x =>
        cases r with
        | exported y =>
          simp only [Section.lexemes, cons_append, nil_append, cons.injEq,
            true_and] at h
          rw [Word.ext h.1, ih h.2]
        | aligned n => exact absurd (cons.inj h).1 (by decide)
        | code y ls => exact absurd (cons.inj h).1.symm (y.text_ne (by decide))
      | aligned n =>
        cases r with
        | exported y => exact absurd (cons.inj h).1 (by decide)
        | aligned k =>
          simp only [Section.lexemes, cons_append, nil_append, cons.injEq,
            true_and] at h
          rw [Word.ext h.1, ih h.2]
        | code y ls => exact absurd (cons.inj h).1.symm (y.text_ne (by decide))
      | code x ls =>
        cases r with
        | exported | aligned => exact absurd (cons.inj h).1 (x.text_ne (by decide))
        | code y ks =>
          simp only [Section.lexemes, cons_append, cons.injEq, true_and] at h
          obtain ⟨rfl, hrest⟩ := lines_inj h.2
          rw [Word.ext h.1, ih hrest]

end CompilerKit.X86
