import CompilerKit.Proofs.X86.Derivation
import CompilerKit.Proofs.X86.Straight

/-!
# The written forms of programs

The written form of a program whose instructions and operands the grammar names has a derivation,
line by line.
-/

namespace CompilerKit.X86

open List Bool Instr Nat Text

variable {s w : String} {ind : Nat} {n : Nat} {k : Int}

/-! ## Numerals -/

theorem digitValue?_of_isDigit (h : c.isDigit) : digitValue? c = some (c.toNat - '0'.toNat) := by
  obtain ⟨hlow, hhigh⟩ := toNat_of_isDigit h
  unfold digitValue?
  rw [if_pos (by omega), if_pos (by simp [hlow, hhigh])]
  rfl

theorem isBlank_of_isDigit (h : c.isDigit) : isBlank c = false := by
  obtain ⟨hlow, hhigh⟩ := toNat_of_isDigit h
  unfold isBlank
  rw [if_pos (by omega)]
  simp
  omega

theorem readDigits?_of_isDigit (h : ∀ c ∈ cs, c.isDigit) (value count)
    (hcount : cs ≠ [] ∨ 0 < count) :
    readDigits? cs value count = some (ofDigitChars 10 cs value, count + cs.length) := by
  induction cs generalizing value count with
  | nil =>
    cases count with
    | zero => simp at hcount
    | succ count => rfl
  | cons c cs ih =>
    rw [forall_mem_cons] at h
    have hstep : readDigits? (c :: cs) value count =
        (digitValue? c).bind fun d => readDigits? cs (value * 10 + d) (count + 1) := by
      rw [readDigits?.eq_4]
      rintro d rest rfl -
      exact absurd h.1 (by decide)
    rw [hstep, digitValue?_of_isDigit h.1, Option.bind_some, ih h.2 _ _ (.inr (succ_pos _)),
      ofDigitChars_cons, Nat.mul_comm, length_cons]
    congr 2
    omega

theorem trimBlanks_of_isDigit (h : ∀ c ∈ cs, c.isDigit) : trimBlanks cs = cs := by
  have hdrop {ds : List Char} (hds : ∀ c ∈ ds, c.isDigit) : ds.dropWhile isBlank = ds := by
    cases ds with
    | nil => rfl
    | cons d ds =>
      rw [dropWhile_cons, isBlank_of_isDigit (hds d mem_cons_self)]
      rfl
  rw [trimBlanks, hdrop h, hdrop, reverse_reverse]
  exact fun c hc => h c (mem_reverse.mp hc)

theorem isDigit_of_mem_toDigits : ∀ c ∈ Nat.toDigits 10 n, c.isDigit :=
  fun _ hc => Nat.isDigit_of_mem_toDigits (by decide) (by decide) hc

theorem isDigits_toString (n : Nat) : isDigits (toString n) := by
  rw [isDigits, toString_eq_ofList_toDigits, and_eq_true, String.toList_ofList, all_eq_true]
  refine ⟨?_, isDigit_of_mem_toDigits⟩
  simp

theorem readInt?_toString (hn : (toString n).length ≤ maxDigits) :
    readInt? (toString n) = some (n : Int) := by
  rw [toString_eq_ofList_toDigits, String.length_ofList] at hn
  have hread : readNat? (toDigits 10 n) = some n := by
    rw [readNat?, readDigits?_of_isDigit isDigit_of_mem_toDigits 0 0
      (.inl toDigits_ne_nil), Option.bind_some, ofDigitChars_ten_toDigits, Nat.zero_add]
    exact if_pos hn
  rw [readInt?, toString_eq_ofList_toDigits, String.toList_ofList,
    trimBlanks_of_isDigit isDigit_of_mem_toDigits]
  split
  · next heq => exact absurd (isDigit_of_mem_toDigits '-' (by rw [heq]; simp)) (by decide)
  · next heq => exact absurd (isDigit_of_mem_toDigits '+' (by rw [heq]; simp)) (by decide)
  · rw [hread]
    rfl

theorem decimal_eq (h : decimal k = .ok s) :
    (toString k.natAbs).length ≤ maxDigits ∧
      s = if k < 0 then "-" ++ toString k.natAbs else toString k.natAbs := by
  unfold decimal at h
  split at h
  · next hlt =>
    cases h
    constructor
    · rw [Nat.toString_eq_ofList_toDigits, String.length_ofList]
      refine Nat.le_trans ((length_toDigits_le_iff (k := 20) (by decide) (by decide)).mpr ?_)
        (by decide)
      exact hlt
    · cases k with
      | ofNat n => rfl
      | negSucc n =>
        rw [if_pos (Int.negSucc_lt_zero n)]
        rfl
  · by_cases hlength : (toString k.natAbs).length ≤ maxDigits
    · rw [if_pos hlength] at h
      cases h
      exact ⟨hlength, rfl⟩
    · rw [if_neg hlength] at h
      cases h

/-! ## The written forms of operands -/

/-- The operands of the grammar that code without variables has. -/
def Operand.isNamed : Operand → Bool
  | .immediate (.scalar (.int _)) => true
  | .reg r => registerNames.contains r
  | .deref r (.scalar (.int _)) => registerNames.contains r
  | _ => false

/-- The atom that a number is written as. -/
inductive IntAtom : Int → Atom → Prop where
  | nonneg {k : Int} (hk : 0 ≤ k) (n : Word isDigits) (hn : readInt? n.text = some k) :
      IntAtom k (.number n)
  | neg {k : Int} (hk : k < 0) (n : Word isDigits) : IntAtom k (.neg (.number n))

/-- The derivation of the written form of an operand. -/
inductive Operand.Derives : Operand → Arg → Prop where
  | immediate {k : Int} {a} (ha : IntAtom k a) : Derives (.immediate (.int k)) (.int a)
  | reg (r) : Derives (.reg r.text) (.reg r)
  | deref {k : Int} {a} (ha : IntAtom k a) (r) : Derives (.deref r.text (.int k)) (.mem a r)

theorem isWordChar_of_isDigit (h : c.isDigit) : isWordChar c := by
  simp [isWordChar, Char.isAlphanum, h]

theorem isWord_of_isDigits (h : isDigits w) : isWord w := by
  rw [isDigits, and_eq_true, all_eq_true] at h
  rw [isWord, and_eq_true, all_eq_true]
  exact ⟨h.1, fun c hc => isWordChar_of_isDigit (h.2 c hc)⟩

theorem isWord_of_isName (h : isName w) : isWord w := by
  have hchar {c : Char} (hc : (c.isAlphanum || c == '_')) : isWordChar c := by
    rw [isWordChar, hc]
    rfl
  unfold isName at h
  split at h
  · cases h
  · next c cs hw =>
    rw [and_eq_true, all_eq_true] at h
    have hc : (c.isAlphanum || c == '_') := by
      have hfirst := h.1
      simp only [Char.isAlphanum, or_eq_true] at hfirst ⊢
      rcases hfirst with halpha | hline
      · exact .inl (.inl halpha)
      · exact .inr hline
    have hne : w ≠ "" := by
      rintro rfl
      cases hw
    rw [isWord, and_eq_true, bne_iff_ne, all_eq_true, hw, forall_mem_cons]
    exact ⟨hne, hchar hc, fun d hd => hchar (h.2 d hd)⟩

theorem isWord_of_contains {names : List String} (hnames : names.all isWord)
    (h : names.contains w) : isWord w :=
  all_eq_true.mp hnames w (contains_iff_mem.mp h)

theorem exists_intAtom (h : decimal k = .ok s) :
    ∃ a, IntAtom k a ∧
      ∀ rest, Opens rest → lexemes (s.toList ++ rest) = a.lexemes ++ lexemes rest := by
  obtain ⟨hlength, hs⟩ := decimal_eq h
  have hread := readInt?_toString hlength
  let n : Word isDigits := ⟨toString k.natAbs, isDigits_toString _⟩
  by_cases hk : k < 0
  · rw [if_pos hk] at hs
    subst hs
    refine ⟨_, .neg hk n, fun rest hrest => ?_⟩
    rw [String.toList_append]
    exact (lexemes_sign (by decide) (by decide) _).trans
      (congrArg ("-" :: ·) (lexemes_word (isWord_of_isDigits n.isOf) hrest))
  · rw [if_neg hk] at hs
    subst hs
    refine ⟨_, .nonneg (by omega) n (hread.trans ?_), fun rest hrest =>
      lexemes_word (isWord_of_isDigits n.isOf) hrest⟩
    rw [Int.natAbs_of_nonneg (by omega)]

theorem registerNames_isWord : registerNames.all isWord := by decide

theorem lexemes_base (r : Word registerNames.contains) (rest : List Char) :
    lexemes ("(%".toList ++ (r.text.toList ++ (")".toList ++ rest))) =
      "(" :: "%" :: r.text :: ")" :: lexemes rest := by
  have hword := isWord_of_contains registerNames_isWord r.isOf
  have hopens : Opens (')' :: rest) := fun c hc => by cases hc; rfl
  refine (lexemes_sign (by decide) (by decide) _).trans (congrArg ("(" :: ·) ?_)
  refine (lexemes_sign (by decide) (by decide) _).trans (congrArg ("%" :: ·) ?_)
  refine (lexemes_word hword hopens).trans (congrArg (r.text :: ·) ?_)
  exact lexemes_sign (by decide) (by decide) _

theorem printedAt_ok {α : Type} {x : Except Fault α} {a : α} (h : printedAt ind x = .ok a) :
    x = .ok a := by
  cases x with
  | ok b =>
    cases h
    rfl
  | error f => cases h

theorem exists_arg {a : Operand} (ha : a.isNamed) (hw : a.toTerm.text ind = .ok w) :
    ∃ g, a.Derives g ∧
      ∀ rest, Opens rest → lexemes (w.toList ++ rest) = g.lexemes ++ lexemes rest := by
  unfold Operand.isNamed at ha
  split at ha
  · next k =>
    obtain ⟨_, ⟨⟩, _, hv, rfl⟩ :=
      weave_cons_ok.mp (show weave ind ["$", (Term.int k).form] = .ok w from hw)
    obtain ⟨s, hs, _, ⟨⟩, rfl⟩ := weave_cons_ok.mp hv
    obtain ⟨b, hb, hlex⟩ := exists_intAtom (printedAt_ok hs)
    refine ⟨_, .immediate hb, fun rest hrest => ?_⟩
    rw [String.append_empty, String.toList_append]
    exact (lexemes_sign (by decide) (by decide) _).trans (congrArg ("$" :: ·) (hlex rest hrest))
  · next r =>
    cases hw
    refine ⟨_, .reg ⟨r, ha⟩, fun rest hrest => ?_⟩
    rw [String.append_empty, String.toList_append]
    exact (lexemes_sign (by decide) (by decide) _).trans
      (congrArg ("%" :: ·) (lexemes_word (isWord_of_contains registerNames_isWord ha) hrest))
  · next r k =>
    obtain ⟨s, hs, _, ⟨⟩, rfl⟩ := weave_cons_ok.mp
      (show weave ind [(Term.int k).form, "(%", .raw (Term.str r).form, ")"] = .ok w from hw)
    obtain ⟨b, hb, hlex⟩ := exists_intAtom (printedAt_ok hs)
    refine ⟨_, .deref hb ⟨r, ha⟩, fun rest _ => ?_⟩
    simp only [String.toList_append, append_assoc]
    rw [hlex _ fun c hc => by cases hc; rfl, Arg.lexemes, append_assoc]
    exact congrArg (b.lexemes ++ ·) (lexemes_base ⟨r, ha⟩ rest)
  · cases ha

/-! ## The written forms of instructions -/

/-- The instructions of straight code and jumps, over operands of the grammar. -/
def Instr.isNamed : Instr → Bool
  | .op name args =>
    (["movq", "addq", "subq", "xorq", "cmpq"].contains name && args.length == 2 ||
      ["negq", "pushq", "popq"].contains name && args.length == 1) && args.all Operand.isNamed
  | .call l _ => isName l
  | .jump l => isName l
  | _ => false

/-- The derivation of the written form of an instruction. -/
inductive Instr.Derives : Instr → Line → Prop where
  | pair (op) {a b g h} (hop : op.text ∈ ["movq", "addq", "subq", "xorq", "cmpq"])
      (ha : a.Derives g) (hb : b.Derives h) : Derives (.op op.text [a, b]) (.pair op g h)
  | single (op) {a g} (hop : op.text ∈ ["negq", "pushq", "popq"]) (ha : a.Derives g) :
      Derives (.op op.text [a]) (.single op g)
  | call (x) (k : Term) : Derives (.call x.text k) (.label ⟨"callq", rfl⟩ x)
  | jump (x) : Derives (.jump x.text) (.label ⟨"jmp", rfl⟩ x)

theorem lexemes_instruction (hname : isWord name) (ind rest) :
    lexemes ((blanks ind).toList ++ (name.toList ++ (" ".toList ++ rest))) =
      name :: lexemes rest := by
  have hopens : Opens (' ' :: rest) := fun c hc => by cases hc; rfl
  rw [lexemes_blanks]
  exact (lexemes_word hname hopens).trans (congrArg (name :: ·) (lexemes_blank rfl rest))

theorem opens_newline (rest) : Opens ("\n".toList ++ rest) := fun c hc => by cases hc; rfl

theorem lexemes_newline (rest) : lexemes ("\n".toList ++ rest) = lexemes rest :=
  lexemes_blank rfl rest

theorem opens_comma (rest) : Opens (", ".toList ++ rest) := fun c hc => by cases hc; rfl

theorem lexemes_comma (rest) : lexemes (", ".toList ++ rest) = "," :: lexemes rest :=
  (lexemes_sign (by decide) (by decide) _).trans (congrArg ("," :: ·) (lexemes_blank rfl rest))

theorem lexemes_label {l} (hname : isWord name) (hl : isName l) (ind rest) :
    lexemes ((blanks ind ++ (name ++ " " ++ (l ++ "\n"))).toList ++ rest) =
      name :: l :: lexemes rest := by
  simp only [String.toList_append, append_assoc]
  rw [lexemes_instruction hname, lexemes_word (isWord_of_isName hl) (opens_newline rest),
    lexemes_newline]

theorem exists_line_op {args} (hi : (Instr.op name args).isNamed)
    (hw : (Instr.op name args).toTerm.text ind = .ok w) :
    ∃ ln, (Instr.op name args).Derives ln ∧
      ∀ rest, lexemes (w.toList ++ rest) = ln.lexemes ++ lexemes rest := by
  obtain ⟨_, ⟨⟩, _, h₁, rfl⟩ := weave_cons_ok.mp
    (show weave ind [blanks ind, .raw (Term.str name).form,
    " ", .items ", " (Term.list (args.map Operand.toTerm)).form, "\n"] = .ok w from hw)
  obtain ⟨_, ⟨⟩, _, h₂, rfl⟩ := weave_cons_ok.mp h₁
  obtain ⟨_, ⟨⟩, _, h₃, rfl⟩ := weave_cons_ok.mp h₂
  obtain ⟨_, hitems, _, ⟨⟩, rfl⟩ := weave_cons_ok.mp h₃
  obtain ⟨ws, hws, ⟨⟩⟩ := ok_of_bind
    (show (Form.texts ind (Term.forms (args.map Operand.toTerm)) >>=
    fun ws => .ok (", ".intercalate ws)) = .ok _ from hitems)
  simp only [isNamed, Bool.and_eq_true, Bool.or_eq_true, beq_iff_eq, List.contains_iff_mem] at hi
  obtain ⟨⟨hname, hlength⟩ | ⟨hname, hlength⟩, hargs⟩ := hi
  · obtain ⟨a, b, rfl⟩ := length_eq_two.mp hlength
    simp only [List.all_cons, all_nil, Bool.and_true, Bool.and_eq_true] at hargs
    obtain ⟨s, hs, hws⟩ := ok_of_bind hws
    obtain ⟨us, hus, hws⟩ := ok_of_bind hws
    obtain ⟨t, ht, hus⟩ := ok_of_bind hus
    cases hus
    cases hws
    obtain ⟨g, hg, hlexa⟩ := exists_arg hargs.1 hs
    obtain ⟨h, hh, hlexb⟩ := exists_arg hargs.2 ht
    have hpair : pairNames.contains name := List.all_eq_true.mp (by decide) name hname
    refine ⟨_, .pair ⟨name, hpair⟩ hname hg hh, fun rest => ?_⟩
    simp only [String.intercalate_cons_cons, String.intercalate_singleton, String.append_empty,
      String.toList_append, List.append_assoc]
    rw [lexemes_instruction (isWord_of_contains (by decide) hpair), hlexa _ (opens_comma _),
      lexemes_comma, hlexb _ (opens_newline rest), lexemes_newline]
    simp [Line.lexemes]
  · obtain ⟨a, rfl⟩ := length_eq_one_iff.mp hlength
    simp only [List.all_cons, all_nil, Bool.and_true] at hargs
    obtain ⟨s, hs, hws⟩ := ok_of_bind hws
    cases hws
    obtain ⟨g, hg, hlex⟩ := exists_arg hargs hs
    have hsingle : singleNames.contains name :=
      List.all_eq_true.mp (by decide)
        name hname
    refine ⟨_, .single ⟨name, hsingle⟩ hname hg, fun rest => ?_⟩
    simp only [String.intercalate_singleton, String.append_empty, String.toList_append,
      List.append_assoc]
    rw [lexemes_instruction (isWord_of_contains (by decide) hsingle), hlex _ (opens_newline rest),
      lexemes_newline]
    rfl

theorem exists_line {i : Instr} (hi : i.isNamed) (hw : i.toTerm.text ind = .ok w) :
    ∃ ln, i.Derives ln ∧ ∀ rest, lexemes (w.toList ++ rest) = ln.lexemes ++ lexemes rest := by
  cases i with
  | op name args => exact exists_line_op hi hw
  | call l k =>
    cases hw
    refine ⟨_, .call ⟨l, hi⟩ k, ?_⟩
    exact lexemes_label (show isWord "callq" by decide) hi ind
  | jump l =>
    cases hw
    refine ⟨_, .jump ⟨l, hi⟩, ?_⟩
    exact lexemes_label (show isWord "jmp" by decide) hi ind
  | _ => cases hi

theorem exists_lines (his : is.all isNamed) {ws}
    (hws : Form.texts ind (Term.forms (is.map toTerm)) = .ok ws) :
    ∃ ls, Forall₂ Derives is ls ∧ ∀ rest,
      lexemes ((String.join ws).toList ++ rest) = ls.flatMap Line.lexemes ++ lexemes rest := by
  induction is generalizing ws with
  | nil =>
    cases hws
    exact ⟨[], .nil, fun rest => rfl⟩
  | cons i is ih =>
    rw [all_cons, and_eq_true] at his
    obtain ⟨w, hw, hws⟩ := ok_of_bind hws
    obtain ⟨us, hus, hws⟩ := ok_of_bind hws
    cases hws
    obtain ⟨l, hl, hlex⟩ := exists_line his.1 hw
    obtain ⟨ls, hls, hrest⟩ := ih his.2 hus
    refine ⟨l :: ls, .cons hl hls, fun rest => ?_⟩
    rw [String.join_cons, String.toList_append, append_assoc, hlex, hrest,
      flatMap_cons, append_assoc]

/-! ## The written forms of programs -/

/-- The parts of the written form of a program with one block. -/
def mainSections (ls : List Line) : List Section :=
  [.exported ⟨"main", by decide⟩, .code ⟨"main", by decide⟩ ls]

theorem exists_sections (his : is.all isNamed) {k}
    (hs : (Assembly.toTerm { code := .flat is, stackSpace := k }).text ind = .ok s) :
    ∃ ls, Forall₂ Derives is ls ∧ lexemes s.toList = derived (mainSections ls) := by
  obtain ⟨u, hu, hs⟩ := ok_of_bind
    (show ((Form.texts (ind + 2) (Term.forms (is.map toTerm)) >>= fun ws =>
        Except.ok (String.join ws)) >>= fun u =>
      Except.ok ("\t.globl main\nmain:\n" ++ u ++ "\n")) = .ok s from hs)
  obtain ⟨ws, hws, hu⟩ := ok_of_bind hu
  cases hu
  cases hs
  obtain ⟨ls, hls, hlex⟩ := exists_lines his hws
  refine ⟨ls, hls, ?_⟩
  have hend : lexemes "\n".toList = [] := rfl
  have hhead (cs : List Char) : lexemes ("\t.globl main\nmain:\n".toList ++ cs) =
      ".globl" :: "main" :: "main" :: ":" :: lexemes cs := rfl
  simp only [String.toList_append, append_assoc]
  rw [hhead, hlex, hend]
  simp [derived, mainSections, Section.lexemes]

end CompilerKit.X86
