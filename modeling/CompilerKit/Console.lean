import CompilerKit.Text.Charset
import CompilerKit.Word
import CompilerKit.Fault

/-!
# Console

The text that a run reads and the text that it has written.
-/

namespace CompilerKit

structure Console where
  input : List Char := []
  output : String := ""

namespace Console

def ofInput (s : String) : Console := { input := s.toList }

/-- The next line and the console after it; none at the end of the input. -/
def readLine? (c : Console) : Option (String × Console) :=
  match c.input with
  | [] => none
  | cs =>
    let line := cs.takeWhile (· ≠ '\n')
    some (String.ofList line, { c with input := cs.drop (line.length + 1) })

/-- Read the next line as a number and clamp it to a word. -/
def readInt (c : Console) : Except Fault Int × Console :=
  match c.readLine? with
  | none => (.error .endOfInput, c)
  | some (line, rest) => match Text.readInt? line with
    | none => (.error .wrongValue, rest)
    | some n => (.ok (Word.clamp n), rest)

def write (c : Console) (s : String) : Console := { c with output := c.output ++ s }

theorem readInt_congr {c d : Console} (h : d.input = c.input) :
    d.readInt = (c.readInt.1, { d with input := c.readInt.2.input }) := by
  obtain ⟨input, output⟩ := c
  obtain ⟨input', output'⟩ := d
  obtain rfl : input' = input := h
  unfold readInt readLine?
  cases input' with
  | nil => rfl
  | cons a as =>
    dsimp only
    split <;> rfl

/-- Whatever number is on the line, the one that is read is a word. -/
theorem inRange_readInt {c c' : Console} {n : Int} (h : c.readInt = (.ok n, c')) :
    Word.inRange n := by
  rw [readInt] at h
  split at h
  · cases h
  · split at h
    · cases h
    · cases h
      exact Word.inRange_clamp _

end Console

/-- The fresh name number `n` for a base name: what stands before its first point, and the
number. -/
def freshName (base : String) (n : Nat) : String :=
  String.ofList (base.toList.takeWhile (· ≠ '.')) ++ "." ++ toString n

theorem freshName_inj {base : String} {k l : Nat} (h : freshName base k = freshName base l) :
    k = l := by
  have hlist := congrArg String.toList h
  simp only [freshName, String.toList_append, List.append_cancel_left_eq,
    Nat.toString_eq_ofList_toDigits, String.toList_ofList] at hlist
  have hread := congrArg (Nat.ofDigitChars 10 · 0) hlist
  simpa only [Nat.ofDigitChars_ten_toDigits] using hread

end CompilerKit
