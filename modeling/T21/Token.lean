import T21.Fault
import T21.Text

/-!
# Tokens

A source line is cut into words, commas and label marks; the text after the first `#` is a comment.
-/

namespace T21

inductive Token where
  /-- A word with a colon directly after it. -/
  | label (name : String)
  | word (text : String)
  /-- A decimal number of one to three digits, perhaps negative. -/
  | num (value : Int)
  | comma
  | comment (text : String)
  deriving DecidableEq, Repr

namespace Token

def text : Token → String
  | label name => "label `" ++ name ++ ":`"
  | word w => "`" ++ w ++ "`"
  | num v => "literal `" ++ toString v ++ "`"
  | comma => "`,`"
  | comment _ => "comment"

def digitsValue (ds : List Char) : Nat :=
  ds.foldl (fun n d => 10 * n + (d.toNat - '0'.toNat)) 0

def natural? (ds : List Char) : Option Nat :=
  if ds ≠ [] ∧ ds.length ≤ 3 ∧ ds.all Char.isDigit then some (digitsValue ds) else none

/-- A number has one to three digits and perhaps a minus sign in front, and no plus sign. -/
def number? (run : List Char) : Option Int :=
  if run.head? = some '-' then (natural? run.tail).map fun n => -(n : Int)
  else (natural? run).map fun n => (n : Int)

def ofRun (run : List Char) : Token :=
  match number? run with
  | some v => num v
  | none => word (String.ofList run)

def isWordChar (c : Char) : Bool :=
  !(c == ':' || c == ',' || Text.isBlank c)

/-- The tokens of a line without a comment. A colon closes the word before it into a label; one that
closes nothing is an error. -/
def scanCode : List Char → Except LineError (List Token)
  | [] => .ok []
  | c :: cs =>
    if c = ':' then .error .strayColon
    else if c = ',' then (comma :: ·) <$> scanCode cs
    else if Text.isBlank c then scanCode cs
    else
      let run := c :: cs.takeWhile isWordChar
      let rest := cs.dropWhile isWordChar
      if rest.head? = some ':' then (label (String.ofList run) :: ·) <$> scanCode rest.tail
      else (ofRun run :: ·) <$> scanCode rest
termination_by cs => cs.length
decreasing_by
  all_goals
    have := (List.dropWhile_suffix isWordChar (l := cs)).length_le
    grind

def scanComment (line : List Char) : List Token :=
  match line.dropWhile (· ≠ '#') with
  | _ :: text => [comment (String.ofList text)]
  | [] => []

def scan (line : List Char) : Except LineError (List Token) :=
  (· ++ scanComment line) <$> scanCode (line.takeWhile (· ≠ '#'))

end Token

end T21
