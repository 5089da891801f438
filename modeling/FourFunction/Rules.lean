import FourFunction.Calculation
import FourFunction.Grammar

/-!
# The rules, position by position

The check and the stack walk a sequence from left to right and carry what
they need to know, and the stages of a calculation write into the journal
as they go. Here the same rules are put as properties of single positions
of the whole sequence, and of a whole calculation.
-/

namespace FourFunction

/-! ## The rules of placement

`Broken kinds i fault` says that position `i` of a sequence breaks the
rule that `fault` reports, whatever happens elsewhere. An element
that is no token counts as no kind for its neighbours, as if nothing
stood there, save that only the ends of the sequence are ends. A
`Verdict` picks the first of the broken rules, and a `Ruling` is that
verdict once the length has been admitted. -/

/-- The kind at position `i`, `none` for an element that is no token and
beyond the end. -/
def kindAt (kinds : List (Option Kind)) (i : Nat) : Option Kind :=
  kinds[i]?.join

/-- The kind just before position `i`. -/
def kindBefore (kinds : List (Option Kind)) : Nat → Option Kind
  | 0 => none
  | i + 1 => kindAt kinds i

/-- How many positions from `0` to `i` hold the kind `k`. -/
def countThrough (kinds : List (Option Kind)) (k : Kind) (i : Nat) : Nat :=
  (kinds.take (i + 1)).count (some k)

inductive Broken (kinds : List (Option Kind)) (i : Nat) : Fault → Prop where
  | unknown : kinds[i]? = some none → Broken kinds i (.unknownToken i)
  | number : kindAt kinds i = some .number →
      kindBefore kinds i = some .number ∨ kindBefore kinds i = some .closing →
      Broken kinds i (.misplacedNumber i)
  | operator : kindAt kinds i = some .operator →
      i = 0 ∨ i + 1 = kinds.length ∨
        kindBefore kinds i = some .operator ∨ kindBefore kinds i = some .opening ∨
        kindAt kinds (i + 1) = some .operator ∨ kindAt kinds (i + 1) = some .closing →
      Broken kinds i (.misplacedOperator i)
  | opening : kindAt kinds i = some .opening →
      ¬ (kindAt kinds (i + 1) = some .number ∨ kindAt kinds (i + 1) = some .opening) →
      Broken kinds i (.noOperandAfterOpening i)
  | unmatched : kindAt kinds i = some .closing →
      countThrough kinds .opening i < countThrough kinds .closing i →
      Broken kinds i (.unmatchedParenthesis (some i))
  | closing : kindAt kinds i = some .closing →
      ¬ countThrough kinds .opening i < countThrough kinds .closing i →
      ¬ (kindBefore kinds i = some .number ∨ kindBefore kinds i = some .closing) →
      Broken kinds i (.noOperandBeforeClosing i)

/-- What the rules say of a whole sequence: the fault at the first
position where one is broken, or else of its parentheses. -/
inductive Verdict (kinds : List (Option Kind)) : Option Fault → Prop where
  | broken {i : Nat} {fault : Fault} : Broken kinds i fault →
      (∀ j < i, ∀ other, ¬ Broken kinds j other) → Verdict kinds (some fault)
  | unclosed : (∀ i fault, ¬ Broken kinds i fault) →
      kinds.count (some .opening) ≠ kinds.count (some .closing) →
      Verdict kinds (some (.unmatchedParenthesis none))
  | sound : (∀ i fault, ¬ Broken kinds i fault) →
      kinds.count (some .opening) = kinds.count (some .closing) → Verdict kinds none

/-- What is said of a sequence under given settings: its length comes
before anything it holds, the least length before the limit. -/
inductive Ruling (settings : Settings) (kinds : List (Option Kind)) : Option Fault → Prop where
  | tooFew : kinds.length < minTokens → Ruling settings kinds (some .tooFewTokens)
  | tooMany : minTokens ≤ kinds.length → settings.tokenLimit < kinds.length →
      Ruling settings kinds (some (.tooManyTokens settings.tokenLimit))
  | placed {verdict : Option Fault} : minTokens ≤ kinds.length →
      kinds.length ≤ settings.tokenLimit → Verdict kinds verdict → Ruling settings kinds verdict

/-! ## The rules of the stack

Whether an operator finds two values on the stack is a matter of counting:
each number before it has put a value on the stack and each operator has
taken one away. What lies on top is the value of the tree whose postorder
comes last. `Stopped ts i fault` says that position `i` of a postfix
sequence stops the stack with `fault`, if nothing before it does; a
`StackVerdict` is what the first such position says, or else the whole
sequence. -/

section Stack

variable {α : Type}

def numberCount (ts : List (Token α)) : Nat := ts.countP Token.isNumber

def operatorCount (ts : List (Token α)) : Nat := ts.countP fun t => t.operator?.isSome

variable [NumberDomain α]

/-- The tokens end with the postorder of a tree of the value `v`. -/
def OnTop (ts : List (Token α)) (v : α) : Prop :=
  ∃ (before : List (Token α)) (t : Tree α), ts = before ++ t.postorder ∧ t.value = .ok v

inductive Stopped (ts : List (Token α)) (i : Nat) : Fault → Prop where
  | openParen : ts[i]? = some .openParen → Stopped ts i (.malformedPostfix (some i))
  | closeParen : ts[i]? = some .closeParen → Stopped ts i (.malformedPostfix (some i))
  | short {o : Operator} : ts[i]? = some (.operator o) →
      numberCount (ts.take i) < operatorCount (ts.take i) + 2 →
      Stopped ts i (.malformedPostfix (some i))
  | zeroDivisor {b : α} : ts[i]? = some (.operator .divide) →
      operatorCount (ts.take i) + 2 ≤ numberCount (ts.take i) →
      OnTop (ts.take i) b → NumberDomain.isZero b = true →
      Stopped ts i .divisionByZero

/-- What is said of a postfix sequence: the value of the tree whose
postorder it is, or else the fault of the first position that stops the
stack, or else that it is no tree. -/
inductive StackVerdict (ts : List (Token α)) : Except Fault α → Prop where
  | value {t : Tree α} {v : α} : t.postorder = ts → t.value = .ok v → StackVerdict ts (.ok v)
  | stopped {i : Nat} {fault : Fault} : Stopped ts i fault →
      (∀ j < i, ∀ other, ¬ Stopped ts j other) → StackVerdict ts (.error fault)
  | leftover : (∀ i fault, ¬ Stopped ts i fault) →
      (¬ ∃ (t : Tree α) (v : α), t.postorder = ts ∧ t.value = .ok v) →
      StackVerdict ts (.error (.malformedPostfix none))

end Stack

/-! ## The rules of the journal

The lines of the journal are put together from what the stages have done:
`Journalled settings es outcome lines` says which lines belong to a
calculation of the elements `es` that came out as `outcome`. Apart from a
length that is not admitted, of which nothing is said, there is a line on
the check, and if the check accepts, a line on a threshold that had to be
ignored, one on each number that was replaced, one on the postfix order,
and one on the value, if there is one. -/

/-- The journal as it is read, each line with its level. -/
def Recorded.lines {α β : Type} [NumberDomain α] (r : Recorded α β) : List (Level × String) :=
  r.journal.map fun event => (event.level, event.line)

/-- A threshold that is not finite is ignored, and that is said if the
large-number rule is on. -/
def thresholdLines (settings : Settings) : List (Level × String) :=
  if settings.replaceLarge = true ∧ settings.threshold.isFinite = false then
    [(.debug, "rpn: seuil " ++ Double.text settings.threshold
      ++ " non représentable, normalisation ignorée")]
  else []

variable {α : Type} [NumberDomain α]

def replacementLine (r : Replacement α) : Level × String :=
  (.debug, "rpn: normalisation jeton " ++ toString r.index ++ ": " ++ NumberDomain.text r.before
    ++ " -> " ++ NumberDomain.text r.after)

/-- Only a value is worth a line, and the stack is told with it. -/
def valueLines (ts : List (Token α)) : Except Fault α → List (Level × String)
  | .ok v => [(.trace, "eval: " ++ Token.listText ts ++ " = " ++ NumberDomain.text v)]
  | .error _ => []

inductive Journalled (settings : Settings) (es : List (Element α)) :
    Except Fault α → List (Level × String) → Prop where
  | tooFew : es.length < minTokens → Journalled settings es (.error .tooFewTokens) []
  | tooMany : minTokens ≤ es.length → settings.tokenLimit < es.length →
      Journalled settings es (.error (.tooManyTokens settings.tokenLimit)) []
  | rejected {fault : Fault} : minTokens ≤ es.length → es.length ≤ settings.tokenLimit →
      firstFault (es.map Element.kind?) = some fault →
      Journalled settings es (.error fault)
        [(.debug, "validation: rejet (" ++ fault.message ++ ")")]
  | calculated {e : Expression α} {outcome : Except Fault α} :
      Expression.ofElements settings es = .ok e →
      es.map Element.classify = e.tokens.map some →
      Journalled settings es outcome
        ((.trace, "validation ok: " ++ Token.listText e.tokens) :: thresholdLines settings
          ++ (e.replacements settings).map replacementLine
          ++ (.trace, "rpn: " ++ Token.listText (e.toPostfix settings))
            :: valueLines (e.toPostfix settings) outcome)

namespace Event

def isReplaced : Event α → Bool
  | replaced _ => true
  | _ => false

def isThresholdIgnored : Event α → Bool
  | thresholdIgnored _ => true
  | _ => false

end Event

end FourFunction
