import FourFunction.Arithmetic

/-!
# Tokens and their kinds

A token is a number, an operator or a parenthesis. Whether a token may
stand where it stands depends only on its `Kind` and those of its
neighbours; a number that is not finite has no kind, so it can stand
nowhere.
-/

namespace FourFunction

inductive Kind where
  | number
  | operator
  | opening
  | closing
deriving Repr, DecidableEq

inductive Token (α : Type) where
  | number (x : α)
  | operator (o : Operator)
  | openParen
  | closeParen
deriving Repr, DecidableEq

namespace Token

variable {α : Type}

def kind : Token α → Kind
  | number _ => .number
  | operator _ => .operator
  | openParen => .opening
  | closeParen => .closing

def isNumber : Token α → Bool
  | number _ => true
  | _ => false

def operator? : Token α → Option Operator
  | operator o => some o
  | _ => none

/-- The token a symbol is written for. The text has to be the symbol and
nothing else: no blanks around it, no second sign. -/
def ofSymbol? : String → Option (Token α)
  | "+" => some (operator .plus)
  | "-" => some (operator .minus)
  | "*" => some (operator .times)
  | "/" => some (operator .divide)
  | "(" => some openParen
  | ")" => some closeParen
  | _ => none

variable [NumberDomain α]

/-- The kind a token counts as, `none` for a number that is not finite. -/
def kind? : Token α → Option Kind
  | number x => if NumberDomain.isFinite x then some .number else none
  | t => some t.kind

def text : Token α → String
  | number x => NumberDomain.text x
  | operator o => o.symbol
  | openParen => "("
  | closeParen => ")"

/-- The texts of the tokens, one space between neighbours. -/
def listText (ts : List (Token α)) : String :=
  " ".intercalate (ts.map text)

end Token

/-! ## Raw elements

What a caller hands in before anything is known about it: numbers, and
texts that may or may not be symbols. `classify` turns an element into
the token it stands for; `ofToken` writes a token back as an element. -/

inductive Element (α : Type) where
  | number (x : α)
  | symbol (text : String)
deriving Repr, DecidableEq

namespace Element

variable {α : Type}

def ofToken : Token α → Element α
  | .number x => number x
  | .operator o => symbol o.symbol
  | .openParen => symbol "("
  | .closeParen => symbol ")"

variable [NumberDomain α]

/-- The token an element stands for: a finite number, or one of the six
symbols; `none` for everything else. -/
def classify : Element α → Option (Token α)
  | number x => if NumberDomain.isFinite x then some (.number x) else none
  | symbol s => Token.ofSymbol? s

def kind? (e : Element α) : Option Kind :=
  e.classify.map Token.kind

theorem kind?_of_classify {e : Element α} {t : Token α} (h : e.classify = some t) :
    t.kind? = e.kind? := by
  cases e with
  | number x =>
      by_cases hx : NumberDomain.isFinite x = true
      · simp only [classify, hx, if_true, Option.some.injEq] at h
        subst h
        simp [kind?, classify, Token.kind?, Token.kind, hx]
      · simp [classify, hx] at h
  | symbol s =>
      simp only [kind?, h, Option.map_some]
      simp only [classify, Token.ofSymbol?] at h
      split at h <;> first | (cases h; rfl) | cases h

/-- A token written as an element is read back as itself, unless it is a
number that is not finite. -/
theorem kind?_ofToken (t : Token α) : (ofToken t).kind? = t.kind? := by
  cases t with
  | number x =>
      by_cases hx : NumberDomain.isFinite x = true <;>
        simp [ofToken, kind?, classify, Token.kind?, Token.kind, hx]
  | operator o => cases o <;> rfl
  | openParen => rfl
  | closeParen => rfl

end Element

end FourFunction
