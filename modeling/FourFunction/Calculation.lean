import FourFunction.Postfix

/-!
# Calculations

The way from a sequence to its value in three stages, each with what it
writes into the journal: the check, the change to postfix order, and the
evaluation on the stack. A calculation stops at the first stage that
fails, and its journal stops there too.
-/

namespace FourFunction

/-! ## The journal

A calculation records what it does as a list of events, in the order in
which they happen. An event carries the things themselves; its line is
only made when somebody wants to read it. -/

/-- How much attention a journal line asks for. -/
inductive Level where
  | debug
  | trace
deriving Repr, DecidableEq

inductive Event (α : Type) where
  /-- A sequence broke a rule of placement. -/
  | rejected (fault : Fault)
  /-- A sequence passed the rules of placement. -/
  | accepted (tokens : List (Token α))
  /-- The large-number rule was on, but its threshold is no number of the
  domain. -/
  | thresholdIgnored (threshold : Float)
  /-- A number was too large and another one stands in for it. -/
  | replaced (r : Replacement α)
  /-- The expression now stands in postfix order. -/
  | converted (tokens : List (Token α))
  /-- A postfix sequence has come to a value. -/
  | evaluated (tokens : List (Token α)) (value : α)

namespace Event

variable {α : Type} [NumberDomain α]

def level : Event α → Level
  | rejected _ | thresholdIgnored _ | replaced _ => .debug
  | accepted _ | converted _ | evaluated .. => .trace

/-- The journal line of an event. -/
def line : Event α → String
  | rejected fault => s!"validation: rejet ({fault.message})"
  | accepted tokens => s!"validation ok: {Token.listText tokens}"
  | thresholdIgnored threshold =>
      s!"rpn: seuil {Double.text threshold} non représentable, normalisation ignorée"
  | replaced r =>
      s!"rpn: normalisation jeton {r.index}: {NumberDomain.text r.before} -> {NumberDomain.text r.after}"
  | converted tokens => s!"rpn: {Token.listText tokens}"
  | evaluated tokens value => s!"eval: {Token.listText tokens} = {NumberDomain.text value}"

end Event

/-- What came of a calculation, with the journal it left. -/
structure Recorded (α β : Type) where
  outcome : Except Fault β
  journal : List (Event α)

namespace Recorded

variable {α β γ : Type}

/-- Goes on with what came of `r`, unless that was a fault. -/
def andThen (r : Recorded α β) (next : β → Recorded α γ) : Recorded α γ :=
  match r.outcome with
  | .ok b =>
      let later := next b
      ⟨later.outcome, r.journal ++ later.journal⟩
  | .error fault => ⟨.error fault, r.journal⟩

instance : Monad (Recorded α) where
  pure b := ⟨.ok b, []⟩
  bind := andThen

theorem pure_eq (b : β) : (pure b : Recorded α β) = ⟨.ok b, []⟩ := rfl

theorem outcome_bind (r : Recorded α β) (next : β → Recorded α γ) :
    (r >>= next).outcome = r.outcome.bind fun b => (next b).outcome := by
  rcases r with ⟨_ | b, journal⟩ <;> rfl

theorem bind_of_ok {r : Recorded α β} {b : β} (h : r.outcome = .ok b)
    (next : β → Recorded α γ) :
    r >>= next = ⟨(next b).outcome, r.journal ++ (next b).journal⟩ := by
  rcases r with ⟨outcome, journal⟩
  cases h
  rfl

theorem bind_of_error {r : Recorded α β} {fault : Fault} (h : r.outcome = .error fault)
    (next : β → Recorded α γ) : r >>= next = ⟨.error fault, r.journal⟩ := by
  rcases r with ⟨outcome, journal⟩
  cases h
  rfl

end Recorded

variable {α : Type} [NumberDomain α]

/-! ## The stages -/

/-- The journal of a check that came out as `outcome`. A fault of length
is found before the sequence is looked at, and is not journalled. -/
def recordCheck (outcome : Except Fault (Expression α)) : Recorded α (Expression α) :=
  match outcome with
  | .ok e => ⟨outcome, [.accepted e.tokens]⟩
  | .error fault => ⟨outcome, if fault.isOfLength then [] else [.rejected fault]⟩

def check (settings : Settings) (es : List (Element α)) : Recorded α (Expression α) :=
  recordCheck (Expression.ofElements settings es)

def checkTokens (settings : Settings) (ts : List (Token α)) : Recorded α (Expression α) :=
  recordCheck (Expression.ofTokens settings ts)

/-- The postfix tokens of an expression; cannot fail. -/
def convert (settings : Settings) (e : Expression α) : Recorded α (List (Token α)) :=
  let tokens := e.toPostfix settings
  let threshold := if settings.thresholdIgnored α then [.thresholdIgnored settings.threshold] else []
  ⟨.ok tokens, threshold ++ (e.replacements settings).map .replaced ++ [.converted tokens]⟩

/-- The value of postfix tokens. Only a success is journalled. -/
def reduce (ts : List (Token α)) : Recorded α α :=
  match evaluatePostfix ts with
  | .ok v => ⟨.ok v, [.evaluated ts v]⟩
  | .error fault => ⟨.error fault, []⟩

/-! ## The calculator -/

/-- The value of raw elements. -/
def evaluateWith (settings : Settings) (es : List (Element α)) : Recorded α α := do
  let e ← check settings es
  let tokens ← convert settings e
  reduce tokens

/-- The value of raw elements under the settings nobody has changed. -/
def evaluate (es : List (Element α)) : Recorded α α :=
  evaluateWith {} es

/-- The value of ready tokens. -/
def evaluateTokens (settings : Settings) (ts : List (Token α)) : Recorded α α := do
  let e ← checkTokens settings ts
  let tokens ← convert settings e
  reduce tokens

/-! ## Outcomes

The journal aside, a calculation is its three stages one after the
other, whichever way it is asked for. -/

theorem outcome_check (settings : Settings) (es : List (Element α)) :
    (check settings es).outcome = Expression.ofElements settings es := by
  unfold check recordCheck
  split <;> simp_all

theorem outcome_checkTokens (settings : Settings) (ts : List (Token α)) :
    (checkTokens settings ts).outcome = Expression.ofTokens settings ts := by
  unfold checkTokens recordCheck
  split <;> simp_all

theorem outcome_reduce (ts : List (Token α)) : (reduce ts).outcome = evaluatePostfix ts := by
  unfold reduce
  split <;> simp_all

theorem outcome_evaluateWith (settings : Settings) (es : List (Element α)) :
    (evaluateWith settings es).outcome =
      (Expression.ofElements settings es).bind fun e => evaluatePostfix (e.toPostfix settings) := by
  simp only [evaluateWith, Recorded.outcome_bind, outcome_check, outcome_reduce]
  rfl

theorem outcome_evaluateTokens (settings : Settings) (ts : List (Token α)) :
    (evaluateTokens settings ts).outcome =
      (Expression.ofTokens settings ts).bind fun e => evaluatePostfix (e.toPostfix settings) := by
  simp only [evaluateTokens, Recorded.outcome_bind, outcome_checkTokens, outcome_reduce]
  rfl

/-! ## Working -/

/-- A calculation written out: what was read, its postfix order, the
numbers that were replaced, and the value. -/
structure Working (α : Type) where
  value : α
  expressionText : String
  postfixText : String
  replacements : List (Replacement α)

/-- The value of raw elements with its working. -/
def evaluateWithWorking (settings : Settings) (es : List (Element α)) : Recorded α (Working α) := do
  let e ← check settings es
  let tokens ← convert settings e
  let value ← reduce tokens
  pure {
    value
    expressionText := Token.listText e.tokens
    postfixText := Token.listText tokens
    replacements := e.replacements settings }

/-- The working is that of the calculation without it. -/
theorem outcome_evaluateWithWorking (settings : Settings) (es : List (Element α)) :
    (evaluateWithWorking settings es).outcome =
      (Expression.ofElements settings es).bind fun e =>
        (evaluatePostfix (e.toPostfix settings)).map fun value => {
          value
          expressionText := Token.listText e.tokens
          postfixText := Token.listText (e.toPostfix settings)
          replacements := e.replacements settings } := by
  simp only [evaluateWithWorking, Recorded.outcome_bind, outcome_check, outcome_reduce]
  rfl

/-- A working is written down of one accepted expression and its value. -/
theorem exists_of_outcome_evaluateWithWorking {settings : Settings} {es : List (Element α)}
    {w : Working α} (h : (evaluateWithWorking settings es).outcome = .ok w) :
    ∃ e value, Expression.ofElements settings es = .ok e
      ∧ evaluatePostfix (e.toPostfix settings) = .ok value
      ∧ w = {
          value
          expressionText := Token.listText e.tokens
          postfixText := Token.listText (e.toPostfix settings)
          replacements := e.replacements settings } := by
  rw [outcome_evaluateWithWorking] at h
  cases he : Expression.ofElements settings es with
  | error fault =>
      rw [he] at h
      cases h
  | ok e =>
      rw [he] at h
      cases hv : evaluatePostfix (e.toPostfix settings) with
      | error fault =>
          simp only [Except.bind, hv] at h
          cases h
      | ok v =>
          simp only [Except.bind, hv] at h
          cases h
          exact ⟨e, v, rfl, hv, rfl⟩

end FourFunction
