import FourFunction.Token

/-!
# Expressions

A sequence that has passed the rules of placement. An `Expression` can
only be built through the check, so whoever holds one knows that its
tokens stand where they may. The length is looked at before anything
else, first against the least length and then against the limit that
was set. Raw elements and ready-made tokens go through the same check.
-/

namespace FourFunction

/-! ## Settings

What a caller may set: whether very large numbers are replaced, from
which threshold on, and how long a sequence may be. -/

/-- No shorter sequence is looked at. -/
def minTokens : Nat := 3

structure Settings where
  replaceLarge : Bool := true
  threshold : Float := 1000
  tokenLimit : Nat := 1000000

namespace Settings

/-- A limit below the shortest admissible length is raised to it. -/
def withTokenLimit (settings : Settings) (limit : Nat) : Settings :=
  { settings with tokenLimit := max limit minTokens }

/-- The threshold as the domain has it; `none` while the rule is off, and
for a threshold that is no number of the domain. -/
def limit? (α : Type) [NumberDomain α] (settings : Settings) : Option α :=
  if settings.replaceLarge then NumberDomain.ofDouble? settings.threshold else none

/-- Whether the large-number rule is on without a limit it could use. -/
def thresholdIgnored (α : Type) [NumberDomain α] (settings : Settings) : Bool :=
  settings.replaceLarge && (NumberDomain.ofDouble? (α := α) settings.threshold).isNone

/-- A threshold is ignored just when the rule is on and yet sets no limit. -/
theorem thresholdIgnored_iff (α : Type) [NumberDomain α] {settings : Settings} :
    settings.thresholdIgnored α = true ↔
      settings.replaceLarge = true ∧ settings.limit? α = none := by
  unfold thresholdIgnored limit?
  cases settings.replaceLarge <;> simp

end Settings

/-! ## Where a token may stand

The rules of placement look at kinds only, and no further than one step
to either side: a number or a closing parenthesis *ends* an operand, a
number or an opening parenthesis *starts* one, and

 - a number must not follow the end of an operand;
 - an operator must follow the end of an operand, and what comes after
   it must start one;
 - an opening parenthesis must be followed by the start of an operand;
 - a closing parenthesis must close an open one and follow the end of an
   operand.

`firstFault` walks a sequence once with the number of parentheses that
are open, and reports the first position at which a rule is broken. A
sequence is handed in as one `Option Kind` per position, `none` for an
element that is no token. An unknown element is reported at its own
position: it does not make the operator before it wrong, but it is no
operand either, so it does make an opening parenthesis before it wrong. -/

namespace Kind

def endsOperand : Kind → Bool
  | number | closing => true
  | operator | opening => false

def startsOperand : Kind → Bool
  | number | opening => true
  | operator | closing => false

end Kind

/-- The rule broken at position `i` by a token of kind `here`, if one is.
`depth` parentheses are open to its left, `before` is the kind on its
left, and `after` the element on its right; the outer `none` is the end
of the sequence. -/
def ruleBroken (i depth : Nat) (before : Option Kind) (here : Kind)
    (after : Option (Option Kind)) : Option Fault :=
  match here with
  | .number =>
      if before.any Kind.endsOperand then some (.misplacedNumber i) else none
  | .operator =>
      if !before.any Kind.endsOperand then some (.misplacedOperator i)
      else match after with
        | none => some (.misplacedOperator i)
        | some none => none
        | some (some k) => if k.startsOperand then none else some (.misplacedOperator i)
  | .opening =>
      if after.any (·.any Kind.startsOperand) then none else some (.noOperandAfterOpening i)
  | .closing =>
      if depth = 0 then some (.unmatchedParenthesis (some i))
      else if before.any Kind.endsOperand then none
      else some (.noOperandBeforeClosing i)

/-- How many parentheses are open after a token of kind `here`. -/
def depthAfter (depth : Nat) (here : Kind) : Nat :=
  match here with
  | .opening => depth + 1
  | .closing => depth - 1
  | .number | .operator => depth

/-- The first fault from position `i` on, given the kind just before it
and the number of parentheses open there. Parentheses that are still
open at the end are a fault without a position. -/
def firstFaultFrom (i depth : Nat) (before : Option Kind) : List (Option Kind) → Option Fault
  | [] => if depth = 0 then none else some (.unmatchedParenthesis none)
  | none :: _ => some (.unknownToken i)
  | some here :: rest =>
      match ruleBroken i depth before here rest.head? with
      | some fault => some fault
      | none => firstFaultFrom (i + 1) (depthAfter depth here) (some here) rest

/-- The first fault of a whole sequence. -/
def firstFault (kinds : List (Option Kind)) : Option Fault :=
  firstFaultFrom 0 0 none kinds

/-! ### A sequence without a fault holds tokens only -/

theorem isSome_of_firstFaultFrom_eq_none {kinds : List (Option Kind)} {i depth : Nat}
    {before : Option Kind} (h : firstFaultFrom i depth before kinds = none) :
    ∀ k ∈ kinds, k.isSome := by
  induction kinds generalizing i depth before with
  | nil => intro k hk; cases hk
  | cons k rest ih =>
      cases k with
      | none => simp [firstFaultFrom] at h
      | some here =>
          simp only [firstFaultFrom] at h
          split at h
          · cases h
          · intro k hk
            rcases List.mem_cons.mp hk with rfl | hk
            · rfl
            · exact ih h k hk

theorem isSome_of_firstFault_eq_none {kinds : List (Option Kind)}
    (h : firstFault kinds = none) : ∀ k ∈ kinds, k.isSome :=
  isSome_of_firstFaultFrom_eq_none h

/-! ## The check -/

structure Expression (α : Type) [NumberDomain α] where
  tokens : List (Token α)
  minTokens_le : minTokens ≤ tokens.length
  wellPlaced : firstFault (tokens.map Token.kind?) = none

namespace Expression

variable {α : Type} [NumberDomain α]

@[ext] theorem ext {e e' : Expression α} (h : e.tokens = e'.tokens) : e = e' := by
  cases e; cases e'; cases h; rfl

/-- What stands against a sequence of `n` elements, whatever they are. -/
def lengthFault (settings : Settings) (n : Nat) : Option Fault :=
  if n < minTokens then some .tooFewTokens
  else if settings.tokenLimit < n then some (.tooManyTokens settings.tokenLimit)
  else none

theorem minTokens_le_of_lengthFault {settings : Settings} {n : Nat}
    (h : lengthFault settings n = none) : minTokens ≤ n := by
  unfold lengthFault at h
  split at h
  · cases h
  · omega

/-- The expression made of ready tokens. A number that is not finite is
no token, so it is a fault here as it is among raw elements. -/
def ofTokens (settings : Settings) (ts : List (Token α)) : Except Fault (Expression α) :=
  match long : lengthFault settings ts.length with
  | some fault => .error fault
  | none =>
      match placed : firstFault (ts.map Token.kind?) with
      | some fault => .error fault
      | none => .ok ⟨ts, minTokens_le_of_lengthFault long, placed⟩

theorem ofTokens_eq_ok_iff {settings : Settings} {ts : List (Token α)} {e : Expression α} :
    ofTokens settings ts = .ok e ↔ lengthFault settings ts.length = none ∧ e.tokens = ts := by
  unfold ofTokens
  constructor
  · intro h
    split at h
    · cases h
    · rename_i long
      split at h
      · cases h
      · cases h
        exact ⟨long, rfl⟩
  · rintro ⟨long, rfl⟩
    split
    · simp_all
    · split
      · rename_i placed
        rw [e.wellPlaced] at placed
        cases placed
      · rfl

/-- An expression passes the check it was built by once more, under any
settings that admit its length. -/
theorem ofTokens_tokens {settings : Settings} (e : Expression α)
    (h : e.tokens.length ≤ settings.tokenLimit) : ofTokens settings e.tokens = .ok e := by
  refine ofTokens_eq_ok_iff.mpr ⟨?_, rfl⟩
  have := e.minTokens_le
  unfold lengthFault
  rw [if_neg (by omega), if_neg (by omega)]

/-! ### Raw elements

Once every element is known to stand for a token, dropping those that
do not drops nothing. -/

theorem map_kind?_filterMap_classify {es : List (Element α)}
    (h : ∀ k ∈ es.map Element.kind?, k.isSome) :
    (es.filterMap Element.classify).map Token.kind? = es.map Element.kind? := by
  induction es with
  | nil => rfl
  | cons e rest ih =>
      have hrest := ih fun k hk => h k (List.mem_cons_of_mem _ hk)
      cases hc : e.classify with
      | none =>
          have := h e.kind? (List.mem_cons_self ..)
          simp [Element.kind?, hc] at this
      | some t =>
          rw [List.filterMap_cons_some hc, List.map_cons, List.map_cons, hrest,
            Element.kind?_of_classify hc]

theorem length_filterMap_classify {es : List (Element α)}
    (h : ∀ k ∈ es.map Element.kind?, k.isSome) :
    (es.filterMap Element.classify).length = es.length := by
  simpa using congrArg List.length (map_kind?_filterMap_classify h)

/-- The expression made of raw elements. -/
def ofElements (settings : Settings) (es : List (Element α)) : Except Fault (Expression α) :=
  match long : lengthFault settings es.length with
  | some fault => .error fault
  | none =>
      match placed : firstFault (es.map Element.kind?) with
      | some fault => .error fault
      | none =>
          have known := isSome_of_firstFault_eq_none placed
          .ok ⟨es.filterMap Element.classify,
            (length_filterMap_classify known).symm ▸ minTokens_le_of_lengthFault long,
            (map_kind?_filterMap_classify known).symm ▸ placed⟩

end Expression

end FourFunction
