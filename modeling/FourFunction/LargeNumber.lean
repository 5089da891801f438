import FourFunction.Expression

/-!
# The large-number rule

A number beyond the limit is not calculated with. What stands in for it
depends on its neighbours, so that the number leaves no mark on the
result: nothing is added or subtracted, a factor or a divisor becomes
one, and a dividend is replaced by the square of its divisor, of which
the division then leaves the divisor itself.

Neighbours are always taken as they stand in the sequence, never as the
rule has replaced them; that makes the rule a map over the `Context` of
each token, and the order in which positions are visited irrelevant.
-/

namespace FourFunction

/-- A token with what stands around it: one token to the left, two to the
right. -/
structure Context (α : Type) where
  before : Option (Token α)
  here : Token α
  after : Option (Token α)
  afterNext : Option (Token α)

/-- A number that the rule has replaced, and where. -/
structure Replacement (α : Type) where
  index : Nat
  before : α
  after : α

namespace Context

variable {α : Type}

/-- The contexts of the tokens still to come, put after those in `done`,
which are kept latest first. -/
def collect (done : List (Context α)) (before : Option (Token α)) :
    List (Token α) → List (Context α)
  | [] => done.reverse
  | t :: rest => collect (⟨before, t, rest[0]?, rest[1]?⟩ :: done) (some t) rest

/-- Every token of a sequence in its context, in order. -/
def ofTokens (ts : List (Token α)) : List (Context α) :=
  collect [] none ts

theorem collect_eq_append (done : List (Context α)) (before : Option (Token α))
    (ts : List (Token α)) : collect done before ts = done.reverse ++ collect [] before ts := by
  induction ts generalizing done before with
  | nil => simp [collect]
  | cons t rest ih =>
      simp only [collect]
      rw [ih, ih [_]]
      simp

@[simp] theorem collect_nil (before : Option (Token α)) : collect [] before [] = [] := rfl

@[simp] theorem collect_cons (before : Option (Token α)) (t : Token α) (ts : List (Token α)) :
    collect [] before (t :: ts) = ⟨before, t, ts[0]?, ts[1]?⟩ :: collect [] (some t) ts := by
  rw [collect, collect_eq_append]
  rfl

theorem getElem?_collect (before : Option (Token α)) (ts : List (Token α)) (i : Nat) :
    (collect [] before ts)[i]? =
      ts[i]?.map fun t => ⟨if i = 0 then before else ts[i - 1]?, t, ts[i + 1]?, ts[i + 2]?⟩ := by
  induction ts generalizing before i with
  | nil => simp
  | cons t rest ih =>
      cases i with
      | zero => simp
      | succ j =>
          rw [collect_cons, List.getElem?_cons_succ, ih]
          cases j <;> simp

/-- The context at position `i`, read off the sequence. -/
theorem getElem?_ofTokens (ts : List (Token α)) (i : Nat) :
    (ofTokens ts)[i]? =
      ts[i]?.map fun t => ⟨if i = 0 then none else ts[i - 1]?, t, ts[i + 1]?, ts[i + 2]?⟩ :=
  getElem?_collect none ts i

/-- Contexts keep the tokens, in order. -/
@[simp] theorem map_here_ofTokens (ts : List (Token α)) : (ofTokens ts).map here = ts := by
  apply List.ext_getElem?
  intro i
  rw [List.getElem?_map, getElem?_ofTokens, Option.map_map]
  exact Option.map_id' ..

variable [NumberDomain α]

/-- What stands in for the number of this context once it is found too
large. -/
def standIn (c : Context α) : α :=
  if c.before.bind Token.operator? = some .divide then NumberDomain.one
  else match c.after, c.afterNext with
    | some (.operator .divide), some (.number b) => NumberDomain.square b
    | _, _ =>
        if c.before.bind Token.operator? = some .times
            ∨ c.after.bind Token.operator? = some .times then
          NumberDomain.one
        else
          NumberDomain.zero

/-- The number before and after the rule, where the rule applies. -/
def replaced? (limit : α) (c : Context α) : Option (α × α) :=
  match c.here with
  | .number x => if NumberDomain.exceeds x limit then some (x, c.standIn) else none
  | _ => none

/-- The token that is calculated with in place of the one that is here. -/
def settled (limit : α) (c : Context α) : Token α :=
  match c.replaced? limit with
  | some (_, after) => .number after
  | none => c.here

/-- The rule puts numbers in the place of numbers. -/
@[simp] theorem kind_settled (limit : α) (c : Context α) :
    (c.settled limit).kind = c.here.kind := by
  unfold settled replaced?
  cases c.here with
  | number x => by_cases h : NumberDomain.exceeds x limit = true <;> simp [h, Token.kind]
  | _ => rfl

end Context

variable {α : Type} [NumberDomain α]

/-- The sequence with every number beyond the limit replaced; without a
limit the sequence itself. -/
def settle (limit? : Option α) (ts : List (Token α)) : List (Token α) :=
  match limit? with
  | none => ts
  | some limit => (Context.ofTokens ts).map (Context.settled limit)

/-- The replacements that `settle` makes, from left to right. -/
def replacements (limit? : Option α) (ts : List (Token α)) : List (Replacement α) :=
  match limit? with
  | none => []
  | some limit =>
      (Context.ofTokens ts).zipIdx.filterMap fun (c, i) =>
        (c.replaced? limit).map fun (before, after) => ⟨i, before, after⟩

/-- No token changes its kind, and none is gained or lost. -/
theorem map_kind_settle (limit? : Option α) (ts : List (Token α)) :
    (settle limit? ts).map Token.kind = ts.map Token.kind := by
  cases limit? with
  | none => rfl
  | some limit =>
      rw [settle, List.map_map]
      calc (Context.ofTokens ts).map (Token.kind ∘ Context.settled limit)
          = (Context.ofTokens ts).map (Token.kind ∘ Context.here) :=
            List.map_congr_left fun c _ => Context.kind_settled limit c
        _ = ((Context.ofTokens ts).map Context.here).map Token.kind := (List.map_map ..).symm
        _ = ts.map Token.kind := by rw [Context.map_here_ofTokens]

@[simp] theorem length_settle (limit? : Option α) (ts : List (Token α)) :
    (settle limit? ts).length = ts.length := by
  simpa using congrArg List.length (map_kind_settle limit? ts)

namespace Expression

/-- The tokens an expression is calculated with. -/
def settledTokens (settings : Settings) (e : Expression α) : List (Token α) :=
  settle (settings.limit? α) e.tokens

def replacements (settings : Settings) (e : Expression α) : List (Replacement α) :=
  FourFunction.replacements (settings.limit? α) e.tokens

end Expression

end FourFunction
