import FourFunction.Proofs.Settling
import FourFunction.Proofs.Release

/-!
# What the conversion keeps

The conversion decides nothing by the numbers it reads: it would do the
same with others in their place (`toPostfix_map`). It sends each of them
out at once, so they come out as they went in, none lost and none out of
turn (`numbers_toPostfix`).

Operators do come out of turn, but they are not lost either, wherever
they leave the pile:

> At any time, all that has been sent out and all that is still to be
> drained is a rearrangement of what has been read, the parentheses left
> out (`Conversion.finish_readAll_perm`).

A release only moves operators from the pile to the output, in the order
in which they would have been drained, and what a closing parenthesis
takes off the pile is the mark of an opening one or nothing at all. So
the whole sequence is rearranged (`toPostfix_perm`), with or without
juxtaposed groups in it, and whether or not its parentheses match.
-/

namespace FourFunction

variable {α β : Type}

namespace Conversion

/-! ## Other numbers -/

def map (f : α → β) (c : Conversion α) : Conversion β :=
  ⟨c.output.map (Token.map f), c.pending⟩

theorem map_release (f : α → β) (p : Operator → Bool) (c : Conversion α) :
    (c.release p).map f = (c.map f).release p := by
  obtain ⟨output, pending⟩ := c
  induction pending generalizing output with
  | nil => rfl
  | cons top rest ih =>
      cases top with
      | openParen => rfl
      | operator o =>
          show _ = release p ⟨output.map (Token.map f), .operator o :: rest⟩
          cases hp : p o with
          | true =>
              rw [release_operator hp, release_operator hp]
              exact ih _
          | false =>
              rw [release_operator_of_not hp, release_operator_of_not hp]
              rfl

theorem map_read (f : α → β) (c : Conversion α) (t : Token α) :
    (c.read t).map f = (c.map f).read (t.map f) := by
  cases t with
  | number x => rfl
  | openParen => rfl
  | operator o => simp only [read, Token.map, ← map_release]; rfl
  | closeParen => simp only [read, Token.map, ← map_release]; rfl

theorem map_readAll (f : α → β) (c : Conversion α) (ts : List (Token α)) :
    (c.readAll ts).map f = (c.map f).readAll (ts.map (Token.map f)) := by
  induction ts generalizing c with
  | nil => rfl
  | cons t rest ih =>
      show ((c.read t).readAll rest).map f = ((c.map f).read (t.map f)).readAll _
      rw [ih, map_read]

theorem map_drain (f : α → β) (pending : List Pending) :
    (drain pending).map (Token.map f) = drain pending := by
  induction pending with
  | nil => rfl
  | cons top rest ih =>
      cases top with
      | openParen => exact ih
      | operator o => exact congrArg (Token.operator o :: ·) ih

/-! ## The same numbers -/

/-- The numbers sent out so far, in order. -/
def numbers (c : Conversion α) : List (Token α) := c.output.reverse.filter Token.isNumber

theorem numbers_release (p : Operator → Bool) (c : Conversion α) :
    (c.release p).numbers = c.numbers :=
  release_induction (P := fun c' => c'.numbers = c.numbers)
    (fun _ _ _ _ heq => by simpa [numbers, Token.isNumber] using heq) rfl

theorem numbers_read (c : Conversion α) (t : Token α) :
    (c.read t).numbers = c.numbers ++ [t].filter Token.isNumber := by
  cases t with
  | number x => simp [numbers, read]
  | operator o => exact (c.numbers_release _).trans (List.append_nil _).symm
  | openParen => exact (List.append_nil _).symm
  | closeParen => exact (c.numbers_release _).trans (List.append_nil _).symm

theorem numbers_readAll (c : Conversion α) (ts : List (Token α)) :
    (c.readAll ts).numbers = c.numbers ++ ts.filter Token.isNumber := by
  induction ts generalizing c with
  | nil => exact (List.append_nil _).symm
  | cons t rest ih =>
      show ((c.read t).readAll rest).numbers = _
      rw [ih, numbers_read, List.append_assoc, ← List.filter_append]
      rfl

theorem filter_drain (pending : List Pending) :
    (drain pending : List (Token α)).filter Token.isNumber = [] := by
  induction pending with
  | nil => rfl
  | cons top rest ih => cases top <;> exact ih

/-! ## The same tokens -/

theorem finish_read_perm (c : Conversion α) (t : Token α) :
    (c.read t).finish.Perm (c.finish ++ [t].filter fun t => !t.isParen) := by
  cases t with
  | number x =>
      have houtput : (c.read (.number x)).finish =
          c.output.reverse ++ .number x :: drain c.pending := by
        simp [read, finish]
      rw [houtput]
      exact List.perm_middle.trans (List.perm_append_singleton ..).symm
  | operator o =>
      have hreleased := c.finish_release fun waiting => o.precedence ≤ waiting.precedence
      show ((c.release _).output.reverse ++ Token.operator o :: drain (c.release _).pending).Perm _
      rw [← hreleased]
      exact List.perm_middle.trans (List.perm_append_singleton ..).symm
  | openParen => exact List.Perm.of_eq (List.append_nil _).symm
  | closeParen =>
      have hreleased := c.finish_release fun _ => true
      show ((c.release _).output.reverse ++ drain ((c.release _).pending.drop 1)).Perm _
      rw [drain_drop_release, ← hreleased]
      exact List.Perm.of_eq (List.append_nil _).symm

theorem finish_readAll_perm (c : Conversion α) (ts : List (Token α)) :
    (c.readAll ts).finish.Perm (c.finish ++ ts.filter fun t => !t.isParen) := by
  induction ts generalizing c with
  | nil => exact List.Perm.of_eq (List.append_nil _).symm
  | cons t rest ih =>
      have hread := (c.finish_read_perm t).append_right (rest.filter fun t => !t.isParen)
      rw [List.append_assoc, ← List.filter_append] at hread
      exact (ih (c.read t)).trans hread

end Conversion

/-- The postfix order of a sequence is a rearrangement of its tokens,
without the parentheses. -/
theorem toPostfix_perm (ts : List (Token α)) :
    (toPostfix ts).Perm (ts.filter fun t => !t.isParen) :=
  Conversion.finish_readAll_perm .start ts

theorem toPostfix_map (f : α → β) (ts : List (Token α)) :
    (toPostfix ts).map (Token.map f) = toPostfix (ts.map (Token.map f)) := by
  have hread := Conversion.map_readAll f .start ts
  show ((Conversion.start.readAll ts).finish).map _ = (Conversion.start.readAll _).finish
  rw [Conversion.finish, List.map_append, List.map_reverse, Conversion.map_drain]
  exact congrArg Conversion.finish hread

theorem numbers_toPostfix (ts : List (Token α)) :
    (toPostfix ts).filter Token.isNumber = ts.filter Token.isNumber := by
  rw [toPostfix, Conversion.finish, List.filter_append, Conversion.filter_drain, List.append_nil]
  exact Conversion.numbers_readAll .start ts

theorem number_mem_toPostfix_iff {ts : List (Token α)} {x : α} :
    .number x ∈ toPostfix ts ↔ .number x ∈ ts := by
  have hnumbers := congrArg (Token.number x ∈ ·) (numbers_toPostfix ts)
  simpa [Token.isNumber] using hnumbers

/-! ## Counts and selections -/

theorem filterMap_number?_toPostfix (ts : List (Token α)) :
    (toPostfix ts).filterMap Token.number? = ts.filterMap Token.number? := by
  have hselect : ∀ us : List (Token α),
      us.filterMap Token.number? = (us.filter Token.isNumber).filterMap Token.number? := by
    intro us
    rw [List.filterMap_filter]
    refine congrArg (List.filterMap · us) (funext fun t => ?_)
    cases t <;> rfl
  rw [hselect, numbers_toPostfix, ← hselect]

theorem filterMap_operator?_toPostfix (ts : List (Token α)) :
    ((toPostfix ts).filterMap Token.operator?).Perm (ts.filterMap Token.operator?) := by
  have hselect : (ts.filter fun t => !t.isParen).filterMap Token.operator? =
      ts.filterMap Token.operator? := by
    rw [List.filterMap_filter]
    refine congrArg (List.filterMap · ts) (funext fun t => ?_)
    cases t <;> rfl
  exact hselect ▸ (toPostfix_perm ts).filterMap Token.operator?

theorem isParen_of_mem_toPostfix {ts : List (Token α)} {t : Token α} (h : t ∈ toPostfix ts) :
    t.isParen = false := by
  have hmem := (toPostfix_perm ts).mem_iff.mp h
  simpa using (List.mem_filter.mp hmem).2

theorem length_toPostfix (ts : List (Token α)) :
    (toPostfix ts).length + ts.countP Token.isParen = ts.length := by
  have hsplit := List.length_eq_countP_add_countP Token.isParen (l := ts)
  have hrest : (ts.countP fun t => decide ¬ t.isParen = true) = (toPostfix ts).length := by
    rw [(toPostfix_perm ts).length_eq, List.countP_eq_length_filter]
    simp
  omega

/-! ## Expressions -/

variable [NumberDomain α]

theorem filterMap_number?_settle (limit? : Option α) (ts : List (Token α)) :
    (settle limit? ts).filterMap Token.number? =
      ts.zipIdx.filterMap fun (t, i) => t.number?.map (numberGiven limit? ts i) := by
  rw [settle_eq_map_zipIdx, List.filterMap_map]
  exact congrArg (List.filterMap · _) (funext fun (t, i) => t.number?_map _)

theorem filterMap_operator?_settle (limit? : Option α) (ts : List (Token α)) :
    (settle limit? ts).filterMap Token.operator? = ts.filterMap Token.operator? := by
  have hid : ∀ us : List (Token α), us.filterMap Token.operator? =
      (us.map Token.operator?).filterMap id := fun us => by rw [List.filterMap_map]; rfl
  rw [hid, map_settle fun g t => t.operator?_map g, ← hid]

theorem countP_isParen_settle (limit? : Option α) (ts : List (Token α)) :
    (settle limit? ts).countP Token.isParen = ts.countP Token.isParen := by
  have hid : ∀ us : List (Token α), us.countP Token.isParen =
      (us.map Token.isParen).countP id := fun us => by rw [List.countP_map]; rfl
  rw [hid, map_settle fun _ t => by cases t <;> rfl, ← hid]

/-- The conversion of an expression loses nothing, doubles nothing and
puts nothing out of place that has to keep it, under any settings and
with any groups juxtaposed. No parenthesis comes out; the numbers come out
in their order, each as the one that the large-number rule gives its
position; the operators come out rearranged; and so the postfix order is
shorter than the expression by the number of its parentheses. -/
theorem toPostfix_conserves (settings : Settings) (e : Expression α) :
    (∀ t ∈ e.toPostfix settings, t.isParen = false)
      ∧ (e.toPostfix settings).filterMap Token.number? =
          (e.tokens.zipIdx.filterMap fun (t, i) =>
            t.number?.map (numberGiven (settings.limit? α) e.tokens i))
      ∧ ((e.toPostfix settings).filterMap Token.operator?).Perm
          (e.tokens.filterMap Token.operator?)
      ∧ (e.toPostfix settings).length + e.tokens.countP Token.isParen = e.tokens.length := by
  refine ⟨fun t => isParen_of_mem_toPostfix, ?_, ?_, ?_⟩
  · exact (filterMap_number?_toPostfix _).trans (filterMap_number?_settle _ _)
  · have hperm := filterMap_operator?_toPostfix (e.settledTokens settings)
    rwa [Expression.settledTokens, filterMap_operator?_settle] at hperm
  · have hlength := length_toPostfix (e.settledTokens settings)
    rwa [Expression.settledTokens, countP_isParen_settle, length_settle] at hlength

/-- In `( 1 - 2 ) ( 3 * 4 )` each group keeps its operator; none acts between
them. -/
example : toPostfix [Token.openParen, .number 1, .operator .minus, .number 2, .closeParen,
    .openParen, .number 3, .operator .times, .number 4, .closeParen] =
      [.number 1, .number 2, .operator .minus, .number 3, .number 4, .operator .times] := rfl

end FourFunction
