import FourFunction.Grammar
import FourFunction.Proofs.Scan

/-!
# What the check lets through

The check knows neighbours and a counter; a grammar knows nesting. That
the two describe the same sequences is shown by way of the machine of
`Stand`:

- whatever is derived from a part takes the machine from a place where
  an operand may come to the end of one, at any depth
  (`Derives.run_kinds`), by induction on the derivation;
- conversely, what the machine has read at any time is an unfinished
  derivation (`Unfinished`): one begun sentence for each open
  parenthesis and one around them all. Reading a token keeps that up
  (`Unfinished.step`), and at the finish only a sentence is left.

Ordinary arithmetic is what remains of the sentences when no operand is
directly followed by a group. From a derivation of such a sentence one
of arithmetic is built by hanging each new factor where the precedence
of its operator wants it (`exists_operated`).
-/

namespace FourFunction

variable {α : Type}

/-! ## From derivations to the machine -/

namespace Stand

theorem run_operation {s final : Stand} {depth : Nat} {ks ls : List Kind}
    (hl : s.run ks = some ⟨true, depth⟩) (hr : Stand.run ⟨false, depth⟩ ls = some final) :
    s.run (ks ++ .operator :: ls) = some final := by
  rw [run_append, hl]
  exact hr

/-- An opening parenthesis may come whether or not an operand has just
ended. -/
theorem run_parentheses {depth : Nat} {ks : List Kind}
    (h : Stand.run ⟨false, depth + 1⟩ ks = some ⟨true, depth + 1⟩) (ended : Bool) :
    Stand.run ⟨ended, depth⟩ (.opening :: ks ++ [.closing]) = some ⟨true, depth⟩ := by
  have hstep : Stand.step ⟨ended, depth⟩ .opening = some ⟨false, depth + 1⟩ := by
    cases ended <;> rfl
  rw [List.cons_append, run_cons, hstep, Option.bind_some, run_append, h]
  rfl

end Stand

/-- A group may be read right behind an operand as well as where one may
begin. -/
theorem Derives.run_group {ts : List (Token α)} (h : Derives .group ts) (ended : Bool)
    (depth : Nat) :
    Stand.run ⟨ended, depth⟩ (ts.map Token.kind) =
      Stand.run ⟨false, depth⟩ (ts.map Token.kind) := by
  cases h
  cases ended <;> rfl

/-- Whatever a part derives brings the machine from where an operand may
begin to where one has ended, at the same depth. -/
theorem Derives.run_kinds {part : Part} {ts : List (Token α)} (h : Derives part ts)
    (depth : Nat) : Stand.run ⟨false, depth⟩ (ts.map Token.kind) = some ⟨true, depth⟩ := by
  induction h generalizing depth with
  | operand _ ih => exact ih depth
  | operation o _ _ ihl ihr =>
      rw [List.map_append]
      exact Stand.run_operation (ihl depth) (ihr depth)
  | juxtaposition _ hg ihl ihr =>
      rw [List.map_append, Stand.run_append, ihl depth, Option.bind_some, hg.run_group]
      exact ihr depth
  | number x => rfl
  | group _ ih => exact ih depth
  | parentheses _ ih =>
      rw [List.map_append]
      exact Stand.run_parentheses (ih (depth + 1)) false

/-! ## From the machine to derivations -/

/-- A sentence that has been begun; the flag says whether it could stop
here. -/
inductive Begun : Bool → List (Token α) → Prop where
  | nothing : Begun false []
  | sentence {ts} : Derives .sentence ts → Begun true ts
  | operator {ts} (o : Operator) : Derives .sentence ts → Begun false (ts ++ [.operator o])

theorem Begun.operand {ts us : List (Token α)} (h : Begun false ts) (hu : Derives .operand us) :
    Begun true (ts ++ us) := by
  cases h with
  | nothing => exact .sentence (.operand hu)
  | operator o hs =>
      rw [List.append_assoc]
      exact .sentence (.operation o hs hu)

theorem Begun.group {ended : Bool} {ts us : List (Token α)} (h : Begun ended ts)
    (hu : Derives .group us) : Begun true (ts ++ us) := by
  cases ended with
  | false => exact h.operand (.group hu)
  | true => cases h with
    | sentence hs => exact .sentence (.juxtaposition hs hu)

theorem Begun.operation {ts : List (Token α)} (h : Begun true ts) (o : Operator) :
    Begun false (ts ++ [.operator o]) := by
  cases h with
  | sentence hs => exact .operator o hs

/-- What lies before the reader at a given stand: one begun sentence for
each open parenthesis, inside each other, and one around them. -/
inductive Unfinished : Stand → List (Token α) → Prop where
  | outermost {ended ts} : Begun ended ts → Unfinished ⟨ended, 0⟩ ts
  | inGroup {ended depth innermost ts us} : Unfinished ⟨ended, depth⟩ ts → Begun innermost us →
      Unfinished ⟨innermost, depth + 1⟩ (ts ++ .openParen :: us)

/-- The innermost sentence is the one that grows. -/
theorem Unfinished.extend {ended ended' : Bool} {depth : Nat} {ts vs : List (Token α)}
    (h : Unfinished ⟨ended, depth⟩ ts)
    (hgrow : ∀ us, Begun ended us → Begun ended' (us ++ vs)) :
    Unfinished ⟨ended', depth⟩ (ts ++ vs) := by
  cases h with
  | outermost hb => exact .outermost (hgrow _ hb)
  | inGroup hout hb =>
      rw [List.append_assoc]
      exact .inGroup hout (hgrow _ hb)

theorem Unfinished.close {depth : Nat} {ts : List (Token α)}
    (h : Unfinished ⟨true, depth + 1⟩ ts) :
    Unfinished ⟨true, depth⟩ (ts ++ [.closeParen]) := by
  cases h with
  | inGroup hout hb =>
      cases hb with
      | sentence hs =>
          rw [List.append_assoc]
          exact hout.extend fun _ hus => hus.group (.parentheses hs)

/-- Reading a token that may come next leaves an unfinished derivation. -/
theorem Unfinished.step {s next : Stand} {ts : List (Token α)} (h : Unfinished s ts)
    {t : Token α} (hstep : s.step t.kind = some next) : Unfinished next (ts ++ [t]) := by
  obtain ⟨ended, depth⟩ := s
  cases t with
  | number x =>
      cases ended with
      | true => cases hstep
      | false =>
          cases hstep
          exact h.extend fun _ hus => hus.operand (.number x)
  | operator o =>
      cases ended with
      | false => cases hstep
      | true =>
          cases hstep
          exact h.extend fun _ hus => hus.operation o
  | openParen =>
      obtain rfl : ⟨false, depth + 1⟩ = next := by cases ended <;> exact Option.some.inj hstep
      exact .inGroup h .nothing
  | closeParen =>
      cases ended with
      | false => cases hstep
      | true =>
          cases depth with
          | zero => cases hstep
          | succ depth =>
              cases hstep
              exact h.close

theorem Unfinished.run {s final : Stand} {ts us : List (Token α)} (h : Unfinished s ts)
    (hrun : s.run (us.map Token.kind) = some final) : Unfinished final (ts ++ us) := by
  induction us generalizing s ts with
  | nil =>
      cases hrun
      simpa using h
  | cons t rest ih =>
      obtain ⟨next, hstep, hrest⟩ := Option.bind_eq_some_iff.mp hrun
      simpa using ih (h.step hstep) hrest

/-- Sentences are what the machine reads from the start to the finish. -/
theorem isSentence_iff_run {ts : List (Token α)} :
    IsSentence ts ↔ Stand.start.run (ts.map Token.kind) = some .finish := by
  constructor
  · exact fun h => h.run_kinds 0
  · intro h
    have hread : Unfinished .finish ts := Unfinished.run (.outermost .nothing) h
    cases hread with
    | outermost hb => cases hb with
      | sentence hs => exact hs

/-! ## Juxtapositions as the machine meets them -/

/-- The juxtapositions of kinds that follow upon the end of an operand, or
do not. -/
def juxtapositionsAfter (ended : Bool) : List Kind → Nat
  | [] => 0
  | k :: rest =>
      (if ended = true ∧ k = .opening then 1 else 0) + juxtapositionsAfter k.endsOperand rest

theorem juxtapositions_cons (t : Token α) (ts : List (Token α)) :
    juxtapositions (t :: ts) = juxtapositionsAfter t.kind.endsOperand (ts.map Token.kind) := by
  induction ts generalizing t with
  | nil => rfl
  | cons u rest ih =>
      rw [juxtapositions, ih u]
      rfl

theorem juxtapositions_eq (ts : List (Token α)) :
    juxtapositions ts = juxtapositionsAfter false (ts.map Token.kind) := by
  cases ts with
  | nil => rfl
  | cons t rest => simp [juxtapositions_cons, juxtapositionsAfter]

theorem juxtapositionsAfter_append {s next : Stand} {ks : List Kind} (h : s.run ks = some next)
    (ls : List Kind) :
    juxtapositionsAfter s.ended (ks ++ ls) =
      juxtapositionsAfter s.ended ks + juxtapositionsAfter next.ended ls := by
  induction ks generalizing s with
  | nil =>
      cases h
      simp [juxtapositionsAfter]
  | cons k rest ih =>
      obtain ⟨s', hstep, hrest⟩ := Option.bind_eq_some_iff.mp h
      have hih := ih hrest
      rw [Stand.ended_of_step hstep] at hih
      rw [List.cons_append, juxtapositionsAfter, juxtapositionsAfter, hih]
      omega

theorem juxtapositionsAfter_operation {s : Stand} {depth : Nat} {ks : List Kind}
    (h : s.run ks = some ⟨true, depth⟩) (ls : List Kind) :
    juxtapositionsAfter s.ended (ks ++ .operator :: ls) =
      juxtapositionsAfter s.ended ks + juxtapositionsAfter false ls := by
  rw [juxtapositionsAfter_append h]
  simp [juxtapositionsAfter, Kind.endsOperand]

theorem juxtapositionsAfter_parentheses {depth : Nat} {ks : List Kind}
    (h : Stand.run ⟨false, depth⟩ ks = some ⟨true, depth⟩) :
    juxtapositionsAfter false (.opening :: ks ++ [.closing]) = juxtapositionsAfter false ks := by
  have happend := juxtapositionsAfter_append h [.closing]
  simp only [juxtapositionsAfter, reduceCtorEq, and_false, if_false, Nat.add_zero] at happend
  simp [juxtapositionsAfter, Kind.endsOperand, happend]

/-! ## Ordinary arithmetic -/

namespace Derivation

theorem run_kinds {c : Category} (d : Derivation α c) (depth : Nat) :
    Stand.run ⟨false, depth⟩ (d.tokens.map Token.kind) = some ⟨true, depth⟩ := by
  induction d generalizing depth with
  | number x => rfl
  | group inner ih =>
      rw [tokens, List.map_append]
      exact Stand.run_parentheses (ih (depth + 1)) false
  | ofFactor f ih => exact ih depth
  | multiplied left o _ right ihl ihr =>
      rw [tokens, List.map_append]
      exact Stand.run_operation (ihl depth) (ihr depth)
  | ofProduct p ih => exact ih depth
  | added left o _ right ihl ihr =>
      rw [tokens, List.map_append]
      exact Stand.run_operation (ihl depth) (ihr depth)

/-- In arithmetic no operand is directly followed by a group. -/
theorem juxtapositionsAfter_kinds {c : Category} (d : Derivation α c) :
    juxtapositionsAfter false (d.tokens.map Token.kind) = 0 := by
  induction d with
  | number x => rfl
  | group inner ih =>
      rw [tokens, List.map_append]
      exact (juxtapositionsAfter_parentheses (inner.run_kinds 0)).trans ih
  | ofFactor f ih => exact ih
  | multiplied left o _ right ihl ihr =>
      rw [tokens, List.map_append]
      exact (juxtapositionsAfter_operation (left.run_kinds 0) _).trans (by rw [ihl, ihr])
  | ofProduct p ih => exact ih
  | added left o _ right ihl ihr =>
      rw [tokens, List.map_append]
      exact (juxtapositionsAfter_operation (left.run_kinds 0) _).trans (by rw [ihl, ihr])

/-- A sum can be continued by any operator and factor: `+` and `-` act on
the whole sum, `*` and `/` on its last product. -/
theorem exists_operated (d : Derivation α .sum) (o : Operator) (f : Derivation α .factor) :
    ∃ e : Derivation α .sum, e.tokens = d.tokens ++ .operator o :: f.tokens := by
  rcases o.precedence_eq_one_or_two with hlow | hhigh
  · exact ⟨.added d o (Operator.precedence_eq_one_iff.mp hlow) (.ofFactor f), rfl⟩
  · have ho := Operator.precedence_eq_two_iff.mp hhigh
    cases d with
    | ofProduct p => exact ⟨.ofProduct (.multiplied p o ho f), rfl⟩
    | added left o' ho' p => exact ⟨.added left o' ho' (.multiplied p o ho f), by simp [tokens]⟩

end Derivation

/-- The category of arithmetic that a part of a sentence falls into when
nothing in it is juxtaposed. -/
def Part.category : Part → Category
  | .sentence => .sum
  | .operand | .group => .factor

theorem Derives.exists_derivation {part : Part} {ts : List (Token α)} (h : Derives part ts)
    (hnone : juxtapositionsAfter false (ts.map Token.kind) = 0) :
    ∃ d : Derivation α part.category, d.tokens = ts := by
  induction h with
  | operand _ ih =>
      obtain ⟨f, rfl⟩ := ih hnone
      exact ⟨.ofProduct (.ofFactor f), rfl⟩
  | operation o hl _ ihl ihr =>
      rw [List.map_append, List.map_cons] at hnone
      have hsplit := (juxtapositionsAfter_operation (hl.run_kinds 0) _).symm.trans hnone
      obtain ⟨d, rfl⟩ := ihl (Nat.eq_zero_of_add_eq_zero_right hsplit)
      obtain ⟨f, rfl⟩ := ihr (Nat.eq_zero_of_add_eq_zero_left hsplit)
      exact d.exists_operated o f
  | juxtaposition hl hg _ _ =>
      rw [List.map_append, juxtapositionsAfter_append (hl.run_kinds 0)] at hnone
      cases hg
      simp [juxtapositionsAfter, Token.kind] at hnone
  | number x => exact ⟨.number x, rfl⟩
  | group _ ih => exact ih hnone
  | parentheses hs ih =>
      rw [List.map_append] at hnone
      obtain ⟨d, rfl⟩ := ih ((juxtapositionsAfter_parentheses (hs.run_kinds 0)).symm.trans hnone)
      exact ⟨.group d, rfl⟩

theorem Derivation.isSentence {c : Category} (d : Derivation α c) : IsSentence d.tokens :=
  isSentence_iff_run.mpr (d.run_kinds 0)

/-- Ordinary arithmetic is the sentences without juxtapositions. -/
theorem isArithmetic_iff {ts : List (Token α)} :
    IsArithmetic ts ↔ IsSentence ts ∧ juxtapositions ts = 0 := by
  rw [juxtapositions_eq]
  constructor
  · rintro ⟨d, rfl⟩
    exact ⟨d.isSentence, d.juxtapositionsAfter_kinds⟩
  · rintro ⟨hs, hnone⟩
    exact Derives.exists_derivation hs hnone

end FourFunction
