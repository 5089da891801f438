import FourFunction.Proofs.Grammar
import FourFunction.Proofs.Release

/-!
# Groups

A group is read the same wherever it stands. Its opening parenthesis
holds back all that lies below it on the pile, so what follows is
converted as if the sequence began there (`readAll_onto_openParen`), until the
parenthesis that closes the group. That this is the right one is a
matter of counting: of the opening parentheses on the pile there are
always as many as are open (`count_readAll`), hence none of the group's
own is left when it ends.

> Reading a sentence in parentheses sends out the postfix order of the
> sentence and leaves the pile as it was (`readAll_inParens`).

Which parentheses belong together is said by counting, too. What lies
between the two of a pair is `Balanced`, and a balanced piece that stands
in parentheses in an accepted sequence is a sentence itself
(`isSentence_of_balanced`).
-/

namespace FourFunction

variable {α : Type}

/-- A sequence in parentheses. -/
def inParens (ts : List (Token α)) : List (Token α) := .openParen :: ts ++ [.closeParen]

@[simp] theorem length_inParens (ts : List (Token α)) : (inParens ts).length = ts.length + 2 := by
  simp [inParens]

@[simp] theorem number_mem_inParens {ts : List (Token α)} {x : α} :
    .number x ∈ inParens ts ↔ .number x ∈ ts := by
  simp [inParens]

/-! ## On top of another conversion -/

namespace Conversion

/-- The conversion with tokens sent out before its own, and entries below
its own on the pile. -/
def onto (c : Conversion α) (output : List (Token α)) (below : List Pending) : Conversion α :=
  ⟨c.output ++ output, c.pending ++ below⟩

variable {p : Operator → Bool} {output : List (Token α)} {below : List Pending}

theorem release_onto (h : Held p below) (c : Conversion α) :
    (c.onto output below).release p = (c.release p).onto output below := by
  obtain ⟨out, pending⟩ := c
  induction pending generalizing out with
  | nil =>
      have hheld : Held p (onto ⟨out, []⟩ output below).pending := h
      exact release_of_held hheld
  | cons top rest ih =>
      cases top with
      | openParen => rfl
      | operator o =>
          show release p ⟨out ++ output, .operator o :: (rest ++ below)⟩ = _
          cases hp : p o with
          | true =>
              rw [release_operator hp, release_operator hp]
              exact ih (.operator o :: out)
          | false =>
              rw [release_operator_of_not hp, release_operator_of_not hp]
              rfl

/-! ### Parentheses on the pile -/

theorem count_release (p : Operator → Bool) (c : Conversion α) :
    (c.release p).pending.count .openParen = c.pending.count .openParen :=
  release_induction (P := fun c' => c'.pending.count .openParen = c.pending.count .openParen)
    (fun _ _ _ _ heq => by simpa using heq) rfl

/-- Reading a token keeps as many parentheses on the pile as are open. -/
theorem count_read {c : Conversion α} {s next : Stand} {t : Token α}
    (h : c.pending.count .openParen = s.depth) (hstep : s.step t.kind = some next) :
    (c.read t).pending.count .openParen = next.depth := by
  obtain rfl := Stand.eq_of_step hstep
  cases t with
  | number x => exact h
  | operator o =>
      have hreleased := c.count_release fun waiting => o.precedence ≤ waiting.precedence
      simpa [read, depthAfter, Token.kind] using hreleased.trans h
  | openParen => simpa [read, depthAfter, Token.kind] using h
  | closeParen =>
      have hreleased := (c.count_release fun _ => true).trans h
      show ((c.release fun _ => true).pending.drop 1).count .openParen = s.depth - 1
      rcases c.pending_release_all with hnil | ⟨rest, hrest⟩
      · rw [hnil] at hreleased ⊢
        simp at hreleased ⊢
        omega
      · rw [hrest] at hreleased ⊢
        simp at hreleased ⊢
        omega

theorem count_readAll {c : Conversion α} {s final : Stand} {ts : List (Token α)}
    (h : c.pending.count .openParen = s.depth) (hrun : s.run (ts.map Token.kind) = some final) :
    (c.readAll ts).pending.count .openParen = final.depth := by
  induction ts generalizing c s with
  | nil =>
      cases hrun
      exact h
  | cons t rest ih =>
      obtain ⟨next, hstep, hrest⟩ := Option.bind_eq_some_iff.mp hrun
      exact ih (count_read h hstep) hrest

/-! ### Reading -/

/-- Entries that begin with no operator are out of reach, except for a
closing parenthesis that finds no opening one above them. -/
theorem read_onto {c : Conversion α} {t : Token α} (hheld : Held (fun _ => true) below)
    (hclose : t = .closeParen → below = [] ∨ .openParen ∈ c.pending)
    (output : List (Token α)) :
    (c.onto output below).read t = (c.read t).onto output below := by
  have hrelease : ∀ p, (c.onto output below).release p = (c.release p).onto output below :=
    fun p => release_onto (hheld.of_imp fun _ _ => rfl) c
  cases t with
  | number x => rfl
  | openParen => rfl
  | operator o =>
      simp only [read, hrelease]
      rfl
  | closeParen =>
      simp only [read, hrelease]
      rcases c.pending_release_all with hnil | ⟨rest, hrest⟩
      · have hcount := c.count_release fun _ => true
        rw [hnil, List.count_nil] at hcount
        rcases hclose rfl with rfl | hmem
        · simp [onto]
        · exact absurd hmem (List.count_eq_zero.mp hcount.symm)
      · simp only [onto, hrest]
        rfl

/-- What is read depends on the pile and not on what has been sent out. -/
theorem readAll_onto_nil (c : Conversion α) (output : List (Token α)) (ts : List (Token α)) :
    (c.onto output []).readAll ts = (c.readAll ts).onto output [] := by
  induction ts generalizing c with
  | nil => rfl
  | cons t rest ih =>
      show ((c.onto output []).read t).readAll rest = _
      rw [read_onto (held_nil _) fun _ => Or.inl rfl]
      exact ih (c.read t)

/-- Behind an opening parenthesis nothing below it matters, as long as it
is not closed. -/
theorem readAll_onto_openParen {c : Conversion α} {s final : Stand} {ts : List (Token α)}
    (h : c.pending.count .openParen = s.depth) (hrun : s.run (ts.map Token.kind) = some final)
    (output : List (Token α)) (below : List Pending) :
    (c.onto output (.openParen :: below)).readAll ts =
      (c.readAll ts).onto output (.openParen :: below) := by
  induction ts generalizing c s with
  | nil => rfl
  | cons t rest ih =>
      obtain ⟨next, hstep, hrest⟩ := Option.bind_eq_some_iff.mp hrun
      have hclose : t = .closeParen → .openParen ∈ c.pending := by
        rintro rfl
        obtain ⟨ended, depth⟩ := s
        refine List.count_pos_iff.mp (h ▸ ?_)
        cases depth with
        | zero => cases ended <;> cases hstep
        | succ depth => exact Nat.succ_pos depth
      show ((c.onto output _).read t).readAll rest = _
      rw [read_onto (held_openParen _ below) fun ht => Or.inr (hclose ht)]
      exact ih (count_read h hstep) hrest

/-- A sentence leaves no parenthesis on the pile, so a release sends out
all that is left of it. -/
theorem release_readAll_sentence {ts : List (Token α)} (h : IsSentence ts) :
    (start.readAll ts).release (fun _ => true) = ⟨(toPostfix ts).reverse, []⟩ := by
  have hcount : (start.readAll ts).pending.count .openParen = 0 :=
    count_readAll (s := .start) rfl (isSentence_iff_run.mp h)
  rw [← count_release fun _ => true] at hcount
  have hfinish := finish_release (fun _ => true) (start.readAll ts)
  rcases (start.readAll ts).pending_release_all with hnil | ⟨rest, hrest⟩
  · rw [toPostfix, ← hfinish, finish, hnil]
    cases hreleased : (start.readAll ts).release fun _ => true
    rw [hreleased] at hnil
    cases hnil
    simp [drain]
  · rw [hrest] at hcount
    simp at hcount

theorem readAll_inParens {ts : List (Token α)} (h : IsSentence ts) (c : Conversion α) :
    c.readAll (inParens ts) = ⟨(toPostfix ts).reverse ++ c.output, c.pending⟩ := by
  have hrun := isSentence_iff_run.mp h
  have hinner := readAll_onto_openParen (c := start) (s := .start) rfl hrun c.output c.pending
  rw [inParens, readAll_append]
  show ((start.onto c.output (.openParen :: c.pending)).readAll ts).read .closeParen = _
  rw [hinner]
  simp only [read, release_onto (held_openParen _ c.pending), release_readAll_sentence h]
  rfl

end Conversion

/-! ## Pairs of parentheses -/

/-- Each closing parenthesis belongs to an opening one before it, and each
opening one is closed. -/
def Balanced (ks : List Kind) : Prop :=
  (∀ n, (ks.take n).count .closing ≤ (ks.take n).count .opening)
    ∧ ks.count .closing = ks.count .opening

namespace Stand

/-- A run that never closes more than `depth` parentheses besides its own
does not depend on those that are open below them. -/
theorem run_lower {ended : Bool} {below depth : Nat} {ks : List Kind} {final : Stand}
    (hrun : run ⟨ended, below + depth⟩ ks = some final)
    (hopen : ∀ n, (ks.take n).count .closing ≤ depth + (ks.take n).count .opening) :
    ∃ left, left + ks.count .closing = depth + ks.count .opening ∧ final.depth = below + left
      ∧ run ⟨ended, depth⟩ ks = some ⟨final.ended, left⟩ := by
  induction ks generalizing ended depth with
  | nil =>
      cases hrun
      exact ⟨depth, rfl, rfl, rfl⟩
  | cons k rest ih =>
      obtain ⟨next, hstep, hrest⟩ := Option.bind_eq_some_iff.mp hrun
      obtain ⟨depth', hstep', hdepth', hlow⟩ : ∃ depth',
          step ⟨ended, depth⟩ k = some ⟨next.ended, depth'⟩
            ∧ depth' + [k].count .closing = depth + [k].count .opening
            ∧ next = ⟨next.ended, below + depth'⟩ := by
        have hfirst := hopen 1
        cases k with
        | number =>
            cases ended with
            | true => cases hstep
            | false => cases hstep; exact ⟨depth, rfl, rfl, rfl⟩
        | operator =>
            cases ended with
            | false => cases hstep
            | true => cases hstep; exact ⟨depth, rfl, rfl, rfl⟩
        | opening =>
            cases ended <;> cases hstep <;> exact ⟨depth + 1, rfl, rfl, rfl⟩
        | closing =>
            cases depth with
            | zero => simp at hfirst
            | succ depth =>
                cases ended with
                | false => cases hstep
                | true => cases hstep; exact ⟨depth, rfl, rfl, rfl⟩
      rw [hlow] at hrest
      obtain ⟨left, hcount, hfinal, hrun'⟩ := ih hrest fun n => by
        have hlater := hopen (n + 1)
        rw [List.take_succ_cons, ← List.singleton_append, List.count_append,
          List.count_append] at hlater
        omega
      refine ⟨left, ?_, hfinal, ?_⟩
      · rw [← List.singleton_append, List.count_append, List.count_append]
        omega
      · rw [run_cons, hstep']
        exact hrun'

/-- Where fewer parentheses are open in the end, the innermost of those
that are open now is closed on the way. -/
theorem exists_closing {ended : Bool} {outer inner : Nat} {ts : List (Token α)} {final : Stand}
    (hrun : run ⟨ended, outer + 1 + inner⟩ (ts.map Token.kind) = some final)
    (hfinal : final.depth ≤ outer) :
    ∃ before after, ts = before ++ .closeParen :: after
      ∧ run ⟨ended, inner⟩ (before.map Token.kind) = some ⟨true, 0⟩
      ∧ run ⟨true, outer⟩ (after.map Token.kind) = some final := by
  -- `inner` of the open parentheses have been opened since; they are closed first
  induction ts generalizing ended inner with
  | nil =>
      cases hrun
      exact absurd hfinal (show ¬ outer + 1 + inner ≤ outer by omega)
  | cons t rest ih =>
      obtain ⟨next, hstep, hrest⟩ := Option.bind_eq_some_iff.mp hrun
      cases t with
      | number x =>
          cases ended <;> cases hstep
          obtain ⟨before, after, rfl, hbefore, hafter⟩ := ih hrest
          exact ⟨.number x :: before, after, rfl, hbefore, hafter⟩
      | operator o =>
          cases ended <;> cases hstep
          obtain ⟨before, after, rfl, hbefore, hafter⟩ := ih hrest
          exact ⟨.operator o :: before, after, rfl, hbefore, hafter⟩
      | openParen =>
          obtain rfl : ⟨false, outer + 1 + inner + 1⟩ = next := by
            cases ended <;> exact Option.some.inj hstep
          have hdeeper : run ⟨false, outer + 1 + (inner + 1)⟩ (rest.map Token.kind) = some final :=
            hrest
          obtain ⟨before, after, rfl, hbefore, hafter⟩ := ih hdeeper
          refine ⟨.openParen :: before, after, rfl, ?_, hafter⟩
          cases ended <;> exact hbefore
      | closeParen =>
          cases inner with
          | zero =>
              cases ended <;> cases hstep
              exact ⟨[], rest, rfl, rfl, hrest⟩
          | succ inner =>
              cases ended <;> cases hstep
              obtain ⟨before, after, rfl, hbefore, hafter⟩ := ih hrest
              exact ⟨.closeParen :: before, after, rfl, hbefore, hafter⟩

end Stand

/-- What stands in a pair of parentheses in a sentence is a sentence. -/
theorem isSentence_of_balanced {before inner after : List (Token α)}
    (h : IsSentence (before ++ inParens inner ++ after))
    (hbalanced : Balanced (inner.map Token.kind)) : IsSentence inner := by
  have hsplit : before ++ inParens inner ++ after =
      before ++ .openParen :: inner ++ .closeParen :: after := by
    simp [inParens]
  have hrun := isSentence_iff_run.mp h
  rw [hsplit, List.map_append, List.map_append, Stand.run_append, Stand.run_append] at hrun
  obtain ⟨mid, houter, hclose⟩ := Option.bind_eq_some_iff.mp hrun
  obtain ⟨⟨ended, depth⟩, -, hopen⟩ := Option.bind_eq_some_iff.mp houter
  have hinner : Stand.run ⟨false, depth + 1 + 0⟩ (inner.map Token.kind) = some mid := by
    cases ended <;> exact hopen
  obtain ⟨left, hcount, -, hlow⟩ := Stand.run_lower hinner fun n => by
    rw [Nat.zero_add]
    exact hbalanced.1 n
  obtain rfl : left = 0 := by
    have htotal := hbalanced.2
    omega
  -- only the end of an operand can be followed by a closing parenthesis
  obtain ⟨midEnded, midDepth⟩ := mid
  cases midEnded with
  | false => cases hclose
  | true => exact isSentence_iff_run.mpr hlow

theorem Stand.run_inParens {ts : List (Token α)} (h : IsSentence ts) (s : Stand) :
    s.run ((inParens ts).map Token.kind) = some ⟨true, s.depth⟩ := by
  have hgroup : Derives .group (inParens ts) := .parentheses h
  exact (hgroup.run_group s.ended s.depth).trans ((Derives.group hgroup).run_kinds s.depth)

theorem isSentence_inParens {ts : List (Token α)} (h : IsSentence ts) :
    IsSentence (inParens ts) :=
  isSentence_iff_run.mpr (Stand.run_inParens h .start)

theorem isSentence_operation_inParens {ts us : List (Token α)} (hts : IsSentence ts)
    (hus : IsSentence us) (o : Operator) :
    IsSentence (inParens ts ++ .operator o :: inParens us) :=
  .operation o (isSentence_inParens hts) (.group (.parentheses hus))

/-- A group may be put in the place of another one. -/
theorem isSentence_replace_group {before after ts us : List (Token α)} (hts : IsSentence ts)
    (hus : IsSentence us) (h : IsSentence (before ++ inParens ts ++ after)) :
    IsSentence (before ++ inParens us ++ after) := by
  rw [isSentence_iff_run, List.map_append, List.map_append, Stand.run_append,
    Stand.run_append] at h ⊢
  rw [← h]
  cases Stand.start.run (before.map Token.kind) with
  | none => rfl
  | some s => rw [Option.bind_some, Option.bind_some, Stand.run_inParens hts,
      Stand.run_inParens hus]

/-! ## The postfix order of groups -/

/-- Parentheses around a sentence change nothing in its postfix order. -/
theorem toPostfix_inParens {ts : List (Token α)} (h : IsSentence ts) :
    toPostfix (inParens ts) = toPostfix ts := by
  rw [toPostfix, Conversion.readAll_inParens h]
  simp [Conversion.finish, Conversion.start, Conversion.drain]

/-- An operator between two groups comes out behind both. -/
theorem toPostfix_operation_inParens {ts us : List (Token α)} (hts : IsSentence ts)
    (hus : IsSentence us) (o : Operator) :
    toPostfix (inParens ts ++ .operator o :: inParens us) =
      toPostfix ts ++ toPostfix us ++ [.operator o] := by
  have hread : (Conversion.start.readAll (inParens ts)).read (.operator o) =
      ⟨(toPostfix ts).reverse, [.operator o]⟩ := by
    rw [Conversion.readAll_inParens hts, Conversion.start, List.append_nil]
    rfl
  have hsplit : inParens ts ++ Token.operator o :: inParens us =
      inParens ts ++ [.operator o] ++ inParens us := by
    simp
  rw [toPostfix, hsplit, Conversion.readAll_append, Conversion.readAll_append]
  show (((Conversion.start.readAll (inParens ts)).read (.operator o)).readAll _).finish = _
  rw [hread, Conversion.readAll_inParens hus]
  simp [Conversion.finish, Conversion.drain]

/-- A second pair of parentheses around a group changes nothing. -/
theorem toPostfix_double {inner : List (Token α)} (h : IsSentence inner)
    (before after : List (Token α)) :
    toPostfix (before ++ inParens (inParens inner) ++ after) =
      toPostfix (before ++ inParens inner ++ after) := by
  have hread : ∀ c : Conversion α,
      c.readAll (inParens (inParens inner)) = c.readAll (inParens inner) := by
    intro c
    rw [Conversion.readAll_inParens (isSentence_inParens h), Conversion.readAll_inParens h,
      toPostfix_inParens h]
  simp only [toPostfix, Conversion.readAll_append, hread]

end FourFunction
