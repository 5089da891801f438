import FourFunction.Proofs.Evaluation
import FourFunction.Proofs.Groups
import FourFunction.Proofs.Height

/-!
# What has been calculated so far

The tokens that a conversion has sent out could be run at once, and all
that the rest of the text could tell of them is the stack they leave and
the pile (`Alike`). So parts of a text that leave the same of both may
stand for each other, whatever follows (`Alike.stackAfter_finish`). It
even suffices that they do so after a release of operators, if what
follows begins with something that makes that release anyway
(`stackAfter_finish_of_release`).

In this way an operand that its operator leaves without effect can be
taken out of a text:

- behind an operator, as in `a + 0` and `a / 1` (`stackAfter_trailing`);
- before an operator that begins a sum or a product, as in `0 + a` and
  `1 * a` (`stackAfter_leading`);
- and the square of a number that is divided by the number
  (`stackAfter_dividend`).
-/

namespace FourFunction

variable {α : Type}

/-! ## Ends of texts -/

/-- What the tokens begin with, if anything, releases the operators that
bind at least as tightly as `bound`. -/
def Releases (bound : Nat) (ts : List (Token α)) : Prop :=
  ∀ t, ts.head? = some t → t = .closeParen ∨ ∃ o, t = .operator o ∧ o.precedence ≤ bound

/-- What the tokens end with, if anything, holds back the operators that
bind at least as tightly as `bound`. -/
def HoldsBack (bound : Nat) (ts : List (Token α)) : Prop :=
  ∀ t, ts.getLast? = some t → t = .openParen ∨ ∃ o, t = .operator o ∧ o.precedence < bound

namespace Conversion

/-- What is released by the text that follows may be released before. -/
theorem finish_readAll_release {bound : Nat} {ts : List (Token α)} (h : Releases bound ts)
    (c : Conversion α) :
    ((c.release (Operator.bindsAtLeast bound)).readAll ts).finish = (c.readAll ts).finish := by
  cases ts with
  | nil => exact finish_release _ c
  | cons t rest =>
      have hread : (c.release (Operator.bindsAtLeast bound)).read t = c.read t := by
        rcases h t rfl with rfl | ⟨o, rfl, ho⟩
        · simp only [read, release_release fun _ _ => rfl]
        · have hstricter : ∀ o', Operator.bindsAtLeast bound o' = true →
              decide (o.precedence ≤ o'.precedence) = true := fun o' ho' =>
            decide_eq_true (Nat.le_trans ho (of_decide_eq_true ho'))
          simp only [read, release_release hstricter]
      show (((c.release _).read t).readAll rest).finish = ((c.read t).readAll rest).finish
      rw [hread]

theorem readAll_snoc (c : Conversion α) (ts : List (Token α)) (t : Token α) :
    c.readAll (ts ++ [t]) = (c.readAll ts).read t :=
  readAll_append c ts [t]

/-- Behind a text that holds operators back, nothing is released. -/
theorem held_of_holdsBack {bound : Nat} {ts : List (Token α)} (h : HoldsBack bound ts) :
    Held (Operator.bindsAtLeast bound) (start.readAll ts).pending := by
  rcases List.eq_nil_or_concat ts with rfl | ⟨before, t, rfl⟩
  · exact held_nil _
  · rw [List.concat_eq_append] at h ⊢
    rw [readAll_snoc]
    rcases h t (List.getLast?_concat ..) with rfl | ⟨o, rfl, ho⟩
    · exact held_openParen _ _
    · exact held_operator (decide_eq_false (Nat.not_le.mpr ho)) _

/-- The operator and the number behind it come out once everything does
that binds as tightly. -/
theorem release_readAll_number {c : Conversion α} {o : Operator} {bound : Nat}
    (hbound : o.precedence = bound) {ls left : List (Token α)} {pending : List Pending}
    (hheld : Held (Operator.bindsAtLeast bound) pending)
    (hl : (c.readAll ls).release (Operator.bindsAtLeast bound) = ⟨left, pending⟩) (x : α) :
    (c.readAll (ls ++ [.operator o, .number x])).release (Operator.bindsAtLeast bound) =
      ⟨.operator o :: .number x :: left, pending⟩ := by
  have hwaits : Operator.bindsAtLeast (bound + 1) o = false :=
    hbound ▸ o.bindsAtLeast_succ_precedence
  exact release_readAll_operation hbound hheld hl (release_of_held (held_operator hwaits _))

end Conversion

/-! ## Phrases at the beginning of a text -/

/-- A text that goes on behind an operand, with no group right behind it,
releases factors and products. -/
theorem releases_two_of_run {depth : Nat} {ts : List (Token α)}
    (hrun : Stand.run ⟨true, depth⟩ (ts.map Token.kind) = some .finish)
    (hnone : juxtapositionsAfter true (ts.map Token.kind) = 0) : Releases 2 ts := by
  intro t ht
  cases ts with
  | nil => cases ht
  | cons u rest =>
      cases ht
      cases t with
      | number x => cases hrun
      | operator o => exact Or.inr ⟨o, rfl, by cases o <;> decide⟩
      | openParen => simp [juxtapositionsAfter, Token.kind] at hnone
      | closeParen => exact Or.inl rfl

/-- Where an operand may begin, a factor does. -/
theorem exists_leading_factor {depth : Nat} {ts : List (Token α)}
    (hrun : Stand.run ⟨false, depth⟩ (ts.map Token.kind) = some .finish)
    (hnone : juxtapositionsAfter false (ts.map Token.kind) = 0) :
    ∃ (f : Derivation α .factor) (rest : List (Token α)), ts = f.tokens ++ rest
      ∧ Stand.run ⟨true, depth⟩ (rest.map Token.kind) = some .finish
      ∧ juxtapositionsAfter true (rest.map Token.kind) = 0 := by
  cases ts with
  | nil => cases hrun
  | cons t rest =>
      cases t with
      | number x =>
          refine ⟨.number x, rest, rfl, hrun, ?_⟩
          simpa [juxtapositionsAfter, Token.kind, Kind.endsOperand] using hnone
      | operator o => cases hrun
      | closeParen => cases hrun
      | openParen =>
          have hrest : Stand.run ⟨false, depth + 1 + 0⟩ (rest.map Token.kind) = some .finish := hrun
          obtain ⟨inner, after, rfl, hinner, hafter⟩ :=
            Stand.exists_closing hrest (Nat.zero_le depth)
          have hopened :
              juxtapositionsAfter false ((inner ++ .closeParen :: after).map Token.kind) = 0 := by
            simpa [juxtapositionsAfter, Token.kind, Kind.endsOperand] using hnone
          have happend :=
            juxtapositionsAfter_append hinner ((Token.closeParen :: after).map Token.kind)
          rw [List.map_append] at hopened
          replace hopened := happend.symm.trans hopened
          have hinnerNone := Nat.eq_zero_of_add_eq_zero_right hopened
          have hafterNone := Nat.eq_zero_of_add_eq_zero_left hopened
          obtain ⟨d, rfl⟩ : ∃ d : Derivation α .sum, d.tokens = inner :=
            Derives.exists_derivation (isSentence_iff_run.mpr hinner) hinnerNone
          refine ⟨.group d, after, by simp [Derivation.tokens], hafter, ?_⟩
          simpa [juxtapositionsAfter, Token.kind, Kind.endsOperand] using hafterNone

/-- A product that has been read goes on until something releases it. -/
theorem exists_longer_product {depth : Nat} (d : Derivation α .product) (ts : List (Token α))
    (hrun : Stand.run ⟨true, depth⟩ (ts.map Token.kind) = some .finish)
    (hnone : juxtapositionsAfter true (ts.map Token.kind) = 0) :
    ∃ (d' : Derivation α .product) (rest : List (Token α)),
      d.tokens ++ ts = d'.tokens ++ rest ∧ Releases 1 rest := by
  have hreleases := releases_two_of_run hrun hnone
  cases ts with
  | nil => exact ⟨d, [], rfl, fun t ht => by cases ht⟩
  | cons t us =>
      rcases hreleases t rfl with rfl | ⟨o, rfl, -⟩
      · exact ⟨d, _, rfl, fun t ht => by cases ht; exact Or.inl rfl⟩
      · rcases o.precedence_eq_one_or_two with hlow | hhigh
        · refine ⟨d, _, rfl, fun t ht => ?_⟩
          cases ht
          exact Or.inr ⟨o, rfl, Nat.le_of_eq hlow⟩
        · have hoperand : juxtapositionsAfter false (us.map Token.kind) = 0 := by
            simpa [juxtapositionsAfter, Token.kind, Kind.endsOperand] using hnone
          obtain ⟨f, rest, rfl, hrest, hrestNone⟩ := exists_leading_factor hrun hoperand
          have ho := Operator.precedence_eq_two_iff.mp hhigh
          obtain ⟨d', rest', heq, hreleases'⟩ :=
            exists_longer_product (.multiplied d o ho f) rest hrest hrestNone
          exact ⟨d', rest', by simpa [Derivation.tokens] using heq, hreleases'⟩
termination_by ts.length

/-- Where an operand may begin, a phrase begins that the operator does not
split, and something follows that releases the operator. -/
theorem exists_leading {depth : Nat} {ts : List (Token α)}
    (hrun : Stand.run ⟨false, depth⟩ (ts.map Token.kind) = some .finish)
    (hnone : juxtapositionsAfter false (ts.map Token.kind) = 0) (o : Operator) :
    ∃ (c : Category) (d : Derivation α c) (rest : List (Token α)),
      c.bound = o.precedence + 1 ∧ ts = d.tokens ++ rest ∧ Releases o.precedence rest := by
  obtain ⟨f, rest, rfl, hrest, hrestNone⟩ := exists_leading_factor hrun hnone
  rcases o.precedence_eq_one_or_two with hlow | hhigh
  · obtain ⟨d, rest', heq, hreleases⟩ := exists_longer_product (.ofFactor f) rest hrest hrestNone
    exact ⟨.product, d, rest', by rw [hlow]; rfl, heq, hlow ▸ hreleases⟩
  · exact ⟨.factor, f, rest, by rw [hhigh]; rfl, rfl, hhigh ▸ releases_two_of_run hrest hrestNone⟩

/-! ## Stacks, faults aside -/

variable [NumberDomain α]

/-- The stack after the tokens, `none` if something stops it. -/
def stackAfter (stack : List α) (ts : List (Token α)) : Option (List α) :=
  (runStack 0 stack ts).toOption

theorem toOption_stackStep (i j : Nat) (stack : List α) (t : Token α) :
    (stackStep i stack t).toOption = (stackStep j stack t).toOption := by
  cases t with
  | operator o => rcases stack with _ | ⟨b, _ | ⟨a, rest⟩⟩ <;> rfl
  | _ => rfl

/-- Positions only matter to faults. -/
theorem toOption_runStack (i : Nat) (stack : List α) (ts : List (Token α)) :
    (runStack i stack ts).toOption = stackAfter stack ts := by
  have hindex : ∀ j k, (runStack j stack ts).toOption = (runStack k stack ts).toOption := by
    induction ts generalizing stack with
    | nil => exact fun _ _ => rfl
    | cons t rest ih =>
        intro j k
        have hstep := toOption_stackStep j k stack t
        rw [runStack, runStack]
        cases hj : stackStep j stack t with
        | error fault => cases hk : stackStep k stack t with
          | error fault' => rfl
          | ok next => rw [hj, hk] at hstep; cases hstep
        | ok next => cases hk : stackStep k stack t with
          | error fault' => rw [hj, hk] at hstep; cases hstep
          | ok next' =>
              rw [hj, hk] at hstep
              cases hstep
              exact ih next (j + 1) (k + 1)
  exact hindex i 0

theorem stackAfter_append (stack : List α) (ts us : List (Token α)) :
    stackAfter stack (ts ++ us) = (stackAfter stack ts).bind fun next => stackAfter next us := by
  rw [stackAfter, runStack_append, stackAfter]
  cases runStack 0 stack ts with
  | error fault => rfl
  | ok next => exact toOption_runStack _ next us

@[simp] theorem stackAfter_nil (stack : List α) : stackAfter stack [] = some stack := rfl

@[simp] theorem stackAfter_number (stack : List α) (x : α) (ts : List (Token α)) :
    stackAfter stack (.number x :: ts) = stackAfter (x :: stack) ts :=
  toOption_runStack 1 (x :: stack) ts

@[simp] theorem stackAfter_operator (a b : α) (rest : List α) (o : Operator)
    (ts : List (Token α)) :
    stackAfter (b :: a :: rest) (.operator o :: ts) =
      (o.apply a b).toOption.bind fun v => stackAfter (v :: rest) ts := by
  rw [stackAfter, runStack, stackStep]
  cases o.apply a b with
  | error fault => rfl
  | ok v => exact toOption_runStack 1 (v :: rest) ts

theorem stackAfter_postorder (t : Tree α) (stack : List α) :
    stackAfter stack t.postorder = t.value.toOption.map (· :: stack) := by
  rw [stackAfter, t.runStack_postorder]
  cases t.value <;> rfl

/-- The stack that is left decides the value. -/
theorem toOption_evaluatePostfix_congr {ts us : List (Token α)}
    (h : stackAfter [] ts = stackAfter [] us) :
    (evaluatePostfix ts).toOption = (evaluatePostfix us).toOption := by
  rw [stackAfter, stackAfter] at h
  rw [evaluatePostfix, evaluatePostfix]
  cases hts : runStack 0 [] ts with
  | error fault => cases hus : runStack 0 [] us with
    | error fault' => rfl
    | ok final => rw [hts, hus] at h; cases h
  | ok final => cases hus : runStack 0 [] us with
    | error fault => rw [hts, hus] at h; cases h
    | ok final' =>
        rw [hts, hus] at h
        cases h
        rfl

/-! ## Conversions that look alike -/

namespace Conversion

/-- The same waits in both, and what both have sent out leaves the same
stack. -/
structure Alike (c c' : Conversion α) : Prop where
  pending : c.pending = c'.pending
  values : stackAfter [] c.output.reverse = stackAfter [] c'.output.reverse

theorem Alike.stackAfter_finish {c c' : Conversion α} (h : c.Alike c') (ts : List (Token α)) :
    stackAfter [] (c.readAll ts).finish = stackAfter [] (c'.readAll ts).finish := by
  have hfinish : ∀ (c : Conversion α), (c.readAll ts).finish =
      c.output.reverse ++ (readAll ⟨[], c.pending⟩ ts).finish := by
    intro c
    have honto : c = onto ⟨[], c.pending⟩ c.output [] := by simp [onto]
    rw [honto, readAll_onto_nil]
    simp [finish, onto]
  rw [hfinish c, hfinish c', stackAfter_append, stackAfter_append, h.values, h.pending]

/-- It is enough to look alike after a release that what follows makes in
any case. -/
theorem stackAfter_finish_of_release {c c' : Conversion α} {bound : Nat} {ts : List (Token α)}
    (hts : Releases bound ts)
    (h : (c.release (Operator.bindsAtLeast bound)).Alike
      (c'.release (Operator.bindsAtLeast bound))) :
    stackAfter [] (c.readAll ts).finish = stackAfter [] (c'.readAll ts).finish := by
  rw [← finish_readAll_release hts c, ← finish_readAll_release hts c', h.stackAfter_finish]

/-- With an operand ended, the stack holds a value, if nothing has stopped
it. -/
theorem Surplus.stackAfter_output {c : Conversion α} {n : Nat} (h : c.Surplus (n + 1)) :
    stackAfter [] c.output.reverse = none
      ∨ ∃ a rest, stackAfter [] c.output.reverse = some (a :: rest) := by
  rcases @runStack_of_runHeight α _ 0 _ [] _ h with herr | ⟨final, hok, hlen⟩
  · exact Or.inl (by rw [stackAfter, herr]; rfl)
  · cases final with
    | nil => simp at hlen; omega
    | cons a rest => exact Or.inr ⟨a, rest, by rw [stackAfter, hok]; rfl⟩

end Conversion

open Conversion

/-! ## Operands without effect -/

/-- An operand without effect behind its operator. -/
theorem stackAfter_trailing {o : Operator} {y : α} (hneutral : ∀ a, o.apply a y = .ok a)
    {ts us : List (Token α)} {depth : Nat}
    (hrun : Stand.start.run (ts.map Token.kind) = some ⟨true, depth⟩)
    (hus : Releases o.precedence us) :
    stackAfter [] (toPostfix (ts ++ [.operator o, .number y] ++ us)) =
      stackAfter [] (toPostfix (ts ++ us)) := by
  have hstart : (start : Conversion α).Surplus (0 + Stand.start.operands) := rfl
  have hsurplus := (hstart.readAll hrun).release (Operator.bindsAtLeast o.precedence)
  have hheld := held_release (Operator.bindsAtLeast o.precedence) (start.readAll ts)
  cases hleft : (start.readAll ts).release (Operator.bindsAtLeast o.precedence) with
  | mk left pending =>
      rw [hleft] at hsurplus hheld
      have hright := release_readAll_number rfl hheld hleft y
      rw [toPostfix, toPostfix, readAll_append, readAll_append start ts us]
      refine stackAfter_finish_of_release hus ?_
      rw [hright, hleft]
      refine ⟨rfl, ?_⟩
      have hsplit : (Token.operator o :: .number y :: left).reverse =
          left.reverse ++ [.number y, .operator o] := by
        simp
      rw [hsplit, stackAfter_append]
      -- the operand that has ended is on top of the stack, and stays as it is
      rcases hsurplus.stackAfter_output with hnone | ⟨a, rest, hsome⟩
      · rw [hnone]
        rfl
      · simp [hsome, hneutral, Except.toOption]

/-- An operand without effect before its operator, where a text begins
that this operator does not split. -/
theorem stackAfter_leading {o : Operator} {y : α} (hneutral : ∀ v, o.apply y v = .ok v)
    {ts us : List (Token α)} (hts : HoldsBack o.precedence ts) {c : Category}
    (d : Derivation α c) (hc : c.bound = o.precedence + 1) (hus : Releases o.precedence us) :
    stackAfter [] (toPostfix (ts ++ [.number y, .operator o] ++ (d.tokens ++ us))) =
      stackAfter [] (toPostfix (ts ++ (d.tokens ++ us))) := by
  have hheld := held_of_holdsBack hts
  have hfirst : ((start.readAll ts).readAll [.number y]).release
      (Operator.bindsAtLeast o.precedence) =
        ⟨.number y :: (start.readAll ts).output, (start.readAll ts).pending⟩ :=
    release_of_held hheld
  have hstricter : ∀ o', Operator.bindsAtLeast (o.precedence + 1) o' = true →
      Operator.bindsAtLeast o.precedence o' = true := fun _ => Operator.bindsAtLeast_of_succ
  have hphrase := d.release_readAll
    ⟨.number y :: (start.readAll ts).output, .operator o :: (start.readAll ts).pending⟩
    (held_operator (hc ▸ o.bindsAtLeast_succ_precedence) _)
  have hbare := d.release_readAll (start.readAll ts)
    (hc ▸ hheld.of_imp fun _ => Operator.bindsAtLeast_of_succ)
  rw [hc] at hphrase hbare
  -- with the operand, the operator waits below the phrase and is released behind it
  have hwith := release_readAll_operation rfl hheld hfirst hphrase
  have hwithout := release_of_release_succ hbare hheld
  have hsplit : ts ++ [.number y, .operator o] ++ (d.tokens ++ us) =
      ts ++ ([.number y] ++ .operator o :: d.tokens) ++ us := by
    simp
  rw [hsplit, ← List.append_assoc ts d.tokens, toPostfix, toPostfix, readAll_append,
    readAll_append start ts, readAll_append start _ us, readAll_append start ts]
  refine stackAfter_finish_of_release hus ?_
  rw [hwith, hwithout]
  refine ⟨rfl, ?_⟩
  have houtput : (Token.operator o :: (d.tree.postorder.reverse ++
      .number y :: (start.readAll ts).output)).reverse =
        (start.readAll ts).output.reverse ++ (.number y :: (d.tree.postorder ++ [.operator o])) := by
    simp
  rw [houtput, List.reverse_append, List.reverse_reverse, stackAfter_append, stackAfter_append]
  refine congrArg _ (funext fun stack => ?_)
  rw [stackAfter_number, stackAfter_append, stackAfter_postorder, stackAfter_postorder]
  cases d.tree.value with
  | error fault => rfl
  | ok v => simp [hneutral, Except.toOption]

/-- The square of a number, divided by the number. -/
theorem stackAfter_dividend {b : α}
    (hsquare : Operator.divide.apply (NumberDomain.square b) b = .ok b)
    (hproduct : ∀ a, Operator.divide.apply (NumberDomain.mul a (NumberDomain.square b)) b =
      .ok (NumberDomain.mul a b))
    {ts us : List (Token α)} (hts : HoldsBack 2 ts ∨ ts.getLast? = some (.operator .times))
    (hus : Releases 2 us) :
    stackAfter [] (toPostfix
        (ts ++ [.number (NumberDomain.square b), .operator .divide, .number b] ++ us)) =
      stackAfter [] (toPostfix (ts ++ [.number b] ++ us)) := by
  have hsplit : ts ++ [.number (NumberDomain.square b), .operator .divide, .number b] =
      ts ++ [.number (NumberDomain.square b)] ++ [.operator .divide, .number b] := by
    simp
  have hdivide : Operator.divide.precedence = 2 := rfl
  have htimes : Operator.times.precedence = 2 := rfl
  have htimesApply : ∀ x y : α, Operator.times.apply x y = .ok (NumberDomain.mul x y) :=
    fun _ _ => rfl
  rw [toPostfix, toPostfix, readAll_append, readAll_append _ _ us]
  refine stackAfter_finish_of_release hus ?_
  rw [hsplit]
  -- either nothing waits for the quotient, or a `*` does, and its product is divided
  rcases hts with hholds | hlast
  · have hheld := held_of_holdsBack hholds
    have hread : ∀ x, (start.readAll (ts ++ [.number x])).release (Operator.bindsAtLeast 2) =
        ⟨.number x :: (start.readAll ts).output, (start.readAll ts).pending⟩ := by
      intro x
      rw [readAll_snoc]
      exact release_of_held hheld
    rw [release_readAll_number hdivide hheld (hread _), hread]
    refine ⟨rfl, ?_⟩
    simp [stackAfter_append, hsquare, Except.toOption]
  · obtain ⟨before, rfl⟩ : ∃ before, ts = before ++ [.operator .times] :=
      List.getLast?_eq_some_iff.mp hlast
    have hheld := held_release (Operator.bindsAtLeast 2) (start.readAll before)
    cases hleft : (start.readAll before).release (Operator.bindsAtLeast 2) with
    | mk left pending =>
        rw [hleft] at hheld
        have hread : ∀ x, (start.readAll (before ++ [.operator .times] ++ [.number x])).release
            (Operator.bindsAtLeast 2) = ⟨.operator .times :: .number x :: left, pending⟩ := by
          intro x
          rw [List.append_assoc]
          exact release_readAll_number htimes hheld hleft x
        rw [release_readAll_number hdivide hheld (hread _), hread]
        refine ⟨rfl, ?_⟩
        simp only [List.reverse_cons, List.append_assoc, List.singleton_append, stackAfter_append]
        refine congrArg _ (funext fun stack => ?_)
        cases stack with
        | nil => rfl
        | cons a rest => simp [htimesApply, hproduct, Except.toOption]

end FourFunction
