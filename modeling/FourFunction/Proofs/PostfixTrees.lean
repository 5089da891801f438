import Mathlib.Logic.ExistsUnique
import FourFunction.Proofs.Evaluation
import FourFunction.Rules

/-!
# Which postfix sequences have a value

The stack may be tried on any tokens, not only on the postfix order of
an expression. As far as it comes, it has read the postorders of some
trees, one after the other, and holds their values (`Forest`): a number
begins a new tree, and an operator joins the last two. Reading a token
keeps that up (`Forest.step`). The tokens determine the trees, for what
comes last in a postorder says what kind of tree it is
(`append_postorder_inj`), and each tree holds one number more than
operators, so the forest knows which tokens stop the stack
(`Forest.stackStep_eq_error_iff`). At the end there is a value just when
the forest is a single tree.
-/

namespace FourFunction

variable {α : Type}

/-! ## Postorders -/

namespace Tree

/-- The last tree of a sequence is determined by the sequence. -/
theorem append_postorder_inj {t t' : Tree α} {before before' : List (Token α)}
    (h : before ++ t.postorder = before' ++ t'.postorder) : before = before' ∧ t = t' := by
  induction t generalizing t' before before' with
  | leaf x =>
      cases t' with
      | leaf y =>
          obtain ⟨hbefore, hlast⟩ := List.append_inj' h rfl
          cases hlast
          exact ⟨hbefore, rfl⟩
      | node o left right =>
          rw [postorder, postorder, ← List.append_assoc] at h
          cases (List.append_inj' h rfl).2
  | node o left right ihl ihr =>
      cases t' with
      | leaf y =>
          rw [postorder, postorder, ← List.append_assoc] at h
          cases (List.append_inj' h rfl).2
      | node o' left' right' =>
          rw [postorder, postorder, ← List.append_assoc before,
            ← List.append_assoc before' (_ ++ _)] at h
          obtain ⟨hoperands, hlast⟩ := List.append_inj' h rfl
          cases hlast
          rw [← List.append_assoc, ← List.append_assoc] at hoperands
          obtain ⟨hleft, rfl⟩ := ihr hoperands
          obtain ⟨hbefore, rfl⟩ := ihl hleft
          exact ⟨hbefore, rfl⟩

theorem postorder_inj {t t' : Tree α} (h : t.postorder = t'.postorder) : t = t' := by
  have happend : [] ++ t.postorder = [] ++ t'.postorder := h
  exact (append_postorder_inj happend).2

theorem numberCount_postorder (t : Tree α) :
    numberCount t.postorder = operatorCount t.postorder + 1 := by
  induction t with
  | leaf x => rfl
  | node o left right ihl ihr =>
      simp only [numberCount, operatorCount] at ihl ihr ⊢
      simp [postorder, ihl, ihr, Token.isNumber, Token.operator?]
      omega

end Tree

/-! ## Operators on the stack -/

theorem map_cons_eq_error_iff {x : Except Fault α} {rest : List α} {fault : Fault} :
    x.map (· :: rest) = .error fault ↔ x = .error fault := by
  cases x <;> simp [Except.map]

/-- Too few values, or two on top. -/
theorem length_lt_two_or (stack : List α) :
    stack.length < 2 ∨ ∃ b a rest, stack = b :: a :: rest := by
  rcases stack with _ | ⟨b, _ | ⟨a, rest⟩⟩
  · exact Or.inl (by simp)
  · exact Or.inl (by simp)
  · exact Or.inr ⟨b, a, rest, rfl⟩

variable [NumberDomain α]

theorem stackStep_operator_of_short {i : Nat} {stack : List α} (h : stack.length < 2)
    (o : Operator) : stackStep i stack (.operator o) = .error (.malformedPostfix (some i)) := by
  rcases stack with _ | ⟨b, _ | ⟨a, rest⟩⟩
  · rfl
  · rfl
  · exact absurd h (Nat.not_lt.mpr (Nat.le_add_left 2 rest.length))

theorem stackStep_operator (i : Nat) (o : Operator) (a b : α) (rest : List α) :
    stackStep i (b :: a :: rest) (.operator o) = (o.apply a b).map (· :: rest) := by
  rw [stackStep]
  cases o.apply a b <;> rfl

/-! ## Forests -/

/-- The tokens `ts` are the postorders of trees, one after the other, and
`stack` holds the values of the trees, that of the last on top. -/
inductive Forest : List (Token α) → List α → Prop where
  | nil : Forest [] []
  | snoc {ts : List (Token α)} {stack : List α} {t : Tree α} {v : α} : Forest ts stack →
      t.value = .ok v → Forest (ts ++ t.postorder) (v :: stack)

namespace Forest

variable {ts us : List (Token α)} {stack : List α}

theorem exists_last {v : α} (h : Forest ts (v :: stack)) :
    ∃ (before : List (Token α)) (t : Tree α), Forest before stack ∧ t.value = .ok v
      ∧ ts = before ++ t.postorder := by
  cases h with
  | snoc hbefore hv => exact ⟨_, _, hbefore, hv, rfl⟩

/-- What lies on top of the stack is determined by the tokens. -/
theorem onTop_iff {v w : α} (h : Forest ts (v :: stack)) : OnTop ts w ↔ w = v := by
  obtain ⟨before, t, -, hv, hts⟩ := h.exists_last
  constructor
  · rintro ⟨before', t', hts', hw⟩
    obtain ⟨-, rfl⟩ := Tree.append_postorder_inj (hts'.symm.trans hts)
    exact Except.ok.inj (hw.symm.trans hv)
  · rintro rfl
    exact ⟨before, t, hts, hv⟩

/-- The height of the stack can be counted. -/
theorem numberCount_eq (h : Forest ts stack) :
    numberCount ts = operatorCount ts + stack.length := by
  induction h with
  | nil => rfl
  | @snoc ts stack t v _ _ ih =>
      have htree := t.numberCount_postorder
      simp only [numberCount, operatorCount, List.countP_append, List.length_cons] at ih htree ⊢
      omega

/-! ### Reading -/

theorem number (h : Forest ts stack) (x : α) : Forest (ts ++ [.number x]) (x :: stack) :=
  .snoc (t := .leaf x) h rfl

/-- An operator makes one tree of the last two. -/
theorem operator {a b v : α} {o : Operator} (h : Forest ts (b :: a :: stack))
    (happly : o.apply a b = .ok v) : Forest (ts ++ [.operator o]) (v :: stack) := by
  obtain ⟨rest, right, hrest, hb, rfl⟩ := h.exists_last
  obtain ⟨before, left, hbefore, ha, rfl⟩ := hrest.exists_last
  have hvalue : (Tree.node o left right).value = .ok v := by
    rw [Tree.value_node, ha, hb]
    exact happly
  simpa [Tree.postorder] using hbefore.snoc hvalue

/-- Whatever the stack can read keeps it holding a forest. -/
theorem step {i : Nat} {t : Token α} {next : List α} (h : Forest ts stack)
    (hstep : stackStep i stack t = .ok next) : Forest (ts ++ [t]) next := by
  cases t with
  | number x =>
      cases hstep
      exact h.number x
  | operator o =>
      rcases length_lt_two_or stack with hshort | ⟨b, a, below, rfl⟩
      · cases (stackStep_operator_of_short hshort o).symm.trans hstep
      · rw [stackStep_operator] at hstep
        cases happly : o.apply a b with
        | ok v =>
            rw [happly] at hstep
            cases hstep
            exact h.operator happly
        | error fault =>
            rw [happly] at hstep
            cases hstep
  | openParen => cases hstep
  | closeParen => cases hstep

end Forest

/-! ## Where the stack stops -/

theorem Stopped.lt_length {ts : List (Token α)} {i : Nat} {fault : Fault}
    (h : Stopped ts i fault) : i < ts.length := by
  have hlt : ∀ {t : Token α}, ts[i]? = some t → i < ts.length :=
    fun ht => (List.getElem?_eq_some_iff.mp ht).1
  cases h with
  | openParen ht => exact hlt ht
  | closeParen ht => exact hlt ht
  | short ht _ => exact hlt ht
  | zeroDivisor ht _ _ _ => exact hlt ht

/-- The next token stops the stack just when it stands at a position that
stops it. -/
theorem Forest.stackStep_eq_error_iff {ts rest : List (Token α)} {stack : List α}
    (h : Forest ts stack) (t : Token α) {fault : Fault} :
    stackStep ts.length stack t = .error fault ↔ Stopped (ts ++ t :: rest) ts.length fault := by
  have hhere : (ts ++ t :: rest)[ts.length]? = some t := by simp
  have htake : (ts ++ t :: rest).take ts.length = ts := by simp
  have hcount := h.numberCount_eq
  constructor
  · intro hstep
    cases t with
    | number x => cases hstep
    | openParen =>
        cases hstep
        exact .openParen hhere
    | closeParen =>
        cases hstep
        exact .closeParen hhere
    | operator o =>
        rcases length_lt_two_or stack with hshort | ⟨b, a, below, rfl⟩
        · cases (stackStep_operator_of_short hshort o).symm.trans hstep
          exact .short hhere (by rw [htake]; omega)
        · rw [stackStep_operator, map_cons_eq_error_iff] at hstep
          obtain ⟨rfl, rfl, hzero⟩ := Tree.apply_eq_error_iff.mp hstep
          rw [List.length_cons, List.length_cons] at hcount
          exact .zeroDivisor hhere (by rw [htake]; omega) (by rw [htake]; exact h.onTop_iff.mpr rfl)
            hzero
  · intro hstopped
    cases hstopped with
    | openParen ht =>
        cases hhere.symm.trans ht
        rfl
    | closeParen ht =>
        cases hhere.symm.trans ht
        rfl
    | short ht hshort =>
        cases hhere.symm.trans ht
        rw [htake] at hshort
        exact stackStep_operator_of_short (by omega) _
    | @zeroDivisor b ht henough htop hzero =>
        cases hhere.symm.trans ht
        rw [htake] at henough htop
        rcases length_lt_two_or stack with hshort | ⟨b', a, below, rfl⟩
        · omega
        · obtain rfl := h.onTop_iff.mp htop
          rw [stackStep_operator, map_cons_eq_error_iff]
          exact Tree.apply_eq_error_iff.mpr ⟨rfl, rfl, hzero⟩

/-- A position stops the stack with one fault only. -/
theorem Stopped.fault_inj {ts : List (Token α)} {i : Nat} {fault fault' : Fault}
    (h : Stopped ts i fault) (h' : Stopped ts i fault') : fault = fault' := by
  cases h with
  | zeroDivisor ht henough _ _ =>
      cases h' with
      | zeroDivisor _ _ _ _ => rfl
      | openParen ht' => cases ht.symm.trans ht'
      | closeParen ht' => cases ht.symm.trans ht'
      | short _ hshort => omega
  | short ht hshort =>
      cases h' with
      | zeroDivisor _ henough _ _ => omega
      | _ => rfl
  | openParen ht =>
      cases h' with
      | zeroDivisor ht' _ _ _ => cases ht.symm.trans ht'
      | _ => rfl
  | closeParen ht =>
      cases h' with
      | zeroDivisor ht' _ _ _ => cases ht.symm.trans ht'
      | _ => rfl

/-! ## Runs -/

/-- A run that has come to a forest without a stop goes through to the
end, or stops at the first position that stops the stack. -/
theorem Forest.run {ts us : List (Token α)} {stack : List α} (h : Forest ts stack)
    (hsound : ∀ j < ts.length, ∀ fault, ¬ Stopped (ts ++ us) j fault) :
    (∃ final, runStack ts.length stack us = .ok final ∧ Forest (ts ++ us) final
        ∧ ∀ j fault, ¬ Stopped (ts ++ us) j fault)
      ∨ ∃ i fault, runStack ts.length stack us = .error fault ∧ Stopped (ts ++ us) i fault
          ∧ ∀ j < i, ∀ other, ¬ Stopped (ts ++ us) j other := by
  induction us generalizing ts stack with
  | nil =>
      rw [List.append_nil] at hsound ⊢
      exact Or.inl ⟨stack, rfl, h, fun j fault hj => hsound j hj.lt_length fault hj⟩
  | cons t rest ih =>
      rw [runStack]
      cases hstep : stackStep ts.length stack t with
      | error fault =>
          exact Or.inr ⟨ts.length, fault, rfl, (h.stackStep_eq_error_iff t).mp hstep, hsound⟩
      | ok next =>
          have hnext := h.step hstep
          have hread := @ih (ts ++ [t]) next hnext
          rw [List.length_append, List.append_assoc] at hread
          refine hread fun j hj fault hstopped => ?_
          rcases Nat.lt_succ_iff_lt_or_eq.mp hj with hlt | rfl
          · exact hsound j hlt fault hstopped
          · cases hstep.symm.trans ((h.stackStep_eq_error_iff t).mpr hstopped)

/-- What comes of any tokens. If no position stops the stack, it is the
value of a single tree or a leftover, and otherwise the fault of the first
position that does. -/
theorem evaluatePostfix_cases (ts : List (Token α)) :
    ((∀ j fault, ¬ Stopped ts j fault)
        ∧ ((∃ (t : Tree α) (v : α), evaluatePostfix ts = .ok v ∧ t.postorder = ts
              ∧ t.value = .ok v)
          ∨ evaluatePostfix ts = .error (.malformedPostfix none)))
      ∨ ∃ i fault, evaluatePostfix ts = .error fault ∧ Stopped ts i fault
          ∧ ∀ j < i, ∀ other, ¬ Stopped ts j other := by
  have hnone : ∀ j < ([] : List (Token α)).length, ∀ fault, ¬ Stopped ([] ++ ts) j fault :=
    fun j hj => absurd hj (Nat.not_lt_zero j)
  rcases Forest.nil.run hnone with ⟨final, hrun, hforest, hsound⟩ | ⟨i, fault, hrun, hfirst⟩
  · replace hrun : runStack 0 [] ts = .ok final := hrun
    rw [evaluatePostfix, hrun]
    refine Or.inl ⟨hsound, ?_⟩
    rcases final with _ | ⟨v, _ | ⟨w, rest⟩⟩
    · exact Or.inr rfl
    · obtain ⟨before, t, hbefore, hv, hts⟩ := hforest.exists_last
      cases hbefore
      exact Or.inl ⟨t, v, rfl, hts.symm, hv⟩
    · exact Or.inr rfl
  · replace hrun : runStack 0 [] ts = .error fault := hrun
    rw [evaluatePostfix, hrun]
    exact Or.inr ⟨i, fault, rfl, hfirst⟩

theorem evaluatePostfix_of_tree {t : Tree α} {ts : List (Token α)} {v : α}
    (hts : t.postorder = ts) (hv : t.value = .ok v) : evaluatePostfix ts = .ok v := by
  rw [← hts, t.evaluatePostfix_postorder, hv]

/-- A sequence has one first position that stops the stack, and one fault
there. -/
theorem Stopped.first_inj {ts : List (Token α)} {i i' : Nat} {fault fault' : Fault}
    (h : Stopped ts i fault) (hfirst : ∀ j < i, ∀ other, ¬ Stopped ts j other)
    (h' : Stopped ts i' fault') (hfirst' : ∀ j < i', ∀ other, ¬ Stopped ts j other) :
    fault = fault' := by
  rcases Nat.lt_trichotomy i i' with hlt | rfl | hlt
  · exact absurd h (hfirst' i hlt fault)
  · exact h.fault_inj h'
  · exact absurd h' (hfirst i' hlt fault')

/-- The stack comes to the verdict on any tokens. -/
theorem stackVerdict_evaluatePostfix (ts : List (Token α)) :
    StackVerdict ts (evaluatePostfix ts) := by
  rcases evaluatePostfix_cases ts with
    ⟨hsound, ⟨t, v, hok, hts, hv⟩ | herr⟩ | ⟨i, fault, herr, hstopped, hfirst⟩
  · rw [hok]
    exact .value hts hv
  · rw [herr]
    refine .leftover hsound ?_
    rintro ⟨t, v, hts, hv⟩
    cases herr.symm.trans (evaluatePostfix_of_tree hts hv)
  · rw [herr]
    exact .stopped hstopped hfirst

/-- There is one verdict. -/
theorem StackVerdict.evaluatePostfix_eq {ts : List (Token α)} {outcome : Except Fault α}
    (h : StackVerdict ts outcome) : evaluatePostfix ts = outcome := by
  cases h with
  | value hts hv => exact evaluatePostfix_of_tree hts hv
  | stopped hstopped hfirst =>
      rcases evaluatePostfix_cases ts with ⟨hsound, -⟩ | ⟨i, fault, herr, hstopped', hfirst'⟩
      · exact absurd hstopped (hsound _ _)
      · rw [herr, hstopped'.first_inj hfirst' hstopped hfirst]
  | leftover hsound htree =>
      rcases evaluatePostfix_cases ts with
        ⟨-, ⟨t, v, -, hts, hv⟩ | herr⟩ | ⟨i, fault, -, hstopped, -⟩
      · exact absurd ⟨t, v, hts, hv⟩ htree
      · exact herr
      · exact absurd hstopped (hsound i fault)

/-- The stack decides which tokens are the postorder of a tree with a
value, and of the others it reports the first fault. A sequence has the
value `v` just when it is the postorder of a tree with the value `v`, and
then of one tree only. Otherwise the first position counts at which there
is a parenthesis, or an operator with fewer than two more numbers than
operators before it, or a division with a zero on top: the first two make
the sequence malformed at that position, the third is a division by zero.
Without such a position it is malformed as a whole. -/
theorem evaluatePostfix_decides (ts : List (Token α)) :
    (∀ v, evaluatePostfix ts = .ok v ↔ ∃! t : Tree α, t.postorder = ts ∧ t.value = .ok v)
      ∧ ∀ outcome, evaluatePostfix ts = outcome ↔ StackVerdict ts outcome := by
  refine ⟨fun v => ⟨fun hvalue => ?_, fun ⟨t, ⟨hts, hv⟩, _⟩ => evaluatePostfix_of_tree hts hv⟩,
    fun outcome => ⟨fun houtcome => ?_, StackVerdict.evaluatePostfix_eq⟩⟩
  · have hverdict := stackVerdict_evaluatePostfix ts
    rw [hvalue] at hverdict
    cases hverdict with
    | @value t _ hts hv =>
        exact ⟨t, ⟨hts, hv⟩, fun t' ht' => Tree.postorder_inj (ht'.1.trans hts.symm)⟩
  · rw [← houtcome]
    exact stackVerdict_evaluatePostfix ts

/-- `1 0 / 2 -` stops at the division, before the subtraction is read;
`0 /` at its division too, but for want of a dividend. -/
example :
    evaluatePostfix [.number 1, .number 0, .operator .divide, .number (2 : Rat),
        .operator .minus] = .error .divisionByZero
      ∧ evaluatePostfix [.number (0 : Rat), .operator .divide] =
        .error (.malformedPostfix (some 1)) := by
  exact ⟨rfl, rfl⟩

end FourFunction
