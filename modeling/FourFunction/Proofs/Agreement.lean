import FourFunction.Calculation
import FourFunction.Proofs.Acceptance
import FourFunction.Proofs.Conservation
import FourFunction.Proofs.Exactness
import FourFunction.Proofs.Settling

/-!
# Doubles and exact rationals agree

Let doubles stand where rationals stand in a second sequence, each for
the rational there. As long as all that comes up in the exact
calculation is the value of some double, both calculations take the same
course: the check sees the same kinds, the large-number rule finds the
same numbers too large and puts the same numbers in their place, and
every operation comes out even (`Exactness`). That two sequences go
together is written by mapping them to a common image: the doubles
through `ofDouble?`, the rationals through `some`.
-/

namespace FourFunction

open Rational (ofDouble? IsDouble)

variable {α β γ δ : Type}

/-- What is determined by the images agrees if the images do. -/
theorem map_eq_map_of_map_eq {f : α → γ} {g : β → γ} {f' : α → δ} {g' : β → δ}
    (h : ∀ a b, f a = g b → f' a = g' b) {as : List α} {bs : List β}
    (himage : as.map f = bs.map g) : as.map f' = bs.map g' := by
  induction as generalizing bs with
  | nil =>
      cases bs with
      | nil => rfl
      | cons b bs => cases himage
  | cons a as ih =>
      cases bs with
      | nil => cases himage
      | cons b bs =>
          obtain ⟨hhead, htail⟩ := List.cons.inj himage
          rw [List.map_cons, List.map_cons, h a b hhead, ih htail]

theorem map_eq_map_cases {f : α → γ} {g : β → γ} {a : Except Fault α} {b : Except Fault β}
    (h : a.map f = b.map g) :
    (∃ fault, a = .error fault ∧ b = .error fault)
      ∨ ∃ x y, a = .ok x ∧ b = .ok y ∧ f x = g y := by
  cases a with
  | error fault =>
      cases b with
      | error fault' =>
          cases h
          exact Or.inl ⟨fault, rfl, rfl⟩
      | ok y => cases h
  | ok x =>
      cases b with
      | error fault => cases h
      | ok y => exact Or.inr ⟨x, y, rfl, rfl, Except.ok.inj h⟩

/-! ## Elements and tokens -/

/-- The same element with `f x` for a number `x`. -/
def Element.map (f : α → β) : Element α → Element β
  | number x => number (f x)
  | symbol s => symbol s

/-- A double goes with the rational it stands for, a symbol with itself. -/
inductive Token.Agrees : Token Float → Token Rat → Prop where
  | number {x : Float} {q : Rat} : ofDouble? x = some q → Agrees (.number x) (.number q)
  | operator (o : Operator) : Agrees (.operator o) (.operator o)
  | openParen : Agrees .openParen .openParen
  | closeParen : Agrees .closeParen .closeParen

theorem Token.agrees_of_map_eq {t : Token Float} {u : Token Rat}
    (h : t.map ofDouble? = u.map some) : t.Agrees u := by
  cases t with
  | number x => cases u <;> first | exact .number (Token.number.inj h) | cases h
  | operator o => cases u <;> cases h; exact .operator o
  | openParen => cases u <;> cases h; exact .openParen
  | closeParen => cases u <;> cases h; exact .closeParen

theorem Token.map_ofSymbol? (f : α → β) (s : String) :
    (ofSymbol? s).map (Token.map f) = ofSymbol? s := by
  unfold ofSymbol?
  split <;> rfl

theorem Element.classify_agree {e : Element Float} {q : Element Rat}
    (h : e.map ofDouble? = q.map some) :
    e.classify.map (Token.map ofDouble?) = q.classify.map (Token.map some) := by
  cases e with
  | number x =>
      cases q with
      | symbol s => cases h
      | number q =>
          have hx : ofDouble? x = some q := Element.number.inj h
          have hfin : NumberDomain.isFinite x = true := Rational.isFinite_iff.mpr ⟨q, hx⟩
          simp only [classify, hfin, if_true, Option.map_some, Token.map, hx]
          rfl
  | symbol s =>
      cases q with
      | number q => cases h
      | symbol s' =>
          cases h
          exact (Token.map_ofSymbol? _ s).trans (Token.map_ofSymbol? _ s).symm

theorem Element.kind?_agree {e : Element Float} {q : Element Rat}
    (h : e.map ofDouble? = q.map some) : e.kind? = q.kind? := by
  have hkind := congrArg (Option.map Token.kind) (classify_agree h)
  simpa [kind?, Function.comp_def] using hkind

/-! ## The check -/

namespace Expression

variable [NumberDomain α]

/-- The check in two steps, of the length and of the kinds. -/
theorem map_ofElements (settings : Settings) (f : List (Token α) → β) (es : List (Element α)) :
    (ofElements settings es).map (fun e => f e.tokens) =
      match lengthFault settings es.length, firstFault (es.map Element.kind?) with
      | some fault, _ => .error fault
      | none, some fault => .error fault
      | none, none => .ok (f (es.filterMap Element.classify)) := by
  unfold ofElements
  split
  · simp only [*]
    rfl
  · split
    · simp only [*]
      rfl
    · simp only [*]
      rfl

end Expression

variable {settings : Settings}

theorem ofElements_agree {es : List (Element Float)} {qs : List (Element Rat)}
    (h : es.map (Element.map ofDouble?) = qs.map (Element.map some)) :
    (Expression.ofElements settings es).map (fun e => e.tokens.map (Token.map ofDouble?)) =
      (Expression.ofElements settings qs).map fun e => e.tokens.map (Token.map some) := by
  have hlength : es.length = qs.length := by simpa using congrArg List.length h
  have hkinds : es.map Element.kind? = qs.map Element.kind? :=
    map_eq_map_of_map_eq (fun _ _ => Element.kind?_agree) h
  have htokens : (es.filterMap Element.classify).map (Token.map ofDouble?) =
      (qs.filterMap Element.classify).map (Token.map some) := by
    have hclass := map_eq_map_of_map_eq (fun _ _ => Element.classify_agree) h
    simpa [List.filterMap_map, Function.comp_def, List.map_filterMap]
      using congrArg (List.filterMap id) hclass
  rw [Expression.map_ofElements _ (List.map (Token.map ofDouble?)),
    Expression.map_ofElements _ (List.map (Token.map some)), hlength, hkinds, htokens]

/-! ## The large-number rule -/

namespace Context

/-- The same surroundings with `f x` for each number `x`. -/
def map (f : α → β) (c : Context α) : Context β :=
  ⟨c.before.map (Token.map f), c.here.map f, c.after.map (Token.map f),
    c.afterNext.map (Token.map f)⟩

theorem divisor?_map (f : α → β) (c : Context α) : (c.map f).divisor? = c.divisor?.map f := by
  obtain ⟨before, here, after, afterNext⟩ := c
  rcases after with _ | (x | o | _ | _)
  · rfl
  · rfl
  · cases o with
    | divide => rcases afterNext with _ | (b | o' | _ | _) <;> rfl
    | _ => rfl
  · rfl
  · rfl

theorem operator?_map (f : α → β) (t? : Option (Token α)) :
    (t?.map (Token.map f)).bind Token.operator? = t?.bind Token.operator? := by
  rcases t? with _ | (x | o | _ | _) <;> rfl

/-- What the rule puts in the place of a double is what it puts in the
place of the rational, if that is a double. -/
theorem standIn_agree {c : Context Float} {d : Context Rat}
    (h : c.map ofDouble? = d.map some) (hdouble : IsDouble d.standIn) :
    ofDouble? c.standIn = some d.standIn := by
  have hbefore : c.before.bind Token.operator? = d.before.bind Token.operator? := by
    rw [← operator?_map ofDouble?, ← operator?_map some d.before]
    exact congrArg (fun c => c.before.bind Token.operator?) h
  have hafter : c.after.bind Token.operator? = d.after.bind Token.operator? := by
    rw [← operator?_map ofDouble?, ← operator?_map some d.after]
    exact congrArg (fun c => c.after.bind Token.operator?) h
  have hdivisor : c.divisor?.map ofDouble? = d.divisor?.map some := by
    rw [← divisor?_map, ← divisor?_map, h]
  rw [standIn_eq] at hdouble ⊢
  rw [standIn_eq d, hbefore, hafter]
  split
  · exact Rational.ofDouble?_one
  · rename_i hdivide
    rw [if_neg hdivide] at hdouble
    cases hd : d.divisor? with
    | some q =>
        rw [hd] at hdivisor hdouble
        obtain ⟨b, hb, hbq⟩ := Option.map_eq_some_iff.mp hdivisor
        rw [hb]
        exact Rational.ofDouble?_mul hbq hbq hdouble
    | none =>
        rw [hd] at hdivisor
        rw [Option.map_eq_none_iff.mp hdivisor]
        dsimp only
        split
        · exact Rational.ofDouble?_one
        · exact Rational.ofDouble?_zero

end Context

theorem limit?_agree :
    (settings.limit? Float).map ofDouble? = (settings.limit? Rat).map some := by
  unfold Settings.limit?
  cases settings.replaceLarge with
  | false => rfl
  | true =>
      show (if settings.threshold.isFinite then some settings.threshold else none).map ofDouble? =
        (ofDouble? settings.threshold).map some
      cases hfin : settings.threshold.isFinite with
      | true =>
          obtain ⟨q, hq⟩ := Rational.isFinite_iff.mp hfin
          rw [hq]
          exact congrArg some hq
      | false =>
          cases hq : ofDouble? settings.threshold with
          | none => rfl
          | some q =>
              have hfinite := Rational.isFinite_iff.mpr ⟨q, hq⟩
              rw [hfin] at hfinite
              cases hfinite

theorem exceeds_agree {x limit : Float} {q bound : Rat} (hx : ofDouble? x = some q)
    (hlimit : ofDouble? limit = some bound) :
    NumberDomain.exceeds x limit = NumberDomain.exceeds q bound :=
  congrArg not (Rational.le_eq (Rational.ofDouble?_abs hx) hlimit)

section

variable {limit? : Option Float} {bound? : Option Rat} {ts : List (Token Float)}
  {us : List (Token Rat)} (hlimit : limit?.map ofDouble? = bound?.map some)
  (h : ts.map (Token.map ofDouble?) = us.map (Token.map some))

include h in
theorem map_contextAt (i : Nat) {x : Float} {q : Rat} (hx : ofDouble? x = some q) :
    (contextAt ts i (.number x)).map ofDouble? = (contextAt us i (.number q)).map some := by
  have hget : ∀ j : Nat, ts[j]?.map (Token.map ofDouble?) = us[j]?.map (Token.map some) := by
    intro j
    rw [← List.getElem?_map, ← List.getElem?_map, h]
  unfold contextAt Context.map
  rw [hget, hget, apply_ite (Option.map _), apply_ite (Option.map _), hget]
  simp only [Token.map, hx, Option.map_none]

include hlimit h in
theorem numberGiven_agree (i : Nat) {x : Float} {q : Rat} (hx : ofDouble? x = some q)
    (hdouble : IsDouble (numberGiven bound? us i q)) :
    ofDouble? (numberGiven limit? ts i x) = some (numberGiven bound? us i q) := by
  cases bound? with
  | none =>
      rw [Option.map_eq_none_iff.mp hlimit]
      exact hx
  | some bound =>
      obtain ⟨limit, rfl, hbound⟩ := Option.map_eq_some_iff.mp hlimit
      unfold numberGiven at hdouble ⊢
      simp only [exceeds_agree hx hbound]
      split
      · rename_i hexceeds
        simp only [hexceeds, if_true] at hdouble
        exact Context.standIn_agree (map_contextAt h i hx) hdouble
      · exact hx

include hlimit h in
theorem settle_agree (hdouble : ∀ q, .number q ∈ settle bound? us → IsDouble q) :
    (settle limit? ts).map (Token.map ofDouble?) = (settle bound? us).map (Token.map some) := by
  refine List.ext_getElem? fun i => ?_
  have hi : ts[i]?.map (Token.map ofDouble?) = us[i]?.map (Token.map some) := by
    rw [← List.getElem?_map, ← List.getElem?_map, h]
  rw [List.getElem?_map, List.getElem?_map, getElem?_settle, getElem?_settle]
  cases hu : us[i]? with
  | none =>
      rw [hu] at hi
      rw [Option.map_eq_none_iff.mp hi]
      rfl
  | some u =>
      rw [hu] at hi
      obtain ⟨t, ht, htu⟩ := Option.map_eq_some_iff.mp hi
      rw [ht]
      cases Token.agrees_of_map_eq htu with
      | @number x q hx =>
          -- only what is really put there has to be a double, squares that are not used need not
          have hmem : .number (numberGiven bound? us i q) ∈ settle bound? us :=
            List.mem_of_getElem? (by rw [getElem?_settle, hu]; rfl)
          exact congrArg (fun v => some (Token.number v))
            (numberGiven_agree hlimit h i hx (hdouble _ hmem))
      | _ => rfl

end

/-! ### Where the rule applies -/

theorem Context.map_replaced? [NumberDomain α] (limit : α) (c : Context α) (b : β) :
    (c.replaced? limit).map (fun _ => b) = if c.here.exceeds limit then some b else none := by
  unfold replaced?
  cases c.here with
  | number x =>
      show Option.map _ (if NumberDomain.exceeds x limit then _ else _) =
        if NumberDomain.exceeds x limit then _ else _
      split <;> rfl
  | _ => rfl

theorem map_index_replacements [NumberDomain α] (limit : α) (ts : List (Token α)) :
    (replacements (some limit) ts).map Replacement.index =
      (ts.map (Token.exceeds limit)).zipIdx.filterMap fun (b, i) => if b then some i else none := by
  have hhere : ts.map (Token.exceeds limit) =
      (Context.ofTokens ts).map (Token.exceeds limit ∘ Context.here) := by
    rw [← List.map_map, Context.map_here_ofTokens]
  rw [hhere, List.zipIdx_map, List.filterMap_map, replacements, List.map_filterMap]
  refine congrArg (List.filterMap · _) (funext fun ci => ?_)
  exact (Option.map_map ..).trans (Context.map_replaced? limit ci.1 ci.2)

theorem map_index_replacements_agree {limit? : Option Float} {bound? : Option Rat}
    {ts : List (Token Float)} {us : List (Token Rat)}
    (hlimit : limit?.map ofDouble? = bound?.map some)
    (h : ts.map (Token.map ofDouble?) = us.map (Token.map some)) :
    (replacements limit? ts).map Replacement.index =
      (replacements bound? us).map Replacement.index := by
  cases bound? with
  | none =>
      rw [Option.map_eq_none_iff.mp hlimit]
      rfl
  | some bound =>
      obtain ⟨limit, rfl, hbound⟩ := Option.map_eq_some_iff.mp hlimit
      have hexceeds : ts.map (Token.exceeds limit) = us.map (Token.exceeds bound) := by
        refine map_eq_map_of_map_eq (fun t u htu => ?_) h
        cases Token.agrees_of_map_eq htu with
        | number hx => exact exceeds_agree hx hbound
        | _ => rfl
      rw [map_index_replacements, map_index_replacements, hexceeds]

/-! ## The stack -/

/-- Every value that is put on the stack in the run of the tokens is that
of a double. -/
def PushesDoubles (i : Nat) (stack : List Rat) : List (Token Rat) → Prop
  | [] => True
  | t :: rest => ∀ next, stackStep i stack t = .ok next →
      (∀ q ∈ next.head?, IsDouble q) ∧ PushesDoubles (i + 1) next rest

theorem apply_agree {o : Operator} {x y : Float} {p q : Rat} (hx : ofDouble? x = some p)
    (hy : ofDouble? y = some q) (hdouble : ∀ r, o.apply p q = .ok r → IsDouble r) :
    (o.apply x y).map ofDouble? = (o.apply p q).map some := by
  cases o with
  | plus => exact congrArg Except.ok (Rational.ofDouble?_add hx hy (hdouble _ rfl))
  | minus => exact congrArg Except.ok (Rational.ofDouble?_sub hx hy (hdouble _ rfl))
  | times => exact congrArg Except.ok (Rational.ofDouble?_mul hx hy (hdouble _ rfl))
  | divide =>
      have hzero := Rational.isZero_eq hy
      unfold Operator.apply at hdouble ⊢
      simp only [hzero]
      cases hq : NumberDomain.isZero q with
      | true => rfl
      | false =>
          simp only [hq, Bool.false_eq_true, if_false] at hdouble ⊢
          have hne : q ≠ 0 := ne_of_beq_false hq
          exact congrArg Except.ok (Rational.ofDouble?_div hx hy hne (hdouble _ rfl))

theorem stackStep_agree {i : Nat} {stack : List Float} {stack' : List Rat} {t : Token Float}
    {u : Token Rat} (hstack : stack.map ofDouble? = stack'.map some) (htu : t.Agrees u)
    (hdouble : ∀ next, stackStep i stack' u = .ok next → ∀ q ∈ next.head?, IsDouble q) :
    (stackStep i stack t).map (List.map ofDouble?) =
      (stackStep i stack' u).map (List.map some) := by
  cases htu with
  | number hx => exact congrArg Except.ok (congrArg₂ List.cons hx hstack)
  | openParen => rfl
  | closeParen => rfl
  | operator o =>
      cases stack' with
      | nil =>
          rw [List.map_eq_nil_iff.mp hstack]
          rfl
      | cons q rest' =>
          obtain ⟨y, rest, rfl, hy, hrest⟩ := List.map_eq_cons_iff.mp hstack
          cases rest' with
          | nil =>
              rw [List.map_eq_nil_iff.mp hrest]
              rfl
          | cons p rest' =>
              obtain ⟨x, rest, rfl, hx, hrest⟩ := List.map_eq_cons_iff.mp hrest
              have happly := @apply_agree o x y p q hx hy fun r hr =>
                hdouble (r :: rest') (by rw [stackStep, hr]) r rfl
              unfold stackStep
              dsimp only
              rcases map_eq_map_cases happly with ⟨fault, hv, hr⟩ | ⟨v, r, hv, hr, hvr⟩
              · rw [hv, hr]
                rfl
              · rw [hv, hr]
                exact congrArg Except.ok (congrArg₂ List.cons hvr hrest)

theorem runStack_agree {i : Nat} {stack : List Float} {stack' : List Rat} {ts : List (Token Float)}
    {us : List (Token Rat)} (hstack : stack.map ofDouble? = stack'.map some)
    (h : ts.map (Token.map ofDouble?) = us.map (Token.map some))
    (hdouble : PushesDoubles i stack' us) :
    (runStack i stack ts).map (List.map ofDouble?) =
      (runStack i stack' us).map (List.map some) := by
  induction us generalizing i stack stack' ts with
  | nil =>
      rw [List.map_eq_nil_iff.mp h]
      exact congrArg Except.ok hstack
  | cons u us ih =>
      obtain ⟨t, ts, rfl, htu, hrest⟩ := List.map_eq_cons_iff.mp h
      have hstep := @stackStep_agree i _ _ _ _ hstack (Token.agrees_of_map_eq htu)
        fun next hnext => (hdouble next hnext).1
      rw [runStack, runStack]
      rcases map_eq_map_cases hstep with ⟨fault, hx, hq⟩ | ⟨next, next', hx, hq, hnext⟩
      · rw [hx, hq]
        rfl
      · rw [hx, hq]
        exact ih hnext hrest (hdouble next' hq).2

theorem evaluatePostfix_agree {ts : List (Token Float)} {us : List (Token Rat)}
    (h : ts.map (Token.map ofDouble?) = us.map (Token.map some)) (hdouble : PushesDoubles 0 [] us) :
    (evaluatePostfix ts).map ofDouble? = (evaluatePostfix us).map some := by
  have hrun := @runStack_agree 0 [] [] _ _ rfl h hdouble
  unfold evaluatePostfix
  rcases map_eq_map_cases hrun with ⟨fault, hx, hq⟩ | ⟨stack, stack', hx, hq, hstack⟩
  · rw [hx, hq]
    rfl
  · rw [hx, hq]
    cases stack' with
    | nil =>
        rw [List.map_eq_nil_iff.mp hstack]
        rfl
    | cons q rest' =>
        obtain ⟨x, rest, rfl, hxq, hrest⟩ := List.map_eq_cons_iff.mp hstack
        cases rest' with
        | nil =>
            rw [List.map_eq_nil_iff.mp hrest]
            exact congrArg Except.ok hxq
        | cons q' rest' =>
            obtain ⟨x', rest, rfl, -, -⟩ := List.map_eq_cons_iff.mp hrest
            rfl

/-! ## Calculations -/

/-- Doubles and rationals calculate alike. The elements of the two
sequences are the same but for the numbers, and each of the doubles is
finite and stands for the rational in its place. If every number of the
exact postfix sequence and every value that is put on the exact stack is
that of some double, both calculations end with the same fault, or with
a double and the rational that it stands for; and the large-number rule
applies at the same positions. -/
theorem evaluateWith_agree (settings : Settings) {es : List (Element Float)}
    {qs : List (Element Rat)} (h : es.map (Element.map ofDouble?) = qs.map (Element.map some))
    (hdouble : ∀ e, Expression.ofElements settings qs = .ok e →
      (∀ q, .number q ∈ e.toPostfix settings → IsDouble q)
        ∧ PushesDoubles 0 [] (e.toPostfix settings)) :
    (evaluateWith settings es).outcome.map ofDouble? =
        (evaluateWith settings qs).outcome.map some
      ∧ (Expression.ofElements settings es).map
          (fun e => (e.replacements settings).map Replacement.index) =
        (Expression.ofElements settings qs).map
          fun e => (e.replacements settings).map Replacement.index := by
  rw [outcome_evaluateWith, outcome_evaluateWith]
  rcases map_eq_map_cases (ofElements_agree h) with
    ⟨fault, hes, hqs⟩ | ⟨e, e', hes, hqs, htokens⟩
  · rw [hes, hqs]
    exact ⟨rfl, rfl⟩
  · obtain ⟨hnumbers, hpushes⟩ := hdouble e' hqs
    have hsettled : (e.settledTokens settings).map (Token.map ofDouble?) =
        (e'.settledTokens settings).map (Token.map some) :=
      settle_agree limit?_agree htokens fun q hq => hnumbers q (number_mem_toPostfix_iff.mpr hq)
    have horder : (e.toPostfix settings).map (Token.map ofDouble?) =
        (e'.toPostfix settings).map (Token.map some) := by
      rw [Expression.toPostfix, Expression.toPostfix, toPostfix_map, toPostfix_map, hsettled]
    rw [hes, hqs]
    exact ⟨evaluatePostfix_agree horder hpushes,
      congrArg Except.ok (map_index_replacements_agree limit?_agree htokens)⟩

/-- `2000 + 0.5`, in which the large summand becomes zero. -/
theorem evaluateWith_agree_large_summand :
    (evaluateWith {} [.number (2000 : Float), .symbol "+", .number 0.5]).outcome.map ofDouble? =
      .ok (some (1 / 2)) := by
  let qs : List (Element Rat) := [.number 2000, .symbol "+", .number (1 / 2)]
  let e : Expression Rat := ⟨[.number 2000, .operator .plus, .number (1 / 2)], by decide, rfl⟩
  have he : Expression.ofElements {} qs = .ok e := rfl
  have horder : e.toPostfix {} = [.number 0, .number (1 / 2), .operator .plus] := by
    decide +kernel
  have hzero : IsDouble 0 := ⟨0, by decide +kernel⟩
  have hhalf : IsDouble (1 / 2) := ⟨0.5, by decide +kernel⟩
  have hsumDouble : IsDouble (0 + 1 / 2) := ⟨0.5, by decide +kernel⟩
  have hexact : (evaluateWith {} qs).outcome = .ok (1 / 2) := by
    rw [outcome_evaluateWith, he]
    show evaluatePostfix (e.toPostfix {}) = _
    rw [horder]
    exact congrArg Except.ok (by decide +kernel : (0 + 1 / 2 : Rat) = 1 / 2)
  have hdouble : ∀ e', Expression.ofElements {} qs = .ok e' →
      (∀ q, .number q ∈ e'.toPostfix {} → IsDouble q) ∧ PushesDoubles 0 [] (e'.toPostfix {}) := by
    intro e' he'
    obtain rfl : e = e' := Except.ok.inj (he.symm.trans he')
    rw [horder]
    constructor
    · intro q hq
      rcases List.mem_cons.mp hq with h | hq
      · exact Token.number.inj h ▸ hzero
      · rcases List.mem_cons.mp hq with h | hq
        · exact Token.number.inj h ▸ hhalf
        · cases List.mem_singleton.mp hq
    · rintro _ ⟨⟩
      refine ⟨fun _ h => Option.some.inj h ▸ hzero, ?_⟩
      rintro _ ⟨⟩
      refine ⟨fun _ h => Option.some.inj h ▸ hhalf, ?_⟩
      rintro _ ⟨⟩
      exact ⟨fun _ h => Option.some.inj h ▸ hsumDouble, trivial⟩
  have hagree := @evaluateWith_agree {} [.number 2000, .symbol "+", .number 0.5] qs
    (by decide +kernel) hdouble
  rw [hagree.1, hexact]
  rfl

end FourFunction
