import FourFunction.Proofs.Grammar

/-!
# Acceptance

A sequence of raw elements becomes an expression just when its length is
admitted, each element stands for a token, and the tokens form a
sentence. Nothing else is asked for, and nothing is lost on the way: the
tokens of the expression are the classified elements, one for one.
-/

namespace FourFunction

variable {α : Type} [NumberDomain α]

/-! ## Classification -/

/-- An element stands for the one token that it is the written form of;
a number has to be finite besides. -/
theorem Element.classify_eq_some_iff {el : Element α} {t : Token α} :
    el.classify = some t ↔
      el = .ofToken t ∧ ∀ x, t = .number x → NumberDomain.isFinite x = true := by
  cases el with
  | number x =>
      cases hx : NumberDomain.isFinite x with
      | true =>
          cases t <;> simp [classify, ofToken, hx]
          rintro rfl
          exact hx
      | false =>
          cases t <;> simp [classify, ofToken, hx]
          rintro rfl
          exact hx
  | symbol s =>
      constructor
      · intro h
        simp only [classify, Token.ofSymbol?] at h
        split at h <;> cases h <;> simp [ofToken, Operator.symbol]
      · rintro ⟨h, -⟩
        cases t with
        | number x => cases h
        | operator o => cases o <;> cases h <;> rfl
        | openParen => cases h; rfl
        | closeParen => cases h; rfl

theorem Element.map_classify_eq_iff {es : List (Element α)} {ts : List (Token α)} :
    es.map classify = ts.map some ↔
      es = ts.map ofToken ∧ ∀ x, .number x ∈ ts → NumberDomain.isFinite x = true := by
  induction es generalizing ts with
  | nil => cases ts <;> simp
  | cons el rest ih =>
      cases ts with
      | nil => simp
      | cons t us =>
          simp only [List.map_cons, List.cons.injEq, ih, classify_eq_some_iff, List.mem_cons]
          constructor
          · rintro ⟨⟨rfl, hfin⟩, rfl, hrest⟩
            refine ⟨⟨rfl, rfl⟩, fun x hx => ?_⟩
            rcases hx with hx | hx
            · exact hfin x hx.symm
            · exact hrest x hx
          · rintro ⟨⟨rfl, rfl⟩, hfin⟩
            exact ⟨⟨rfl, fun x hx => hfin x (Or.inl hx.symm)⟩, rfl,
              fun x hx => hfin x (Or.inr hx)⟩

theorem Element.map_kind?_map_ofToken (ts : List (Token α)) :
    (ts.map ofToken).map kind? = ts.map Token.kind? := by
  rw [List.map_map]
  exact List.map_congr_left fun t _ => kind?_ofToken t

namespace Expression

/-! ## Lengths and tokens -/

theorem lengthFault_eq_none_iff {settings : Settings} {n : Nat} :
    lengthFault settings n = none ↔ minTokens ≤ n ∧ n ≤ settings.tokenLimit := by
  unfold lengthFault
  by_cases hmin : n < minTokens
  · simp [hmin, Nat.not_le.mpr hmin]
  · by_cases hmax : settings.tokenLimit < n
    · simp [hmin, hmax, Nat.not_le.mpr hmax]
    · simp [hmin, hmax, Nat.not_lt.mp hmin, Nat.not_lt.mp hmax]

theorem isSentence (e : Expression α) : IsSentence e.tokens :=
  isSentence_iff_run.mpr e.run_kinds

/-- Which token sequences expressions are made of. -/
theorem exists_tokens_eq {ts : List (Token α)} (hmin : minTokens ≤ ts.length)
    (hfin : ∀ x, .number x ∈ ts → NumberDomain.isFinite x = true) (hs : IsSentence ts) :
    ∃ e : Expression α, e.tokens = ts := by
  have hne : ts ≠ [] := by
    rintro rfl
    cases hmin
  exact ⟨⟨ts, hmin, (firstFault_eq_none_iff hne).mpr ⟨hfin, isSentence_iff_run.mp hs⟩⟩, rfl⟩

theorem map_kind?_of_map_classify {es : List (Element α)} {ts : List (Token α)}
    (h : es.map Element.classify = ts.map some) :
    es.map Element.kind? = ts.map Token.kind? := by
  obtain ⟨rfl, -⟩ := Element.map_classify_eq_iff.mp h
  exact Element.map_kind?_map_ofToken ts

theorem filterMap_classify_eq_of_map {es : List (Element α)} {ts : List (Token α)}
    (h : es.map Element.classify = ts.map some) : es.filterMap Element.classify = ts := by
  calc es.filterMap Element.classify
      = (es.map Element.classify).filterMap id := by rw [List.filterMap_map]; rfl
    _ = (ts.map some).filterMap id := by rw [h]
    _ = ts := by rw [List.filterMap_map]; exact List.filterMap_some

theorem map_classify_of_isSome {es : List (Element α)}
    (h : ∀ k ∈ es.map Element.kind?, k.isSome) :
    es.map Element.classify = (es.filterMap Element.classify).map some := by
  induction es with
  | nil => rfl
  | cons el rest ih =>
      have hrest := ih fun k hk => h k (List.mem_cons_of_mem _ hk)
      cases hc : el.classify with
      | none =>
          have := h el.kind? (List.mem_cons_self ..)
          simp [Element.kind?, hc] at this
      | some t => rw [List.filterMap_cons_some hc, List.map_cons, List.map_cons, hc, hrest]

/-- Raw elements of an admitted length make the expression of the tokens
they stand for. -/
theorem ofElements_eq_ok_iff {settings : Settings} {es : List (Element α)} {e : Expression α} :
    ofElements settings es = .ok e ↔
      lengthFault settings es.length = none ∧ es.map Element.classify = e.tokens.map some := by
  unfold ofElements
  constructor
  · intro h
    split at h
    · cases h
    · rename_i long
      split at h
      · cases h
      · rename_i placed
        cases h
        exact ⟨long, map_classify_of_isSome (isSome_of_firstFault_eq_none placed)⟩
  · rintro ⟨long, hclass⟩
    split
    · simp_all
    · split
      · rename_i placed
        rw [map_kind?_of_map_classify hclass, e.wellPlaced] at placed
        cases placed
      · exact congrArg Except.ok (ext (filterMap_classify_eq_of_map hclass))

end Expression

/-! ## The language of the check -/

/-- The check accepts a sequence of raw elements just when its length is
admitted, each element stands for a token, and the tokens form a
sentence. The expression that comes out holds these tokens, and it is
ordinary arithmetic unless an operand is directly followed by a group
somewhere. What an element stands for is said in the last part: the
token that it is the written form of, if that is no number or a finite
one. -/
theorem ofElements_accepts_sentences (settings : Settings) (es : List (Element α)) :
    ((∃ e, Expression.ofElements settings es = .ok e) ↔
        minTokens ≤ es.length ∧ es.length ≤ settings.tokenLimit
          ∧ ∃ ts : List (Token α), es.map Element.classify = ts.map some ∧ IsSentence ts)
      ∧ (∀ e, Expression.ofElements settings es = .ok e →
          es.map Element.classify = e.tokens.map some
            ∧ (IsArithmetic e.tokens ↔ juxtapositions e.tokens = 0))
      ∧ ∀ (el : Element α) (t : Token α), el.classify = some t ↔
          el = .ofToken t ∧ ∀ x, t = .number x → NumberDomain.isFinite x = true := by
  refine ⟨?_, ?_, fun _ _ => Element.classify_eq_some_iff⟩
  · constructor
    · rintro ⟨e, he⟩
      obtain ⟨hlen, hclass⟩ := Expression.ofElements_eq_ok_iff.mp he
      obtain ⟨hmin, hmax⟩ := Expression.lengthFault_eq_none_iff.mp hlen
      exact ⟨hmin, hmax, e.tokens, hclass, e.isSentence⟩
    · rintro ⟨hmin, hmax, ts, hclass, hs⟩
      have hlength : es.length = ts.length := by simpa using congrArg List.length hclass
      obtain ⟨e, rfl⟩ := Expression.exists_tokens_eq (hlength ▸ hmin)
        (Element.map_classify_eq_iff.mp hclass).2 hs
      exact ⟨e, Expression.ofElements_eq_ok_iff.mpr
        ⟨Expression.lengthFault_eq_none_iff.mpr ⟨hmin, hmax⟩, hclass⟩⟩
  · intro e he
    have hclass := (Expression.ofElements_eq_ok_iff.mp he).2
    exact ⟨hclass, isArithmetic_iff.trans (and_iff_right e.isSentence)⟩

/-- A number directly followed by a group is accepted, and is no
arithmetic. -/
theorem ofElements_accepts_number_group :
    ∃ e : Expression Rat,
      Expression.ofElements {} [.number 2, .symbol "(", .number 3, .symbol ")"] = .ok e
        ∧ ¬ IsArithmetic e.tokens := by
  let e : Expression Rat := ⟨[.number 2, .openParen, .number 3, .closeParen], by decide, rfl⟩
  have he : Expression.ofElements {} [.number 2, .symbol "(", .number 3, .symbol ")"] = .ok e :=
    rfl
  refine ⟨e, he, fun harith => ?_⟩
  have hnone := ((ofElements_accepts_sentences {} _).2.1 e he).2.mp harith
  cases hnone

end FourFunction
