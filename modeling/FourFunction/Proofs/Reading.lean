import Mathlib.Data.List.TakeDrop
import Mathlib.Logic.Function.Basic
import FourFunction.Proofs.Outcome

/-!
# What is written can be read back

Tokens are written in two ways, as raw elements and as text, and nothing
is lost in either.

A token has a written form among the elements, which counts as the same
kind as the token. So the check finds the same fault in both, or the same
expression (`ofElements_map_ofToken`), and all that comes after it is
shared.

Over the rationals the text of a token sequence says which sequence it
was (`ofListText?_listText`). There are three things to see, from the
outside in:

- no text of a token holds a blank, so the blanks part the tokens
  (`pieces_listText`);
- the text of a number holds a digit and that of a symbol does not, so
  `-` and `-2` are told apart, and so are `/` and `1/2`
  (`Token.ofText?_text`);
- a numeral says which number it is, a whole one by its digits and its
  sign, any other by numerator and denominator, which have no common
  divisor (`Rational.ofText?_text`).

So the working of a calculation, which is handed out as text, can be
gone through again.
-/

namespace FourFunction

/-! ## Tokens as elements

Ready tokens and raw elements take two ways into the calculator, and the
two are one. In the other direction nothing is lost: the elements of an
accepted sequence are the written forms of its tokens. -/

section Elements

variable {α : Type} [NumberDomain α]

namespace Expression

/-- The two ways into the check lead to the same place. -/
theorem ofElements_map_ofToken (settings : Settings) (ts : List (Token α)) :
    ofElements settings (ts.map Element.ofToken) = ofTokens settings ts := by
  cases h : ofTokens settings ts with
  | error fault =>
      rw [ofElements_eq_error_iff, Element.map_kind?_map_ofToken]
      exact ofTokens_eq_error_iff.mp h
  | ok e =>
      obtain ⟨long, rfl⟩ := ofTokens_eq_ok_iff.mp h
      have hclass := Element.map_classify_eq_iff.mpr ⟨rfl, e.isFinite_of_mem⟩
      exact ofElements_eq_ok_iff.mpr ⟨by rwa [List.length_map], hclass⟩

/-- An accepted sequence can be written out again from its tokens. -/
theorem map_ofToken_tokens {settings : Settings} {es : List (Element α)} {e : Expression α}
    (h : ofElements settings es = .ok e) : e.tokens.map Element.ofToken = es :=
  (Element.map_classify_eq_iff.mp (ofElements_eq_ok_iff.mp h).2).1.symm

end Expression

theorem check_map_ofToken (settings : Settings) (ts : List (Token α)) :
    check settings (ts.map Element.ofToken) = checkTokens settings ts := by
  rw [check, checkTokens, Expression.ofElements_map_ofToken]

theorem evaluateWith_map_ofToken (settings : Settings) (ts : List (Token α)) :
    evaluateWith settings (ts.map Element.ofToken) = evaluateTokens settings ts := by
  rw [evaluateWith, evaluateTokens, check_map_ofToken]

/-! ### Tokens that are none -/

theorem Token.kind?_eq_none_iff {t : Token α} :
    t.kind? = none ↔ ∃ x, t = .number x ∧ NumberDomain.isFinite x = false := by
  cases t <;> simp [kind?]

/-- Ready tokens are unknown only where a number is not finite. -/
theorem exists_number_of_unknownToken {settings : Settings} {ts : List (Token α)} {i : Nat}
    (h : (evaluateTokens settings ts).outcome = .error (.unknownToken i)) :
    ∃ x, ts[i]? = some (.number x) ∧ NumberDomain.isFinite x = false := by
  rw [outcome_evaluateTokens] at h
  have hindex : (Fault.unknownToken i).index? = some i := rfl
  have hcheck := eq_error_of_bind (fun _ _ => Expression.index?_of_evaluatePostfix) h hindex
  have hfault := Expression.firstFault_of_fault? hindex
    (Expression.ofTokens_eq_error_iff.mp hcheck)
  cases ((firstFault_eq_some_iff hindex).mp hfault).1 with
  | unknown hk =>
      rw [List.getElem?_map, Option.map_eq_some_iff] at hk
      obtain ⟨t, ht, hnone⟩ := hk
      obtain ⟨x, rfl, hx⟩ := Token.kind?_eq_none_iff.mp hnone
      exact ⟨x, ht, hx⟩

/-! ### One validator and one calculator -/

/-- Ready tokens and their written forms are checked alike and calculated
alike, with the same journal. Among ready tokens only a number that is
not finite can be unknown, and so none can among rationals. A sequence of
elements that is accepted consists of the written forms of its tokens,
and the tokens pass the check again under any settings that admit their
number, as the same expression. -/
theorem written_form_agrees (settings : Settings) (ts : List (Token α))
    (es : List (Element α)) :
    check settings (ts.map Element.ofToken) = checkTokens settings ts
      ∧ evaluateWith settings (ts.map Element.ofToken) = evaluateTokens settings ts
      ∧ (∀ i, (evaluateTokens settings ts).outcome = .error (.unknownToken i) →
          ∃ x, ts[i]? = some (.number x) ∧ NumberDomain.isFinite x = false)
      ∧ (∀ (qs : List (Token Rat)) i,
          (evaluateTokens settings qs).outcome ≠ .error (.unknownToken i))
      ∧ ∀ e, Expression.ofElements settings es = .ok e →
          e.tokens.map Element.ofToken = es
            ∧ ∀ other : Settings, e.tokens.length ≤ other.tokenLimit →
                Expression.ofTokens other e.tokens = .ok e := by
  refine ⟨check_map_ofToken settings ts, evaluateWith_map_ofToken settings ts,
    fun i => exists_number_of_unknownToken, fun qs i hunknown => ?_, fun e he => ?_⟩
  · obtain ⟨q, -, hq⟩ := exists_number_of_unknownToken hunknown
    cases hq
  · exact ⟨Expression.map_ofToken_tokens he, fun other => e.ofTokens_tokens⟩

/-- `1 + NaN` is refused for its last token; `( 2 )` is read back from its
three tokens under settings that admit no more. -/
theorem written_form_agrees_nan :
    let ts : List (Token Float) := [.number 1, .operator .plus, .number (0 / 0)]
    let es : List (Element Float) := [.symbol "(", .number 2, .symbol ")"]
    (∃ x, ts[2]? = some (.number x) ∧ NumberDomain.isFinite x = false)
      ∧ ∃ e : Expression Float, e.tokens.map Element.ofToken = es
          ∧ Expression.ofTokens { tokenLimit := 3 } e.tokens = .ok e := by
  intro ts es
  have hunknown : (evaluateTokens {} ts).outcome = .error (.unknownToken 2) := by rfl
  let e : Expression Float := ⟨[.openParen, .number 2, .closeParen], by decide, by decide⟩
  have he : Expression.ofElements {} es = .ok e := by rfl
  obtain ⟨-, -, hnan, -, haccepted⟩ := written_form_agrees {} ts es
  obtain ⟨hwritten, hagain⟩ := haccepted e he
  exact ⟨hnan 2 hunknown, e, hwritten, hagain _ (by decide)⟩

end Elements

/-! ## Tokens as text

`Token.ofListText?` reads the text of a token sequence over the rationals.
A lone sign is an operator to it, while a sign with digits behind it
belongs to a number. It is at home with `Char` lists, on which the cutting
and the numerals are plain recursions. -/

/-- The pieces between blanks; one more of them than there are blanks. -/
def pieces : List Char → List (List Char)
  | [] => [[]]
  | ' ' :: rest => [] :: pieces rest
  | c :: rest =>
      match pieces rest with
      | piece :: others => (c :: piece) :: others
      | [] => [[c]]

namespace Rational

def ofDigits? (ds : List Char) : Option Nat :=
  if ds ≠ [] ∧ ds.all Char.isDigit then some (Nat.ofDigitChars 10 ds 0) else none

def ofInteger? : List Char → Option Int
  | '-' :: ds => (ofDigits? ds).map fun n => -(n : Int)
  | ds => (ofDigits? ds).map fun n => (n : Int)

/-- The rational with the given text. A numeral without a slash is whole. -/
def ofText? (cs : List Char) : Option Rat :=
  match cs.span (· ≠ '/') with
  | (n, []) => (ofInteger? n).map fun n => (n : Rat)
  | (n, _ :: d) => do
      let n ← ofInteger? n
      let d ← ofDigits? d
      return mkRat n d

end Rational

namespace Token

/-- The token with the given text. -/
def ofText? : List Char → Option (Token Rat)
  | ['+'] => some (operator .plus)
  | ['-'] => some (operator .minus)
  | ['*'] => some (operator .times)
  | ['/'] => some (operator .divide)
  | ['('] => some openParen
  | [')'] => some closeParen
  | cs => (Rational.ofText? cs).map number

/-- The token sequence with the given text. -/
def ofListText? (text : String) : Option (List (Token Rat)) :=
  if text.isEmpty then some [] else (pieces text.toList).mapM ofText?

end Token

/-! ### Pieces between blanks -/

theorem pieces_append {p : List Char} (h : ' ' ∉ p) (rest : List Char) :
    pieces (p ++ ' ' :: rest) = p :: pieces rest := by
  induction p with
  | nil => rfl
  | cons c p ih =>
      have hc : c ≠ ' ' := fun hc => h (hc ▸ List.mem_cons_self ..)
      have hp : ' ' ∉ p := fun hp => h (List.mem_cons_of_mem _ hp)
      simp only [List.cons_append, pieces, ih hp]

theorem pieces_of_not_mem {p : List Char} (h : ' ' ∉ p) : pieces p = [p] := by
  induction p with
  | nil => rfl
  | cons c p ih =>
      have hc : c ≠ ' ' := fun hc => h (hc ▸ List.mem_cons_self ..)
      have hp : ' ' ∉ p := fun hp => h (List.mem_cons_of_mem _ hp)
      simp only [pieces, ih hp]

/-- What has been joined by blanks comes apart at the blanks. -/
theorem pieces_intercalate {ps : List (List Char)} (hne : ps ≠ []) (h : ∀ p ∈ ps, ' ' ∉ p) :
    pieces ([' '].intercalate ps) = ps := by
  induction ps with
  | nil => exact absurd rfl hne
  | cons p rest ih =>
      have hp := h p (List.mem_cons_self ..)
      cases rest with
      | nil => simpa using pieces_of_not_mem hp
      | cons q rest =>
          have hrest := ih (List.cons_ne_nil q rest) fun r hr => h r (List.mem_cons_of_mem _ hr)
          rw [List.intercalate_cons_cons, List.append_assoc, List.singleton_append,
            pieces_append hp, hrest]

/-! ### Numerals -/

namespace Rational

theorem isDigit_of_mem_toDigits {n : Nat} {c : Char} (h : c ∈ Nat.toDigits 10 n) :
    c.isDigit = true :=
  Nat.isDigit_of_mem_toDigits (by decide) (by decide) h

theorem exists_digit_mem_toDigits (n : Nat) : ∃ c ∈ Nat.toDigits 10 n, c.isDigit = true := by
  obtain ⟨c, hc⟩ := List.exists_mem_of_ne_nil _ (Nat.toDigits_ne_nil (n := n) (b := 10))
  exact ⟨c, hc, isDigit_of_mem_toDigits hc⟩

theorem ofDigits?_toDigits (n : Nat) : ofDigits? (Nat.toDigits 10 n) = some n := by
  have hall : (Nat.toDigits 10 n).all Char.isDigit = true :=
    List.all_eq_true.mpr fun _ => isDigit_of_mem_toDigits
  rw [ofDigits?, if_pos ⟨Nat.toDigits_ne_nil, hall⟩,
    Nat.ofDigitChars_toDigits (by decide) (by decide)]

/-- Without a sign in front, a numeral is read as its digits. -/
theorem ofInteger?_of_ne {ds : List Char} (h : '-' ∉ ds) :
    ofInteger? ds = (ofDigits? ds).map fun n => (n : Int) := by
  unfold ofInteger?
  split
  · exact absurd (List.mem_cons_self ..) h
  · rfl

theorem toList_repr_ofNat (n : Nat) : (Int.ofNat n).repr.toList = Nat.toDigits 10 n :=
  Nat.toList_repr

theorem toList_repr_negSucc (n : Nat) :
    (Int.negSucc n).repr.toList = '-' :: Nat.toDigits 10 (n + 1) := by
  show ("-" ++ (n + 1).repr).toList = _
  rw [String.toList_append, Nat.toList_repr]
  rfl

theorem ofInteger?_repr (n : Int) : ofInteger? n.repr.toList = some n := by
  cases n with
  | ofNat n =>
      have hsign : '-' ∉ Nat.toDigits 10 n := fun h => by
        cases isDigit_of_mem_toDigits h
      rw [toList_repr_ofNat, ofInteger?_of_ne hsign, ofDigits?_toDigits]
      rfl
  | negSucc n =>
      rw [toList_repr_negSucc, ofInteger?, ofDigits?_toDigits]
      rfl

theorem mem_repr {n : Int} {c : Char} (h : c ∈ n.repr.toList) : c.isDigit = true ∨ c = '-' := by
  cases n with
  | ofNat n =>
      rw [toList_repr_ofNat] at h
      exact Or.inl (isDigit_of_mem_toDigits h)
  | negSucc n =>
      rw [toList_repr_negSucc] at h
      rcases List.mem_cons.mp h with rfl | h
      · exact Or.inr rfl
      · exact Or.inl (isDigit_of_mem_toDigits h)

theorem exists_digit_mem_repr (n : Int) : ∃ c ∈ n.repr.toList, c.isDigit = true := by
  cases n with
  | ofNat n =>
      rw [toList_repr_ofNat]
      exact exists_digit_mem_toDigits n
  | negSucc n =>
      rw [toList_repr_negSucc]
      obtain ⟨c, hc, hdigit⟩ := exists_digit_mem_toDigits (n + 1)
      exact ⟨c, List.mem_cons_of_mem _ hc, hdigit⟩

/-- The text of a rational, as what is written before the slash and what
is written from the slash on. -/
theorem toList_text (q : Rat) :
    (text q).toList =
      q.num.repr.toList ++ if q.den = 1 then [] else '/' :: Nat.toDigits 10 q.den := by
  unfold text
  split
  · rw [List.append_nil]
  · rw [String.toList_append, String.toList_append, Nat.toList_repr, List.append_assoc]
    rfl

theorem ofText?_text (q : Rat) : ofText? (text q).toList = some q := by
  have hnumerator : ∀ c ∈ q.num.repr.toList, decide (c ≠ '/') = true := by
    intro c hc
    rcases mem_repr hc with hdigit | rfl
    · exact decide_eq_true fun hslash => by
        rw [hslash] at hdigit
        cases hdigit
    · rfl
  rw [ofText?, List.span_eq_takeWhile_dropWhile, toList_text,
    List.takeWhile_append_of_pos hnumerator, List.dropWhile_append_of_pos hnumerator]
  by_cases hden : q.den = 1
  · have hwhole : (q.num : Rat) = q := Rat.ext rfl hden.symm
    simp [hden, ofInteger?_repr, hwhole]
  · simp [hden, ofInteger?_repr, ofDigits?_toDigits, Rat.mkRat_self]

end Rational

/-! ### Tokens -/

namespace Token

/-- What holds a digit is no symbol. -/
theorem ofText?_of_digit {cs : List Char} {c : Char} (hc : c ∈ cs) (hdigit : c.isDigit = true) :
    ofText? cs = (Rational.ofText? cs).map number := by
  have hsymbol : ∀ d : Char, d.isDigit = false → cs ≠ [d] := by
    rintro d hd rfl
    obtain rfl := List.mem_singleton.mp hc
    cases hd.symm.trans hdigit
  unfold ofText?
  split
  · exact absurd rfl (hsymbol '+' rfl)
  · exact absurd rfl (hsymbol '-' rfl)
  · exact absurd rfl (hsymbol '*' rfl)
  · exact absurd rfl (hsymbol '/' rfl)
  · exact absurd rfl (hsymbol '(' rfl)
  · exact absurd rfl (hsymbol ')' rfl)
  · rfl

theorem ofText?_text (t : Token Rat) : ofText? t.text.toList = some t := by
  cases t with
  | number q =>
      obtain ⟨c, hc, hdigit⟩ := Rational.exists_digit_mem_repr q.num
      have hmem : c ∈ (Rational.text q).toList := by
        rw [Rational.toList_text]
        exact List.mem_append_left _ hc
      show ofText? (Rational.text q).toList = _
      rw [ofText?_of_digit hmem hdigit, Rational.ofText?_text]
      rfl
  | operator o => cases o <;> rfl
  | openParen => rfl
  | closeParen => rfl

theorem blank_not_mem_text (t : Token Rat) : ' ' ∉ t.text.toList := by
  cases t with
  | number q =>
      show ' ' ∉ (Rational.text q).toList
      rw [Rational.toList_text, List.mem_append]
      rintro (hnum | hden)
      · rcases Rational.mem_repr hnum with hdigit | hsign
        · cases hdigit
        · cases hsign
      · split at hden
        · cases hden
        · rcases List.mem_cons.mp hden with hslash | hdigit
          · cases hslash
          · cases Rational.isDigit_of_mem_toDigits hdigit
  | operator o => cases o <;> decide
  | openParen => decide
  | closeParen => decide

/-- Cut at the blanks, the text of a sequence falls into the texts of its
tokens. -/
theorem pieces_listText {ts : List (Token Rat)} (h : ts ≠ []) :
    pieces (listText ts).toList = ts.map fun t => t.text.toList := by
  have hjoined : (listText ts).toList = [' '].intercalate (ts.map fun t => t.text.toList) := by
    rw [listText, String.toList_intercalate, List.map_map]
    rfl
  rw [hjoined]
  refine pieces_intercalate (mt List.map_eq_nil_iff.mp h) fun p hp => ?_
  obtain ⟨t, -, rfl⟩ := List.mem_map.mp hp
  exact t.blank_not_mem_text

/-- Only the empty sequence has an empty text. -/
theorem listText_ne_empty {ts : List (Token Rat)} (h : ts ≠ []) : listText ts ≠ "" := by
  intro hempty
  have hpieces := pieces_listText h
  rw [hempty] at hpieces
  cases ts with
  | nil => exact h rfl
  | cons t rest =>
      -- the first piece would be the text of a token, and empty
      have hfirst : t.text.toList = [] := (List.cons.inj hpieces).1.symm
      have hread := t.ofText?_text
      rw [hfirst] at hread
      cases hread

theorem mapM_ofText?_text (ts : List (Token Rat)) :
    (ts.map fun t => t.text.toList).mapM ofText? = some ts := by
  induction ts with
  | nil => rfl
  | cons t rest ih =>
      rw [List.map_cons, List.mapM_cons, ofText?_text, ih]
      rfl

/-- The text of a token sequence is read as the sequence. -/
theorem ofListText?_listText (ts : List (Token Rat)) : ofListText? (listText ts) = some ts := by
  by_cases h : ts = []
  · rw [h]
    rfl
  · rw [ofListText?, if_neg (mt String.isEmpty_iff.mp (listText_ne_empty h)), pieces_listText h,
      mapM_ofText?_text]

end Token

/-! ### Workings -/

/-- Over the rationals every text of a token sequence can be read back, so
no two sequences have the same text. From the working of a calculation
the tokens can be read that the elements stood for, and tokens in postfix
order that the stack takes to the value. -/
theorem listText_readable :
    (∀ ts : List (Token Rat), Token.ofListText? (Token.listText ts) = some ts)
      ∧ Function.Injective (Token.listText : List (Token Rat) → String)
      ∧ ∀ (settings : Settings) (es : List (Element Rat)) (w : Working Rat),
          (evaluateWithWorking settings es).outcome = .ok w →
            (∃ ts, Token.ofListText? w.expressionText = some ts
                ∧ es.map Element.classify = ts.map some)
              ∧ ∃ ts, Token.ofListText? w.postfixText = some ts
                  ∧ evaluatePostfix ts = .ok w.value := by
  refine ⟨Token.ofListText?_listText, fun ts us h => ?_, fun settings es w hw => ?_⟩
  · have hread := Token.ofListText?_listText ts
    rw [h, Token.ofListText?_listText] at hread
    exact (Option.some.inj hread).symm
  · obtain ⟨e, value, he, hvalue, rfl⟩ := exists_of_outcome_evaluateWithWorking hw
    rw [Token.ofListText?_listText, Token.ofListText?_listText]
    exact ⟨⟨e.tokens, rfl, (Expression.ofElements_eq_ok_iff.mp he).2⟩, _, rfl, hvalue⟩

/-- In `1/2 / -3` two slashes belong to numbers and to an operator. -/
theorem listText_readable_slash :
    let es : List (Element Rat) := [.number (1 / 2), .symbol "/", .number (-3)]
    ∃ w, (evaluateWithWorking {} es).outcome = .ok w
      ∧ (∃ ts, Token.ofListText? w.expressionText = some ts
          ∧ es.map Element.classify = ts.map some)
      ∧ ∃ ts, Token.ofListText? w.postfixText = some ts ∧ evaluatePostfix ts = .ok w.value := by
  intro es
  let e : Expression Rat := ⟨[.number (1 / 2), .operator .divide, .number (-3)], by decide, rfl⟩
  have he : Expression.ofElements {} es = .ok e := rfl
  have hvalue : evaluatePostfix (e.toPostfix {}) = .ok (-1 / 6) := by decide +kernel
  have houtcome := outcome_evaluateWithWorking {} es
  rw [he] at houtcome
  simp only [Except.bind, hvalue] at houtcome
  exact ⟨_, houtcome, listText_readable.2.2 {} es _ houtcome⟩

end FourFunction
