import FourFunction.Proofs.ViablePrefix

/-!
# Where only closing parentheses are missing

Parentheses that are still open at the end of a sequence are a fault
without a position. The check reports it just when nothing else is wrong,
and then the sequence can be repaired by closing them: as many as are
open, no more and no fewer.

The two checks, of the sequence and of the repaired one, do not look at
the last token in the same way, for behind it there is now something. So
they are not compared step by step. Both are read off the machine of
`Stand`: the fault says that the machine stops where an operand has ended
and some parentheses are open (`firstFault_eq_unclosed_iff`), and from
there, and from nowhere else, closing parentheses lead to the finish
(`Stand.run_replicate_closing_iff`).
-/

namespace FourFunction

/-! ## Sequences that the check reads to the end -/

/-- A verdict without a position is only reached at the end, so it is one
on tokens. -/
theorem exists_kinds_of_firstFault {kinds : List (Option Kind)} {verdict : Option Fault}
    (hverdict : ∀ fault, verdict = some fault → fault.index? = none)
    (h : firstFault kinds = verdict) : ∃ ks : List Kind, kinds = ks.map some := by
  have hread : (∀ i fault, ¬ Broken kinds i fault) → ∃ ks : List Kind, kinds = ks.map some := by
    intro hsound
    obtain ⟨s, hs⟩ := exists_reached (Nat.le_refl kinds.length) fun i _ => hsound i
    obtain ⟨ks, hks, -⟩ := hs.run
    rw [List.take_length] at hks
    exact ⟨ks, hks⟩
  cases firstFault_eq_iff.mp h with
  | broken hbroken _ => cases hbroken.index?_eq.symm.trans (hverdict _ rfl)
  | unclosed hsound _ => exact hread hsound
  | sound hsound _ => exact hread hsound

/-- Nothing but open parentheses is wrong just when the machine comes to
the end of an operand with some open. -/
theorem firstFault_eq_unclosed_iff {kinds : List (Option Kind)} (hne : kinds ≠ []) :
    firstFault kinds = some (.unmatchedParenthesis none) ↔
      ∃ ks opened, kinds = ks.map some ∧ 0 < opened
        ∧ Stand.start.run ks = some ⟨true, opened⟩ := by
  have hks : ∀ ks : List Kind, kinds = ks.map some →
      (firstFault kinds = some (.unmatchedParenthesis none) ↔
        ∃ opened, 0 < opened ∧ Stand.start.run ks = some ⟨true, opened⟩) := by
    rintro ks rfl
    exact firstFaultFrom_eq_unclosed_iff (Or.inr fun hnil => hne (by rw [hnil]; rfl))
  constructor
  · intro h
    obtain ⟨ks, heq⟩ := exists_kinds_of_firstFault (fun fault hfault => by cases hfault; rfl) h
    obtain ⟨opened, hopened, hrun⟩ := (hks ks heq).mp h
    exact ⟨ks, opened, heq, hopened, hrun⟩
  · rintro ⟨ks, opened, heq, hopened, hrun⟩
    exact (hks ks heq).mpr ⟨opened, hopened, hrun⟩

/-- With `n` closing parentheses behind it a sequence is without fault
just when the machine comes to the end of an operand with `n` open. -/
theorem firstFault_append_closings_iff {kinds : List (Option Kind)} (hne : kinds ≠ []) {n : Nat} :
    firstFault (kinds ++ List.replicate n (some .closing)) = none ↔
      ∃ ks, kinds = ks.map some ∧ Stand.start.run ks = some ⟨true, n⟩ := by
  have hks : ∀ ks : List Kind, kinds = ks.map some →
      (firstFault (kinds ++ List.replicate n (some .closing)) = none ↔
        Stand.start.run ks = some ⟨true, n⟩) := by
    rintro ks rfl
    have hmap : ks.map some ++ List.replicate n (some Kind.closing) =
        (ks ++ List.replicate n Kind.closing).map some := by
      rw [List.map_append, List.map_replicate]
    have hne' : ks ++ List.replicate n .closing ≠ [] := by
      intro hnil
      exact hne (by rw [(List.append_eq_nil_iff.mp hnil).1]; rfl)
    rw [hmap, firstFault, firstFaultFrom_eq_none_iff (Or.inr hne')]
    show Stand.start.run _ = _ ↔ _
    rw [Stand.run_append]
    cases Stand.start.run ks with
    | none => simp
    | some s => simp [Stand.run_replicate_closing_iff]
  constructor
  · intro h
    obtain ⟨all, hall⟩ := exists_kinds_of_firstFault (fun fault hfault => by cases hfault) h
    obtain ⟨ks, -, -, hleft, -⟩ := List.map_eq_append_iff.mp hall.symm
    exact ⟨ks, hleft.symm, (hks ks hleft.symm).mp h⟩
  · rintro ⟨ks, heq, hrun⟩
    exact (hks ks heq).mpr hrun

/-! ## Elements -/

variable {α : Type}

namespace Element

/-- Whether an element is the symbol `s`. -/
def isSymbol (s : String) : Element α → Bool
  | symbol text => text == s
  | number _ => false

theorem isSymbol_iff {s : String} {el : Element α} : el.isSymbol s = true ↔ el = .symbol s := by
  cases el <;> simp [isSymbol]

variable [NumberDomain α]

/-- A kind that one symbol alone has is counted by counting the symbol. -/
theorem count_kind? {k : Kind} {t : Token α} (hk : ∀ u : Token α, u.kind = k ↔ u = t)
    {s : String} (hs : ofToken t = symbol s) (es : List (Element α)) :
    (es.map kind?).count (some k) = es.countP (isSymbol s) := by
  have hnumber : ∀ x, t ≠ .number x := by
    rintro x rfl
    cases hs
  rw [List.count, List.countP_map]
  refine List.countP_congr fun el _ => ?_
  rw [isSymbol_iff, ← hs]
  simp [kind?, hk, classify_eq_some_iff, hnumber]

/-- Where the machine comes to an end, what it has open is what has been
opened and not closed. -/
theorem countP_of_run {es : List (Element α)} {ks : List Kind} {opened : Nat} {ended : Bool}
    (heq : es.map kind? = ks.map some) (hrun : Stand.start.run ks = some ⟨ended, opened⟩) :
    opened + es.countP (isSymbol ")") = es.countP (isSymbol "(") := by
  have hdepth := Stand.depth_of_run hrun
  have hopenings : (es.map kind?).count (some .opening) = es.countP (isSymbol "(") :=
    count_kind? (t := .openParen) (fun u => by cases u <;> simp [Token.kind]) rfl es
  have hclosings : (es.map kind?).count (some .closing) = es.countP (isSymbol ")") :=
    count_kind? (t := .closeParen) (fun u => by cases u <;> simp [Token.kind]) rfl es
  rw [← heq, hopenings, hclosings] at hdepth
  exact hdepth.trans (Nat.zero_add _)

end Element

/-! ## Repairs -/

variable [NumberDomain α]

theorem ofElements_append_closings_iff {settings : Settings} {es : List (Element α)}
    (hne : es ≠ []) {k : Nat} :
    (∃ e, Expression.ofElements settings (es ++ List.replicate k (.symbol ")")) = .ok e) ↔
      minTokens ≤ es.length + k ∧ es.length + k ≤ settings.tokenLimit
        ∧ ∃ ks, es.map Element.kind? = ks.map some ∧ Stand.start.run ks = some ⟨true, k⟩ := by
  have hclosing : (Element.symbol ")" : Element α).kind? = some .closing := rfl
  rw [Expression.exists_eq_ok_iff fun _ => Expression.ofElements_eq_error_iff, Expression.fault?,
    Option.or_eq_none_iff, Expression.lengthFault_eq_none_iff, List.map_append,
    List.map_replicate, hclosing, firstFault_append_closings_iff (by simpa using hne), and_assoc]
  simp

/-- The check reports parentheses that do not match, without a position,
just when closing parentheses are all that is missing: when the sequence
is accepted with some number of them added behind it. That number is then
the one by which its opening parentheses outnumber its closing ones. The
sequence is not too short by itself, and twice its length is admitted, so
that the repaired one is. -/
theorem unclosed_iff_repaired (settings : Settings) (es : List (Element α))
    (hmin : minTokens ≤ es.length) (hmax : 2 * es.length ≤ settings.tokenLimit) :
    (Expression.ofElements settings es = .error (.unmatchedParenthesis none) ↔
        ∃ k, 1 ≤ k ∧
          ∃ e, Expression.ofElements settings (es ++ List.replicate k (.symbol ")")) = .ok e)
      ∧ ∀ k, (∃ e, Expression.ofElements settings (es ++ List.replicate k (.symbol ")")) = .ok e) →
          k + es.countP (Element.isSymbol ")") = es.countP (Element.isSymbol "(") := by
  have hne : es ≠ [] := by
    rintro rfl
    cases hmin
  have hkinds : es.map Element.kind? ≠ [] := by simpa using hne
  refine ⟨?_, fun k haccepted => ?_⟩
  · rw [Expression.ofElements_eq_error_iff, Expression.fault?_eq_firstFault
      (by rwa [List.length_map]) (by rw [List.length_map]; omega), firstFault_eq_unclosed_iff hkinds]
    constructor
    · rintro ⟨ks, k, heq, hpos, hrun⟩
      have hopen := Element.countP_of_run heq hrun
      have hfew : es.countP (Element.isSymbol "(") ≤ es.length := List.countP_le_length
      exact ⟨k, hpos, (ofElements_append_closings_iff hne).mpr
        ⟨by omega, by omega, ks, heq, hrun⟩⟩
    · rintro ⟨k, hpos, haccepted⟩
      obtain ⟨-, -, ks, heq, hrun⟩ := (ofElements_append_closings_iff hne).mp haccepted
      exact ⟨ks, k, heq, hpos, hrun⟩
  · obtain ⟨-, -, ks, heq, hrun⟩ := (ofElements_append_closings_iff hne).mp haccepted
    exact Element.countP_of_run heq hrun

/-- `( ( 1 + 2 )` wants one closing parenthesis. -/
theorem unclosed_iff_repaired_group :
    let settings : Settings := { tokenLimit := 12 }
    let es : List (Element Rat) :=
      [.symbol "(", .symbol "(", .number 1, .symbol "+", .number 2, .symbol ")"]
    Expression.ofElements settings es = .error (.unmatchedParenthesis none)
      ∧ ∀ k, (∃ e, Expression.ofElements settings (es ++ List.replicate k (.symbol ")")) = .ok e) →
          k = 1 := by
  intro settings es
  let e : Expression Rat := ⟨[.openParen, .openParen, .number 1, .operator .plus, .number 2,
    .closeParen, .closeParen], by decide, rfl⟩
  have he : Expression.ofElements settings (es ++ List.replicate 1 (.symbol ")")) = .ok e := rfl
  obtain ⟨hfault, hopen⟩ := unclosed_iff_repaired settings es (by decide) (by decide)
  refine ⟨hfault.mpr ⟨1, Nat.le_refl 1, e, he⟩, fun k hk => ?_⟩
  have hone : k + 1 = 2 := hopen k hk
  omega

end FourFunction
