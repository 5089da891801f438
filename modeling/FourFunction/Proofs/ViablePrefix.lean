import FourFunction.Proofs.FirstFault

/-!
# Faults come as early as they can

A fault with a position could not have been reported sooner, and need not
have been reported later. Not sooner: what lies before the position can
still be continued to a sequence that is accepted. The check has come to
the position, so the machine stands somewhere, and from any stand it can
be brought to the finish - by a number where an operand is missing, and
by closing what is open (`Stand.run_completion`). Not later: the rule
that is broken looks one position ahead at most (`Broken.congr`), so
every sequence that agrees that far has the same fault.
-/

namespace FourFunction

/-! ## Rules look one position ahead -/

section Agreement

variable {kinds kinds' : List (Option Kind)} {i : Nat}

theorem kindBefore_congr (h : ∀ j < i, kinds[j]? = kinds'[j]?) :
    kindBefore kinds i = kindBefore kinds' i := by
  cases i with
  | zero => rfl
  | succ j => rw [kindBefore, kindBefore, kindAt, kindAt, h j (Nat.lt_succ_self j)]

theorem countThrough_congr (h : ∀ j ≤ i, kinds[j]? = kinds'[j]?) (k : Kind) :
    countThrough kinds k i = countThrough kinds' k i := by
  have htake : kinds.take (i + 1) = kinds'.take (i + 1) := by
    refine List.ext_getElem? fun j => ?_
    rw [List.getElem?_take, List.getElem?_take]
    split
    · exact h j (by omega)
    · rfl
  rw [countThrough, countThrough, htake]

/-- A position that breaks a rule breaks it in every sequence that is the
same up to the next position. -/
theorem Broken.congr {fault : Fault} (h : ∀ j ≤ i + 1, kinds[j]? = kinds'[j]?)
    (hbroken : Broken kinds i fault) : Broken kinds' i fault := by
  have hat : kindAt kinds i = kindAt kinds' i := by
    rw [kindAt, kindAt, h i (Nat.le_succ i)]
  have hafter : kindAt kinds (i + 1) = kindAt kinds' (i + 1) := by
    rw [kindAt, kindAt, h (i + 1) (Nat.le_refl _)]
  have hbefore : kindBefore kinds i = kindBefore kinds' i :=
    kindBefore_congr fun j hj => h j (by omega)
  have hcount : ∀ k, countThrough kinds k i = countThrough kinds' k i :=
    countThrough_congr fun j hj => h j (Nat.le_succ_of_le hj)
  cases hbroken with
  | unknown hk => exact .unknown ((h i (Nat.le_succ i)).symm.trans hk)
  | number hk hleft => exact .number (hat ▸ hk) (hbefore ▸ hleft)
  | operator hk hwhere =>
      have hlast : i + 1 = kinds.length → i + 1 = kinds'.length := by
        intro hlen
        have hlt : i < kinds'.length := by
          have hsome := kindAt_eq_some_iff.mp (hat ▸ hk)
          exact (List.getElem?_eq_some_iff.mp hsome).1
        have hnone : kinds'[i + 1]? = none := by
          rw [← h (i + 1) (Nat.le_refl _)]
          exact List.getElem?_eq_none_iff.mpr (Nat.le_of_eq hlen.symm)
        have hle := List.getElem?_eq_none_iff.mp hnone
        omega
      rw [hbefore, hafter] at hwhere
      exact .operator (hat ▸ hk) (hwhere.imp_right (Or.imp_left hlast))
  | opening hk hright => exact .opening (hat ▸ hk) (hafter ▸ hright)
  | unmatched hk hmore =>
      rw [hcount, hcount] at hmore
      exact .unmatched (hat ▸ hk) hmore
  | closing hk hopen hleft =>
      rw [hcount, hcount] at hopen
      exact .closing (hat ▸ hk) hopen (hbefore ▸ hleft)

/-- So a fault with a position depends on nothing beyond the next one. -/
theorem firstFault_congr {fault : Fault} (hi : fault.index? = some i)
    (h : ∀ j ≤ i + 1, kinds[j]? = kinds'[j]?) (hfault : firstFault kinds = some fault) :
    firstFault kinds' = some fault := by
  obtain ⟨hbroken, hmin⟩ := (firstFault_eq_some_iff hi).mp hfault
  refine (firstFault_eq_some_iff hi).mpr ⟨hbroken.congr h, fun j hj other hother => ?_⟩
  exact hmin j hj other (hother.congr fun l hl => (h l (by omega)).symm)

end Agreement

/-! ## Completions -/

namespace Stand

/-- Kinds that lead from a stand to the finish, one more operation
included. -/
def completion (s : Stand) : List Kind :=
  (if s.ended then [] else [.number]) ++ List.replicate s.depth .closing ++ [.operator, .number]

/-- Closing parentheses alone lead to the finish from one stand only: an
operand has ended, and just as many are open. -/
theorem run_replicate_closing_iff {s : Stand} {n : Nat} :
    s.run (List.replicate n .closing) = some .finish ↔ s = ⟨true, n⟩ := by
  obtain ⟨ended, depth⟩ := s
  induction n generalizing ended depth with
  | zero => exact Option.some_inj
  | succ n ih =>
      rw [List.replicate_succ, run_cons]
      cases ended with
      | false => simp [step]
      | true =>
          cases depth with
          | zero => simp [step]
          | succ depth => simp [step, ih]

theorem run_completion (s : Stand) : s.run s.completion = some .finish := by
  obtain ⟨ended, depth⟩ := s
  have hfirst : Stand.run ⟨ended, depth⟩ (if ended then [] else [.number]) =
      some ⟨true, depth⟩ := by
    cases ended <;> rfl
  simp only [completion, run_append, hfirst, run_replicate_closing_iff.mpr rfl, Option.bind_some]
  rfl

theorem three_le_length_completion {s : Stand} {ks : List Kind} (h : start.run ks = some s) :
    3 ≤ ks.length + s.completion.length := by
  cases ks with
  | nil =>
      cases h
      decide
  | cons k rest =>
      simp only [completion, List.length_cons, List.length_append]
      omega

end Stand

variable {α : Type} [NumberDomain α]

/-- An element of the given kind; `x` wherever a number is wanted. -/
def Kind.element (x : α) : Kind → Element α
  | number => .number x
  | operator => .symbol "+"
  | opening => .symbol "("
  | closing => .symbol ")"

theorem Kind.kind?_element {x : α} (hx : NumberDomain.isFinite x = true) (k : Kind) :
    (k.element x).kind? = some k := by
  cases k with
  | number => simp [element, Element.kind?, Element.classify, Token.kind, hx]
  | _ => rfl

/-! ## Acceptable sequences -/

/-- Accepted under some settings. -/
def Acceptable (es : List (Element α)) : Prop :=
  ∃ settings e, Expression.ofElements settings es = .ok e

/-- Settings can admit any length but one below the least. -/
theorem acceptable_iff {es : List (Element α)} :
    Acceptable es ↔ minTokens ≤ es.length ∧ firstFault (es.map Element.kind?) = none := by
  have hok : ∀ settings : Settings, (∃ e, Expression.ofElements settings es = .ok e) ↔
      Expression.lengthFault settings es.length = none
        ∧ firstFault (es.map Element.kind?) = none := by
    intro settings
    rw [Expression.exists_eq_ok_iff fun _ => Expression.ofElements_eq_error_iff,
      Expression.fault?, Option.or_eq_none_iff, List.length_map]
  constructor
  · rintro ⟨settings, hsettings⟩
    obtain ⟨hlen, hplace⟩ := (hok settings).mp hsettings
    exact ⟨(Expression.lengthFault_eq_none_iff.mp hlen).1, hplace⟩
  · rintro ⟨hmin, hplace⟩
    have hlen : Expression.lengthFault { tokenLimit := es.length } es.length = none :=
      Expression.lengthFault_eq_none_iff.mpr ⟨hmin, Nat.le_refl _⟩
    exact ⟨_, (hok _).mpr ⟨hlen, hplace⟩⟩

/-- What the check has come through can be continued to a sequence that is
accepted. -/
theorem Reached.exists_acceptable {es : List (Element α)} {i : Nat} {s : Stand}
    (h : Reached (es.map Element.kind?) i s) {x : α} (hx : NumberDomain.isFinite x = true) :
    ∃ more, Acceptable (es.take i ++ more) := by
  obtain ⟨ks, hks, hrun⟩ := h.run
  have hkinds : (es.take i ++ s.completion.map (Kind.element x)).map Element.kind? =
      (ks ++ s.completion).map some := by
    rw [List.map_append, List.map_take, hks, List.map_append, List.map_map]
    exact congrArg _ (List.map_congr_left fun k _ => Kind.kind?_element hx k)
  have hfinish : Stand.start.run (ks ++ s.completion) = some .finish := by
    rw [Stand.run_append, hrun]
    exact s.run_completion
  have hlen := Stand.three_le_length_completion hrun
  rw [← List.length_append] at hlen
  refine ⟨s.completion.map (Kind.element x), acceptable_iff.mpr ⟨?_, ?_⟩⟩
  · rw [← List.length_map Element.kind?, hkinds, List.length_map]
    exact hlen
  · rw [hkinds]
    have hne : ks ++ s.completion ≠ [] := List.ne_nil_of_length_pos (by omega)
    exact (firstFaultFrom_eq_none_iff (Or.inr hne)).mpr hfinish

/-! ## Faults with a position -/

/-- The fault of `es` at position `i` has come at the first place where
it could. -/
structure ReportedEarliest (settings : Settings) (es : List (Element α)) (fault : Fault)
    (i : Nat) : Prop where
  /-- Before the position nothing is lost yet. -/
  viable : ∃ more, Acceptable (es.take i ++ more)
  /-- What comes after the next position does not matter. -/
  determined : ∀ es' : List (Element α), minTokens ≤ es'.length →
    es'.length ≤ settings.tokenLimit → (∀ j ≤ i + 1, es'[j]? = es[j]?) →
    Expression.ofElements settings es' = .error fault
  /-- With the next position everything is lost. -/
  hopeless : i + 1 < es.length → ∀ more, ¬ Acceptable (es.take (i + 2) ++ more)

/-- In a domain with a finite number at all, faults are reported at the
earliest place. -/
theorem reportedEarliest {x : α} (hx : NumberDomain.isFinite x = true) {settings : Settings}
    {es : List (Element α)} {fault : Fault} {i : Nat} (hi : fault.index? = some i)
    (h : Expression.ofElements settings es = .error fault) :
    ReportedEarliest settings es fault i := by
  have hfault := Expression.firstFault_of_fault? hi (Expression.ofElements_eq_error_iff.mp h)
  have hagree : ∀ es' : List (Element α), (∀ j ≤ i + 1, es'[j]? = es[j]?) →
      firstFault (es'.map Element.kind?) = some fault := by
    intro es' hes'
    refine firstFault_congr hi (fun j hj => ?_) hfault
    rw [List.getElem?_map, List.getElem?_map, hes' j hj]
  refine ⟨?_, fun es' hmin hmax hes' => ?_, fun hlt more hmore => ?_⟩
  · obtain ⟨hbroken, hmin⟩ := (firstFault_eq_some_iff hi).mp hfault
    obtain ⟨s, hs⟩ := exists_reached (Nat.le_of_lt hbroken.lt_length) hmin
    exact hs.exists_acceptable hx
  · rw [Expression.ofElements_eq_error_iff,
      Expression.fault?_eq_firstFault (by rwa [List.length_map]) (by rwa [List.length_map])]
    exact hagree es' hes'
  · have hsame : ∀ j ≤ i + 1, (es.take (i + 2) ++ more)[j]? = es[j]? := by
      intro j hj
      rw [List.getElem?_append_left (by rw [List.length_take]; omega), List.getElem?_take,
        if_pos (by omega)]
    cases (hagree _ hsame).symm.trans (acceptable_iff.mp hmore).2

/-- A fault with a position comes at the earliest possible place, for
doubles and for rationals. The elements before the position are the
beginning of an acceptable sequence; every sequence of admitted length
that agrees up to the next position - in having an element there or
ending - has the same fault at the same position; and so no acceptable
sequence begins with the elements up to the next position, if there is
one. -/
theorem fault_reported_earliest (settings : Settings) {fault : Fault} {i : Nat}
    (hi : fault.index? = some i) :
    (∀ es : List (Element Float), Expression.ofElements settings es = .error fault →
        ReportedEarliest settings es fault i)
      ∧ ∀ es : List (Element Rat), Expression.ofElements settings es = .error fault →
        ReportedEarliest settings es fault i := by
  have hfloat : NumberDomain.isFinite (1 : Float) = true := by decide
  exact ⟨fun _ => reportedEarliest hfloat hi, fun _ => reportedEarliest (x := (1 : Rat)) rfl hi⟩

/-- In `( 2 ) 3 - 1` the second number is the fault: `( 2 )` could go on,
and whatever stands behind `-` makes no difference. -/
theorem fault_reported_earliest_number_behind_group :
    let group : List (Element Rat) := [.symbol "(", .number 2, .symbol ")"]
    (∃ more, Acceptable (group ++ more))
      ∧ Expression.ofElements {} (group ++ [.number 3, .symbol "-", .symbol "?"]) =
          .error (.misplacedNumber 3)
      ∧ ∀ more, ¬ Acceptable (group ++ [.number 3, .symbol "-"] ++ more) := by
  intro group
  let es := group ++ [.number 3, .symbol "-", .number 1]
  have hfault : Expression.ofElements {} es = .error (.misplacedNumber 3) := rfl
  have hindex : (Fault.misplacedNumber 3).index? = some 3 := rfl
  have hearliest := (fault_reported_earliest {} hindex).2 es hfault
  refine ⟨hearliest.viable, ?_, hearliest.hopeless (by decide)⟩
  refine hearliest.determined _ (by decide) (by decide) fun j hj => ?_
  have hcases : j = 0 ∨ j = 1 ∨ j = 2 ∨ j = 3 ∨ j = 4 := by omega
  rcases hcases with rfl | rfl | rfl | rfl | rfl <;> rfl

end FourFunction
