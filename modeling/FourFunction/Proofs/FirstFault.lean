import FourFunction.Proofs.Acceptance
import FourFunction.Rules

/-!
# The first broken rule

The check walks from left to right and stops; the rules are about single
positions of the whole sequence. They meet in `Reached`: the check has
come to position `i` without a fault, and what it has read takes the
machine of `Stand` to `s`. Then `s` knows just what the rules ask of the
left side - whether an operand ends before `i`, and how many parentheses
are open - and so

- the check finds a fault at `i` if the token there breaks a rule, and it
  is the fault of that rule (`Reached.ruleBroken_of_broken`);
- if it finds none, position `i + 1` is reached (`Reached.step`), and
  otherwise a rule is broken at `i` (`Reached.broken_of_ruleBroken`).

By induction on the position, all positions are reached up to the first
at which a rule is broken (`exists_reached`). Hence the check comes out
as the rules say (`firstFault_eq_iff`).
-/

namespace FourFunction

/-! ## Rules at one position -/

theorem kindAt_eq_some_iff {kinds : List (Option Kind)} {i : Nat} {k : Kind} :
    kindAt kinds i = some k ↔ kinds[i]? = some (some k) := by
  rw [kindAt, Option.join_eq_some_iff]

namespace Broken

variable {kinds : List (Option Kind)} {i : Nat}

/-- The fault of a rule points at the position where the rule is broken. -/
theorem index?_eq {fault : Fault} (h : Broken kinds i fault) : fault.index? = some i := by
  cases h <;> rfl

theorem lt_length {fault : Fault} (h : Broken kinds i fault) : i < kinds.length := by
  have hsome : ∃ k, kinds[i]? = some k := by
    cases h with
    | unknown hk => exact ⟨_, hk⟩
    | _ hk => exact ⟨_, kindAt_eq_some_iff.mp hk⟩
  obtain ⟨k, hk⟩ := hsome
  exact (List.getElem?_eq_some_iff.mp hk).1

/-- An element that is no token breaks no other rule. -/
theorem eq_unknownToken {fault : Fault} (h : Broken kinds i fault) (hk : kinds[i]? = some none) :
    fault = .unknownToken i := by
  have hnone : ∀ k, kindAt kinds i ≠ some k := by
    intro k hat
    cases hk.symm.trans (kindAt_eq_some_iff.mp hat)
  cases h with
  | unknown _ => rfl
  | _ hat => exact absurd hat (hnone _)

/-- An operator with nothing on its left to act on. -/
theorem operator_of_before (h : kindAt kinds i = some .operator)
    (hbefore : i = 0 ∨ kindBefore kinds i = some .operator ∨ kindBefore kinds i = some .opening) :
    Broken kinds i (.misplacedOperator i) := by
  rcases hbefore with hfirst | hop | hopen
  · exact .operator h (Or.inl hfirst)
  · exact .operator h (Or.inr (Or.inr (Or.inl hop)))
  · exact .operator h (Or.inr (Or.inr (Or.inr (Or.inl hopen))))

/-- An operator with nothing on its right to act on. -/
theorem operator_of_after (h : kindAt kinds i = some .operator)
    (hafter : i + 1 = kinds.length ∨
      kindAt kinds (i + 1) = some .operator ∨ kindAt kinds (i + 1) = some .closing) :
    Broken kinds i (.misplacedOperator i) := by
  rcases hafter with hlast | hnext
  · exact .operator h (Or.inr (Or.inl hlast))
  · exact .operator h (Or.inr (Or.inr (Or.inr (Or.inr hnext))))

end Broken

namespace Stand

/-- Reading one kind moves the depth by the parenthesis that it is. -/
theorem depth_of_step {s next : Stand} {k : Kind} (h : s.step k = some next) :
    next.depth + [some k].count (some .closing) = s.depth + [some k].count (some .opening) := by
  unfold step at h
  split at h <;> cases h <;> rfl

/-- What is open is what has been opened and not been closed. -/
theorem depth_of_run {s final : Stand} {ks : List Kind} (h : s.run ks = some final) :
    final.depth + (ks.map some).count (some .closing) =
      s.depth + (ks.map some).count (some .opening) := by
  induction ks generalizing s with
  | nil =>
      cases h
      rfl
  | cons k rest ih =>
      obtain ⟨next, hstep, hrest⟩ := Option.bind_eq_some_iff.mp h
      have hmoved := depth_of_step hstep
      have hlater := ih hrest
      have hsplit : (k :: rest).map some = [some k] ++ rest.map some := rfl
      rw [hsplit, List.count_append, List.count_append]
      omega

/-- What the check finds no fault with can be read. -/
theorem isSome_step_of_ruleBroken {i depth : Nat} {before : Option Kind} {here : Kind}
    {after : Option (Option Kind)} (h : ruleBroken i depth before here after = none) :
    (Stand.step ⟨before.any Kind.endsOperand, depth⟩ here).isSome = true := by
  cases here with
  | number => cases hended : before.any Kind.endsOperand <;> simp_all [ruleBroken, step]
  | operator => cases hended : before.any Kind.endsOperand <;> simp_all [ruleBroken, step]
  | opening => cases before.any Kind.endsOperand <;> rfl
  | closing =>
      cases depth <;> cases hended : before.any Kind.endsOperand <;> simp_all [ruleBroken, step]

end Stand

/-! ## Positions that the check comes to -/

/-- The check has come to position `i` without a fault. What it has read
are tokens, and they take the machine from the start to `s`. -/
structure Reached (kinds : List (Option Kind)) (i : Nat) (s : Stand) : Prop where
  walk : firstFault kinds = firstFaultFrom i s.depth (kindBefore kinds i) (kinds.drop i)
  run : ∃ ks, kinds.take i = ks.map some ∧ Stand.start.run ks = some s
  ended : s.ended = (kindBefore kinds i).any Kind.endsOperand
  /-- Only the first position has nothing before it. -/
  known : i ≠ 0 → (kindBefore kinds i).isSome
  depth : s.depth + (kinds.take i).count (some .closing) = (kinds.take i).count (some .opening)

theorem reached_zero (kinds : List (Option Kind)) : Reached kinds 0 .start :=
  ⟨rfl, ⟨[], rfl, rfl⟩, rfl, fun h => absurd rfl h, rfl⟩

theorem take_succ_of_getElem? {kinds : List (Option Kind)} {i : Nat} {k : Option Kind}
    (h : kinds[i]? = some k) : kinds.take (i + 1) = kinds.take i ++ [k] := by
  rw [List.take_add_one, h]
  rfl

theorem drop_of_getElem? {kinds : List (Option Kind)} {i : Nat} {k : Option Kind}
    (h : kinds[i]? = some k) : kinds.drop i = k :: kinds.drop (i + 1) := by
  rw [List.drop_eq_getElem?_toList_append, h]
  rfl

namespace Reached

variable {kinds : List (Option Kind)} {i : Nat} {s : Stand}

/-! ### What the rules ask of the two sides -/

theorem ended_iff (h : Reached kinds i s) :
    s.ended = true ↔ kindBefore kinds i = some .number ∨ kindBefore kinds i = some .closing := by
  rw [h.ended]
  cases kindBefore kinds i with
  | none => simp
  | some k => cases k <;> simp [Kind.endsOperand]

theorem not_ended_iff (h : Reached kinds i s) :
    s.ended = false ↔
      i = 0 ∨ kindBefore kinds i = some .operator ∨ kindBefore kinds i = some .opening := by
  have hknown := h.known
  rw [h.ended]
  cases i with
  | zero => simp [kindBefore]
  | succ j =>
      cases hk : kindBefore kinds (j + 1) with
      | none => simp [hk] at hknown
      | some k => cases k <;> simp [Kind.endsOperand]

theorem depth_eq_zero_iff (h : Reached kinds i s) (hhere : kinds[i]? = some (some .closing)) :
    s.depth = 0 ↔ countThrough kinds .opening i < countThrough kinds .closing i := by
  have hdepth := h.depth
  have hclosing : [some Kind.closing].count (some .closing) = 1 := rfl
  have hopening : [some Kind.closing].count (some .opening) = 0 := rfl
  rw [countThrough, countThrough, take_succ_of_getElem? hhere, List.count_append,
    List.count_append]
  omega

theorem starts_after_iff :
    kinds[i + 1]?.any (·.any Kind.startsOperand) = true ↔
      kindAt kinds (i + 1) = some .number ∨ kindAt kinds (i + 1) = some .opening := by
  rw [kindAt]
  rcases kinds[i + 1]? with _ | _ | k
  · simp
  · simp
  · cases k <;> simp [Kind.startsOperand]

/-! ### The check at the position -/

/-- A fault that the check finds is that of a broken rule. -/
theorem broken_of_ruleBroken {here : Kind} {fault : Fault} (h : Reached kinds i s)
    (hhere : kinds[i]? = some (some here))
    (hrule : ruleBroken i s.depth (kindBefore kinds i) here kinds[i + 1]? = some fault) :
    Broken kinds i fault := by
  have hat := kindAt_eq_some_iff.mpr hhere
  cases here with
  | number =>
      simp only [ruleBroken, ← h.ended] at hrule
      split at hrule <;> cases hrule
      rename_i hended
      exact .number hat (h.ended_iff.mp hended)
  | operator =>
      simp only [ruleBroken, ← h.ended, Bool.not_eq_true'] at hrule
      split at hrule
      · cases hrule
        rename_i hended
        exact .operator_of_before hat (h.not_ended_iff.mp hended)
      · split at hrule
        · cases hrule
          rename_i hafter
          have hlast : i + 1 = kinds.length := by
            have hlt := (List.getElem?_eq_some_iff.mp hhere).1
            have hle := List.getElem?_eq_none_iff.mp hafter
            omega
          exact .operator_of_after hat (Or.inl hlast)
        · cases hrule
        · rename_i k hafter
          have hnext := kindAt_eq_some_iff.mpr hafter
          split at hrule <;> cases hrule
          rename_i hstarts
          cases k with
          | number => exact absurd rfl hstarts
          | opening => exact absurd rfl hstarts
          | operator => exact .operator_of_after hat (Or.inr (Or.inl hnext))
          | closing => exact .operator_of_after hat (Or.inr (Or.inr hnext))
  | opening =>
      simp only [ruleBroken] at hrule
      split at hrule <;> cases hrule
      rename_i hstarts
      exact .opening hat fun hafter => hstarts (starts_after_iff.mpr hafter)
  | closing =>
      have hdepth := h.depth_eq_zero_iff hhere
      simp only [ruleBroken, ← h.ended] at hrule
      split at hrule
      · cases hrule
        rename_i hzero
        exact .unmatched hat (hdepth.mp hzero)
      · rename_i hopen
        split at hrule <;> cases hrule
        rename_i hended
        exact .closing hat (fun hcount => hopen (hdepth.mpr hcount))
          fun hbefore => hended (h.ended_iff.mpr hbefore)

/-- A broken rule is found, and its fault reported. -/
theorem ruleBroken_of_broken {here : Kind} {fault : Fault} (h : Reached kinds i s)
    (hhere : kinds[i]? = some (some here)) (hbroken : Broken kinds i fault) :
    ruleBroken i s.depth (kindBefore kinds i) here kinds[i + 1]? = some fault := by
  have hkind : ∀ k, kindAt kinds i = some k → here = k := fun k hk => by
    rw [kindAt_eq_some_iff, hhere] at hk
    exact Option.some.inj (Option.some.inj hk)
  cases hbroken with
  | unknown hk => cases hhere.symm.trans hk
  | number hk hbefore =>
      obtain rfl := hkind _ hk
      simp [ruleBroken, ← h.ended, h.ended_iff.mpr hbefore]
  | operator hk hwhere =>
      obtain rfl := hkind _ hk
      cases hended : s.ended with
      | false => simp [ruleBroken, ← h.ended, hended]
      | true =>
          have hbefore := h.ended_iff.mp hended
          rcases hwhere with rfl | hlast | hop | hopen | hop | hclose
          · cases h.ended.symm.trans hended
          · have hafter : kinds[i + 1]? = none := List.getElem?_eq_none_iff.mpr (by omega)
            simp [ruleBroken, ← h.ended, hended, hafter]
          · simp [hop] at hbefore
          · simp [hopen] at hbefore
          · simp [ruleBroken, ← h.ended, hended, kindAt_eq_some_iff.mp hop, Kind.startsOperand]
          · simp [ruleBroken, ← h.ended, hended, kindAt_eq_some_iff.mp hclose, Kind.startsOperand]
  | opening hk hafter =>
      obtain rfl := hkind _ hk
      simp only [ruleBroken]
      rw [if_neg fun hstarts => hafter (starts_after_iff.mp hstarts)]
  | unmatched hk hcount =>
      obtain rfl := hkind _ hk
      simp [ruleBroken, (h.depth_eq_zero_iff hhere).mpr hcount]
  | closing hk hcount hbefore =>
      obtain rfl := hkind _ hk
      simp only [ruleBroken, ← h.ended]
      rw [if_neg fun hzero => hcount ((h.depth_eq_zero_iff hhere).mp hzero),
        if_neg fun hended => hbefore (h.ended_iff.mp hended)]

/-- Where the check finds no fault it goes on, and so does the machine. -/
theorem step {here : Kind} (h : Reached kinds i s) (hhere : kinds[i]? = some (some here))
    (hrule : ruleBroken i s.depth (kindBefore kinds i) here kinds[i + 1]? = none) :
    ∃ next, Reached kinds (i + 1) next := by
  have hcan := Stand.isSome_step_of_ruleBroken hrule
  rw [← h.ended] at hcan
  obtain ⟨next, hstep⟩ := Option.isSome_iff_exists.mp hcan
  have hbefore : kindBefore kinds (i + 1) = some here := kindAt_eq_some_iff.mpr hhere
  have htake := take_succ_of_getElem? hhere
  obtain ⟨ks, hks, hrun⟩ := h.run
  refine ⟨next, ?_, ⟨ks ++ [here], ?_, ?_⟩, ?_, fun _ => ?_, ?_⟩
  · rw [h.walk, drop_of_getElem? hhere, firstFaultFrom, List.head?_drop, hrule, hbefore,
      Stand.eq_of_step hstep]
  · rw [htake, hks, List.map_append]
    rfl
  · rw [Stand.run_append, hrun, Option.bind_some, Stand.run_cons, hstep]
    rfl
  · rw [Stand.ended_of_step hstep, hbefore]
    rfl
  · rw [hbefore]
    rfl
  · have hdepth := h.depth
    have hmoved := Stand.depth_of_step hstep
    dsimp only at hmoved
    rw [htake, List.count_append, List.count_append]
    omega

end Reached

/-- The check comes to every position that has no broken rule before it. -/
theorem exists_reached {kinds : List (Option Kind)} {i : Nat} (hle : i ≤ kinds.length)
    (hsound : ∀ j < i, ∀ fault, ¬ Broken kinds j fault) : ∃ s, Reached kinds i s := by
  induction i with
  | zero => exact ⟨.start, reached_zero kinds⟩
  | succ i ih =>
      obtain ⟨s, hs⟩ := ih (Nat.le_of_succ_le hle) fun j hj => hsound j (Nat.lt_succ_of_lt hj)
      have hhere := hsound i (Nat.lt_succ_self i)
      cases hk : kinds[i]? with
      | none => exact absurd (List.getElem?_eq_none_iff.mp hk) (Nat.not_le.mpr hle)
      | some k =>
          cases k with
          | none => exact absurd (.unknown hk) (hhere _)
          | some here =>
              cases hrule : ruleBroken i s.depth (kindBefore kinds i) here kinds[i + 1]? with
              | some fault => exact absurd (hs.broken_of_ruleBroken hk hrule) (hhere fault)
              | none => exact hs.step hk hrule

/-! ## The verdict -/

theorem firstFault_of_broken {kinds : List (Option Kind)} {i : Nat} {fault : Fault}
    (h : Broken kinds i fault) (hmin : ∀ j < i, ∀ other, ¬ Broken kinds j other) :
    firstFault kinds = some fault := by
  obtain ⟨s, hs⟩ := exists_reached (Nat.le_of_lt h.lt_length) hmin
  rw [hs.walk]
  cases hk : kinds[i]? with
  | none => exact absurd h.lt_length (Nat.not_lt.mpr (List.getElem?_eq_none_iff.mp hk))
  | some k =>
      rw [drop_of_getElem? hk]
      cases k with
      | none => rw [h.eq_unknownToken hk, firstFaultFrom]
      | some here => rw [firstFaultFrom, List.head?_drop, hs.ruleBroken_of_broken hk h]

theorem firstFault_of_sound {kinds : List (Option Kind)}
    (h : ∀ i fault, ¬ Broken kinds i fault) :
    firstFault kinds =
      if kinds.count (some .opening) = kinds.count (some .closing) then none
      else some (.unmatchedParenthesis none) := by
  obtain ⟨s, hs⟩ := exists_reached (Nat.le_refl _) fun i _ => h i
  have hdepth := hs.depth
  rw [List.take_length] at hdepth
  rw [hs.walk, List.drop_length, firstFaultFrom]
  by_cases hzero : s.depth = 0
  · rw [if_pos hzero, if_pos (by omega)]
  · rw [if_neg hzero, if_neg (by omega)]

theorem Verdict.firstFault_eq {kinds : List (Option Kind)} {v : Option Fault}
    (h : Verdict kinds v) : firstFault kinds = v := by
  cases h with
  | broken hb hmin => exact firstFault_of_broken hb hmin
  | unclosed hsound hcount => rw [firstFault_of_sound hsound, if_neg hcount]
  | sound hsound hcount => rw [firstFault_of_sound hsound, if_pos hcount]

/-- Of the positions that break a rule, if there are any, one is the first. -/
theorem exists_verdict (kinds : List (Option Kind)) : ∃ v, Verdict kinds v := by
  by_cases hsound : ∀ i fault, ¬ Broken kinds i fault
  · by_cases hcount : kinds.count (some .opening) = kinds.count (some .closing)
    · exact ⟨_, .sound hsound hcount⟩
    · exact ⟨_, .unclosed hsound hcount⟩
  · have hfirst : ∀ i fault, Broken kinds i fault → ∃ v, Verdict kinds v := by
      intro i
      induction i using Nat.strongRecOn with
      | _ i ih =>
          intro fault hb
          by_cases hmin : ∀ j < i, ∀ other, ¬ Broken kinds j other
          · exact ⟨_, .broken hb hmin⟩
          · simp only [Classical.not_forall, Classical.not_not] at hmin
            obtain ⟨j, hj, other, hother⟩ := hmin
            exact ih j hj other hother
    simp only [Classical.not_forall, Classical.not_not] at hsound
    obtain ⟨i, fault, hb⟩ := hsound
    exact hfirst i fault hb

/-- The check comes out as the rules say. -/
theorem firstFault_eq_iff {kinds : List (Option Kind)} {v : Option Fault} :
    firstFault kinds = v ↔ Verdict kinds v := by
  constructor
  · rintro rfl
    obtain ⟨v, hv⟩ := exists_verdict kinds
    rwa [hv.firstFault_eq]
  · exact Verdict.firstFault_eq

/-- A fault with a position is reported just when its rule is the first
that is broken. -/
theorem firstFault_eq_some_iff {kinds : List (Option Kind)} {fault : Fault} {i : Nat}
    (hi : fault.index? = some i) :
    firstFault kinds = some fault ↔
      Broken kinds i fault ∧ ∀ j < i, ∀ other, ¬ Broken kinds j other := by
  constructor
  · intro h
    cases firstFault_eq_iff.mp h with
    | broken hb hmin =>
        obtain rfl := Option.some.inj (hb.index?_eq.symm.trans hi)
        exact ⟨hb, hmin⟩
    | unclosed _ _ => cases hi
  · rintro ⟨hb, hmin⟩
    exact firstFault_of_broken hb hmin

/-! ## Lengths and placement together -/

namespace Expression

variable {α : Type} [NumberDomain α]

/-- What stands against a sequence of elements of the given kinds. -/
def fault? (settings : Settings) (kinds : List (Option Kind)) : Option Fault :=
  (lengthFault settings kinds.length).or (firstFault kinds)

theorem ofElements_eq_error_iff {settings : Settings} {es : List (Element α)} {fault : Fault} :
    ofElements settings es = .error fault ↔
      fault? settings (es.map Element.kind?) = some fault := by
  unfold ofElements
  split
  · rename_i long
    simp [fault?, long]
  · rename_i long
    split <;> rename_i placed <;> simp [fault?, long, placed]

theorem ofTokens_eq_error_iff {settings : Settings} {ts : List (Token α)} {fault : Fault} :
    ofTokens settings ts = .error fault ↔
      fault? settings (ts.map Token.kind?) = some fault := by
  unfold ofTokens
  split
  · rename_i long
    simp [fault?, long]
  · rename_i long
    split <;> rename_i placed <;> simp [fault?, long, placed]

/-- What fails just where there is a fault is done where there is none. -/
theorem exists_eq_ok_iff {β : Type} {outcome : Except Fault β} {found : Option Fault}
    (h : ∀ fault, outcome = .error fault ↔ found = some fault) :
    (∃ b, outcome = .ok b) ↔ found = none := by
  cases outcome with
  | error fault => simp [(h fault).mp rfl]
  | ok b => cases found with
    | none => simp
    | some fault => cases (h fault).mpr rfl

/-- The fault that is found is the one that the rules call for. -/
theorem fault?_eq_iff {settings : Settings} {kinds : List (Option Kind)} {v : Option Fault} :
    fault? settings kinds = v ↔ Ruling settings kinds v := by
  unfold fault? lengthFault
  by_cases hmin : kinds.length < minTokens
  · rw [if_pos hmin, Option.some_or]
    constructor
    · rintro rfl
      exact .tooFew hmin
    · intro h
      cases h <;> first | rfl | omega
  · by_cases hmax : settings.tokenLimit < kinds.length
    · rw [if_neg hmin, if_pos hmax, Option.some_or]
      constructor
      · rintro rfl
        exact .tooMany (by omega) hmax
      · intro h
        cases h <;> first | rfl | omega
    · rw [if_neg hmin, if_neg hmax, Option.none_or, firstFault_eq_iff]
      constructor
      · exact .placed (by omega) (by omega)
      · intro h
        cases h <;> first | assumption | omega

/-- A fault with a position is one of placement. -/
theorem firstFault_of_fault? {settings : Settings} {kinds : List (Option Kind)} {fault : Fault}
    {i : Nat} (hi : fault.index? = some i) (h : fault? settings kinds = some fault) :
    firstFault kinds = some fault := by
  cases fault?_eq_iff.mp h with
  | tooFew _ => cases hi
  | tooMany _ _ => cases hi
  | placed _ _ hverdict => exact hverdict.firstFault_eq

/-- In a sequence of admitted length only placement is left to look at. -/
theorem fault?_eq_firstFault {settings : Settings} {kinds : List (Option Kind)}
    (hmin : minTokens ≤ kinds.length) (hmax : kinds.length ≤ settings.tokenLimit) :
    fault? settings kinds = firstFault kinds := by
  rw [fault?, lengthFault_eq_none_iff.mpr ⟨hmin, hmax⟩, Option.none_or]

end Expression

variable {α : Type} [NumberDomain α]

/-- The check reports the first violated rule, of raw elements as of
ready tokens: a sequence that is too short or too long is refused for its
length whatever it holds; otherwise the fault is that of the first
position at which a rule of placement is broken, or else that parentheses
are left open; and where there is none of all that, the sequence is
accepted. -/
theorem check_reports_first_fault (settings : Settings) (es : List (Element α))
    (ts : List (Token α)) :
    (∀ fault, Expression.ofElements settings es = .error fault ↔
        Ruling settings (es.map Element.kind?) (some fault))
      ∧ ((∃ e, Expression.ofElements settings es = .ok e) ↔
        Ruling settings (es.map Element.kind?) none)
      ∧ (∀ fault, Expression.ofTokens settings ts = .error fault ↔
        Ruling settings (ts.map Token.kind?) (some fault))
      ∧ ((∃ e, Expression.ofTokens settings ts = .ok e) ↔
        Ruling settings (ts.map Token.kind?) none) := by
  refine ⟨fun fault => ?_, ?_, fun fault => ?_, ?_⟩
  · rw [Expression.ofElements_eq_error_iff, Expression.fault?_eq_iff]
  · rw [Expression.exists_eq_ok_iff fun _ => Expression.ofElements_eq_error_iff,
      Expression.fault?_eq_iff]
  · rw [Expression.ofTokens_eq_error_iff, Expression.fault?_eq_iff]
  · rw [Expression.exists_eq_ok_iff fun _ => Expression.ofTokens_eq_error_iff,
      Expression.fault?_eq_iff]

/-- `2 + ) (` breaks three rules. -/
example : firstFault [some .number, some .operator, some .closing, some .opening] =
    some (.misplacedOperator 1) := by decide

end FourFunction
