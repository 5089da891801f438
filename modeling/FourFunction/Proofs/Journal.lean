import FourFunction.Rules
import FourFunction.Proofs.Exactness
import FourFunction.Proofs.FirstFault
import FourFunction.Proofs.Replacements

/-!
# The journal tells what was done

A calculation is its stages one after the other, and so is its journal.
The check writes what it comes to, unless it is the length that it
refuses; the conversion writes the threshold it has to ignore or the
numbers it replaces, never both, since without a limit nothing is
replaced (`replacements_of_thresholdIgnored`); the stack writes a value.
Put together line by line this is what the rules of the journal say, and
they say no more (`journalled_iff`). How many lines there are on numbers
that were replaced can be counted beforehand (`length_replacements`), and
it does not matter whether they are written together or each when its
number is read (`tellingPass_eq`).
-/

namespace FourFunction

variable {α : Type} [NumberDomain α]

/-! ## Replacements and thresholds -/

/-- There is one replacement for each number beyond the limit. -/
theorem length_replacements (limit : α) (ts : List (Token α)) :
    (replacements (some limit) ts).length = ts.countP (Token.exceeds limit) := by
  have hrecorded : ∀ p : Token α × Nat,
      (replacementAt (some limit) ts p.2 p.1).isSome = p.1.exceeds limit := by
    rintro ⟨t, i⟩
    cases h : t.exceeds limit with
    | false => rw [replacementAt_of_not_exceeds h]; rfl
    | true =>
        obtain ⟨x, rfl, hx⟩ := Token.exceeds_iff.mp h
        rw [replacementAt_number, if_pos hx]
        rfl
  calc (replacements (some limit) ts).length
      = ts.zipIdx.countP fun p => (replacementAt (some limit) ts p.2 p.1).isSome := by
        rw [replacements_eq, List.length_filterMap_eq_countP]
    _ = ts.zipIdx.countP (Token.exceeds limit ∘ Prod.fst) :=
        List.countP_congr fun p _ => by rw [hrecorded]; rfl
    _ = ts.countP (Token.exceeds limit) := by rw [← List.countP_map, List.zipIdx_map_fst]

/-- Without a limit nothing is replaced. -/
theorem replacements_of_thresholdIgnored {settings : Settings} {e : Expression α}
    (h : settings.thresholdIgnored α = true) : e.replacements settings = [] := by
  rw [Expression.replacements, ((Settings.thresholdIgnored_iff α).mp h).2]
  rfl

/-- What is ignored where the domain has just the finite doubles. -/
theorem thresholdIgnored_eq (hfinite : ∀ x : Float,
    (NumberDomain.ofDouble? x : Option α) = none ↔ x.isFinite = false) (settings : Settings) :
    settings.thresholdIgnored α = true ↔
      settings.replaceLarge = true ∧ settings.threshold.isFinite = false := by
  rw [Settings.thresholdIgnored, Bool.and_eq_true, Option.isNone_iff_eq_none, hfinite]

/-- What the conversion writes before it looks at the first token. -/
def thresholdEvents (α : Type) [NumberDomain α] (settings : Settings) : List (Event α) :=
  if settings.thresholdIgnored α then [.thresholdIgnored settings.threshold] else []

theorem journal_convert (settings : Settings) (e : Expression α) :
    (convert settings e).journal = thresholdEvents α settings
      ++ (e.replacements settings).map .replaced ++ [.converted (e.toPostfix settings)] := rfl

theorem ofDouble?_float_eq_none_iff (x : Float) :
    (NumberDomain.ofDouble? x : Option Float) = none ↔ x.isFinite = false := by
  show (if x.isFinite then some x else none) = none ↔ _
  cases x.isFinite <;> simp

theorem ofDouble?_rat_eq_none_iff (x : Float) :
    (NumberDomain.ofDouble? x : Option Rat) = none ↔ x.isFinite = false := by
  rw [← Bool.not_eq_true, Rational.isFinite_iff, Option.eq_none_iff_forall_ne_some, not_exists]
  rfl

/-! ## The journal of the check -/

theorem evaluateWith_of_error {settings : Settings} {es : List (Element α)} {fault : Fault}
    (h : Expression.ofElements settings es = .error fault) :
    evaluateWith settings es =
      ⟨.error fault, if fault.isOfLength then [] else [.rejected fault]⟩ := by
  have hcheck : check settings es =
      ⟨.error fault, if fault.isOfLength then [] else [.rejected fault]⟩ := by
    rw [check, h]
    rfl
  rw [evaluateWith, Recorded.bind_of_error (congrArg Recorded.outcome hcheck), hcheck]

theorem evaluateWith_of_length {settings : Settings} {es : List (Element α)} {fault : Fault}
    (h : Expression.lengthFault settings es.length = some fault) :
    evaluateWith settings es = ⟨.error fault, []⟩ := by
  have hfault : Expression.fault? settings (es.map Element.kind?) = some fault := by
    rw [Expression.fault?, List.length_map, h, Option.some_or]
  have hlength : fault.isOfLength = true := by
    unfold Expression.lengthFault at h
    split at h
    · cases h; rfl
    · split at h <;> cases h
      rfl
  rw [evaluateWith_of_error (Expression.ofElements_eq_error_iff.mpr hfault), hlength]
  rfl

theorem evaluateWith_of_firstFault {settings : Settings} {es : List (Element α)} {fault : Fault}
    (hmin : minTokens ≤ es.length) (hmax : es.length ≤ settings.tokenLimit)
    (h : firstFault (es.map Element.kind?) = some fault) :
    evaluateWith settings es = ⟨.error fault, [.rejected fault]⟩ := by
  have hfault : Expression.fault? settings (es.map Element.kind?) = some fault := by
    rw [Expression.fault?_eq_firstFault (by rwa [List.length_map]) (by rwa [List.length_map]), h]
  -- a rule of placement is no matter of length
  have hplaced : fault.isOfLength = false := by
    cases firstFault_eq_iff.mp h with
    | broken hbroken _ => cases hbroken <;> rfl
    | unclosed _ _ => rfl
  rw [evaluateWith_of_error (Expression.ofElements_eq_error_iff.mpr hfault), hplaced]
  rfl

/-! ## The journal of a calculation -/

/-- What is written once a sequence has been accepted. -/
theorem journal_evaluateWith_of_ok {settings : Settings} {es : List (Element α)}
    {e : Expression α} (h : Expression.ofElements settings es = .ok e) :
    (evaluateWith settings es).journal =
      .accepted e.tokens :: ((convert settings e).journal
        ++ (reduce (e.toPostfix settings)).journal) := by
  have hcheck : check settings es = ⟨.ok e, [.accepted e.tokens]⟩ := by
    rw [check, h]
    rfl
  rw [evaluateWith, Recorded.bind_of_ok (congrArg Recorded.outcome hcheck), hcheck]
  rfl

theorem outcome_evaluateWith_of_ok {settings : Settings} {es : List (Element α)}
    {e : Expression α} (h : Expression.ofElements settings es = .ok e) :
    (evaluateWith settings es).outcome = evaluatePostfix (e.toPostfix settings) := by
  rw [outcome_evaluateWith, h]
  rfl

/-- The working is put together from what the calculation comes to. -/
theorem evaluateWithWorking_eq (settings : Settings) (es : List (Element α)) :
    (evaluateWithWorking settings es).journal = (evaluateWith settings es).journal
      ∧ (evaluateWithWorking settings es).outcome.map Working.value =
        (evaluateWith settings es).outcome := by
  refine ⟨?_, ?_⟩
  · rw [evaluateWithWorking, evaluateWith]
    cases hcheck : (check settings es).outcome with
    | error fault => rw [Recorded.bind_of_error hcheck, Recorded.bind_of_error hcheck]
    | ok e =>
        rw [Recorded.bind_of_ok hcheck, Recorded.bind_of_ok hcheck]
        have hconvert : (convert settings e).outcome = .ok (e.toPostfix settings) := rfl
        rw [Recorded.bind_of_ok hconvert, Recorded.bind_of_ok hconvert]
        cases hreduce : (reduce (e.toPostfix settings)).outcome with
        | error fault => rw [Recorded.bind_of_error hreduce]
        | ok v => rw [Recorded.bind_of_ok hreduce, Recorded.pure_eq, List.append_nil]
  · rw [outcome_evaluateWithWorking, outcome_evaluateWith]
    cases Expression.ofElements settings es with
    | error fault => rfl
    | ok e =>
        show Except.map _ (Except.map _ (evaluatePostfix (e.toPostfix settings))) =
          evaluatePostfix (e.toPostfix settings)
        cases evaluatePostfix (e.toPostfix settings) <;> rfl

/-! ## Lines -/

theorem lines_convert (hfinite : ∀ x : Float,
    (NumberDomain.ofDouble? x : Option α) = none ↔ x.isFinite = false) (settings : Settings)
    (e : Expression α) :
    (convert settings e).lines = thresholdLines settings
      ++ (e.replacements settings).map replacementLine
      ++ [(.trace, "rpn: " ++ Token.listText (e.toPostfix settings))] := by
  have hthreshold : (thresholdEvents α settings).map (fun event => (event.level, event.line)) =
      thresholdLines settings := by
    unfold thresholdEvents thresholdLines
    by_cases h : settings.thresholdIgnored α = true
    · rw [if_pos h, if_pos ((thresholdIgnored_eq hfinite settings).mp h)]
      rfl
    · rw [if_neg h, if_neg (mt (thresholdIgnored_eq hfinite settings).mpr h)]
      rfl
  rw [Recorded.lines, journal_convert, List.map_append, List.map_append, hthreshold,
    List.map_map]
  rfl

theorem lines_reduce (ts : List (Token α)) :
    (reduce ts).lines = valueLines ts (evaluatePostfix ts) := by
  rw [Recorded.lines, reduce]
  cases evaluatePostfix ts <;> rfl

theorem lines_evaluateWith_of_ok (hfinite : ∀ x : Float,
    (NumberDomain.ofDouble? x : Option α) = none ↔ x.isFinite = false) {settings : Settings}
    {es : List (Element α)} {e : Expression α} (h : Expression.ofElements settings es = .ok e) :
    (evaluateWith settings es).lines =
      (.trace, "validation ok: " ++ Token.listText e.tokens) :: thresholdLines settings
        ++ (e.replacements settings).map replacementLine
        ++ (.trace, "rpn: " ++ Token.listText (e.toPostfix settings))
          :: valueLines (e.toPostfix settings) (evaluateWith settings es).outcome := by
  rw [outcome_evaluateWith_of_ok h, ← lines_reduce, Recorded.lines, journal_evaluateWith_of_ok h,
    List.map_cons, List.map_append]
  show _ :: ((convert settings e).lines ++ (reduce (e.toPostfix settings)).lines) = _
  rw [lines_convert hfinite]
  simp only [List.append_assoc, List.cons_append, List.nil_append]
  rfl

/-- The lines of a calculation are those that the rules of the journal
call for, and no others. -/
theorem journalled_iff (hfinite : ∀ x : Float,
    (NumberDomain.ofDouble? x : Option α) = none ↔ x.isFinite = false) {settings : Settings}
    {es : List (Element α)} {lines : List (Level × String)} :
    Journalled settings es (evaluateWith settings es).outcome lines ↔
      lines = (evaluateWith settings es).lines := by
  constructor
  · intro h
    generalize hout : (evaluateWith settings es).outcome = outcome at h
    cases h with
    | tooFew hmin => rw [evaluateWith_of_length (if_pos hmin)]; rfl
    | tooMany hmin hmax =>
        have hlength : Expression.lengthFault settings es.length =
            some (.tooManyTokens settings.tokenLimit) := by
          rw [Expression.lengthFault, if_neg (Nat.not_lt.mpr hmin), if_pos hmax]
        rw [evaluateWith_of_length hlength]
        rfl
    | rejected hmin hmax hfault => rw [evaluateWith_of_firstFault hmin hmax hfault]; rfl
    | calculated he _ => rw [lines_evaluateWith_of_ok hfinite he, hout]
  · rintro rfl
    cases he : Expression.ofElements settings es with
    | ok e =>
        rw [lines_evaluateWith_of_ok hfinite he]
        exact .calculated he (Expression.ofElements_eq_ok_iff.mp he).2
    | error fault =>
        have hruling := Expression.fault?_eq_iff.mp (Expression.ofElements_eq_error_iff.mp he)
        rw [evaluateWith_of_error he]
        cases hruling with
        | tooFew hmin => exact .tooFew (by simpa using hmin)
        | tooMany hmin hmax => exact .tooMany (by simpa using hmin) (by simpa using hmax)
        | placed hmin hmax hverdict =>
            rw [List.length_map] at hmin hmax
            have hfault := hverdict.firstFault_eq
            have hrejected := evaluateWith_of_firstFault hmin hmax hfault
            rw [← evaluateWith_of_error he, hrejected]
            exact .rejected hmin hmax hfault

/-! ## Writing on the way

The conversion writes of all numbers that are replaced once it knows them
all. It could as well write of each number when it comes to it. -/

/-- Reads the token `t` at position `i`, and writes at once of the number
that is replaced. -/
def tellToken (limit? : Option α) (ts : List (Token α))
    (state : Conversion α × List (Event α)) : Token α × Nat → Conversion α × List (Event α)
  | (t, i) =>
      match replacementAt limit? ts i t with
      | some r => (state.1.read (.number r.after), state.2 ++ [.replaced r])
      | none => (state.1.read t, state.2)

/-- The conversion of an expression in one pass that writes as it goes. -/
def tellingPass (settings : Settings) (e : Expression α) : Recorded α (List (Token α)) :=
  let final := e.tokens.zipIdx.foldl (tellToken (settings.limit? α) e.tokens)
    (.start, thresholdEvents α settings)
  ⟨.ok final.1.finish, final.2 ++ [.converted final.1.finish]⟩

/-- What is written along with a token is what is recorded of it. -/
theorem tellToken_record (limit? : Option α) (ts : List (Token α)) (written : List (Event α))
    (state : Conversion α × List (Replacement α)) (p : Token α × Nat) :
    tellToken limit? ts (state.1, written ++ state.2.map .replaced) p =
      ((passToken limit? ts state p).1,
        written ++ (passToken limit? ts state p).2.map .replaced) := by
  obtain ⟨t, i⟩ := p
  cases h : replacementAt limit? ts i t <;> simp [tellToken, passToken, h]

theorem foldl_tellToken (limit? : Option α) (ts : List (Token α)) (written : List (Event α))
    (state : Conversion α × List (Replacement α)) (ps : List (Token α × Nat)) :
    ps.foldl (tellToken limit? ts) (state.1, written ++ state.2.map .replaced) =
      ((ps.foldl (passToken limit? ts) state).1,
        written ++ (ps.foldl (passToken limit? ts) state).2.map .replaced) := by
  induction ps generalizing state with
  | nil => rfl
  | cons p rest ih => rw [List.foldl_cons, List.foldl_cons, tellToken_record, ih]

/-- Writing of each number on the way leaves the same journal. -/
theorem tellingPass_eq (settings : Settings) (e : Expression α) :
    tellingPass settings e = convert settings e := by
  have hfold := foldl_tellToken (settings.limit? α) e.tokens (thresholdEvents α settings)
    (.start, []) e.tokens.zipIdx
  rw [List.map_nil, List.append_nil] at hfold
  obtain ⟨hfinish, hrecords⟩ := Prod.mk.inj (onePass_eq (settings.limit? α) e.tokens)
  rw [tellingPass, hfold]
  dsimp only
  rw [hfinish, hrecords]
  rfl

/-! ## Numbers of lines -/

theorem isReplaced_of_mem_thresholdEvents {settings : Settings} {event : Event α}
    (h : event ∈ thresholdEvents α settings) : event.isReplaced = false := by
  unfold thresholdEvents at h
  split at h
  · rw [List.mem_singleton.mp h]
    rfl
  · cases h

theorem isReplaced_of_mem_reduce {ts : List (Token α)} {event : Event α}
    (h : event ∈ (reduce ts).journal) : event.isReplaced = false := by
  rw [reduce] at h
  cases hv : evaluatePostfix ts with
  | error fault =>
      rw [hv] at h
      cases h
  | ok v =>
      rw [hv] at h
      rw [List.mem_singleton.mp h]
      rfl

/-- Only the conversion writes of numbers that were replaced, of all of
them in one go. -/
theorem exists_journal_eq {settings : Settings} {es : List (Element α)} {e : Expression α}
    (h : Expression.ofElements settings es = .ok e) :
    ∃ before after, (evaluateWith settings es).journal =
        before ++ (e.replacements settings).map .replaced ++ after
      ∧ ∀ event ∈ before ++ after, event.isReplaced = false := by
  refine ⟨.accepted e.tokens :: thresholdEvents α settings,
    .converted (e.toPostfix settings) :: (reduce (e.toPostfix settings)).journal, ?_, ?_⟩
  · rw [journal_evaluateWith_of_ok h, journal_convert]
    simp only [List.append_assoc, List.cons_append, List.nil_append]
  · intro event hmem
    rcases List.mem_append.mp hmem with hbefore | hafter
    · rcases List.mem_cons.mp hbefore with rfl | hthreshold
      · rfl
      · exact isReplaced_of_mem_thresholdEvents hthreshold
    · rcases List.mem_cons.mp hafter with rfl | hvalue
      · rfl
      · exact isReplaced_of_mem_reduce hvalue

theorem countP_isReplaced {settings : Settings} {es : List (Element α)} {e : Expression α}
    (h : Expression.ofElements settings es = .ok e) :
    (evaluateWith settings es).journal.countP Event.isReplaced =
      (e.replacements settings).length := by
  obtain ⟨before, after, hjournal, hother⟩ := exists_journal_eq h
  have hreplaced : ((e.replacements settings).map Event.replaced).countP Event.isReplaced =
      (e.replacements settings).length := by
    rw [List.countP_map]
    exact List.countP_eq_length.mpr fun _ _ => rfl
  have hnone : (before ++ after).countP Event.isReplaced = 0 :=
    List.countP_eq_zero.mpr fun event hmem => Bool.eq_false_iff.mp (hother event hmem)
  rw [List.countP_append] at hnone
  rw [hjournal, List.countP_append, List.countP_append, hreplaced]
  omega

/-- A sequence that is refused leaves nothing but its fault. -/
theorem eq_rejected_of_mem {settings : Settings} {es : List (Element α)} {fault : Fault}
    (h : Expression.ofElements settings es = .error fault) {event : Event α}
    (hmem : event ∈ (evaluateWith settings es).journal) : event = .rejected fault := by
  rw [evaluateWith_of_error h] at hmem
  split at hmem
  · cases hmem
  · exact List.mem_singleton.mp hmem

/-- Of a threshold nothing is written unless the large-number rule has to
ignore it. -/
theorem thresholdIgnored_of_mem {settings : Settings} {es : List (Element α)} {event : Event α}
    (hmem : event ∈ (evaluateWith settings es).journal)
    (hevent : event.isThresholdIgnored = true) : settings.thresholdIgnored α = true := by
  cases he : Expression.ofElements settings es with
  | error fault =>
      rw [eq_rejected_of_mem he hmem] at hevent
      cases hevent
  | ok e =>
      rw [journal_evaluateWith_of_ok he, journal_convert, thresholdEvents, reduce] at hmem
      by_contra hused
      rw [if_neg hused] at hmem
      cases event with
      | thresholdIgnored threshold =>
          cases hv : evaluatePostfix (e.toPostfix settings) <;> simp [hv] at hmem
      | _ => cases hevent

/-- Of a replaced number nothing is written when the threshold is
ignored. -/
theorem isReplaced_eq_false {settings : Settings} {es : List (Element α)}
    (h : settings.thresholdIgnored α = true) {event : Event α}
    (hmem : event ∈ (evaluateWith settings es).journal) : event.isReplaced = false := by
  cases he : Expression.ofElements settings es with
  | error fault => rw [eq_rejected_of_mem he hmem]; rfl
  | ok e =>
      have hcount := countP_isReplaced he
      rw [replacements_of_thresholdIgnored h] at hcount
      exact Bool.eq_false_iff.mpr (List.countP_eq_zero.mp hcount event hmem)

/-! ## The journal as a whole -/

/-- What can be said of the journal of a calculation. -/
structure Accounted (settings : Settings) (es : List (Element α)) : Prop where
  /-- To ask for the working changes neither the journal nor what comes
  out. -/
  working : (evaluateWithWorking settings es).journal = (evaluateWith settings es).journal
    ∧ (evaluateWithWorking settings es).outcome.map Working.value =
      (evaluateWith settings es).outcome
  /-- Each replaced number could be written of at the moment it is read. -/
  told : ∀ e, Expression.ofElements settings es = .ok e →
    tellingPass settings e = convert settings e
  /-- The records that a working hands out are those of the journal. -/
  records : ∀ w, (evaluateWithWorking settings es).outcome = .ok w →
    ∃ before after, (evaluateWith settings es).journal =
        before ++ w.replacements.map .replaced ++ after
      ∧ ∀ event ∈ before ++ after, event.isReplaced = false
  lines_iff : ∀ lines, Journalled settings es (evaluateWith settings es).outcome lines ↔
    lines = (evaluateWith settings es).lines
  /-- With a limit there is a line for each number beyond it. -/
  replaced : settings.replaceLarge = true → settings.threshold.isFinite = true →
    ∃ limit, NumberDomain.ofDouble? settings.threshold = some limit
      ∧ ∀ e, Expression.ofElements settings es = .ok e →
          (evaluateWith settings es).journal.countP Event.isReplaced =
            e.tokens.countP (Token.exceeds limit)
  /-- A threshold that is ignored replaces nothing. -/
  apart : (∃ event ∈ (evaluateWith settings es).journal, event.isThresholdIgnored = true) →
    ∀ event ∈ (evaluateWith settings es).journal, event.isReplaced = false

theorem accounted (hfinite : ∀ x : Float,
    (NumberDomain.ofDouble? x : Option α) = none ↔ x.isFinite = false) (settings : Settings)
    (es : List (Element α)) : Accounted settings es where
  working := evaluateWithWorking_eq settings es
  told e _ := tellingPass_eq settings e
  records w hw := by
    obtain ⟨e, value, he, -, rfl⟩ := exists_of_outcome_evaluateWithWorking hw
    exact exists_journal_eq he
  lines_iff _ := journalled_iff hfinite
  replaced hon hthreshold := by
    cases hlimit : (NumberDomain.ofDouble? settings.threshold : Option α) with
    | none => cases hthreshold.symm.trans ((hfinite _).mp hlimit)
    | some limit =>
        refine ⟨limit, rfl, fun e he => ?_⟩
        rw [countP_isReplaced he, Expression.replacements, limit?_eq_some_iff.mpr ⟨hon, hlimit⟩,
          length_replacements]
  apart := by
    rintro ⟨event, hmem, hevent⟩ other hother
    exact isReplaced_eq_false (thresholdIgnored_of_mem hmem hevent) hother

/-- In doubles as in rationals and under all settings, the journal of a
calculation is what the rules of the journal make of its outcome: nothing
on a length that is not admitted, the fault that the check has found, or
else everything from the accepted tokens to the value, if there is one. -/
theorem journal_accounts (settings : Settings) :
    (∀ es : List (Element Float), Accounted settings es)
      ∧ ∀ es : List (Element Rat), Accounted settings es :=
  ⟨accounted ofDouble?_float_eq_none_iff settings, accounted ofDouble?_rat_eq_none_iff settings⟩

/-- The dividend is replaced and recorded, and then the division fails. -/
example :
    (evaluateWith {} [.number (3000 : Rat), .symbol "/", .number 0]).lines =
      [(.trace, "validation ok: 3000 / 0"), (.debug, "rpn: normalisation jeton 0: 3000 -> 0"),
        (.trace, "rpn: 0 0 /")] := by
  decide +kernel

end FourFunction
