import FourFunction.Proofs.Conservation
import FourFunction.Proofs.Settling

/-!
# What the large-number rule leaves behind

The rule keeps a record of each number that it replaces. The records of a
sequence can be read off it position by position: `StandsIn ts i y` says,
from the neighbours of position `i` alone, which number takes its place.
To write the records into the sequence is to settle it
(`writeAll_replacements`), and nothing else passes from the rule to the
conversion. So it makes no difference whether the numbers are replaced
beforehand or each at the moment it is read: `onePass` goes through the
sequence once, replacing, recording and converting as it goes, and comes
to the same postfix order with the same records (`onePass_eq`).
-/

namespace FourFunction

variable {α : Type}

/-! ## What stands in for a number -/

/-- The token just before position `i`. -/
def tokenBefore (ts : List (Token α)) (i : Nat) : Option (Token α) :=
  if i = 0 then none else ts[i - 1]?

/-- What position `i` would be divided by is the number `b`. -/
def DividedBy (ts : List (Token α)) (i : Nat) (b : α) : Prop :=
  ts[i + 1]? = some (.operator .divide) ∧ ts[i + 2]? = some (.number b)

variable [NumberDomain α]

/-- Which number takes the place of one at position `i` that is too
large. All neighbours are those of the sequence as it stands, and the
first case that applies counts. -/
inductive StandsIn (ts : List (Token α)) (i : Nat) : α → Prop where
  | divisor : tokenBefore ts i = some (.operator .divide) → StandsIn ts i NumberDomain.one
  | dividend {b : α} : tokenBefore ts i ≠ some (.operator .divide) → DividedBy ts i b →
      StandsIn ts i (NumberDomain.mul b b)
  | factor : tokenBefore ts i ≠ some (.operator .divide) → (∀ b, ¬ DividedBy ts i b) →
      tokenBefore ts i = some (.operator .times) ∨ ts[i + 1]? = some (.operator .times) →
      StandsIn ts i NumberDomain.one
  | summand : tokenBefore ts i ≠ some (.operator .divide) → (∀ b, ¬ DividedBy ts i b) →
      ¬ (tokenBefore ts i = some (.operator .times) ∨ ts[i + 1]? = some (.operator .times)) →
      StandsIn ts i NumberDomain.zero

theorem exists_standsIn (ts : List (Token α)) (i : Nat) : ∃ y, StandsIn ts i y := by
  by_cases hdivisor : tokenBefore ts i = some (.operator .divide)
  · exact ⟨_, .divisor hdivisor⟩
  · by_cases hdividend : ∃ b, DividedBy ts i b
    · obtain ⟨b, hb⟩ := hdividend
      exact ⟨_, .dividend hdivisor hb⟩
    · have hnone := not_exists.mp hdividend
      by_cases hfactor :
          tokenBefore ts i = some (.operator .times) ∨ ts[i + 1]? = some (.operator .times)
      · exact ⟨_, .factor hdivisor hnone hfactor⟩
      · exact ⟨_, .summand hdivisor hnone hfactor⟩

theorem StandsIn.eq_standIn {ts : List (Token α)} {i : Nat} {y : α} (h : StandsIn ts i y)
    (here : Token α) : y = (contextAt ts i here).standIn := by
  have hbefore : ∀ o, (contextAt ts i here).before.bind Token.operator? = some o ↔
      tokenBefore ts i = some (.operator o) := fun _ => bind_operator?_eq_some_iff
  have hafter : ∀ o, (contextAt ts i here).after.bind Token.operator? = some o ↔
      ts[i + 1]? = some (.operator o) := fun _ => bind_operator?_eq_some_iff
  have hdivided : ∀ b, (contextAt ts i here).divisor? = some b ↔ DividedBy ts i b :=
    fun _ => Context.divisor?_eq_some_iff
  have hundivided : (∀ b, ¬ DividedBy ts i b) → (contextAt ts i here).divisor? = none :=
    fun hnone => Option.eq_none_iff_forall_ne_some.mpr fun b hb => hnone b ((hdivided b).mp hb)
  rw [Context.standIn_eq]
  cases h with
  | divisor hdivide => rw [if_pos ((hbefore _).mpr hdivide)]
  | dividend hdivide hb =>
      rw [if_neg (mt (hbefore _).mp hdivide), (hdivided _).mpr hb]
      rfl
  | factor hdivide hnone htimes =>
      rw [if_neg (mt (hbefore _).mp hdivide), hundivided hnone]
      exact (if_pos (htimes.imp (hbefore _).mpr (hafter _).mpr)).symm
  | summand hdivide hnone htimes =>
      rw [if_neg (mt (hbefore _).mp hdivide), hundivided hnone]
      exact (if_neg (mt (Or.imp (hbefore _).mp (hafter _).mp) htimes)).symm

/-- The rule puts in the place of a number what stands in for it. -/
theorem standsIn_iff {ts : List (Token α)} {i : Nat} {y : α} (here : Token α) :
    StandsIn ts i y ↔ y = (contextAt ts i here).standIn := by
  refine ⟨fun h => h.eq_standIn here, fun h => ?_⟩
  obtain ⟨z, hz⟩ := exists_standsIn ts i
  rwa [h, ← hz.eq_standIn here]

/-! ## The records -/

/-- The record of the token `t` at position `i`, if it is replaced. -/
def replacementAt (limit? : Option α) (ts : List (Token α)) (i : Nat) (t : Token α) :
    Option (Replacement α) :=
  (limit?.bind fun limit => (contextAt ts i t).replaced? limit).map fun (before, after) =>
    ⟨i, before, after⟩

theorem replacementAt_number (limit : α) (ts : List (Token α)) (i : Nat) (x : α) :
    replacementAt (some limit) ts i (.number x) =
      if NumberDomain.exceeds x limit then some ⟨i, x, (contextAt ts i (.number x)).standIn⟩
      else none := by
  show Option.map _ (if NumberDomain.exceeds x limit then some (x, _) else none) = _
  split <;> rfl

theorem replacementAt_of_not_exceeds {limit : α} {t : Token α} (h : t.exceeds limit = false)
    (ts : List (Token α)) (i : Nat) : replacementAt (some limit) ts i t = none := by
  cases t with
  | number x =>
      have hx : NumberDomain.exceeds x limit = false := h
      rw [replacementAt_number, hx]
      rfl
  | _ => rfl

theorem replacementAt_eq_some_iff {limit? : Option α} {ts : List (Token α)} {i : Nat}
    {t : Token α} {r : Replacement α} :
    replacementAt limit? ts i t = some r ↔
      ∃ limit, limit? = some limit ∧ NumberDomain.exceeds r.before limit = true
        ∧ t = .number r.before ∧ r.index = i ∧ StandsIn ts i r.after := by
  obtain ⟨index, before, after⟩ := r
  rw [standsIn_iff t]
  cases limit? with
  | none => simp [replacementAt]
  | some limit =>
      cases t with
      | number x =>
          rw [replacementAt_number]
          constructor
          · intro h
            split at h
            · cases h
              exact ⟨limit, rfl, ‹_›, rfl, rfl, rfl⟩
            · cases h
          · rintro ⟨_, hlimit, hexceeds, hx, hindex, hafter⟩
            obtain rfl := Option.some.inj hlimit
            obtain rfl : x = before := Token.number.inj hx
            obtain rfl : index = i := hindex
            obtain rfl : after = (contextAt ts index (.number x)).standIn := hafter
            rw [if_pos hexceeds]
      | _ => simp [replacementAt, Context.replaced?, contextAt]

/-- What is calculated with is what has been recorded, or else what stands
there. -/
theorem map_numberGiven_eq (limit? : Option α) (ts : List (Token α)) (i : Nat) (t : Token α) :
    t.map (numberGiven limit? ts i) =
      match replacementAt limit? ts i t with
      | some r => .number r.after
      | none => t := by
  cases limit? with
  | none => exact t.map_id
  | some limit =>
      cases t with
      | number x =>
          rw [replacementAt_number]
          show Token.number (if NumberDomain.exceeds x limit then _ else x) = _
          split <;> rfl
      | _ => rfl

/-- The records of a sequence are those of its positions. -/
theorem replacements_eq (limit? : Option α) (ts : List (Token α)) :
    replacements limit? ts = ts.zipIdx.filterMap fun (t, i) => replacementAt limit? ts i t := by
  cases limit? with
  | none => simp [replacements, replacementAt]
  | some limit =>
      have hcontexts : (Context.ofTokens ts).zipIdx =
          ts.zipIdx.map fun (t, i) => (contextAt ts i t, i) := by
        refine List.ext_getElem? fun i => ?_
        rw [List.getElem?_zipIdx, Context.getElem?_ofTokens, List.getElem?_map,
          List.getElem?_zipIdx, Option.map_map, Option.map_map, Nat.zero_add]
        rfl
      rw [replacements, hcontexts, List.filterMap_map]
      rfl

theorem mem_replacements_iff {limit? : Option α} {ts : List (Token α)} {r : Replacement α} :
    r ∈ replacements limit? ts ↔
      ∃ limit, limit? = some limit ∧ NumberDomain.exceeds r.before limit = true
        ∧ ts[r.index]? = some (.number r.before) ∧ StandsIn ts r.index r.after := by
  simp only [replacements_eq, List.mem_filterMap, List.mem_zipIdx_iff_getElem?, Prod.exists,
    replacementAt_eq_some_iff]
  constructor
  · rintro ⟨t, i, ht, limit, hlimit, hexceeds, rfl, rfl, hafter⟩
    exact ⟨limit, hlimit, hexceeds, ht, hafter⟩
  · rintro ⟨limit, hlimit, hexceeds, ht, hafter⟩
    exact ⟨_, _, ht, limit, hlimit, hexceeds, rfl, rfl, hafter⟩

/-- The records stand in the order of their positions, one for each. -/
theorem pairwise_replacements (limit? : Option α) (ts : List (Token α)) :
    (replacements limit? ts).Pairwise fun r r' => r.index < r'.index := by
  have hpositions : ts.zipIdx.Pairwise fun p p' => p.2 < p'.2 := by
    rw [← List.pairwise_map, List.zipIdx_map_snd]
    exact List.pairwise_lt_range' 1
  rw [replacements_eq]
  refine hpositions.filterMap _ fun p p' hlt r hr r' hr' => ?_
  obtain ⟨_, _, _, _, hindex, _⟩ := replacementAt_eq_some_iff.mp hr
  obtain ⟨_, _, _, _, hindex', _⟩ := replacementAt_eq_some_iff.mp hr'
  rwa [hindex, hindex']

/-! ### Writing the records into the sequence -/

/-- The sequence with each recorded number in its place. -/
def writeAll (rs : List (Replacement α)) (ts : List (Token α)) : List (Token α) :=
  rs.foldl (fun ts r => ts.set r.index (.number r.after)) ts

omit [NumberDomain α] in
theorem getElem?_writeAll_of_untouched {rs : List (Replacement α)} {i : Nat}
    (h : ∀ r ∈ rs, r.index ≠ i) (ts : List (Token α)) : (writeAll rs ts)[i]? = ts[i]? := by
  induction rs generalizing ts with
  | nil => rfl
  | cons r rest ih =>
      have hne := h r (List.mem_cons_self ..)
      show (writeAll rest (ts.set r.index (.number r.after)))[i]? = _
      rw [ih (fun r' hr' => h r' (List.mem_cons_of_mem _ hr')), List.getElem?_set_ne hne]

omit [NumberDomain α] in
theorem getElem?_writeAll_of_mem {rs : List (Replacement α)}
    (hdistinct : rs.Pairwise fun r r' => r.index < r'.index) {r : Replacement α} (hr : r ∈ rs)
    {ts : List (Token α)} (hlt : r.index < ts.length) :
    (writeAll rs ts)[r.index]? = some (.number r.after) := by
  induction rs generalizing ts with
  | nil => cases hr
  | cons first rest ih =>
      obtain ⟨hfirst, hrest⟩ := List.pairwise_cons.mp hdistinct
      show (writeAll rest (ts.set first.index (.number first.after)))[r.index]? = _
      rcases List.mem_cons.mp hr with rfl | hr
      · rw [getElem?_writeAll_of_untouched fun r' hr' => Nat.ne_of_gt (hfirst r' hr'),
          List.getElem?_set_self hlt]
      · exact ih hrest hr (by rwa [List.length_set])

/-- Writing the records of a sequence into it settles it. -/
theorem writeAll_replacements (limit? : Option α) (ts : List (Token α)) :
    writeAll (replacements limit? ts) ts = settle limit? ts := by
  have hrecord : ∀ {t : Token α} {i : Nat} {r : Replacement α}, ts[i]? = some t →
      (replacementAt limit? ts i t = some r ↔ r ∈ replacements limit? ts ∧ r.index = i) := by
    intro t i r ht
    rw [replacementAt_eq_some_iff, mem_replacements_iff]
    constructor
    · rintro ⟨limit, hlimit, hexceeds, rfl, rfl, hafter⟩
      exact ⟨⟨limit, hlimit, hexceeds, ht, hafter⟩, rfl⟩
    · rintro ⟨⟨limit, hlimit, hexceeds, hbefore, hafter⟩, rfl⟩
      exact ⟨limit, hlimit, hexceeds, Option.some.inj (ht.symm.trans hbefore), rfl, hafter⟩
  refine List.ext_getElem? fun i => ?_
  rw [getElem?_settle]
  cases ht : ts[i]? with
  | none =>
      rw [getElem?_writeAll_of_untouched (fun r hr hindex => ?_), ht]
      · rfl
      · obtain ⟨_, _, _, hbefore, _⟩ := mem_replacements_iff.mp hr
        rw [hindex, ht] at hbefore
        cases hbefore
  | some t =>
      rw [Option.map_some, map_numberGiven_eq]
      cases hr : replacementAt limit? ts i t with
      | some r =>
          obtain ⟨hmem, rfl⟩ := (hrecord ht).mp hr
          exact getElem?_writeAll_of_mem (pairwise_replacements limit? ts) hmem
            (List.getElem?_eq_some_iff.mp ht).1
      | none =>
          rw [getElem?_writeAll_of_untouched (fun r hmem hindex => ?_), ht]
          cases hr.symm.trans ((hrecord ht).mpr ⟨hmem, hindex⟩)

/-! ## One pass -/

/-- Reads the token `t` at position `i` of the sequence `ts`: replaces and
records it, if it is to be replaced, and then converts it. -/
def passToken (limit? : Option α) (ts : List (Token α))
    (state : Conversion α × List (Replacement α)) : Token α × Nat → Conversion α × List (Replacement α)
  | (t, i) =>
      match replacementAt limit? ts i t with
      | some r => (state.1.read (.number r.after), state.2 ++ [r])
      | none => (state.1.read t, state.2)

/-- Replaces and converts in one pass: the postfix order, and the records. -/
def onePass (limit? : Option α) (ts : List (Token α)) : List (Token α) × List (Replacement α) :=
  let final := ts.zipIdx.foldl (passToken limit? ts) (.start, [])
  (final.1.finish, final.2)

/-- A pass over some positions does to the conversion what reading the
settled tokens does, whatever has been passed before. -/
theorem foldl_passToken (limit? : Option α) (ts : List (Token α)) (c : Conversion α)
    (rs : List (Replacement α)) (ps : List (Token α × Nat)) :
    ps.foldl (passToken limit? ts) (c, rs) =
      (c.readAll (ps.map fun (t, i) => t.map (numberGiven limit? ts i)),
        rs ++ ps.filterMap fun (t, i) => replacementAt limit? ts i t) := by
  induction ps generalizing c rs with
  | nil => rw [List.filterMap_nil, List.append_nil]; rfl
  | cons p rest ih =>
      obtain ⟨t, i⟩ := p
      rw [List.foldl_cons, passToken]
      cases hr : replacementAt limit? ts i t with
      | some r =>
          simp only [ih, List.filterMap_cons, hr, List.map_cons, map_numberGiven_eq,
            List.append_assoc, List.singleton_append]
          rfl
      | none =>
          simp only [ih, List.filterMap_cons, hr, List.map_cons, map_numberGiven_eq]
          rfl

/-- One pass comes to the same as settling first and then converting. -/
theorem onePass_eq (limit? : Option α) (ts : List (Token α)) :
    onePass limit? ts = (toPostfix (settle limit? ts), replacements limit? ts) := by
  rw [onePass, foldl_passToken, settle_eq_map_zipIdx, replacements_eq]
  rfl

/-! ## The operators -/

/-- Numbers aside, settling changes nothing. -/
theorem map_const_settle (limit? : Option α) (ts : List (Token α)) :
    (settle limit? ts).map (Token.map fun _ => ()) = ts.map (Token.map fun _ => ()) :=
  map_settle (fun _ t => by cases t <;> rfl) limit? ts

omit [NumberDomain α] in
theorem map_const_eq_operator_iff {t : Token α} {o : Operator} :
    t.map (fun _ => ()) = .operator o ↔ t = .operator o := by
  cases t <;> simp [Token.map]

/-- The operators stand at the same places of the postfix order under all
settings. -/
theorem getElem?_toPostfix_operator (settings other : Settings) (e : Expression α) (j : Nat)
    (o : Operator) :
    (e.toPostfix settings)[j]? = some (.operator o) ↔
      (e.toPostfix other)[j]? = some (.operator o) := by
  have hblank : (e.toPostfix settings).map (Token.map fun _ => ()) =
      (e.toPostfix other).map (Token.map fun _ => ()) := by
    simp only [Expression.toPostfix, toPostfix_map, Expression.settledTokens, map_const_settle]
  have hoperator : ∀ ts : List (Token α), ts[j]? = some (.operator o) ↔
      (ts.map (Token.map fun _ => ()))[j]? = some (.operator o) := by
    intro ts
    rw [List.getElem?_map, Option.map_eq_some_iff]
    simp [map_const_eq_operator_iff]
  rw [hoperator, hoperator, hblank]

/-! ## The rule on an expression -/

/-- What the large-number rule does to an expression: it acts position by
position on the tokens as they stand, and the conversion goes on as if the
numbers had been others from the start. -/
structure RuledInPlace (settings : Settings) (e : Expression α) : Prop where
  ordered : (e.replacements settings).Pairwise fun r r' => r.index < r'.index
  /-- The rule has to be on, and its threshold a number of the domain. -/
  recorded_iff : ∀ i, (∃ r ∈ e.replacements settings, r.index = i) ↔
    settings.replaceLarge = true ∧ ∃ limit x,
      NumberDomain.ofDouble? settings.threshold = some limit
        ∧ e.tokens[i]? = some (.number x) ∧ NumberDomain.le (NumberDomain.abs x) limit = false
  /-- Records hold the number as it stands and the one that its neighbours
  determine, and no other. -/
  record : ∀ r ∈ e.replacements settings, e.tokens[r.index]? = some (.number r.before)
    ∧ ∀ y, StandsIn e.tokens r.index y ↔ y = r.after
  /-- Replacing each number when it is read makes no difference. -/
  onePass_eq : onePass (settings.limit? α) e.tokens =
    (e.toPostfix settings, e.replacements settings)
  /-- Nor does replacing the numbers beforehand, with the rule off. -/
  beforehand : ∀ off : Settings, off.replaceLarge = false →
    onePass (off.limit? α) (writeAll (e.replacements settings) e.tokens) =
        (e.toPostfix settings, [])
      ∧ ∀ e' : Expression α, e'.tokens = writeAll (e.replacements settings) e.tokens →
          e'.toPostfix off = e.toPostfix settings
  operators : ∀ (other : Settings) (j : Nat) (o : Operator),
    (e.toPostfix settings)[j]? = some (.operator o) ↔
      (e.toPostfix other)[j]? = some (.operator o)

theorem limit?_eq_some_iff {settings : Settings} {limit : α} :
    settings.limit? α = some limit ↔
      settings.replaceLarge = true ∧ NumberDomain.ofDouble? settings.threshold = some limit := by
  unfold Settings.limit?
  cases settings.replaceLarge <;> simp

/-- An expression whose numbers have been replaced beforehand has the
postfix order of the expression that the rule is left to. -/
theorem toPostfix_writeAll (settings : Settings) (e : Expression α) :
    toPostfix (writeAll (e.replacements settings) e.tokens) = e.toPostfix settings :=
  congrArg toPostfix (writeAll_replacements (settings.limit? α) e.tokens)

/-- Under any settings the large-number rule acts on an expression in
place, juxtaposed groups or not. -/
theorem ruledInPlace (settings : Settings) (e : Expression α) : RuledInPlace settings e where
  ordered := pairwise_replacements _ _
  recorded_iff i := by
    have hexceeds : ∀ x limit : α, NumberDomain.exceeds x limit = true ↔
        NumberDomain.le (NumberDomain.abs x) limit = false := fun _ _ =>
      iff_of_eq (Bool.not_eq_true' _)
    constructor
    · rintro ⟨r, hr, rfl⟩
      obtain ⟨limit, hlimit, hx, hbefore, -⟩ := mem_replacements_iff.mp hr
      obtain ⟨hon, hthreshold⟩ := limit?_eq_some_iff.mp hlimit
      exact ⟨hon, limit, r.before, hthreshold, hbefore, (hexceeds _ _).mp hx⟩
    · rintro ⟨hon, limit, x, hthreshold, hbefore, hx⟩
      obtain ⟨y, hy⟩ := exists_standsIn e.tokens i
      exact ⟨⟨i, x, y⟩, mem_replacements_iff.mpr ⟨limit, limit?_eq_some_iff.mpr ⟨hon, hthreshold⟩,
        (hexceeds _ _).mpr hx, hbefore, hy⟩, rfl⟩
  record r hr := by
    obtain ⟨limit, hlimit, hx, hbefore, hafter⟩ := mem_replacements_iff.mp hr
    refine ⟨hbefore, fun y => ?_⟩
    rw [standsIn_iff (.number r.before)] at hafter ⊢
    rw [hafter]
  onePass_eq := FourFunction.onePass_eq _ _
  beforehand off hoff := by
    have hnone : off.limit? α = none := by rw [Settings.limit?, hoff]; rfl
    refine ⟨?_, fun e' he' => ?_⟩
    · rw [FourFunction.onePass_eq, hnone]
      exact congrArg (·, []) (toPostfix_writeAll settings e)
    · rw [← toPostfix_writeAll settings e, ← he', Expression.toPostfix, Expression.settledTokens,
        hnone]
      rfl
  operators other j o := getElem?_toPostfix_operator settings other e j o

/-- In `3000 / 2000 / 5000 ( 4000 )` the first number becomes the square of
the second as it stands, though that is replaced itself. -/
example :
    let ts : List (Token Rat) := [.number 3000, .operator .divide, .number 2000,
      .operator .divide, .number 5000, .openParen, .number 4000, .closeParen]
    (replacements (some 1000) ts).map Replacement.after = [4000000, 1, 1, 0]
      ∧ (onePass (some 1000) ts).1 = [.number 4000000, .number 1, .operator .divide, .number 1,
          .number 0, .operator .divide] := by
  decide +kernel

end FourFunction
