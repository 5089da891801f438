import FourFunction.Grammar
import FourFunction.LargeNumber

/-!
# The large-number rule, position by position

The rule decides each number from the sequence as it stands, so settling
a sequence is a matter of single positions: `numberGiven` is the number
that the rule puts where `x` stands at position `i`, and `settle` puts
it there at every position (`settle_eq_map_zipIdx`). A derivation is
settled by relabelling its leaves in the same way, and derives just the
settled sequence (`tokens_settled`).

Nor does the rule see far. How a position is settled depends on a few
neighbours only, so a sequence can be settled in pieces, and a
parenthesis cuts it into pieces that do not see each other.
-/

namespace FourFunction

/-! ## Position by position -/

section Positions

namespace Token

variable {α β : Type}

/-- The same token with `f x` for a number `x`. -/
def map (f : α → β) : Token α → Token β
  | number x => number (f x)
  | operator o => operator o
  | openParen => openParen
  | closeParen => closeParen

@[simp] theorem kind_map (f : α → β) (t : Token α) : (t.map f).kind = t.kind := by
  cases t <;> rfl

@[simp] theorem map_id (t : Token α) : t.map (fun x => x) = t := by
  cases t <;> rfl

def number? : Token α → Option α
  | number x => some x
  | _ => none

@[simp] theorem number?_map (f : α → β) (t : Token α) : (t.map f).number? = t.number?.map f := by
  cases t <;> rfl

@[simp] theorem operator?_map (f : α → β) (t : Token α) : (t.map f).operator? = t.operator? := by
  cases t <;> rfl

end Token

variable {α : Type}

/-! ### Relabelled derivations -/

theorem Derivation.tokens_relabel {c : Category} (f : Nat → α → α) (start : Nat)
    (d : Derivation α c) :
    (d.relabel f start).tokens =
      (d.tokens.zipIdx start).map fun (t, i) => t.map (f i) := by
  induction d generalizing start with
  | number x => rfl
  | group inner ih =>
      rw [relabel, tokens, ih, tokens]
      simp [List.zipIdx_append, Token.map]
  | ofFactor d ih => exact ih start
  | multiplied left o ho right ihl ihr =>
      rw [relabel, tokens, ihl, ihr, tokens]
      simp [List.zipIdx_append, Token.map]
  | ofProduct d ih => exact ih start
  | added left o ho right ihl ihr =>
      rw [relabel, tokens, ihl, ihr, tokens]
      simp [List.zipIdx_append, Token.map]

/-! ### The rule -/

variable [NumberDomain α]

/-- What surrounds position `i` of a sequence when `here` stands there. -/
def contextAt (ts : List (Token α)) (i : Nat) (here : Token α) : Context α :=
  ⟨if i = 0 then none else ts[i - 1]?, here, ts[i + 1]?, ts[i + 2]?⟩

/-- The number that is calculated with when `x` stands at position `i`. -/
def numberGiven (limit? : Option α) (ts : List (Token α)) (i : Nat) (x : α) : α :=
  match limit? with
  | none => x
  | some limit =>
      if NumberDomain.exceeds x limit then (contextAt ts i (.number x)).standIn else x

theorem settled_contextAt (limit : α) (ts : List (Token α)) (i : Nat) (t : Token α) :
    (contextAt ts i t).settled limit = t.map (numberGiven (some limit) ts i) := by
  cases t with
  | number x =>
      cases hx : NumberDomain.exceeds x limit <;>
        simp [Context.settled, Context.replaced?, contextAt, Token.map, numberGiven, hx]
  | _ => rfl

theorem getElem?_settle (limit? : Option α) (ts : List (Token α)) (i : Nat) :
    (settle limit? ts)[i]? = ts[i]?.map (Token.map (numberGiven limit? ts i)) := by
  cases limit? with
  | none =>
      have hid : Token.map (numberGiven none ts i) = id := funext Token.map_id
      rw [hid, Option.map_id_fun, id, settle]
  | some limit =>
      rw [settle, List.getElem?_map, Context.getElem?_ofTokens, Option.map_map]
      exact congrArg (fun f => ts[i]?.map f) (funext (settled_contextAt limit ts i))

/-- The rule is a map over the positions of the sequence. -/
theorem settle_eq_map_zipIdx (limit? : Option α) (ts : List (Token α)) :
    settle limit? ts = ts.zipIdx.map fun (t, i) => t.map (numberGiven limit? ts i) := by
  refine List.ext_getElem? fun i => ?_
  rw [getElem?_settle, List.getElem?_map, List.getElem?_zipIdx, Option.map_map, Nat.zero_add]
  rfl

/-- What can be said of tokens without a look at their numbers is said of
the settled sequence as well. -/
theorem map_settle {β : Type} {f : Token α → β} (hf : ∀ (g : α → α) t, f (t.map g) = f t)
    (limit? : Option α) (ts : List (Token α)) : (settle limit? ts).map f = ts.map f := by
  refine List.ext_getElem? fun i => ?_
  rw [List.getElem?_map, getElem?_settle, Option.map_map, List.getElem?_map]
  exact congrArg (Option.map · _) (funext fun t => hf _ t)

/-- The derivation with the numbers that are calculated with at its
leaves. -/
def Derivation.settled (settings : Settings) (d : Derivation α .sum) : Derivation α .sum :=
  d.relabel (numberGiven (settings.limit? α) d.tokens) 0

theorem Derivation.tokens_settled (settings : Settings) (d : Derivation α .sum) :
    (d.settled settings).tokens = settle (settings.limit? α) d.tokens := by
  rw [settled, tokens_relabel, settle_eq_map_zipIdx]

end Positions

/-! ## How far the large-number rule sees

The rule decides a number by one token to its left and two to its right,
and asks of them only where `*` and `/` stand and which number a `/`
divides by. So a sequence can be decided in pieces: `decisions` are those
for a piece that stands between a token before it and tokens after it,
and two such surroundings that the rule cannot tell apart leave the same
decisions (`decisions_congr_before`, `decisions_congr_follow`). Above
all the rule does not see across a parenthesis, on either side:

> What comes before a parenthesis and what comes after it are settled as
> if each stood alone (`settle_append_paren`), and so are the records
> (`replacements_append_paren`). -/

section Neighbours

variable {α : Type}

/-! ### What the rule asks of the neighbours -/

/-- Whether a token is `*` or `/`, which say something about the numbers
beside them. -/
def Token.isMultiplicative : Token α → Bool
  | operator .times | operator .divide => true
  | _ => false

/-- Whether a token is a number beyond the limit. -/
def Token.exceeds [NumberDomain α] (limit : α) : Token α → Bool
  | number x => NumberDomain.exceeds x limit
  | _ => false

theorem Token.exceeds_iff [NumberDomain α] {limit : α} {t : Token α} :
    t.exceeds limit = true ↔ ∃ x, t = .number x ∧ NumberDomain.exceeds x limit = true := by
  cases t <;> simp [exceeds]

theorem bind_operator?_eq_some_iff {t? : Option (Token α)} {o : Operator} :
    t?.bind Token.operator? = some o ↔ t? = some (.operator o) := by
  rcases t? with _ | (x | o' | _ | _) <;> simp [Token.operator?]

theorem operator?_ne_of_not_multiplicative {t? : Option (Token α)}
    (h : t?.any Token.isMultiplicative = false) :
    t?.bind Token.operator? ≠ some .divide ∧ t?.bind Token.operator? ≠ some .times := by
  rcases t? with _ | (x | o | _ | _)
  · simp
  · simp [Token.operator?]
  · cases o <;> simp_all [Token.operator?, Token.isMultiplicative]
  · simp [Token.operator?]
  · simp [Token.operator?]

namespace Context

/-- The number that a dividend would be divided by, if it is no group. -/
def divisor? (c : Context α) : Option α :=
  match c.after, c.afterNext with
  | some (.operator .divide), some (.number b) => some b
  | _, _ => none

theorem divisor?_eq_some_iff {c : Context α} {b : α} :
    c.divisor? = some b ↔
      c.after = some (.operator .divide) ∧ c.afterNext = some (.number b) := by
  obtain ⟨before, here, after, afterNext⟩ := c
  unfold divisor?
  split
  · rename_i b' hafter hnext
    simp only [] at hafter hnext
    simp [hafter, hnext]
  · rename_i hno
    simp only [reduceCtorEq, false_iff, not_and]
    exact fun hafter hnext => hno b hafter hnext

theorem divisor?_eq_none_of_after {c : Context α} (h : c.after ≠ some (.operator .divide)) :
    c.divisor? = none := by
  cases hd : c.divisor? with
  | none => rfl
  | some b => exact absurd (divisor?_eq_some_iff.mp hd).1 h

variable [NumberDomain α]

theorem standIn_eq (c : Context α) :
    c.standIn =
      if c.before.bind Token.operator? = some .divide then NumberDomain.one
      else match c.divisor? with
        | some b => NumberDomain.square b
        | none =>
            if c.before.bind Token.operator? = some .times
                ∨ c.after.bind Token.operator? = some .times then
              NumberDomain.one
            else
              NumberDomain.zero := by
  obtain ⟨before, here, after, afterNext⟩ := c
  unfold standIn
  congr 1
  rcases after with _ | (x | o | _ | _)
  · rfl
  · rfl
  · cases o with
    | divide => rcases afterNext with _ | (b | o' | _ | _) <;> rfl
    | _ => rfl
  · rfl
  · rfl

variable {before before' after after' next next' : Option (Token α)}

/-- Tokens before a number that are not `*` or `/` are all the same to
the rule. -/
theorem standIn_congr_before (h : before.any Token.isMultiplicative = false)
    (h' : before'.any Token.isMultiplicative = false) (here : Token α) :
    standIn ⟨before, here, after, next⟩ = standIn ⟨before', here, after, next⟩ := by
  obtain ⟨hdivide, htimes⟩ := operator?_ne_of_not_multiplicative h
  obtain ⟨hdivide', htimes'⟩ := operator?_ne_of_not_multiplicative h'
  rw [standIn_eq, standIn_eq, if_neg hdivide, if_neg hdivide']
  simp only [divisor?, htimes, htimes', false_or]

/-- So are those behind it, with all that follows them. -/
theorem standIn_congr_after (h : after.any Token.isMultiplicative = false)
    (h' : after'.any Token.isMultiplicative = false) (here : Token α) :
    standIn ⟨before, here, after, next⟩ = standIn ⟨before, here, after', next'⟩ := by
  obtain ⟨hdivide, htimes⟩ := operator?_ne_of_not_multiplicative h
  obtain ⟨hdivide', htimes'⟩ := operator?_ne_of_not_multiplicative h'
  have hnone : ∀ {a n : Option (Token α)}, a.bind Token.operator? ≠ some .divide →
      divisor? ⟨before, here, a, n⟩ = none := by
    intro a n ha
    refine divisor?_eq_none_of_after fun heq => ha ?_
    rw [show a = some (.operator .divide) from heq]
    rfl
  rw [standIn_eq, standIn_eq, hnone hdivide, hnone hdivide']
  simp only [htimes, htimes', or_false]

/-- The token after the next matters only as a divisor. -/
theorem standIn_congr_next (h : after ≠ some (.operator .divide)
      ∨ next.any Token.isNumber = false ∧ next'.any Token.isNumber = false) (here : Token α) :
    standIn ⟨before, here, after, next⟩ = standIn ⟨before, here, after, next'⟩ := by
  have hdivisor : divisor? ⟨before, here, after, next⟩ = divisor? ⟨before, here, after, next'⟩ := by
    rcases h with hafter | ⟨hnext, hnext'⟩
    · rw [divisor?_eq_none_of_after hafter, divisor?_eq_none_of_after hafter]
    · have hnone : ∀ {n : Option (Token α)}, n.any Token.isNumber = false →
          divisor? ⟨before, here, after, n⟩ = none := by
        intro n hn
        cases hd : divisor? ⟨before, here, after, n⟩ with
        | none => rfl
        | some b =>
            have hb : n = some (.number b) := (divisor?_eq_some_iff.mp hd).2
            rw [hb] at hn
            cases hn
      rw [hnone hnext, hnone hnext']
  rw [standIn_eq, standIn_eq, hdivisor]

/-- Away from `*` and `/` a number that is too large counts as nothing. -/
theorem standIn_eq_zero (h : before.any Token.isMultiplicative = false)
    (h' : after.any Token.isMultiplicative = false) (here : Token α) :
    standIn ⟨before, here, after, next⟩ = NumberDomain.zero := by
  obtain ⟨hdivide, htimes⟩ := operator?_ne_of_not_multiplicative h
  obtain ⟨hdivide', htimes'⟩ := operator?_ne_of_not_multiplicative h'
  have hnone : divisor? ⟨before, here, after, next⟩ = none :=
    divisor?_eq_none_of_after (mt bind_operator?_eq_some_iff.mpr hdivide')
  rw [standIn_eq, if_neg hdivide, hnone]
  exact if_neg (not_or.mpr ⟨htimes, htimes'⟩)

/-- Beside `*`, or behind `/`, it counts as one, unless it is divided
itself. -/
theorem standIn_eq_one {c : Context α}
    (h : c.before = some (.operator .divide)
      ∨ (c.before = some (.operator .times) ∨ c.after = some (.operator .times))
        ∧ c.divisor? = none) : c.standIn = NumberDomain.one := by
  rw [standIn_eq]
  by_cases hdivide : c.before.bind Token.operator? = some .divide
  · exact if_pos hdivide
  · rcases h with hbefore | ⟨htimes, hnone⟩
    · exact absurd (bind_operator?_eq_some_iff.mpr hbefore) hdivide
    · rw [if_neg hdivide, hnone]
      exact if_pos (htimes.imp bind_operator?_eq_some_iff.mpr bind_operator?_eq_some_iff.mpr)

/-- What the rule makes of a token: the token as it stands, with the
number before and after if it is replaced. -/
def decision (limit? : Option α) (c : Context α) : Token α × Option (α × α) :=
  (c.here, limit?.bind fun limit => c.replaced? limit)

theorem decision_congr {here : Token α} (limit? : Option α)
    (h : standIn ⟨before, here, after, next⟩ = standIn ⟨before', here, after', next'⟩) :
    decision limit? ⟨before, here, after, next⟩ = decision limit? ⟨before', here, after', next'⟩ := by
  unfold decision replaced?
  rw [h]

/-- A token that is no number beyond the limit stays, whatever its
neighbours are. -/
theorem decision_of_not_exceeds {limit? : Option α} {here : Token α}
    (h : limit?.any here.exceeds = false) :
    decision limit? ⟨before, here, after, next⟩ = (here, none) := by
  cases limit? with
  | none => rfl
  | some limit =>
      cases here with
      | number x =>
          have hx : NumberDomain.exceeds x limit = false := h
          simp [decision, replaced?, hx]
      | _ => rfl

end Context

variable [NumberDomain α]

/-! ### A piece of a sequence -/

/-- The decisions for a piece of a sequence, with the token before it and
the tokens that follow it. -/
def decisions (limit? : Option α) (before : Option (Token α)) (follow : List (Token α)) :
    List (Token α) → List (Token α × Option (α × α))
  | [] => []
  | t :: rest =>
      Context.decision limit? ⟨before, t, (rest ++ follow)[0]?, (rest ++ follow)[1]?⟩
        :: decisions limit? (some t) follow rest

/-- The token that is calculated with. -/
def decided : Token α × Option (α × α) → Token α
  | (_, some (_, after)) => .number after
  | (t, none) => t

theorem decisions_append (limit? : Option α) (before : Option (Token α))
    (follow ts us : List (Token α)) :
    decisions limit? before follow (ts ++ us) =
      decisions limit? before (us ++ follow) ts
        ++ decisions limit? (ts.getLast?.or before) follow us := by
  induction ts generalizing before with
  | nil => rfl
  | cons t rest ih =>
      have hlast : (t :: rest).getLast?.or before = rest.getLast?.or (some t) := by
        rw [List.getLast?_cons]
        cases rest.getLast? <;> rfl
      rw [List.cons_append, decisions, decisions, ih, hlast, List.append_assoc]
      rfl

theorem map_fst_decisions (limit? : Option α) (before : Option (Token α))
    (follow ts : List (Token α)) : (decisions limit? before follow ts).map Prod.fst = ts := by
  induction ts generalizing before with
  | nil => rfl
  | cons t rest ih => rw [decisions, List.map_cons, ih, Context.decision]

@[simp] theorem length_decisions (limit? : Option α) (before : Option (Token α))
    (follow ts : List (Token α)) : (decisions limit? before follow ts).length = ts.length := by
  simpa using congrArg List.length (map_fst_decisions limit? before follow ts)

theorem decided_decision_some (limit : α) (c : Context α) :
    decided (c.decision (some limit)) = c.settled limit := by
  have hdecision : c.decision (some limit) = (c.here, c.replaced? limit) := rfl
  rw [hdecision, Context.settled]
  cases c.replaced? limit <;> rfl

theorem kind_decided_decision (limit? : Option α) (c : Context α) :
    (decided (c.decision limit?)).kind = c.here.kind := by
  cases limit? with
  | none => rfl
  | some limit => rw [decided_decision_some, Context.kind_settled]

theorem map_kind_decided (limit? : Option α) (before : Option (Token α))
    (follow ts : List (Token α)) :
    ((decisions limit? before follow ts).map decided).map Token.kind = ts.map Token.kind := by
  induction ts generalizing before with
  | nil => rfl
  | cons t rest ih =>
      rw [decisions, List.map_cons, List.map_cons, ih, kind_decided_decision, List.map_cons]

/-! #### Surroundings that the rule cannot tell apart -/

/-- Whichever piece these tokens follow, the rule sees the same in both.
Only the last two tokens of the piece look that far. -/
structure SeenAlike (follow follow' : List (Token α)) : Prop where
  last : ∀ before here, Context.standIn ⟨before, here, follow[0]?, follow[1]?⟩ =
    Context.standIn ⟨before, here, follow'[0]?, follow'[1]?⟩
  lastButOne : ∀ before here t, Context.standIn ⟨before, here, some t, follow[0]?⟩ =
    Context.standIn ⟨before, here, some t, follow'[0]?⟩

theorem decisions_congr_follow {follow follow' : List (Token α)} (h : SeenAlike follow follow')
    (limit? : Option α) (before : Option (Token α)) (ts : List (Token α)) :
    decisions limit? before follow ts = decisions limit? before follow' ts := by
  induction ts generalizing before with
  | nil => rfl
  | cons t rest ih =>
      rw [decisions, decisions, ih]
      refine congrArg (· :: _) ?_
      match rest with
      | [] => exact Context.decision_congr limit? (h.last before t)
      | [u] => exact Context.decision_congr limit? (h.lastButOne before t u)
      | _ :: _ :: _ => rfl

/-- Tokens that say nothing to what they follow: they begin with no
number and with no `*` or `/`. -/
def Apart (follow : List (Token α)) : Prop :=
  follow.head?.any Token.isMultiplicative = false ∧ follow.head?.any Token.isNumber = false

theorem seenAlike_of_apart {follow follow' : List (Token α)} (h : Apart follow)
    (h' : Apart follow') : SeenAlike follow follow' := by
  obtain ⟨hsign, hnumber⟩ := h
  obtain ⟨hsign', hnumber'⟩ := h'
  rw [List.head?_eq_getElem?] at hsign hnumber hsign' hnumber'
  exact ⟨fun _ => Context.standIn_congr_after hsign hsign',
    fun _ here _ => Context.standIn_congr_next (Or.inr ⟨hnumber, hnumber'⟩) here⟩

/-- Behind a token other than `/` nothing more is seen. -/
theorem seenAlike_cons {t : Token α} (h : t ≠ .operator .divide) (follow follow' : List (Token α)) :
    SeenAlike (t :: follow) (t :: follow') :=
  ⟨fun _ here => Context.standIn_congr_next (Or.inl fun heq => h (Option.some.inj heq)) here,
    fun _ _ _ => rfl⟩

theorem decisions_congr_before {before before' : Option (Token α)}
    (h : before.any Token.isMultiplicative = false)
    (h' : before'.any Token.isMultiplicative = false) (limit? : Option α)
    (follow ts : List (Token α)) :
    decisions limit? before follow ts = decisions limit? before' follow ts := by
  cases ts with
  | nil => rfl
  | cons t rest =>
      rw [decisions, decisions, Context.decision_congr limit? (Context.standIn_congr_before h h' t)]

theorem decisions_cons_of_not_exceeds {limit? : Option α} {t : Token α}
    (h : limit?.any t.exceeds = false) (before : Option (Token α)) (follow ts : List (Token α)) :
    decisions limit? before follow (t :: ts) = (t, none) :: decisions limit? (some t) follow ts := by
  rw [decisions, Context.decision_of_not_exceeds h]

/-- Only a number that is too large looks at what is before it. -/
theorem decisions_congr_before_of_head {limit? : Option α} {ts : List (Token α)}
    (h : ∀ t, ts.head? = some t → limit?.any t.exceeds = false) (before before' : Option (Token α))
    (follow : List (Token α)) :
    decisions limit? before follow ts = decisions limit? before' follow ts := by
  cases ts with
  | nil => rfl
  | cons t rest =>
      have ht := h t rfl
      rw [decisions_cons_of_not_exceeds ht, decisions_cons_of_not_exceeds ht]

/-- A piece that ends with neither a number beyond the limit nor `/` is
decided without what follows it. -/
theorem decisions_congr_of_last {limit? : Option α} {ts : List (Token α)}
    (h : ∀ t, ts.getLast? = some t → t ≠ .operator .divide ∧ limit?.any t.exceeds = false)
    (before : Option (Token α)) (follow follow' : List (Token α)) :
    decisions limit? before follow ts = decisions limit? before follow' ts := by
  rcases List.eq_nil_or_concat ts with rfl | ⟨front, t, rfl⟩
  · rfl
  · rw [List.concat_eq_append] at h ⊢
    obtain ⟨hdivide, hstays⟩ := h t List.getLast?_concat
    have hfront := decisions_congr_follow (seenAlike_cons hdivide follow follow') limit? before front
    rw [decisions_append, decisions_append, List.singleton_append, List.singleton_append, hfront,
      decisions_cons_of_not_exceeds hstays, decisions_cons_of_not_exceeds hstays]
    rfl

/-! ### Settling a sequence in pieces -/

theorem map_decision_ofTokens (limit? : Option α) (ts : List (Token α)) :
    (Context.ofTokens ts).map (Context.decision limit?) = decisions limit? none [] ts := by
  have hcollect : ∀ before, (Context.collect [] before ts).map (Context.decision limit?) =
      decisions limit? before [] ts := by
    induction ts with
    | nil => exact fun _ => rfl
    | cons t rest ih =>
        intro before
        rw [Context.collect_cons, List.map_cons, ih, decisions, List.append_nil]
  exact hcollect none

theorem settle_eq_map_decided (limit? : Option α) (ts : List (Token α)) :
    settle limit? ts = (decisions limit? none [] ts).map decided := by
  rw [← map_decision_ofTokens, List.map_map]
  cases limit? with
  | none => exact (Context.map_here_ofTokens ts).symm
  | some limit => exact List.map_congr_left fun c _ => (decided_decision_some limit c).symm

theorem replacements_eq_filterMap (limit? : Option α) (ts : List (Token α)) :
    replacements limit? ts = (decisions limit? none [] ts).zipIdx.filterMap fun (d, i) =>
      d.2.map fun (before, after) => ⟨i, before, after⟩ := by
  rw [← map_decision_ofTokens, List.zipIdx_map, List.filterMap_map]
  cases limit? with
  | none => simp [replacements, Context.decision]
  | some limit => rfl

/-- A piece as it is calculated with, given what stands around it. -/
def settleBetween (limit? : Option α) (before : Option (Token α)) (follow ts : List (Token α)) :
    List (Token α) :=
  (decisions limit? before follow ts).map decided

theorem settle_eq_settleBetween (limit? : Option α) (ts : List (Token α)) :
    settle limit? ts = settleBetween limit? none [] ts :=
  settle_eq_map_decided limit? ts

theorem settleBetween_append (limit? : Option α) (before : Option (Token α))
    (follow ts us : List (Token α)) :
    settleBetween limit? before follow (ts ++ us) =
      settleBetween limit? before (us ++ follow) ts
        ++ settleBetween limit? (ts.getLast?.or before) follow us := by
  simp only [settleBetween, decisions_append, List.map_append]

/-- A token that is no number beyond the limit is still there. -/
theorem head?_settleBetween {limit? : Option α} {t : Token α} {ts : List (Token α)}
    (h : ts.head? = some t) (ht : limit?.any t.exceeds = false) (before : Option (Token α))
    (follow : List (Token α)) : (settleBetween limit? before follow ts).head? = some t := by
  cases ts with
  | nil => cases h
  | cons u rest =>
      cases h
      rw [settleBetween, decisions_cons_of_not_exceeds ht]
      rfl

theorem getLast?_settleBetween {limit? : Option α} {t : Token α} {ts : List (Token α)}
    (h : ts.getLast? = some t) (ht : limit?.any t.exceeds = false) (before : Option (Token α))
    (follow : List (Token α)) : (settleBetween limit? before follow ts).getLast? = some t := by
  obtain ⟨front, rfl⟩ := List.getLast?_eq_some_iff.mp h
  rw [settleBetween_append, settleBetween, settleBetween, decisions_cons_of_not_exceeds ht]
  exact List.getLast?_concat

/-! #### Parentheses -/

/-- Whether a token is a parenthesis. -/
def Token.isParen : Token α → Bool
  | openParen | closeParen => true
  | _ => false

/-- To the rule, a parenthesis is as good as an end of the sequence. -/
theorem decisions_append_paren {t : Token α} (h : t.isParen = true) (limit? : Option α)
    (ts us : List (Token α)) :
    decisions limit? none [] (ts ++ t :: us) =
      decisions limit? none [] ts ++ (t, none) :: decisions limit? none [] us := by
  have hsign : t.isMultiplicative = false := by cases t <;> first | rfl | cases h
  have hnumber : t.isNumber = false := by cases t <;> first | rfl | cases h
  have hstays : limit?.any t.exceeds = false := by
    cases limit? <;> cases t <;> first | rfl | cases h
  have hbefore : (some t).any Token.isMultiplicative = false := hsign
  have hnone : (none : Option (Token α)).any Token.isMultiplicative = false := rfl
  have hfollow : SeenAlike (t :: us) [] := seenAlike_of_apart ⟨hsign, hnumber⟩ ⟨rfl, rfl⟩
  rw [decisions_append, List.append_nil, decisions_congr_follow hfollow,
    decisions_cons_of_not_exceeds hstays, decisions_congr_before hbefore hnone]

theorem settle_append_paren {t : Token α} (h : t.isParen = true) (limit? : Option α)
    (ts us : List (Token α)) :
    settle limit? (ts ++ t :: us) = settle limit? ts ++ t :: settle limit? us := by
  simp only [settle_eq_map_decided, decisions_append_paren h, List.map_append, List.map_cons,
    decided]

/-- The same record `n` positions further on. -/
def Replacement.shift (n : Nat) (r : Replacement α) : Replacement α :=
  { r with index := r.index + n }

theorem replacements_append_paren {t : Token α} (h : t.isParen = true) (limit? : Option α)
    (ts us : List (Token α)) :
    replacements limit? (ts ++ t :: us) =
      replacements limit? ts
        ++ (replacements limit? us).map (Replacement.shift (ts.length + 1)) := by
  simp only [replacements_eq_filterMap, decisions_append_paren h, List.zipIdx_append,
    List.filterMap_append, List.zipIdx_cons, length_decisions, List.map_filterMap]
  have hlater : (decisions limit? none [] us).zipIdx (0 + ts.length + 1) =
      (decisions limit? none [] us).zipIdx.map fun (d, i) => (d, ts.length + 1 + i) := by
    rw [List.zipIdx_eq_map_add, Nat.zero_add]
  rw [List.filterMap_cons_none rfl, hlater, List.filterMap_map]
  refine congrArg (_ ++ ·) (congrArg (List.filterMap · _) (funext fun (d, i) => ?_))
  simp [Function.comp_def, Replacement.shift, Nat.add_comm]

end Neighbours

end FourFunction
