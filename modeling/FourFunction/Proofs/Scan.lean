import FourFunction.Expression

/-!
# The check as a machine with a counter

The check of `firstFault` looks one element to either side. When only
its verdict matters, not the position it reports, none of that looking
is needed: all that has to be remembered of what has been read is
whether an operand has just ended, and how many parentheses are open.
That is a `Stand`, and `Stand.step` says which kinds may come next:

- a number only where no operand has just ended;
- an operator only where one has;
- an opening parenthesis anywhere;
- a closing parenthesis where an operand has just ended and a
  parenthesis is open.

`firstFault_eq_none_iff` is the bridge: a sequence is without fault just
when it consists of finite numbers and symbols and takes the machine
from the start to the end of an operand with nothing open. The
look-ahead of the check only moves a fault one position to the left; it
rejects nothing that the machine would not reject itself one step later,
save for a sequence that breaks off after an operator or an opening
parenthesis, where there is no later step.
-/

namespace FourFunction

/-! ## The machine -/

/-- What has to be remembered of the kinds read so far. -/
structure Stand where
  /-- Whether the last of them ended an operand. -/
  ended : Bool
  /-- How many parentheses are open. -/
  depth : Nat
deriving DecidableEq

namespace Stand

/-- Before anything has been read. -/
def start : Stand := ⟨false, 0⟩

/-- Where a sequence may stop. -/
def finish : Stand := ⟨true, 0⟩

/-- Reads one kind, if it may come next. -/
def step : Stand → Kind → Option Stand
  | ⟨false, depth⟩, .number => some ⟨true, depth⟩
  | ⟨true, depth⟩, .operator => some ⟨false, depth⟩
  | ⟨_, depth⟩, .opening => some ⟨false, depth + 1⟩
  | ⟨true, depth + 1⟩, .closing => some ⟨true, depth⟩
  | _, _ => none

/-- Reads kinds from left to right, as far as each may come next. -/
def run (s : Stand) : List Kind → Option Stand
  | [] => some s
  | k :: rest => (s.step k).bind fun next => next.run rest

@[simp] theorem run_nil (s : Stand) : s.run [] = some s := rfl

theorem run_cons (s : Stand) (k : Kind) (rest : List Kind) :
    s.run (k :: rest) = (s.step k).bind fun next => next.run rest := rfl

theorem run_append (s : Stand) (ks ls : List Kind) :
    s.run (ks ++ ls) = (s.run ks).bind fun next => next.run ls := by
  induction ks generalizing s with
  | nil => rfl
  | cons k rest ih =>
      rw [List.cons_append, run_cons, run_cons]
      cases s.step k with
      | none => rfl
      | some next => exact ih next

theorem eq_of_step {s next : Stand} {k : Kind} (h : s.step k = some next) :
    next = ⟨k.endsOperand, depthAfter s.depth k⟩ := by
  unfold step at h
  split at h <;> cases h <;> rfl

/-- Whatever comes next, the stand after it remembers whether it ended an
operand. -/
theorem ended_of_step {s next : Stand} {k : Kind} (h : s.step k = some next) :
    next.ended = k.endsOperand := by
  rw [eq_of_step h]

/-- Where no operand has ended, one has to start before one can end. -/
theorem startsOperand_of_run {depth opened : Nat} {kinds : List Kind}
    (h : run ⟨false, depth⟩ kinds = some ⟨true, opened⟩) :
    kinds.head?.any Kind.startsOperand = true := by
  cases kinds with
  | nil => cases h
  | cons k rest => cases k <;> first | rfl | cases h

end Stand

/-! ## The check and the machine -/

/-- A token breaks no rule just when the machine can read it and, unless
it ends an operand itself, an operand starts behind it. -/
theorem ruleBroken_eq_none_iff {i depth : Nat} {before : Option Kind} {here : Kind}
    {after : Option Kind} :
    ruleBroken i depth before here (after.map some) = none ↔
      (Stand.step ⟨before.any Kind.endsOperand, depth⟩ here).isSome = true
        ∧ (here.endsOperand = true ∨ after.any Kind.startsOperand = true) := by
  cases here with
  | number => cases hended : before.any Kind.endsOperand <;> simp [ruleBroken, hended, Stand.step,
      Kind.endsOperand]
  | operator =>
      cases hended : before.any Kind.endsOperand <;> cases after <;>
        simp [ruleBroken, hended, Stand.step, Kind.endsOperand]
  | opening => cases after <;> simp [ruleBroken, Stand.step, Kind.endsOperand]
  | closing =>
      cases depth <;> cases hended : before.any Kind.endsOperand <;>
        simp [ruleBroken, hended, Stand.step, Kind.endsOperand]

/-- The fault of a rule points at the token that breaks it. -/
theorem index?_of_ruleBroken {i depth : Nat} {before : Option Kind} {here : Kind}
    {after : Option (Option Kind)} {fault : Fault}
    (h : ruleBroken i depth before here after = some fault) : fault.index? = some i := by
  unfold ruleBroken at h
  repeat' split at h
  all_goals cases h <;> rfl

/-- What the check says at the end of a sequence of the parentheses that
are open there. -/
def verdictAtEnd (opened : Nat) : Option Fault :=
  if opened = 0 then none else some (.unmatchedParenthesis none)

/-- The check from inside a sequence. It comes to the end, and has no
position to report, just when the machine comes to the end of an operand.
What has been read before must have ended an operand or have something
behind it: the look-ahead of the check has made sure of that. -/
theorem firstFaultFrom_eq_iff {verdict : Option Fault}
    (hverdict : ∀ fault, verdict = some fault → fault.index? = none) {kinds : List Kind}
    {i depth : Nat} {before : Option Kind}
    (h : before.any Kind.endsOperand = true ∨ kinds ≠ []) :
    firstFaultFrom i depth before (kinds.map some) = verdict ↔
      ∃ opened, Stand.run ⟨before.any Kind.endsOperand, depth⟩ kinds = some ⟨true, opened⟩
        ∧ verdictAtEnd opened = verdict := by
  induction kinds generalizing i depth before with
  | nil =>
      have hended : before.any Kind.endsOperand = true := h.resolve_right fun hne => hne rfl
      rw [hended, Stand.run_nil]
      constructor
      · intro hfault
        exact ⟨depth, rfl, hfault⟩
      · rintro ⟨opened, hrun, hend⟩
        cases hrun
        exact hend
  | cons here rest ih =>
      rw [List.map_cons, firstFaultFrom, List.head?_map, Stand.run_cons]
      have hrule := @ruleBroken_eq_none_iff i depth before here rest.head?
      cases hbroken : ruleBroken i depth before here (rest.head?.map some) with
      | none =>
          obtain ⟨hstep, hnext⟩ := hrule.mp hbroken
          obtain ⟨next, hnextStand⟩ := Option.isSome_iff_exists.mp hstep
          rw [hnextStand, Stand.eq_of_step hnextStand]
          refine ih (hnext.imp_right fun hany hnil => ?_)
          rw [hnil] at hany
          cases hany
      | some fault =>
          constructor
          · intro hfault
            cases (index?_of_ruleBroken hbroken).symm.trans (hverdict fault hfault.symm)
          · rintro ⟨opened, hrun, -⟩
            obtain ⟨next, hstep, hrest⟩ := Option.bind_eq_some_iff.mp hrun
            -- the machine goes on, so the look-ahead cannot have failed either
            have hsound : ruleBroken i depth before here (rest.head?.map some) = none := by
              refine hrule.mpr ⟨by rw [hstep]; rfl, ?_⟩
              rw [Stand.eq_of_step hstep] at hrest
              cases hends : here.endsOperand with
              | true => exact Or.inl rfl
              | false =>
                  rw [hends] at hrest
                  exact Or.inr (Stand.startsOperand_of_run hrest)
            cases hbroken.symm.trans hsound

theorem firstFaultFrom_eq_none_iff {kinds : List Kind} {i depth : Nat} {before : Option Kind}
    (h : before.any Kind.endsOperand = true ∨ kinds ≠ []) :
    firstFaultFrom i depth before (kinds.map some) = none ↔
      Stand.run ⟨before.any Kind.endsOperand, depth⟩ kinds = some .finish := by
  rw [firstFaultFrom_eq_iff (fun fault hfault => by cases hfault) h]
  constructor
  · rintro ⟨opened, hrun, hend⟩
    obtain rfl : opened = 0 := by simpa [verdictAtEnd] using hend
    exact hrun
  · intro hrun
    exact ⟨0, hrun, rfl⟩

/-- Parentheses that are left open are a fault only at the end. -/
theorem firstFaultFrom_eq_unclosed_iff {kinds : List Kind} {i depth : Nat} {before : Option Kind}
    (h : before.any Kind.endsOperand = true ∨ kinds ≠ []) :
    firstFaultFrom i depth before (kinds.map some) = some (.unmatchedParenthesis none) ↔
      ∃ opened, 0 < opened ∧
        Stand.run ⟨before.any Kind.endsOperand, depth⟩ kinds = some ⟨true, opened⟩ := by
  rw [firstFaultFrom_eq_iff (fun fault hfault => by cases hfault; rfl) h]
  refine exists_congr fun opened => ?_
  cases opened with
  | zero => simp [verdictAtEnd]
  | succ n => simp [verdictAtEnd]

variable {α : Type} [NumberDomain α]

namespace Token

/-- Tokens that count as something are their kinds. -/
theorem kind?_eq_some_kind_iff {t : Token α} :
    t.kind? = some t.kind ↔ ∀ x, t = .number x → NumberDomain.isFinite x = true := by
  cases t <;> simp [kind?, kind]

theorem map_kind?_eq_map_some {ts : List (Token α)}
    (h : ∀ x, .number x ∈ ts → NumberDomain.isFinite x = true) :
    ts.map kind? = (ts.map kind).map some := by
  rw [List.map_map]
  refine List.map_congr_left fun t ht => kind?_eq_some_kind_iff.mpr ?_
  rintro x rfl
  exact h x ht

end Token

/-- A sequence of tokens is without fault just when its numbers are finite
and the machine reads it to the end of an operand, nothing open. -/
theorem firstFault_eq_none_iff {ts : List (Token α)} (hne : ts ≠ []) :
    firstFault (ts.map Token.kind?) = none ↔
      (∀ x, .number x ∈ ts → NumberDomain.isFinite x = true) ∧
        Stand.start.run (ts.map Token.kind) = some .finish := by
  have hkinds : ts.map Token.kind ≠ [] := fun h => hne (List.map_eq_nil_iff.mp h)
  constructor
  · intro h
    have hfinite : ∀ x, .number x ∈ ts → NumberDomain.isFinite x = true := by
      intro x hx
      have hsome := isSome_of_firstFault_eq_none h _ (List.mem_map_of_mem hx)
      cases hfin : NumberDomain.isFinite x with
      | true => rfl
      | false => simp [Token.kind?, hfin] at hsome
    rw [Token.map_kind?_eq_map_some hfinite] at h
    exact ⟨hfinite, (firstFaultFrom_eq_none_iff (Or.inr hkinds)).mp h⟩
  · rintro ⟨hfinite, hrun⟩
    rw [Token.map_kind?_eq_map_some hfinite]
    exact (firstFaultFrom_eq_none_iff (Or.inr hkinds)).mpr hrun

namespace Expression

theorem tokens_ne_nil (e : Expression α) : e.tokens ≠ [] := by
  intro h
  have hlen := e.minTokens_le
  rw [h] at hlen
  cases hlen

/-- All numbers of an expression are finite. -/
theorem isFinite_of_mem (e : Expression α) (x : α) (hx : .number x ∈ e.tokens) :
    NumberDomain.isFinite x = true :=
  ((firstFault_eq_none_iff e.tokens_ne_nil).mp e.wellPlaced).1 x hx

/-- The machine reads an expression from the start to the finish. -/
theorem run_kinds (e : Expression α) :
    Stand.start.run (e.tokens.map Token.kind) = some .finish :=
  ((firstFault_eq_none_iff e.tokens_ne_nil).mp e.wellPlaced).2

end Expression

end FourFunction
