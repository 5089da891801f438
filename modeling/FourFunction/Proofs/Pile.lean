import Mathlib.Data.List.Chain
import Mathlib.Data.List.Count
import FourFunction.Proofs.FirstFault
import FourFunction.Proofs.Groups

/-!
# The pile during the conversion

The pile holds two kinds of entries, operators that wait and marks of
opening parentheses, and `read` moves them in four ways. Two facts about
the pile outlive each of them, whatever is read:

- an operator never lies directly on one that binds as tightly or more
  (`Pending.LiesOn`), since reading it has released all of those;
- each mark has been laid by a parenthesis of the sequence and lies since
  on just what was the pile when that was read (`exists_origin`).

In an accepted sequence the marks on the pile are, besides, as many as
parentheses are open (`count_pileAfter`). From there on it is counting. A
closing parenthesis finds a mark, because one is open; and between the
origin of that mark and the closing parenthesis as much is opened as is
closed and at no point less, because at each point in between the mark
and what lay below it are still there. So these two belong together, and
no other opening parenthesis belongs to the closing one (`Paired.unique`).
-/

namespace FourFunction

namespace Pending

/-- What may lie directly on what: an operator only on one that binds less
tightly, everything else on everything. -/
def LiesOn : Pending → Pending → Prop
  | operator upper, operator lower => lower.precedence < upper.precedence
  | _, _ => True

end Pending

namespace Conversion

variable {α : Type}

/-! ## What a token does to the pile -/

/-- A release takes operators off the top of the pile. -/
theorem exists_released (p : Operator → Bool) (c : Conversion α) :
    ∃ released : List Operator,
      c.pending = released.map Pending.operator ++ (c.release p).pending := by
  refine release_induction (P := fun c' => ∃ released : List Operator,
    c.pending = released.map Pending.operator ++ c'.pending) ?_ ⟨[], rfl⟩
  rintro o output rest - ⟨released, hsplit⟩
  exact ⟨released ++ [o], by simpa using hsplit⟩

/-- Reading keeps operators from lying on those that bind as tightly. -/
theorem isChain_read {c : Conversion α} (h : c.pending.IsChain Pending.LiesOn) (t : Token α) :
    (c.read t).pending.IsChain Pending.LiesOn := by
  have hreleased : ∀ p, (c.release p).pending.IsChain Pending.LiesOn := by
    intro p
    obtain ⟨released, hsplit⟩ := c.exists_released p
    rw [hsplit] at h
    exact h.right_of_append
  cases t with
  | number x => exact h
  | operator o =>
      refine (hreleased _).cons fun lower hlower => ?_
      cases lower with
      | openParen => trivial
      | operator o' =>
          have hheld := held_release (fun waiting => o.precedence ≤ waiting.precedence) c o' hlower
          exact Nat.not_le.mp (of_decide_eq_false hheld)
  | openParen => exact h.cons fun _ _ => trivial
  | closeParen => exact (hreleased _).drop 1

/-- Only an opening parenthesis lays a mark; what lies below a mark after
another token has lain there before. -/
theorem exists_pending_of_read {c : Conversion α} {t : Token α} (ht : t ≠ .openParen)
    {above below : List Pending} (h : (c.read t).pending = above ++ .openParen :: below) :
    ∃ above', c.pending = above' ++ .openParen :: below := by
  cases t with
  | number x => exact ⟨above, h⟩
  | openParen => exact absurd rfl ht
  | operator o =>
      obtain ⟨released, hsplit⟩ :=
        c.exists_released fun waiting => o.precedence ≤ waiting.precedence
      cases above with
      | nil => cases h
      | cons top above =>
          have hrest : (c.release fun waiting => o.precedence ≤ waiting.precedence).pending =
              above ++ .openParen :: below := (List.cons.inj h).2
          exact ⟨released.map Pending.operator ++ above,
            by rw [hsplit, hrest, List.append_assoc]⟩
  | closeParen =>
      obtain ⟨released, hsplit⟩ := c.exists_released fun _ => true
      have hdropped : (c.release fun _ => true).pending.drop 1 = above ++ .openParen :: below := h
      rcases c.pending_release_all with hnil | ⟨rest, hrest⟩
      · rw [hnil] at hdropped
        simp at hdropped
      · rw [hrest] at hdropped hsplit
        exact ⟨released.map Pending.operator ++ .openParen :: above,
          by rw [hsplit, List.append_assoc]; exact congrArg _ (congrArg _ hdropped)⟩

end Conversion

variable {α : Type}

open Conversion

/-! ## The pile at each point of the sequence -/

/-- The conversion once the first `n` tokens have been read. -/
def conversionAfter (ts : List (Token α)) (n : Nat) : Conversion α := start.readAll (ts.take n)

/-- The pile once the first `n` tokens have been read. -/
def pileAfter (ts : List (Token α)) (n : Nat) : List Pending := (conversionAfter ts n).pending

theorem conversionAfter_succ {ts : List (Token α)} {n : Nat} {t : Token α}
    (h : ts[n]? = some t) : conversionAfter ts (n + 1) = (conversionAfter ts n).read t := by
  rw [conversionAfter, List.take_add_one, h, readAll_append]
  rfl

theorem pileAfter_succ_openParen {ts : List (Token α)} {n : Nat}
    (h : ts[n]? = some .openParen) : pileAfter ts (n + 1) = .openParen :: pileAfter ts n := by
  rw [pileAfter, conversionAfter_succ h]
  rfl

/-! ### Operators -/

theorem isChain_pileAfter (ts : List (Token α)) (n : Nat) :
    (pileAfter ts n).IsChain Pending.LiesOn := by
  induction n with
  | zero => exact .nil
  | succ n ih =>
      cases ht : ts[n]? with
      | none =>
          rw [pileAfter, conversionAfter, List.take_add_one, ht, Option.toList_none,
            List.append_nil]
          exact ih
      | some t =>
          rw [pileAfter, conversionAfter_succ ht]
          exact isChain_read ih t

/-- Operators with nothing but operators between them bind the less
tightly the lower they lie. -/
theorem pairwise_of_isChain {above below : List Pending} {ops : List Operator}
    (h : (above ++ ops.map Pending.operator ++ below).IsChain Pending.LiesOn) :
    ops.Pairwise fun upper lower => lower.precedence < upper.precedence := by
  have hops := (List.isChain_map Pending.operator).mp h.left_of_append.right_of_append
  have htrans : IsTrans Operator fun upper lower => lower.precedence < upper.precedence :=
    ⟨fun _ _ _ hab hbc => Nat.lt_trans hbc hab⟩
  exact List.isChain_iff_pairwise.mp hops

/-- There are two precedences, so no more than two operators can lie in a
row. -/
theorem length_le_two_of_pairwise {ops : List Operator}
    (h : ops.Pairwise fun upper lower => lower.precedence < upper.precedence) :
    ops.length ≤ 2 := by
  match ops, h with
  | [], _ => exact Nat.zero_le 2
  | [_], _ => exact Nat.le_succ 1
  | [_, _], _ => exact Nat.le_refl 2
  | o₁ :: o₂ :: o₃ :: _, h =>
      have h₁₂ := List.rel_of_pairwise_cons h (List.mem_cons_self ..)
      have h₂₃ := List.rel_of_pairwise_cons (List.pairwise_cons.mp h).2 (List.mem_cons_self ..)
      have h₁ := o₁.precedence_eq_one_or_two
      have h₃ := o₃.precedence_eq_one_or_two
      omega

/-! ### Marks -/

/-- Each mark on the pile has been laid by an opening parenthesis, and has
lain since then on what was the pile before it. -/
theorem exists_origin {ts : List (Token α)} {n : Nat} (hn : n ≤ ts.length)
    {above below : List Pending} (h : pileAfter ts n = above ++ .openParen :: below) :
    ∃ i < n, ts[i]? = some .openParen ∧ pileAfter ts i = below
      ∧ ∀ k, i < k → k ≤ n → ∃ above, pileAfter ts k = above ++ .openParen :: below := by
  induction n generalizing above with
  | zero => simp [pileAfter, conversionAfter, readAll, start] at h
  | succ n ih =>
      have ht : ts[n]? = some ts[n] := List.getElem?_eq_getElem hn
      by_cases hparen : ts[n] = .openParen
      · rw [hparen] at ht
        have hlaid := (pileAfter_succ_openParen ht).symm.trans h
        cases above with
        | nil =>
            have hbelow := (List.cons.inj hlaid).2
            refine ⟨n, Nat.lt_succ_self n, ht, hbelow, fun k hk hkn => ?_⟩
            obtain rfl : k = n + 1 := by omega
            exact ⟨[], h⟩
        | cons top above =>
            obtain ⟨i, hi, hopen, hpile, hstays⟩ :=
              ih (Nat.le_of_succ_le hn) (List.cons.inj hlaid).2
            refine ⟨i, Nat.lt_succ_of_lt hi, hopen, hpile, fun k hk hkn => ?_⟩
            rcases Nat.le_succ_iff.mp hkn with hle | rfl
            · exact hstays k hk hle
            · exact ⟨_, h⟩
      · have hread : ((conversionAfter ts n).read ts[n]).pending = above ++ .openParen :: below := by
          rw [← conversionAfter_succ ht]
          exact h
        obtain ⟨above', hbefore⟩ := exists_pending_of_read hparen hread
        obtain ⟨i, hi, hopen, hpile, hstays⟩ := ih (Nat.le_of_succ_le hn) hbefore
        refine ⟨i, Nat.lt_succ_of_lt hi, hopen, hpile, fun k hk hkn => ?_⟩
        rcases Nat.le_succ_iff.mp hkn with hle | rfl
        · exact hstays k hk hle
        · exact ⟨above, h⟩

/-- As many marks lie on the pile as parentheses are open. -/
theorem count_pileAfter {ts : List (Token α)} {final : Stand}
    (hrun : Stand.start.run (ts.map Token.kind) = some final) (n : Nat) :
    (pileAfter ts n).count .openParen + ((ts.map Token.kind).take n).count .closing =
      ((ts.map Token.kind).take n).count .opening := by
  rw [← List.take_append_drop n (ts.map Token.kind), Stand.run_append] at hrun
  obtain ⟨s, hs, -⟩ := Option.bind_eq_some_iff.mp hrun
  have hdepth := Stand.depth_of_run hs
  rw [List.count_map_of_injective _ _ (fun _ _ => Option.some.inj),
    List.count_map_of_injective _ _ (fun _ _ => Option.some.inj)] at hdepth
  rw [← List.map_take] at hs
  have hcount : (pileAfter ts n).count .openParen = s.depth :=
    count_readAll (s := .start) rfl hs
  rw [hcount, hdepth]
  exact Nat.zero_add _

/-! ## Parentheses that belong together -/

/-- Positions `i` and `j` hold an opening parenthesis and the closing one
that belongs to it. -/
structure Paired (ks : List Kind) (i j : Nat) : Prop where
  opening : ks[i]? = some .opening
  closing : ks[j]? = some .closing
  lt : i < j
  balanced : Balanced ((ks.take j).drop (i + 1))

/-- What is counted up to a later point is what is counted up to an earlier
one and from there on. -/
theorem count_take_eq {ks : List Kind} {i n : Nat} (h : i ≤ n) (k : Kind) :
    (ks.take n).count k = (ks.take i).count k + ((ks.take n).drop i).count k := by
  have hsplit := List.take_append_drop i (ks.take n)
  rw [List.take_take, Nat.min_eq_left h] at hsplit
  rw [← List.count_append, hsplit]

theorem count_take_succ {ks : List Kind} {i : Nat} {here : Kind} (h : ks[i]? = some here)
    (k : Kind) : (ks.take (i + 1)).count k = (ks.take i).count k + [here].count k := by
  rw [List.take_add_one, h, List.count_append]
  rfl

/-- Balance of a piece, read off the counts up to its points. -/
theorem balanced_iff_counts {ks : List Kind} {i j : Nat} (h : i ≤ j) :
    Balanced ((ks.take j).drop i) ↔
      (∀ n, i ≤ n → n ≤ j →
          (ks.take n).count .closing + (ks.take i).count .opening ≤
            (ks.take i).count .closing + (ks.take n).count .opening)
        ∧ (ks.take j).count .closing + (ks.take i).count .opening =
            (ks.take i).count .closing + (ks.take j).count .opening := by
  have hpiece : ∀ n, ((ks.take j).drop i).take n = (ks.take (min j (i + n))).drop i := by
    intro n
    rw [List.take_drop, List.take_take, Nat.min_comm]
  constructor
  · rintro ⟨hpoints, htotal⟩
    refine ⟨fun n hn hnj => ?_, ?_⟩
    · have hle := hpoints (n - i)
      rw [hpiece, Nat.add_sub_cancel' hn, Nat.min_eq_right hnj] at hle
      rw [count_take_eq hn .closing, count_take_eq hn .opening]
      omega
    · rw [count_take_eq h .closing, count_take_eq h .opening]
      omega
  · rintro ⟨hpoints, htotal⟩
    refine ⟨fun n => ?_, ?_⟩
    · have hn : i ≤ min j (i + n) := by omega
      have hle := hpoints _ hn (Nat.min_le_left ..)
      rw [count_take_eq hn .closing, count_take_eq hn .opening] at hle
      rw [hpiece]
      omega
    · rw [count_take_eq h .closing, count_take_eq h .opening] at htotal
      omega

/-- A closing parenthesis belongs to one opening parenthesis only: of two,
the later one would have to be closed before the end of its own pair. -/
theorem Paired.unique {ks : List Kind} {i i' j : Nat} (h : Paired ks i j) (h' : Paired ks i' j) :
    i = i' := by
  have hlt : ∀ {i i'}, Paired ks i j → Paired ks i' j → ¬ i < i' := by
    intro i i' h h' hi
    have hopening := count_take_succ h'.opening .opening
    have hclosing := count_take_succ h'.opening .closing
    obtain ⟨houter, htotal⟩ := (balanced_iff_counts (i := i + 1) h.lt).mp h.balanced
    obtain ⟨-, htotal'⟩ := (balanced_iff_counts (i := i' + 1) h'.lt).mp h'.balanced
    have hbefore := houter i' hi (Nat.le_of_lt h'.lt)
    have hone : [Kind.opening].count .opening = 1 := rfl
    have hnone : [Kind.opening].count .closing = 0 := rfl
    omega
  exact Nat.le_antisymm (Nat.not_lt.mp (hlt h' h)) (Nat.not_lt.mp (hlt h h'))

/-! ## The mark of a pair -/

/-- The mark that position `i` lays on the pile is the one that position
`j` finds and takes away, with the operators above it and nothing below:
in between it lies there all the time, on what the pile was before. -/
structure Marked (ts : List (Token α)) (i j : Nat) : Prop where
  laid : pileAfter ts (i + 1) = .openParen :: pileAfter ts i
  stays : ∀ n, i < n → n ≤ j → ∃ above, pileAfter ts n = above ++ .openParen :: pileAfter ts i
  found : ∃ waiting : List Operator,
    pileAfter ts j = waiting.map Pending.operator ++ .openParen :: pileAfter ts i
  taken : pileAfter ts (j + 1) = pileAfter ts i

theorem count_map_operator (ops : List Operator) :
    (ops.map Pending.operator).count .openParen = 0 :=
  List.count_eq_zero.mpr (by simp)

/-- A closing parenthesis comes upon a mark wherever one is left on the
pile. -/
theorem exists_mark_of_closeParen {ts : List (Token α)} {j : Nat}
    (hj : ts[j]? = some .closeParen) (hmark : 0 < (pileAfter ts j).count .openParen) :
    ∃ waiting : List Operator,
      pileAfter ts j = waiting.map Pending.operator ++ .openParen :: pileAfter ts (j + 1) := by
  obtain ⟨waiting, hsplit⟩ := (conversionAfter ts j).exists_released fun _ => true
  have hpile : pileAfter ts j = waiting.map Pending.operator
      ++ ((conversionAfter ts j).release fun _ => true).pending := hsplit
  have hnext : pileAfter ts (j + 1) =
      ((conversionAfter ts j).release fun _ => true).pending.drop 1 := by
    rw [pileAfter, conversionAfter_succ hj]
    rfl
  rcases (conversionAfter ts j).pending_release_all with hnil | ⟨rest, hrest⟩
  · rw [hpile, hnil, List.append_nil, count_map_operator] at hmark
    exact absurd hmark (Nat.lt_irrefl 0)
  · rw [hrest] at hpile hnext
    exact ⟨waiting, by rw [hpile, hnext]; rfl⟩

/-- The mark that a closing parenthesis comes upon is that of the opening
one it belongs to. -/
theorem exists_marked {ts : List (Token α)} {final : Stand}
    (hrun : Stand.start.run (ts.map Token.kind) = some final) {j : Nat}
    (hj : ts[j]? = some .closeParen) :
    ∃ i, Paired (ts.map Token.kind) i j ∧ Marked ts i j := by
  have hclosing : (ts.map Token.kind)[j]? = some .closing := by rw [List.getElem?_map, hj]; rfl
  have hcount := count_pileAfter hrun
  have hclosed := count_take_succ hclosing .closing
  have hopened := count_take_succ hclosing .opening
  have hone : [Kind.closing].count .closing = 1 := rfl
  have hnone : [Kind.closing].count .opening = 0 := rfl
  -- counted with this one, no more are closed than have been opened
  have hmark : 0 < (pileAfter ts j).count .openParen := by
    have hbefore := hcount j
    have hafter := hcount (j + 1)
    omega
  obtain ⟨waiting, hfound⟩ := exists_mark_of_closeParen hj hmark
  have hlt := (List.getElem?_eq_some_iff.mp hj).1
  obtain ⟨i, hi, hopen, hbelow, hstays⟩ := exists_origin (Nat.le_of_lt hlt) hfound
  rw [← hbelow] at hfound hstays
  have hopening : (ts.map Token.kind)[i]? = some .opening := by
    rw [List.getElem?_map, hopen]
    rfl
  have hlaid := pileAfter_succ_openParen hopen
  -- at no point in between is less open than right behind the opening one
  have hleast : ∀ n, i < n → n ≤ j →
      (pileAfter ts (i + 1)).count .openParen ≤ (pileAfter ts n).count .openParen := by
    intro n hn hnj
    obtain ⟨above, hsplit⟩ := hstays n hn hnj
    rw [hsplit, hlaid, List.count_append]
    exact Nat.le_add_left ..
  refine ⟨i, ⟨hopening, hclosing, hi, (balanced_iff_counts (i := i + 1) hi).mpr ⟨?_, ?_⟩⟩,
    hlaid, hstays, ⟨waiting, hfound⟩, hbelow.symm⟩
  · intro n hn hnj
    have hle := hleast n hn hnj
    have hhere := hcount n
    have hfirst := hcount (i + 1)
    omega
  · have hpile := congrArg (List.count Pending.openParen) hfound
    rw [List.count_append, count_map_operator, ← hlaid] at hpile
    have hhere := hcount j
    have hfirst := hcount (i + 1)
    omega

/-! ## The pile of an expression -/

/-- What holds of the pile while the tokens `ts` are converted that an
expression is calculated with; `ks` are the kinds of its tokens. -/
structure PileKept (ks : List Kind) (ts : List (Token α)) : Prop where
  /-- There is a mark for each parenthesis that is open. -/
  marks : ∀ n ≤ ks.length, (pileAfter ts n).count .openParen + (ks.take n).count .closing =
    (ks.take n).count .opening
  /-- Operators with no mark between them bind the tighter the higher they
  lie, so there are two of them at most. -/
  operators : ∀ n ≤ ks.length, ∀ (above below : List Pending) (ops : List Operator),
    pileAfter ts n = above ++ ops.map Pending.operator ++ below →
      (ops.Pairwise fun upper lower => lower.precedence < upper.precedence) ∧ ops.length ≤ 2
  /-- Each closing parenthesis belongs to one opening one, and takes its
  mark. -/
  pairs : ∀ j, ks[j]? = some .closing →
    ∃ i, Paired ks i j ∧ Marked ts i j ∧ ∀ i', Paired ks i' j → i' = i
  /-- The operators that are left at the end are all that is left. -/
  drained : .openParen ∉ pileAfter ts ks.length ∧
    (conversionAfter ts ks.length).finish = toPostfix ts

/-- While an accepted sequence is converted, whatever the settings are,
its pile holds the marks of the parentheses that are open and between
them operators in the order of their precedence; each closing parenthesis
takes the mark of its own opening one, and in the end no mark is left. -/
theorem pileKept [NumberDomain α] (settings : Settings) (e : Expression α) :
    PileKept (e.tokens.map Token.kind) (e.settledTokens settings) := by
  have hkinds : (e.settledTokens settings).map Token.kind = e.tokens.map Token.kind :=
    map_kind_settle _ _
  have hrun := e.run_kinds
  rw [← hkinds] at hrun ⊢
  have hlength : ((e.settledTokens settings).map Token.kind).length =
      (e.settledTokens settings).length := List.length_map ..
  refine ⟨fun n _ => count_pileAfter hrun n, fun n _ above below ops hsplit => ?_,
    fun j hj => ?_, ?_, ?_⟩
  · have hchain := isChain_pileAfter (e.settledTokens settings) n
    rw [hsplit] at hchain
    have hops := pairwise_of_isChain hchain
    exact ⟨hops, length_le_two_of_pairwise hops⟩
  · rw [List.getElem?_map, Option.map_eq_some_iff] at hj
    obtain ⟨t, ht, hkind⟩ := hj
    have hclose : t = .closeParen := by cases t <;> first | rfl | cases hkind
    obtain ⟨i, hpaired, hmarked⟩ := exists_marked hrun (ht.trans (congrArg some hclose))
    exact ⟨i, hpaired, hmarked, fun i' h' => h'.unique hpaired⟩
  · have hcount : (pileAfter (e.settledTokens settings)
        ((e.settledTokens settings).map Token.kind).length).count .openParen = 0 := by
      rw [hlength, pileAfter, conversionAfter, List.take_length]
      exact count_readAll (s := .start) rfl hrun
    exact List.count_eq_zero.mp hcount
  · rw [hlength, conversionAfter, List.take_length, toPostfix]

/-- In `2 * ( 3 + 4 * ( 5`, two marks part the operators that wait. -/
example :
    pileAfter ([.number 2, .operator .times, .openParen, .number 3, .operator .plus, .number 4,
        .operator .times, .openParen, .number 5] : List (Token Rat)) 9 =
      [.openParen, .operator .times, .operator .plus, .openParen, .operator .times] := rfl

end FourFunction
