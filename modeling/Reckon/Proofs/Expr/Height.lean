import Reckon.Proofs.Expr.Excerpt
import Reckon.Proofs.Token.Parens

/-!
# How high trees become

Only the height of binary nodes is limited. Groupings and unary operators may stand around a binary node of the greatest
height, as many of them as nesting leaves room for. So some trees are higher than any binary node may be, and the bound
that both limits together give is met.
-/

namespace Reckon

open Text

/-! ## The bound -/

namespace Expr

variable {e : Expr} {limit : Nat}

theorem height_pos (e : Expr) : 0 < e.height := by
  cases e <;> simp [height]

/-- A binary node is as high as the limit at most, and whatever raises a tree above it opens an operand more. -/
theorem height_add_two_le (h : e.SidesBelow limit) (hlimit : 2 ≤ limit) : e.height + 2 ≤ limit + e.need := by
  induction e with
  | literal => simp only [height, need]; omega
  | grouping inner span ih =>
      have := ih h
      simp only [height, need]
      omega
  | unary op operator operand ih =>
      have := ih h
      simp only [height, need]
      omega
  | binary op operator lhs rhs =>
      obtain ⟨⟨hl, hr⟩, -, -⟩ := h
      -- the right side is an operand of its own, so two of them are open
      have := rhs.need_pos
      simp only [height, need]
      omega

theorem SidesBelow.height_le {op : BinaryOp} {operator : Token} {lhs rhs : Expr}
    (h : (binary op operator lhs rhs).SidesBelow limit) : (binary op operator lhs rhs).height ≤ limit := by
  obtain ⟨⟨hl, hr⟩, -, -⟩ := h
  simp only [height]
  omega

/-- What the groupings and unary operators at the top of a tree are around. -/
def core : Expr → Expr
  | .grouping inner _ => inner.core
  | .unary _ _ operand => operand.core
  | e => e

/-- How many groupings and unary operators are around the core. -/
def wraps : Expr → Nat
  | .grouping inner _ => inner.wraps + 1
  | .unary _ _ operand => operand.wraps + 1
  | _ => 0

theorem height_eq_wraps_add (e : Expr) : e.height = e.wraps + e.core.height := by
  induction e with
  | literal | binary => simp [wraps, core]
  | grouping inner span ih => simp only [height, wraps, core, ih]; omega
  | unary op operator operand ih => simp only [height, wraps, core, ih]; omega

theorem height_core_le (h : e.SidesBelow limit) (hlimit : 0 < limit) : e.core.height ≤ limit := by
  induction e with
  | literal => exact hlimit
  | grouping inner span ih => exact ih h
  | unary op operator operand ih => exact ih h
  | binary => exact h.height_le

end Expr

/-! ## Sums in parentheses -/

namespace Piece

def one : Piece := ⟨['1'], .token .number (some (.number (Decimal.toFloat ⟨1, 0⟩)))⟩

def plus : Piece := ⟨['+'], .token .plus none⟩

/-- What adds one `n` times. -/
def links : Nat → List Piece
  | 0 => []
  | n + 1 => plus :: one :: links n

/-- The sum of `n + 1` ones in `k` pairs of parentheses. -/
def wrapped : Nat → Nat → List Piece
  | 0, n => one :: links n
  | k + 1, n => opening :: (wrapped k n ++ [closing])

example : texts (wrapped 2 1) = "((1+1))".toList := by decide

variable {rest : List Char} {ps : List Piece}

theorem first_one (h : ∀ c ∈ rest.head?, c = '+' ∨ c = ')') : First one rest := by
  have hfirst : first '1' rest = (one, rest) := by
    cases rest with
    | nil => rfl
    | cons c cs => rcases h c rfl with rfl | rfl <;> rfl
  have := first_first '1' rest
  rwa [hfirst] at this

theorem tiled_links (n : Nat) (hps : Tiled ps) (hend : ∀ c ∈ (texts ps).head?, c = ')') : Tiled (one :: (links n ++ ps)) := by
  induction n with
  | zero => exact .cons (first_one fun c hc => .inr (hend c hc)) hps
  | succ n ih =>
      refine .cons (first_one fun c hc => .inl ?_) (.cons (first_single rfl rfl (by decide)) ih)
      exact (Option.some.inj hc).symm

theorem tiled_wrapped (k n : Nat) (hps : Tiled ps) (hend : ∀ c ∈ (texts ps).head?, c = ')') :
    Tiled (wrapped k n ++ ps) := by
  induction k generalizing ps with
  | zero => exact tiled_links n hps hend
  | succ k ih =>
      have hclosing : Tiled (closing :: ps) := .cons (first_single rfl rfl (by decide)) hps
      have hinner := ih hclosing fun c hc => (Option.some.inj hc).symm
      have hshape : wrapped (k + 1) n ++ ps = opening :: (wrapped k n ++ closing :: ps) := by simp [wrapped]
      rw [hshape]
      exact .cons (first_single rfl rfl (by decide)) hinner

theorem content_ne_fault {k n : Nat} {p : Piece} (h : p ∈ wrapped k n) (fault : CompileFault) : p.content ≠ .fault fault := by
  have hlinks : ∀ n, ∀ p ∈ links n, p = plus ∨ p = one := by
    intro n
    induction n with
    | zero => simp [links]
    | succ n ih => simpa [links] using ih
  induction k with
  | zero =>
      rcases List.mem_cons.mp h with rfl | h
      · simp [one]
      · rcases hlinks n p h with rfl | rfl <;> simp [plus, one]
  | succ k ih =>
      simp only [wrapped, List.mem_cons, List.mem_append, List.not_mem_nil, or_false] at h
      rcases h with rfl | h | rfl
      · simp [opening]
      · exact ih h
      · simp [closing]

/-- Each link raises the sum by one. -/
theorem exists_links (n offset line : Nat) {lhs : Expr} {us : List Token} (hy : Yields lhs us) (hs : lhs.Stratified)
    (hl : Level.term.rank ≤ lhs.level.rank) (hneed : lhs.need ≤ 2) :
    ∃ e, Yields e (us ++ tokens offset line (links n)) ∧ e.Stratified ∧ e.need ≤ 2 ∧ e.height = lhs.height + n := by
  induction n generalizing offset line lhs us with
  | zero => exact ⟨lhs, by simpa [links, tokens, collect] using hy, hs, hneed, rfl⟩
  | succ n ih =>
      obtain ⟨operator, t, offset', line', htokens, hoperator, ht⟩ : ∃ operator t offset' line',
          tokens offset line (links (n + 1)) = operator :: t :: tokens offset' line' (links n) ∧
            operator.kind.binaryOp? = some .add ∧ t.value? = some (.number (Decimal.toFloat ⟨1, 0⟩)) :=
        ⟨_, _, _, _, rfl, rfl, rfl⟩
      have hsum := Yields.binary hoperator hy (.literal ht)
      have hpos := lhs.height_pos
      obtain ⟨e, hye, hse, hneede, hheight⟩ := ih offset' line' hsum ⟨hl, BinaryOp.add.rank_lt_unary, hs, trivial⟩ (Nat.le_refl _)
        (by simp only [Expr.need]; omega)
      refine ⟨e, ?_, hse, hneede, ?_⟩
      · rw [htokens]
        simpa using hye
      · rw [hheight]
        simp only [Expr.height]
        omega

theorem exists_wrapped (k n offset line : Nat) :
    ∃ e, Yields e (tokens offset line (wrapped k n)) ∧ e.Stratified ∧ e.need ≤ k + 2 ∧ e.SidesBelow (n + 1) ∧
      e.height = k + n + 1 := by
  induction k generalizing offset line with
  | zero =>
      obtain ⟨t, offset', line', htokens, ht⟩ : ∃ t offset' line',
          tokens offset line (wrapped 0 n) = t :: tokens offset' line' (links n) ∧
            t.value? = some (.number (Decimal.toFloat ⟨1, 0⟩)) := ⟨_, _, _, rfl, rfl⟩
      obtain ⟨e, hy, hs, hneed, hheight⟩ := exists_links n offset' line' (.literal ht) trivial (Level.rank_le_unary _) (by simp [Expr.need])
      have hheight : e.height = n + 1 := by rw [hheight, Expr.height, Nat.add_comm]
      refine ⟨e, ?_, hs, by omega, hheight ▸ e.sidesBelow_height, by omega⟩
      rw [htokens]
      exact hy
  | succ k ih =>
      obtain ⟨first, offset', line', last, htokens, hfirst, hlast⟩ : ∃ first offset' line' last,
          tokens offset line (wrapped (k + 1) n) = first :: (tokens offset' line' (wrapped k n) ++ [last]) ∧
            first.kind = .leftParen ∧ last.kind = .rightParen := by
        simp only [wrapped, tokens, collect, collect_append]
        exact ⟨_, _, _, _, rfl, rfl, rfl⟩
      obtain ⟨e, hy, hs, hneed, hsides, hheight⟩ := ih offset' line'
      rw [htokens]
      refine ⟨_, .grouping hfirst hy hlast, hs, ?_, hsides, ?_⟩
      · simp only [Expr.need]
        omega
      · simp only [Expr.height]
        omega

end Piece

/-! ## Sources -/

namespace Expr

open Piece

theorem exists_ofSource_wrapped {k n : Nat} (hk : k + 2 ≤ maxNesting) (hn : n + 1 ≤ maxHeight) :
    ∃ e, ofSource (String.ofList (texts (wrapped k n))) = .ok e ∧ e.height = k + n + 1 := by
  have htiled : Tiled (wrapped k n) := by
    have := tiled_wrapped k n .nil (by simp)
    rwa [List.append_nil] at this
  obtain ⟨e, hy, hs, hneed, hsides, hheight⟩ := exists_wrapped k n 0 0
  exact ⟨e, ofSource_texts htiled (fun p hp => content_ne_fault hp) hy hs (Nat.le_trans hneed hk) (hsides.mono hn), hheight⟩

/-- The bound that both limits together give is met. -/
theorem exists_ofSource_highest : ∃ source e, ofSource source = .ok e ∧ e.height = maxHeight + (maxNesting - 2) := by
  obtain ⟨e, he, hheight⟩ :=
    exists_ofSource_wrapped (k := maxNesting - 2) (n := maxHeight - 1) (by decide) (by decide)
  exact ⟨_, e, he, by simp only [hheight, maxNesting, maxHeight]⟩

/--
A tree that is read is as high as the limit at most, unless there are more groupings and unary operators around its core
than the core, which is never higher than the limit, leaves room for. Nesting bounds how many there can be.
-/
theorem ofSource_height {source : String} {e : Expr} (h : ofSource source = .ok e) :
    (e.height ≤ maxHeight ↔ e.wraps ≤ maxHeight - e.core.height) ∧ e.core.height ≤ maxHeight ∧
      e.height ≤ maxHeight + (maxNesting - 2) ∧
      ∀ d op operator lhs rhs, (d, binary op operator lhs rhs) ∈ e.nodes →
        (binary op operator lhs rhs).height ≤ maxHeight := by
  obtain ⟨-, -, -, hneed, hsides⟩ := ofSource_eq_ok_iff.mp h
  have hcore : e.core.height ≤ maxHeight := height_core_le hsides (by decide)
  have hheight := e.height_eq_wraps_add
  have hbound := height_add_two_le hsides (by decide)
  refine ⟨by omega, hcore, ?_, fun d op operator lhs rhs hn => ?_⟩
  · simp only [maxNesting] at hneed ⊢
    omega
  · exact ((hereditary_sidesBelow maxHeight).of_mem_nodesFrom hsides hn).height_le

/-- Parentheses around the longest sum that is read make its tree higher than the limit. -/
theorem ofSource_height_above_limit :
    ∃ e, ofSource (String.ofList (texts (wrapped 1 1023))) = .ok e ∧ e.height = 1025 ∧ ¬ e.height ≤ maxHeight := by
  obtain ⟨e, he, hheight⟩ := exists_ofSource_wrapped (k := 1) (n := 1023) (by decide) (by decide)
  exact ⟨e, he, hheight, by rw [hheight]; decide⟩

/-- A unary operator and a grouping are around a literal, which leaves them much room. -/
theorem ofSource_height_unary : ∃ e, ofSource "-(nil)" = .ok e ∧ e.wraps = 2 ∧ e.height ≤ maxHeight := by
  have h : ofSource "-(nil)" = .ok (.unary .negate ⟨.minus, "-", none, 0, ⟨0, 1⟩⟩
      (.grouping (.literal .nil ⟨.keyword .nil, "nil", none, 0, ⟨2, 5⟩⟩) ⟨1, 6⟩)) := by
    rw [ofSource, scan_eq]
    cbv
  exact ⟨_, h, rfl, (ofSource_height h).1.mpr (by decide)⟩

end Expr
end Reckon
