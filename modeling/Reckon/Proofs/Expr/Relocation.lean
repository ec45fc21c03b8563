import Reckon.Expr.Eval
import Reckon.Proofs.Expr.Yield

/-!
# Moving tokens and trees to other places

What a tree is apart from its places stays the same when beginnings, ends and lines change, each by a function of its own.
The tokens of the tree are moved with it.
-/

namespace Reckon

/-- How places change: what begins there, what ends there, and their lines. -/
structure Relocation where
  start : Nat → Nat
  stop : Nat → Nat
  line : Nat → Nat

variable (r : Relocation)

def Span.relocated (s : Span) : Span :=
  ⟨r.start s.start, r.stop s.stop⟩

def Token.relocated (t : Token) : Token :=
  { t with line := r.line t.line, span := t.span.relocated r }

def RuntimeError.relocated (e : RuntimeError) : RuntimeError :=
  { e with line := r.line e.line, span := e.span.relocated r }

namespace Expr

def relocated : Expr → Expr
  | .literal value token => .literal value (token.relocated r)
  | .grouping inner span => .grouping inner.relocated (span.relocated r)
  | .unary op operator operand => .unary op (operator.relocated r) operand.relocated
  | .binary op operator lhs rhs => .binary op (operator.relocated r) lhs.relocated rhs.relocated

theorem relocated_id (e : Expr) : e.relocated ⟨id, id, id⟩ = e := by
  induction e with
  | literal => rfl
  | grouping _ _ ih => rw [relocated, ih]; rfl
  | unary _ _ _ ih => rw [relocated, ih]; rfl
  | binary _ _ _ _ ihl ihr => rw [relocated, ihl, ihr]; rfl

/-! ## Measures -/

variable {r} {e : Expr} {limit : Nat}

@[simp] theorem height_relocated : (e.relocated r).height = e.height := by
  induction e with
  | literal => rfl
  | grouping _ _ ih => simp [relocated, height, ih]
  | unary _ _ _ ih => simp [relocated, height, ih]
  | binary _ _ _ _ ihl ihr => simp [relocated, height, ihl, ihr]

@[simp] theorem level_relocated : (e.relocated r).level = e.level := by
  cases e <;> rfl

@[simp] theorem need_relocated : (e.relocated r).need = e.need := by
  induction e with
  | literal => rfl
  | grouping _ _ ih => simp [relocated, need, ih]
  | unary _ _ _ ih => simp [relocated, need, ih]
  | binary _ _ _ _ ihl ihr => simp [relocated, need, ihl, ihr]

@[simp] theorem stratified_relocated : (e.relocated r).Stratified ↔ e.Stratified := by
  induction e with
  | literal => rfl
  | grouping _ _ ih => simp [relocated, Stratified, ih]
  | unary _ _ _ ih => simp [relocated, Stratified, ih]
  | binary _ _ _ _ ihl ihr => simp [relocated, Stratified, ihl, ihr]

@[simp] theorem sidesBelow_relocated : (e.relocated r).SidesBelow limit ↔ e.SidesBelow limit := by
  induction e with
  | literal => rfl
  | grouping _ _ ih => simp [relocated, SidesBelow, ih]
  | unary _ _ _ ih => simp [relocated, SidesBelow, ih]
  | binary _ _ _ _ ihl ihr => simp [relocated, SidesBelow, ihl, ihr]

end Expr

/-! ## Tokens of a tree -/

variable {r} {e : Expr} {ts : List Token}

theorem Yields.relocated (h : Yields e ts) : Yields (e.relocated r) (ts.map (·.relocated r)) := by
  induction h with
  | literal hv => exact .literal hv
  | @grouping opening closing inner ts ho hi hc ih =>
      rw [List.map_cons, List.map_append, List.map_singleton]
      show Yields (.grouping (inner.relocated r) ⟨(opening.relocated r).span.start, (closing.relocated r).span.stop⟩) _
      exact .grouping ho ih hc
  | unary ho hx ih => exact .unary ho ih
  | binary ho hl hr ihl ihr =>
      rw [List.map_append, List.map_cons]
      exact .binary ho ihl ihr

/-- A tree of moved tokens is a moved tree. -/
theorem Yields.of_map_relocated {us : List Token} (h : Yields e (us.map (·.relocated r))) :
    ∃ e', e = e'.relocated r ∧ Yields e' us := by
  generalize hts : us.map (·.relocated r) = ts at h
  induction h generalizing us with
  | literal hv =>
      obtain ⟨t, rfl, rfl⟩ := List.map_eq_singleton_iff.mp hts
      exact ⟨.literal _ t, rfl, .literal hv⟩
  | grouping ho hi hc ih =>
      obtain ⟨opening, rest, rfl, rfl, hrest⟩ := List.map_eq_cons_iff.mp hts
      obtain ⟨inner, last, rfl, rfl, hlast⟩ := List.map_eq_append_iff.mp hrest
      obtain ⟨closing, rfl, rfl⟩ := List.map_eq_singleton_iff.mp hlast
      obtain ⟨e', rfl, hy⟩ := ih rfl
      exact ⟨.grouping e' ⟨opening.span.start, closing.span.stop⟩, rfl, .grouping ho hy hc⟩
  | unary ho hx ih =>
      obtain ⟨operator, rest, rfl, rfl, hrest⟩ := List.map_eq_cons_iff.mp hts
      obtain ⟨e', rfl, hy⟩ := ih hrest
      exact ⟨.unary _ operator e', rfl, .unary ho hy⟩
  | binary ho hl hr ihl ihr =>
      obtain ⟨left, rest, rfl, hleft, hrest⟩ := List.map_eq_append_iff.mp hts
      obtain ⟨operator, right, rfl, rfl, hright⟩ := List.map_eq_cons_iff.mp hrest
      obtain ⟨l', rfl, hyl⟩ := ihl hleft
      obtain ⟨r', rfl, hyr⟩ := ihr hright
      exact ⟨.binary _ operator l' r', rfl, .binary ho hyl hyr⟩

/-! ## Evaluation -/

theorem RuntimeError.mapError_atOperator_relocated (x : Except RuntimeFault Value) (t : Token) :
    x.mapError (atOperator (t.relocated r)) = (x.mapError (atOperator t)).mapError (relocated r) := by
  cases x <;> rfl

theorem Expr.eval_relocated (e : Expr) : (e.relocated r).eval = e.eval.mapError (.relocated r) := by
  induction e with
  | literal => rfl
  | grouping _ _ ih => exact ih
  | unary op operator operand ih =>
      rw [relocated, eval_unary, eval_unary, ih]
      cases operand.eval with
      | error r => rfl
      | ok v => exact RuntimeError.mapError_atOperator_relocated (op.apply v) operator
  | binary op operator lhs rhs ihl ihr =>
      rw [relocated, eval_binary, eval_binary, ihl, ihr]
      cases lhs.eval with
      | error r => rfl
      | ok a =>
          cases rhs.eval with
          | error r => rfl
          | ok b => exact RuntimeError.mapError_atOperator_relocated (op.apply a b) operator

end Reckon
