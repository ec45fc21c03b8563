import Reckon.Proofs.Expr.Image

/-!
# Places do not matter

Without its place, a token keeps its kind, its lexeme and its literal. From tokens without places the parser makes the
same tree as from the tokens themselves, or the same error, but for the places in it, and the tree comes to the same.
-/

namespace Reckon

def Token.unplaced (t : Token) : Token :=
  { t with line := 0, span := ⟨0, 0⟩ }

def CompileError.unplaced (e : CompileError) : CompileError :=
  { e with line := 0, span := ⟨0, 0⟩ }

def RuntimeError.unplaced (e : RuntimeError) : RuntimeError :=
  { e with line := 0, span := ⟨0, 0⟩ }

/-- The tree with its operators, its values and its tokens, but without their places. -/
def Expr.unplaced : Expr → Expr
  | .literal value token => .literal value token.unplaced
  | .grouping inner _ => .grouping inner.unplaced ⟨0, 0⟩
  | .unary op operator operand => .unary op operator.unplaced operand.unplaced
  | .binary op operator lhs rhs => .binary op operator.unplaced lhs.unplaced rhs.unplaced

/-- All places become the first one. -/
theorem Expr.unplaced_eq_relocated (e : Expr) : e.unplaced = e.relocated ⟨fun _ => 0, fun _ => 0, fun _ => 0⟩ := by
  induction e with
  | literal => rfl
  | grouping _ _ ih => rw [unplaced, ih]; rfl
  | unary _ _ _ ih => rw [unplaced, ih]; rfl
  | binary _ _ _ _ ihl ihr => rw [unplaced, ihl, ihr]; rfl

/-! ## Parsing -/

namespace Parser

theorem current_unplaced (ts : List Token) : current (ts.map .unplaced) = (current ts).unplaced := by
  cases ts <;> rfl

theorem advance_unplaced (ts : List Token) : advance (ts.map .unplaced) = (advance ts).map .unplaced := by
  rcases ts with _ | ⟨t, _ | ⟨u, ts⟩⟩ <;> rfl

def withoutPlaces : Image where
  tokens := List.map .unplaced
  places := ⟨fun _ => 0, fun _ => 0, fun _ => 0⟩
  current_tokens := current_unplaced
  advance_tokens := fun ts _ => advance_unplaced ts

theorem parse_unplaced (ts : List Token) :
    parse (ts.map .unplaced) = ((parse ts).map Expr.unplaced).mapError CompileError.unplaced := by
  rw [funext Expr.unplaced_eq_relocated]
  exact withoutPlaces.parse_tokens ts

end Parser

/-! ## Evaluation -/

theorem Expr.eval_unplaced (e : Expr) : e.unplaced.eval = e.eval.mapError RuntimeError.unplaced := by
  rw [unplaced_eq_relocated, eval_relocated]
  rfl

/-! ## The same but for places -/

theorem ends_alike {ε α : Type} {f : α → α} {g : ε → ε} {x y : Except ε α}
    (h : (y.map f).mapError g = (x.map f).mapError g) :
    (∃ a b, x = .ok a ∧ y = .ok b ∧ f b = f a) ∨ ∃ d e, x = .error d ∧ y = .error e ∧ g e = g d := by
  cases x with
  | ok a =>
      cases y with
      | ok b => exact .inl ⟨a, b, rfl, rfl, Except.ok.inj h⟩
      | error e => cases h
  | error d =>
      cases y with
      | ok b => cases h
      | error e => exact .inr ⟨d, e, rfl, rfl, Except.error.inj h⟩

/-- What the parser makes of tokens that are the same but for their places is the same but for places. -/
theorem Parser.parse_of_unplaced_eq {ts us : List Token} (h : us.map Token.unplaced = ts.map Token.unplaced) :
    (∃ a b, parse ts = .ok a ∧ parse us = .ok b ∧ b.unplaced = a.unplaced) ∨
      ∃ d e, parse ts = .error d ∧ parse us = .error e ∧ e.unplaced = d.unplaced :=
  ends_alike (by rw [← parse_unplaced, ← parse_unplaced, h])

/-- Trees that are the same but for places have the same value or fail for the same reason. -/
theorem Expr.eval_of_unplaced_eq {a b : Expr} (h : b.unplaced = a.unplaced) :
    (∃ v, a.eval = .ok v ∧ b.eval = .ok v) ∨ ∃ q r, a.eval = .error q ∧ b.eval = .error r ∧ r.fault = q.fault := by
  have heval : (b.eval.map id).mapError RuntimeError.unplaced = (a.eval.map id).mapError RuntimeError.unplaced := by
    rw [Except.map_id, id, id, ← eval_unplaced, ← eval_unplaced, h]
  rcases ends_alike heval with ⟨v, w, hv, hw, hvw⟩ | ⟨q, r, hq, hr, hqr⟩
  · obtain rfl : w = v := hvw
    exact .inl ⟨w, hv, hw⟩
  · exact .inr ⟨q, r, hq, hr, (RuntimeError.mk.inj hqr).1⟩

end Reckon
