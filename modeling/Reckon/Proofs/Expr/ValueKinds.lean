import Reckon.Expr.Eval

/-!
# Kinds of values

The kinds of the literals alone settle how the evaluation of a tree ends. `Expr.kind?` finds the kind of its value without
a value, and where a tree has no kind, the first of its operators whose operands do not suit it is what evaluation reports.
-/

namespace Reckon

inductive ValueKind where
  | number | string | boolean | nil
deriving DecidableEq, Repr

def Value.kind : Value → ValueKind
  | .number _ => .number
  | .string _ => .string
  | .boolean _ => .boolean
  | .nil => .nil

/-! ## Operators -/

/-- The kind of what the operator makes of an operand, if the operand suits it. -/
def UnaryOp.kind? : UnaryOp → ValueKind → Option ValueKind
  | .not, _ => some .boolean
  | .negate, .number => some .number
  | .negate, _ => none

def BinaryOp.kind? : BinaryOp → ValueKind → ValueKind → Option ValueKind
  | .eq, _, _ | .ne, _, _ => some .boolean
  | .gt, .number, .number | .gtEq, .number, .number | .lt, .number, .number | .ltEq, .number, .number => some .boolean
  | .add, .number, .number | .sub, .number, .number | .mul, .number, .number | .div, .number, .number => some .number
  | .add, .string, .string => some .string
  | _, _, _ => none

theorem UnaryOp.apply_cases (op : UnaryOp) (v : Value) :
    (∃ w, op.apply v = .ok w ∧ op.kind? v.kind = some w.kind) ∨
      op.apply v = .error .operandNotNumber ∧ op.kind? v.kind = none := by
  cases op with
  | not => exact .inl ⟨_, rfl, rfl⟩
  | negate =>
      cases v with
      | number x => exact .inl ⟨_, rfl, rfl⟩
      | _ => exact .inr ⟨rfl, rfl⟩

theorem BinaryOp.apply_cases (op : BinaryOp) (a b : Value) :
    (∃ w, op.apply a b = .ok w ∧ op.kind? a.kind b.kind = some w.kind) ∨
      op.apply a b = .error .operandsNotNumbers ∧ op.kind? a.kind b.kind = none := by
  cases op with
  | eq => exact .inl ⟨_, rfl, rfl⟩
  | ne => exact .inl ⟨_, rfl, rfl⟩
  | _ =>
      -- the pairs of kinds, of which two numbers suit every operator and two strings suit addition
      cases a <;> cases b
      all_goals first
        | exact .inl ⟨_, rfl, rfl⟩
        | exact .inr ⟨rfl, rfl⟩

namespace Expr

/-! ## Trees -/

/-- The kind of the value, if the operands of every operator suit it. -/
def kind? : Expr → Option ValueKind
  | .literal value _ => some value.kind
  | .grouping inner _ => inner.kind?
  | .unary op _ operand => operand.kind?.bind op.kind?
  | .binary op _ lhs rhs => lhs.kind?.bind fun j => rhs.kind?.bind fun k => op.kind? j k

/-- The error of an operator whose operands have kinds, but do not suit it. -/
def misfit? : Expr → Option RuntimeError
  | .unary op operator operand =>
      operand.kind?.bind fun k =>
        if op.kind? k = none then some (.atOperator operator .operandNotNumber) else none
  | .binary op operator lhs rhs =>
      lhs.kind?.bind fun j => rhs.kind?.bind fun k =>
        if op.kind? j k = none then some (.atOperator operator .operandsNotNumbers) else none
  | _ => none

/-- All nodes, each one after what is below it, left before right. -/
def postorder : Expr → List Expr
  | .literal value token => [.literal value token]
  | .grouping inner span => inner.postorder ++ [.grouping inner span]
  | .unary op operator operand => operand.postorder ++ [.unary op operator operand]
  | .binary op operator lhs rhs => lhs.postorder ++ rhs.postorder ++ [.binary op operator lhs rhs]

/-- The error of the first operator, from the left and from below, whose operands do not suit it. -/
def firstMisfit? (e : Expr) : Option RuntimeError :=
  e.postorder.findSome? misfit?

section
variable {op : UnaryOp} {bop : BinaryOp} {operator : Token} {inner lhs rhs : Expr} {span : Span}

@[simp] theorem firstMisfit?_grouping : (Expr.grouping inner span).firstMisfit? = inner.firstMisfit? := by
  simp [firstMisfit?, postorder, misfit?]

theorem firstMisfit?_unary : (Expr.unary op operator inner).firstMisfit? =
    inner.firstMisfit?.or (Expr.unary op operator inner).misfit? := by
  simp [firstMisfit?, postorder]

theorem firstMisfit?_binary : (Expr.binary bop operator lhs rhs).firstMisfit? =
    lhs.firstMisfit?.or (rhs.firstMisfit?.or (Expr.binary bop operator lhs rhs).misfit?) := by
  simp [firstMisfit?, postorder]

end

/-- The two ways for evaluation to end, each with what the kinds alone say. -/
theorem eval_cases (e : Expr) :
    (∃ v, e.eval = .ok v ∧ e.kind? = some v.kind ∧ e.firstMisfit? = none) ∨
      ∃ r, e.eval = .error r ∧ e.kind? = none ∧ e.firstMisfit? = some r := by
  induction e with
  | literal value token => exact .inl ⟨value, rfl, rfl, rfl⟩
  | grouping inner span ih => simpa [eval, kind?] using ih
  | unary op operator operand ih =>
      rw [eval_unary, firstMisfit?_unary, kind?, misfit?]
      rcases ih with ⟨v, hv, hk, hm⟩ | ⟨r, hr, hk, hm⟩
      · simp only [hv, hk, hm, Option.bind_some, Option.none_or]
        rcases op.apply_cases v with ⟨w, ha, ho⟩ | ⟨ha, ho⟩
        · rw [ha, ho]
          exact .inl ⟨w, rfl, rfl, rfl⟩
        · rw [ha, ho]
          exact .inr ⟨.atOperator operator .operandNotNumber, rfl, rfl, rfl⟩
      · simp only [hr, hk, hm, Option.bind_none, Option.some_or]
        exact .inr ⟨r, rfl, trivial, rfl⟩
  | binary op operator lhs rhs ihl ihr =>
      rw [eval_binary, firstMisfit?_binary, kind?, misfit?]
      rcases ihl with ⟨a, ha, hj, hma⟩ | ⟨r, hr, hj, hm⟩
      · simp only [ha, hj, hma, Option.bind_some, Option.none_or]
        rcases ihr with ⟨b, hb, hk, hmb⟩ | ⟨r, hr, hk, hm⟩
        · simp only [hb, hk, hmb, Option.bind_some, Option.none_or]
          rcases op.apply_cases a b with ⟨w, hw, ho⟩ | ⟨hw, ho⟩
          · rw [hw, ho]
            exact .inl ⟨w, rfl, rfl, rfl⟩
          · rw [hw, ho]
            exact .inr ⟨.atOperator operator .operandsNotNumbers, rfl, rfl, rfl⟩
        · simp only [hr, hk, hm, Option.bind_none, Option.some_or]
          exact .inr ⟨r, rfl, trivial, rfl⟩
      · simp only [hr, hj, hm, Option.bind_none, Option.some_or]
        exact .inr ⟨r, rfl, trivial, rfl⟩

/-! ## Trees with literals of the same kinds -/

/-- The trees have the same operators, at the same tokens, and literals of the same kinds in the same places. -/
inductive SameKinds : Expr → Expr → Prop where
  | literal {v w : Value} {t u : Token} (h : v.kind = w.kind) : SameKinds (.literal v t) (.literal w u)
  | grouping {a b : Expr} {s t : Span} (h : SameKinds a b) : SameKinds (.grouping a s) (.grouping b t)
  | unary {op : UnaryOp} {operator : Token} {a b : Expr} (h : SameKinds a b) :
      SameKinds (.unary op operator a) (.unary op operator b)
  | binary {op : BinaryOp} {operator : Token} {a b c d : Expr} (hl : SameKinds a b) (hr : SameKinds c d) :
      SameKinds (.binary op operator a c) (.binary op operator b d)

namespace SameKinds
variable {a b : Expr}

theorem kind?_eq (h : SameKinds a b) : a.kind? = b.kind? := by
  induction h with
  | literal h => simp [kind?, h]
  | grouping _ ih => simpa [kind?] using ih
  | unary _ ih => simp [kind?, ih]
  | binary _ _ ihl ihr => simp [kind?, ihl, ihr]

theorem firstMisfit?_eq (h : SameKinds a b) : a.firstMisfit? = b.firstMisfit? := by
  induction h with
  | literal _ => rfl
  | grouping _ ih => simpa using ih
  | unary h ih => simp [firstMisfit?_unary, misfit?, h.kind?_eq, ih]
  | binary hl hr ihl ihr => simp [firstMisfit?_binary, misfit?, hl.kind?_eq, hr.kind?_eq, ihl, ihr]

end SameKinds

/--
Evaluation ends in the same way for trees with literals of the same kinds. It gives a value exactly for a tree with a kind,
which is that of the value, and otherwise the error of the first operator whose operands do not suit it.
-/
theorem eval_decided_by_kinds :
    (∀ a b, SameKinds a b →
      (∃ v w, a.eval = .ok v ∧ b.eval = .ok w ∧ v.kind = w.kind) ∨ ∃ r, a.eval = .error r ∧ b.eval = .error r) ∧
    (∀ (e : Expr) k, (∃ v, e.eval = .ok v ∧ v.kind = k) ↔ e.kind? = some k) ∧
    ∀ (e : Expr) r, e.eval = .error r ↔ e.firstMisfit? = some r := by
  refine ⟨fun a b h => ?_, fun e k => ?_, fun e r => ?_⟩
  · have hk := h.kind?_eq
    have hm := h.firstMisfit?_eq
    rcases a.eval_cases with ⟨v, hv, hkv, -⟩ | ⟨r, hr, hkr, hmr⟩
    · rcases b.eval_cases with ⟨w, hw, hkw, -⟩ | ⟨r, -, hkr, -⟩
      · rw [hkv, hkw] at hk
        exact .inl ⟨v, w, hv, hw, Option.some.inj hk⟩
      · simp [hkv, hkr] at hk
    · rcases b.eval_cases with ⟨w, -, hkw, -⟩ | ⟨r', hr', -, hmr'⟩
      · simp [hkr, hkw] at hk
      · rw [hmr, hmr'] at hm
        obtain rfl := Option.some.inj hm
        exact .inr ⟨r, hr, hr'⟩
  · rcases e.eval_cases with ⟨v, hv, hk, -⟩ | ⟨r, hr, hk, -⟩
    · simp [hv, hk]
    · simp [hr, hk]
  · rcases e.eval_cases with ⟨v, hv, -, hm⟩ | ⟨r', hr, -, hm⟩
    · simp [hv, hm]
    · simp [hr, hm]

/-- Both `!(1 / 0) - "s"` and `!(8 / 2) - ""` stop at the minus sign, whatever the division comes to. -/
theorem eval_decided_by_kinds_division :
    let minus : Token := ⟨.minus, "-", none, 0, ⟨9, 10⟩⟩
    let tree (x y : Float) (s : String) : Expr :=
      .binary .sub minus
        (.unary .not default (.grouping (.binary .div default (.literal (.number x) default)
          (.literal (.number y) default)) default))
        (.literal (.string s) default)
    let error : RuntimeError := ⟨.operandsNotNumbers, 0, ⟨9, 10⟩⟩
    SameKinds (tree 1 0 "s") (tree 8 2 "") ∧ (tree 1 0 "s").eval = .error error ∧ (tree 8 2 "").eval = .error error := by
  intro minus tree error
  have hnumber (x y : Float) : SameKinds (.literal (.number x) default) (.literal (.number y) default) := .literal rfl
  have h : SameKinds (tree 1 0 "s") (tree 8 2 "") :=
    .binary (.unary (.grouping (.binary (hnumber 1 8) (hnumber 0 2)))) (.literal rfl)
  have herror : (tree 1 0 "s").eval = .error error := by
    refine (eval_decided_by_kinds.2.2 (tree 1 0 "s") error).mpr ?_
    simp [tree, firstMisfit?, postorder, List.findSome?, misfit?, kind?, Value.kind, UnaryOp.kind?, BinaryOp.kind?, error,
      minus, RuntimeError.atOperator]
  refine ⟨h, herror, ?_⟩
  rcases eval_decided_by_kinds.1 _ _ h with ⟨v, w, hv, -, -⟩ | ⟨r, hr, hr'⟩
  · rw [herror] at hv
    cases hv
  · rw [herror] at hr
    obtain rfl := Except.error.inj hr
    exact hr'

end Expr
end Reckon
