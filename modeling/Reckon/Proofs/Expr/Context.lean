import Reckon.Proofs.Expr.Relocation

/-!
# A node and what is around it

A node of a tree is the tree that fills a hole in the rest of it. Filled with something else that binds as tightly, the
rest still is a tree of its tokens, and what it comes to depends on what the filling comes to alone.
-/

namespace Reckon.Expr

/-- A tree with a hole in the place of one of its nodes. -/
inductive Context where
  | hole
  | grouping (inner : Context) (span : Span)
  | unary (op : UnaryOp) (operator : Token) (operand : Context)
  | left (op : BinaryOp) (operator : Token) (lhs : Context) (rhs : Expr)
  | right (op : BinaryOp) (operator : Token) (lhs : Expr) (rhs : Context)

namespace Context

def plug : Context → Expr → Expr
  | .hole, n => n
  | .grouping inner span, n => .grouping (inner.plug n) span
  | .unary op operator operand, n => .unary op operator (operand.plug n)
  | .left op operator lhs rhs, n => .binary op operator (lhs.plug n) rhs
  | .right op operator lhs rhs, n => .binary op operator lhs (rhs.plug n)

/-- How many nodes are above the hole. -/
def depth : Context → Nat
  | .hole => 0
  | .grouping inner _ => inner.depth + 1
  | .unary _ _ operand => operand.depth + 1
  | .left _ _ lhs _ => lhs.depth + 1
  | .right _ _ _ rhs => rhs.depth + 1

def relocated (r : Relocation) : Context → Context
  | .hole => .hole
  | .grouping inner span => .grouping (inner.relocated r) (span.relocated r)
  | .unary op operator operand => .unary op (operator.relocated r) (operand.relocated r)
  | .left op operator lhs rhs => .left op (operator.relocated r) (lhs.relocated r) (rhs.relocated r)
  | .right op operator lhs rhs => .right op (operator.relocated r) (lhs.relocated r) (rhs.relocated r)

variable {c : Context} {m n : Expr} {ts : List Token} {r : Relocation}

theorem relocated_plug (c : Context) (n : Expr) : (c.plug n).relocated r = (c.relocated r).plug (n.relocated r) := by
  induction c with
  | hole => rfl
  | grouping _ _ ih => simp [plug, relocated, Expr.relocated, ih]
  | unary _ _ _ ih => simp [plug, relocated, Expr.relocated, ih]
  | left _ _ _ _ ih => simp [plug, relocated, Expr.relocated, ih]
  | right _ _ _ _ ih => simp [plug, relocated, Expr.relocated, ih]

/-! ## Nodes -/

theorem mem_nodesFrom_plug (c : Context) (n : Expr) (k : Nat) : (k + c.depth, n) ∈ (c.plug n).nodesFrom k := by
  induction c generalizing k with
  | hole => cases n <;> exact List.mem_cons_self
  | grouping _ _ ih | unary _ _ _ ih =>
      have := ih (k + 1)
      simp only [plug, depth, nodesFrom]
      refine List.mem_cons_of_mem _ ?_
      rwa [← Nat.add_assoc, Nat.add_right_comm]
  | left _ _ _ _ ih | right _ _ _ _ ih =>
      have := ih (k + 1)
      simp only [plug, depth, nodesFrom]
      refine List.mem_cons_of_mem _ (List.mem_append.mpr ?_)
      rw [← Nat.add_assoc, Nat.add_right_comm]
      simp [this]

theorem exists_of_mem_nodesFrom {e : Expr} {d k : Nat} (h : (d, n) ∈ e.nodesFrom k) :
    ∃ c : Context, k + c.depth = d ∧ c.plug n = e := by
  induction e generalizing k with
  | literal value token =>
      obtain ⟨rfl, rfl⟩ := Prod.mk.inj (List.mem_singleton.mp h)
      exact ⟨.hole, rfl, rfl⟩
  | grouping inner span ih =>
      rcases List.mem_cons.mp h with h | h
      · obtain ⟨rfl, rfl⟩ := Prod.mk.inj h
        exact ⟨.hole, rfl, rfl⟩
      · obtain ⟨c, rfl, rfl⟩ := ih h
        exact ⟨.grouping c span, by simp only [depth]; omega, rfl⟩
  | unary op operator operand ih =>
      rcases List.mem_cons.mp h with h | h
      · obtain ⟨rfl, rfl⟩ := Prod.mk.inj h
        exact ⟨.hole, rfl, rfl⟩
      · obtain ⟨c, rfl, rfl⟩ := ih h
        exact ⟨.unary op operator c, by simp only [depth]; omega, rfl⟩
  | binary op operator lhs rhs ihl ihr =>
      rcases List.mem_cons.mp h with h | h
      · obtain ⟨rfl, rfl⟩ := Prod.mk.inj h
        exact ⟨.hole, rfl, rfl⟩
      rcases List.mem_append.mp h with h | h
      · obtain ⟨c, rfl, rfl⟩ := ihl h
        exact ⟨.left op operator c rhs, by simp only [depth]; omega, rfl⟩
      · obtain ⟨c, rfl, rfl⟩ := ihr h
        exact ⟨.right op operator lhs c, by simp only [depth]; omega, rfl⟩

/-- The nodes of a tree are what it has in a hole, each at the depth of the hole. -/
theorem mem_nodes_iff {e : Expr} {d : Nat} : (d, n) ∈ e.nodes ↔ ∃ c : Context, c.depth = d ∧ c.plug n = e := by
  constructor
  · intro h
    obtain ⟨c, hd, hc⟩ := exists_of_mem_nodesFrom h
    exact ⟨c, by rw [← hd, Nat.zero_add], hc⟩
  · rintro ⟨c, rfl, rfl⟩
    have := mem_nodesFrom_plug c n 0
    rwa [Nat.zero_add] at this

/-! ## Another filling -/

theorem rank_level_plug (c : Context) (h : n.level.rank ≤ m.level.rank) :
    (c.plug n).level.rank ≤ (c.plug m).level.rank := by
  cases c with
  | hole => exact h
  | _ => exact Nat.le_refl _

/-- What binds as tightly as the node, or more tightly, may stand in its place. -/
theorem stratified_plug (h : n.level.rank ≤ m.level.rank) (hm : m.Stratified) (hn : (c.plug n).Stratified) :
    (c.plug m).Stratified := by
  induction c with
  | hole => exact hm
  | grouping _ _ ih => exact ih hn
  | unary op operator c ih =>
      obtain ⟨hlevel, hn⟩ := hn
      have := rank_level_plug c h
      rw [hlevel] at this
      exact ⟨level_eq_unary this, ih hn⟩
  | left op operator c rhs ih =>
      obtain ⟨hl, hr, hn, hrhs⟩ := hn
      exact ⟨Nat.le_trans hl (rank_level_plug c h), hr, ih hn, hrhs⟩
  | right op operator lhs c ih =>
      obtain ⟨hl, hr, hlhs, hn⟩ := hn
      exact ⟨hl, Nat.lt_of_lt_of_le hr (rank_level_plug c h), hlhs, ih hn⟩

theorem eval_plug (c : Context) (h : m.eval = n.eval) : (c.plug m).eval = (c.plug n).eval := by
  induction c with
  | hole => exact h
  | grouping _ _ ih => exact ih
  | unary _ _ _ ih => simp only [plug, eval_unary, ih]
  | left _ _ _ _ ih => simp only [plug, eval_binary, ih]
  | right _ _ _ _ ih => simp only [plug, eval_binary, ih]

/-! ## Tokens -/

/-- The tokens before the hole and those after it. -/
inductive Between : Context → List Token → List Token → Prop where
  | hole : Between .hole [] []
  | grouping {opening closing c before after} (ho : opening.kind = .leftParen) (hi : Between c before after)
      (hc : closing.kind = .rightParen) :
      Between (.grouping c ⟨opening.span.start, closing.span.stop⟩) (opening :: before) (after ++ [closing])
  | unary {op operator c before after} (ho : operator.kind.unaryOp? = some op) (hx : Between c before after) :
      Between (.unary op operator c) (operator :: before) after
  | left {op operator c rhs before after us} (ho : operator.kind.binaryOp? = some op) (hl : Between c before after)
      (hr : Yields rhs us) : Between (.left op operator c rhs) before (after ++ operator :: us)
  | right {op operator lhs c before after ts} (ho : operator.kind.binaryOp? = some op) (hl : Yields lhs ts)
      (hr : Between c before after) : Between (.right op operator lhs c) (ts ++ operator :: before) after

theorem Between.plug {before us after : List Token} (h : Between c before after) (hn : Yields n us) :
    Yields (c.plug n) (before ++ us ++ after) := by
  induction h with
  | hole => simpa [Context.plug] using hn
  | grouping ho _ hc ih => simpa [Context.plug] using Yields.grouping ho ih hc
  | unary ho _ ih => exact .unary ho ih
  | left ho _ hr ih => simpa [Context.plug] using Yields.binary ho ih hr
  | right ho hl _ ih => simpa [Context.plug] using Yields.binary ho hl ih

/-- The tokens of the node stand between those of the rest. -/
theorem exists_between (h : Yields (c.plug n) ts) :
    ∃ before us after, ts = before ++ us ++ after ∧ Between c before after ∧ Yields n us := by
  induction c generalizing ts with
  | hole => exact ⟨[], ts, [], by simp, .hole, h⟩
  | grouping c span ih =>
      cases h with
      | @grouping opening closing inner vs ho hi hc =>
          obtain ⟨before, us, after, rfl, hbetween, hn⟩ := ih hi
          exact ⟨opening :: before, us, after ++ [closing], by simp, .grouping ho hbetween hc, hn⟩
  | unary op operator c ih =>
      cases h with
      | unary ho hx =>
          obtain ⟨before, us, after, rfl, hbetween, hn⟩ := ih hx
          exact ⟨operator :: before, us, after, by simp, .unary ho hbetween, hn⟩
  | left op operator c rhs ih =>
      cases h with
      | @binary _ _ _ _ vs ws ho hl hr =>
          obtain ⟨before, us, after, rfl, hbetween, hn⟩ := ih hl
          exact ⟨before, us, after ++ operator :: ws, by simp, .left ho hbetween hr, hn⟩
  | right op operator lhs c ih =>
      cases h with
      | @binary _ _ _ _ vs ws ho hl hr =>
          obtain ⟨before, us, after, rfl, hbetween, hn⟩ := ih hr
          exact ⟨vs ++ operator :: before, us, after, by simp, .right ho hl hbetween, hn⟩

theorem Between.relocated {before after : List Token} (h : Between c before after) :
    Between (c.relocated r) (before.map (·.relocated r)) (after.map (·.relocated r)) := by
  induction h with
  | hole => exact .hole
  | @grouping opening closing c before after ho _ hc ih =>
      rw [List.map_cons, List.map_append, List.map_singleton]
      show Between (.grouping (c.relocated r) ⟨(opening.relocated r).span.start, (closing.relocated r).span.stop⟩) _ _
      exact .grouping ho ih hc
  | unary ho _ ih => exact .unary ho ih
  | left ho _ hr ih =>
      rw [List.map_append, List.map_cons]
      exact .left ho ih hr.relocated
  | right ho hl _ ih =>
      rw [List.map_append, List.map_cons]
      exact .right ho hl.relocated ih

end Context
end Reckon.Expr
