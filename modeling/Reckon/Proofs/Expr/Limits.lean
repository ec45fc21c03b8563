import Reckon.Proofs.Expr.Steps
import Reckon.Proofs.Expr.Yield

/-!
# What the parser reads

An operand read at a level is the front of the tokens that is a stratified tree within the limits, whose top does not
bind less tightly than the level, and after which no operator of the level follows. The parser reads nothing else, and it
finds such a front wherever there is one (`operand_eq_ok_iff`).

Soundness goes along the recursion of the parser. For completeness the statement is generalised to what follows: after a
tree at the front, an operand goes on as the chain of operators behind this tree does (`operand_eq_chain`).
-/

namespace Reckon.Parser

/-- `e` stands at the front of `ts`, with `rest` after it and no operator there that binds more tightly than `e` does. -/
structure Front (height depth : Nat) (e : Expr) (ts rest : List Token) : Prop where
  yields : ∃ us, ts = us ++ rest ∧ Yields e us
  stratified : e.Stratified
  need : e.need ≤ depth
  sides : e.SidesBelow height
  follow : ∀ op, (current rest).kind.binaryOp? = some op → op.level.rank ≤ e.level.rank

variable {height depth : Nat} {level : Level} {ts mid rest : List Token} {e : Expr}

/-! ## Fronts -/

namespace Front

theorem hasEof (h : Front height depth e ts rest) (hts : HasEof ts) : HasEof rest := by
  obtain ⟨us, rfl, hy⟩ := h.yields
  exact hts.of_append hy.ne_eof

theorem literal {value t} (hv : t.value? = some value) : Front height (depth + 1) (.literal value t) (t :: rest) rest where
  yields := ⟨[t], rfl, .literal hv⟩
  stratified := trivial
  need := by simp [Expr.need]
  sides := trivial
  follow := fun op _ => Nat.le_of_lt op.rank_lt_unary

theorem grouping {opening closing inner} (ho : opening.kind = .leftParen)
    (hi : Front height depth inner ts (closing :: rest)) (hc : closing.kind = .rightParen) :
    Front height (depth + 1) (.grouping inner ⟨opening.span.start, closing.span.stop⟩) (opening :: ts) rest where
  yields := by
    obtain ⟨us, rfl, hy⟩ := hi.yields
    exact ⟨opening :: (us ++ [closing]), by simp, .grouping ho hy hc⟩
  stratified := hi.stratified
  need := by have := hi.need; simp only [Expr.need]; omega
  sides := hi.sides
  follow := fun op _ => Nat.le_of_lt op.rank_lt_unary

theorem unary {op operator operand} (ho : operator.kind.unaryOp? = some op) (hx : Front height depth operand ts rest)
    (hl : operand.level = .unary) : Front height (depth + 1) (.unary op operator operand) (operator :: ts) rest where
  yields := by
    obtain ⟨us, rfl, hy⟩ := hx.yields
    exact ⟨operator :: us, rfl, .unary ho hy⟩
  stratified := ⟨hl, hx.stratified⟩
  need := by have := hx.need; simp only [Expr.need]; omega
  sides := hx.sides
  follow := fun op _ => Nat.le_of_lt op.rank_lt_unary

theorem binary {op operator lhs rhs} (ho : operator.kind.binaryOp? = some op)
    (hl : Front height (depth + 1) lhs ts (operator :: mid)) (hr : Front height depth rhs mid rest)
    (hlevel : op.level.above.rank ≤ rhs.level.rank) (hstops : Stops op.level.above rest)
    (hh : max lhs.height rhs.height < height) : Front height (depth + 1) (.binary op operator lhs rhs) ts rest where
  yields := by
    obtain ⟨us, rfl, hy⟩ := hl.yields
    obtain ⟨vs, rfl, hz⟩ := hr.yields
    exact ⟨us ++ operator :: vs, by simp, .binary ho hy hz⟩
  stratified := by
    rw [BinaryOp.rank_above] at hlevel
    exact ⟨hl.follow op ho, hlevel, hl.stratified, hr.stratified⟩
  need := by have := hl.need; have := hr.need; simp only [Expr.need]; omega
  sides := ⟨⟨by omega, by omega⟩, hl.sides, hr.sides⟩
  follow := by
    intro op' ho'
    have := hstops op' ho'
    rw [BinaryOp.rank_above] at this
    exact Nat.le_of_lt_succ this

end Front

/-! ## Soundness -/

/-- What a reader of operands promises, if operands may be nested `depth` deep. -/
def Sound (height depth : Nat) (next : Level → List Token → Result) : Prop :=
  ∀ level ts e rest, HasEof ts → next level ts = .ok (e, rest) →
    Front height depth e ts rest ∧ level.rank ≤ e.level.rank ∧ Stops level rest

variable {next : Level → List Token → Result}

theorem head_sound (hnext : Sound height depth next) (hts : HasEof ts) (h : head next ts = .ok (e, rest)) :
    Front height (depth + 1) e ts rest ∧ e.level = .unary := by
  rcases head_eq_ok h with ⟨inner, mid, hp, hi, hc, rfl, rfl⟩ | ⟨value, hv, rfl, rfl⟩ | ⟨op, x, hu, hx, rfl⟩
  · obtain ⟨hcons, hadv⟩ := hts.advance (by simp [hp])
    obtain ⟨hf, -, -⟩ := hnext _ _ _ _ hadv hi
    obtain ⟨hmid, -⟩ := (hf.hasEof hadv).advance (by simp [hc])
    rw [hmid] at hf
    rw [hcons]
    exact ⟨.grouping hp hf hc, rfl⟩
  · obtain ⟨hcons, -⟩ := hts.advance ((Yields.literal hv).ne_eof _ List.mem_cons_self)
    have hf : Front height (depth + 1) (.literal value (current ts)) (current ts :: advance ts) (advance ts) := .literal hv
    rw [← hcons] at hf
    exact ⟨hf, rfl⟩
  · obtain ⟨hcons, hadv⟩ := hts.advance (by intro he; simp [he, Kind.unaryOp?] at hu)
    obtain ⟨hf, hlevel, -⟩ := hnext _ _ _ _ hadv hx
    rw [hcons]
    exact ⟨.unary hu hf (Expr.level_eq_unary hlevel), rfl⟩

theorem chain_sound (hnext : Sound height depth next) {lhs : Expr} (hts : HasEof mid)
    (hf : Front height (depth + 1) lhs ts mid) (hl : level.rank ≤ lhs.level.rank)
    (h : chain next height level lhs mid = .ok (e, rest)) :
    Front height (depth + 1) e ts rest ∧ level.rank ≤ e.level.rank ∧ Stops level rest := by
  fun_induction chain next height level lhs mid with
  | case1 lhs mid t hn =>
      obtain ⟨rfl, rfl⟩ := Prod.mk.inj (Except.ok.inj h)
      exact ⟨hf, hl, stops_of_none hn⟩
  | case2 lhs mid t op ho hle err herr => cases h
  | case3 lhs mid t op ho hle rhs rest' hr hh => cases h
  | case4 lhs mid t op ho hle rhs rest' hr hh ih =>
      obtain ⟨hcons, hadv⟩ := hts.advance (by intro he; simp [t, he, Kind.binaryOp?] at ho)
      obtain ⟨hfr, hlr, hstops⟩ := hnext _ _ _ _ hadv hr
      rw [hcons] at hf
      exact ih (hfr.hasEof hadv) (.binary ho hf hfr hlr hstops (by omega)) hle h
  | case5 lhs mid t op ho hle =>
      obtain ⟨rfl, rfl⟩ := Prod.mk.inj (Except.ok.inj h)
      refine ⟨hf, hl, fun op' ho' => ?_⟩
      obtain rfl : op = op' := Option.some.inj (ho.symm.trans ho')
      omega

theorem operand_sound (height depth : Nat) : Sound height depth (operand height depth) := by
  induction depth with
  | zero => intro level ts e rest _ h; cases h
  | succ depth ih =>
      intro level ts e rest hts h
      obtain ⟨lhs, mid, hh, hc⟩ := operand_succ_eq_ok.mp h
      obtain ⟨hf, hl⟩ := head_sound ih hts hh
      exact chain_sound ih (hf.hasEof hts) hf (hl ▸ level.rank_le_unary) hc

/-! ## Completeness -/

/-- Reading goes past a tree at the front and goes on with the chain behind it. -/
theorem operand_eq_chain {us : List Token} (hy : Yields e us) (hs : e.Stratified) (hsides : e.SidesBelow height)
    (hneed : e.need ≤ depth + 1) (hlevel : level.rank ≤ e.level.rank) (hrest : HasEof rest)
    (hfollow : ∀ op, (current rest).kind.binaryOp? = some op → op.level.rank ≤ e.level.rank) :
    operand height (depth + 1) level (us ++ rest) = chain (operand height depth) height level e rest := by
  induction hy generalizing depth level rest with
  | @literal value t hv =>
      rw [operand_succ, List.singleton_append, head_of_isLiteral (Token.isLiteral_of_value? hv) hrest.ne_nil, hv]
  | @grouping opening closing inner us ho hi hc ih =>
      have hn : ((current (closing :: rest)).kind.binaryOp?) = none := by simp [hc, Kind.binaryOp?]
      have hclosing : HasEof (closing :: rest) := hasEof_cons.mpr (.inr hrest)
      have hneed : inner.need ≤ depth := by simp only [Expr.need] at hneed; omega
      obtain ⟨depth, rfl⟩ := Expr.exists_succ_of_need_le hneed
      have hinner : operand height (depth + 1) .equality (us ++ closing :: rest) = .ok (inner, closing :: rest) := by
        rw [ih hs hsides hneed (Nat.zero_le _) hclosing (fun op ho => by rw [hn] at ho; cases ho)]
        exact chain_of_stops (stops_of_none hn)
      have happ : opening :: (us ++ [closing]) ++ rest = opening :: (us ++ closing :: rest) := by simp
      rw [operand_succ, happ, head_of_leftParen ho (by simp), hinner]
      simp only [current_cons, hc, ↓reduceIte, advance_cons hrest.ne_nil]
  | @unary op operator x us ho hx ih =>
      obtain ⟨hl, hs⟩ := hs
      have hneed : x.need ≤ depth := by simp only [Expr.need] at hneed; omega
      obtain ⟨depth, rfl⟩ := Expr.exists_succ_of_need_le hneed
      have hoperand : operand height (depth + 1) .unary (us ++ rest) = .ok (x, rest) := by
        rw [ih hs hsides hneed (hl ▸ Nat.le_refl _) hrest (fun op _ => hl ▸ Nat.le_of_lt op.rank_lt_unary)]
        exact chain_of_stops (stops_unary rest)
      rw [operand_succ, List.cons_append, head_of_unaryOp? ho (by simp [hrest.ne_nil]), hoperand]
  | @binary op operator lhs rhs us vs ho hl hr ihl ihr =>
      obtain ⟨hol, hor, hsl, hsr⟩ := hs
      obtain ⟨⟨hhl, hhr⟩, hsidesl, hsidesr⟩ := hsides
      have hneedl : lhs.need ≤ depth + 1 := by simp only [Expr.need] at hneed; omega
      have hneedr : rhs.need ≤ depth := by simp only [Expr.need] at hneed; omega
      obtain ⟨depth, rfl⟩ := Expr.exists_succ_of_need_le hneedr
      have hvs : HasEof (vs ++ rest) := by
        obtain ⟨t, ht, he⟩ := hrest
        exact ⟨t, List.mem_append_right _ ht, he⟩
      have hrhs : operand height (depth + 1) op.level.above (vs ++ rest) = .ok (rhs, rest) := by
        rw [ihr hsr hsidesr hneedr (by rw [BinaryOp.rank_above]; exact hor) hrest
          (fun op' ho' => Nat.le_of_lt (Nat.lt_of_le_of_lt (hfollow op' ho') hor))]
        refine chain_of_stops fun op' ho' => ?_
        rw [BinaryOp.rank_above]
        exact Nat.lt_succ_of_le (hfollow op' ho')
      have happ : us ++ operator :: vs ++ rest = us ++ operator :: (vs ++ rest) := by simp
      rw [happ, ihl hsl hsidesl hneedl (Nat.le_trans hlevel hol) (hasEof_cons.mpr (.inr hvs))]
      · rw [chain_of_binaryOp? ho hlevel hvs.ne_nil, hrhs]
        exact if_neg (by omega)
      · intro op' ho'
        obtain rfl : op = op' := Option.some.inj (ho.symm.trans ho')
        exact hol

theorem operand_eq_ok_iff (hts : HasEof ts) :
    operand height depth level ts = .ok (e, rest) ↔
      Front height depth e ts rest ∧ level.rank ≤ e.level.rank ∧ Stops level rest := by
  constructor
  · exact operand_sound height depth level ts e rest hts
  · rintro ⟨hf, hlevel, hstops⟩
    obtain ⟨us, rfl, hy⟩ := hf.yields
    obtain ⟨depth, rfl⟩ := Expr.exists_succ_of_need_le hf.need
    rw [operand_eq_chain hy hf.stratified hf.sides hf.need hlevel (hf.hasEof hts) hf.follow]
    exact chain_of_stops hstops

/-! ## Tokens that never end -/

def Keeps (Q : List Token → Prop) (next : Level → List Token → Result) : Prop :=
  ∀ level ts e rest, Q ts → next level ts = .ok (e, rest) → Q rest

section
variable {Q : List Token → Prop} (hQ : ∀ ts, Q ts → Q (advance ts))
include hQ

theorem head_keeps (hnext : Keeps Q next) (hts : Q ts) (h : head next ts = .ok (e, rest)) : Q rest := by
  rcases head_eq_ok h with ⟨inner, mid, -, hi, -, -, rfl⟩ | ⟨value, -, -, rfl⟩ | ⟨op, x, -, hx, -⟩
  · exact hQ _ (hnext _ _ _ _ (hQ _ hts) hi)
  · exact hQ _ hts
  · exact hnext _ _ _ _ (hQ _ hts) hx

theorem chain_keeps (hnext : Keeps Q next) {lhs : Expr} (hts : Q ts)
    (h : chain next height level lhs ts = .ok (e, rest)) : Q rest := by
  fun_induction chain next height level lhs ts with
  | case1 | case5 =>
      obtain ⟨-, rfl⟩ := Prod.mk.inj (Except.ok.inj h)
      exact hts
  | case2 | case3 => cases h
  | case4 lhs ts t op ho hle rhs mid hr hh ih => exact ih (hnext _ _ _ _ (hQ _ hts) hr) h

/-- Reading moves on by `advance` alone, so it keeps what this keeps. -/
theorem operand_keeps (height depth : Nat) : Keeps Q (operand height depth) := by
  induction depth with
  | zero => intro level ts e rest _ h; cases h
  | succ depth ih =>
      intro level ts e rest hts h
      obtain ⟨lhs, mid, hh, hc⟩ := operand_succ_eq_ok.mp h
      exact chain_keeps hQ ih (head_keeps hQ ih hts hh) hc

end

/-- Tokens without an end are no source: the last one of them is met for ever. -/
theorem HasEof.of_parseWithin {nesting : Nat} (h : parseWithin nesting height ts = .ok e) : HasEof ts := by
  obtain ⟨rest, h, he⟩ := parseWithin_eq_ok.mp h
  cases ts with
  | nil =>
      cases nesting with
      | zero => cases h
      | succ depth => cases h
  | cons t ts =>
      refine Classical.byContradiction fun hne => ?_
      have hQ : ∀ ts, (ts ≠ [] ∧ ¬ HasEof ts) → advance ts ≠ [] ∧ ¬ HasEof (advance ts) := by
        rintro (_ | ⟨t, _ | ⟨u, ts⟩⟩) ⟨hnil, hno⟩
        · exact absurd rfl hnil
        · exact ⟨hnil, hno⟩
        · exact ⟨by simp [advance], fun h => hno (hasEof_cons.mpr (.inr h))⟩
      obtain ⟨hnil, hno⟩ := operand_keeps hQ height nesting _ _ _ _ ⟨by simp, hne⟩ h
      obtain ⟨u, us, rfl⟩ := List.exists_cons_of_ne_nil hnil
      exact hno (hasEof_cons.mpr (.inl he))

/-! ## Whole sources -/

theorem parseWithin_eq_ok_iff {nesting : Nat} :
    parseWithin nesting height ts = .ok e ↔
      HasEof ts ∧ e.Stratified ∧ Yields e (beforeEof ts) ∧ e.need ≤ nesting ∧ e.SidesBelow height := by
  constructor
  · intro h
    have hts := HasEof.of_parseWithin h
    obtain ⟨rest, h, he⟩ := parseWithin_eq_ok.mp h
    obtain ⟨hf, -, -⟩ := (operand_eq_ok_iff hts).mp h
    obtain ⟨us, rfl, hy⟩ := hf.yields
    rw [beforeEof_append hy.ne_eof he]
    exact ⟨hts, hf.stratified, hy, hf.need, hf.sides⟩
  · rintro ⟨hts, hs, hy, hneed, hsides⟩
    obtain ⟨eof, rest, heq, he⟩ := hts.split
    have hn : (current (eof :: rest)).kind.binaryOp? = none := by simp [he, Kind.binaryOp?]
    refine parseWithin_eq_ok.mpr ⟨eof :: rest, (operand_eq_ok_iff hts).mpr ⟨?_, Nat.zero_le _, stops_of_none hn⟩, he⟩
    exact ⟨⟨beforeEof ts, heq, hy⟩, hs, hneed, hsides, fun op ho => by rw [hn] at ho; cases ho⟩

theorem eq_of_yields {a b : Expr} {us : List Token} (ha : a.Stratified) (hb : b.Stratified) (hya : Yields a us)
    (hyb : Yields b us) : a = b := by
  have heof : beforeEof (us ++ [Token.eof 0 0]) = us := beforeEof_append hya.ne_eof rfl
  have hread : ∀ {e : Expr}, e.Stratified → Yields e us → e.need ≤ max a.need b.need →
      e.height ≤ max a.height b.height →
      parseWithin (max a.need b.need) (max a.height b.height) (us ++ [Token.eof 0 0]) = .ok e := by
    intro e hs hy hn hh
    refine parseWithin_eq_ok_iff.mpr ⟨⟨Token.eof 0 0, by simp, rfl⟩, hs, ?_, hn, e.sidesBelow_height.mono hh⟩
    rwa [heof]
  have h := hread ha hya (by omega) (by omega)
  rw [hread hb hyb (by omega) (by omega)] at h
  exact (Except.ok.inj h).symm

end Reckon.Parser
