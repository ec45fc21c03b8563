import Mathlib
import Reckon.Proofs.Expr.Limits
import Reckon.Proofs.Expr.Reading

/-!
# Where parsing fails

Unless it meets a limit, the parser fails where a reader that goes from token to token gets stuck: at the first token with
which no sentence goes on. The fault tells where the reader stands there, and the other way round.
-/

namespace Reckon

/-- Numbers and strings carry what they stand for. -/
def Token.CarriesLiteral (t : Token) : Prop :=
  (t.kind = .number → ∃ x, t.literal = some (.number x)) ∧ (t.kind = .string → ∃ s, t.literal = some (.string s))

theorem Token.CarriesLiteral.exists_value {t : Token} (h : t.CarriesLiteral) (ht : t.kind.isLiteral) :
    ∃ value, t.value? = some value := by
  obtain ⟨hn, hs⟩ := h
  cases hk : t.kind with
  | number =>
      obtain ⟨x, hx⟩ := hn hk
      exact ⟨.number x, by simp [Token.value?, hk, hx]⟩
  | string =>
      obtain ⟨s, hx⟩ := hs hk
      exact ⟨.string s, by simp [Token.value?, hk, hx]⟩
  | keyword word => cases word <;> simp_all [Kind.isLiteral, Token.value?]
  | _ => simp [hk, Kind.isLiteral] at ht

def Kind.beginsOperand (kind : Kind) : Bool :=
  kind == .leftParen || kind.isLiteral || kind.unaryOp?.isSome

/-! ## Getting stuck -/

/-- A reader cannot go on with a token of the kind, and this is the fault. -/
inductive Stuck (kind : Kind) : Reading → CompileFault → Prop where
  | expression {n} (h : kind.beginsOperand = false) : Stuck kind (.before n) .expectExpression
  | rightParen {n} (hb : kind.binaryOp? = none) (hp : kind ≠ .rightParen) : Stuck kind (.after (n + 1)) .expectRightParen
  | eof (hb : kind.binaryOp? = none) (he : kind ≠ .eof) : Stuck kind (.after 0) .expectEnd

/-- The error is at the token where a reader gets stuck. -/
def FailsAt (s : Reading) (ts : List Token) (err : CompileError) : Prop :=
  ∃ us t rest s', ts = us ++ t :: rest ∧ s.run? us = some s' ∧ Stuck t.kind s' err.fault ∧ err = .atToken t err.fault

theorem FailsAt.here {s : Reading} {t : Token} {ts : List Token} {fault : CompileFault} (h : Stuck t.kind s fault) :
    FailsAt s (t :: ts) (.atToken t fault) :=
  ⟨[], t, ts, s, rfl, rfl, h, rfl⟩

theorem FailsAt.later {s s' : Reading} {us ts : List Token} {err : CompileError} (h : FailsAt s' ts err)
    (hs : s.run? us = some s') : FailsAt s (us ++ ts) err := by
  obtain ⟨vs, t, rest, s'', rfl, hrun, hstuck, herr⟩ := h
  refine ⟨us ++ vs, t, rest, s'', by simp, ?_, hstuck, herr⟩
  rw [Reading.run?_append, hs]
  exact hrun

theorem FailsAt.step {s s' : Reading} {t : Token} {ts : List Token} {err : CompileError}
    (hs : s.step? t.kind = some s') (h : FailsAt s' ts err) : FailsAt s (t :: ts) err := by
  have hrun : s.run? [t] = some s' := Reading.run?_singleton.trans hs
  exact h.later hrun

namespace Parser

variable {height depth n : Nat} {level : Level} {next : Level → List Token → Result} {ts mid : List Token}
  {e : Expr} {err : CompileError}

theorem Front.run? (h : Front height depth e ts mid) : ∃ us, ts = us ++ mid ∧ (Reading.before n).run? us = some (.after n) := by
  obtain ⟨us, rfl, hy⟩ := h.yields
  exact ⟨us, rfl, Reading.run?_derives (hy.derives h.stratified)⟩

def Locates (next : Level → List Token → Result) : Prop :=
  ∀ level ts err n, HasEof ts → (∀ t ∈ ts, t.CarriesLiteral) → next level ts = .error err →
    err.fault ≠ .nestsTooDeeply → FailsAt (.before n) ts err

theorem head_locates (hsound : Sound height depth next) (hnext : Locates next) (hts : HasEof ts)
    (hlit : ∀ t ∈ ts, t.CarriesLiteral) (h : head next ts = .error err) (hf : err.fault ≠ .nestsTooDeeply) :
    FailsAt (.before n) ts err := by
  rcases head_eq_error h with ⟨hp, hi⟩ | ⟨inner, mid, hp, hi, hc, rfl⟩ | ⟨op, hu, hx⟩ | ⟨hl, hv, rfl⟩ | ⟨hp, hl, hu, rfl⟩
  · obtain ⟨hcons, hadv⟩ := hts.advance (by simp [hp])
    rw [hcons] at hlit ⊢
    exact .step (Reading.step?_leftParen hp) (hnext _ _ _ _ hadv (List.forall_mem_cons.mp hlit).2 hi hf)
  · obtain ⟨hcons, hadv⟩ := hts.advance (by simp [hp])
    obtain ⟨hfront, -, hstops⟩ := hsound _ _ _ _ hadv hi
    obtain ⟨us, hus, hrun⟩ := hfront.run? (n := n + 1)
    obtain ⟨c, mid, rfl⟩ := List.exists_cons_of_ne_nil (hfront.hasEof hadv).ne_nil
    rw [hcons, hus]
    exact .step (Reading.step?_leftParen hp) ((FailsAt.here (.rightParen hstops.binaryOp?_eq_none hc)).later hrun)
  · obtain ⟨hcons, hadv⟩ := hts.advance (by intro he; simp [he, Kind.unaryOp?] at hu)
    rw [hcons] at hlit ⊢
    exact .step (Reading.step?_unaryOp? hu) (hnext _ _ _ _ hadv (List.forall_mem_cons.mp hlit).2 hx hf)
  · -- a literal carries its value
    obtain ⟨t, ts, rfl⟩ := List.exists_cons_of_ne_nil hts.ne_nil
    obtain ⟨value, hvalue⟩ := (hlit t List.mem_cons_self).exists_value hl
    rw [current_cons, hvalue] at hv
    cases hv
  · obtain ⟨t, ts, rfl⟩ := List.exists_cons_of_ne_nil hts.ne_nil
    rw [current_cons] at hp hl hu
    exact .here (.expression (by simp [Kind.beginsOperand, hp, hl, hu]))

theorem chain_locates (hsound : Sound height depth next) (hnext : Locates next) {lhs : Expr} (hts : HasEof ts)
    (hlit : ∀ t ∈ ts, t.CarriesLiteral) (h : chain next height level lhs ts = .error err)
    (hf : err.fault ≠ .nestsTooDeeply) : FailsAt (.after n) ts err := by
  fun_induction chain next height level lhs ts with
  | case1 | case5 => cases h
  | case2 lhs ts t op ho hle err' herr =>
      cases h
      obtain ⟨hcons, hadv⟩ := hts.advance (by intro he; simp [t, he, Kind.binaryOp?] at ho)
      rw [hcons] at hlit ⊢
      exact .step (Reading.step?_binaryOp? ho) (hnext _ _ _ _ hadv (List.forall_mem_cons.mp hlit).2 herr hf)
  | case3 lhs ts t op ho hle rhs mid hr hh =>
      cases h
      exact absurd rfl hf
  | case4 lhs ts t op ho hle rhs mid hr hh ih =>
      obtain ⟨hcons, hadv⟩ := hts.advance (by intro he; simp [t, he, Kind.binaryOp?] at ho)
      obtain ⟨hfront, -, -⟩ := hsound _ _ _ _ hadv hr
      obtain ⟨us, hus, hrun⟩ := hfront.run? (n := n)
      rw [hcons, hus] at hlit ⊢
      have hmid : ∀ t ∈ mid, t.CarriesLiteral := fun t ht => hlit t (by simp [ht])
      exact .step (Reading.step?_binaryOp? ho) ((ih (hfront.hasEof hadv) hmid h).later hrun)

theorem operand_locates (height depth : Nat) : Locates (operand height depth) := by
  induction depth with
  | zero =>
      intro level ts err n _ _ h hf
      cases h
      exact absurd rfl hf
  | succ depth ih =>
      intro level ts err n hts hlit h hf
      have hsound := operand_sound height depth
      rcases operand_succ_eq_error.mp h with hh | ⟨lhs, mid, hh, hc⟩
      · exact head_locates hsound ih hts hlit hh hf
      · obtain ⟨hfront, -⟩ := head_sound hsound hts hh
        obtain ⟨us, rfl, hrun⟩ := hfront.run? (n := n)
        have hmid : ∀ t ∈ mid, t.CarriesLiteral := fun t ht => hlit t (by simp [ht])
        exact (chain_locates hsound ih (hfront.hasEof hts) hmid hc hf).later hrun

theorem parse_failsAt (hts : HasEof ts) (hlit : ∀ t ∈ ts, t.CarriesLiteral) (h : parse ts = .error err)
    (hf : err.fault ≠ .nestsTooDeeply) : FailsAt (.before 0) ts err := by
  rcases parseWithin_eq_error h with h | ⟨e, rest, hread, he, rfl⟩
  · exact operand_locates _ _ _ _ _ _ hts hlit h hf
  · obtain ⟨hfront, -, hstops⟩ := operand_sound _ _ _ _ _ _ hts hread
    obtain ⟨us, rfl, hrun⟩ := hfront.run? (n := 0)
    obtain ⟨t, rest, rfl⟩ := List.exists_cons_of_ne_nil (hfront.hasEof hts).ne_nil
    exact (FailsAt.here (.eof hstops.binaryOp?_eq_none he)).later hrun

end Parser

/-! ## What the fault says -/

namespace Reading

variable {s : Reading} {t : Token} {ts : List Token}

theorem isSome_step?_before {n : Nat} : ((before n).step? t.kind).isSome ↔ t.kind.beginsOperand := by
  simp only [step?, Kind.beginsOperand]
  split
  · simp_all
  split
  · simp_all
  split <;> simp_all

theorem not_viable_of_stuck {fault : CompileFault} (h : (before 0).run? ts = some s) (hs : Stuck t.kind s fault) :
    ¬ Viable (ts ++ [t]) := by
  rw [viable_concat_iff h]
  cases hs with
  | expression hb =>
      rintro (hstep | ⟨heq, -⟩)
      · rw [isSome_step?_before, hb] at hstep
        cases hstep
      · cases heq
  | rightParen hb hp => simp [step?, hb, hp]
  | eof hb he => simp [step?, hb, he]

end Reading

/-- A sentence is refused for a limit only. -/
theorem Parser.nestsTooDeeply_of_sentence {ts : List Token} {err : CompileError} (hts : Sentence ts)
    (hlit : ∀ t ∈ ts, t.CarriesLiteral) (h : parse ts = .error err) : err.fault = .nestsTooDeeply := by
  refine Classical.byContradiction fun hf => ?_
  have hend : HasEof ts := by
    obtain ⟨us, eof, -, he, rfl⟩ := hts
    exact ⟨eof, by simp, he⟩
  obtain ⟨pre, t, post, s, rfl, hrun, hstuck, -⟩ := parse_failsAt hend hlit h hf
  exact Reading.not_viable_of_stuck hrun hstuck ⟨_, hts, ⟨post, by simp⟩⟩

end Reckon
