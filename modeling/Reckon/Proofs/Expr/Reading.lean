import Reckon.Proofs.Expr.Ladder

/-!
# Where a reader stands

Read from left to right, the tokens of an expression come in turn: either an operand has to come, or one was read and
operators and closing parentheses may follow. `Reading` is this alternative with the number of parentheses that are open.
A reader goes on from token to token without looking at levels, and it gets stuck exactly at the first token with which no
sentence goes on (`viable_iff`).
-/

namespace Reckon

/-- Where a reader stands inside `n` open parentheses: before an operand, or after one. -/
inductive Reading where
  | before (n : Nat)
  | after (n : Nat)
deriving DecidableEq, Repr

namespace Reading

def parens : Reading → Nat
  | before n => n
  | after n => n

/-- Where the reader stands after a token of the given kind, if this token may come. -/
def step? : Reading → Kind → Option Reading
  | before n, kind =>
      if kind = .leftParen then some (before (n + 1))
      else if kind.isLiteral then some (after n)
      else if kind.unaryOp?.isSome then some (before n)
      else none
  | after n, kind =>
      if kind.binaryOp?.isSome then some (before n)
      else if kind = .rightParen then
        match n with
        | 0 => none
        | n + 1 => some (after n)
      else none

def run? (s : Reading) : List Token → Option Reading
  | [] => some s
  | t :: ts => (s.step? t.kind).bind fun s => s.run? ts

inductive Step (t : Token) : Reading → Reading → Prop where
  | leftParen {n} (h : t.kind = .leftParen) : Step t (before n) (before (n + 1))
  | literal {n} (h : t.kind.isLiteral) : Step t (before n) (after n)
  | unary {n op} (h : t.kind.unaryOp? = some op) : Step t (before n) (before n)
  | binary {n op} (h : t.kind.binaryOp? = some op) : Step t (after n) (before n)
  | rightParen {n} (h : t.kind = .rightParen) : Step t (after (n + 1)) (after n)

variable {s s' : Reading} {n : Nat} {t : Token} {ts us : List Token}

/-! ## Steps -/

theorem step?_leftParen (h : t.kind = .leftParen) : (before n).step? t.kind = some (before (n + 1)) := by
  simp [step?, h]

theorem step?_isLiteral (h : t.kind.isLiteral) : (before n).step? t.kind = some (after n) := by
  have hp : t.kind ≠ .leftParen := by
    intro hp
    simp [hp, Kind.isLiteral] at h
  simp [step?, hp, h]

theorem step?_unaryOp? {op} (h : t.kind.unaryOp? = some op) : (before n).step? t.kind = some (before n) := by
  revert h
  cases hk : t.kind <;> simp [Kind.unaryOp?, step?, Kind.isLiteral]

theorem step?_binaryOp? {op} (h : t.kind.binaryOp? = some op) : (after n).step? t.kind = some (before n) := by
  simp [step?, h]

theorem step?_rightParen (h : t.kind = .rightParen) : (after (n + 1)).step? t.kind = some (after n) := by
  simp [step?, h, Kind.binaryOp?]

theorem step_of_step? (h : s.step? t.kind = some s') : Step t s s' := by
  cases s with
  | before n =>
      simp only [step?] at h
      split at h
      · rename_i hp
        cases h
        exact .leftParen hp
      split at h
      · rename_i hl
        cases h
        exact .literal hl
      split at h
      · rename_i hu
        cases h
        obtain ⟨op, ho⟩ := Option.isSome_iff_exists.mp hu
        exact .unary ho
      · cases h
  | after n =>
      simp only [step?] at h
      split at h
      · rename_i hb
        cases h
        obtain ⟨op, ho⟩ := Option.isSome_iff_exists.mp hb
        exact .binary ho
      split at h
      · rename_i hp
        cases n with
        | zero => cases h
        | succ n =>
            cases h
            exact .rightParen hp
      · cases h

theorem run?_append : s.run? (ts ++ us) = (s.run? ts).bind fun s => s.run? us := by
  induction ts generalizing s with
  | nil => rfl
  | cons t ts ih =>
      simp only [List.cons_append, run?, Option.bind_assoc]
      congr 1
      funext s
      exact ih

theorem run?_singleton : s.run? [t] = s.step? t.kind := by
  simp [run?]

theorem run?_concat : s.run? (ts ++ [t]) = (s.run? ts).bind fun s => s.step? t.kind := by
  rw [run?_append]
  congr 1
  funext s
  exact run?_singleton

/-- An expression brings the reader from before it to behind it. -/
theorem run?_derives {level} (h : Derives level ts) : (before n).run? ts = some (after n) := by
  induction h generalizing n with
  | literal ht => rw [run?_singleton, step?_isLiteral ht]
  | grouping ho _ hc ih =>
      rw [run?, step?_leftParen ho, Option.bind_some, run?_concat, ih, Option.bind_some, step?_rightParen hc]
  | unary ho _ ih => rw [run?, step?_unaryOp? ho, Option.bind_some, ih]
  | binary ho _ _ ihl ihr =>
      rw [run?_append, ihl, Option.bind_some, run?, step?_binaryOp? ho, Option.bind_some, ihr]
  | above _ ih => exact ih

/-- The tokens read so far are the beginning of a sentence that fits where the reader stands. -/
def Fits : Reading → List Token → Prop
  | before n, ts => ∃ outer lead, Opened n outer ∧ Lead lead ∧ ts = outer ++ lead
  | after n, ts => ∃ outer us, Opened n outer ∧ Derives .equality us ∧ ts = outer ++ us

theorem Fits.step (h : s.Fits ts) (hs : s.step? t.kind = some s') : s'.Fits (ts ++ [t]) := by
  cases step_of_step? hs with
  | leftParen hk =>
      obtain ⟨outer, lead, ho, hl, rfl⟩ := h
      exact ⟨outer ++ lead ++ [t], [], .paren ho hl hk, .start, by simp⟩
  | literal hk =>
      obtain ⟨outer, lead, ho, hl, rfl⟩ := h
      exact ⟨outer, lead ++ [t], ho, hl.fill (.literal hk), by simp⟩
  | unary hk =>
      obtain ⟨outer, lead, ho, hl, rfl⟩ := h
      exact ⟨outer, lead ++ [t], ho, .unary hl hk, by simp⟩
  | binary hk =>
      obtain ⟨outer, us, ho, hu, rfl⟩ := h
      exact ⟨outer, us ++ [t], ho, .binary hu hk, by simp⟩
  | rightParen hk =>
      obtain ⟨outer, us, ho, hu, rfl⟩ := h
      cases ho with
      | @paren n outer lead opening ho hl hopen =>
          exact ⟨outer, lead ++ opening :: (us ++ [t]), ho, hl.fill (.grouping hopen hu hk), by simp⟩

theorem Fits.run (h : s.Fits ts) (hs : s.run? us = some s') : s'.Fits (ts ++ us) := by
  induction us generalizing s ts with
  | nil =>
      cases hs
      simpa using h
  | cons u us ih =>
      obtain ⟨m, hm, hrun⟩ := Option.bind_eq_some_iff.mp hs
      simpa using ih (h.step hm) hrun

theorem fits_of_run? (h : (before 0).run? ts = some s) : s.Fits ts := by
  have h0 : (before 0).Fits [] := ⟨[], [], .start, .start, rfl⟩
  exact h0.run h

theorem Fits.viable (h : s.Fits ts) : Viable ts := by
  cases s with
  | before n =>
      obtain ⟨outer, lead, ho, hl, rfl⟩ := h
      exact ho.viable_lead hl
  | after n =>
      obtain ⟨outer, us, ho, hu, rfl⟩ := h
      exact ho.viable hu

theorem derives_of_run? (h : (before 0).run? ts = some (after 0)) : Derives .equality ts := by
  obtain ⟨outer, us, ho, hu, rfl⟩ := fits_of_run? h
  cases ho
  exact hu

/-- A sentence goes on wherever the reader can, and ends behind an expression with no parenthesis open. -/
theorem viable_concat_iff (h : (before 0).run? ts = some s) :
    Viable (ts ++ [t]) ↔ (s.step? t.kind).isSome ∨ s = after 0 ∧ t.kind = .eof := by
  constructor
  · rintro ⟨_, ⟨us, eof, hu, he, rfl⟩, hp⟩
    rcases List.prefix_concat_iff.mp hp with heq | ⟨vs, rfl⟩
    · obtain ⟨rfl, heof⟩ := List.append_inj' heq rfl
      obtain rfl := List.singleton_inj.mp heof
      rw [run?_derives hu] at h
      exact .inr ⟨(Option.some.inj h).symm, he⟩
    · have hrun := run?_derives (n := 0) hu
      rw [run?_append, run?_concat, h] at hrun
      obtain ⟨m, hm, -⟩ := Option.bind_eq_some_iff.mp hrun
      exact .inl (Option.isSome_of_eq_some hm)
  · rintro (hs | ⟨rfl, he⟩)
    · obtain ⟨m, hm⟩ := Option.isSome_iff_exists.mp hs
      exact ((fits_of_run? h).step hm).viable
    · exact ⟨ts ++ [t], ⟨ts, t, derives_of_run? h, he, rfl⟩, List.prefix_refl _⟩

end Reading
end Reckon
