import Reckon.Token.Scanner

/-!
# A source as its pieces

`Piece.cut` takes the first piece off a text until nothing is left. A scanner goes over these pieces, so that scanning is
to place each piece behind the ones before it and to collect the tokens and the errors (`scan_eq`).
-/

namespace Reckon

open Text

namespace Piece

def cut : List Char → List Piece
  | [] => []
  | c :: cs => (first c cs).1 :: cut (first c cs).2
termination_by cs => cs.length
decreasing_by exact length_first_lt c cs

def texts (ps : List Piece) : List Char := ps.flatMap text

@[simp] theorem texts_nil : texts [] = [] := rfl

@[simp] theorem texts_cons (p : Piece) (ps : List Piece) : texts (p :: ps) = p.text ++ texts ps := rfl

@[simp] theorem texts_append (ps qs : List Piece) : texts (ps ++ qs) = texts ps ++ texts qs := by
  simp [texts]

theorem cut_cons (c : Char) (cs : List Char) : cut (c :: cs) = (first c cs).1 :: cut (first c cs).2 := by
  rw [cut]

theorem texts_cut (cs : List Char) : texts (cut cs) = cs := by
  fun_induction cut cs with
  | case1 => rfl
  | case2 c cs ih => rw [texts_cons, ih, first_append]

/-! ## Placed pieces -/

/-- The token of a piece that begins at the given offset on the given line, if it is one. -/
def token? (p : Piece) (offset line : Nat) : Option Token :=
  match p.content with
  | .token kind literal =>
      some ⟨kind, String.ofList p.text, literal, line + lineBreaks p.text, ⟨offset, offset + byteLength p.text⟩⟩
  | _ => none

def error? (p : Piece) (offset line : Nat) : Option CompileError :=
  match p.content with
  | .fault fault => some (.lexical (line + lineBreaks p.text) ⟨offset, offset + byteLength p.text⟩ fault)
  | _ => none

theorem of_token?_eq_some {p : Piece} {offset line : Nat} {t : Token} (h : p.token? offset line = some t) :
    p.content = .token t.kind t.literal ∧
      t = ⟨t.kind, String.ofList p.text, t.literal, line + lineBreaks p.text, ⟨offset, offset + byteLength p.text⟩⟩ := by
  obtain ⟨text, content⟩ := p
  cases content <;> cases h
  exact ⟨rfl, rfl⟩

theorem of_error?_eq_some {p : Piece} {offset line : Nat} {e : CompileError} (h : p.error? offset line = some e) :
    p.content = .fault e.fault ∧
      e = .lexical (line + lineBreaks p.text) ⟨offset, offset + byteLength p.text⟩ e.fault := by
  obtain ⟨text, content⟩ := p
  cases content <;> cases h
  exact ⟨rfl, rfl⟩

/-- What the pieces give, each one in its place, when the first one begins at the given offset on the given line. -/
def collect {α : Type} (f : Piece → Nat → Nat → Option α) (offset line : Nat) : List Piece → List α
  | [] => []
  | p :: ps => (f p offset line).toList ++ collect f (offset + byteLength p.text) (line + lineBreaks p.text) ps

section
variable {α : Type} {f : Piece → Nat → Nat → Option α} {offset line : Nat} {ps qs : List Piece}

theorem collect_append : collect f offset line (ps ++ qs) =
    collect f offset line ps ++ collect f (offset + byteLength (texts ps)) (line + lineBreaks (texts ps)) qs := by
  induction ps generalizing offset line with
  | nil => simp [collect, lineBreaks]
  | cons p ps ih => simp [collect, ih, Nat.add_assoc]

/-- What was collected comes from one of the pieces, and what stands before and after it from the others. -/
theorem exists_of_collect_eq {as bs : List α} {a : α} (h : collect f offset line ps = as ++ a :: bs) :
    ∃ before p after, ps = before ++ p :: after ∧
      f p (offset + byteLength (texts before)) (line + lineBreaks (texts before)) = some a ∧
      collect f offset line before = as ∧
      collect f (offset + byteLength (texts (before ++ [p]))) (line + lineBreaks (texts (before ++ [p]))) after = bs := by
  induction ps generalizing offset line as with
  | nil => cases as <;> cases h
  | cons p ps ih =>
      have behind {as' : List α} (has : (f p offset line).toList ++ as' = as)
          (h' : collect f (offset + byteLength p.text) (line + lineBreaks p.text) ps = as' ++ a :: bs) :
          ∃ before q after, p :: ps = before ++ q :: after ∧
            f q (offset + byteLength (texts before)) (line + lineBreaks (texts before)) = some a ∧
            collect f offset line before = as ∧
            collect f (offset + byteLength (texts (before ++ [q]))) (line + lineBreaks (texts (before ++ [q]))) after = bs := by
        obtain ⟨before, q, after, rfl, hq, rfl, rfl⟩ := ih h'
        refine ⟨p :: before, q, after, rfl, ?_, has, ?_⟩
        · simpa [Nat.add_assoc] using hq
        · simp [Nat.add_assoc]
      rw [collect] at h
      cases hp : f p offset line with
      | none =>
          rw [hp] at h
          exact behind (by simp [hp]) h
      | some x =>
          rw [hp] at h
          cases as with
          | nil =>
              obtain ⟨rfl, rfl⟩ := List.cons.inj h
              exact ⟨[], p, ps, rfl, by simpa [lineBreaks] using hp, rfl, by simp⟩
          | cons y as =>
              obtain ⟨rfl, htail⟩ := List.cons.inj h
              exact behind (by simp [hp]) htail

theorem exists_of_mem_collect {a : α} (h : a ∈ collect f offset line ps) :
    ∃ before p after, ps = before ++ p :: after ∧
      f p (offset + byteLength (texts before)) (line + lineBreaks (texts before)) = some a := by
  obtain ⟨as, bs, h⟩ := List.append_of_mem h
  obtain ⟨before, p, after, hps, hp, -, -⟩ := exists_of_collect_eq h
  exact ⟨before, p, after, hps, hp⟩

end

abbrev tokens : Nat → Nat → List Piece → List Token := collect token?

abbrev errors : Nat → Nat → List Piece → List CompileError := collect error?

end Piece

/-! ## Places -/

theorem Text.length_breakEnds (start : Nat) (cs : List Char) : (breakEnds start cs).length = lineBreaks cs := by
  induction cs generalizing start with
  | nil => rfl
  | cons c cs ih =>
      simp only [breakEnds, lineBreaks, List.count_cons]
      split <;> simp_all [lineBreaks]

namespace Position

theorem after_cons (p : Position) (c : Char) (cs : List Char) : p.after (c :: cs) = (p.pass c).after cs := rfl

theorem after_append (p : Position) (as bs : List Char) : p.after (as ++ bs) = (p.after as).after bs := by
  simp [after]

theorem after_eq (p : Position) (cs : List Char) :
    p.after cs = ⟨p.offset + byteLength cs, p.lineStarts ++ (breakEnds p.offset cs).toArray⟩ := by
  induction cs generalizing p with
  | nil => simp [after, breakEnds]
  | cons c cs ih =>
      rw [after_cons, ih]
      by_cases hc : c = '\n' <;> simp [pass, breakEnds, hc, Nat.add_assoc]

theorem offset_after (p : Position) (cs : List Char) : (p.after cs).offset = p.offset + byteLength cs := by
  rw [after_eq]

theorem line_after {p : Position} (hp : 0 < p.lineStarts.size) (cs : List Char) :
    (p.after cs).line = p.line + lineBreaks cs := by
  have := length_breakEnds p.offset cs
  simp only [line, after_eq, Array.size_append, List.size_toArray]
  omega

theorem size_after {p : Position} (hp : 0 < p.lineStarts.size) (cs : List Char) : 0 < (p.after cs).lineStarts.size := by
  rw [after_eq, Array.size_append]
  omega

theorem start_after (cs : List Char) : start.after cs = ⟨byteLength cs, (Text.lineStarts cs).toArray⟩ := by
  rw [after_eq]
  simp [start, Text.lineStarts]

end Position

/-! ## Scanning -/

namespace Scanner

def tokens (s : Scanner) : List Token := Piece.tokens s.here.offset s.here.line (Piece.cut s.rest)

/-- The errors found so far and those yet to find. -/
def allErrors (s : Scanner) : List CompileError :=
  s.errors.toList ++ Piece.errors s.here.offset s.here.line (Piece.cut s.rest)

/-- The second scanner goes on where the first one has come to, or further on. -/
structure Follows (s t : Scanner) : Prop where
  lines : 0 < t.here.lineStarts.size
  errors : t.allErrors = s.allErrors
  ending : t.here.after t.rest = s.here.after s.rest

theorem Follows.trans {s t u : Scanner} (hst : Follows s t) (htu : Follows t u) : Follows s u :=
  ⟨htu.lines, htu.errors.trans hst.errors, htu.ending.trans hst.ending⟩

theorem pass_here (s : Scanner) (p : Piece) (rest : List Char) : (s.pass p rest).2.here = s.here.after p.text := by
  obtain ⟨_, here, errors⟩ := s
  simp only [pass]
  split <;> rfl

theorem pass_span (s : Scanner) (p : Piece) (rest : List Char) :
    (s.pass p rest).1 = ⟨s.here.offset, s.here.offset + byteLength p.text⟩ := by
  obtain ⟨_, here, errors⟩ := s
  simp only [pass]
  split <;> simp [Position.offset_after]

theorem pass_errors {s : Scanner} (hs : 0 < s.here.lineStarts.size) (p : Piece) (rest : List Char) :
    (s.pass p rest).2.errors.toList = s.errors.toList ++ (p.error? s.here.offset s.here.line).toList := by
  obtain ⟨_, here, errors⟩ := s
  have hline := Position.line_after hs p.text
  rw [Piece.error?]
  cases h : p.content <;> simp [pass, h, hline, Position.offset_after]

theorem pass_follows {s : Scanner} {c : Char} {cs : List Char} (hs : 0 < s.here.lineStarts.size) (hr : s.rest = c :: cs) :
    Follows s (s.pass (Piece.first c cs).1 (Piece.first c cs).2).2 where
  lines := by
    rw [pass_here]
    exact Position.size_after hs _
  errors := by
    rw [allErrors, allErrors, pass_errors hs, pass_here, pass_rest, hr, Piece.cut_cons]
    simp [Piece.errors, Piece.collect, Position.offset_after, Position.line_after hs]
  ending := by
    rw [pass_here, pass_rest, ← Position.after_append, Piece.first_append, hr]

theorem tokens_eq {s : Scanner} {c : Char} {cs : List Char} (hs : 0 < s.here.lineStarts.size) (hr : s.rest = c :: cs) :
    s.tokens = ((Piece.first c cs).1.token? s.here.offset s.here.line).toList ++
      (s.pass (Piece.first c cs).1 (Piece.first c cs).2).2.tokens := by
  rw [tokens, tokens, pass_here, pass_rest, hr, Piece.cut_cons]
  simp [Piece.tokens, Piece.collect, Position.offset_after, Position.line_after hs]

theorem of_next?_eq_some {s t : Scanner} {token : Token} (hs : 0 < s.here.lineStarts.size)
    (h : s.next? = (some token, t)) : s.tokens = token :: t.tokens ∧ Follows s t := by
  fun_induction next? s with
  | case1 s hr => cases h
  | case2 s c cs hr found passed kind literal hc =>
      obtain ⟨htoken, rfl⟩ := Prod.mk.inj h
      refine ⟨?_, pass_follows hs hr⟩
      rw [tokens_eq hs hr, ← Option.some.inj htoken]
      simp [Piece.token?, found, passed, hc, pass_here, pass_span, Position.line_after hs]
  | case3 s c cs hr found passed hc ih =>
      have hp : Follows s passed.2 := pass_follows hs hr
      obtain ⟨htokens, ht⟩ := ih hp.lines h
      refine ⟨?_, hp.trans ht⟩
      rw [tokens_eq hs hr, ← htokens]
      simp [Piece.token?, found, passed]

theorem of_next?_eq_none {s t : Scanner} (hs : 0 < s.here.lineStarts.size) (h : s.next? = (none, t)) :
    s.tokens = [] ∧ t.rest = [] ∧ Follows s t := by
  fun_induction next? s with
  | case1 s hr =>
      obtain ⟨-, rfl⟩ := Prod.mk.inj h
      exact ⟨by rw [tokens, hr, Piece.cut, Piece.tokens, Piece.collect], hr, hs, rfl, rfl⟩
  | case2 s c cs hr found passed kind literal hc => cases h
  | case3 s c cs hr found passed hc ih =>
      have hp : Follows s passed.2 := pass_follows hs hr
      obtain ⟨htokens, hrest, ht⟩ := ih hp.lines h
      refine ⟨?_, hrest, hp.trans ht⟩
      rw [tokens_eq hs hr, htokens]
      simp [Piece.token?, found]

theorem finishAfter_eq {s : Scanner} (hs : 0 < s.here.lineStarts.size) (found : List Token) :
    s.finishAfter found =
      { tokens := found.reverse ++ (s.tokens ++ [.eof (s.here.after s.rest).line (s.here.after s.rest).offset])
        errors := s.allErrors
        lines := ⟨(s.here.after s.rest).lineStarts, (s.here.after s.rest).offset⟩ } := by
  fun_induction finishAfter found s with
  | case1 found s token t h ih =>
      obtain ⟨htokens, ht⟩ := of_next?_eq_some hs h
      rw [ih ht.lines, htokens, ht.errors, ht.ending]
      simp
  | case2 found s t h =>
      obtain ⟨htokens, hrest, ht⟩ := of_next?_eq_none hs h
      have hending : s.here.after s.rest = t.here := by rw [← ht.ending, hrest, Position.after, List.foldl_nil]
      have herrors : s.allErrors = t.errors.toList := by
        rw [← ht.errors, allErrors, hrest, Piece.cut, Piece.errors, Piece.collect, List.append_nil]
      rw [hending, herrors, htokens]
      simp [eof]

end Scanner

/-- Scanning places the pieces of the source one behind the other. -/
theorem scan_eq (source : String) :
    scan source =
      { tokens := Piece.tokens 0 0 (Piece.cut source.toList) ++
          [.eof (lineBreaks source.toList) (byteLength source.toList)]
        errors := Piece.errors 0 0 (Piece.cut source.toList)
        lines := .ofText source.toList } := by
  have hstart : 0 < Position.start.lineStarts.size := by decide
  have hline := Position.line_after hstart source.toList
  rw [scan, Scanner.finish, Scanner.finishAfter_eq hstart]
  simp only [Scanner.ofSource]
  rw [hline, Position.start_after]
  simp [Scanner.tokens, Scanner.allErrors, LineTable.ofText, Position.start, Position.line]

theorem lines_scan (source : String) : (scan source).lines = .ofText source.toList := by
  rw [scan_eq]

end Reckon
