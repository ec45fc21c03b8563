import Reckon.Proofs.Expr.Faults
import Reckon.Proofs.Expr.Relayout
import Reckon.Proofs.Token.Parens

/-!
# Redundant parentheses

Parentheses around a node of an expression make a grouping of it and change nothing else. The expression comes to the same,
unless it is refused because it now nests too deeply.
-/

namespace Reckon

open Text Piece

/-! ## Sources -/

/-- The source with parentheses around a part of it. -/
def parenthesized (source : String) (s : Span) : String :=
  String.ofList <| slice source.toList 0 s.start ++ '(' :: (slice source.toList s.start s.stop ++
    ')' :: slice source.toList s.stop (byteLength source.toList))

/-- What begins or ends behind a parenthesis is moved by one byte for it. -/
def Relocation.parens (s : Span) : Relocation where
  start place := place + (if s.start ≤ place then 1 else 0) + (if s.stop ≤ place then 1 else 0)
  stop place := place + (if s.start < place then 1 else 0) + (if s.stop < place then 1 else 0)
  line := id

/-- The tree with a grouping around the node in the hole, all places as they are in the source with the parentheses. -/
def Expr.Context.grouped (c : Context) (n : Expr) : Expr :=
  (c.relocated (.parens n.span)).plug (.grouping (n.relocated (.parens n.span)) ⟨n.start, n.stop + 2⟩)

variable {pre window post : List Piece} {cs : List Char} {source : String} {c : Expr.Context} {n : Expr}

theorem toList_parenthesized (hcut : cut source.toList = pre ++ window ++ post) :
    (parenthesized source ⟨byteLength (texts pre), byteLength (texts (pre ++ window))⟩).toList =
      texts (pre ++ opening :: (window ++ closing :: post)) := by
  have hsource : source.toList = texts pre ++ texts window ++ texts post := by
    rw [← texts_cut source.toList, hcut, texts_append, texts_append]
  have hfront : slice source.toList 0 (byteLength (texts pre)) = texts pre := by
    rw [hsource, List.append_assoc, slice_prefix]
  have hwindow : slice source.toList (byteLength (texts pre)) (byteLength (texts (pre ++ window))) = texts window := by
    rw [hsource, texts_append, byteLength_append, slice_append]
  have hback : slice source.toList (byteLength (texts (pre ++ window))) (byteLength source.toList) = texts post := by
    rw [hsource, texts_append, slice_suffix]
  rw [parenthesized, String.toList_ofList]
  dsimp only
  rw [hfront, hwindow, hback]
  simp [opening, closing]

/-! ## Places -/

theorem Token.relocated_eq_moved {r : Relocation} {t : Token} {bytes : Nat}
    (hstart : r.start t.span.start = t.span.start + bytes) (hstop : r.stop t.span.stop = t.span.stop + bytes)
    (hline : r.line t.line = t.line) : t.relocated r = t.moved bytes 0 := by
  simp [Token.relocated, Span.relocated, Token.moved, Span.moved, hstart, hstop, hline]

/-- In front of the parentheses nothing moves, between them everything moves by one byte, and behind them by two. -/
theorem Token.relocated_parens {s : Span} {t : Token} (hs : s.start ≤ s.stop) (ht : t.span.start < t.span.stop) :
    (t.span.stop ≤ s.start → t.relocated (.parens s) = t) ∧
    (s.start ≤ t.span.start → t.span.stop ≤ s.stop → t.relocated (.parens s) = t.moved 1 0) ∧
    (s.stop ≤ t.span.start → t.relocated (.parens s) = t.moved 2 0) := by
  refine ⟨fun hstop => ?_, fun hstart hstop => ?_, fun hstart => ?_⟩
  · show t.relocated (.parens s) = t.moved 0 0
    refine relocated_eq_moved ?_ ?_ rfl
    · simp only [Relocation.parens]
      rw [if_neg (by omega), if_neg (by omega)]
    · simp only [Relocation.parens]
      rw [if_neg (by omega), if_neg (by omega)]
  · refine relocated_eq_moved ?_ ?_ rfl
    · simp only [Relocation.parens]
      rw [if_pos hstart, if_neg (by omega)]
    · simp only [Relocation.parens]
      rw [if_pos (by omega), if_neg (by omega)]
  · refine relocated_eq_moved ?_ ?_ rfl
    · simp only [Relocation.parens]
      rw [if_pos (by omega), if_pos hstart]
    · simp only [Relocation.parens]
      rw [if_pos (by omega), if_pos (by omega)]

theorem map_relocated_tokens (hcut : cut cs = pre ++ window ++ post) :
    let s : Span := ⟨byteLength (texts pre), byteLength (texts (pre ++ window))⟩
    (Piece.tokens 0 0 pre).map (·.relocated (.parens s)) = Piece.tokens 0 0 pre ∧
    (∀ line, (Piece.tokens s.start line window).map (·.relocated (.parens s)) =
      (Piece.tokens s.start line window).map (·.moved 1 0)) ∧
    ∀ line, (Piece.tokens s.stop line post).map (·.relocated (.parens s)) =
      (Piece.tokens s.stop line post).map (·.moved 2 0) := by
  intro s
  have hne : ∀ p ∈ pre ++ window ++ post, p.text ≠ [] := fun p hp => text_ne_nil_of_mem_cut (hcut ▸ hp)
  have hstop : s.stop = s.start + byteLength (texts window) := by simp [s]
  have hle : s.start ≤ s.stop := by omega
  refine ⟨?_, fun line => List.map_congr_left fun t ht => ?_, fun line => List.map_congr_left fun t ht => ?_⟩
  · have hsame : ∀ t ∈ Piece.tokens 0 0 pre, t.relocated (.parens s) = id t := by
      intro t ht
      obtain ⟨-, hlt, hend⟩ := mem_tokens_bounds (fun p hp => hne p (by simp [hp])) ht
      exact (Token.relocated_parens hle hlt).1 (by rwa [Nat.zero_add] at hend)
    rw [List.map_congr_left hsame, List.map_id]
  · obtain ⟨hbegin, hlt, hend⟩ := mem_tokens_bounds (fun p hp => hne p (by simp [hp])) ht
    exact (Token.relocated_parens hle hlt).2.1 hbegin (hstop ▸ hend)
  · obtain ⟨hbegin, hlt, -⟩ := mem_tokens_bounds (fun p hp => hne p (by simp [hp])) ht
    exact (Token.relocated_parens hle hlt).2.2 hbegin

/-! ## Reading -/

theorem carriesLiteral_of_mem_tokens {t : Token} (h : t ∈ (scan source).tokens) : t.CarriesLiteral := by
  rw [scan_eq] at h
  rcases List.mem_append.mp h with h | h
  · obtain ⟨_, text, _, -, -, -, hlexeme, -⟩ := matchedIn_of_mem h
    refine ⟨fun hk => ?_, fun hk => ?_⟩
    · rcases (hlexeme.of_digit (by rw [hk]; rfl)).2 with ⟨-, hx⟩ | ⟨_, _, -, -, -, hx⟩
      · exact ⟨_, hx⟩
      · exact ⟨_, hx⟩
    · obtain ⟨_, -, -, -, hx⟩ := hlexeme.of_quote (by rw [hk]; rfl)
      exact ⟨_, hx⟩
  · rw [List.mem_singleton.mp h]
    exact ⟨nofun, nofun⟩

/-- With the parentheses, the tokens are those of the tree with the grouping. -/
theorem yields_parenthesized (herrors : Piece.errors 0 0 (cut source.toList) = [])
    (hy : Yields (c.plug n) (Piece.tokens 0 0 (cut source.toList))) :
    Piece.errors 0 0 (cut (parenthesized source n.span).toList) = [] ∧
      Yields (c.grouped n) (Piece.tokens 0 0 (cut (parenthesized source n.span).toList)) := by
  obtain ⟨pre, window, post, hcut, hwindow, hspan, hyn, hbetween⟩ := Expr.exists_window_of_plug hy
  obtain ⟨hstart, hstop⟩ := Span.mk.inj hspan
  have hother : cut (parenthesized source n.span).toList = pre ++ opening :: (window ++ closing :: post) := by
    rw [hspan, toList_parenthesized hcut]
    exact (tiled_parens (hcut ▸ tiled_cut source.toList) hwindow).cut_texts
  obtain ⟨hfront, hinside, hbehind⟩ := map_relocated_tokens hcut
  rw [hother]
  refine ⟨errors_parens (hcut ▸ herrors), ?_⟩
  let first := openingAt (byteLength (texts pre)) (lineBreaks (texts pre))
  let last := closingAt (byteLength (texts (pre ++ window)) + 1) (lineBreaks (texts (pre ++ window)))
  have hgrouping : Yields (.grouping (n.relocated (.parens n.span)) ⟨first.span.start, last.span.stop⟩)
      (first :: (_ ++ [last])) := .grouping rfl hyn.relocated rfl
  have hplug := (hbetween.relocated (r := .parens n.span)).plug hgrouping
  rw [hspan, hfront, hinside, hbehind] at hplug
  rw [tokens_parens, Expr.Context.grouped, hstart, hstop, hspan]
  simp only [List.append_assoc, List.cons_append, List.nil_append] at hplug
  exact hplug

namespace Expr

theorem stratified_grouped (h : (c.plug n).Stratified) : (c.grouped n).Stratified := by
  have hn : n.Stratified := hereditary_stratified.of_plug c h
  have hmoved : ((c.relocated (.parens n.span)).plug (n.relocated (.parens n.span))).Stratified := by
    rw [← Context.relocated_plug]
    exact stratified_relocated.mpr h
  exact Context.stratified_plug (Level.rank_le_unary _) (stratified_relocated.mpr hn) hmoved

theorem eval_grouped (c : Context) (n : Expr) :
    (c.grouped n).eval = (c.plug n).eval.mapError (.relocated (.parens n.span)) := by
  have hinner : (grouping (n.relocated (.parens n.span)) ⟨n.start, n.stop + 2⟩).eval =
    (n.relocated (.parens n.span)).eval := rfl
  rw [Context.grouped, Context.eval_plug _ hinner, ← Context.relocated_plug, eval_relocated]

theorem ofSource_eq_nestsTooDeeply {e : Expr} (herrors : Piece.errors 0 0 (cut source.toList) = [])
    (hs : e.Stratified) (hy : Yields e (Piece.tokens 0 0 (cut source.toList)))
    (hlimits : ¬ (e.need ≤ maxNesting ∧ e.SidesBelow maxHeight)) :
    ∃ err, ofSource source = .error [err] ∧ err.fault = .nestsTooDeeply := by
  have hscan : (scan source).errors = [] := by rw [scan_eq]; exact herrors
  have hsource := ofScan_of_errors_eq_nil hscan
  cases hparse : Parser.parse (scan source).tokens with
  | ok e' =>
      rw [hparse] at hsource
      obtain ⟨-, hs', hy', hlimits'⟩ := ofSource_eq_ok_iff.mp hsource
      rw [Parser.eq_of_yields hs' hs hy' hy] at hlimits'
      exact absurd hlimits' hlimits
  | error err =>
      rw [hparse] at hsource
      have hsentence : Sentence (scan source).tokens := by
        rw [scan_eq]
        exact ⟨_, _, (hy.derives hs).mono (Nat.zero_le _), rfl, rfl⟩
      exact ⟨err, hsource,
        Parser.nestsTooDeeply_of_sentence hsentence (fun t => carriesLiteral_of_mem_tokens) hparse⟩

/--
Parentheses may be put around any node of an expression. If the limits allow it, this gives the tree with a grouping around
the node, which has the same value or fails for the same reason on the same line. If they do not, that is the only error.
-/
theorem ofSource_parenthesized {source : String} {e : Expr} (h : ofSource source = .ok e) :
    (∀ d n, (d, n) ∈ e.nodes ↔ ∃ c : Context, c.depth = d ∧ c.plug n = e) ∧
    ∀ (c : Context) n, c.plug n = e →
      let other := parenthesized source n.span
      let tree := c.grouped n
      (¬ (tree.need ≤ maxNesting ∧ tree.SidesBelow maxHeight) ∧
        ∃ err, ofSource other = .error [err] ∧ err.fault.message = "Expression nests too deeply.") ∨
      (tree.need ≤ maxNesting ∧ tree.SidesBelow maxHeight) ∧ ofSource other = .ok tree ∧
        ((∃ v, e.eval = .ok v ∧ tree.eval = .ok v) ∨
          ∃ q r, e.eval = .error q ∧ tree.eval = .error r ∧ r.fault = q.fault ∧ r.line = q.line) := by
  refine ⟨fun d n => Context.mem_nodes_iff, fun c n hc => ?_⟩
  subst hc
  obtain ⟨herrors, hs, hy, -⟩ := ofSource_eq_ok_iff.mp h
  obtain ⟨herrors', hy'⟩ := yields_parenthesized herrors hy
  have hs' := stratified_grouped hs
  by_cases hlimits : (c.grouped n).need ≤ maxNesting ∧ (c.grouped n).SidesBelow maxHeight
  · refine .inr ⟨hlimits, ofSource_eq_ok_iff.mpr ⟨herrors', hs', hy', hlimits⟩, ?_⟩
    rw [eval_grouped]
    cases (c.plug n).eval with
    | ok v => exact .inl ⟨v, rfl, rfl⟩
    | error q => exact .inr ⟨q, _, rfl, rfl, rfl, rfl⟩
  · obtain ⟨err, herr, hfault⟩ := ofSource_eq_nestsTooDeeply herrors' hs' hy' hlimits
    exact .inl ⟨hlimits, err, herr, by rw [hfault]; rfl⟩

/-- Parentheses around the left side, which moves the operator on the second line by two bytes. -/
theorem ofSource_parenthesized_left :
    let operand : Expr :=
      .unary .negate ⟨.minus, "-", none, 0, ⟨0, 1⟩⟩ (.literal .nil ⟨.keyword .nil, "nil", none, 0, ⟨1, 4⟩⟩)
    let right : Expr := .literal (.boolean true) ⟨.keyword .true, "true", none, 1, ⟨8, 12⟩⟩
    ofSource "-nil\n== true" = .ok (.binary .eq ⟨.equalEqual, "==", none, 1, ⟨5, 7⟩⟩ operand right) ∧
      ofSource "(-nil)\n== true" = .ok (.binary .eq ⟨.equalEqual, "==", none, 1, ⟨7, 9⟩⟩
        (.grouping (operand.moved 1 0) ⟨0, 6⟩) (right.moved 2 0)) := by
  intro operand right
  let c : Context := .left .eq ⟨.equalEqual, "==", none, 1, ⟨5, 7⟩⟩ .hole right
  have h : ofSource "-nil\n== true" = .ok (c.plug operand) := by
    rw [ofSource, scan_eq]
    cbv
  have htree : c.grouped operand = .binary .eq ⟨.equalEqual, "==", none, 1, ⟨7, 9⟩⟩
    (.grouping (operand.moved 1 0) ⟨0, 6⟩) (right.moved 2 0) := rfl
  have hother : parenthesized "-nil\n== true" operand.span = "(-nil)\n== true" := by decide +kernel
  have hlimits : (c.grouped operand).need ≤ maxNesting ∧ (c.grouped operand).SidesBelow maxHeight := by
    rw [htree]
    simp [operand, right, moved, need, SidesBelow, height, maxNesting, maxHeight]
  rcases (ofSource_parenthesized h).2 c operand rfl with ⟨hnot, -⟩ | ⟨-, hsource, -⟩
  · exact absurd hlimits hnot
  · rw [hother, htree] at hsource
    exact ⟨h, hsource⟩

end Expr
end Reckon
