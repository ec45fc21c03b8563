import Reckon.Proofs.Expr.Context
import Reckon.Proofs.Expr.Limits
import Reckon.Proofs.Token.Window

/-!
# Excerpts

The span of each node of an expression is its text: read by itself, it gives the node.
-/

namespace Reckon

open Text

namespace Expr

/-! ## Moving -/

/-- The tree when the given numbers of bytes and of lines come before its source. -/
def moved (bytes lines : Nat) : Expr → Expr
  | .literal value token => .literal value (token.moved bytes lines)
  | .grouping inner span => .grouping (inner.moved bytes lines) (span.moved bytes)
  | .unary op operator operand => .unary op (operator.moved bytes lines) (operand.moved bytes lines)
  | .binary op operator lhs rhs =>
      .binary op (operator.moved bytes lines) (lhs.moved bytes lines) (rhs.moved bytes lines)

theorem moved_eq_relocated (bytes lines : Nat) (e : Expr) :
    e.moved bytes lines = e.relocated ⟨(· + bytes), (· + bytes), (· + lines)⟩ := by
  induction e with
  | literal => rfl
  | grouping _ _ ih => rw [moved, ih]; rfl
  | unary _ _ _ ih => rw [moved, ih]; rfl
  | binary _ _ _ _ ihl ihr => rw [moved, ihl, ihr]; rfl

section
variable {bytes lines limit : Nat} {e : Expr}

theorem height_moved : (e.moved bytes lines).height = e.height := by
  rw [moved_eq_relocated, height_relocated]

theorem need_moved : (e.moved bytes lines).need = e.need := by
  rw [moved_eq_relocated, need_relocated]

theorem stratified_moved : (e.moved bytes lines).Stratified ↔ e.Stratified := by
  rw [moved_eq_relocated, stratified_relocated]

theorem sidesBelow_moved : (e.moved bytes lines).SidesBelow limit ↔ e.SidesBelow limit := by
  rw [moved_eq_relocated, sidesBelow_relocated]

end

end Expr

theorem Yields.of_map_moved {bytes lines : Nat} {us : List Token} {e : Expr}
    (h : Yields e (us.map (·.moved bytes lines))) : ∃ e', e = e'.moved bytes lines ∧ Yields e' us := by
  obtain ⟨e', he, hy⟩ := Yields.of_map_relocated (r := ⟨(· + bytes), (· + bytes), (· + lines)⟩) h
  exact ⟨e', by rw [he, Expr.moved_eq_relocated], hy⟩

/-! ## Nodes -/

/-- What holds of a tree holds of its parts too. -/
structure Hereditary (P : Expr → Prop) : Prop where
  grouping : ∀ {inner span}, P (.grouping inner span) → P inner
  unary : ∀ {op operator operand}, P (.unary op operator operand) → P operand
  lhs : ∀ {op operator lhs rhs}, P (.binary op operator lhs rhs) → P lhs
  rhs : ∀ {op operator lhs rhs}, P (.binary op operator lhs rhs) → P rhs

theorem Hereditary.of_plug {P : Expr → Prop} (hP : Hereditary P) (c : Expr.Context) {n : Expr} (h : P (c.plug n)) :
    P n := by
  induction c with
  | hole => exact h
  | grouping _ _ ih => exact ih (hP.grouping h)
  | unary _ _ _ ih => exact ih (hP.unary h)
  | left _ _ _ _ ih => exact ih (hP.lhs h)
  | right _ _ _ _ ih => exact ih (hP.rhs h)

theorem Hereditary.of_mem_nodesFrom {P : Expr → Prop} (hP : Hereditary P) {e n : Expr} {d k : Nat} (he : P e)
    (hn : (d, n) ∈ e.nodesFrom k) : P n := by
  obtain ⟨c, -, rfl⟩ := Expr.Context.exists_of_mem_nodesFrom hn
  exact hP.of_plug c he

theorem hereditary_stratified : Hereditary Expr.Stratified where
  grouping h := h
  unary h := h.2
  lhs h := h.2.2.1
  rhs h := h.2.2.2

theorem hereditary_need (limit : Nat) : Hereditary fun e => e.need ≤ limit where
  grouping h := by simp only [Expr.need] at h; omega
  unary h := by simp only [Expr.need] at h; omega
  lhs h := by simp only [Expr.need] at h; omega
  rhs h := by simp only [Expr.need] at h; omega

theorem hereditary_sidesBelow (limit : Nat) : Hereditary (Expr.SidesBelow limit) where
  grouping h := h
  unary h := h
  lhs h := h.2.1
  rhs h := h.2.2

theorem Yields.exists_first {e : Expr} {ts : List Token} (h : Yields e ts) :
    ∃ t, ts.head? = some t ∧ e.start = t.span.start := by
  induction h with
  | literal _ => exact ⟨_, rfl, rfl⟩
  | grouping _ _ _ _ => exact ⟨_, rfl, rfl⟩
  | unary _ _ _ => exact ⟨_, rfl, rfl⟩
  | binary _ hl _ ihl _ =>
      obtain ⟨t, ht, hstart⟩ := ihl
      exact ⟨t, by simp [ht], hstart⟩

theorem Yields.exists_last {e : Expr} {ts : List Token} (h : Yields e ts) :
    ∃ us t, ts = us ++ [t] ∧ e.stop = t.span.stop := by
  induction h with
  | @literal value t _ => exact ⟨[], t, rfl, rfl⟩
  | @grouping opening closing inner us _ _ _ _ => exact ⟨opening :: us, closing, rfl, rfl⟩
  | @unary op operator operand ts _ _ ih =>
      obtain ⟨us, t, rfl, hstop⟩ := ih
      exact ⟨operator :: us, t, rfl, hstop⟩
  | @binary op operator lhs rhs ts _ _ _ _ _ ihr =>
      obtain ⟨us, t, rfl, hstop⟩ := ihr
      exact ⟨ts ++ operator :: us, t, by simp, hstop⟩

/-! ## Sources -/

namespace Expr

open Piece

theorem ofScan_eq_ok {s : Scan} {e : Expr} : ofScan s = .ok e ↔ Parser.parse s.tokens = .ok e ∧ s.errors = [] := by
  unfold ofScan
  cases Parser.parse s.tokens with
  | error err => simp
  | ok x => cases hs : s.errors <;> simp

theorem ofSource_eq_ok_iff {source : String} {e : Expr} : ofSource source = .ok e ↔
    Piece.errors 0 0 (cut source.toList) = [] ∧ e.Stratified ∧ Yields e (Piece.tokens 0 0 (cut source.toList)) ∧
      e.need ≤ maxNesting ∧ e.SidesBelow maxHeight := by
  let eof : Token := .eof (lineBreaks source.toList) (byteLength source.toList)
  have heof : beforeEof (Piece.tokens 0 0 (cut source.toList) ++ [eof]) = Piece.tokens 0 0 (cut source.toList) :=
    beforeEof_append (tokens_ne_eof (tiled_cut source.toList)) rfl
  have hend : HasEof (Piece.tokens 0 0 (cut source.toList) ++ [eof]) :=
    ⟨eof, List.mem_append_right _ List.mem_cons_self, rfl⟩
  rw [ofSource, ofScan_eq_ok, scan_eq, Parser.parse, Parser.parseWithin_eq_ok_iff, heof]
  simp only [hend, eof, true_and]
  exact and_comm

theorem ofSource_texts {ps : List Piece} {e : Expr} (hps : Tiled ps)
    (hclean : ∀ p ∈ ps, ∀ fault, p.content ≠ .fault fault) (hy : Yields e (Piece.tokens 0 0 ps)) (hs : e.Stratified)
    (hneed : e.need ≤ maxNesting) (hsides : e.SidesBelow maxHeight) : ofSource (String.ofList (texts ps)) = .ok e := by
  rw [ofSource_eq_ok_iff, String.toList_ofList, hps.cut_texts]
  exact ⟨errors_eq_nil_iff.mpr hclean, hs, hy, hneed, hsides⟩

/-- A node consists of pieces in a row, and the rest of the tree of the pieces before and after them. -/
theorem exists_window_of_plug {cs : List Char} {c : Context} {n : Expr}
    (h : Yields (c.plug n) (Piece.tokens 0 0 (cut cs))) :
    ∃ pre window post, cut cs = pre ++ window ++ post ∧ IsWindow window ∧
      n.span = ⟨byteLength (texts pre), byteLength (texts (pre ++ window))⟩ ∧
      Yields n (Piece.tokens (byteLength (texts pre)) (lineBreaks (texts pre)) window) ∧
      c.Between (Piece.tokens 0 0 pre)
        (Piece.tokens (byteLength (texts (pre ++ window))) (lineBreaks (texts (pre ++ window))) post) := by
  obtain ⟨before, us, after, htokens, hbetween, hyn⟩ := Context.exists_between h
  obtain ⟨first, hfirst, hstart⟩ := hyn.exists_first
  obtain ⟨ts, last, hlast, hstop⟩ := hyn.exists_last
  obtain ⟨pre, window, post, hcut, hwindow, rfl, rfl, hfs, hls⟩ := exists_window htokens hfirst hlast
  obtain rfl : Piece.tokens (byteLength (texts (pre ++ window))) (lineBreaks (texts (pre ++ window))) post = after := by
    rw [hcut, Piece.tokens, collect_append, collect_append, Nat.zero_add, Nat.zero_add] at htokens
    simpa using htokens
  rw [Nat.zero_add] at hfs hls hyn
  rw [Nat.zero_add] at hyn
  exact ⟨pre, window, post, hcut, hwindow, by rw [span, hstart, hstop, hfs, hls]; simp, hyn, hbetween⟩

/-- A node is made of the tokens of its pieces as they are without the pieces before. -/
theorem exists_window_of_mem_nodes {cs : List Char} {e n : Expr} {d : Nat} (hy : Yields e (Piece.tokens 0 0 (cut cs)))
    (hn : (d, n) ∈ e.nodes) :
    ∃ pre window post n', cut cs = pre ++ window ++ post ∧
      n.span = ⟨byteLength (texts pre), byteLength (texts pre) + byteLength (texts window)⟩ ∧
      n = n'.moved (byteLength (texts pre)) (lineBreaks (texts pre)) ∧ Yields n' (Piece.tokens 0 0 window) := by
  obtain ⟨c, -, rfl⟩ := Context.mem_nodes_iff.mp hn
  obtain ⟨pre, window, post, hcut, -, hspan, hyn, -⟩ := exists_window_of_plug hy
  have hmoved := tokens_moved (byteLength (texts pre)) (lineBreaks (texts pre)) 0 0 window
  rw [Nat.zero_add, Nat.zero_add] at hmoved
  rw [hmoved] at hyn
  obtain ⟨n', hn', hyn'⟩ := hyn.of_map_moved
  exact ⟨pre, window, post, n', hcut, by rw [hspan]; simp, hn', hyn'⟩

/--
The text between the two ends of a node's span, read by itself, is the node. Only its place changes: what comes before
the node in the source is missing.
-/
theorem ofSource_slice {source : String} {e n : Expr} {d : Nat} (h : ofSource source = .ok e) (hn : (d, n) ∈ e.nodes) :
    let text := slice source.toList n.start n.stop
    (∃ before after, source.toList = before ++ text ++ after ∧ n.span = ⟨byteLength before, byteLength (before ++ text)⟩) ∧
    ∃ n', ofSource (String.ofList text) = .ok n' ∧
      n = n'.moved n.start (lineBreaks (slice source.toList 0 n.start)) ∧ n'.height = n.height := by
  obtain ⟨herrors, hs, hy, hneed, hsides⟩ := ofSource_eq_ok_iff.mp h
  obtain ⟨pre, window, post, n', hcut, hspan, hmoved, hyn'⟩ := exists_window_of_mem_nodes hy hn
  obtain ⟨hstart, hstop⟩ := Span.mk.inj hspan
  have hsource : source.toList = texts pre ++ texts window ++ texts post := by
    rw [← texts_cut source.toList, hcut, texts_append, texts_append]
  have htext : slice source.toList n.start n.stop = texts window := by rw [hsource, hstart, hstop, slice_append]
  have hfront : slice source.toList 0 n.start = texts pre := by rw [hsource, hstart, List.append_assoc, slice_prefix]
  simp only [htext, hfront]
  refine ⟨⟨texts pre, texts post, hsource, by rw [hspan, byteLength_append]⟩, n', ?_, by rw [hstart]; exact hmoved,
    by rw [hmoved, height_moved]⟩
  -- the limits that the whole tree keeps are kept by its nodes
  have hsn := hereditary_stratified.of_mem_nodesFrom hs hn
  have hneedn := (hereditary_need maxNesting).of_mem_nodesFrom hneed hn
  have hsidesn := (hereditary_sidesBelow maxHeight).of_mem_nodesFrom hsides hn
  rw [hmoved] at hsn hneedn hsidesn
  rw [need_moved] at hneedn
  rw [ofSource_eq_ok_iff, String.toList_ofList, cut_texts_of_infix hcut]
  refine ⟨errors_eq_nil_iff.mpr fun p hp => errors_eq_nil_iff.mp herrors p ?_, stratified_moved.mp hsn, hyn', hneedn,
    sidesBelow_moved.mp hsidesn⟩
  rw [hcut]
  exact List.mem_append_left _ (List.mem_append_right _ hp)

/-- The second operand stands on the second line, and on the first one when it is read by itself. -/
theorem ofSource_slice_second_line :
    let operand : Expr :=
      .unary .not ⟨.bang, "!", none, 1, ⟨8, 9⟩⟩ (.literal .nil ⟨.keyword .nil, "nil", none, 1, ⟨9, 12⟩⟩)
    let whole : Expr :=
      .binary .eq ⟨.equalEqual, "==", none, 0, ⟨5, 7⟩⟩
        (.literal (.boolean true) ⟨.keyword .true, "true", none, 0, ⟨0, 4⟩⟩) operand
    ofSource "true ==\n!nil" = .ok whole ∧ ∃ e, ofSource "!nil" = .ok e ∧ operand = e.moved 8 1 := by
  intro operand whole
  have h : ofSource "true ==\n!nil" = .ok whole := by
    rw [ofSource, scan_eq]
    cbv
  have hn : (1, operand) ∈ whole.nodes := by simp [whole, nodes, nodesFrom, operand]
  obtain ⟨-, e, he, hmoved, -⟩ := ofSource_slice h hn
  have htext : String.ofList (slice "true ==\n!nil".toList operand.start operand.stop) = "!nil" := by decide +kernel
  have hlines : lineBreaks (slice "true ==\n!nil".toList 0 operand.start) = 1 := by decide +kernel
  rw [htext] at he
  rw [hlines] at hmoved
  exact ⟨h, e, he, hmoved⟩

end Expr
end Reckon
