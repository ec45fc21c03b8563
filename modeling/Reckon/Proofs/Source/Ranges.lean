import Reckon.Proofs.Result
import Reckon.Proofs.Source.LineTable

/-!
# Lines and their ranges

The ranges of the lines of a table lie one behind the other and fill the source, and an offset is on the one line in
whose range it is, so that each of the two look-ups undoes the other (`lineAt_range_inverse`). Each refuses only what is
outside the table.
-/

namespace Reckon

/-- The spans lie one behind the other and together go from `start` up to `stop`. -/
inductive Span.Chain : Nat → Nat → List Span → Prop where
  | nil {place : Nat} : Chain place place []
  | cons {start middle stop : Nat} {spans : List Span} (h : start ≤ middle) (hs : Chain middle stop spans) :
      Chain start stop (⟨start, middle⟩ :: spans)

namespace LineTable

variable {t : LineTable} {offset line a b : Nat}

/-- The first line begins at zero, each other line after the one before it, and the last one not after the end. -/
structure WellFormed (t : LineTable) : Prop where
  first : t.starts[0]? = some 0
  increasing : t.starts.toList.Pairwise (· < ·)
  bounded : ∀ last, t.starts.back? = some last → last ≤ t.length

/-- The offset is in the range of the line. The last line has the end of the source too. -/
def OnLine (t : LineTable) (offset line : Nat) : Prop :=
  ∃ range, t.range line = .ok range ∧ range.start ≤ offset ∧ (line + 1 = t.size ∨ offset < range.stop)

/--
What a search for the offset among the beginnings of the lines may answer: the line that begins there or, if none does,
the point where its beginning would have to be put in.
-/
inductive Answers (t : LineTable) (offset : Nat) : Except Nat Nat → Prop where
  | found {line : Nat} (h : t.starts[line]? = some offset) : Answers t offset (.ok line)
  | missing {point : Nat} (hpoint : point ≤ t.size)
      (hbefore : ∀ line start, line < point → t.starts[line]? = some start → start < offset)
      (hbehind : ∀ line start, point ≤ line → t.starts[line]? = some start → offset < start) :
      Answers t offset (.error point)

/-! ## Edges -/

/-- Where a line begins and the one before it ends. Behind the last line this is the end of the source. -/
def edge (t : LineTable) (line : Nat) : Nat :=
  t.starts.getD line t.length

theorem getElem?_starts (h : line < t.size) : t.starts[line]? = some (t.edge line) := by
  have hline : line < t.starts.size := h
  simp [edge, hline]

theorem getElem?_starts_eq_some {start : Nat} : t.starts[line]? = some start ↔ line < t.size ∧ t.edge line = start := by
  constructor
  · intro h
    have hline : line < t.size := (Array.getElem?_eq_some_iff.mp h).1
    rw [getElem?_starts hline] at h
    exact ⟨hline, Option.some.inj h⟩
  · rintro ⟨hline, rfl⟩
    exact getElem?_starts hline

theorem getD_starts (h : line < t.size) : t.starts.getD line 0 = t.edge line := by
  simp [getElem?_starts h]

theorem edge_of_size_le (h : t.size ≤ line) : t.edge line = t.length := by
  have hline : t.starts.size ≤ line := h
  simp [edge, hline]

theorem range_eq_ok {range : Span} :
    t.range line = .ok range ↔ line < t.size ∧ range = ⟨t.edge line, t.edge (line + 1)⟩ := by
  unfold LineTable.range
  cases hstart : t.starts[line]? with
  | none =>
      have hge : t.size ≤ line := by simpa [size] using hstart
      simp [Nat.not_lt_of_le hge]
  | some start =>
      obtain ⟨hlt, rfl⟩ := getElem?_starts_eq_some.mp hstart
      simp [hlt, edge, eq_comm]

theorem range_eq_error {fault : Fault} : t.range line = .error fault ↔ t.size ≤ line ∧ fault = .lineOutOfBounds := by
  rcases Nat.lt_or_ge line t.size with hlt | hge
  · simp [range_eq_ok.mpr ⟨hlt, rfl⟩, Nat.not_le_of_lt hlt]
  · have hnone : t.starts[line]? = none := Array.getElem?_eq_none hge
    simp [range, hnone, hge, eq_comm]

theorem lineAt_eq_error {fault : Fault} :
    t.lineAt offset = .error fault ↔ t.length < offset ∧ fault = .offsetOutOfBounds := by
  rcases Nat.lt_or_ge t.length offset with hlt | hge
  · simp [lineAt, hlt, eq_comm]
  · simp [lineAt, Nat.not_lt_of_le hge]

theorem onLine_iff :
    t.OnLine offset line ↔ line < t.size ∧ t.edge line ≤ offset ∧ (line + 1 = t.size ∨ offset < t.edge (line + 1)) := by
  constructor
  · rintro ⟨range, hrange, honline⟩
    obtain ⟨hlt, rfl⟩ := range_eq_ok.mp hrange
    exact ⟨hlt, honline⟩
  · rintro ⟨hlt, honline⟩
    exact ⟨_, range_eq_ok.mpr ⟨hlt, rfl⟩, honline⟩

namespace WellFormed

variable (ht : t.WellFormed)
include ht

theorem size_pos : 0 < t.size := (getElem?_starts_eq_some.mp ht.first).1

theorem edge_zero : t.edge 0 = 0 := (getElem?_starts_eq_some.mp ht.first).2

theorem ordered : t.Ordered := ordered_of_pairwise ht.increasing

theorem edge_lt (hab : a < b) (hb : b < t.size) : t.edge a < t.edge b := by
  have hedge {line : Nat} (hline : line < t.starts.size) : t.edge line = t.starts.toList[line] := by
    simp [edge, hline]
  rw [hedge (Nat.lt_trans hab hb), hedge hb]
  exact List.pairwise_iff_getElem.mp ht.increasing a b _ _ hab

theorem edge_le_length (line : Nat) : t.edge line ≤ t.length := by
  have hpos := ht.size_pos
  rcases Nat.lt_or_ge line t.size with hlt | hge
  · have hlast : t.starts.back? = some (t.edge (t.size - 1)) := by
      rw [Array.back?_eq_getElem?]
      exact getElem?_starts (Nat.sub_lt hpos Nat.one_pos)
    rcases Nat.eq_or_lt_of_le (Nat.le_sub_one_of_lt hlt) with rfl | hbefore
    · exact ht.bounded _ hlast
    · exact Nat.le_trans (Nat.le_of_lt (ht.edge_lt hbefore (by omega))) (ht.bounded _ hlast)
  · exact Nat.le_of_eq (edge_of_size_le hge)

theorem edge_le (hab : a ≤ b) : t.edge a ≤ t.edge b := by
  rcases Nat.eq_or_lt_of_le hab with rfl | hlt
  · exact Nat.le_refl _
  rcases Nat.lt_or_ge b t.size with hb | hb
  · exact Nat.le_of_lt (ht.edge_lt hlt hb)
  · rw [edge_of_size_le hb]
    exact ht.edge_le_length a

/-! ## Ranges -/

theorem chain_edges (n : Nat) {first : Nat} (h : first + n = t.size) :
    Span.Chain (t.edge first) t.length ((List.range' first n).map fun line => ⟨t.edge line, t.edge (line + 1)⟩) := by
  induction n generalizing first with
  | zero =>
      rw [edge_of_size_le (by omega)]
      exact .nil
  | succ n ih =>
      rw [List.range'_succ, List.map_cons]
      exact .cons (ht.edge_le (Nat.le_succ first)) (ih (by omega))

/-- The ranges of all lines, in their order, fill the source. -/
theorem exists_ranges : ∃ ranges, (List.range t.size).mapM t.range = .ok ranges ∧ Span.Chain 0 t.length ranges := by
  have hchain := ht.chain_edges t.size (Nat.zero_add _)
  rw [ht.edge_zero, ← List.range_eq_range'] at hchain
  exact ⟨_, mapM_eq_ok fun line hline => range_eq_ok.mpr ⟨List.mem_range.mp hline, rfl⟩, hchain⟩

/-! ## Lines -/

theorem lineAt_of_onLine (hoffset : offset ≤ t.length) (h : t.OnLine offset line) : t.lineAt offset = .ok line := by
  obtain ⟨hline, hbegins, hends⟩ := onLine_iff.mp h
  refine lineAt_eq ht.ordered hoffset hline (by rwa [getD_starts hline]) fun later hlater hsize => ?_
  rw [getD_starts hsize]
  -- there is a later line, so that this one is not the last
  exact Nat.lt_of_lt_of_le (hends.resolve_left (by omega)) (ht.edge_le hlater)

theorem exists_onLine (hoffset : offset ≤ t.length) : ∃ line, t.lineAt offset = .ok line ∧ t.OnLine offset line := by
  have hzero : t.starts.getD 0 0 ≤ offset := by simp [ht.first]
  obtain ⟨hfound, hafter⟩ := search_spec ht.ordered ht.size_pos hzero fun line hline hsize => by omega
  have hline : t.search offset 0 t.size < t.size := (search_mem ht.size_pos).2
  rw [getD_starts hline] at hfound
  refine ⟨_, if_neg (Nat.not_lt_of_le hoffset), onLine_iff.mpr ⟨hline, hfound, ?_⟩⟩
  rcases Nat.eq_or_lt_of_le (Nat.succ_le_of_lt hline) with hlast | hnext
  · exact .inl hlast
  · exact .inr (getD_starts hnext ▸ hafter _ (Nat.lt_succ_self _) hnext)

theorem lineAt_start {range : Span} (h : t.range line = .ok range) : t.lineAt range.start = .ok line := by
  obtain ⟨hlt, rfl⟩ := range_eq_ok.mp h
  refine ht.lineAt_of_onLine (ht.edge_le_length line) (onLine_iff.mpr ⟨hlt, Nat.le_refl _, ?_⟩)
  rcases Nat.eq_or_lt_of_le (Nat.succ_le_of_lt hlt) with hlast | hnext
  · exact .inl hlast
  · exact .inr (ht.edge_lt (Nat.lt_succ_self line) hnext)

/-- An offset does not lie behind the end of its line. -/
theorem le_stop_of_lineAt {range : Span} (h : t.lineAt offset = .ok line) (hrange : t.range line = .ok range) :
    offset ≤ range.stop := by
  have hoffset : offset ≤ t.length := by
    refine Nat.le_of_not_lt fun hlt => ?_
    rw [lineAt_eq_error.mpr ⟨hlt, rfl⟩] at h
    cases h
  obtain ⟨found, hfound, honline⟩ := ht.exists_onLine hoffset
  obtain rfl := Except.ok.inj (h.symm.trans hfound)
  obtain ⟨-, rfl⟩ := range_eq_ok.mp hrange
  obtain ⟨-, -, hlast | hstop⟩ := onLine_iff.mp honline
  · rwa [edge_of_size_le (Nat.le_of_eq hlast.symm)]
  · exact Nat.le_of_lt hstop

/-! ## Searches -/

theorem exists_answer (hoffset : offset ≤ t.length) : ∃ answer, t.Answers offset answer := by
  obtain ⟨line, -, honline⟩ := ht.exists_onLine hoffset
  obtain ⟨hline, hbegins, hends⟩ := onLine_iff.mp honline
  rcases Nat.eq_or_lt_of_le hbegins with rfl | hbefore
  · exact ⟨.ok line, .found (getElem?_starts hline)⟩
  · refine ⟨.error (line + 1), .missing hline (fun other start hother hstart => ?_) fun other start hother hstart => ?_⟩
    · obtain ⟨-, rfl⟩ := getElem?_starts_eq_some.mp hstart
      exact Nat.lt_of_le_of_lt (ht.edge_le (Nat.le_of_lt_succ hother)) hbefore
    · obtain ⟨hsize, rfl⟩ := getElem?_starts_eq_some.mp hstart
      exact Nat.lt_of_lt_of_le (hends.resolve_left (by omega)) (ht.edge_le hother)

theorem lineAt_of_found (h : t.Answers offset (.ok line)) : t.lineAt offset = .ok line := by
  cases h with
  | found h =>
      obtain ⟨hline, rfl⟩ := getElem?_starts_eq_some.mp h
      exact ht.lineAt_start (range_eq_ok.mpr ⟨hline, rfl⟩)

/-- An offset at which no line begins is not put in before the first line, and it is on the line before the point. -/
theorem lineAt_of_missing {point : Nat} (hoffset : offset ≤ t.length) (h : t.Answers offset (.error point)) :
    0 < point ∧ t.lineAt offset = .ok (point - 1) := by
  cases h with
  | missing hpoint hbefore hbehind =>
      have hpos : 0 < point := by
        refine Nat.pos_of_ne_zero fun hzero => ?_
        exact Nat.not_lt_zero _ (hbehind 0 0 (Nat.le_of_eq hzero) ht.first)
      have hbegins : t.edge (point - 1) < offset := hbefore (point - 1) _ (by omega) (getElem?_starts (by omega))
      refine ⟨hpos, ht.lineAt_of_onLine hoffset (onLine_iff.mpr ⟨by omega, Nat.le_of_lt hbegins, ?_⟩)⟩
      rw [Nat.sub_add_cancel hpos]
      rcases Nat.eq_or_lt_of_le hpoint with hlast | hlt
      · exact .inl hlast
      · exact .inr (hbehind point _ (Nat.le_refl _) (getElem?_starts hlt))

end WellFormed

/-! ## Both look-ups -/

/--
The ranges of the lines lie one behind the other from the beginning of the source to its end. An offset within the
source is on exactly one line, which is the one that is looked up; later offsets are not on earlier lines, and the line
of the beginning of a range is the line of the range. Only offsets behind the end and lines behind the last one are
refused. The line is also the one that any search among the beginnings gives: the line found, or the one before the
point where the offset is missing, and there always is one before it.
-/
theorem lineAt_range_inverse (ht : t.WellFormed) :
    (∃ ranges, (List.range t.size).mapM t.range = .ok ranges ∧ Span.Chain 0 t.length ranges) ∧
    (∀ offset, offset ≤ t.length → ∃ found, t.lineAt offset = .ok found ∧ ∀ line, t.OnLine offset line ↔ line = found) ∧
    (∀ a b first last, a ≤ b → t.lineAt a = .ok first → t.lineAt b = .ok last → first ≤ last) ∧
    (∀ line range, t.range line = .ok range → t.lineAt range.start = .ok line) ∧
    (∀ offset fault, t.lineAt offset = .error fault ↔ t.length < offset ∧ fault = .offsetOutOfBounds) ∧
    (∀ line fault, t.range line = .error fault ↔ t.size ≤ line ∧ fault = .lineOutOfBounds) ∧
    ∀ offset, offset ≤ t.length → (∃ answer, t.Answers offset answer) ∧
      (∀ line, t.Answers offset (.ok line) → t.lineAt offset = .ok line) ∧
      ∀ point, t.Answers offset (.error point) → 0 < point ∧ t.lineAt offset = .ok (point - 1) := by
  refine ⟨ht.exists_ranges, fun offset hoffset => ?_, fun a b first last => lineAt_mono ht.size_pos,
    fun line range => ht.lineAt_start, fun offset fault => lineAt_eq_error, fun line fault => range_eq_error,
    fun offset hoffset => ⟨ht.exists_answer hoffset, fun line => ht.lineAt_of_found, fun point => ht.lineAt_of_missing hoffset⟩⟩
  obtain ⟨found, hfound, honline⟩ := ht.exists_onLine hoffset
  refine ⟨found, hfound, fun line => ⟨fun h => ?_, fun h => h ▸ honline⟩⟩
  exact Except.ok.inj ((ht.lineAt_of_onLine hoffset h).symm.trans hfound)

/-- The last line is empty: it begins at the end of the source. No line begins at five. -/
theorem lineAt_range_inverse_empty_line :
    let t : LineTable := ⟨#[0, 3, 7], 7⟩
    t.WellFormed ∧ t.range 2 = .ok ⟨7, 7⟩ ∧ t.lineAt 7 = .ok 2 ∧ t.Answers 5 (.error 2) ∧ t.lineAt 5 = .ok 1 := by
  intro t
  have ht : t.WellFormed := by
    refine ⟨rfl, by decide, fun last hlast => ?_⟩
    cases hlast
    decide
  have hmissing : t.Answers 5 (.error 2) := by
    refine .missing (by decide) (fun line start hline hstart => ?_) fun line start hline hstart => ?_
    · rcases line with _ | _ | line
      · cases hstart
        decide
      · cases hstart
        decide
      · omega
    · rcases line with _ | _ | _ | line
      · omega
      · omega
      · cases hstart
        decide
      · cases hstart
  obtain ⟨-, -, -, hstart, -, -, hsearch⟩ := lineAt_range_inverse ht
  exact ⟨ht, rfl, hstart 2 ⟨7, 7⟩ rfl, hmissing, ((hsearch 5 (by decide)).2.2 2 hmissing).2⟩

end LineTable
end Reckon
