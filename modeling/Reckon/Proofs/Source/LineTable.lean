import Reckon.Source.LineTable

/-!
# Looking up lines

An offset within the source is on a line of the table, later offsets are not on earlier lines, and each line of the
table has a range. None of this needs the beginnings of the lines to be in order. If they are, the line of an offset is
the last one that begins at or before it.
-/

namespace Reckon.LineTable

variable {t : LineTable} {offset line low high a b : Nat}

/-! ## The search -/

theorem search_mem (h : low < high) : low ≤ t.search offset low high ∧ t.search offset low high < high := by
  fun_induction search t offset low high with
  | case1 low high hstop => omega
  | case2 low high hgo middle hle ih =>
      have := ih (by omega)
      omega
  | case3 low high hgo middle hle ih =>
      have := ih (by omega)
      omega

theorem search_mono (hab : a ≤ b) (h : low < high) : t.search a low high ≤ t.search b low high := by
  fun_induction search t a low high with
  | case1 low high hstop => exact (search_mem h).1
  | case2 low high hgo middle hle ih =>
      have hb : t.starts.getD middle 0 ≤ b := Nat.le_trans hle hab
      rw [search.eq_def t b, if_neg hgo, if_pos hb]
      exact ih (by omega)
  | case3 low high hgo middle hgt ih =>
      rw [search.eq_def t b, if_neg hgo]
      by_cases hb : t.starts.getD middle 0 ≤ b
      -- the two searches part here, one goes on below the middle and the other one above
      · rw [if_pos hb]
        have hbelow : t.search a low middle < middle := (search_mem (by omega)).2
        have habove : middle ≤ t.search b middle high := (search_mem (by omega)).1
        exact Nat.le_of_lt (Nat.lt_of_lt_of_le hbelow habove)
      · rw [if_neg hb]
        exact ih (by omega)

/-! ## Lines and ranges -/

theorem exists_lineAt (ht : 0 < t.size) (h : offset ≤ t.length) : ∃ line, t.lineAt offset = .ok line ∧ line < t.size :=
  ⟨t.search offset 0 t.size, if_neg (Nat.not_lt_of_le h), (search_mem ht).2⟩

theorem lineAt_mono {first last : Nat} (ht : 0 < t.size) (hab : a ≤ b) (ha : t.lineAt a = .ok first)
    (hb : t.lineAt b = .ok last) : first ≤ last := by
  unfold lineAt at ha hb
  split at ha
  · cases ha
  split at hb
  · cases hb
  cases ha
  cases hb
  exact search_mono hab ht

theorem exists_range (h : line < t.size) : ∃ range, t.range line = .ok range := by
  have hstart : t.starts[line]? = some t.starts[line] := Array.getElem?_eq_getElem h
  exact ⟨_, by rw [range, hstart]⟩

/-! ## Tables in order -/

/-- No line begins before an earlier one. -/
def Ordered (t : LineTable) : Prop :=
  ∀ a b, a ≤ b → b < t.size → t.starts.getD a 0 ≤ t.starts.getD b 0

theorem ordered_of_pairwise (h : t.starts.toList.Pairwise (· < ·)) : t.Ordered := by
  intro a b hab hb
  have hstart {line : Nat} (hline : line < t.starts.size) : t.starts.getD line 0 = t.starts.toList[line] := by
    simp [hline]
  rcases Nat.eq_or_lt_of_le hab with rfl | hlt
  · exact Nat.le_refl _
  · rw [hstart (Nat.lt_trans hlt hb), hstart hb]
    exact Nat.le_of_lt (List.pairwise_iff_getElem.mp h a b _ _ hlt)

theorem search_spec (ht : t.Ordered) (h : low < high) (hlow : t.starts.getD low 0 ≤ offset)
    (hhigh : ∀ line, high ≤ line → line < t.size → offset < t.starts.getD line 0) :
    t.starts.getD (t.search offset low high) 0 ≤ offset ∧
      ∀ line, t.search offset low high < line → line < t.size → offset < t.starts.getD line 0 := by
  fun_induction search t offset low high with
  | case1 low high hstop => exact ⟨hlow, fun line hline => hhigh line (by omega)⟩
  | case2 low high hgo middle hle ih => exact ih (by omega) hle hhigh
  | case3 low high hgo middle hgt ih =>
      refine ih (by omega) hlow fun line hline hsize => ?_
      have := ht middle line hline hsize
      omega

theorem lineAt_eq (ht : t.Ordered) (hoffset : offset ≤ t.length) (hline : line < t.size)
    (hbegins : t.starts.getD line 0 ≤ offset)
    (hends : ∀ later, line < later → later < t.size → offset < t.starts.getD later 0) : t.lineAt offset = .ok line := by
  have hfirst : t.starts.getD 0 0 ≤ offset := Nat.le_trans (ht 0 line (Nat.zero_le _) hline) hbegins
  have hpos : 0 < t.size := by omega
  have hmem : t.search offset 0 t.size < t.size := (search_mem hpos).2
  obtain ⟨hfound, hafter⟩ := search_spec ht hpos hfirst (fun later hlater hsize => by omega)
  rw [lineAt, if_neg (Nat.not_lt_of_le hoffset)]
  -- neither of the two lines comes after the other
  rcases Nat.lt_trichotomy line (t.search offset 0 t.size) with hlt | heq | hgt
  · have := hends _ hlt hmem
    omega
  · rw [heq]
  · have := hafter _ hgt hline
    omega

/-! ## The table of a text -/

theorem size_ofText_pos (cs : List Char) : 0 < (ofText cs).size := by
  simp [ofText, size, Text.lineStarts]

end Reckon.LineTable
