import Reckon.Proofs.Source.History
import Reckon.Proofs.Source.Ranges
import Reckon.Proofs.Token.Separation

/-!
# The table of a text

The lines of a text begin at its beginning and after each line break, and a place in it is on the line that as many line
breaks come before. This is the table that scanning finds and the one that a file has by itself, so that a file may be
given the table that was found without changing any answer (`scanned_table_is_own`).
-/

namespace Reckon

open Text

/-! ## Beginnings of lines -/

namespace Text

variable {start place : Nat} {cs : List Char}

/-- Behind the first line, the lines begin after the line breaks. -/
theorem mem_breakEnds_iff :
    place ∈ breakEnds start cs ↔ ∃ before after, cs = before ++ '\n' :: after ∧ place = start + byteLength before + 1 := by
  induction cs generalizing start with
  | nil => simp [breakEnds]
  | cons c cs ih =>
      have hsize : '\n'.utf8Size = 1 := rfl
      -- the break is the first character, or one of the others
      have hsplit : (∃ before after, c :: cs = before ++ '\n' :: after ∧ place = start + byteLength before + 1) ↔
          (c = '\n' ∧ place = start + 1) ∨
            ∃ before after, cs = before ++ '\n' :: after ∧ place = start + c.utf8Size + byteLength before + 1 := by
        constructor
        · rintro ⟨_ | ⟨d, before⟩, after, hcs, rfl⟩
          · exact .inl ⟨(List.cons.inj hcs).1, rfl⟩
          · obtain ⟨rfl, rfl⟩ := List.cons.inj hcs
            exact .inr ⟨before, after, rfl, by rw [byteLength_cons]; omega⟩
        · rintro (⟨rfl, rfl⟩ | ⟨before, after, rfl, rfl⟩)
          · exact ⟨[], cs, rfl, rfl⟩
          · exact ⟨c :: before, after, rfl, by rw [byteLength_cons]; omega⟩
      rw [hsplit, ← ih, breakEnds]
      split
      · rename_i hc
        simp [hc, hsize]
      · rename_i hc
        simp [hc]

theorem mem_breakEnds (h : place ∈ breakEnds start cs) : start < place ∧ place ≤ start + byteLength cs := by
  have hsize : '\n'.utf8Size = 1 := rfl
  obtain ⟨before, after, rfl, rfl⟩ := mem_breakEnds_iff.mp h
  rw [byteLength_append, byteLength_cons, hsize]
  omega

theorem pairwise_breakEnds (start : Nat) (cs : List Char) : (breakEnds start cs).Pairwise (· < ·) := by
  induction cs generalizing start with
  | nil => exact .nil
  | cons c cs ih =>
      simp only [breakEnds]
      split
      · exact .cons (fun place hplace => (mem_breakEnds hplace).1) (ih _)
      · exact ih _

theorem pairwise_lineStarts (cs : List Char) : (Text.lineStarts cs).Pairwise (· < ·) :=
  .cons (fun _ hplace => (mem_breakEnds hplace).1) (pairwise_breakEnds 0 cs)

theorem mem_lineStarts_iff :
    place ∈ Text.lineStarts cs ↔ place = 0 ∨ ∃ before after, cs = before ++ '\n' :: after ∧ place = byteLength before + 1 := by
  rw [Text.lineStarts, List.mem_cons, mem_breakEnds_iff]
  simp only [Nat.zero_add]

theorem le_of_mem_lineStarts {cs : List Char} (h : place ∈ Text.lineStarts cs) : place ≤ byteLength cs := by
  rcases List.mem_cons.mp h with rfl | h
  · exact Nat.zero_le _
  · simpa using (mem_breakEnds h).2

end Text

/-! ## The table -/

namespace LineTable

theorem ordered_ofText (cs : List Char) : (ofText cs).Ordered := ordered_of_pairwise (pairwise_lineStarts cs)

theorem wellFormed_ofText (cs : List Char) : (ofText cs).WellFormed where
  first := rfl
  increasing := pairwise_lineStarts cs
  bounded := by
    intro last hlast
    have hmem : last ∈ (ofText cs).starts := Array.mem_of_back? hlast
    exact le_of_mem_lineStarts (by simpa [ofText] using hmem)

/-- A well formed table is no defect. -/
theorem WellFormed.ofStarts_eq {t : LineTable} (ht : t.WellFormed) : ofStarts t.starts.toList t.length = .ok t := by
  unfold ofStarts
  cases hlast : t.starts.toList.getLast? with
  | none =>
      have hsize : t.starts.size = 0 := by simpa using hlast
      exact absurd ht.size_pos (by simp [size, hsize])
  | some last =>
      have hback : t.starts.back? = some last := by simpa using hlast
      simp [Nat.not_lt_of_le (ht.bounded last hback)]

theorem size_ofText (cs : List Char) : (ofText cs).size = lineBreaks cs + 1 := by
  simp [ofText, size, Text.lineStarts, length_breakEnds]

/-- A place is on the line that as many line breaks come before. -/
theorem lineAt_ofText (as bs : List Char) : (ofText (as ++ bs)).lineAt (byteLength as) = .ok (lineBreaks as) := by
  have hstarts (line : Nat) : (ofText (as ++ bs)).starts.getD line 0 =
      ((Text.lineStarts as ++ breakEnds (byteLength as) bs)[line]?).getD 0 := by
    simp [ofText, Text.lineStarts, breakEnds_append]
  have hlength : (Text.lineStarts as).length = lineBreaks as + 1 := by simp [Text.lineStarts, length_breakEnds]
  refine lineAt_eq (ordered_ofText _) (by simp [ofText]) (by rw [size_ofText, lineBreaks_append]; omega) ?_ ?_
  · -- the last line of the first part begins in it
    have hmem : (Text.lineStarts as).get ⟨lineBreaks as, by omega⟩ ∈ Text.lineStarts as := List.getElem_mem _
    rw [hstarts, List.getElem?_append_left (by omega), List.getElem?_eq_getElem (by omega), Option.getD_some]
    exact le_of_mem_lineStarts hmem
  · -- and the lines after it begin in the second part
    intro later hlater hsize
    rw [size_ofText, lineBreaks_append] at hsize
    have hlt : later - (Text.lineStarts as).length < (breakEnds (byteLength as) bs).length := by
      rw [length_breakEnds]
      omega
    rw [hstarts, List.getElem?_append_right (by omega), List.getElem?_eq_getElem hlt, Option.getD_some]
    exact (mem_breakEnds (List.getElem_mem hlt)).1

end LineTable

/-! ## The table that is found -/

/--
Whatever is wrong with a source, scanning it finds the table that a file of this source has by itself. Its lines begin at
zero and after each line break, and it is a table as one has to be. To set it for the file changes no answer of the store.
-/
theorem scanned_table_is_own (source : String) :
    (∀ name, (File.mk name source none).lines = (scan source).lines) ∧
    (scan source).lines.length = byteLength source.toList ∧
    (∀ place, place ∈ (scan source).lines.starts ↔
      place = 0 ∨ ∃ before after, source.toList = before ++ '\n' :: after ∧ place = byteLength before + 1) ∧
    (scan source).lines.WellFormed ∧
    LineTable.ofStarts (scan source).lines.starts.toList (byteLength source.toList) = .ok (scan source).lines ∧
    ∀ (fs : Files) id name, fs.get id = .ok ⟨name, source, none⟩ →
      ∃ gs, fs.setLines id (scan source).lines = .ok gs ∧ ∀ jd, gs.AgreeOn fs jd := by
  have hlines := lines_scan source
  have hwell : (LineTable.ofText source.toList).WellFormed := LineTable.wellFormed_ofText _
  refine ⟨fun name => hlines.symm, by rw [hlines]; rfl, fun place => ?_, hlines ▸ hwell, ?_, fun fs id name hget => ?_⟩
  · rw [hlines, ← mem_lineStarts_iff]
    simp [LineTable.ofText]
  · rw [hlines]
    exact hwell.ofStarts_eq
  · refine ⟨_, Files.setLines_eq hget _, fun jd => ?_⟩
    by_cases hid : id = jd
    · subst hid
      have hset := Files.Holds.of_get (Files.get_set (Files.get_eq_ok.mp hget) ⟨name, source, some (scan source).lines⟩)
      have hown := Files.Holds.of_get hget
      have hsame : (File.mk name source none).lines = (scan source).lines := hlines.symm
      rw [hsame] at hown
      exact hset.agreeOn hown
    · exact .of_get (Files.get_set_of_ne hid _)

/-- There are breaks in a string and behind a comment, and an error between them. -/
theorem scanned_table_is_own_string_and_comment :
    let source := "\"a\nb\" @ // c\n"
    let fs : Files := ⟨[⟨"x", "", none⟩, ⟨"y", source, none⟩], [("y", ⟨1⟩), ("x", ⟨0⟩)]⟩
    (scan source).lines = ⟨#[0, 3, 13], 13⟩ ∧ (scan source).errors ≠ [] ∧
      ∃ gs, fs.setLines ⟨1⟩ (scan source).lines = .ok gs ∧ gs.lineIndex ⟨1⟩ 13 = .ok 2 ∧ gs.location ⟨1⟩ 5 = .ok ⟨2, 3⟩ := by
  intro source fs
  obtain ⟨hown, -, -, -, -, hset⟩ := scanned_table_is_own source
  obtain ⟨gs, hgs, hagree⟩ := hset fs ⟨1⟩ "y" rfl
  have hline : fs.lineIndex ⟨1⟩ 13 = .ok 2 := by decide +kernel
  have hplace : fs.location ⟨1⟩ 5 = .ok ⟨2, 3⟩ := by decide +kernel
  refine ⟨(hown "y").symm.trans (by decide +kernel), ?_, gs, hgs, ?_, ?_⟩
  · rw [scan_eq]
    cbv
    exact List.cons_ne_nil _ _
  · rw [(hagree ⟨1⟩).lineIndex, hline]
  · rw [(hagree ⟨1⟩).location, hplace]

end Reckon
