import Mathlib.Data.List.DropRight
import Reckon.Proofs.Source.TextTable
import Reckon.Proofs.Token.Spans

/-!
# Locations

A place between two characters of a file has the line that as many line breaks come before, and the column that as many
characters of this line come before, both counted from one. So a location belongs to one place only, and only places
behind the end have none (`Files.Locates`).
-/

namespace Reckon

open Text

/-! ## The last line of a text -/

namespace Text

variable {as bs cs : List Char}

/-- The lines that have ended, with their line breaks. -/
def endedLines (cs : List Char) : List Char :=
  cs.rdropWhile (· != '\n')

/-- What comes behind the last line break, or the whole text if there is none. -/
def lastLine (cs : List Char) : List Char :=
  cs.rtakeWhile (· != '\n')

theorem endedLines_append_lastLine (cs : List Char) : endedLines cs ++ lastLine cs = cs :=
  List.rdropWhile_append_rtakeWhile

theorem newline_not_mem_lastLine (cs : List Char) : '\n' ∉ lastLine cs := by
  intro hmem
  simpa using List.mem_rtakeWhile_imp hmem

theorem lastLine_append (h : '\n' ∉ bs) : lastLine (as ++ bs) = lastLine as ++ bs := by
  induction bs using List.reverseRecOn with
  | nil => simp
  | append_singleton bs c ih =>
      obtain ⟨hbs, hc⟩ : '\n' ∉ bs ∧ c ≠ '\n' := by simpa [eq_comm] using h
      have hlast := List.rtakeWhile_concat_pos (· != '\n') (as ++ bs) c (by simpa using hc)
      rw [← List.append_assoc, lastLine, hlast, ← lastLine, ih hbs, List.append_assoc]

theorem getLast?_lineStarts (cs : List Char) : (Text.lineStarts cs).getLast? = some (byteLength (endedLines cs)) := by
  induction cs using List.reverseRecOn with
  | nil => rfl
  | append_singleton cs c ih =>
      have hstarts : Text.lineStarts (cs ++ [c]) = Text.lineStarts cs ++ breakEnds (byteLength cs) [c] := by
        simp [Text.lineStarts, breakEnds_append]
      rw [hstarts]
      by_cases hc : c = '\n'
      · have hall := List.rdropWhile_concat_neg (· != '\n') cs c (by simp [hc])
        rw [endedLines, hall]
        simp [breakEnds, hc]
      · have hsame := List.rdropWhile_concat_pos (· != '\n') cs c (by simpa using hc)
        rw [endedLines, hsame, ← endedLines, ← ih]
        simp [breakEnds, hc]

/-- Places that as many line breaks and as many characters of their line come before are the same. -/
theorem eq_of_beginning (hlines : lineBreaks as = lineBreaks bs) (hcolumns : (lastLine as).length = (lastLine bs).length)
    (h : as <+: bs) : as = bs := by
  obtain ⟨more, rfl⟩ := h
  have hmore : '\n' ∉ more := by
    rw [lineBreaks_append] at hlines
    have hnone : lineBreaks more = 0 := by omega
    exact List.count_eq_zero.mp hnone
  rw [lastLine_append hmore, List.length_append] at hcolumns
  have hnil : more = [] := List.length_eq_zero_iff.mp (by omega)
  rw [hnil, List.append_nil]

/-! ## Boundaries -/

/-- A place where a character ends has this character and maybe others before it. -/
theorem exists_of_mem_ends {start place : Nat} (h : place ∈ ends start cs) :
    ∃ c before after, cs = c :: before ++ after ∧ place = start + byteLength (c :: before) := by
  induction cs generalizing start with
  | nil => cases h
  | cons c cs ih =>
      rcases List.mem_cons.mp h with rfl | h
      · exact ⟨c, [], cs, rfl, by simp⟩
      · obtain ⟨d, before, after, rfl, rfl⟩ := ih h
        exact ⟨c, d :: before, after, rfl, by simp [Nat.add_assoc]⟩

theorem mem_ends_bounds {start place : Nat} (h : place ∈ ends start cs) :
    start < place ∧ place ≤ start + byteLength cs := by
  obtain ⟨c, before, after, rfl, rfl⟩ := exists_of_mem_ends h
  have := c.utf8Size_pos
  simp only [byteLength_append, byteLength_cons]
  omega

theorem exists_of_isBoundary {place : Nat} (h : isBoundary cs place) :
    ∃ before after, cs = before ++ after ∧ place = byteLength before := by
  rw [isBoundary, Bool.or_eq_true] at h
  rcases h with hzero | hends
  · exact ⟨[], cs, rfl, by simpa using hzero⟩
  · obtain ⟨c, before, after, rfl, rfl⟩ := exists_of_mem_ends (List.contains_iff_mem.mp hends)
    exact ⟨c :: before, after, rfl, Nat.zero_add _⟩

theorem length_ends (start : Nat) (cs : List Char) : (ends start cs).length = cs.length := by
  induction cs generalizing start with
  | nil => rfl
  | cons c cs ih => simp [ends, ih]

end Text

/-! ## Columns -/

namespace Files

variable {fs : Files} {id : FileId} {file : File} {before after : List Char}

/-- Of the characters of a text, those between the two places count. -/
theorem columnOf_split (front line back : List Char) :
    columnOf (front ++ line ++ back) (byteLength front) (byteLength (front ++ line)) = line.length + 1 := by
  have hfront : (ends 0 front).countP (fun place =>
      byteLength front < place && place ≤ byteLength (front ++ line)) = 0 := by
    refine List.countP_eq_zero.mpr fun place hplace => ?_
    have := (mem_ends_bounds hplace).2
    simp only [Bool.and_eq_true, decide_eq_true_eq]
    omega
  have hline : (ends (byteLength front) line).countP (fun place =>
      byteLength front < place && place ≤ byteLength (front ++ line)) = line.length := by
    rw [← length_ends (byteLength front) line]
    refine List.countP_eq_length.mpr fun place hplace => ?_
    have := mem_ends_bounds hplace
    simp only [Bool.and_eq_true, decide_eq_true_eq, byteLength_append]
    omega
  have hback : (ends (byteLength (front ++ line)) back).countP (fun place =>
      byteLength front < place && place ≤ byteLength (front ++ line)) = 0 := by
    refine List.countP_eq_zero.mpr fun place hplace => ?_
    have := (mem_ends_bounds hplace).1
    simp only [Bool.and_eq_true, decide_eq_true_eq]
    omega
  rw [columnOf, ends_append, ends_append, List.countP_append, List.countP_append, Nat.zero_add, Nat.zero_add, hfront,
    hline, hback, Nat.zero_add, Nat.add_zero]

/-! ## Locations -/

theorem exists_range_ofText (before after : List Char) :
    ∃ range, (LineTable.ofText (before ++ after)).range (lineBreaks before) = .ok range ∧
      range.start = byteLength (endedLines before) ∧ byteLength before ≤ range.stop := by
  have hwell := LineTable.wellFormed_ofText (before ++ after)
  have hline := LineTable.lineAt_ofText before after
  have hlt : lineBreaks before < (LineTable.ofText (before ++ after)).size := by
    rw [LineTable.size_ofText, lineBreaks_append]
    omega
  obtain ⟨range, hrange⟩ := LineTable.exists_range hlt
  have hstart : (LineTable.ofText (before ++ after)).starts[lineBreaks before]? = some (byteLength (endedLines before)) := by
    have hlength : (Text.lineStarts before).length = lineBreaks before + 1 := by simp [Text.lineStarts, length_breakEnds]
    have hstarts : Text.lineStarts (before ++ after) = Text.lineStarts before ++ breakEnds (byteLength before) after := by
      simp [Text.lineStarts, breakEnds_append]
    have hlast := getLast?_lineStarts before
    rw [List.getLast?_eq_getElem?, hlength, Nat.add_sub_cancel] at hlast
    rw [LineTable.ofText, List.getElem?_toArray, hstarts, List.getElem?_append_left (by omega), hlast]
  refine ⟨range, hrange, ?_, hwell.le_stop_of_lineAt hline hrange⟩
  rw [LineTable.range, hstart] at hrange
  cases hrange
  rfl

theorem location_split (hget : fs.get id = .ok file) (hlines : file.lines = .ofText file.source.toList)
    (hsource : file.source.toList = before ++ after) :
    fs.location id (byteLength before) = .ok ⟨lineBreaks before + 1, (lastLine before).length + 1⟩ := by
  obtain ⟨⟨start, stop⟩, hrange, rfl, hstop⟩ := exists_range_ofText before after
  rw [← hsource, ← hlines] at hrange
  have hline : file.lines.lineAt (byteLength before) = .ok (lineBreaks before) := by
    rw [hlines, hsource, LineTable.lineAt_ofText]
  have hcolumn := columnOf_split (endedLines before) (lastLine before) after
  rw [endedLines_append_lastLine, ← hsource] at hcolumn
  simp only [location, lineIndex_eq hget hline, source_eq hget, lineRange_eq hget hrange, ok_bind,
    Nat.min_eq_left hstop, hcolumn]

theorem location_beyond (hget : fs.get id = .ok file) (hlines : file.lines = .ofText file.source.toList) {offset : Nat}
    (h : byteLength file.source.toList < offset) :
    fs.location id offset = .error (.indexTooLarge offset (byteLength file.source.toList)) := by
  have hnone : file.lines.lineAt offset = .error .offsetOutOfBounds := by
    rw [hlines]
    exact if_pos h
  simp only [location, lineIndex, hget, hnone, ok_bind, error_bind]

/--
The store finds the places between characters of a file by their line and column, which are other ones for each place,
and refuses the places behind the end.
-/
structure Locates (fs : Files) (id : FileId) (source : String) : Prop where
  location : ∀ offset, isBoundary source.toList offset →
    fs.location id offset = .ok ⟨lineBreaks (slice source.toList 0 offset) + 1,
      (lastLine (slice source.toList 0 offset)).length + 1⟩
  injective : ∀ a b, isBoundary source.toList a → isBoundary source.toList b →
    fs.location id a = fs.location id b → a = b
  beyond : ∀ offset, byteLength source.toList < offset →
    fs.location id offset = .error (.indexTooLarge offset (byteLength source.toList))

theorem Locates.of_get (hget : fs.get id = .ok file) (hlines : file.lines = .ofText file.source.toList) :
    fs.Locates id file.source where
  location offset hoffset := by
    obtain ⟨before, after, hsource, rfl⟩ := exists_of_isBoundary hoffset
    rw [location_split hget hlines hsource, hsource, slice_prefix]
  injective a b ha hb hsame := by
    obtain ⟨as, as', has, rfl⟩ := exists_of_isBoundary ha
    obtain ⟨bs, bs', hbs, rfl⟩ := exists_of_isBoundary hb
    rw [location_split hget hlines has, location_split hget hlines hbs] at hsame
    obtain ⟨hline, hcolumn⟩ := Location.mk.inj (Except.ok.inj hsame)
    -- one of the two is a beginning of the other
    have hprefix : as <+: bs ∨ bs <+: as :=
      List.prefix_or_prefix_of_prefix ⟨as', has.symm⟩ ⟨bs', hbs.symm⟩
    rcases hprefix with h | h
    · rw [eq_of_beginning (Nat.succ.inj hline) (Nat.succ.inj hcolumn) h]
    · rw [eq_of_beginning (Nat.succ.inj hline).symm (Nat.succ.inj hcolumn).symm h]
  beyond offset h := location_beyond hget hlines h

end Files
end Reckon
