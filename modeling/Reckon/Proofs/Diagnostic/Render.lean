import Reckon.Diagnostic.Render
import Reckon.Proofs.Source.Files

/-!
# Showing errors

How an error is shown is decided by the file it is in, wherever that stands in the store. It can be shown whenever its
span ends within the file: every line that is looked up for it lies between two lines that were found.
-/

namespace Reckon

variable {files files' : Files} {id id' : FileId} {file : File} {index first last digits : Nat}

/-- No line is shown that comes after the last line of the span. -/
theorem Snippet.le_of_mem_rows (hle : first ≤ last) (h : .line index ∈ rows first last) : index ≤ last := by
  unfold rows at h
  split at h
  · obtain ⟨i, hi, heq⟩ := List.mem_map.mp h
    obtain rfl := Row.line.inj heq
    have := (List.mem_range'_1.mp hi).2
    omega
  · rename_i hlong
    rcases List.mem_append.mp h with h | h
    · obtain ⟨i, hi, heq⟩ := List.mem_map.mp h
      obtain rfl := Row.line.inj heq
      have := (List.mem_range'_1.mp hi).2
      omega
    · obtain ⟨i, hi, heq⟩ := List.mem_map.mp (List.mem_of_ne_of_mem (by simp) h)
      obtain rfl := Row.line.inj heq
      have := (List.mem_range'_1.mp hi).2
      simp only [linesBeforeEnd] at this
      omega

namespace Diagnostic

/-! ## The same file -/

section
variable (h : files.get id = files'.get id')
include h

theorem lineOf_congr (index : Nat) : lineOf files id index = lineOf files' id' index := by
  simp only [lineOf, Files.source_congr h, Files.lineRange_congr h]

theorem rowText_congr (span : Span) (first last digits : Nat) :
    rowText files id span first last digits = rowText files' id' span first last digits := by
  funext row
  cases row with
  | gap => rfl
  | line index => simp only [rowText, lineOf_congr h, Files.lineRange_congr h]

theorem body_congr (span : Span) (first last digits : Nat) :
    body files id span first last digits = body files' id' span first last digits := by
  simp only [body, lineOf_congr h, Files.lineRange_congr h, rowText_congr h]

theorem render_congr (d : Diagnostic) : d.render files id = d.render files' id' := by
  simp only [render, Files.lineIndex_congr h, Files.name_congr h, Files.location_congr h, body_congr h]

end

/-! ## Spans within the file -/

section
variable (hget : files.get id = .ok file) (span : Span)
include hget

theorem exists_lineOf (h : index < file.lines.size) : ∃ line, lineOf files id index = .ok line := by
  obtain ⟨range, hrange⟩ := Files.exists_lineRange hget h
  simp only [lineOf, Files.source_eq hget, hrange, ok_bind]
  exact ⟨_, rfl⟩

theorem exists_rowText (first last digits : Nat) {row : Snippet.Row}
    (h : ∀ index, row = .line index → index < file.lines.size) :
    ∃ text, rowText files id span first last digits row = .ok text := by
  cases row with
  | gap => exact ⟨_, rfl⟩
  | line index =>
      obtain ⟨line, hline⟩ := exists_lineOf hget (h index rfl)
      obtain ⟨range, hrange⟩ := Files.exists_lineRange hget (h index rfl)
      simp only [rowText, hline, hrange, ok_bind]
      split
      · exact ⟨_, rfl⟩
      split <;> exact ⟨_, rfl⟩

theorem exists_body (digits : Nat) (hle : first ≤ last) (h : last < file.lines.size) :
    ∃ text, body files id span first last digits = .ok text := by
  unfold body
  split
  · have hfirst : first < file.lines.size := Nat.lt_of_le_of_lt hle h
    obtain ⟨line, hline⟩ := exists_lineOf hget hfirst
    obtain ⟨range, hrange⟩ := Files.exists_lineRange hget hfirst
    simp only [hline, hrange, ok_bind]
    exact ⟨_, rfl⟩
  · have hrows : ∀ row ∈ Snippet.rows first last, ∃ text, rowText files id span first last digits row = .ok text := by
      refine fun row hrow => exists_rowText hget span first last digits fun index hindex => ?_
      exact Nat.lt_of_le_of_lt (Snippet.le_of_mem_rows hle (hindex ▸ hrow)) h
    obtain ⟨texts, htexts⟩ := exists_mapM hrows
    simp only [htexts, ok_bind]
    exact ⟨_, rfl⟩

end

theorem exists_render {d : Diagnostic} (hget : files.get id = .ok file) (ht : 0 < file.lines.size)
    (hle : d.span.start ≤ d.span.stop) (hstop : d.span.stop ≤ file.lines.length) :
    ∃ text, d.render files id = .ok text := by
  obtain ⟨first, hfirst, -⟩ := LineTable.exists_lineAt ht (Nat.le_trans hle hstop)
  obtain ⟨last, hlast, hlt⟩ := LineTable.exists_lineAt ht hstop
  obtain ⟨place, hplace⟩ := Files.exists_location hget ht (Nat.le_trans hle hstop)
  obtain ⟨rows, hrows⟩ :=
    exists_body hget d.span (toString (last + 1)).length (LineTable.lineAt_mono ht hle hfirst hlast) hlt
  simp only [render, Files.lineIndex_eq hget hfirst, Files.lineIndex_eq hget hlast, Files.name_eq hget, hplace, hrows,
    ok_bind]
  exact ⟨_, rfl⟩

end Diagnostic
end Reckon
