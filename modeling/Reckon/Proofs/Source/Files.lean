import Reckon.Proofs.Result
import Reckon.Proofs.Source.LineTable
import Reckon.Source.Files

/-!
# The file store

Every name in use has the id of a file of this name. The store keeps this as sources are entered, and an entered file is
what was entered, whatever was there before. What is looked up of a file is decided by the file alone.
-/

namespace Reckon
namespace Files

variable {fs gs : Files} {id jd : FileId} {file : File} {name source : String} {lines : LineTable}

/-! ## Entering -/

/-- Every id in the index is that of a file of this name. -/
def Indexed (fs : Files) : Prop :=
  ∀ name id, fs.ids.lookup name = some id → ∃ file, fs.files[id.index]? = some file ∧ file.name = name

theorem indexed_empty : empty.Indexed := by
  intro name id h
  cases h

theorem get_eq_ok : fs.get id = .ok file ↔ fs.files[id.index]? = some file := by
  unfold get
  cases fs.files[id.index]? <;> simp

/-- A file may be replaced by one of the same name. -/
theorem Indexed.set (h : fs.Indexed) (hget : fs.files[id.index]? = some file) (file' : File) (hname : file'.name = file.name) :
    Indexed { fs with files := fs.files.set id.index file' } := by
  intro name jd hjd
  obtain ⟨found, hfound, rfl⟩ := h name jd hjd
  by_cases hsame : id.index = jd.index
  · rw [hsame, hfound] at hget
    obtain rfl := Option.some.inj hget
    have hlt : jd.index < fs.files.length := (List.getElem?_eq_some_iff.mp hfound).1
    exact ⟨file', by simp [hsame, hlt], hname⟩
  · exact ⟨found, by simp [hsame, hfound], rfl⟩

theorem get_set (hget : fs.files[id.index]? = some file) (file' : File) :
    get { fs with files := fs.files.set id.index file' } id = .ok file' := by
  have hlt : id.index < fs.files.length := (List.getElem?_eq_some_iff.mp hget).1
  exact get_eq_ok.mpr (by simp [hlt])

theorem Indexed.append (h : fs.Indexed) (file : File) :
    Indexed ⟨fs.files ++ [file], (file.name, ⟨fs.files.length⟩) :: fs.ids⟩ := by
  intro name id hid
  rw [List.lookup_cons] at hid
  split at hid
  · rename_i hname
    obtain rfl := Option.some.inj hid
    exact ⟨file, by simp, (eq_of_beq hname).symm⟩
  · obtain ⟨found, hfound, rfl⟩ := h name id hid
    have hlt : id.index < fs.files.length := (List.getElem?_eq_some_iff.mp hfound).1
    exact ⟨found, by simpa [List.getElem?_append_left hlt] using hfound, rfl⟩

theorem Indexed.upsert (h : fs.Indexed) (name source : String) :
    (fs.upsert name source).2.Indexed ∧
      (fs.upsert name source).2.get (fs.upsert name source).1 = .ok ⟨name, source, none⟩ := by
  unfold Files.upsert
  cases hid : fs.ids.lookup name with
  | some id =>
      obtain ⟨file, hfile, rfl⟩ := h name id hid
      exact ⟨h.set hfile ⟨file.name, source, none⟩ rfl, get_set hfile _⟩
  | none => exact ⟨h.append ⟨name, source, none⟩, get_eq_ok.mpr (by simp)⟩

theorem setLines_eq (hget : fs.get id = .ok file) (lines : LineTable) :
    fs.setLines id lines = .ok { fs with files := fs.files.set id.index { file with lines? := some lines } } := by
  unfold setLines
  rw [hget]
  rfl

/-- A source can always be entered, and its file is the entered one. -/
theorem Indexed.exists_enter (h : fs.Indexed) (name source : String) (lines : LineTable) :
    ∃ id gs, fs.enter name source lines = .ok (id, gs) ∧ gs.Indexed ∧ gs.get id = .ok ⟨name, source, some lines⟩ := by
  obtain ⟨hindexed, hget⟩ := h.upsert name source
  unfold enter
  generalize fs.upsert name source = entered at hindexed hget ⊢
  obtain ⟨id, entered⟩ := entered
  refine ⟨id, _, ?_, hindexed.set (get_eq_ok.mp hget) ⟨name, source, some lines⟩ rfl, get_set (get_eq_ok.mp hget) _⟩
  simp only [setLines_eq hget, ok_bind]

/-! ## Looking up -/

section
variable (h : fs.get id = gs.get jd)
include h

theorem name_congr : fs.name id = gs.name jd := by rw [Files.name, h, Files.name]

theorem source_congr : fs.source id = gs.source jd := by rw [Files.source, h, Files.source]

theorem lineIndex_congr (offset : Nat) : fs.lineIndex id offset = gs.lineIndex jd offset := by
  rw [lineIndex, h, lineIndex]

theorem lineRange_congr (line : Nat) : fs.lineRange id line = gs.lineRange jd line := by
  rw [lineRange, h, lineRange]

theorem location_congr (offset : Nat) : fs.location id offset = gs.location jd offset := by
  simp only [location, lineIndex_congr h, source_congr h, lineRange_congr h]

end

section
variable (hget : fs.get id = .ok file) {offset line : Nat}
include hget

theorem name_eq : fs.name id = .ok file.name := by
  rw [Files.name, hget]
  rfl

theorem source_eq : fs.source id = .ok file.source := by
  rw [Files.source, hget]
  rfl

theorem lineIndex_eq (h : file.lines.lineAt offset = .ok line) : fs.lineIndex id offset = .ok line := by
  rw [lineIndex, hget]
  simp only [ok_bind, h]

theorem lineRange_eq {range : Span} (h : file.lines.range line = .ok range) : fs.lineRange id line = .ok range := by
  rw [lineRange, hget]
  simp only [ok_bind, h]

theorem exists_lineRange (h : line < file.lines.size) : ∃ range, fs.lineRange id line = .ok range := by
  obtain ⟨range, hrange⟩ := LineTable.exists_range h
  exact ⟨range, lineRange_eq hget hrange⟩

theorem exists_location (ht : 0 < file.lines.size) (h : offset ≤ file.lines.length) :
    ∃ place, fs.location id offset = .ok place := by
  obtain ⟨line, hline, hlt⟩ := LineTable.exists_lineAt ht h
  obtain ⟨range, hrange⟩ := exists_lineRange hget hlt
  exact ⟨⟨line + 1, columnOf file.source.toList range.start (min offset range.stop)⟩, by
    simp only [location, lineIndex_eq hget hline, source_eq hget, hrange, ok_bind]⟩

end

end Files
end Reckon
