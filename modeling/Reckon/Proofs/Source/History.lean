import Mathlib.Data.List.Induction
import Reckon.Proofs.Source.Files

/-!
# The file store over time

A store that began empty is a map from names to files. A name keeps the id it was given first, its file has the source
that was entered under it last, and the lines of this file are those of the table it was given since then, or those of
its source. Nothing that is done to one file is seen in another one.
-/

namespace Reckon.Files

open Text

/-! ## Operations -/

inductive Op where
  | upsert (name source : String)
  | setLines (id : FileId) (lines : LineTable)
deriving DecidableEq, Repr

/-- The store after an operation. One that fails leaves it as it is. -/
def apply (fs : Files) : Op → Files
  | .upsert name source => (fs.upsert name source).2
  | .setLines id lines =>
      match fs.setLines id lines with
      | .ok gs => gs
      | .error _ => fs

def run (fs : Files) (ops : List Op) : Files := ops.foldl apply fs

/-- The file that an operation is about. -/
def target (fs : Files) : Op → FileId
  | .upsert name source => (fs.upsert name source).1
  | .setLines id _ => id

variable {fs : Files} {id jd : FileId} {file : File} {name source other text : String} {lines : LineTable} {op : Op}
  {ops : List Op}

theorem run_append (fs : Files) (ops more : List Op) : fs.run (ops ++ more) = (fs.run ops).run more :=
  List.foldl_append

theorem run_cons (fs : Files) (op : Op) (ops : List Op) : fs.run (op :: ops) = (fs.apply op).run ops := rfl

/-! ## What an operation changes -/

theorem FileId.index_ne (h : id ≠ jd) : id.index ≠ jd.index := by
  intro hindex
  cases id
  cases jd
  exact h (congrArg FileId.mk hindex)

theorem get_set_of_ne (h : id ≠ jd) (file : File) :
    get { fs with files := fs.files.set id.index file } jd = fs.get jd := by
  simp [get, List.getElem?_set_ne (FileId.index_ne h)]

theorem get_append_of_ne (h : FileId.mk fs.files.length ≠ jd) (file : File) (ids : List (String × FileId)) :
    get ⟨fs.files ++ [file], ids⟩ jd = fs.get jd := by
  have hne : fs.files.length ≠ jd.index := FileId.index_ne h
  have hlookup : (fs.files ++ [file])[jd.index]? = fs.files[jd.index]? := by
    rcases Nat.lt_or_gt_of_ne hne with hlt | hgt
    · rw [List.getElem?_eq_none (by simp; omega), List.getElem?_eq_none (by omega)]
    · exact List.getElem?_append_left hgt
  simp [get, hlookup]

theorem get_eq_error {e : FileError} (h : fs.get id = .error e) : e = .fileMissing := by
  unfold get at h
  split at h <;> cases h
  rfl

theorem setLines_cases (fs : Files) (id : FileId) (lines : LineTable) :
    (∃ file, fs.get id = .ok file ∧
      fs.apply (.setLines id lines) = { fs with files := fs.files.set id.index { file with lines? := some lines } }) ∨
      fs.get id = .error .fileMissing ∧ fs.setLines id lines = .error .fileMissing ∧
        fs.apply (.setLines id lines) = fs := by
  cases hget : fs.get id with
  | ok file => exact .inl ⟨file, rfl, by simp only [apply, setLines_eq hget]⟩
  | error e =>
      obtain rfl := get_eq_error hget
      have hset : fs.setLines id lines = .error .fileMissing := by
        unfold setLines
        rw [hget]
        rfl
      exact .inr ⟨rfl, hset, by simp only [apply, hset]⟩

/-- Only the file that an operation is about is another one afterwards. -/
theorem get_apply_of_ne (h : fs.target op ≠ jd) : (fs.apply op).get jd = fs.get jd := by
  cases op with
  | upsert name source =>
      simp only [target, apply, Files.upsert] at h ⊢
      cases hid : fs.ids.lookup name with
      | some id =>
          simp only [hid] at h
          exact get_set_of_ne h _
      | none =>
          simp only [hid] at h
          exact get_append_of_ne h _ _
  | setLines id lines =>
      rcases setLines_cases fs id lines with ⟨file, -, happly⟩ | ⟨-, -, happly⟩
      · rw [happly]
        exact get_set_of_ne h _
      · rw [happly]

/-- To enter a source is to upsert it and to set its lines. -/
theorem enter_eq_ok {gs : Files} (h : fs.enter name source lines = .ok (id, gs)) :
    id = fs.target (.upsert name source) ∧ gs = (fs.apply (.upsert name source)).apply (.setLines id lines) := by
  obtain ⟨hs, hset, hok⟩ : ∃ hs, (fs.upsert name source).2.setLines (fs.upsert name source).1 lines = .ok hs ∧
      Except.ok ((fs.upsert name source).1, hs) = .ok (id, gs) := bind_eq_ok.mp h
  cases hok
  exact ⟨rfl, by simp only [apply, hset]⟩

theorem get_enter_of_ne {gs : Files} (h : fs.enter name source lines = .ok (id, gs)) (hne : id ≠ jd) :
    gs.get jd = fs.get jd := by
  obtain ⟨rfl, rfl⟩ := enter_eq_ok h
  have hset : ((fs.apply (.upsert name source)).apply (.setLines (fs.target (.upsert name source)) lines)).get jd =
      (fs.apply (.upsert name source)).get jd := get_apply_of_ne hne
  rw [hset, get_apply_of_ne hne]

/-! ## Names and ids -/

/-- The names in the index are those of the files, each with the id of its file. -/
def Mapped (fs : Files) : Prop :=
  ∀ name id, fs.ids.lookup name = some id ↔ ∃ file, fs.get id = .ok file ∧ file.name = name

namespace Mapped

theorem indexed (h : fs.Mapped) : fs.Indexed := by
  intro name id hid
  obtain ⟨file, hget, hname⟩ := (h name id).mp hid
  exact ⟨file, get_eq_ok.mp hget, hname⟩

theorem empty : Files.empty.Mapped := by
  intro name id
  simp [Files.empty, get]

/-- A file may be replaced by one of the same name. -/
theorem set (h : fs.Mapped) (hget : fs.get id = .ok file) {file' : File} (hname : file'.name = file.name) :
    Mapped { fs with files := fs.files.set id.index file' } := by
  intro name jd
  rw [h name jd]
  by_cases hid : id = jd
  · subst hid
    have hset := get_set (get_eq_ok.mp hget) file'
    simp [hget, hset, hname]
  · rw [get_set_of_ne hid]

theorem append (h : fs.Mapped) (hnew : fs.ids.lookup file.name = none) :
    Mapped ⟨fs.files ++ [file], (file.name, ⟨fs.files.length⟩) :: fs.ids⟩ := by
  intro name id
  have hlast : get ⟨fs.files ++ [file], (file.name, ⟨fs.files.length⟩) :: fs.ids⟩ ⟨fs.files.length⟩ = .ok file :=
    get_eq_ok.mpr (by simp)
  have hfree : fs.get ⟨fs.files.length⟩ = .error .fileMissing := by simp [get]
  rw [List.lookup_cons]
  by_cases hid : FileId.mk fs.files.length = id
  · subst hid
    rw [hlast]
    split
    · rename_i hname
      simp [eq_of_beq hname]
    · rename_i hname
      have hno : fs.ids.lookup name ≠ some ⟨fs.files.length⟩ := by
        intro hlookup
        obtain ⟨found, hfound, -⟩ := (h name _).mp hlookup
        rw [hfree] at hfound
        cases hfound
      constructor
      · exact fun hlookup => absurd hlookup hno
      · rintro ⟨found, hfound, rfl⟩
        cases hfound
        simp at hname
  · rw [get_append_of_ne hid, ← h name id]
    split
    · rename_i hname
      obtain rfl := eq_of_beq hname
      simp [hid, hnew]
    · rfl

theorem apply (h : fs.Mapped) (op : Op) : (fs.apply op).Mapped := by
  cases op with
  | upsert name source =>
      simp only [Files.apply, Files.upsert]
      cases hid : fs.ids.lookup name with
      | some id =>
          obtain ⟨file, hget, rfl⟩ := (h name id).mp hid
          exact h.set hget rfl
      | none =>
          have hnew : fs.ids.lookup (File.mk name source none).name = none := hid
          exact h.append hnew
  | setLines id lines =>
      rcases setLines_cases fs id lines with ⟨file, hget, happly⟩ | ⟨-, -, happly⟩
      · rw [happly]
        exact h.set hget rfl
      · rwa [happly]

theorem run (h : fs.Mapped) (ops : List Op) : (fs.run ops).Mapped := by
  induction ops generalizing fs with
  | nil => exact h
  | cons op ops ih => exact ih (h.apply op)

/-- A file is entered under the id of its name, and under no other one. -/
theorem target_upsert_iff (h : fs.Mapped) (hget : fs.get id = .ok file) (source : String) :
    fs.target (.upsert name source) = id ↔ name = file.name := by
  simp only [target, Files.upsert]
  cases hid : fs.ids.lookup name with
  | some jd =>
      obtain ⟨found, hfound, rfl⟩ := (h name jd).mp hid
      constructor
      · rintro rfl
        rw [hget] at hfound
        rw [Except.ok.inj hfound]
      · intro hname
        have hlookup := (h found.name id).mpr ⟨file, hget, hname.symm⟩
        rw [hid] at hlookup
        exact Option.some.inj hlookup
  | none =>
      have hlt : id.index < fs.files.length := (List.getElem?_eq_some_iff.mp (get_eq_ok.mp hget)).1
      constructor
      · rintro rfl
        exact absurd hlt (Nat.lt_irrefl _)
      · rintro rfl
        rw [(h file.name id).mpr ⟨file, hget, rfl⟩] at hid
        cases hid

end Mapped

/-! ## Files over time -/

theorem get_upsert (h : fs.Mapped) (name source : String) :
    (fs.apply (.upsert name source)).get (fs.target (.upsert name source)) = .ok ⟨name, source, none⟩ :=
  (h.indexed.upsert name source).2

theorem get_setLines (hget : fs.get id = .ok file) (lines : LineTable) :
    (fs.apply (.setLines id lines)).get id = .ok { file with lines? := some lines } := by
  simp only [apply, setLines_eq hget]
  exact get_set (get_eq_ok.mp hget) _

/-- A file keeps its name, and its source unless one is entered under its name. -/
theorem exists_get_apply (h : fs.Mapped) (hget : fs.get id = .ok file) (op : Op) :
    ∃ file', (fs.apply op).get id = .ok file' ∧ file'.name = file.name ∧
      ((∀ source, op ≠ .upsert file.name source) → file'.source = file.source) := by
  by_cases hid : fs.target op = id
  · cases op with
    | upsert name source =>
        obtain rfl := (h.target_upsert_iff hget source).mp hid
        refine ⟨⟨file.name, source, none⟩, ?_, rfl, fun hne => absurd rfl (hne source)⟩
        rw [← get_upsert h, hid]
    | setLines jd lines =>
        obtain rfl : jd = id := hid
        exact ⟨_, get_setLines hget lines, rfl, fun _ => rfl⟩
  · exact ⟨file, by rw [get_apply_of_ne hid, hget], rfl, fun _ => rfl⟩

theorem exists_get_run (h : fs.Mapped) (hget : fs.get id = .ok file) (ops : List Op) :
    ∃ file', (fs.run ops).get id = .ok file' ∧ file'.name = file.name ∧
      ((∀ source, .upsert file.name source ∉ ops) → file'.source = file.source) := by
  induction ops generalizing fs file with
  | nil => exact ⟨file, hget, rfl, fun _ => rfl⟩
  | cons op ops ih =>
      obtain ⟨next, hnext, hname, hsource⟩ := exists_get_apply h hget op
      obtain ⟨last, hlast, hname', hsource'⟩ := ih (h.apply op) hnext
      refine ⟨last, hlast, hname'.trans hname, fun hno => ?_⟩
      rw [hsource' fun source hmem => hno source (hname ▸ List.mem_cons_of_mem op hmem)]
      exact hsource fun source hop => hno source (hop ▸ List.mem_cons_self)

/-- A file stays what it is as long as nothing is entered under its name and no lines are set for it. -/
theorem get_run_of_untouched (h : fs.Mapped) (hget : fs.get id = .ok file)
    (hname : ∀ source, .upsert file.name source ∉ ops) (hlines : ∀ lines, .setLines id lines ∉ ops) :
    (fs.run ops).get id = .ok file := by
  induction ops generalizing fs with
  | nil => exact hget
  | cons op ops ih =>
      have htarget : fs.target op ≠ id := by
        intro hid
        cases op with
        | upsert name source =>
            obtain rfl := (h.target_upsert_iff hget source).mp hid
            exact hname source List.mem_cons_self
        | setLines jd lines =>
            obtain rfl : jd = id := hid
            exact hlines lines List.mem_cons_self
      refine ih (h.apply op) (by rw [get_apply_of_ne htarget, hget]) (fun source hmem => ?_) fun lines hmem => ?_
      · exact hname source (List.mem_cons_of_mem op hmem)
      · exact hlines lines (List.mem_cons_of_mem op hmem)

/-- Every file was entered at some time. -/
theorem exists_upsert_of_get (ops : List Op) (hget : (empty.run ops).get id = .ok file) :
    ∃ before name source after, ops = before ++ .upsert name source :: after ∧
      (empty.run before).target (.upsert name source) = id := by
  induction ops using List.reverseRecOn generalizing file with
  | nil => cases hget
  | append_singleton ops op ih =>
      -- a file that was there before was entered before
      have hbefore {file : File} (hget : (empty.run ops).get id = .ok file) :
          ∃ before name source after, ops ++ [op] = before ++ .upsert name source :: after ∧
            (empty.run before).target (.upsert name source) = id := by
        obtain ⟨before, name, source, after, rfl, hid⟩ := ih hget
        exact ⟨before, name, source, after ++ [op], by simp, hid⟩
      rw [run_append, run_cons] at hget
      by_cases hid : (empty.run ops).target op = id
      · cases op with
        | upsert name source => exact ⟨ops, name, source, [], rfl, hid⟩
        | setLines jd lines =>
            obtain rfl : jd = id := hid
            rcases setLines_cases (empty.run ops) jd lines with ⟨old, hold, -⟩ | ⟨hmissing, -, happly⟩
            · exact hbefore hold
            · have hget : ((empty.run ops).apply (.setLines jd lines)).get jd = .ok file := hget
              rw [happly, hmissing] at hget
              cases hget
      · exact hbefore ((get_apply_of_ne hid).symm.trans hget)

/-! ## What a store answers -/

/-- The store answers about the id as about a file of this name and source, with these lines. -/
structure Holds (fs : Files) (id : FileId) (title text : String) (lines : LineTable) : Prop where
  name : fs.name id = .ok title
  source : fs.source id = .ok text
  lineIndex : ∀ offset, fs.lineIndex id offset =
    (lines.lineAt offset).mapError fun _ => .indexTooLarge offset (byteLength text.toList)
  lineRange : ∀ line, fs.lineRange id line = (lines.range line).mapError fun _ => .lineTooLarge line lines.size

/-- There is no file with the id: whatever is asked about it fails, and setting its lines changes nothing. -/
structure Lacks (fs : Files) (id : FileId) : Prop where
  name : fs.name id = .error .fileMissing
  source : fs.source id = .error .fileMissing
  lineIndex : ∀ offset, fs.lineIndex id offset = .error .fileMissing
  lineRange : ∀ line, fs.lineRange id line = .error .fileMissing
  location : ∀ offset, fs.location id offset = .error .fileMissing
  setLines : ∀ lines, fs.setLines id lines = .error .fileMissing ∧ fs.apply (.setLines id lines) = fs

/-- Both stores give the same answers about the id. -/
structure AgreeOn (fs gs : Files) (id : FileId) : Prop where
  name : fs.name id = gs.name id
  source : fs.source id = gs.source id
  lineIndex : ∀ offset, fs.lineIndex id offset = gs.lineIndex id offset
  lineRange : ∀ line, fs.lineRange id line = gs.lineRange id line
  location : ∀ offset, fs.location id offset = gs.location id offset

theorem Holds.of_get (hget : fs.get id = .ok file) : fs.Holds id file.name file.source file.lines where
  name := name_eq hget
  source := source_eq hget
  lineIndex offset := by
    rw [Files.lineIndex, hget, ok_bind]
    cases file.lines.lineAt offset <;> rfl
  lineRange line := by
    rw [Files.lineRange, hget, ok_bind]
    cases file.lines.range line <;> rfl

theorem Lacks.of_get (hget : fs.get id = .error .fileMissing) : fs.Lacks id where
  name := by rw [Files.name, hget]; rfl
  source := by rw [Files.source, hget]; rfl
  lineIndex offset := by rw [Files.lineIndex, hget]; rfl
  lineRange line := by rw [Files.lineRange, hget]; rfl
  location offset := by rw [Files.location, Files.lineIndex, hget]; rfl
  setLines lines := by
    rcases setLines_cases fs id lines with ⟨file, hfile, -⟩ | ⟨-, hset⟩
    · rw [hget] at hfile
      cases hfile
    · exact hset

theorem AgreeOn.of_get {gs : Files} (h : fs.get id = gs.get id) : AgreeOn fs gs id where
  name := name_congr h
  source := source_congr h
  lineIndex := lineIndex_congr h
  lineRange := lineRange_congr h
  location := location_congr h

/-- What the store answers about a file is all there is to ask about it. -/
theorem Holds.agreeOn {gs : Files} (hfs : fs.Holds id name source lines) (hgs : gs.Holds id name source lines) :
    AgreeOn fs gs id where
  name := hfs.name.trans hgs.name.symm
  source := hfs.source.trans hgs.source.symm
  lineIndex offset := (hfs.lineIndex offset).trans (hgs.lineIndex offset).symm
  lineRange line := (hfs.lineRange line).trans (hgs.lineRange line).symm
  location offset := by
    simp only [Files.location, hfs.lineIndex, hgs.lineIndex, hfs.source, hgs.source, hfs.lineRange, hgs.lineRange]

/-- After a file was entered, and its name was not used again, the store answers with its source. -/
theorem Holds.of_run (h : fs.Mapped) (hget : fs.get id = .ok ⟨name, source, none⟩)
    (hname : ∀ text, .upsert name text ∉ ops) :
    ((∀ lines, .setLines id lines ∉ ops) → (fs.run ops).Holds id name source (.ofText source.toList)) ∧
      ∀ front lines back, ops = front ++ .setLines id lines :: back → (∀ later, .setLines id later ∉ back) →
        (fs.run ops).Holds id name source lines := by
  refine ⟨fun hlines => .of_get (get_run_of_untouched h hget hname hlines), ?_⟩
  rintro front lines back rfl hlines
  obtain ⟨file, hfile, hfname, hfsource⟩ := exists_get_run h hget front
  have hsource : file.source = source := hfsource fun text hmem => hname text (List.mem_append_left _ hmem)
  have hset := get_setLines hfile lines
  have hback : ∀ text, .upsert file.name text ∉ back := by
    intro text hmem
    rw [hfname] at hmem
    exact hname text (List.mem_append_right _ (List.mem_cons_of_mem _ hmem))
  have hlast := get_run_of_untouched ((h.run front).apply (.setLines id lines)) hset hback hlines
  rw [run_append, run_cons]
  have hholds := Holds.of_get hlast
  rwa [hfname, hsource] at hholds

/--
A store that began empty is a map from names to their latest files, whatever was done to it. Each upsert of a name gives
one id, which is that of no other name and stays the name's id. Behind it stand the source of the last upsert and the
lines that were set since then, or those of the source if none were. No index leads out of the files; an id without a
file is refused; and what is done to one file does not change the answers about another one.
-/
theorem run_maps_names (ops : List Op) :
    let fs := empty.run ops
    (∀ name id, fs.ids.lookup name = some id → id.index < fs.files.length) ∧
    (∀ before name source after, ops = before ++ .upsert name source :: after →
      let id := ((empty.run before).upsert name source).1
      fs.name id = .ok name ∧
      (∀ other text, (fs.upsert other text).1 = id ↔ other = name) ∧
      ((∀ text, .upsert name text ∉ after) →
        ((∀ lines, .setLines id lines ∉ after) → fs.Holds id name source (.ofText source.toList)) ∧
        ∀ front lines back, after = front ++ .setLines id lines :: back → (∀ later, .setLines id later ∉ back) →
          fs.Holds id name source lines)) ∧
    (∀ id, (∀ before name source after, ops = before ++ .upsert name source :: after →
        ((empty.run before).upsert name source).1 ≠ id) → fs.Lacks id) ∧
    ∀ op id, fs.target op ≠ id → (fs.apply op).AgreeOn fs id := by
  intro fs
  have hfs : fs.Mapped := Mapped.empty.run ops
  refine ⟨fun name id hid => ?_, ?_, fun id hnever => ?_, fun op id hid => .of_get (get_apply_of_ne hid)⟩
  · obtain ⟨file, hfile, -⟩ := hfs.indexed name id hid
    exact (List.getElem?_eq_some_iff.mp hfile).1
  · rintro before name source after rfl id
    have hbefore : (empty.run before).Mapped := Mapped.empty.run before
    have hentered : ((empty.run before).apply (.upsert name source)).get id = .ok ⟨name, source, none⟩ :=
      get_upsert hbefore name source
    have happlied := hbefore.apply (.upsert name source)
    have hrun : fs = ((empty.run before).apply (.upsert name source)).run after := by
      simp only [fs, run_append, run_cons]
    rw [hrun] at hfs ⊢
    obtain ⟨file, hfile, rfl, -⟩ := exists_get_run happlied hentered after
    refine ⟨name_eq hfile, fun other text => hfs.target_upsert_iff hfile text, fun hlast => ?_⟩
    exact Holds.of_run happlied hentered hlast
  · cases hget : fs.get id with
    | ok file =>
        obtain ⟨before, name, source, after, hops, hid⟩ := exists_upsert_of_get ops hget
        exact absurd hid (hnever before name source after hops)
    | error e => exact .of_get (get_eq_error hget ▸ hget)

/-- A name is used twice. Lines that were set for its first source are forgotten, those of the other file are kept. -/
theorem run_maps_names_used_twice :
    let ops : List Op :=
      [.upsert "a" "x", .setLines ⟨0⟩ ⟨#[0], 9⟩, .upsert "b" "y", .upsert "a" "\n\n", .setLines ⟨1⟩ ⟨#[0, 4], 7⟩]
    let fs := empty.run ops
    (fs.source ⟨0⟩ = .ok "\n\n" ∧ fs.lineRange ⟨0⟩ 1 = .ok ⟨1, 2⟩) ∧
      (fs.source ⟨1⟩ = .ok "y" ∧ fs.lineRange ⟨1⟩ 1 = .ok ⟨4, 7⟩) ∧
      (fs.apply (.upsert "b" "z")).source ⟨0⟩ = fs.source ⟨0⟩ ∧ empty.name ⟨0⟩ = .error .fileMissing := by
  intro ops fs
  obtain ⟨-, hentered, -, hothers⟩ := run_maps_names ops
  obtain ⟨-, -, hfirst⟩ := hentered [.upsert "a" "x", .setLines ⟨0⟩ ⟨#[0], 9⟩, .upsert "b" "y"] "a" "\n\n" _ rfl
  obtain ⟨-, -, hsecond⟩ := hentered [.upsert "a" "x", .setLines ⟨0⟩ ⟨#[0], 9⟩] "b" "y" _ rfl
  have hnone : ∀ lines, Op.setLines ⟨0⟩ lines ∉ [Op.setLines ⟨1⟩ ⟨#[0, 4], 7⟩] := by simp
  have hown := (hfirst (by simp)).1 hnone
  have hset := (hsecond (by simp)).2 [.upsert "a" "\n\n"] ⟨#[0, 4], 7⟩ [] rfl (by simp)
  have hown1 : (LineTable.ofText "\n\n".toList).range 1 = .ok ⟨1, 2⟩ := by decide +kernel
  refine ⟨⟨hown.source, ?_⟩, ⟨hset.source, (hset.lineRange 1).trans rfl⟩, ?_, ?_⟩
  · exact (hown.lineRange 1).trans (by rw [hown1]; rfl)
  · exact (hothers (.upsert "b" "z") ⟨0⟩ (by decide +kernel)).source
  · exact ((run_maps_names []).2.2.1 ⟨0⟩ (by simp)).name

end Reckon.Files
