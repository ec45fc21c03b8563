import Reckon.Proofs.Diagnostic.Render
import Reckon.Proofs.Expr.Blame
import Reckon.Session.Basic

/-!
# Executing a source

What a source comes to, what is wrong with it and what is written about it are functions of the source, its name and the
configuration. A session in whose store each name has its own file executes a source as these functions say, and only its
store changes (`exists_execute`). Every error can be shown, since it marks a part of the source.
-/

namespace Reckon

open Text

/-! ## What a source comes to -/

/-- An error: the line that reports it, and how it is shown. -/
structure Problem where
  text : String
  diagnostic : Diagnostic
deriving DecidableEq, Repr

/-- What is wrong with a source, in the order of the reports. -/
def problems (source : String) : List Problem :=
  match Expr.ofSource source with
  | .error errors => errors.map fun e => ⟨e.text, e.diagnostic⟩
  | .ok e =>
      match e.eval with
      | .ok _ => []
      | .error r => [⟨r.text, r.diagnostic⟩]

def outcome (source : String) : Outcome :=
  match Expr.ofSource source with
  | .error _ => .compileError
  | .ok e =>
      match e.eval with
      | .ok v => .value v
      | .error _ => .runtimeError

theorem within_of_mem_problems {source : String} {p : Problem} (h : p ∈ problems source) :
    p.diagnostic.span.Within source.toList := by
  unfold problems at h
  split at h
  · rename_i errors herrors
    obtain ⟨e, he, rfl⟩ := List.mem_map.mp h
    exact Expr.within_of_mem_ofSource herrors he
  · rename_i e he
    split at h
    · cases h
    · rename_i r hr
      obtain rfl := List.mem_singleton.mp h
      exact Expr.within_of_eval_eq_error he hr

/-! ## What is written -/

/-- The file of a source that is being executed. -/
def File.entered (name source : String) : File := ⟨name, source, some (.ofText source.toList)⟩

/-- How a problem of a file is shown: as in a store without other files, where it can be shown if at all. -/
def Problem.shown (p : Problem) (file : File) : String :=
  match p.diagnostic.render ⟨[file], []⟩ Files.firstId with
  | .ok text => text
  | .error _ => ""

def Problem.report (p : Problem) (config : Config) (file : File) : String :=
  if config.diagnostics then p.text ++ "\n" ++ p.shown file else p.text ++ "\n"

theorem Problem.render_eq {files : Files} {id : FileId} {name source : String} {p : Problem} (hp : p ∈ problems source)
    (hget : files.get id = .ok (.entered name source)) :
    p.diagnostic.render files id = .ok (p.shown (.entered name source)) := by
  have hspan := within_of_mem_problems hp
  have halone : files.get id = Files.get ⟨[.entered name source], []⟩ Files.firstId := hget
  obtain ⟨text, htext⟩ := Diagnostic.exists_render hget (LineTable.size_ofText_pos _) hspan.start_le_stop hspan.stop_le
  rw [htext, shown, ← Diagnostic.render_congr halone, htext]

namespace Session

/-- What is written of a source before it is evaluated. -/
def trace (config : Config) (source : String) : String :=
  if config.trace then
    tokenTrace (scan source).tokens ++
      match Expr.ofSource source with
      | .error _ => ""
      | .ok e => treeTrace e
  else ""

/-- What is written when a source is executed. -/
def written (config : Config) (name source : String) : Output :=
  ⟨trace config source, String.join ((problems source).map fun p => p.report config (.entered name source))⟩

variable {s : Session} {files : Files} {id : FileId} {name source : String}

theorem report_eq (config : Config) (hget : files.get id = .ok (.entered name source)) {p : Problem}
    (hp : p ∈ problems source) :
    report config files id p.text p.diagnostic = .ok (p.report config (.entered name source)) := by
  simp only [report, Problem.report, Problem.render_eq hp hget, ok_bind]
  split <;> rfl

theorem reportAll_eq (config : Config) (hget : files.get id = .ok (.entered name source)) {errors : List CompileError}
    (h : Expr.ofSource source = .error errors) :
    reportAll config files id errors =
      .ok (String.join ((problems source).map fun p => p.report config (.entered name source))) := by
  have hproblems : problems source = errors.map fun e => ⟨e.text, e.diagnostic⟩ := by simp only [problems, h]
  have hreports : ∀ e ∈ errors, report config files id e.text e.diagnostic =
      .ok (Problem.report ⟨e.text, e.diagnostic⟩ config (.entered name source)) := by
    intro e he
    exact report_eq config hget (hproblems ▸ List.mem_map_of_mem he)
  simp only [reportAll, mapM_eq_ok hreports, ok_bind, hproblems, List.map_map]
  rfl

/-- Executing succeeds, and changes nothing but the files, which stay in order. -/
theorem exists_execute (h : s.files.Indexed) (name source : String) :
    ∃ id files, s.files.enter name source (scan source).lines = .ok (id, files) ∧ files.Indexed ∧
      files.get id = .ok (.entered name source) ∧
      s.execute name source = .ok ⟨outcome source, written s.config name source, { s with files := files }⟩ := by
  obtain ⟨id, files, henter, hindexed, hget⟩ := h.exists_enter name source (scan source).lines
  have hget : files.get id = .ok (.entered name source) := by rw [hget, lines_scan]; rfl
  refine ⟨id, files, henter, hindexed, hget, ?_⟩
  unfold execute
  simp only [henter, ok_bind]
  cases hparse : Expr.ofSource source with
  | error errors =>
      have hscan : Expr.ofScan (scan source) = .error errors := hparse
      simp only [hscan, reportAll_eq s.config hget hparse, written, trace, outcome, hparse]
      cases s.config.trace <;> simp
  | ok e =>
      have hscan : Expr.ofScan (scan source) = .ok e := hparse
      simp only [hscan]
      cases heval : e.eval with
      | ok v =>
          simp only [written, trace, outcome, problems, hparse, heval]
          cases s.config.trace <;> rfl
      | error r =>
          have hproblems : problems source = [⟨r.text, r.diagnostic⟩] := by simp only [problems, hparse, heval]
          have hreport := report_eq s.config hget (hproblems ▸ List.mem_cons_self)
          simp only [hreport, written, trace, outcome, hproblems, hparse, heval]
          cases s.config.trace <;> simp [String.join]

end Session
end Reckon
