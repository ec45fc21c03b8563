import Reckon.Command.Basic
import Reckon.Proofs.Session.Requests

/-!
# How a source ends

A source ends in one of three ways: with a value, with errors before it is evaluated, or with an error of its evaluation.
The way it ends tells the exit status and what is written, and it is the same for every way into the program.
-/

namespace Reckon

open Session

/-- The outcome of a source, with the exit status and what is written when it is run without diagnostics. -/
inductive Ends (source : String) : Outcome → Nat → Output → Prop where
  | value {e v} (hparse : Expr.ofSource source = .ok e) (heval : e.eval = .ok v) :
      Ends source (.value v) 0 ⟨v.text ++ "\n", ""⟩
  /-- All lexical errors in the order of the source, and after them the error of parsing what is left, if there is one. -/
  | compileError {es} (hparse : Expr.ofSource source = .error es) (hne : es ≠ [])
      (hsorted : (scan source).errors.Pairwise fun a b => a.span.stop ≤ b.span.start)
      (hes : es = (scan source).errors ++
        match Parser.parse (scan source).tokens with
        | .ok _ => []
        | .error err => [err]) :
      Ends source .compileError 65 ⟨"", String.join (es.map fun err => err.text ++ "\n")⟩
  | runtimeError {e r} (hparse : Expr.ofSource source = .ok e) (heval : e.eval = .error r) :
      Ends source .runtimeError 70 ⟨"", r.text ++ "\n"⟩

/-- What is written when a source is run without diagnostics. -/
def Session.said (source : String) : Output :=
  ⟨(outcome source).shown, String.join ((problems source).map fun p => p.text ++ "\n")⟩

/-- A source ends in one way only. -/
theorem ends_iff {source : String} {a : Outcome} {n : Nat} {w : Output} :
    Ends source a n w ↔ a = outcome source ∧ n = (outcome source).exit.code ∧ w = said source := by
  unfold said outcome problems
  constructor
  · intro h
    cases h with
    | value hparse heval => simp [hparse, heval, Outcome.shown, Outcome.exit, Exit.code]
    | compileError hparse =>
        simp [hparse, Outcome.shown, Outcome.exit, Exit.code, Function.comp_def]
    | runtimeError hparse heval => simp [hparse, heval, Outcome.shown, Outcome.exit, Exit.code, String.join]
  · rintro ⟨rfl, rfl, rfl⟩
    cases hparse : Expr.ofSource source with
    | error es =>
        obtain ⟨hne, hes⟩ := Expr.ofSource_eq_error hparse
        have hends := Ends.compileError hparse hne (pairwise_errors source) hes
        simpa only [List.map_map, Function.comp_def, Outcome.shown, Outcome.exit, Exit.code] using hends
    | ok e =>
        dsimp only
        cases heval : e.eval with
        | ok v => exact .value hparse heval
        | error r => simpa [Outcome.shown, Outcome.exit, Exit.code, String.join] using Ends.runtimeError hparse heval

namespace Session

variable {s : Session} {config : Config}

theorem written_eq (ht : config.trace = false) (hd : config.diagnostics = false) (name source : String) :
    written config name source = ⟨"", (said source).err⟩ := by
  simp [written, trace, Problem.report, said, ht, hd]

theorem written_append_shown (ht : config.trace = false) (hd : config.diagnostics = false) (name source : String) :
    written config name source ++ ⟨(outcome source).shown, ""⟩ = said source := by
  rw [written_eq ht hd]
  show Output.mk ("" ++ (outcome source).shown) ((said source).err ++ "") = said source
  rw [String.empty_append, String.append_empty]
  rfl

/-- A line that is not blank is answered as its source ends, and then the prompt goes on with the lines after it. -/
theorem exists_repl_line (h : s.files.Indexed) (ht : s.config.trace = false) (hd : s.config.diagnostics = false)
    {source : String} {rest : List Read} (hline : s.console = .memory (.line source :: rest))
    (hblank : Text.allBlank source.toList = false) :
    ∃ step later, s.repl = .ok step ∧ (start s.config (.memory rest)).repl = .ok later ∧
      step.result = later.result ∧ step.output = ⟨prompt, ""⟩ ++ said source ++ later.output := by
  obtain ⟨files, -, hrepl⟩ := exists_repl h
  obtain ⟨files', -, hlater⟩ := exists_repl (s := start s.config (.memory rest)) Files.indexed_empty
  have hanswer : answerTo s.config (.line source) = (none, said source) := by
    simp [answerTo, Read.isBlank, hblank, written_append_shown ht hd]
  refine ⟨_, _, hrepl, hlater, ?_, ?_⟩
  · simp [hline, Console.pending, conversation, hanswer, start]
  · simp [hline, Console.pending, Console.keep, conversation, hanswer, start]

/--
Without diagnostics and without a trace, a source ends in exactly one way, whatever came before it. To run it, to interpret
it, to read it as a line and to start the program on a file of it all come to this way, and write the same about it.
-/
theorem entry_points_agree {diagnostics : Bool} {pending : List Read} {before : List Request}
    (hs : (start ⟨diagnostics, false⟩ (.memory pending)).after before = .ok s) (hd : s.config.diagnostics = false)
    (name source : String) :
    ∃ outcome code output, Ends source outcome code output ∧
      (∀ outcome' code' output', Ends source outcome' code' output' →
        outcome' = outcome ∧ code' = code ∧ output' = output) ∧
      (∃ exit t, s.run name source = .ok ⟨exit, output, t⟩ ∧ exit = outcome.exit ∧ exit.code = code) ∧
      (∃ t, s.interpret source = .ok ⟨outcome, ⟨"", output.err⟩, t⟩) ∧
      (∀ rest, s.console = .memory (.line source :: rest) → Text.allBlank source.toList = false →
        ∃ step later, s.repl = .ok step ∧ (start s.config (.memory rest)).repl = .ok later ∧
          step.result = later.result ∧ step.output = ⟨prompt, ""⟩ ++ output ++ later.output) ∧
      (∀ files reads path, files path = .ok source → path ≠ Invocation.diagnosticsFlag →
        (Invocation.ofArgs [path]).perform files reads = .ok (code, output)) ∧
      ∀ files rest, Text.allBlank source.toList = false →
        ∃ code' later, (Invocation.ofArgs []).perform files rest = .ok (code', later) ∧
          (Invocation.ofArgs []).perform files (.line source :: rest) = .ok (code', ⟨prompt, ""⟩ ++ output ++ later) := by
  obtain ⟨t, ht, hindexed, hconfig, -, hconsole⟩ :=
    exists_after (s := start ⟨diagnostics, false⟩ (.memory pending)) Files.indexed_empty before
  obtain rfl : s = t := Except.ok.inj (hs.symm.trans ht)
  have htrace : s.config.trace = false := by
    rw [hconfig]
    exact Config.trace_foldl_after before _
  obtain ⟨reads, hreads⟩ : ∃ reads, s.console = .memory reads := ⟨_, hconsole⟩
  refine ⟨outcome source, _, said source, ends_iff.mpr ⟨rfl, rfl, rfl⟩, fun _ _ _ h => ends_iff.mp h, ?_, ?_,
    fun rest hline hblank => exists_repl_line hindexed htrace hd hline hblank, ?_, ?_⟩
  · obtain ⟨id, files, -, -, -, hexecute⟩ := exists_execute hindexed name source
    refine ⟨_, { s with files := files }, ?_, rfl, rfl⟩
    simp only [run, hexecute, bind, Except.bind, written_append_shown htrace hd, hreads, Console.keep]
  · obtain ⟨id, files, -, -, -, hexecute⟩ := exists_execute hindexed promptName source
    refine ⟨{ s with files := files }, ?_⟩
    simp only [interpret, hexecute, bind, Except.bind, written_eq htrace hd, hreads, Console.keep]
  · intro files reads path hpath hflag
    obtain ⟨id, files', -, -, -, hexecute⟩ :=
      exists_execute (s := start ⟨false, false⟩ (.memory reads)) Files.indexed_empty path source
    have hsaid : written ⟨false, false⟩ path source ++ ⟨(outcome source).shown, ""⟩ = said source :=
      written_append_shown rfl rfl path source
    simp only [Invocation.ofArgs, if_neg hflag, Invocation.perform, hpath, Invocation.session, run, hexecute, bind,
      Except.bind]
    simp only [start, Console.keep, hsaid]
  · intro files rest hblank
    obtain ⟨step, later, hstep, hlater, hresult, houtput⟩ :=
      exists_repl_line (s := start ⟨false, false⟩ (.memory (.line source :: rest))) Files.indexed_empty rfl rfl rfl hblank
    have hlater : (start ⟨false, false⟩ (.memory rest)).repl = .ok later := hlater
    refine ⟨later.result.code, later.output, ?_, ?_⟩
    · simp only [Invocation.ofArgs, Invocation.perform, Invocation.session, hlater, bind, Except.bind]
    · simp only [Invocation.ofArgs, Invocation.perform, Invocation.session, hstep, hresult, houtput, bind, Except.bind]

/-- A source with an error of either sort, of which the lexical one is reported first. -/
theorem entry_points_agree_both_stages :
    let report := "[line 0] Error: Unexpected character.\n[line 0] Error at end: Expect expression.\n"
    (∃ s t, (start ⟨true, false⟩ (.memory [])).after [.configure false] = .ok s ∧
      s.run "sum" "@ nil +" = .ok ⟨.compileError, ⟨"", report⟩, t⟩) ∧
      (Invocation.ofArgs ["sum"]).perform (fun _ => .ok "@ nil +") [] = .ok (65, ⟨"", report⟩) := by
  intro report
  have hparse : Expr.ofSource "@ nil +" = .error [.lexical 0 ⟨0, 1⟩ .unexpectedCharacter,
      .atToken (.eof 0 7) .expectExpression] := by
    rw [Expr.ofSource, scan_eq]
    cbv
  obtain ⟨hne, hes⟩ := Expr.ofSource_eq_error hparse
  have hends : Ends "@ nil +" .compileError 65 ⟨"", report⟩ := by
    have hreport : String.join ([CompileError.lexical 0 ⟨0, 1⟩ .unexpectedCharacter,
        CompileError.atToken (.eof 0 7) .expectExpression].map fun err => err.text ++ "\n") = report := by decide
    exact hreport ▸ .compileError hparse hne (pairwise_errors _) hes
  have hs : (start ⟨true, false⟩ (.memory [])).after [.configure false] = .ok (start ⟨false, false⟩ (.memory [])) := rfl
  obtain ⟨outcome, code, output, -, hunique, ⟨exit, t, hrun, hexit, -⟩, -, -, hprogram, -⟩ :=
    entry_points_agree hs rfl "sum" "@ nil +"
  obtain ⟨rfl, rfl, rfl⟩ := hunique _ _ _ hends
  subst hexit
  exact ⟨⟨_, t, hs, hrun⟩, hprogram _ [] "sum" rfl (by decide)⟩

end Session
end Reckon
