import Reckon.Proofs.Session.Requests

/-!
# Transcripts of the prompt

Up to the first read that ends it, the prompt answers each line as a source by itself, one behind the other. It reads no
further than that, so that the next prompt of the session goes on with the read after it (`repl_transcript`).
-/

namespace Reckon

/-- The reads in turn. After the last of them comes the end of the input, for ever. -/
def readAt (reads : List Read) (i : Nat) : Read :=
  reads.getD i (.line "")

theorem readAt_drop (reads : List Read) (n i : Nat) : readAt (reads.drop n) i = readAt reads (n + i) := by
  simp [readAt]

theorem readAt_cons_succ (read : Read) (reads : List Read) (i : Nat) : readAt (read :: reads) (i + 1) = readAt reads i := by
  simp [readAt]

namespace Session

/-- The read ends the prompt, with the exit, its code and a last text to the standard error output. -/
inductive Closes : Read → Exit → Nat → String → Prop where
  /-- A line of white space, which the end of the input is too. -/
  | blank {text : String} (h : Text.allBlank text.toList) : Closes (.line text) .ok 0 ""
  | failure (message : String) : Closes (.failure message) .ioError 74 (message ++ "\n")

/-- What a line adds to the standard output: its value, if it has one. A session that traces puts its trace before it. -/
def lineOut (config : Config) (text : String) : String :=
  trace config text ++ (outcome text).shown

/-- What a line adds to the standard error output: the reports of what is wrong with it. -/
def lineErr (config : Config) (text : String) : String :=
  String.join ((problems text).map fun p => p.report config (.entered promptName text))

/-- From the `n`-th read on, the prompt reads the lines and answers each of them, and the read after them ends it. -/
structure Transcript (config : Config) (reads : List Read) (n : Nat) (lines : List String) (exit : Exit)
    (output : Output) : Prop where
  each : ∀ i (h : i < lines.length), readAt reads (n + i) = .line lines[i]
  goesOn : ∀ text ∈ lines, Text.allBlank text.toList = false
  closes : ∃ last, Closes (readAt reads (n + lines.length)) exit exit.code last ∧
    output.err = String.join (lines.map (lineErr config)) ++ last
  out : output.out = String.join (lines.map fun text => prompt ++ lineOut config text) ++ prompt

namespace Transcript

variable {config : Config} {rest : List Read} {n : Nat} {lines : List String} {exit : Exit} {output : Output}

theorem of_closes {read : Read} {last : String} (h : Closes read exit exit.code last) (hread : readAt rest 0 = read) :
    Transcript config rest 0 [] exit (⟨prompt, ""⟩ ++ ⟨"", last⟩) where
  each := fun i hi => absurd hi (Nat.not_lt_zero i)
  goesOn := by simp
  closes := ⟨last, hread ▸ h, rfl⟩
  out := rfl

/-- One line more is answered before the others. -/
theorem cons {text : String} (htext : Text.allBlank text.toList = false)
    (h : Transcript config rest 0 lines exit output) :
    Transcript config (.line text :: rest) 0 (text :: lines) exit
      (⟨prompt, ""⟩ ++ ⟨lineOut config text, lineErr config text⟩ ++ output) where
  each := by
    intro i hi
    cases i with
    | zero => rfl
    | succ i =>
        have := h.each i (Nat.lt_of_succ_lt_succ hi)
        rw [Nat.zero_add] at this ⊢
        rw [readAt_cons_succ, this, List.getElem_cons_succ]
  goesOn := List.forall_mem_cons.mpr ⟨htext, h.goesOn⟩
  closes := by
    obtain ⟨last, hlast, herr⟩ := h.closes
    refine ⟨last, ?_, ?_⟩
    · rw [Nat.zero_add] at hlast ⊢
      rw [List.length_cons, readAt_cons_succ]
      exact hlast
    · show "" ++ lineErr config text ++ output.err = _
      simp [herr, String.append_assoc]
  out := by
    show prompt ++ lineOut config text ++ output.out = _
    simp [h.out, String.append_assoc]

theorem of_drop {reads : List Read} (h : Transcript config (reads.drop n) 0 lines exit output) :
    Transcript config reads n lines exit output where
  each := by
    intro i hi
    have := h.each i hi
    rwa [readAt_drop, Nat.zero_add] at this
  goesOn := h.goesOn
  closes := by
    have := h.closes
    rwa [readAt_drop, Nat.zero_add] at this
  out := h.out

/-- The transcript goes on up to the first read that ends the prompt. -/
theorem length_eq {k : Nat} {exit' : Exit} {code : Nat} {last : String} {reads : List Read}
    (h : Transcript config reads n lines exit output)
    (hgo : ∀ i < k, ∃ text, readAt reads (n + i) = .line text ∧ Text.allBlank text.toList = false)
    (hend : Closes (readAt reads (n + k)) exit' code last) : lines.length = k := by
  rcases Nat.lt_trichotomy lines.length k with hlt | heq | hgt
  · obtain ⟨text, hread, hblank⟩ := hgo _ hlt
    obtain ⟨last, hlast, -⟩ := h.closes
    rw [hread] at hlast
    cases hlast with
    | blank htext => simp [hblank] at htext
  · exact heq
  · have hread := h.each k hgt
    rw [hread] at hend
    cases hend with
    | blank htext => simp [h.goesOn _ (List.getElem_mem hgt)] at htext

end Transcript

/-! ## The prompt -/

theorem answerTo_line (config : Config) {text : String} (h : Text.allBlank text.toList = false) :
    answerTo config (.line text) = (none, ⟨lineOut config text, lineErr config text⟩) := by
  have happend : written config promptName text ++ ⟨(outcome text).shown, ""⟩ =
      ⟨lineOut config text, lineErr config text ++ ""⟩ := rfl
  simp [answerTo, Read.isBlank, h, happend]

theorem exists_transcript (config : Config) (reads : List Read) :
    ∃ lines, Transcript config reads 0 lines (conversation config reads).1.1 (conversation config reads).2 ∧
      (conversation config reads).1.2 = reads.drop (lines.length + 1) := by
  induction reads with
  | nil =>
      have hend : Closes (readAt [] 0) .ok 0 "" := .blank rfl
      exact ⟨[], .of_closes hend rfl, rfl⟩
  | cons read rest ih =>
      cases read with
      | failure message => exact ⟨[], .of_closes (.failure message) rfl, rfl⟩
      | line text =>
          cases hblank : Text.allBlank text.toList with
          | true =>
              have hanswer : answerTo config (.line text) = (some .ok, .empty) := by simp [answerTo, Read.isBlank, hblank]
              simp only [conversation, hanswer]
              exact ⟨[], .of_closes (.blank hblank) rfl, rfl⟩
          | false =>
              obtain ⟨lines, htranscript, hrest⟩ := ih
              simp only [conversation, answerTo_line config hblank]
              exact ⟨text :: lines, htranscript.cons hblank, hrest⟩

variable {s t : Session}

/-- From the `n`-th read on, the prompt goes on to the read before the `m`-th one and leaves the session `t`. -/
def Prompts (s : Session) (reads : List Read) (n m : Nat) (t : Session) : Prop :=
  ∃ lines exit output, s.repl = .ok ⟨exit, output, t⟩ ∧ Transcript s.config reads n lines exit output ∧
    m = n + lines.length + 1 ∧ t.console = .memory (reads.drop m)

theorem exists_prompts {reads : List Read} {n : Nat} (h : s.files.Indexed) (hs : s.console = .memory (reads.drop n)) :
    ∃ m t, t.files.Indexed ∧ s.Prompts reads n m t := by
  obtain ⟨files, hindexed, hrepl⟩ := exists_repl h
  obtain ⟨lines, htranscript, hrest⟩ := exists_transcript s.config (reads.drop n)
  rw [hs] at hrepl
  refine ⟨_, _, hindexed, lines, _, _, hrepl, htranscript.of_drop, rfl, ?_⟩
  simp only [Console.pending, Console.withPending, hrest, List.drop_drop, Nat.add_assoc]

/-- A request that is no prompt reads nothing. -/
theorem console_after (h : s.files.Indexed) {requests : List Request} (hno : ∀ request ∈ requests, request ≠ .repl)
    (ht : s.after requests = .ok t) : t.console = s.console := by
  induction requests generalizing s with
  | nil => rw [Except.ok.inj ht]
  | cons request requests ih =>
      obtain ⟨files, hindexed, hperform⟩ := exists_perform h request
      obtain ⟨hrequest, hno⟩ := List.forall_mem_cons.mp hno
      have hunread : unread s.config s.console.pending request = s.console.pending := by
        cases request with
        | repl => exact absurd rfl hrequest
        | run | interpret | configure => rfl
      simp only [after, hperform, ok_bind, hunread, Console.withPending_pending] at ht
      exact ih (s := ⟨_, files, _⟩) hindexed hno ht

/--
Whatever came before it, the prompt answers the lines from where the reads have come to up to the first read that ends
it, and the next prompt of the session goes on behind this read.
-/
theorem repl_transcript (config : Config) (reads : List Read) (before : List Request) :
    ∃ s n, (start config (.memory reads)).after before = .ok s ∧ s.console = .memory (reads.drop n) ∧
      (config.trace = false → ∀ text, lineOut s.config text = (outcome text).shown) ∧
      ∃ m t, s.Prompts reads n m t ∧ ∀ later, (∀ request ∈ later, request ≠ .repl) →
        ∃ u k v, t.after later = .ok u ∧ u.Prompts reads m k v := by
  obtain ⟨s, hafter, hindexed, hconfig, hpending, hconsole⟩ :=
    exists_after (s := start config (.memory reads)) Files.indexed_empty before
  have hreads : s.console.pending = reads.drop (reads.length - s.console.pending.length) :=
    List.suffix_iff_eq_drop.mp hpending
  have hdrop : s.console = .memory (reads.drop (reads.length - s.console.pending.length)) := by
    rw [← hreads]
    exact hconsole
  obtain ⟨m, t, ht, hprompts⟩ := exists_prompts hindexed hdrop
  refine ⟨s, _, hafter, hdrop, fun htrace text => ?_, m, t, hprompts, fun later hlater => ?_⟩
  · have hfalse : s.config.trace = false := by rw [hconfig, Config.trace_foldl_after]; exact htrace
    simp [lineOut, trace, hfalse]
  · obtain ⟨lines, exit, output, -, -, rfl, hrest⟩ := hprompts
    obtain ⟨u, hu, huindexed, -⟩ := exists_after ht later
    have huconsole := (console_after ht hlater hu).trans hrest
    obtain ⟨k, v, -, hnext⟩ := exists_prompts huindexed huconsole
    exact ⟨u, k, v, hu, hnext⟩

/-- The first prompt ends at a blank line, and the second one at a failure in the read after it. -/
theorem repl_transcript_twice :
    let reads : List Read := [.line "-nil", .line "true\n", .line "\t\n", .failure "gone", .line "nil"]
    ∃ t u v, (start ⟨true, false⟩ (.memory reads)).Prompts reads 0 3 t ∧ t.after [.configure false] = .ok u ∧
      u.Prompts reads 3 4 v ∧ v.console = .memory [.line "nil"] := by
  intro reads
  obtain ⟨s, n, hs, hreads, -, m, t, hfirst, hnext⟩ := repl_transcript ⟨true, false⟩ reads []
  obtain ⟨u, k, v, hu, hsecond⟩ := hnext [.configure false] (by simp)
  obtain rfl : start ⟨true, false⟩ (.memory reads) = s := Except.ok.inj hs
  obtain rfl : n = 0 := by
    have hlength := congrArg (List.length ∘ Console.pending) hreads
    simp [start, Console.pending, reads] at hlength
    omega
  obtain rfl : m = 3 := by
    obtain ⟨lines, exit, output, -, htranscript, rfl, -⟩ := hfirst
    rw [htranscript.length_eq (k := 2) ?_ (.blank (by decide +kernel))]
    intro i hi
    obtain rfl | rfl : i = 0 ∨ i = 1 := by omega
    · exact ⟨"-nil", rfl, by decide +kernel⟩
    · exact ⟨"true\n", rfl, by decide +kernel⟩
  obtain rfl : k = 4 := by
    obtain ⟨lines, exit, output, -, htranscript, rfl, -⟩ := hsecond
    rw [htranscript.length_eq (k := 0) (by simp) (.failure "gone")]
  have hrest : v.console = .memory [.line "nil"] := by
    obtain ⟨_, _, _, -, -, -, hconsole⟩ := hsecond
    exact hconsole
  exact ⟨t, u, v, hfirst, hu, hsecond, hrest⟩

end Session
end Reckon
