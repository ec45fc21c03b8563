import Reckon.Proofs.Session.Reports
import Reckon.Proofs.Source.History
import Reckon.Proofs.Source.Location

/-!
# Locations in a session

A session enters each source together with the table that was found by scanning it. So every file that it holds has the
table of its own source, whatever was executed since, and locations in it are right.
-/

namespace Reckon

open Text

/-- Each name has its own file, and every file is as it was entered. -/
structure Files.AllEntered (fs : Files) : Prop where
  indexed : fs.Indexed
  entered : ∀ id file, fs.get id = .ok file → file = .entered file.name file.source

theorem Files.AllEntered.locates {fs : Files} {id : FileId} {file : File} (h : fs.AllEntered)
    (hget : fs.get id = .ok file) : fs.Locates id file.source := by
  refine .of_get hget ?_
  rw [h.entered id file hget]
  rfl

theorem Files.allEntered_empty : Files.empty.AllEntered where
  indexed := Files.indexed_empty
  entered id file h := by cases h

theorem Files.AllEntered.enter {fs gs : Files} {id : FileId} {name source : String} (h : fs.AllEntered)
    (henter : fs.enter name source (scan source).lines = .ok (id, gs)) : gs.AllEntered := by
  obtain ⟨id', gs', henter', hindexed, hget⟩ := h.indexed.exists_enter name source (scan source).lines
  rw [henter] at henter'
  cases henter'
  refine ⟨hindexed, fun jd file hfile => ?_⟩
  by_cases hid : id = jd
  · subst hid
    rw [hget] at hfile
    cases hfile
    rw [lines_scan]
    rfl
  · rw [Files.get_enter_of_ne henter hid] at hfile
    exact h.entered jd file hfile

namespace Session

variable {s t : Session} {request : Request} {name source : String}

/-! ## What a session holds -/

theorem execute_holds {step : Step Outcome} (h : s.files.AllEntered) (hstep : s.execute name source = .ok step) :
    step.session.files.AllEntered := by
  obtain ⟨id, files, henter, -, -, hexecute⟩ := exists_execute h.indexed name source
  rw [hexecute] at hstep
  cases hstep
  exact h.enter henter

theorem answer_holds {step : Step (Option Exit)} {read : Read} (h : s.files.AllEntered)
    (hstep : s.answer read = .ok step) : step.session.files.AllEntered := by
  cases read with
  | failure message =>
      cases hstep
      exact h
  | line text =>
      rw [answer] at hstep
      split at hstep
      · cases hstep
        exact h
      · obtain ⟨executed, hexecute, hstep⟩ := bind_eq_ok.mp hstep
        cases hstep
        exact execute_holds h hexecute

theorem converse_holds {reads : List Read} {step : Step (Exit × List Read)} (h : s.files.AllEntered)
    (hstep : s.converse reads = .ok step) : step.session.files.AllEntered := by
  induction reads generalizing s step with
  | nil =>
      cases hstep
      exact h
  | cons read rest ih =>
      rw [converse] at hstep
      obtain ⟨answered, hanswer, hstep⟩ := bind_eq_ok.mp hstep
      have hanswered := answer_holds h hanswer
      split at hstep
      · cases hstep
        exact hanswered
      · obtain ⟨later, hlater, hstep⟩ := bind_eq_ok.mp hstep
        cases hstep
        have hlast := ih hanswered hlater
        exact hlast

theorem perform_holds {step : Step Reply} (h : s.files.AllEntered) (hstep : s.perform request = .ok step) :
    step.session.files.AllEntered := by
  cases request with
  | run name source =>
      obtain ⟨ran, hrun, rfl⟩ := map_eq_ok.mp hstep
      obtain ⟨executed, hexecute, hrun⟩ := bind_eq_ok.mp hrun
      cases hrun
      exact execute_holds h hexecute
  | interpret source =>
      obtain ⟨interpreted, hinterpret, rfl⟩ := map_eq_ok.mp hstep
      obtain ⟨executed, hexecute, hinterpret⟩ := bind_eq_ok.mp hinterpret
      cases hinterpret
      exact execute_holds h hexecute
  | repl =>
      obtain ⟨conversed, hrepl, rfl⟩ := map_eq_ok.mp hstep
      obtain ⟨talked, hconverse, hrepl⟩ := bind_eq_ok.mp hrepl
      cases hrepl
      exact converse_holds h hconverse
  | configure diagnostics =>
      cases hstep
      exact h

theorem after_holds {requests : List Request} (h : s.files.AllEntered) (hafter : s.after requests = .ok t) :
    t.files.AllEntered := by
  induction requests generalizing s with
  | nil =>
      cases hafter
      exact h
  | cons request requests ih =>
      obtain ⟨step, hperform, hafter⟩ := bind_eq_ok.mp hafter
      exact ih (perform_holds h hperform) hafter

theorem Reads.holds {reads : List Read} (h : Reads s reads t source) (hs : s.files.AllEntered) : t.files.AllEntered := by
  induction h with
  | now => exact hs
  | later hanswer hgoes ht ih => exact ih (answer_holds hs hanswer)

theorem Executes.holds (h : Executes s request t name source) (hs : s.files.AllEntered) : t.files.AllEntered := by
  cases h with
  | run | interpret => exact hs
  | repl hreads => exact hreads.holds hs

/-! ## Locations -/

/--
In a file that has no table or the one of its source, each place between characters is found by its line and column, as
it is in all the files that a session holds, between requests and whenever a source was executed. The file of this source
is then among them.
-/
theorem locations_identify_places (config : Config) (console : Console) (requests : List Request) :
    (∀ (fs : Files) id file, fs.get id = .ok file →
      (file.lines? = none ∨ file.lines? = some (.ofText file.source.toList)) → fs.Locates id file.source) ∧
    ∃ s, (start config console).after requests = .ok s ∧
      (∀ id file, s.files.get id = .ok file → s.files.Locates id file.source) ∧
      ∀ request t name source, Executes s request t name source →
        ∃ step id, t.execute name source = .ok step ∧
          step.session.files.get id = .ok ⟨name, source, some (.ofText source.toList)⟩ ∧
          ∀ jd file, step.session.files.get jd = .ok file → step.session.files.Locates jd file.source := by
  refine ⟨fun fs id file hget hlines => .of_get hget ?_, ?_⟩
  · rcases hlines with h | h <;> rw [File.lines, h] <;> rfl
  · obtain ⟨s, hafter, -⟩ := exists_after (s := start config console) Files.indexed_empty requests
    have hs : s.files.AllEntered := after_holds Files.allEntered_empty hafter
    refine ⟨s, hafter, fun id file => hs.locates, fun request t name source hexecutes => ?_⟩
    have ht := hexecutes.holds hs
    obtain ⟨id, files, -, -, hget, hexecute⟩ := exists_execute ht.indexed name source
    exact ⟨_, id, hexecute, hget, fun jd file => (execute_holds ht hexecute).locates⟩

/-- A file with characters of two bytes, and a source whose name was used before for another one. -/
theorem locations_identify_places_two_bytes :
    (Files.location ⟨[⟨"a", "é\nü+", none⟩], []⟩ ⟨0⟩ 5 = .ok ⟨2, 2⟩ ∧
      Files.location ⟨[⟨"a", "é\nü+", none⟩], []⟩ ⟨0⟩ 7 = .error (.indexTooLarge 7 6)) ∧
    ∃ s id step, (start ⟨true, false⟩ (.memory [])).after [.run "a" "é\n1", .run "b" "\n"] = .ok s ∧
      s.execute "a" "\n-é" = .ok step ∧ step.session.files.location id 2 = .ok ⟨2, 2⟩ := by
  obtain ⟨hfiles, s, hafter, -, hexecutes⟩ :=
    locations_identify_places ⟨true, false⟩ (.memory []) [.run "a" "é\n1", .run "b" "\n"]
  have hfile := hfiles ⟨[⟨"a", "é\nü+", none⟩], []⟩ ⟨0⟩ ⟨"a", "é\nü+", none⟩ rfl (.inl rfl)
  refine ⟨⟨(hfile.location 5 (by decide +kernel)).trans (by decide +kernel), hfile.beyond 7 (by decide +kernel)⟩, ?_⟩
  obtain ⟨step, id, hstep, hget, hlocates⟩ := hexecutes (.run "a" "\n-é") s "a" "\n-é" .run
  have hplace := (hlocates id _ hget).location 2 (by decide +kernel)
  exact ⟨s, id, step, hafter, hstep, hplace.trans (by decide +kernel)⟩

end Session
end Reckon
