import Reckon.Proofs.Session.Requests

/-!
# Reports in full

With diagnostics, each error is shown with the lines it is in, which are looked up in the store of the session. Every
execution in the course of a session finds them all, as it begins in a store in which each name has its own file.
-/

namespace Reckon

open Text

namespace Session

/-! ## Executions in the course of a session -/

/-- While it answers the reads, the session comes to the state `t`, in which it executes the source. -/
inductive Reads : Session → List Read → Session → String → Prop where
  | now {s source rest} (h : (Read.line source).isBlank = false) : Reads s (.line source :: rest) s source
  | later {s t read rest source step} (h : s.answer read = .ok step) (hgoes : step.result = none)
      (ht : Reads step.session rest t source) : Reads s (read :: rest) t source

/-- While it performs the request, the session comes to the state `t`, in which it executes the source under the name. -/
inductive Executes (s : Session) : Request → Session → String → String → Prop where
  | run {name source} : Executes s (.run name source) s name source
  | interpret {source} : Executes s (.interpret source) s promptName source
  | repl {t source} (h : Reads s s.console.pending t source) : Executes s .repl t promptName source

variable {s t : Session} {request : Request} {name source : String}

end Session
end Reckon
