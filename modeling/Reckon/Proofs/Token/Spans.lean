import Reckon.Proofs.Token.LongestMatch

/-!
# Spans of a source

Tokens and errors have the spans of parts of their source, and those that are found later have later ones.
-/

namespace Reckon

open Text Piece

variable {offset line : Nat} {cs : List Char}

/-! ## Boundaries -/

theorem Text.ends_append (start : Nat) (as bs : List Char) :
    ends start (as ++ bs) = ends start as ++ ends (start + byteLength as) bs := by
  induction as generalizing start with
  | nil => rfl
  | cons c as ih => simp [ends, ih, Nat.add_assoc]

theorem Text.byteLength_mem_ends {as : List Char} (h : as ≠ []) : byteLength as ∈ ends 0 as := by
  rw [← List.dropLast_append_getLast h, ends_append]
  simp [ends]

theorem Text.isBoundary_byteLength (as bs : List Char) : isBoundary (as ++ bs) (byteLength as) := by
  by_cases h : as = []
  · simp [isBoundary, h]
  · simp [isBoundary, ends_append, byteLength_mem_ends h]

/-! ## Parts of a text -/

/-- It is the span of a part of the text. -/
def Span.Within (s : Span) (cs : List Char) : Prop :=
  ∃ before text after, cs = before ++ text ++ after ∧ s = ⟨byteLength before, byteLength before + byteLength text⟩

namespace Span.Within

variable {s : Span}

theorem start_le_stop (h : s.Within cs) : s.start ≤ s.stop := by
  obtain ⟨before, text, after, -, rfl⟩ := h
  exact Nat.le_add_right _ _

theorem stop_le (h : s.Within cs) : s.stop ≤ byteLength cs := by
  obtain ⟨before, text, after, rfl, rfl⟩ := h
  simp

theorem isBoundary_start (h : s.Within cs) : isBoundary cs s.start := by
  obtain ⟨before, text, after, rfl, rfl⟩ := h
  rw [List.append_assoc]
  exact isBoundary_byteLength before (text ++ after)

theorem isBoundary_stop (h : s.Within cs) : isBoundary cs s.stop := by
  obtain ⟨before, text, after, rfl, rfl⟩ := h
  have := isBoundary_byteLength (before ++ text) after
  rwa [byteLength_append] at this

end Span.Within

/-! ## What is scanned -/

theorem within_of_mem_tokens {source : String} {t : Token} (h : t ∈ (scan source).tokens) :
    t.span.Within source.toList := by
  rw [scan_eq] at h
  rcases List.mem_append.mp h with h | h
  · obtain ⟨before, text, after, hcs, hspan, -⟩ := matchedIn_of_mem h
    exact ⟨before, text, after, hcs, hspan⟩
  · rw [List.mem_singleton.mp h]
    exact ⟨source.toList, [], [], by simp, rfl⟩

theorem within_of_mem_errors {source : String} {e : CompileError} (h : e ∈ (scan source).errors) :
    e.span.Within source.toList := by
  rw [scan_eq] at h
  obtain ⟨before, text, after, hcs, he, -⟩ := standsIn_of_mem h
  exact ⟨before, text, after, hcs, by rw [he]; rfl⟩

/-- Each of the collected things begins where the one before it ends, or later. -/
theorem Piece.pairwise_collect {α : Type} {f : Piece → Nat → Nat → Option α} {span : α → Span} {ps : List Piece}
    (hspan : ∀ p offset line a, f p offset line = some a → span a = ⟨offset, offset + byteLength p.text⟩) :
    (∀ a ∈ collect f offset line ps, offset ≤ (span a).start) ∧
      (collect f offset line ps).Pairwise fun a b => (span a).stop ≤ (span b).start := by
  induction ps generalizing offset line with
  | nil => simp [collect]
  | cons p ps ih =>
      obtain ⟨hafter, hpairwise⟩ := @ih (offset + byteLength p.text) (line + lineBreaks p.text)
      rw [collect]
      cases hp : f p offset line with
      | none => exact ⟨fun a ha => Nat.le_trans (Nat.le_add_right _ _) (hafter a ha), hpairwise⟩
      | some a =>
          have ha := hspan p offset line a hp
          refine ⟨?_, List.pairwise_cons.mpr ⟨fun b hb => ?_, hpairwise⟩⟩
          · rintro b (_ | ⟨_, hb⟩)
            · rw [ha]
            · exact Nat.le_trans (Nat.le_add_right _ _) (hafter b hb)
          · rw [ha]
            exact hafter b hb

theorem pairwise_errors (source : String) :
    (scan source).errors.Pairwise fun a b => a.span.stop ≤ b.span.start := by
  rw [scan_eq]
  refine (pairwise_collect fun p offset line e h => ?_).2
  rw [(of_error?_eq_some h).2]
  rfl

end Reckon
