import Reckon.Expr.Printer
import Reckon.Proofs.Number.Distinct

/-!
# Printed trees

Trees without strings and without NaN can be told apart by what is printed for them: the trees of one text have the same
shape, the same operators and the same values (`shown_eq_iff`). This holds of texts that something else follows
(`print_append_inj`), so that an operand ends where it has to.
-/

namespace Reckon

/-! ## Words -/

/-- Operators, literals and `group` are words of these characters. -/
def isInWord (c : Char) : Bool :=
  c != ' ' && c != '(' && c != ')'

def IsWord (text : String) : Prop :=
  text ≠ "" ∧ text.toList.all isInWord

theorem isWord_group : IsWord "group" :=
  ⟨by decide, rfl⟩

theorem UnaryOp.isWord_text (op : UnaryOp) : IsWord op.text := by
  cases op <;> exact ⟨by decide, rfl⟩

theorem BinaryOp.isWord_text (op : BinaryOp) : IsWord op.text := by
  cases op <;> exact ⟨by decide, rfl⟩

theorem UnaryOp.text_inj {op op' : UnaryOp} (h : op.text = op'.text) : op = op' := by
  cases op <;> cases op' <;> simp_all [text]

theorem BinaryOp.text_inj {op op' : BinaryOp} (h : op.text = op'.text) : op = op' := by
  cases op <;> cases op' <;> simp_all [text]

theorem UnaryOp.text_ne_group (op : UnaryOp) : op.text ≠ "group" := by
  cases op <;> decide

theorem BinaryOp.text_ne_group (op : BinaryOp) : op.text ≠ "group" := by
  cases op <;> decide

/-! ## Literals -/

namespace Value

variable {v w : Value}

/-- A string may hold any text, and a NaN is not even equal to itself. -/
def Plain : Value → Prop
  | .number x => ¬ x.isNaN
  | .string _ => False
  | .boolean _ | .nil => True

open Layout

theorem isInWord_of_mem {c : Char} (h : c.isAlphanum ∨ c ∈ ['.', '+', '-']) : isInWord c := by
  simp only [isInWord, Bool.and_eq_true, bne_iff_ne]
  refine ⟨⟨?_, ?_⟩, ?_⟩ <;> rintro rfl <;> rcases h with h | h <;> cases h <;> contradiction

theorem Plain.isWord (hv : v.Plain) : IsWord v.literalText := by
  cases v with
  | number x =>
      have hx : x ≠ Float.nan := by simpa [Plain] using hv
      refine ⟨write_ne_word literal_named hx rfl (by decide), ?_⟩
      rw [List.all_eq_true]
      exact fun c hc => isInWord_of_mem (mem_write literal_named hx hc)
  | string s => exact hv.elim
  | boolean b => cases b <;> exact ⟨by decide, rfl⟩
  | nil => exact ⟨by decide, rfl⟩

theorem Plain.ne_nan {x : Float} (h : (Value.number x).Plain) : x ≠ Float.nan := by
  simpa [Plain] using h

/-- Other literals are words, and only infinity has a word for its text. -/
theorem Plain.literalText_ne {x : Float} (hx : (Value.number x).Plain) (hv : v.Plain) (hne : ∀ y, v ≠ .number y) :
    (Value.number x).literalText ≠ v.literalText := by
  cases v with
  | number y => exact absurd rfl (hne y)
  | string s => exact hv.elim
  | boolean b => cases b <;> exact write_ne_word literal_named hx.ne_nan rfl (by decide)
  | nil => exact write_ne_word literal_named hx.ne_nan rfl (by decide)

/-- Literals of one text are equal. -/
theorem Plain.eq (hv : v.Plain) (hw : w.Plain) (h : v.literalText = w.literalText) : v = w := by
  cases v with
  | number x =>
      cases w with
      | number y => rw [write_literal_inj hv.ne_nan hw.ne_nan h]
      | _ => exact absurd h (hv.literalText_ne hw nofun)
  | string s => exact hv.elim
  | boolean b =>
      cases w with
      | number y => exact absurd h.symm (hw.literalText_ne hv nofun)
      | string s => exact hw.elim
      | boolean c => cases b <;> cases c <;> first | rfl | exact absurd h (by decide)
      | nil => cases b <;> exact absurd h (by decide)
  | nil =>
      cases w with
      | number y => exact absurd h.symm (hw.literalText_ne hv nofun)
      | string s => exact hw.elim
      | boolean c => cases c <;> exact absurd h (by decide)
      | nil => rfl

end Value

/-! ## Trees -/

namespace Expr

variable {a b : Expr} {cs cs' rest rest' : List Char} {name name' : String}

/-- The literals are plain. -/
def Plain : Expr → Prop
  | .literal value _ => value.Plain
  | .grouping inner _ => inner.Plain
  | .unary _ _ operand => operand.Plain
  | .binary _ _ lhs rhs => lhs.Plain ∧ rhs.Plain

/-- Of the same shape, with the same operators and the same literals, whatever tokens they were read from. -/
inductive Alike : Expr → Expr → Prop where
  | literal (value : Value) (t t' : Token) : Alike (.literal value t) (.literal value t')
  | grouping {a b : Expr} (s s' : Span) (h : Alike a b) : Alike (.grouping a s) (.grouping b s')
  | unary {a b : Expr} (op : UnaryOp) (t t' : Token) (h : Alike a b) : Alike (.unary op t a) (.unary op t' b)
  | binary {l r l' r' : Expr} (op : BinaryOp) (t t' : Token) (hl : Alike l l') (hr : Alike r r') :
      Alike (.binary op t l r) (.binary op t' l' r')

/-- A name behind an opening parenthesis, with what comes after the blank behind it. -/
def named (name : String) (cs : List Char) : List Char :=
  '(' :: (name.toList ++ ' ' :: cs)

theorem runEnds_cons {c : Char} (hc : isInWord c = false) : RunEnds isInWord (c :: cs) := by
  intro d hd
  obtain rfl : c = d := by simpa using hd
  exact hc

theorem toList_grouping (e : Expr) (s : Span) (rest : List Char) :
    (Expr.grouping e s).print.toList ++ rest = named "group" (e.print.toList ++ ')' :: rest) := by
  simp [print, named]

theorem toList_unary (op : UnaryOp) (t : Token) (e : Expr) (rest : List Char) :
    (Expr.unary op t e).print.toList ++ rest = named op.text (e.print.toList ++ ')' :: rest) := by
  simp [print, named]

theorem toList_binary (op : BinaryOp) (t : Token) (l r : Expr) (rest : List Char) :
    (Expr.binary op t l r).print.toList ++ rest =
      named op.text (l.print.toList ++ ' ' :: (r.print.toList ++ ')' :: rest)) := by
  simp [print, named]

theorem named_inj (hn : IsWord name) (hn' : IsWord name') (h : named name cs = named name' cs') :
    name = name' ∧ cs = cs' := by
  obtain ⟨hname, hcs⟩ := run_unique (List.all_eq_true.mp hn.2) (List.all_eq_true.mp hn'.2) (runEnds_cons rfl)
    (runEnds_cons rfl) (List.cons.inj h).2
  exact ⟨String.toList_inj.mp hname, (List.cons.inj hcs).2⟩

theorem word_append_ne_named (hn : IsWord name) (rest : List Char) : name.toList ++ rest ≠ named name' cs := by
  intro h
  obtain ⟨c, cs, hname⟩ := List.exists_cons_of_ne_nil (mt String.toList_eq_nil_iff.mp hn.1)
  have hc := List.all_eq_true.mp hn.2 c (by simp [hname])
  rw [hname] at h
  obtain rfl := (List.cons.inj h).1
  cases hc

/-- The text of a tree in front of a blank or a parenthesis, or of nothing, is that of no other tree. -/
theorem print_append_inj (ha : a.Plain) (hb : b.Plain) (hr : RunEnds isInWord rest) (hr' : RunEnds isInWord rest')
    (h : a.print.toList ++ rest = b.print.toList ++ rest') : a.Alike b ∧ rest = rest' := by
  induction a generalizing b rest rest' with
  | literal v t =>
      cases b with
      | literal w t' =>
          obtain ⟨htext, hrest⟩ := run_unique (List.all_eq_true.mp ha.isWord.2) (List.all_eq_true.mp hb.isWord.2) hr hr' h
          obtain rfl := ha.eq hb (String.toList_inj.mp htext)
          exact ⟨.literal v t t', hrest⟩
      | grouping e s =>
          rw [toList_grouping] at h
          exact absurd h (word_append_ne_named ha.isWord rest)
      | unary op t' e =>
          rw [toList_unary] at h
          exact absurd h (word_append_ne_named ha.isWord rest)
      | binary op t' l r =>
          rw [toList_binary] at h
          exact absurd h (word_append_ne_named ha.isWord rest)
  | grouping e s ih =>
      rw [toList_grouping] at h
      cases b with
      | literal w t => exact absurd h.symm (word_append_ne_named hb.isWord rest')
      | grouping e' s' =>
          rw [toList_grouping] at h
          obtain ⟨-, h⟩ := named_inj isWord_group isWord_group h
          obtain ⟨halike, hrest⟩ := ih (b := e') ha hb (runEnds_cons rfl) (runEnds_cons rfl) h
          exact ⟨.grouping s s' halike, (List.cons.inj hrest).2⟩
      | unary op t e' =>
          rw [toList_unary] at h
          exact absurd (named_inj isWord_group op.isWord_text h).1.symm op.text_ne_group
      | binary op t l r =>
          rw [toList_binary] at h
          exact absurd (named_inj isWord_group op.isWord_text h).1.symm op.text_ne_group
  | unary op t e ih =>
      rw [toList_unary] at h
      cases b with
      | literal w t' => exact absurd h.symm (word_append_ne_named hb.isWord rest')
      | grouping e' s =>
          rw [toList_grouping] at h
          exact absurd (named_inj op.isWord_text isWord_group h).1 op.text_ne_group
      | unary op' t' e' =>
          rw [toList_unary] at h
          obtain ⟨hop, h⟩ := named_inj op.isWord_text op'.isWord_text h
          obtain ⟨halike, hrest⟩ := ih (b := e') ha hb (runEnds_cons rfl) (runEnds_cons rfl) h
          obtain rfl := UnaryOp.text_inj hop
          exact ⟨.unary op t t' halike, (List.cons.inj hrest).2⟩
      | binary op' t' l r =>
          -- a parenthesis behind the only operand, but a blank behind the first of two
          rw [toList_binary] at h
          obtain ⟨-, h⟩ := named_inj op.isWord_text op'.isWord_text h
          obtain ⟨-, hrest⟩ := ih ha hb.1 (runEnds_cons rfl) (runEnds_cons rfl) h
          cases hrest
  | binary op t l r ihl ihr =>
      rw [toList_binary] at h
      cases b with
      | literal w t' => exact absurd h.symm (word_append_ne_named hb.isWord rest')
      | grouping e' s =>
          rw [toList_grouping] at h
          exact absurd (named_inj op.isWord_text isWord_group h).1 op.text_ne_group
      | unary op' t' e' =>
          rw [toList_unary] at h
          obtain ⟨-, h⟩ := named_inj op.isWord_text op'.isWord_text h
          obtain ⟨-, hrest⟩ := ihl (b := e') ha.1 hb (runEnds_cons rfl) (runEnds_cons rfl) h
          cases hrest
      | binary op' t' l' r' =>
          rw [toList_binary] at h
          obtain ⟨hop, h⟩ := named_inj op.isWord_text op'.isWord_text h
          obtain ⟨hl, h⟩ := ihl ha.1 hb.1 (runEnds_cons rfl) (runEnds_cons rfl) h
          obtain ⟨hr, hrest⟩ := ihr ha.2 hb.2 (runEnds_cons rfl) (runEnds_cons rfl) (List.cons.inj h).2
          obtain rfl := BinaryOp.text_inj hop
          exact ⟨.binary op t t' hl hr, (List.cons.inj hrest).2⟩

theorem Alike.print_eq (h : a.Alike b) : a.print = b.print := by
  induction h with
  | literal => rfl
  | grouping _ _ _ ih => simp [print, ih]
  | unary _ _ _ _ ih => simp [print, ih]
  | binary _ _ _ _ _ ihl ihr => simp [print, ihl, ihr]

end Expr

namespace Printer

/-- Whatever two printers printed before, they show one text for two trees exactly if the trees are alike. -/
theorem shown_eq_iff {a b : Expr} (ha : a.Plain) (hb : b.Plain) (before before' : List Expr) :
    ((before.foldl print fresh).print a).shown = ((before'.foldl print fresh).print b).shown ↔ a.Alike b := by
  refine ⟨fun h => ?_, Expr.Alike.print_eq⟩
  have htext : a.print.toList ++ [] = b.print.toList ++ [] := by rw [show a.print = b.print from h]
  exact (Expr.print_append_inj ha hb runEnds_nil runEnds_nil htext).1

/-- A minus sign in front of a difference, and a difference that begins with a minus sign. -/
theorem shown_eq_iff_minus : ∃ a b : Expr,
    a = .unary .negate default (.binary .sub default (.literal (.number 1) default) (.literal .nil default)) ∧
    b = .binary .sub default (.unary .negate default (.literal (.number 1) default)) (.literal .nil default) ∧
    a.Plain ∧ b.Plain ∧ (([b].foldl print fresh).print a).shown ≠ (([a, a].foldl print fresh).print b).shown := by
  have hone : (Value.number 1).Plain := by
    show ¬ (1 : Float).isNaN
    decide +kernel
  have ha : (Expr.unary .negate default
      (.binary .sub default (.literal (.number 1) default) (.literal .nil default))).Plain := ⟨hone, trivial⟩
  have hb : (Expr.binary .sub default
      (.unary .negate default (.literal (.number 1) default)) (.literal .nil default)).Plain := ⟨hone, trivial⟩
  refine ⟨_, _, rfl, rfl, ha, hb, ?_⟩
  rw [Ne, shown_eq_iff ha hb]
  nofun

end Printer
end Reckon
