import Marshal.Proofs.Writing

/-! # Lines

How printed texts fall on lines. Printing a text comes to printing its parts one after the other. Printing it
one level deeper, from the start of a line, comes to printing the same text with one more unit before each of
its lines, as long as the unit has no line break of its own. So what an emission prints can be told without
the writer that it is printed to. -/

namespace Marshal

/-- A text without line breaks. -/
def OneLine (text : String) : Prop := '\n' ∉ text.toList

instance (text : String) : Decidable (OneLine text) := inferInstanceAs (Decidable (¬_))

theorem oneLine_append {a b : String} : OneLine (a ++ b) ↔ OneLine a ∧ OneLine b := by
  simp only [OneLine, String.toList_append, List.mem_append, not_or]

namespace Writer

/-! ### Characters on lines -/

theorem layout_newline (p : List Char) (start : Bool) (cs : List Char) :
    layout p start ('\n' :: cs) = '\n' :: layout p true cs := by
  rw [layout, if_pos rfl]

theorem layout_cons_of_ne {c : Char} (hc : c ≠ '\n') (p : List Char) (start : Bool) (cs : List Char) :
    layout p start (c :: cs) = (if start then p else []) ++ c :: layout p false cs := by
  rw [layout, if_neg hc]

theorem layout_append (p : List Char) (start : Bool) (xs ys : List Char) :
    layout p start (xs ++ ys) = layout p start xs ++ layout p (lineStartAfter start xs) ys := by
  induction xs generalizing start with
  | nil => rfl
  | cons c xs ih =>
    rw [List.cons_append, lineStartAfter]
    by_cases hc : c = '\n'
    · subst hc
      rw [layout_newline, layout_newline, ih]
      rfl
    · rw [layout_cons_of_ne hc, layout_cons_of_ne hc, ih, beq_eq_false_iff_ne.mpr hc, List.append_assoc]
      rfl

theorem lineStartAfter_append (start : Bool) (xs ys : List Char) :
    lineStartAfter start (xs ++ ys) = lineStartAfter (lineStartAfter start xs) ys := by
  induction xs generalizing start with
  | nil => rfl
  | cons c xs ih => exact ih _

/-- Without padding nothing is added. -/
theorem layout_nil (start : Bool) (cs : List Char) : layout [] start cs = cs := by
  induction cs generalizing start with
  | nil => rfl
  | cons c cs ih =>
    by_cases hc : c = '\n'
    · subst hc
      rw [layout_newline, ih]
    · rw [layout_cons_of_ne hc, ih, ite_self, List.nil_append]

section
variable {line : List Char}

theorem layout_false_of_oneLine (h : '\n' ∉ line) (p : List Char) : layout p false line = line := by
  induction line with
  | nil => rfl
  | cons c cs ih =>
    rw [List.mem_cons, not_or] at h
    rw [layout_cons_of_ne (Ne.symm h.1), ih h.2]
    rfl

theorem layout_true_of_oneLine (h : '\n' ∉ line) (hne : line ≠ []) (p : List Char) :
    layout p true line = p ++ line := by
  cases line with
  | nil => exact absurd rfl hne
  | cons c cs =>
    rw [List.mem_cons, not_or] at h
    rw [layout_cons_of_ne (Ne.symm h.1), layout_false_of_oneLine h.2]
    rfl

theorem lineStartAfter_of_oneLine (h : '\n' ∉ line) (hne : line ≠ []) (start : Bool) :
    lineStartAfter start line = false := by
  induction line generalizing start with
  | nil => exact absurd rfl hne
  | cons c cs ih =>
    rw [List.mem_cons, not_or] at h
    rw [lineStartAfter, beq_eq_false_iff_ne.mpr (Ne.symm h.1)]
    cases cs with
    | nil => rfl
    | cons d ds => exact ih h.2 (List.cons_ne_nil _ _) _

end

/-- Padding inside padding: a line that begins with the unit gets the other padding before the unit. -/
theorem layout_layout {unit : List Char} (hu : '\n' ∉ unit) (p : List Char) (start : Bool) (cs : List Char) :
    layout p start (layout unit start cs) = layout (p ++ unit) start cs := by
  induction cs generalizing start with
  | nil => rfl
  | cons c cs ih =>
    by_cases hc : c = '\n'
    · subst hc
      rw [layout_newline, layout_newline, layout_newline, ih]
    · rw [layout_cons_of_ne hc, layout_cons_of_ne hc, ← ih false]
      cases start with
      | false =>
        show layout p false (c :: _) = c :: _
        rw [layout_cons_of_ne hc]
        rfl
      | true =>
        have hline : '\n' ∉ unit ++ [c] := by simp [hu, Ne.symm hc]
        have hne : unit ++ [c] ≠ [] := by simp
        show layout p true (unit ++ c :: layout unit false cs) = p ++ unit ++ c :: layout p false _
        rw [List.append_cons unit, layout_append, layout_true_of_oneLine hline hne,
          lineStartAfter_of_oneLine hline hne]
        simp only [List.append_assoc, List.cons_append, List.nil_append]

theorem lineStartAfter_layout (unit : List Char) (start : Bool) (cs : List Char) :
    lineStartAfter start (layout unit start cs) = lineStartAfter start cs := by
  induction cs generalizing start with
  | nil => rfl
  | cons c cs ih =>
    by_cases hc : c = '\n'
    · subst hc
      rw [layout_newline]
      exact ih true
    · rw [layout_cons_of_ne hc, lineStartAfter_append, lineStartAfter, lineStartAfter, beq_eq_false_iff_ne.mpr hc]
      exact ih false

/-! ### Printing -/

theorem print_append (w : Writer) (a b : String) : w.print (a ++ b) = (w.print a).print b := by
  rw [print, String.toList_append, layout_append, lineStartAfter_append, String.ofList_append, ← String.append_assoc]
  rfl

theorem print_empty (w : Writer) : w.print "" = w := by
  show { w with text := w.text ++ "" } = w
  rw [String.append_empty]

/-- At the lowest level nothing is indented, so that a text is printed as it is. -/
theorem text_print {w : Writer} (h : w.level = 0) (text : String) : (w.print text).text = w.text ++ text := by
  show w.text ++ String.ofList (layout (List.replicate w.level w.unit.toList).flatten w.atLineStart text.toList) = _
  rw [h, List.replicate_zero, List.flatten_nil, layout_nil, String.ofList_toList]

theorem text_print_new (unit text : String) : (({ unit := unit } : Writer).print text).text = text := by
  rw [text_print rfl]
  exact String.empty_append

theorem padding_indent (w : Writer) : w.indent.padding = w.padding ++ w.unit.toList := by
  show (List.replicate (w.level + 1) w.unit.toList).flatten = _
  rw [List.replicate_succ', List.flatten_append, List.flatten_singleton]
  rfl

/-- The text with the unit before each of its lines, but for the empty ones. -/
def indented (unit text : String) : String := String.ofList (layout unit.toList true text.toList)

/-- A block that begins on a new line is the same text one unit further in. -/
theorem outdent_print_indent {w : Writer} (hu : OneLine w.unit) (hw : w.atLineStart = true) (text : String) :
    (w.indent.print text).outdent = w.print (indented w.unit text) := by
  have htext : layout w.indent.padding true text.toList = layout w.padding true (indented w.unit text).toList := by
    rw [padding_indent, indented, String.toList_ofList, layout_layout hu]
  have hstart : lineStartAfter true text.toList = lineStartAfter true (indented w.unit text).toList := by
    rw [indented, String.toList_ofList, lineStartAfter_layout]
  obtain ⟨text', unit, level, start⟩ := w
  cases hw
  show Writer.mk _ _ _ _ = Writer.mk _ _ _ _
  rw [← htext, ← hstart]
  rfl

/-! ### Indented lines -/

section
variable {line : String} (h : OneLine line) (hne : line ≠ "")
include h hne

theorem indented_of_oneLine (unit : String) : indented unit line = unit ++ line := by
  rw [indented, layout_true_of_oneLine h (mt String.toList_eq_nil_iff.mp hne), String.ofList_append,
    String.ofList_toList, String.ofList_toList]

/-- What follows on the same line is not indented again. -/
theorem indented_append_of_oneLine (unit text : String) :
    indented unit (line ++ text) = unit ++ line ++ String.ofList (layout unit.toList false text.toList) := by
  have hne' := mt String.toList_eq_nil_iff.mp hne
  rw [← indented_of_oneLine h hne, indented, indented, String.toList_append, layout_append,
    lineStartAfter_of_oneLine h hne', String.ofList_append]

theorem indented_line (unit text : String) :
    indented unit (line ++ ("\n" ++ text)) = unit ++ line ++ ("\n" ++ indented unit text) := by
  have hbreak : layout unit.toList false ("\n" ++ text).toList =
      "\n".toList ++ layout unit.toList true text.toList := by
    rw [String.toList_append]
    exact layout_newline _ _ _
  rw [indented_append_of_oneLine h hne, hbreak, String.ofList_append, String.ofList_toList]
  rfl

end

/-- Lines with a comma between every two, and what follows on the last of them. -/
theorem indented_intercalate {lines : List String} (h : ∀ line ∈ lines, OneLine line ∧ line ≠ "") (hne : lines ≠ [])
    (unit text : String) :
    indented unit (", \n".intercalate lines ++ text) =
      ", \n".intercalate (lines.map (unit ++ ·)) ++ String.ofList (layout unit.toList false text.toList) := by
  induction lines with
  | nil => exact absurd rfl hne
  | cons line more ih =>
    obtain ⟨⟨hline, hline'⟩, hmore⟩ := List.forall_mem_cons.mp h
    cases more with
    | nil => exact indented_append_of_oneLine hline hline' unit text
    | cons next more =>
      have hcomma : OneLine (line ++ ", ") := oneLine_append.mpr ⟨hline, by decide⟩
      have hcomma' : line ++ ", " ≠ "" := fun h => hline' (String.append_eq_empty_iff.mp h).1
      have hbreak : ", \n" = ", " ++ "\n" := rfl
      calc indented unit (", \n".intercalate (line :: next :: more) ++ text)
          = indented unit (line ++ ", " ++ ("\n" ++ (", \n".intercalate (next :: more) ++ text))) := by
            simp only [String.intercalate_cons_cons, hbreak, String.append_assoc]
        _ = unit ++ (line ++ ", ") ++ ("\n" ++ (", \n".intercalate ((next :: more).map (unit ++ ·)) ++
              String.ofList (layout unit.toList false text.toList))) := by
            rw [indented_line hcomma hcomma', ih hmore (List.cons_ne_nil _ _)]
        _ = _ := by
            simp only [List.map_cons, String.intercalate_cons_cons, hbreak, String.append_assoc]

theorem indented_lines {lines : List String} (h : ∀ line ∈ lines, OneLine line ∧ line ≠ "") (hne : lines ≠ [])
    (unit : String) : indented unit (", \n".intercalate lines) = ", \n".intercalate (lines.map (unit ++ ·)) := by
  have hlines := indented_intercalate h hne unit ""
  rw [String.append_empty] at hlines
  exact hlines.trans String.append_empty

end Writer

end Marshal
