import Marshal.Proofs.Layout

/-! # What a writer renders

The text of a writer can be told from the calls alone. All texts that are handed over make one text; each of its
characters is printed at the level that is in force then. Cut into lines, it has before each line that is not empty the
padding of the level at which the first character of this line was printed. So it does not matter in which pieces the
text was handed over. -/

namespace Marshal.Writer

/-! ### Calls -/

/-- What is called on a writer, but for marks. A formatted text is handed over in pieces. -/
inductive Command
  | print (text : String)
  | printLine (text : String)
  | printPieces (pieces : List String)
  | indent
  | outdent
deriving DecidableEq, Repr

namespace Command

def run (w : Writer) : Command → Writer
  | print text => w.print text
  | printLine text => w.printLine text
  | printPieces pieces => pieces.foldl Writer.print w
  | indent => w.indent
  | outdent => w.outdent

/-- The text that is handed over. -/
def text : Command → String
  | print text => text
  | printLine text => text ++ "\n"
  | printPieces pieces => String.join pieces
  | indent | outdent => ""

def levelAfter (level : Nat) : Command → Nat
  | indent => level + 1
  | outdent => level - 1
  | _ => level

end Command

def perform (w : Writer) (commands : List Command) : Writer := commands.foldl Command.run w

theorem perform_append (w : Writer) (xs ys : List Command) : w.perform (xs ++ ys) = (w.perform xs).perform ys :=
  List.foldl_append

theorem foldl_print (w : Writer) (pieces : List String) : pieces.foldl print w = w.print (String.join pieces) := by
  induction pieces generalizing w with
  | nil => exact w.print_empty.symm
  | cons piece rest ih => rw [List.foldl_cons, ih, String.join_cons, print_append]

/-- Every call prints its text and then sets the level. -/
theorem Command.run_eq (w : Writer) (c : Command) :
    c.run w = { w.print c.text with level := c.levelAfter w.level } := by
  cases c with
  | print text => rfl
  | printLine line =>
    rw [text, print_append]
    rfl
  | printPieces pieces =>
    rw [run, foldl_print]
    rfl
  | indent =>
    rw [text, print_empty]
    rfl
  | outdent =>
    rw [text, print_empty]
    rfl

theorem Command.toList_text_run (w : Writer) (c : Command) :
    (c.run w).text.toList =
      w.text.toList ++ layout (List.replicate w.level w.unit.toList).flatten w.atLineStart c.text.toList := by
  rw [c.run_eq, Writer.print, String.toList_append, String.toList_ofList]
  rfl

/-! ### The printed characters -/

/-- The characters of all texts, each with the level that is in force when it is printed. -/
def printed (level : Nat) : List Command → List (Char × Nat)
  | [] => []
  | c :: rest => c.text.toList.map (·, level) ++ printed (c.levelAfter level) rest

theorem map_fst_printed (level : Nat) (commands : List Command) :
    (printed level commands).map Prod.fst = (String.join (commands.map Command.text)).toList := by
  induction commands generalizing level with
  | nil => rfl
  | cons c rest ih =>
    rw [printed, List.map_append, List.map_map, ih, List.map_cons, String.join_cons, String.toList_append]
    exact congrArg (· ++ _) (List.map_id _)

/-- The characters as they are laid out, with the padding of its own level before the first character of each line. -/
def place (unit : List Char) (atLineStart : Bool) : List (Char × Nat) → List Char
  | [] => []
  | (c, level) :: rest =>
    if c = '\n' then c :: place unit true rest
    else (if atLineStart then (List.replicate level unit).flatten else []) ++ c :: place unit false rest

section
variable {unit : List Char}

theorem place_newline (start : Bool) (level : Nat) (cs : List (Char × Nat)) :
    place unit start (('\n', level) :: cs) = '\n' :: place unit true cs := by
  rw [place, if_pos rfl]

theorem place_cons_of_ne {c : Char} (hc : c ≠ '\n') (start : Bool) (level : Nat) (cs : List (Char × Nat)) :
    place unit start ((c, level) :: cs) =
      (if start then (List.replicate level unit).flatten else []) ++ c :: place unit false cs := by
  rw [place, if_neg hc]

/-- Where the level stays the same, this is the layout of a single text. -/
theorem place_map_append (start : Bool) (level : Nat) (xs : List Char) (ys : List (Char × Nat)) :
    place unit start (xs.map (·, level) ++ ys) =
      layout (List.replicate level unit).flatten start xs ++ place unit (lineStartAfter start xs) ys := by
  induction xs generalizing start with
  | nil => rfl
  | cons c xs ih =>
    rw [List.map_cons, List.cons_append, lineStartAfter]
    by_cases hc : c = '\n'
    · subst hc
      rw [place_newline, layout_newline, ih]
      rfl
    · rw [place_cons_of_ne hc, layout_cons_of_ne hc, ih, beq_eq_false_iff_ne.mpr hc, List.append_assoc]
      rfl

end

/-- The text and the line start after any number of calls. -/
theorem perform_eq (w : Writer) (commands : List Command) :
    (w.perform commands).text.toList = w.text.toList ++ place w.unit.toList w.atLineStart (printed w.level commands) ∧
      (w.perform commands).atLineStart =
        lineStartAfter w.atLineStart ((printed w.level commands).map Prod.fst) := by
  induction commands generalizing w with
  | nil => exact ⟨(List.append_nil _).symm, rfl⟩
  | cons c rest ih =>
    have hunit : (c.run w).unit = w.unit := by rw [c.run_eq]; rfl
    have hlevel : (c.run w).level = c.levelAfter w.level := by rw [c.run_eq]
    have hstart : (c.run w).atLineStart = lineStartAfter w.atLineStart c.text.toList := by rw [c.run_eq]; rfl
    obtain ⟨htext, hline⟩ := ih (c.run w)
    rw [hunit, hlevel, hstart] at htext
    rw [hlevel, hstart] at hline
    constructor
    · rw [printed, place_map_append, ← List.append_assoc, ← c.toList_text_run]
      exact htext
    · rw [printed, List.map_append, lineStartAfter_append, List.map_map]
      exact hline.trans (congrArg (lineStartAfter · _) (congrArg _ (List.map_id _).symm))

/-! ### Lines -/

/-- A line with the padding of the level of its first character. An empty line is left empty. -/
def renderLine (unit : List Char) : List (Char × Nat) → List Char
  | [] => []
  | (c, level) :: rest => (List.replicate level unit).flatten ++ c :: rest.map Prod.fst

/-- The characters line by line. -/
def render (unit : List Char) (cs : List (Char × Nat)) : List Char :=
  ['\n'].intercalate ((cs.splitOnP (·.1 == '\n')).map (renderLine unit))

section
variable {unit : List Char}

theorem intercalate_append (sep xs line : List Char) (lines : List (List Char)) :
    sep.intercalate ((xs ++ line) :: lines) = xs ++ sep.intercalate (line :: lines) := by
  cases lines with
  | nil => simp only [List.intercalate_singleton]
  | cons next more => simp only [List.intercalate_cons_cons, List.append_assoc]

/-- On a line that has begun, what is left of it is placed without padding, and the other lines as from their start. -/
theorem place_lines {cs first : List (Char × Nat)} {rest : List (List (Char × Nat))}
    (h : cs.splitOnP (·.1 == '\n') = first :: rest) :
    place unit false cs = ['\n'].intercalate (first.map Prod.fst :: rest.map (renderLine unit)) ∧
      place unit true cs = ['\n'].intercalate (renderLine unit first :: rest.map (renderLine unit)) := by
  induction cs generalizing first rest with
  | nil =>
    rw [List.splitOnP_nil] at h
    cases h
    exact ⟨rfl, rfl⟩
  | cons p cs ih =>
    obtain ⟨c, level⟩ := p
    obtain ⟨line, lines, hlines⟩ := List.exists_cons_of_ne_nil (List.splitOnP_ne_nil (·.1 == '\n') cs)
    obtain ⟨hfalse, htrue⟩ := ih hlines
    rw [List.splitOnP_cons_eq_if_modifyHead, hlines] at h
    by_cases hc : c = '\n'
    · subst hc
      cases h
      rw [place_newline, place_newline, htrue]
      exact ⟨rfl, rfl⟩
    · rw [if_neg (by simpa using hc)] at h
      cases h
      rw [place_cons_of_ne hc, place_cons_of_ne hc, hfalse]
      refine ⟨(intercalate_append _ [c] _ _).symm, ?_⟩
      rw [renderLine, if_pos rfl, intercalate_append]
      exact congrArg _ (intercalate_append _ [c] _ _).symm

theorem place_eq_render (cs : List (Char × Nat)) : place unit true cs = render unit cs := by
  obtain ⟨first, rest, h⟩ := List.exists_cons_of_ne_nil (List.splitOnP_ne_nil (·.1 == '\n') cs)
  rw [(place_lines h).2, render, h, List.map_cons]

end

/-! ### Line starts -/

theorem lineStartAfter_eq (start : Bool) (cs : List Char) :
    lineStartAfter start cs = (cs.getLast?.map (· == '\n')).getD start := by
  induction cs generalizing start with
  | nil => rfl
  | cons c cs ih =>
    rw [lineStartAfter, ih, List.getLast?_cons]
    cases cs.getLast? <;> rfl

/-- Padding only ever stands before a character. -/
theorem getLast?_place (unit : List Char) (start : Bool) (cs : List (Char × Nat)) :
    (place unit start cs).getLast? = (cs.map Prod.fst).getLast? := by
  induction cs generalizing start with
  | nil => rfl
  | cons p cs ih =>
    obtain ⟨c, level⟩ := p
    by_cases hc : c = '\n'
    · subst hc
      rw [place_newline, List.map_cons, List.getLast?_cons, List.getLast?_cons, ih]
    · rw [place_cons_of_ne hc, List.map_cons, List.getLast?_append, List.getLast?_cons, List.getLast?_cons, ih]
      rfl

/-- What is true of the last character, and of a text that has none. -/
theorem getLast?_text_eq_newline (text : String) : (text.toList.getLast?.map (· == '\n')).getD true = true ↔
    text = "" ∨ ∃ before, text = before ++ "\n" := by
  have hbreak : text.toList.getLast? = some '\n' ↔ ∃ before, text = before ++ "\n" := by
    rw [List.getLast?_eq_some_iff]
    constructor
    · rintro ⟨before, h⟩
      exact ⟨String.ofList before, String.toList_injective (by rw [h, String.toList_append, String.toList_ofList]; rfl)⟩
    · rintro ⟨before, rfl⟩
      exact ⟨before.toList, String.toList_append⟩
  rw [← hbreak, ← String.toList_eq_nil_iff, ← List.getLast?_eq_none_iff]
  cases text.toList.getLast? <;> simp

/-- Calls that do the same to every writer can stand for each other. -/
theorem perform_between {xs ys : List Command} (h : ∀ w : Writer, w.perform xs = w.perform ys) (w : Writer)
    (before after : List Command) : w.perform (before ++ xs ++ after) = w.perform (before ++ ys ++ after) := by
  simp only [perform_append, h]

/-- The text of a new writer after any calls: all texts that were handed over, line by line, with the padding of the
    level at which its first character was printed before each line that is not empty. A line is to start when nothing
    has been written, or a line break last. A text can be handed over at once or in parts. -/
theorem perform_renders (unit : String) (commands : List Command) :
    let start : Writer := { unit }
    let w := start.perform commands
    (printed 0 commands).map Prod.fst = (String.join (commands.map Command.text)).toList ∧
    w.text.toList = render unit.toList (printed 0 commands) ∧
    (w.atLineStart = true ↔ w.text = "" ∨ ∃ before, w.text = before ++ "\n") ∧
    ∀ (before after : List Command) (a b : String) (pieces : List String),
      start.perform (before ++ [.print (a ++ b)] ++ after) = start.perform (before ++ [.print a, .print b] ++ after) ∧
      start.perform (before ++ [.printLine (a ++ b)] ++ after) =
        start.perform (before ++ [.print a, .printLine b] ++ after) ∧
      start.perform (before ++ [.printPieces pieces] ++ after) =
        start.perform (before ++ [.print (String.join pieces)] ++ after) := by
  intro start w
  obtain ⟨htext, hstart⟩ := start.perform_eq commands
  have htext : w.text.toList = place unit.toList true (printed 0 commands) := htext
  refine ⟨map_fst_printed 0 commands, htext.trans (place_eq_render _), ?_, fun before after a b pieces => ⟨?_, ?_, ?_⟩⟩
  · rw [← getLast?_text_eq_newline, htext, getLast?_place, ← lineStartAfter_eq]
    exact Bool.eq_iff_iff.mp hstart
  · refine perform_between (fun w => ?_) start before after
    exact print_append w a b
  · refine perform_between (fun w => ?_) start before after
    exact congrArg (·.print "\n") (print_append w a b)
  · refine perform_between (fun w => ?_) start before after
    exact foldl_print w pieces

-- The last line begins two levels deep and ends at the lowest level.
example : (Writer.perform { unit := "\t" } [.indent, .print "a", .indent, .printPieces ["b", "\n", "\nc"], .outdent,
    .outdent, .print "d"]).text = "\tab\n\n\t\tcd" := by
  decide +kernel

end Marshal.Writer
