import Marshal.Proofs.Rendering
import Marshal.Proofs.Writing
import Mathlib.Data.List.Induction

/-! # Marks and rollbacks

A mark only holds how long the text was, the level, and whether a line was to start. This is enough to take a writer
back to it as long as the text still begins with the one that was marked. So marks can be nested, and gone back to more
than once, unless some rollback has gone back further since a mark was taken. All that then counts are the calls that no
rollback has discarded. -/

namespace Marshal.Writer

/-! ### Sessions -/

/-- What is done with a writer. A mark is known by the number of marks that were taken before it. -/
inductive Act
  | call (c : Command)
  | mark
  | back (i : Nat)
deriving DecidableEq, Repr

/-- A writer and all marks that were taken of it. -/
structure Session where
  writer : Writer
  marks : List Mark := []

namespace Session

/-- It fails if no such mark was taken, or if the mark is inside a character of the text. -/
def play (s : Session) : Act → Option Session
  | .call c => some { s with writer := c.run s.writer }
  | .mark => some { s with marks := s.marks ++ [s.writer.mark] }
  | .back i => do
    let m ← s.marks[i]?
    let w ← s.writer.rollback? m
    return { s with writer := w }

def playAll (s : Session) (acts : List Act) : Option Session := acts.foldlM play s

theorem playAll_append (s : Session) (xs ys : List Act) : s.playAll (xs ++ ys) = (s.playAll xs).bind (·.playAll ys) :=
  List.foldlM_append

theorem playAll_concat (s : Session) (acts : List Act) (a : Act) :
    s.playAll (acts ++ [a]) = (s.playAll acts).bind (·.play a) := by
  rw [playAll_append]
  refine congrArg (Option.bind _) (funext fun s' => ?_)
  exact Option.bind_fun_some _

end Session

def marksTaken (acts : List Act) : Nat := acts.count .mark

/-- The mark was taken, and since then no rollback went to a mark taken before it. -/
def Live (acts : List Act) (i : Nat) : Prop :=
  ∃ before since, acts = before ++ .mark :: since ∧ marksTaken before = i ∧ ∀ j, .back j ∈ since → i ≤ j

/-- Every rollback goes to a mark that is live then. -/
def Legal (acts : List Act) : Prop := ∀ before i after, acts = before ++ .back i :: after → Live before i

theorem live_concat {acts : List Act} {a : Act} {i : Nat} :
    Live (acts ++ [a]) i ↔ (a = .mark ∧ marksTaken acts = i) ∨ (Live acts i ∧ ∀ j, a = .back j → i ≤ j) := by
  constructor
  · rintro ⟨before, since, hacts, htaken, hsince⟩
    rcases since.eq_nil_or_concat with rfl | ⟨since, b, rfl⟩
    · obtain ⟨rfl, ha⟩ := List.append_inj' hacts rfl
      exact Or.inl ⟨(List.cons.inj ha).1, htaken⟩
    · rw [List.concat_eq_append, ← List.cons_append, ← List.append_assoc] at hacts
      obtain ⟨rfl, hb⟩ := List.append_inj' hacts rfl
      obtain ⟨rfl, -⟩ := List.cons.inj hb
      refine Or.inr ⟨⟨before, since, rfl, htaken, fun j hj => ?_⟩, fun j hj => ?_⟩
      · exact hsince j (by simp [hj])
      · exact hsince j (by simp [hj])
  · rintro (⟨rfl, htaken⟩ | ⟨⟨before, since, rfl, htaken, hsince⟩, ha⟩)
    · exact ⟨acts, [], rfl, htaken, fun j hj => nomatch hj⟩
    · refine ⟨before, since ++ [a], by simp, htaken, fun j hj => ?_⟩
      rcases List.mem_append.mp hj with hj | hj
      · exact hsince j hj
      · exact ha j (List.mem_singleton.mp hj).symm

theorem Legal.of_append {acts more : List Act} (h : Legal (acts ++ more)) : Legal acts := by
  rintro before i after rfl
  exact h before i (after ++ more) (by simp)

theorem lt_of_live {acts : List Act} {i : Nat} (h : Live acts i) : i < marksTaken acts := by
  obtain ⟨before, since, rfl, rfl, -⟩ := h
  rw [marksTaken, marksTaken, List.count_append, List.count_cons_self]
  omega

/-! ### What counts -/

/-- The calls that count, and those that counted when each mark was taken. -/
structure Account where
  calls : List Command := []
  marks : List (List Command) := []

/-- After a rollback those calls count that counted when the mark was taken, as if there had been no others. -/
def Account.play (a : Account) : Act → Account
  | .call c => { a with calls := a.calls ++ [c] }
  | .mark => { a with marks := a.marks ++ [a.calls] }
  | .back i => { a with calls := a.marks[i]?.getD a.calls }

def account (acts : List Act) : Account := acts.foldl Account.play {}

/-- The calls that no rollback has discarded. -/
def remaining (acts : List Act) : List Command := (account acts).calls

theorem account_concat (acts : List Act) (a : Act) : account (acts ++ [a]) = (account acts).play a :=
  List.foldl_append

section
variable {acts : List Act}

theorem remaining_call (c : Command) : remaining (acts ++ [.call c]) = remaining acts ++ [c] := by
  rw [remaining, account_concat]
  rfl

theorem remaining_mark : remaining (acts ++ [.mark]) = remaining acts := by
  rw [remaining, account_concat]
  rfl

theorem remaining_back {i : Nat} {calls : List Command} (h : (account acts).marks[i]? = some calls) :
    remaining (acts ++ [.back i]) = calls := by
  rw [remaining, account_concat]
  exact congrArg (Option.getD · _) h

theorem marks_account_mark : (account (acts ++ [.mark])).marks = (account acts).marks ++ [remaining acts] := by
  rw [account_concat]
  rfl

end

theorem marks_account_isPrefix (acts more : List Act) : (account acts).marks <+: (account (acts ++ more)).marks := by
  induction more using List.reverseRecOn with
  | nil => simp only [List.append_nil, List.prefix_refl]
  | append_singleton more a ih =>
    rw [← List.append_assoc, account_concat]
    cases a with
    | call c => exact ih
    | mark => exact ih.trans (List.prefix_append _ _)
    | back i => exact ih

theorem length_marks_account (acts : List Act) : (account acts).marks.length = marksTaken acts := by
  induction acts using List.reverseRecOn with
  | nil => rfl
  | append_singleton acts a ih =>
    rw [account_concat, marksTaken, List.count_append, ← marksTaken, ← ih]
    cases a with
    | call c => rfl
    | mark => exact List.length_append
    | back i => rfl

/-- Each mark goes with the calls that counted when it was taken. -/
theorem getElem?_marks_account (before since : List Act) :
    (account (before ++ .mark :: since)).marks[marksTaken before]? = some (remaining before) := by
  obtain ⟨more, hmore⟩ := marks_account_isPrefix (before ++ [.mark]) since
  rw [List.append_cons, ← hmore, marks_account_mark, List.append_assoc, ← length_marks_account,
    List.getElem?_append_right (Nat.le_refl _), Nat.sub_self]
  rfl

/-! ### Live marks -/

/-- The mark is live, and these are the calls that counted when it was taken. -/
def Marks (acts : List Act) (i : Nat) (calls : List Command) : Prop :=
  Live acts i ∧ (account acts).marks[i]? = some calls

theorem exists_marks {acts : List Act} {i : Nat} (h : Live acts i) : ∃ calls, Marks acts i calls := by
  have hlt : i < (account acts).marks.length := by
    rw [length_marks_account]
    exact lt_of_live h
  exact ⟨_, h, List.getElem?_eq_getElem hlt⟩

section
variable {acts : List Act} {i : Nat} {calls : List Command}

theorem marks_call {c : Command} : Marks (acts ++ [.call c]) i calls ↔ Marks acts i calls := by
  simp [Marks, live_concat, account_concat, Account.play]

theorem marks_mark (h : Marks (acts ++ [.mark]) i calls) :
    Marks acts i calls ∨ i = marksTaken acts ∧ calls = remaining acts := by
  obtain ⟨hlive, hcalls⟩ := h
  rw [marks_account_mark] at hcalls
  rcases live_concat.mp hlive with ⟨-, rfl⟩ | ⟨hlive, -⟩
  · rw [← length_marks_account, List.getElem?_concat_length] at hcalls
    exact Or.inr ⟨rfl, (Option.some.inj hcalls).symm⟩
  · rw [List.getElem?_append_left (by rw [length_marks_account]; exact lt_of_live hlive)] at hcalls
    exact Or.inl ⟨hlive, hcalls⟩

theorem marks_back {j : Nat} : Marks (acts ++ [.back j]) i calls ↔ Marks acts i calls ∧ i ≤ j := by
  simp [Marks, live_concat, account_concat, Account.play, and_right_comm]

end

/-- The calls that counted when a live mark was taken are the first of those that count now, and the first of those that
    counted when a later mark was taken. -/
structure Layered (acts : List Act) : Prop where
  now : ∀ i xs, Marks acts i xs → xs <+: remaining acts
  later : ∀ i j xs ys, i ≤ j → Marks acts i xs → Marks acts j ys → xs <+: ys

theorem layered_nil : Layered [] := by
  have hnone : ∀ i, ¬Live [] i := by
    rintro i ⟨before, since, h, -⟩
    simp at h
  exact ⟨fun i _ h => absurd h.1 (hnone i), fun i _ _ _ _ h => absurd h.1 (hnone i)⟩

theorem Layered.concat {acts : List Act} (h : Layered acts) {a : Act} (ha : ∀ i, a = .back i → Live acts i) :
    Layered (acts ++ [a]) := by
  cases a with
  | call c =>
    refine ⟨fun i xs hi => ?_, fun i j xs ys hij hi hj => ?_⟩
    · rw [remaining_call]
      exact (h.now i xs (marks_call.mp hi)).trans (List.prefix_append _ _)
    · exact h.later i j xs ys hij (marks_call.mp hi) (marks_call.mp hj)
  | mark =>
    refine ⟨fun i xs hi => ?_, fun i j xs ys hij hi hj => ?_⟩
    · rw [remaining_mark]
      rcases marks_mark hi with hi | ⟨-, rfl⟩
      · exact h.now i xs hi
      · exact List.prefix_refl _
    · rcases marks_mark hi with hi | ⟨rfl, rfl⟩ <;> rcases marks_mark hj with hj | ⟨rfl, rfl⟩
      · exact h.later i j xs ys hij hi hj
      · exact h.now i xs hi
      · -- A mark that was taken before comes before the new one.
        exact absurd (lt_of_live hj.1) (Nat.not_lt.mpr hij)
      · exact List.prefix_refl _
  | back j =>
    obtain ⟨calls, hcalls⟩ := exists_marks (ha j rfl)
    refine ⟨fun i xs hi => ?_, fun i k xs ys hik hi hk => ?_⟩
    · rw [remaining_back hcalls.2]
      obtain ⟨hi, hij⟩ := marks_back.mp hi
      exact h.later i j xs calls hij hi hcalls
    · exact h.later i k xs ys hik (marks_back.mp hi).1 (marks_back.mp hk).1

/-! ### Rollbacks -/

theorem grown_perform (w : Writer) (commands : List Command) : Grown w (w.perform commands) := by
  induction commands generalizing w with
  | nil => exact .refl w
  | cons c rest ih =>
    have hone : Grown w (c.run w) := by
      rw [c.run_eq]
      exact ⟨rfl, _, rfl⟩
    exact hone.trans (ih (c.run w))

theorem rollback?_of_isPrefix (w : Writer) {xs calls : List Command} (h : xs <+: calls) :
    (w.perform calls).rollback? (w.perform xs).mark = some (w.perform xs) := by
  obtain ⟨more, rfl⟩ := h
  rw [perform_append]
  exact (grown_perform _ more).rollback?

/-- The writer is what the calls make of it that count, and each mark is what those made of it that counted then. -/
structure Follows (w : Writer) (acts : List Act) (s : Session) : Prop where
  writer : s.writer = w.perform (remaining acts)
  marks : s.marks = (account acts).marks.map fun calls => (w.perform calls).mark

theorem Follows.play {w : Writer} {acts : List Act} {s : Session} (h : Follows w acts s) (hlayered : Layered acts)
    {a : Act} (ha : ∀ i, a = .back i → Live acts i) : ∃ s', s.play a = some s' ∧ Follows w (acts ++ [a]) s' := by
  cases a with
  | call c =>
    refine ⟨_, rfl, ?_, ?_⟩
    · rw [remaining_call, h.writer]
      exact (w.perform_append _ [c]).symm
    · rw [account_concat]
      exact h.marks
  | mark =>
    refine ⟨_, rfl, ?_, ?_⟩
    · rw [remaining_mark]
      exact h.writer
    · rw [marks_account_mark, List.map_append, ← h.marks, List.map_singleton, ← h.writer]
  | back i =>
    obtain ⟨calls, hcalls⟩ := exists_marks (ha i rfl)
    have hmark : s.marks[i]? = some (w.perform calls).mark := by
      rw [h.marks, List.getElem?_map, hcalls.2]
      rfl
    have hback := w.rollback?_of_isPrefix (hlayered.now i calls hcalls)
    rw [← h.writer] at hback
    refine ⟨⟨w.perform calls, s.marks⟩, ?_, ?_, ?_⟩
    · simp only [Session.play, hmark, hback, Option.bind_eq_bind, Option.bind_some]
      rfl
    · rw [remaining_back hcalls.2]
    · rw [account_concat]
      exact h.marks

theorem follows_of_legal (w : Writer) {acts : List Act} (h : Legal acts) :
    Layered acts ∧ ∃ s, Session.playAll ⟨w, []⟩ acts = some s ∧ Follows w acts s := by
  induction acts using List.reverseRecOn with
  | nil => exact ⟨layered_nil, ⟨w, []⟩, rfl, rfl, rfl⟩
  | append_singleton acts a ih =>
    obtain ⟨hlayered, s, hs, hfollows⟩ := ih h.of_append
    have ha : ∀ i, a = .back i → Live acts i := fun i hi => h acts i [] (hi ▸ rfl)
    obtain ⟨s', hs', hfollows'⟩ := hfollows.play hlayered ha
    refine ⟨hlayered.concat ha, s', ?_, hfollows'⟩
    rw [Session.playAll_concat, hs]
    exact hs'

/-- In every session in which rollbacks go to live marks only, no rollback fails. In the end the writer is what the
    calls make of it that no rollback has discarded. Each rollback makes the writer what it was when the mark was taken:
    its text, its level, and whether a line is to start; and what was called since then counts no more. -/
theorem rollbacks_restore (w : Writer) {acts : List Act} (h : Legal acts) :
    (∃ s, Session.playAll ⟨w, []⟩ acts = some s ∧ s.writer = w.perform (remaining acts)) ∧
    ∀ before since i after, acts = before ++ .mark :: since ++ .back i :: after → marksTaken before = i →
      remaining (before ++ .mark :: since ++ [.back i]) = remaining before ∧
      ∃ marked restored, Session.playAll ⟨w, []⟩ before = some marked ∧
        Session.playAll ⟨w, []⟩ (before ++ .mark :: since ++ [.back i]) = some restored ∧
        restored.writer = marked.writer := by
  refine ⟨?_, ?_⟩
  · obtain ⟨-, s, hs, hfollows⟩ := follows_of_legal w h
    exact ⟨s, hs, hfollows.writer⟩
  · rintro before since i after rfl rfl
    rw [List.append_cons (before ++ .mark :: since)] at h
    have hrolled : Legal (before ++ .mark :: since ++ [.back (marksTaken before)]) := h.of_append
    have hbegun : Legal before := by
      rw [List.append_assoc] at hrolled
      exact hrolled.of_append
    obtain ⟨-, restored, hrestored, hafter⟩ := follows_of_legal w hrolled
    obtain ⟨-, marked, hmarked, hbefore⟩ := follows_of_legal w hbegun
    have hback := remaining_back (getElem?_marks_account before since)
    refine ⟨hback, marked, restored, hmarked, hrestored, ?_⟩
    rw [hafter.writer, hbefore.writer, hback]

/-- The second mark is gone back to, and then the first, when the text has become longer again. -/
def redrafting : List Act :=
  [.mark, .call (.printLine "ü"), .call .indent, .mark, .call (.print "x"), .back 1, .call (.print "ö"), .back 0,
    .call (.print "y")]

theorem legal_redrafting : Legal redrafting := by
  intro before i after h
  simp [redrafting, List.cons_eq_append_iff] at h
  obtain ⟨_, rfl, ⟨rfl, rfl, -⟩ | ⟨rfl, rfl, -⟩⟩ := h
  · exact ⟨[.mark, .call (.printLine "ü"), .call .indent], [.call (.print "x")], rfl, rfl, by simp⟩
  · exact ⟨[], _, rfl, rfl, fun j _ => Nat.zero_le j⟩

/-- After a character of two bytes. The writer is back on its level, in the middle of its line. -/
theorem rollbacks_restore_redrafting :
    let w : Writer := ⟨"é", "\t", 1, false⟩
    Legal redrafting ∧
      (∃ s, Session.playAll ⟨w, []⟩ redrafting = some s ∧ s.writer = ⟨"éy", "\t", 1, false⟩) ∧
      ∃ restored, Session.playAll ⟨w, []⟩ (redrafting.take 8) = some restored ∧ restored.writer = w := by
  intro w
  obtain ⟨⟨s, hs, hwriter⟩, hback⟩ := rollbacks_restore w legal_redrafting
  obtain ⟨-, marked, restored, hmarked, hrestored, hsame⟩ :=
    hback [] ((redrafting.drop 1).take 6) 0 [.call (.print "y")] rfl rfl
  refine ⟨legal_redrafting, ⟨s, hs, hwriter.trans (by decide)⟩, restored, hrestored, ?_⟩
  cases hmarked
  exact hsame

end Marshal.Writer
