import Marshal.Proofs.FunctionTexts

/-! # Conversions inside larger texts

A built-in conversion can be written in the middle of a text: on any level, and on a line that has begun. What it
writes there is the text that it has on its own, printed at that place, so that its lines are indented further and
nothing else about it changes. The converter may have been made from the catalog when it was smaller. -/

namespace Marshal

/-- The conversion of a peer is printed in one piece, if there is the member that it needs. -/
theorem Strategy.print_of_emitPeer {k : Converter} {cat : Catalog} {index : PeerIndex} {c : Conversion} {d : Direction}
    (h : (emitPeer k cat index c d).result = .ok ()) : ∃ text, emitPeer k cat index c d = .print text := by
  cases d with
  | toRuntime =>
    simp only [emitPeer] at h ⊢
    split at h
    · exact ⟨_, rfl⟩
    · cases h
  | fromRuntime =>
    simp only [emitPeer] at h ⊢
    split at h
    · split at h
      · next hreturns => exact ⟨_, if_pos hreturns⟩
      · cases h
    · cases h
  | extractor =>
    simp only [emitPeer] at h ⊢
    split at h
    · exact ⟨_, rfl⟩
    · cases h

namespace Converter
variable {cat₀ cat : Catalog} {s : Settings} {t : HostType} {name unit : String} {d : Direction}

theorem prints_callable (hu : OneLine unit) (ht : (builtIn cat₀ s).select cat t = .ok .callable)
    (h : ((builtIn cat₀ s).emission cat ⟨t, name, []⟩ .toRuntime).result = .ok ()) :
    ∃ text, ((builtIn cat₀ s).emission cat ⟨t, name, []⟩ .toRuntime).Prints unit text := by
  obtain ⟨decl, m, hdecl, hid, hm⟩ := method_of_toRuntime_ok ht h
  have hfunction := result_function_of_toRuntime ht hdecl hid hm h
  rcases prints_method hu hfunction with ⟨-, hprints⟩ | ⟨-, texts, -, hprints⟩
  · exact ⟨_, prints_toRuntime ht hdecl hid hm hprints⟩
  · exact ⟨_, prints_toRuntime ht hdecl hid hm hprints⟩

/-- A conversion that succeeds comes to printing one text. -/
theorem prints_emission (hu : OneLine unit) (h : ((builtIn cat₀ s).emission cat ⟨t, name, []⟩ d).result = .ok ()) :
    ∃ text, ((builtIn cat₀ s).emission cat ⟨t, name, []⟩ d).Prints unit text := by
  cases hs : (builtIn cat₀ s).select cat t with
  | error x =>
    rw [emission_of_select_error hs] at h
    cases h
  | ok st =>
    have hemission := emission_of_select (c := ⟨t, name, []⟩) (d := d) hs
    cases st with
    | identity =>
      rw [hemission] at h ⊢
      cases d with
      | extractor => cases h
      | toRuntime => exact ⟨name, Emission.prints_print unit name⟩
      | fromRuntime => exact ⟨name, Emission.prints_print unit name⟩
    | callable =>
      cases d with
      | toRuntime => exact prints_callable hu hs h
      | fromRuntime =>
        rw [hemission] at h
        cases h
      | extractor =>
        rw [hemission] at h
        cases h
    | peering index =>
      rw [hemission, emissionOf_peering] at h ⊢
      obtain ⟨text, hprint⟩ := Strategy.print_of_emitPeer h
      exact ⟨text, hprint ▸ Emission.prints_print unit text⟩
    | custom cs => exact absurd hs not_custom_of_select

/-- A conversion fails in the same way in every writer and on its own. If it succeeds, it leaves a writer with the same
    unit as printing its own text would, whatever the writer holds and wherever on a line it stands. -/
theorem convert_eq_print (cat₀ cat : Catalog) {s : Settings} (hu : OneLine s.indentUnit) (d : Direction) (t : HostType)
    (name : String) {w : Writer} (hw : w.unit = s.indentUnit) :
    (∃ x, (builtIn cat₀ s).convertToText cat d t name = .error x ∧
        (builtIn cat₀ s).convert cat d t name w = some (.error x, w)) ∨
      ∃ text, (builtIn cat₀ s).convertToText cat d t name = .ok text ∧
        (builtIn cat₀ s).convert cat d t name w = some (.ok (), w.print text) := by
  rw [convert, convertToText]
  cases hr : ((builtIn cat₀ s).emission cat ⟨t, name, []⟩ d).result with
  | error x =>
    refine Or.inl ⟨x, ?_, ?_⟩
    · rw [Emission.toText, hr]
      rfl
    · rw [w.transact_eq, Emission.attempt_of_error hr]
      rfl
  | ok _ =>
    obtain ⟨text, hprints⟩ := prints_emission hu hr
    exact Or.inr ⟨text, hprints.toText, hprints.transact hw⟩

/-- A listener whose name has a line break, in the middle of a line two levels in; and a callable that cannot be
    converted. -/
theorem convert_eq_print_listening :
    let w : Writer := ⟨"a = ", "  ", 2, false⟩
    OneLine ({} : Settings).indentUnit ∧ w.unit = ({} : Settings).indentUnit ∧
      (∃ text, (builtIn listening {}).convertToText listening .toRuntime (.named "demo.Listener") "f\ng" = .ok text ∧
        (builtIn listening {}).convert listening .toRuntime (.named "demo.Listener") "f\ng" w =
          some (.ok (), w.print text)) ∧
      (builtIn listening {}).convertToText listening .toRuntime (.named "demo.Loop") "f" =
          .error (.recursive "demo.Loop" 1) ∧
        (builtIn listening {}).convert listening .toRuntime (.named "demo.Loop") "f" w =
          some (.error (.recursive "demo.Loop" 1), w) := by
  intro w
  have hu : OneLine ({} : Settings).indentUnit := by decide
  have hfails := listening_evaluated.2.2.2.2
  refine ⟨hu, rfl, ?_, ?_⟩
  · have hlistener := convert_eq_print listening listening hu .toRuntime (.named "demo.Listener") "f\ng" (w := w) rfl
    refine hlistener.resolve_left ?_
    rintro ⟨x, hx, -⟩
    obtain ⟨text, htext⟩ := Emission.toText_of_result (answers_iff.mp (answers_listening "f\ng")) "  "
    cases hx.symm.trans htext
  · rcases convert_eq_print listening listening hu .toRuntime (.named "demo.Loop") "f" (w := w) rfl with
      ⟨x, hx, hw⟩ | ⟨text, htext, -⟩
    · obtain rfl : x = .recursive "demo.Loop" 1 := by
        rw [convertToText, Emission.toText, hfails] at hx
        exact (Except.error.inj hx).symm
      exact ⟨hx, hw⟩
    · cases hfails.symm.trans (Emission.result_of_toText htext)

end Converter

end Marshal
