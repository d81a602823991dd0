import Marshal.Proofs.Growth
import Mathlib.Data.List.TakeWhile

/-! # Reading and writing qualified names

A source form is a list of segments with dots between them. Reading it keeps the segments that are not
empty and says only how many of them are the package, so writing gives them back with one dot between
each two. Hence writing what was read brings a text into a normal form, which is read in the same way
and decides the fingerprint. The names that are read back from their own source forms are those whose
package is exactly what reading takes for one. -/

namespace Marshal

/-! ### Segments -/

namespace Segments
variable {sep : Char}

theorem cut_eq_splitOn (sep : Char) (cs : List Char) : cut sep cs = cs.splitOn sep := by
  induction cs with
  | nil => rfl
  | cons c cs ih =>
    rw [cut, List.splitOn_cons_eq_if_modifyHead, ih]
    split
    · next h => simp [h]
    · next h =>
      have hc : (c == sep) = false := beq_eq_false_iff_ne.mpr h
      rw [hc]
      cases hsplit : cs.splitOn sep with
      | nil => exact absurd hsplit (List.splitOn_ne_nil sep cs)
      | cons s rest => rfl

theorem join_eq_intercalate (sep : Char) (segments : List (List Char)) :
    join sep segments = [sep].intercalate segments := by
  induction segments with
  | nil => rfl
  | cons s rest ih =>
    cases rest with
    | nil => simp [join]
    | cons t rest => rw [join, ih, List.intercalate_cons_cons, List.append_assoc, List.singleton_append]

theorem map_toList_ofList (segments : List (List Char)) :
    (segments.map String.ofList).map String.toList = segments := by
  simp [Function.comp_def]

theorem map_ofList_toList (segments : List String) : (segments.map String.toList).map String.ofList = segments := by
  simp [Function.comp_def]

theorem not_mem_of_mem_cut {cs s : List Char} (hs : s ∈ cut sep cs) : sep ∉ s := by
  induction cs generalizing s with
  | nil =>
    rw [cut, List.mem_singleton] at hs
    simp [hs]
  | cons c cs ih =>
    rw [cut] at hs
    split at hs
    · rcases List.mem_cons.mp hs with rfl | hs
      · exact List.not_mem_nil
      · exact ih hs
    · next hc =>
      split at hs
      · next hcut => exact absurd hcut cut_ne_nil
      · next t rest hcut =>
        rcases List.mem_cons.mp hs with rfl | hs
        · have ht := ih (hcut ▸ List.mem_cons_self)
          simpa [ht] using Ne.symm hc
        · exact ih (hcut ▸ List.mem_cons_of_mem _ hs)

end Segments

namespace TypeName
variable {s g : String} {gs ps ns : List String}

/-- What stands between the dots of a text, from the beginning to the end; there is always one segment. -/
def segments (s : String) : List String := (s.toList.splitOn '.').map String.ofList

/-- The segments that count when a text is read as a name. -/
def parts (s : String) : List String := (segments s).filter (· ≠ "")

/-- The segment starts with a lowercase letter of ASCII. -/
def StartsLower (g : String) : Prop := ∃ c, g.toList.head? = some c ∧ 'a' ≤ c ∧ c ≤ 'z'

/-- What a list of segments must be so that some text is made of them. -/
structure Whole (gs : List String) : Prop where
  nonempty : ∀ g ∈ gs, g ≠ ""
  dotless : ∀ g ∈ gs, '.' ∉ g.toList

theorem segments_ne_nil (s : String) : segments s ≠ [] := by
  simp [segments]

theorem dotless_of_mem_segments (hg : g ∈ segments s) : '.' ∉ g.toList := by
  obtain ⟨cs, hcs, rfl⟩ := List.mem_map.mp hg
  rw [← Segments.cut_eq_splitOn] at hcs
  rw [String.toList_ofList]
  exact Segments.not_mem_of_mem_cut hcs

theorem whole_parts (s : String) : Whole (parts s) where
  nonempty g hg := by simpa using List.of_mem_filter hg
  dotless g hg := dotless_of_mem_segments (List.mem_of_mem_filter hg)

theorem intercalate_segments (s : String) : ".".intercalate (segments s) = s := by
  rw [← String.toList_inj, String.toList_intercalate, segments, Segments.map_toList_ofList]
  exact List.intercalate_splitOn '.'

theorem segments_intercalate (hgs : ∀ g ∈ gs, '.' ∉ g.toList) (hne : gs ≠ []) :
    segments (".".intercalate gs) = gs := by
  rw [segments, String.toList_intercalate]
  have hsplit : (['.'].intercalate (gs.map String.toList)).splitOn '.' = gs.map String.toList := by
    refine List.splitOn_intercalate '.' (fun cs hcs => ?_) (by simpa using hne)
    obtain ⟨g, hg, rfl⟩ := List.mem_map.mp hcs
    exact hgs g hg
  rw [show ".".toList = ['.'] from rfl, hsplit, Segments.map_ofList_toList]

theorem parts_intercalate (hgs : Whole gs) : parts (".".intercalate gs) = gs := by
  by_cases hne : gs = []
  · subst hne
    rfl
  · rw [parts, segments_intercalate hgs.dotless hne]
    exact List.filter_eq_self.mpr fun g hg => by simpa using hgs.nonempty g hg

/-- A text without empty segments is its own normal form. -/
theorem intercalate_parts (hs : ∀ g ∈ segments s, g ≠ "") : ".".intercalate (parts s) = s := by
  have hparts : parts s = segments s := List.filter_eq_self.mpr fun g hg => by simpa using hs g hg
  rw [hparts, intercalate_segments]

theorem intercalate_ne_empty (hgs : ∀ g ∈ gs, g ≠ "") (hne : gs ≠ []) : ".".intercalate gs ≠ "" := by
  intro hempty
  cases gs with
  | nil => exact hne rfl
  | cons g rest =>
    have hg := hgs g List.mem_cons_self
    cases rest with
    | nil => exact hg (by rwa [String.intercalate_singleton] at hempty)
    | cons h rest =>
      rw [String.intercalate_cons_cons, String.append_eq_empty_iff, String.append_eq_empty_iff] at hempty
      exact hg hempty.1.1

/-! ### Where the package ends -/

/-- How many of the segments are the package. -/
def boundary (gs : List String) : Nat := packageLength (gs.map String.toList)

theorem startsLower_iff : startsLower g.toList = true ↔ StartsLower g := by
  unfold startsLower StartsLower
  cases g.toList with
  | nil => simp
  | cons c cs =>
    have hlower : c.isLower = (decide ('a' ≤ c) && decide (c ≤ 'z')) := rfl
    simp [hlower]

theorem StartsLower.ne_empty (hg : StartsLower g) : g ≠ "" := by
  obtain ⟨c, hc, -⟩ := hg
  rintro rfl
  cases hc

/-- The leading segments that start lowercase. -/
def leading (gs : List String) : List String := gs.takeWhile fun g => startsLower g.toList

theorem leading_isPrefix (gs : List String) : leading gs <+: gs := List.takeWhile_prefix _

theorem startsLower_of_mem_leading (hg : g ∈ leading gs) : StartsLower g := by
  have hlower := List.mem_takeWhile_imp (p := fun g : String => startsLower g.toList) hg
  exact startsLower_iff.mp hlower

theorem boundary_eq (gs : List String) : boundary gs = min (leading gs).length (gs.length - 1) := by
  have hle := (leading_isPrefix gs).length_le
  have hleading : ((gs.map String.toList).takeWhile startsLower).length = (leading gs).length := by
    rw [List.takeWhile_map, List.length_map]
    rfl
  rw [boundary, packageLength, hleading, List.length_map]
  split <;> omega

theorem drop_boundary_ne_nil (hne : gs ≠ []) : gs.drop (boundary gs) ≠ [] := by
  have hpos := List.length_pos_iff.mpr hne
  rw [ne_eq, List.drop_eq_nil_iff, boundary_eq]
  omega

theorem startsLower_of_mem_take (hg : g ∈ gs.take (boundary gs)) : StartsLower g := by
  rw [boundary_eq] at hg
  have hmem : g ∈ leading gs := by
    rw [List.prefix_iff_eq_take.mp (leading_isPrefix gs)]
    exact List.take_subset_take_left gs (Nat.min_le_left _ _) hg
  exact startsLower_of_mem_leading hmem

/-- The first segment after the package does not start lowercase, unless all of them do and the last one was left. -/
theorem first_of_drop (hne : gs ≠ []) :
    (∀ g ∈ (gs.drop (boundary gs)).head?, ¬StartsLower g) ∨ (gs.drop (boundary gs)).length = 1 := by
  have hpos := List.length_pos_iff.mpr hne
  rw [boundary_eq]
  rcases Nat.lt_or_ge (leading gs).length gs.length with hlt | hge
  · refine Or.inl fun g hg hlower => ?_
    have hdrop : gs.drop (leading gs).length = gs.dropWhile fun g => startsLower g.toList := by
      have hsplit := List.takeWhile_append_dropWhile (p := fun g : String => startsLower g.toList) (l := gs)
      calc gs.drop (leading gs).length
        _ = (leading gs ++ gs.dropWhile fun g => startsLower g.toList).drop (leading gs).length := by
          rw [leading, hsplit]
        _ = _ := List.drop_left
    rw [Nat.min_eq_left (by omega), hdrop] at hg
    have hnot := List.head?_dropWhile_not (fun g => startsLower g.toList) gs
    rw [hg] at hnot
    exact Bool.false_ne_true (hnot.symm.trans (startsLower_iff.mpr hlower))
  · refine Or.inr ?_
    rw [List.length_drop]
    omega

theorem boundary_append (hps : ∀ g ∈ ps, StartsLower g) (hne : ns ≠ [])
    (hfirst : (∀ g ∈ ns.head?, ¬StartsLower g) ∨ ns.length = 1) : boundary (ps ++ ns) = ps.length := by
  have hpos := List.length_pos_iff.mpr hne
  have hleading : leading (ps ++ ns) = ps ++ leading ns :=
    List.takeWhile_append_of_pos fun g hg => startsLower_iff.mpr (hps g hg)
  rw [boundary_eq, hleading, List.length_append, List.length_append]
  rcases hfirst with hfirst | hone
  · have hnone : leading ns = [] := by
      cases ns with
      | nil => rfl
      | cons g rest => exact List.takeWhile_cons_of_neg fun hlower => hfirst g rfl (startsLower_iff.mp hlower)
    rw [hnone, List.length_nil]
    omega
  · omega

/-! ### Reading back -/

/-- The name that a list of segments is read as. -/
def ofParts (gs : List String) : TypeName :=
  ⟨".".intercalate (gs.take (boundary gs)), ".".intercalate (gs.drop (boundary gs))⟩

theorem ofList_join (gs : List (List Char)) :
    String.ofList (Segments.join '.' gs) = ".".intercalate (gs.map String.ofList) := by
  rw [← String.toList_inj, String.toList_ofList, String.toList_intercalate, Segments.map_toList_ofList]
  exact Segments.join_eq_intercalate '.' gs

theorem parse_eq (s : String) : parse s = ofParts (parts s) := by
  have hparts : ((Segments.cut '.' s.toList).filter (!·.isEmpty)).map String.ofList = parts s := by
    rw [parts, segments, List.filter_map, Segments.cut_eq_splitOn]
    congr 2
    funext cs
    cases cs <;> simp
  have hboundary : packageLength ((Segments.cut '.' s.toList).filter (!·.isEmpty)) = boundary (parts s) := by
    rw [boundary, ← hparts, Segments.map_toList_ofList]
  rw [parse, ofParts, ofList_join, ofList_join, List.map_take, List.map_drop, hparts, hboundary]

theorem source_ofParts (hgs : Whole gs) : (ofParts gs).source = ".".intercalate gs := by
  rw [source, ofParts]
  have hsplit := List.take_append_drop (boundary gs) gs
  by_cases htake : gs.take (boundary gs) = []
  · rw [htake, List.nil_append] at hsplit
    simp [htake, hsplit]
  · have hdrop := drop_boundary_ne_nil (List.ne_nil_of_take_ne_nil htake)
    have hpackage := intercalate_ne_empty (fun g hg => hgs.nonempty g (List.mem_of_mem_take hg)) htake
    rw [if_neg (by simpa using hpackage)]
    conv_rhs => rw [← hsplit, String.intercalate_append_of_ne_nil htake hdrop]

theorem source_parse (s : String) : (parse s).source = ".".intercalate (parts s) := by
  rw [parse_eq, source_ofParts (whole_parts s)]

theorem parse_source_parse (s : String) : parse (parse s).source = parse s := by
  rw [source_parse, parse_eq, parts_intercalate (whole_parts s), ← parse_eq]

/-- The form of the names that reading leads to: the package is empty, or its segments all start lowercase (none is
    empty, then); the segments of the name are not empty, and the first of them starts lowercase only if it is the only
    one. -/
structure Canonical (q : TypeName) : Prop where
  package : q.package = "" ∨ ∀ g ∈ segments q.package, StartsLower g
  simple : ∀ g ∈ segments q.simple, g ≠ ""
  first : (∀ g ∈ (segments q.simple).head?, ¬StartsLower g) ∨ (segments q.simple).length = 1

theorem canonical_ofParts (hgs : Whole gs) (hne : gs ≠ []) : (ofParts gs).Canonical := by
  have hdrop : segments (ofParts gs).simple = gs.drop (boundary gs) :=
    segments_intercalate (fun g hg => hgs.dotless g (List.mem_of_mem_drop hg)) (drop_boundary_ne_nil hne)
  refine ⟨?_, ?_, ?_⟩
  · by_cases htake : gs.take (boundary gs) = []
    · exact Or.inl (by rw [ofParts, htake]; rfl)
    · have hpackage : segments (ofParts gs).package = gs.take (boundary gs) :=
        segments_intercalate (fun g hg => hgs.dotless g (List.mem_of_mem_take hg)) htake
      exact Or.inr (hpackage ▸ fun g hg => startsLower_of_mem_take hg)
  · exact hdrop ▸ fun g hg => hgs.nonempty g (List.mem_of_mem_drop hg)
  · exact hdrop ▸ first_of_drop hne

theorem Canonical.eq_ofParts {q : TypeName} (hq : q.Canonical) : ∃ gs, Whole gs ∧ ofParts gs = q := by
  obtain ⟨ps, hlower, hdotless, hpackage⟩ :
      ∃ ps, (∀ g ∈ ps, StartsLower g) ∧ (∀ g ∈ ps, '.' ∉ g.toList) ∧ ".".intercalate ps = q.package := by
    rcases hq.package with hempty | hlower
    · exact ⟨[], by simp, by simp, hempty ▸ rfl⟩
    · exact ⟨_, hlower, fun _ => dotless_of_mem_segments, intercalate_segments _⟩
  have hboundary := boundary_append hlower (segments_ne_nil q.simple) hq.first
  refine ⟨ps ++ segments q.simple, ⟨?_, ?_⟩, ?_⟩
  · exact List.forall_mem_append.mpr ⟨fun g hg => (hlower g hg).ne_empty, hq.simple⟩
  · exact List.forall_mem_append.mpr ⟨hdotless, fun _ => dotless_of_mem_segments⟩
  · rw [ofParts, hboundary, List.take_left, List.drop_left, hpackage, intercalate_segments]

theorem parse_source_eq_iff (q : TypeName) : parse q.source = q ↔ q.package = "" ∧ q.simple = "" ∨ q.Canonical := by
  constructor
  · intro hq
    rw [parse_eq] at hq
    by_cases hne : parts q.source = []
    · rw [hne] at hq
      exact Or.inl (hq ▸ ⟨rfl, rfl⟩)
    · exact Or.inr (hq ▸ canonical_ofParts (whole_parts _) hne)
  · rintro (⟨hpackage, hsimple⟩ | hq)
    · obtain ⟨package, simple⟩ := q
      obtain rfl : package = "" := hpackage
      obtain rfl : simple = "" := hsimple
      rfl
    · obtain ⟨gs, hgs, rfl⟩ := hq.eq_ofParts
      rw [source_ofParts hgs, parse_eq, parts_intercalate hgs]

/-! ### Names and declarations -/

/-- What was declared under the fingerprint of a text without empty segments is what the text leads to from then on. -/
theorem named?_after_declare {cat cat' : Catalog} (hcat : cat.Reachable) (hs : ∀ g ∈ segments s, g ≠ "") {c : ClassDecl}
    (hid : c.id = (ClassDecl.classNamed s).id) (hc : cat.declare c = .ok cat') (updates : List Catalog.Update) :
    (cat'.after updates).named? s = some c := by
  have hcat' : cat'.Reachable := hcat.declare hc
  have hname : Fingerprint.ofName s = c.id := by
    calc Fingerprint.ofName s
      _ = Fingerprint.ofName (".".intercalate (parts s)) := by rw [intercalate_parts hs]
      _ = (parse s).fingerprint := by rw [fingerprint, source_parse]
      _ = c.id := hid.symm
  obtain ⟨-, rfl⟩ := Catalog.declare_eq_ok.mp hc
  refine (hcat'.growsTo updates).find?_eq_some (hcat'.indexed.find?_eq_some.mpr ⟨?_, hname.symm⟩)
  exact Array.mem_push_self

/-- Writing what was read drops the empty segments, changes nothing the second time, and is what the fingerprint is made
    of; the names that are read back are the canonical ones and the empty one. -/
theorem parse_and_source (s : String) :
    (parse s).source = ".".intercalate ((segments s).filter (· ≠ "")) ∧
    parse (parse s).source = parse s ∧
    (parse s).fingerprint = .ofName (".".intercalate ((segments s).filter (· ≠ ""))) ∧
    ((∀ g ∈ segments s, g ≠ "") → ∀ cat cat' : Catalog, cat.Reachable → ∀ c : ClassDecl,
      c.id = (ClassDecl.classNamed s).id → cat.declare c = .ok cat' →
        ∀ updates, (cat'.after updates).named? s = some c) ∧
    ∀ q : TypeName, parse q.source = q ↔ q.package = "" ∧ q.simple = "" ∨ q.Canonical := by
  refine ⟨source_parse s, parse_source_parse s, ?_, fun hs cat cat' hcat c hid hc => ?_, parse_source_eq_iff⟩
  · rw [fingerprint, source_parse, parts]
  · exact named?_after_declare hcat hs hid hc

/-- A nested type is found by its source form, which also gives back its name. Where the package starts uppercase, it is
    read as part of the name. -/
theorem parse_and_source_tree :
    let tree := ClassDecl.classNamed "com.example.Tree.Node"
    (Catalog.runtime.store tree).named? "com.example.Tree.Node" = some tree ∧
      parse (source ⟨"com.example", "Tree.Node"⟩) = ⟨"com.example", "Tree.Node"⟩ ∧
      parse (source ⟨"Com", "Tree"⟩) ≠ ⟨"Com", "Tree"⟩ := by
  intro tree
  have hsegments : segments "com.example.Tree.Node" = ["com", "example", "Tree", "Node"] := by decide +kernel
  have hnew : Catalog.runtime.contains tree.id = false := by decide +kernel
  obtain ⟨-, -, -, hfound, hread⟩ := parse_and_source "com.example.Tree.Node"
  refine ⟨?_, (hread _).mpr (Or.inr ⟨Or.inr ?_, ?_, Or.inl ?_⟩), fun hback => ?_⟩
  · exact hfound (by simp [hsegments]) .runtime _ .runtime tree rfl (Catalog.declare_eq_ok.mpr ⟨hnew, rfl⟩) []
  · rw [show segments "com.example" = ["com", "example"] by decide +kernel]
    simp [StartsLower]
  · rw [show segments "Tree.Node" = ["Tree", "Node"] by decide +kernel]
    simp
  · rw [show segments "Tree.Node" = ["Tree", "Node"] by decide +kernel]
    simp [StartsLower]
  · rcases (hread _).mp hback with ⟨hpackage, -⟩ | ⟨hpackage | hlower, -, -⟩
    · exact absurd hpackage (by decide)
    · exact absurd hpackage (by decide)
    · rw [show segments "Com" = ["Com"] by decide +kernel] at hlower
      simp [StartsLower] at hlower

end TypeName

end Marshal
