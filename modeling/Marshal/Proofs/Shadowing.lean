import Marshal.Export
import Mathlib.Data.Prod.Lex
import Mathlib.Order.WellFounded

/-! # Which methods are exported

The tagged methods of a lineage stand in an order: by the position of their class on it, and within a class by their own
position. A method is exported exactly if no tagged method before it has the same exported name. So an exported name
belongs to one method only, and every tagged method that is not exported has given way to one that is. -/

namespace Marshal

namespace Tags
variable {tags : Tags} {tag : String}

theorem single?_eq_some {value : String} :
    tags.single? tag = some value ↔ tags.values tag = [[value]] := by
  unfold Tags.single?
  split
  · next given hgiven => simp [hgiven]
  · next hnot =>
    constructor
    · intro h
      cases h
    · intro h
      exact absurd h (hnot value)

theorem has_iff : tags.has tag = true ↔ ∃ values, (tag, values) ∈ tags.occurrences := by
  simp only [Tags.has, List.any_eq_true, beq_iff_eq, Prod.exists, exists_and_right, exists_eq_right]

end Tags

namespace Export
variable {cat : Catalog} {s : Settings} {c : ClassDecl}

/-- Where a method stands on a lineage: first the position of its class, then its own position in that class. -/
abbrev Place := ℕ ×ₗ ℕ

/-- The name that a method is exported under: the only value that a tag gives, or else its own name. -/
def NamedAs (s : Settings) (m : Method) (name : String) : Prop :=
  m.tags.values s.tags.fieldName = [[name]] ∨
    (∀ given, m.tags.values s.tags.fieldName ≠ [[given]]) ∧ name = m.name

/-- At this place of the lineage of the class stands a tagged method, and `e` is its export. -/
structure TaggedAt (cat : Catalog) (s : Settings) (c : ClassDecl) (place : Place) (e : Export) : Prop where
  owner : (cat.lineage c)[(ofLex place).1]? = some e.owner
  method : e.owner.methods[(ofLex place).2]? = some e.method
  tagged : ∃ values, (s.tags.exported, values) ∈ e.method.tags.occurrences
  name : NamedAs s e.method e.name

/-! ### One method -/

theorem namedAs_iff {m : Method} {name : String} :
    NamedAs s m name ↔ (m.tags.single? s.tags.fieldName).getD m.name = name := by
  cases hgiven : m.tags.single? s.tags.fieldName with
  | some given =>
    rw [Tags.single?_eq_some] at hgiven
    simp [NamedAs, hgiven]
  | none =>
    have hnot : ∀ given, m.tags.values s.tags.fieldName ≠ [[given]] := by
      intro given h
      rw [Tags.single?_eq_some.mpr h] at hgiven
      cases hgiven
    simp [NamedAs, hnot, eq_comm]

/-! ### All tagged methods -/

def ofMethod (s : Settings) (owner : ClassDecl) (m : Method) : Export :=
  ⟨(m.tags.single? s.tags.fieldName).getD m.name, owner, m⟩

/-- The exports of all tagged methods of a lineage, shadowed or not, each with its place. -/
def tagged (cat : Catalog) (s : Settings) (c : ClassDecl) : List (Place × Export) :=
  (cat.lineage c).zipIdx.flatMap fun d =>
    (d.1.methods.zipIdx.filter (·.1.tags.has s.tags.exported)).map fun m => (toLex (d.2, m.2), ofMethod s d.1 m.1)

theorem map_filter_zipIdx {α β : Type} (p : α → Bool) (f : α → β) (xs : List α) :
    (xs.zipIdx.filter fun x => p x.1).map (fun x => f x.1) = (xs.filter p).map f := by
  conv_rhs => rw [← List.zipIdx_map_fst 0 xs, List.filter_map, List.map_map]
  rfl

theorem map_tagged (cat : Catalog) (s : Settings) (c : ClassDecl) :
    (tagged cat s c).map (·.2) = (cat.lineage c).flatMap (ofClass s) := by
  conv_rhs => rw [← List.zipIdx_map_fst 0 (cat.lineage c), List.flatMap_map]
  rw [tagged, List.map_flatMap]
  congr 1
  funext d
  rw [List.map_map]
  exact map_filter_zipIdx (·.tags.has s.tags.exported) (ofMethod s d.1) d.1.methods

theorem mem_tagged {p : Place} {e : Export} : (p, e) ∈ tagged cat s c ↔ TaggedAt cat s c p e := by
  obtain ⟨name, owner, method⟩ := e
  simp only [tagged, ofMethod, List.mem_flatMap, List.mem_map, List.mem_filter, Prod.exists,
    List.mk_mem_zipIdx_iff_getElem?, Prod.mk.injEq, Export.mk.injEq]
  constructor
  · rintro ⟨d, i, hd, m, j, ⟨hm, htag⟩, rfl, rfl, rfl, rfl⟩
    exact ⟨hd, hm, Tags.has_iff.mp htag, namedAs_iff.mpr rfl⟩
  · rintro ⟨howner, hmethod, htag, hname⟩
    exact ⟨owner, _, howner, method, _, ⟨hmethod, Tags.has_iff.mpr htag⟩, rfl, namedAs_iff.mp hname, rfl, rfl⟩

theorem zipIdx_pairwise {α : Type} (xs : List α) : xs.zipIdx.Pairwise (·.2 < ·.2) := by
  have hpositions : (xs.zipIdx.map (·.2)).Pairwise (· < ·) := by
    rw [List.zipIdx_map_snd]
    exact List.pairwise_lt_range'
  exact List.pairwise_map.mp hpositions

theorem tagged_pairwise (cat : Catalog) (s : Settings) (c : ClassDecl) : (tagged cat s c).Pairwise (·.1 < ·.1) := by
  refine List.pairwise_flatMap.mpr ⟨fun d _ => ?_, (zipIdx_pairwise _).imp fun {d d'} hd => ?_⟩
  · refine List.pairwise_map.mpr (((zipIdx_pairwise d.1.methods).filter _).imp fun hm => ?_)
    exact Prod.Lex.toLex_lt_toLex.mpr (Or.inr ⟨rfl, hm⟩)
  · intro x hx y hy
    obtain ⟨m, -, rfl⟩ := List.mem_map.mp hx
    obtain ⟨m', -, rfl⟩ := List.mem_map.mp hy
    exact Prod.Lex.toLex_lt_toLex.mpr (Or.inl hd)

/-! ### What is not shadowed -/

/-- Of exports in order those are kept whose name is neither taken nor that of an earlier one. -/
theorem exists_unshadowed {all : List (Place × Export)} (h : all.Pairwise (·.1 < ·.1)) (taken : List String) :
    ∃ kept : List (Place × Export), kept.Sublist all ∧ kept.map (·.2) = unshadowed taken (all.map (·.2)) ∧
      ∀ x, x ∈ kept ↔ x ∈ all ∧ x.2.name ∉ taken ∧ ∀ y ∈ all, y.1 < x.1 → y.2.name ≠ x.2.name := by
  induction all generalizing taken with
  | nil => exact ⟨[], .refl _, rfl, by simp⟩
  | cons first rest ih =>
    obtain ⟨hfirst, hrest⟩ := List.pairwise_cons.mp h
    by_cases htaken : first.2.name ∈ taken
    · obtain ⟨kept, hsub, hmap, hmem⟩ := ih hrest taken
      refine ⟨kept, hsub.cons first, ?_, fun x => ?_⟩
      · rw [hmap, List.map_cons, unshadowed, if_pos htaken]
      · rw [hmem, List.mem_cons, List.forall_mem_cons]
        constructor
        · rintro ⟨hx, hnew, hforemost⟩
          exact ⟨Or.inr hx, hnew, fun _ hname => hnew (hname ▸ htaken), hforemost⟩
        · rintro ⟨rfl | hx, hnew, -, hforemost⟩
          · exact absurd htaken hnew
          · exact ⟨hx, hnew, hforemost⟩
    · obtain ⟨kept, hsub, hmap, hmem⟩ := ih hrest (first.2.name :: taken)
      refine ⟨first :: kept, hsub.cons_cons first, ?_, fun x => ?_⟩
      · rw [List.map_cons, hmap, List.map_cons, unshadowed, if_neg htaken]
      · rw [List.mem_cons, hmem, List.mem_cons, List.mem_cons, not_or, List.forall_mem_cons]
        constructor
        · rintro (rfl | ⟨hx, ⟨hne, hnew⟩, hforemost⟩)
          · exact ⟨Or.inl rfl, htaken, fun hlt => absurd hlt (lt_irrefl _),
              fun y hy hlt => absurd hlt (lt_asymm (hfirst y hy))⟩
          · exact ⟨Or.inr hx, hnew, fun _ => Ne.symm hne, hforemost⟩
        · rintro ⟨rfl | hx, hnew, hne, hforemost⟩
          · exact Or.inl rfl
          · exact Or.inr ⟨hx, ⟨Ne.symm (hne (hfirst x hx)), hnew⟩, hforemost⟩

/-- Before any tagged method, or at its place, stands the first one that has its exported name. -/
theorem TaggedAt.exists_foremost {p : Place} {e : Export} (h : TaggedAt cat s c p e) :
    ∃ q ≤ p, ∃ f, TaggedAt cat s c q f ∧ f.name = e.name ∧
      ∀ q' f', q' < q → TaggedAt cat s c q' f' → f'.name ≠ f.name := by
  induction p using WellFoundedLT.induction generalizing e with
  | ind p ih =>
    by_cases hearlier : ∃ q f, q < p ∧ TaggedAt cat s c q f ∧ f.name = e.name
    · obtain ⟨q, f, hq, hf, hname⟩ := hearlier
      obtain ⟨q', hq', f', hf', hname', hforemost⟩ := ih q hq hf
      exact ⟨q', hq'.trans hq.le, f', hf', hname'.trans hname, hforemost⟩
    · exact ⟨p, le_rfl, e, h, rfl, fun q f hq hf hname => hearlier ⟨q, f, hq, hf, hname⟩⟩

/-- The exports of a class are those of the tagged methods before which no tagged method has the same exported name,
    in the order of their places. Their names are all different, and each tagged method has one of its name at its own
    place or before it. -/
theorem all_foremost (cat : Catalog) (s : Settings) (c : ClassDecl) :
    ∃ listed : List (Place × Export),
      listed.map (·.2) = all cat s c ∧ listed.Pairwise (·.1 < ·.1) ∧
      (∀ p e, (p, e) ∈ listed ↔
        TaggedAt cat s c p e ∧ ∀ q f, q < p → TaggedAt cat s c q f → f.name ≠ e.name) ∧
      ((all cat s c).map (·.name)).Nodup ∧
      ∀ p e, TaggedAt cat s c p e → ∃ q ≤ p, ∃ f, (q, f) ∈ listed ∧ f.name = e.name := by
  have hsorted := tagged_pairwise cat s c
  obtain ⟨listed, hsub, hmap, hmem⟩ := exists_unshadowed hsorted []
  rw [map_tagged] at hmap
  have hlisted : ∀ p e, (p, e) ∈ listed ↔
      TaggedAt cat s c p e ∧ ∀ q f, q < p → TaggedAt cat s c q f → f.name ≠ e.name := by
    intro p e
    rw [hmem, mem_tagged]
    simp only [List.not_mem_nil, not_false_eq_true, true_and, Prod.forall, mem_tagged]
    exact and_congr_right fun _ => forall₂_congr fun q f => ⟨fun h hq hf => h hf hq, fun h hf hq => h hq hf⟩
  refine ⟨listed, hmap, hsorted.sublist hsub, hlisted, ?_, fun p e h => ?_⟩
  · show ((unshadowed [] _).map _).Nodup
    rw [← hmap, List.map_map]
    refine List.pairwise_map.mpr ((hsorted.sublist hsub).imp_of_mem fun {x y} hx hy hlt => ?_)
    exact ((hlisted y.1 y.2).mp hy).2 x.1 x.2 hlt ((hlisted x.1 x.2).mp hx).1
  · obtain ⟨q, hq, f, hf, hname, hforemost⟩ := h.exists_foremost
    exact ⟨q, hq, f, (hlisted q f).mpr ⟨hf, hforemost⟩, hname⟩

/-! Two classes that are above each other. One method is exported under the name of a method of the other class, which
thereby gives way to it, although it overrides another one, which does not. A method without the tag hides nothing. -/

def renamed : Method := { name := "show", tags := ⟨[("gwt.exported", []), ("gwt.fieldName", ["paint"])]⟩ }

def exportedPlainly (name : String) : Method := { name := name, tags := ⟨[("gwt.exported", [])]⟩ }

def sprite : ClassDecl :=
  { ClassDecl.classNamed "game.Sprite" with
    superclass := some (.named "game.Actor"), methods := [{ name := "reset" }, renamed] }

def actor : ClassDecl :=
  { ClassDecl.classNamed "game.Actor" with
    superclass := some (.named "game.Sprite"), methods := ["paint", "show", "reset"].map exportedPlainly }

def game : Catalog := (Catalog.runtime.declareAll [sprite, actor]).1

-- Stated together, so that the catalog is evaluated once.
theorem game_evaluated :
    game.lineage sprite = [sprite, actor] ∧
      all game {} sprite = [⟨"paint", sprite, renamed⟩, ⟨"show", actor, exportedPlainly "show"⟩,
        ⟨"reset", actor, exportedPlainly "reset"⟩] := by
  decide +kernel

theorem all_foremost_game :
    TaggedAt game {} sprite (toLex (0, 1)) ⟨"paint", sprite, renamed⟩ ∧
      TaggedAt game {} sprite (toLex (1, 0)) ⟨"paint", actor, exportedPlainly "paint"⟩ ∧
      ∃ listed : List (Place × Export), listed.map (·.2) = [⟨"paint", sprite, renamed⟩,
          ⟨"show", actor, exportedPlainly "show"⟩, ⟨"reset", actor, exportedPlainly "reset"⟩] ∧
        (toLex (0, 1), ⟨"paint", sprite, renamed⟩) ∈ listed ∧
        (toLex (1, 0), ⟨"paint", actor, exportedPlainly "paint"⟩) ∉ listed := by
  obtain ⟨hlineage, hall⟩ := game_evaluated
  have hrenamed : TaggedAt game {} sprite (toLex (0, 1)) ⟨"paint", sprite, renamed⟩ :=
    ⟨by rw [hlineage]; rfl, rfl, ⟨[], List.mem_cons_self ..⟩, Or.inl rfl⟩
  have hpaint : TaggedAt game {} sprite (toLex (1, 0)) ⟨"paint", actor, exportedPlainly "paint"⟩ :=
    ⟨by rw [hlineage]; rfl, rfl, ⟨[], List.mem_cons_self ..⟩, Or.inr ⟨fun _ h => (nomatch h), rfl⟩⟩
  have hlt : (toLex (0, 1) : Place) < toLex (1, 0) := Prod.Lex.toLex_lt_toLex.mpr (Or.inl Nat.zero_lt_one)
  obtain ⟨listed, hmap, -, hlisted, -, -⟩ := all_foremost game {} sprite
  refine ⟨hrenamed, hpaint, listed, hmap.trans hall, ?_, fun hmem => ?_⟩
  · -- Only the method without the tag stands before it.
    refine (hlisted _ _).mpr ⟨hrenamed, fun q f hq hf => ?_⟩
    obtain ⟨howner, hmethod, ⟨values, htag⟩, -⟩ := hf
    rcases Prod.Lex.lt_iff.mp hq with hclass | ⟨hclass, hposition⟩
    · exact absurd hclass (Nat.not_lt_zero _)
    · rw [hclass, hlineage] at howner
      rw [Nat.lt_one_iff.mp hposition, ← Option.some.inj howner] at hmethod
      rw [← Option.some.inj hmethod] at htag
      cases htag
  · exact ((hlisted _ _).mp hmem).2 _ _ hlt hrenamed rfl

end Export

end Marshal
