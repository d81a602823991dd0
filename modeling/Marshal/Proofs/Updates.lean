import Marshal.Proofs.Registration

/-! # Catalogs under updates

A catalog changes only when classes are declared, one alone or several in a batch. After any number of updates its
positions, its index and its look-ups agree, and what was declared before stays where it is. A batch is declared up to
the first class whose fingerprint is taken, by an earlier declaration or by one of the same batch. -/

namespace Marshal.Catalog
variable {cat : Catalog}

inductive Update
  | declare (c : ClassDecl)
  | declareAll (cs : List ClassDecl)

/-- The catalog after the update, and its answer. -/
def Update.run (cat : Catalog) : Update → Catalog × Except CatalogError Unit
  | declare c =>
    match cat.declare c with
    | .ok cat' => (cat', .ok ())
    | .error e => (cat, .error e)
  | declareAll cs => cat.declareAll cs

def after (cat : Catalog) (updates : List Update) : Catalog := updates.foldl (fun cat u => (u.run cat).1) cat

/-- All of the classes can be declared: none of their fingerprints is taken, and none occurs twice. -/
structure Fresh (cat : Catalog) (cs : List ClassDecl) : Prop where
  undeclared : ∀ c ∈ cs, ¬cat.Declares c.id
  distinct : (cs.map (·.id)).Nodup

theorem fresh_nil : cat.Fresh [] := ⟨fun _ hc => (nomatch hc), List.nodup_nil⟩

theorem fresh_cons {c : ClassDecl} {cs : List ClassDecl} :
    cat.Fresh (c :: cs) ↔ ¬cat.Declares c.id ∧ (cat.store c).Fresh cs := by
  constructor
  · rintro ⟨hundeclared, hdistinct⟩
    rw [List.map_cons, List.nodup_cons] at hdistinct
    refine ⟨hundeclared c (List.mem_cons_self ..), fun d hd => ?_, hdistinct.2⟩
    rw [declares_store]
    rintro (hdecl | hid)
    · exact hundeclared d (List.mem_cons_of_mem _ hd) hdecl
    · exact hdistinct.1 (List.mem_map.mpr ⟨d, hd, hid.symm⟩)
  · rintro ⟨hc, hundeclared, hdistinct⟩
    simp only [declares_store, not_or] at hundeclared
    have hnew : ∀ d ∈ c :: cs, ¬cat.Declares d.id :=
      List.forall_mem_cons.mpr ⟨hc, fun d hd => (hundeclared d hd).1⟩
    refine ⟨hnew, List.nodup_cons.mpr ⟨fun hmem => ?_, hdistinct⟩⟩
    obtain ⟨d, hd, hid⟩ := List.mem_map.mp hmem
    exact (hundeclared d hd).2 hid.symm

theorem Fresh.of_isPrefix {cs ds : List ClassDecl} (h : cat.Fresh ds) (hcs : cs <+: ds) : cat.Fresh cs :=
  ⟨fun c hc => h.undeclared c (hcs.subset hc), h.distinct.sublist (hcs.sublist.map _)⟩

/-- A beginning that the next class would spoil is the longest that is fresh. -/
theorem isPrefix_of_fresh {cs accepted rest : List ClassDecl} (hcs : cs = accepted ++ rest)
    (hrest : ∀ c later, rest = c :: later → ¬cat.Fresh (accepted ++ [c])) {begun : List ClassDecl}
    (hbegun : begun <+: cs) (hfresh : cat.Fresh begun) : begun <+: accepted := by
  subst hcs
  rcases List.prefix_or_prefix_of_prefix hbegun (List.prefix_append accepted rest) with hle | ⟨more, rfl⟩
  · exact hle
  rw [List.prefix_append_right_inj] at hbegun
  cases more with
  | nil => exact ⟨[], by simp⟩
  | cons c more =>
    obtain ⟨later, rfl⟩ := hbegun
    refine absurd (hfresh.of_isPrefix ?_) (hrest c (more ++ later) rfl)
    rw [List.prefix_append_right_inj]
    exact ⟨more, rfl⟩

/-! ### One update -/

theorem toList_store (cat : Catalog) (c : ClassDecl) : (cat.store c).entries.toList = cat.entries.toList ++ [c] :=
  Array.toList_push

theorem toList_storeAll (cat : Catalog) (cs : List ClassDecl) :
    (cs.foldl store cat).entries.toList = cat.entries.toList ++ cs := by
  induction cs generalizing cat with
  | nil => exact (List.append_nil _).symm
  | cons c rest ih => rw [List.foldl_cons, ih, toList_store, List.append_assoc, List.singleton_append]

namespace Indexed
variable (h : cat.Indexed)
include h

theorem declare_of_declares {c : ClassDecl} (hc : cat.Declares c.id) :
    cat.declare c = .error (.duplicate c.name.source) := if_pos (h.contains_iff.mpr hc)

theorem declare_of_not_declares {c : ClassDecl} (hc : ¬cat.Declares c.id) : cat.declare c = .ok (cat.store c) :=
  if_neg (mt h.contains_iff.mp hc)

theorem run_declare_of_declares {c : ClassDecl} (hc : cat.Declares c.id) :
    (Update.declare c).run cat = (cat, .error (.duplicate c.name.source)) := by
  rw [Update.run, h.declare_of_declares hc]

theorem run_declare_of_not_declares {c : ClassDecl} (hc : ¬cat.Declares c.id) :
    (Update.declare c).run cat = (cat.store c, .ok ()) := by
  rw [Update.run, h.declare_of_not_declares hc]

/-- A batch is stored up to the first class that is not fresh after those before it. -/
theorem declareAll_split (cs : List ClassDecl) : ∃ accepted rest, cs = accepted ++ rest ∧ cat.Fresh accepted ∧
    (cat.declareAll cs).1 = accepted.foldl Catalog.store cat ∧
    (rest = [] ∧ (cat.declareAll cs).2 = .ok () ∨
      ∃ c later, rest = c :: later ∧ ¬cat.Fresh (accepted ++ [c]) ∧
        (cat.declareAll cs).2 = .error (.duplicate c.name.source)) := by
  induction cs generalizing cat with
  | nil => exact ⟨[], [], rfl, fresh_nil, rfl, Or.inl ⟨rfl, rfl⟩⟩
  | cons c rest ih =>
    by_cases hc : cat.Declares c.id
    · rw [Catalog.declareAll, h.declare_of_declares hc]
      exact ⟨[], c :: rest, rfl, fresh_nil, rfl, Or.inr ⟨c, rest, rfl, fun hf => (fresh_cons.mp hf).1 hc, rfl⟩⟩
    · rw [Catalog.declareAll, h.declare_of_not_declares hc]
      obtain ⟨accepted, later, rfl, hfresh, hcat, hanswer⟩ := ih (h.store hc)
      refine ⟨c :: accepted, later, rfl, fresh_cons.mpr ⟨hc, hfresh⟩, hcat, ?_⟩
      refine hanswer.imp_right fun ⟨d, more, hlater, hnot, hd⟩ => ⟨d, more, hlater, ?_, hd⟩
      exact fun hf => hnot (fresh_cons.mp hf).2

end Indexed

theorem Reachable.run (h : cat.Reachable) (u : Update) : (u.run cat).1.Reachable := by
  cases u with
  | declare c =>
    by_cases hc : cat.Declares c.id
    · rwa [h.indexed.run_declare_of_declares hc]
    · rw [h.indexed.run_declare_of_not_declares hc]
      exact h.declare (h.indexed.declare_of_not_declares hc)
  | declareAll cs => exact h.declareAll cs

theorem Reachable.entries_run (h : cat.Reachable) (u : Update) :
    cat.entries.toList <+: (u.run cat).1.entries.toList := by
  cases u with
  | declare c =>
    by_cases hc : cat.Declares c.id
    · rewrite [h.indexed.run_declare_of_declares hc]
      exact List.prefix_refl _
    · rw [h.indexed.run_declare_of_not_declares hc]
      exact ⟨[c], (toList_store cat c).symm⟩
  | declareAll cs =>
    obtain ⟨accepted, -, -, -, hcat, -⟩ := h.indexed.declareAll_split cs
    exact ⟨accepted, by rw [Update.run, hcat, toList_storeAll]⟩

theorem Reachable.index_size (h : cat.Reachable) : cat.index.size = cat.size := by
  induction h with
  | empty => rfl
  | runtime => decide +kernel
  | @declare cat _ c _ hc ih =>
    obtain ⟨hnew, rfl⟩ := declare_eq_ok.mp hc
    have hnew : ¬cat.index.contains c.id = true := Bool.eq_false_iff.mp hnew
    show (cat.index.insert c.id cat.entries.size).size = (cat.entries.push c).size
    rw [Std.TreeMap.size_insert, if_neg hnew, Array.size_push, ih]
    rfl

/-! ### Many updates -/

theorem Reachable.after (h : cat.Reachable) (updates : List Update) : (cat.after updates).Reachable := by
  induction updates generalizing cat with
  | nil => exact h
  | cons u rest ih => exact ih (h.run u)

theorem Reachable.entries_after (h : cat.Reachable) (updates : List Update) :
    cat.entries.toList <+: (cat.after updates).entries.toList := by
  induction updates generalizing cat with
  | nil => exact List.prefix_refl _
  | cons u rest ih => exact (h.entries_run u).trans (ih (h.run u))

/-- In every catalog that updates lead to, no two declarations share a fingerprint, the index leads from the
    fingerprint of each declaration to its position and from no other, and a look-up gives the declaration with the
    fingerprint that is asked for. No update moves or changes what is declared. A single class is stored at the end, or
    refused if its fingerprint is taken. Of a batch the longest fresh beginning is stored, in order, and the class after
    it is refused. -/
theorem after_updates_indexed {start : Catalog} (hstart : start = .empty ∨ start = .runtime) (updates : List Update) :
    let cat := start.after updates
    ((cat.entries.toList.map (·.id)).Nodup ∧ cat.Indexed ∧ cat.index.size = cat.size) ∧
    ((∀ id c, cat.find? id = some c ↔ c ∈ cat.entries ∧ c.id = id) ∧
      (∀ name c, cat.named? name = some c ↔ c ∈ cat.entries ∧ c.id = .ofName name) ∧
      ∀ id, cat.contains id = true ↔ ∃ c ∈ cat.entries, c.id = id) ∧
    (∀ more (i : Nat) c, cat.entries[i]? = some c → (cat.after more).entries[i]? = some c) ∧
    ((∀ c, cat.Declares c.id → (Update.declare c).run cat = (cat, .error (.duplicate c.name.source))) ∧
      ∀ c, ¬cat.Declares c.id → ((Update.declare c).run cat).1.entries = cat.entries.push c ∧
        ((Update.declare c).run cat).2 = .ok ()) ∧
    ∀ cs, ∃ accepted rest, cs = accepted ++ rest ∧ cat.Fresh accepted ∧
      (∀ begun, begun <+: cs → cat.Fresh begun → begun <+: accepted) ∧
      ((Update.declareAll cs).run cat).1.entries.toList = cat.entries.toList ++ accepted ∧
      (rest = [] ∧ ((Update.declareAll cs).run cat).2 = .ok () ∨
        ∃ c later, rest = c :: later ∧ ((Update.declareAll cs).run cat).2 = .error (.duplicate c.name.source)) := by
  intro cat
  have hstart : start.Reachable := by
    rcases hstart with rfl | rfl
    · exact .empty
    · exact .runtime
  have hcat : cat.Reachable := hstart.after updates
  have h := hcat.indexed
  refine ⟨⟨h.nodup_ids, h, hcat.index_size⟩,
    ⟨fun id c => h.find?_eq_some, fun name c => h.find?_eq_some, fun id => h.contains_iff⟩, fun more i c hi => ?_,
    ⟨fun c hc => h.run_declare_of_declares hc, fun c hc => ?_⟩, fun cs => ?_⟩
  · obtain ⟨added, hadded⟩ := hcat.entries_after more
    rw [← Array.getElem?_toList] at hi ⊢
    rw [← hadded, List.getElem?_append_left (List.getElem?_eq_some_iff.mp hi).1, hi]
  · rw [h.run_declare_of_not_declares hc]
    exact ⟨rfl, rfl⟩
  · obtain ⟨accepted, rest, hcs, hfresh, hrun, hanswer⟩ := h.declareAll_split cs
    refine ⟨accepted, rest, hcs, hfresh, fun begun hbegun => isPrefix_of_fresh hcs ?_ hbegun, ?_, ?_⟩
    · rintro c later rfl
      rcases hanswer with ⟨hnil, -⟩ | ⟨_, _, hrest, hnot, -⟩
      · cases hnil
      · cases hrest
        exact hnot
    · rw [Update.run, hrun, toList_storeAll]
    · exact hanswer.imp_right fun ⟨c, later, hrest, _, he⟩ => ⟨c, later, hrest, he⟩

/-! A jar; and a batch in which a name occurs twice, before a class that is new. -/

def jar : ClassDecl := .classNamed "shop.Jar"

def box : ClassDecl := .classNamed "shop.Box"

def tin : ClassDecl := .classNamed "shop.Tin"

def boxAgain : ClassDecl := .interfaceNamed "shop.Box"

def can : ClassDecl := .classNamed "shop.Can"

-- Stated together, so that the catalog is evaluated once.
theorem shop_evaluated :
    let cat := Catalog.runtime.after [.declare jar]
    (cat.contains jar.id = true ∧ cat.contains box.id = false ∧ cat.contains tin.id = false) ∧
      ([box, tin].map (·.id)).Nodup ∧ jar.name.source = "shop.Jar" ∧ boxAgain.name.source = "shop.Box" := by
  decide +kernel

/-- After a jar, a second one is refused, and of the batch the two classes before the second box are stored. -/
theorem after_updates_indexed_shop :
    let cat := Catalog.runtime.after [.declare jar]
    (Update.declare jar).run cat = (cat, .error (.duplicate "shop.Jar")) ∧
      ((Update.declareAll [box, tin, boxAgain, can]).run cat).1.entries.toList = cat.entries.toList ++ [box, tin] ∧
      ((Update.declareAll [box, tin, boxAgain, can]).run cat).2 = .error (.duplicate "shop.Box") := by
  dsimp only
  obtain ⟨⟨hjar, hbox, htin⟩, hdistinct, hjarName, hboxName⟩ := shop_evaluated
  obtain ⟨-, ⟨-, -, hcontains⟩, -, ⟨hrefused, -⟩, hbatch⟩ := after_updates_indexed (Or.inr rfl) [.declare jar]
  have hnew : ∀ c ∈ [box, tin], ¬(Catalog.runtime.after [.declare jar]).Declares c.id := by
    refine List.forall_mem_cons.mpr ⟨fun hd => ?_, List.forall_mem_singleton.mpr fun hd => ?_⟩
    · exact Bool.false_ne_true (hbox.symm.trans ((hcontains _).mpr hd))
    · exact Bool.false_ne_true (htin.symm.trans ((hcontains _).mpr hd))
  refine ⟨hjarName ▸ hrefused jar ((hcontains _).mp hjar), ?_⟩
  obtain ⟨accepted, rest, hsplit, hfresh, hlongest, hstored, hanswer⟩ := hbatch [box, tin, boxAgain, can]
  obtain ⟨more, rfl⟩ := hlongest [box, tin] ⟨[boxAgain, can], rfl⟩ ⟨hnew, hdistinct⟩
  simp only [List.cons_append, List.nil_append, List.cons.injEq, true_and] at hsplit
  cases more with
  | nil =>
    rcases hanswer with ⟨rfl, -⟩ | ⟨_, _, rfl, he⟩
    · cases hsplit
    · obtain ⟨rfl, -⟩ := List.cons.inj hsplit
      rw [List.append_nil] at hstored
      rw [hboxName] at he
      exact ⟨hstored, he⟩
  | cons c more =>
    -- The third class has the fingerprint of the first.
    obtain ⟨rfl, -⟩ := List.cons.inj hsplit
    exact absurd (List.mem_cons_of_mem _ (List.mem_cons_self ..)) (List.nodup_cons.mp hfresh.distinct).1

end Marshal.Catalog
