import Marshal.Catalog.Lineage

/-! # Catalogs that declarations lead to

Every catalog starts empty or with the runtime types, and grows by declarations only. In all of them the
index leads from the fingerprint of a declaration to its position, and from no other fingerprint anywhere,
so that no two declarations share a fingerprint. -/

namespace Marshal.Catalog
variable {cat : Catalog}

inductive Reachable : Catalog → Prop
  | empty : Reachable .empty
  | runtime : Reachable .runtime
  | declare {cat cat' : Catalog} {c : ClassDecl} (h : Reachable cat) (hc : cat.declare c = .ok cat') : Reachable cat'

def Declares (cat : Catalog) (id : Fingerprint) : Prop := ∃ c : ClassDecl, c ∈ cat.entries ∧ c.id = id

/-- The index leads exactly from the fingerprint of each declaration to its position. -/
def Indexed (cat : Catalog) : Prop :=
  ∀ id i, cat.index[id]? = some i ↔ ∃ c : ClassDecl, cat.entries[i]? = some c ∧ c.id = id

/-! ### Declaring -/

theorem declare_eq_ok {cat' : Catalog} {c : ClassDecl} :
    cat.declare c = .ok cat' ↔ cat.contains c.id = false ∧ cat.store c = cat' := by
  unfold declare
  cases cat.contains c.id <;> simp

theorem Reachable.declareAll (h : cat.Reachable) (cs : List ClassDecl) : (cat.declareAll cs).1.Reachable := by
  induction cs generalizing cat with
  | nil => exact h
  | cons c rest ih =>
    unfold Catalog.declareAll
    split
    · exact h
    · next cat' hc => exact ih (h.declare hc)

theorem index_store (cat : Catalog) (c : ClassDecl) (id : Fingerprint) :
    (cat.store c).index[id]? = if c.id = id then some cat.entries.size else cat.index[id]? := by
  show (cat.index.insert c.id cat.entries.size)[id]? = _
  rw [Std.TreeMap.getElem?_insert]
  simp only [Std.LawfulEqCmp.compare_eq_iff_eq]

theorem entries_store (cat : Catalog) (c : ClassDecl) (i : Nat) :
    (cat.store c).entries[i]? = if i = cat.entries.size then some c else cat.entries[i]? :=
  Array.getElem?_push

theorem declares_store (cat : Catalog) (c : ClassDecl) (id : Fingerprint) :
    (cat.store c).Declares id ↔ cat.Declares id ∨ c.id = id := by
  simp only [Declares, store, Array.mem_push]
  constructor
  · rintro ⟨d, hd | rfl, hid⟩
    · exact Or.inl ⟨d, hd, hid⟩
    · exact Or.inr hid
  · rintro (⟨d, hd, hid⟩ | hid)
    · exact ⟨d, Or.inl hd, hid⟩
    · exact ⟨c, Or.inr rfl, hid⟩

/-! ### The index -/

theorem indexed_empty : Catalog.empty.Indexed := by
  intro id i
  simp [empty]

namespace Indexed

theorem contains_iff (h : cat.Indexed) {id : Fingerprint} : cat.contains id = true ↔ cat.Declares id := by
  rw [contains, Std.TreeMap.contains_eq_isSome_getElem?, Option.isSome_iff_exists]
  constructor
  · intro hi
    obtain ⟨i, hi⟩ := hi
    obtain ⟨c, hc, hid⟩ := (h id i).mp hi
    exact ⟨c, Array.mem_of_getElem? hc, hid⟩
  · intro hc
    obtain ⟨c, hc, hid⟩ := hc
    obtain ⟨i, hi⟩ := Array.getElem?_of_mem hc
    exact ⟨i, (h id i).mpr ⟨c, hi, hid⟩⟩

/-- A new fingerprint leads to the end, where the declaration is stored, and all others where they led. -/
theorem store (h : cat.Indexed) {c : ClassDecl} (hc : ¬cat.Declares c.id) : (cat.store c).Indexed := by
  intro id i
  simp only [index_store, entries_store]
  by_cases hid : c.id = id
  · subst hid
    rw [if_pos rfl]
    constructor
    · rintro ⟨⟩
      exact ⟨c, if_pos rfl, rfl⟩
    · intro hd
      obtain ⟨d, hd, hdc⟩ := hd
      by_cases hi : i = cat.entries.size
      · rw [hi]
      · rw [if_neg hi] at hd
        exact absurd ⟨d, Array.mem_of_getElem? hd, hdc⟩ hc
  · rw [if_neg hid, h id i]
    constructor
    · intro hd
      obtain ⟨d, hd, hdid⟩ := hd
      obtain ⟨hlt, -⟩ := Array.getElem?_eq_some_iff.mp hd
      exact ⟨d, by rw [if_neg (Nat.ne_of_lt hlt), hd], hdid⟩
    · intro hd
      obtain ⟨d, hd, hdid⟩ := hd
      by_cases hi : i = cat.entries.size
      · rw [if_pos hi] at hd
        cases hd
        exact absurd hdid hid
      · rw [if_neg hi] at hd
        exact ⟨d, hd, hdid⟩

theorem storeAll (h : cat.Indexed) {cs : List ClassDecl} (hcs : (cs.map (·.id)).Nodup)
    (hnew : ∀ c ∈ cs, ¬cat.Declares c.id) : (cs.foldl Catalog.store cat).Indexed := by
  induction cs generalizing cat with
  | nil => exact h
  | cons c rest ih =>
    rw [List.map_cons, List.nodup_cons] at hcs
    refine ih (h.store (hnew c (List.mem_cons_self ..))) hcs.2 fun d hd => ?_
    rw [declares_store]
    rintro (hdecl | hid)
    · exact hnew d (List.mem_cons_of_mem _ hd) hdecl
    · exact hcs.1 (List.mem_map.mpr ⟨d, hd, hid.symm⟩)

end Indexed

theorem indexed_runtime : Catalog.runtime.Indexed :=
  indexed_empty.storeAll (by decide +kernel) fun _ _ ⟨_, hc, _⟩ => by simp [empty] at hc

theorem Reachable.indexed (h : cat.Reachable) : cat.Indexed := by
  induction h with
  | empty => exact indexed_empty
  | runtime => exact indexed_runtime
  | declare _ hc ih =>
    obtain ⟨hnew, rfl⟩ := declare_eq_ok.mp hc
    exact ih.store fun hd => by simp [ih.contains_iff.mpr hd] at hnew

/-! ### Looking up -/

namespace Indexed

/-- No two positions hold declarations with the same fingerprint. -/
theorem position_eq (h : cat.Indexed) {c d : ClassDecl} {i j : Nat} (hc : cat.entries[i]? = some c)
    (hd : cat.entries[j]? = some d) (hid : c.id = d.id) : i = j := by
  have hi := (h d.id i).mpr ⟨c, hc, hid⟩
  have hj := (h d.id j).mpr ⟨d, hd, rfl⟩
  rw [hi] at hj
  exact Option.some.inj hj

theorem find?_eq_some (h : cat.Indexed) {id : Fingerprint} {c : ClassDecl} :
    cat.find? id = some c ↔ c ∈ cat.entries ∧ c.id = id := by
  rw [find?, Option.bind_eq_some_iff]
  constructor
  · intro hi
    obtain ⟨i, hi, hc⟩ := hi
    obtain ⟨d, hd, hid⟩ := (h id i).mp hi
    rw [hc] at hd
    cases hd
    exact ⟨Array.mem_of_getElem? hc, hid⟩
  · intro hc
    obtain ⟨hc, hid⟩ := hc
    obtain ⟨i, hi⟩ := Array.getElem?_of_mem hc
    exact ⟨i, (h id i).mpr ⟨c, hi, hid⟩, hi⟩

theorem id_of_declOf? (h : cat.Indexed) {t : HostType} {c : ClassDecl} (hc : cat.declOf? t = some c) :
    c.id = t.fingerprint := by
  obtain ⟨r, hr, hfind⟩ := Option.bind_eq_some_iff.mp hc
  cases t with
  | primitive p => cases hr
  | array e => cases hr
  | object q =>
    cases hr
    exact (h.find?_eq_some.mp hfind).2

theorem nodup_ids (h : cat.Indexed) : cat.ids.Nodup := by
  refine List.pairwise_iff_getElem.mpr fun i j hi hj hij hid => Nat.ne_of_lt hij ?_
  simp only [ids, List.length_map, Array.length_toList] at hi hj
  simp only [ids, List.getElem_map, Array.getElem_toList] at hid
  exact h.position_eq (Array.getElem?_eq_getElem hi) (Array.getElem?_eq_getElem hj) hid

end Indexed

end Marshal.Catalog
