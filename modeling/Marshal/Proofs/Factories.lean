import Marshal.Proofs.Ascents
import Marshal.Proofs.Peers
import Mathlib.Data.List.Nodup

/-! # Factories under other names

A class is known by its fingerprint: it is found by it, inherited from by it, and what can be assigned depends on
fingerprints only. So a name that is split differently into package and simple name leads to the same class. Factories
are the exception. The types of a factory are compared with the handle and with the class as whole references, so that a
method which mentions one of them under another split of its name is passed over. -/

namespace Marshal
open Catalog PeerMembers
variable {cat : Catalog} {s : Settings} {c : ClassDecl} {m : Method} {handle made : ClassRef}

/-! ### Fingerprints alone -/

/-- Nothing that looks a class up, climbs from it, or assigns it tells the two references apart. -/
structure SameClass (cat : Catalog) (r r' : ClassRef) : Prop where
  declOf?_eq : cat.declOf? (.object r) = cat.declOf? (.object r')
  superclass?_eq (d : ClassDecl) : cat.superclass? { d with superclass := some (.object r) } =
    cat.superclass? { d with superclass := some (.object r') }
  assignable_from (t : HostType) (ht : t.classRef?.isSome) :
    cat.assignable (.object r) t = cat.assignable (.object r') t
  assignable_to (t : HostType) (ht : t.classRef?.isSome) :
    cat.assignable t (.object r) = cat.assignable t (.object r')

theorem sameClass_of_id {r r' : ClassRef} (cat : Catalog) (hid : r.id = r'.id) : SameClass cat r r' where
  declOf?_eq := congrArg cat.find? hid
  superclass?_eq d := congrArg cat.find? hid
  assignable_from t ht := by
    cases t with
    | object q => rw [cat.assignable_object, cat.assignable_object, hid]
    | primitive p => cases ht
    | array e => cases ht
  assignable_to t ht := by
    cases t with
    | object q => rw [cat.assignable_object, cat.assignable_object, hid]
    | primitive p => cases ht
    | array e => cases ht

/-! ### Factories -/

namespace PeerMembers

/-- The class declares a static method, named as factories are, that takes a `handle` and gives back a `made`. -/
structure MakesFrom (s : Settings) (c : ClassDecl) (m : Method) (handle made : ClassRef) : Prop where
  declared : m ∈ c.methods
  name : m.name = s.members.factoryMethod
  static : m.isStatic = true
  takes : m.paramTypes = [.object handle]
  returns : m.returns = .object made

theorem handle_id (s : Settings) : (ClassRef.ofName (.parse s.types.handle)).id = s.handleType.fingerprint := rfl

theorem isFactory_iff : IsFactory s c m ↔
    MakesFrom s c m (.ofName (.parse s.types.handle)) ⟨c.id, c.name⟩ :=
  ⟨fun h => ⟨h.declared, h.name, h.static, h.takes, h.returns⟩,
    fun h => ⟨h.declared, h.name, h.static, h.takes, h.returns⟩⟩

/-- Of two references with the fingerprints of the handle and of the class, a factory also has their names. -/
theorem MakesFrom.isFactory_iff (h : MakesFrom s c m handle made) (hhandle : handle.id = s.handleType.fingerprint)
    (hmade : made.id = c.id) : IsFactory s c m ↔ handle.name = .parse s.types.handle ∧ made.name = c.name := by
  obtain ⟨handleId, handleName⟩ := handle
  obtain ⟨madeId, madeName⟩ := made
  obtain rfl : handleId = _ := hhandle
  obtain rfl : madeId = c.id := hmade
  rw [PeerMembers.isFactory_iff]
  constructor
  · intro h'
    have htakes := h.takes.symm.trans h'.takes
    have hreturns := h.returns.symm.trans h'.returns
    simp only [List.cons.injEq, HostType.object.injEq, ClassRef.mk.injEq, and_true] at htakes hreturns
    have hname := congrArg ClassRef.name htakes
    exact ⟨hname, hreturns.2⟩
  · rintro ⟨rfl, rfl⟩
    exact h

/-- On a lineage, the factory of the class itself is found before all others, and no other makes the class. -/
theorem factory_ofClass_iff (h : cat.Indexed) (s : Settings) (c : ClassDecl) :
    (∃ f, (ofClass cat s c).factory = some f ∧ f.member.owner = c.name ∧ f.returns = c.type) ↔
      ∃ m, IsFactory s c m := by
  obtain ⟨above, habove⟩ := cat.mem_lineage_self c
  constructor
  · rintro ⟨f, hf, -, hreturns⟩
    obtain ⟨d, hd, hown⟩ := List.exists_of_findSome?_eq_some hf
    have hid : d.id = c.id := by
      have htype : d.type = c.type := (returns_of_ownFactory hown).symm.trans hreturns
      exact congrArg HostType.fingerprint htype
    have hself : c ∈ cat.lineage c := by simp [habove]
    obtain rfl := List.inj_on_of_nodup_map (h.nodup_ids_lineage c) hd hself hid
    exact isFactory_of_ownFactory hown
  · rintro ⟨m, hm⟩
    refine ⟨⟨⟨c.name, m.name⟩, c.type, m.signature⟩, ?_, rfl, rfl⟩
    show (cat.lineage c).findSome? (ownFactory s) = _
    rw [habove, List.findSome?_cons, ownFactory_of_isFactory hm]

/-- The factory that is found is the class's own exactly if the class declares one whose types have the names of the
    handle and of the class, and not only their fingerprints. Whatever has these fingerprints is a factory if it has the
    names too, and is none if it has not, although nothing else tells references with the same fingerprint apart. -/
theorem factory_by_whole_references (hcat : cat.Reachable) (s : Settings) (c : ClassDecl) :
    ((∃ f, (ofClass cat s c).factory = some f ∧ f.member.owner = c.name ∧ f.returns = c.type) ↔
      ∃ m handle made, MakesFrom s c m handle made ∧
        (handle.id = s.handleType.fingerprint ∧ handle.name = .parse s.types.handle) ∧
        made.id = c.id ∧ made.name = c.name) ∧
    (∀ m handle made, MakesFrom s c m handle made → handle.id = s.handleType.fingerprint → made.id = c.id →
      (IsFactory s c m ↔ handle.name = .parse s.types.handle ∧ made.name = c.name)) ∧
    ∀ r r' : ClassRef, r.id = r'.id → SameClass cat r r' := by
  refine ⟨(factory_ofClass_iff hcat.indexed s c).trans ⟨?_, ?_⟩, fun m handle made h => h.isFactory_iff,
    fun r r' => sameClass_of_id cat⟩
  · rintro ⟨m, hm⟩
    exact ⟨m, _, _, isFactory_iff.mp hm, ⟨handle_id s, rfl⟩, rfl, rfl⟩
  · rintro ⟨m, handle, made, h, ⟨hhandle, hhandleName⟩, hmade, hmadeName⟩
    exact ⟨m, (h.isFactory_iff hhandle hmade).mpr ⟨hhandleName, hmadeName⟩⟩

/-! A class inside another one whose name starts lowercase. Its factory mentions it by the name that is read from the
source form, in which the other class counts as a package. -/

def innerFactory : Method := factoryOf "demo.outer.Inner"

def inner : ClassDecl := { ClassDecl.ofName ⟨"demo", "outer.Inner"⟩ with methods := [innerFactory] }

/-- The class as it would be if the other one were a package. -/
def innerRead : ClassDecl := { ClassDecl.classNamed "demo.outer.Inner" with methods := [innerFactory] }

def nesting : Catalog := (Catalog.runtime.declareAll [inner]).1

theorem reachable_nesting : nesting.Reachable := Catalog.Reachable.runtime.declareAll _

/-- What the factory says that it makes. -/
def innerMade : ClassRef := .ofName (.parse "demo.outer.Inner")

-- Stated together, so that the catalog is evaluated once.
theorem nesting_evaluated :
    innerMade.id = inner.id ∧ innerMade.name ≠ inner.name ∧ innerMade.name = innerRead.name ∧
      innerMade.id = innerRead.id ∧ (ofClass nesting {} inner).factory = none := by
  decide +kernel

theorem makesFrom_inner {c : ClassDecl} (hc : c.methods = [innerFactory]) :
    MakesFrom {} c innerFactory (.ofName (.parse ({} : Settings).types.handle)) innerMade where
  declared := by simp [hc]
  name := rfl
  static := rfl
  takes := rfl
  returns := rfl

/-- Fingerprints alone do not decide whether a class has a factory. -/
theorem factories_not_by_fingerprint :
    ¬∀ (cat : Catalog) (s : Settings) (c : ClassDecl) (m : Method) (handle made : ClassRef), cat.Reachable →
      MakesFrom s c m handle made → handle.id = s.handleType.fingerprint → made.id = c.id →
        ∃ f, (ofClass cat s c).factory = some f ∧ f.member.owner = c.name := by
  intro h
  obtain ⟨hid, -, -, -, hnone⟩ := nesting_evaluated
  obtain ⟨f, hf, -⟩ := h nesting {} inner innerFactory _ innerMade reachable_nesting (makesFrom_inner rfl)
    (handle_id {}) hid
  rw [hnone] at hf
  cases hf

/-- The factory of the one class is no factory of the other, which has the same fingerprint. -/
theorem factory_by_whole_references_nesting :
    nesting.Reachable ∧ inner.id = innerRead.id ∧
      (∃ f, (ofClass nesting {} innerRead).factory = some f ∧ f.member.owner = innerRead.name ∧
        f.returns = innerRead.type) ∧
      ¬IsFactory {} inner innerFactory := by
  obtain ⟨hid, hname, hread, hreadId, -⟩ := nesting_evaluated
  obtain ⟨-, hinner, -⟩ := factory_by_whole_references reachable_nesting {} inner
  obtain ⟨hfound, -⟩ := factory_by_whole_references reachable_nesting {} innerRead
  refine ⟨reachable_nesting, hid.symm.trans hreadId, hfound.mpr ?_, fun hfactory => ?_⟩
  · exact ⟨innerFactory, _, innerMade, makesFrom_inner rfl, ⟨handle_id {}, rfl⟩, hreadId, hread⟩
  · exact hname ((hinner _ _ _ (makesFrom_inner rfl) (handle_id {}) hid).mp hfactory).2

end PeerMembers

end Marshal
