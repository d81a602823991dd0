import Marshal.Proofs.Ancestry
import Marshal.Proofs.Printing

/-! # The outcome of converting a peer

A peer is converted by members that follow conventions, which were looked for along its lineage when the
converter was made. Fields may be inherited, and the nearest one that has the required type counts. An
inherited factory makes a class above the peer. If the hierarchy has no cycles, that class cannot be assigned
to the peer, so only the factory of the class itself is ever used. -/

namespace Marshal
open Relation

/-! ### References -/

section
variable (owner : TypeName) (field name : String)

theorem Member.reference_mk : reference ⟨owner, field⟩ = "@" ++ owner.source ++ "::" ++ field := rfl

theorem Member.reference_through :
    name ++ "." ++ reference ⟨owner, field⟩ = name ++ ".@" ++ owner.source ++ "::" ++ field := by
  have hat : ".@" = "." ++ "@" := rfl
  rw [reference_mk, hat]
  simp only [String.append_assoc]

end

/-- A factory is called by the reference of its method. -/
theorem Factory.call_of_method (s : Settings) (c : ClassDecl) (m : Method) (name : String) :
    call ⟨⟨c.name, m.name⟩, c.type, m.signature⟩ s name =
      name ++ "." ++ s.members.backReference ++ " || " ++ methodReference c m ++ "(" ++ name ++ ")" := by
  have hclose : ")(" = ")" ++ "(" := rfl
  rw [call, methodReference, Member.reference_mk, hclose]
  simp only [String.append_assoc]

/-! ### The index -/

namespace PeerIndex
variable {cat : Catalog} {s : Settings} {id : Fingerprint} {p : PeerMembers}

theorem mem_ofCatalog : (id, p) ∈ (ofCatalog cat s).members ↔
    ∃ c ∈ cat.entries, c.id = id ∧ .ofClass cat s c = p ∧ p.isEmpty = false := by
  simp only [ofCatalog, List.mem_filter, List.mem_map, Prod.mk.injEq, Array.mem_toList_iff, Bool.not_eq_true']
  constructor
  · rintro ⟨⟨c, hc, hid, hp⟩, hne⟩
    exact ⟨c, hc, hid, hp, hne⟩
  · rintro ⟨c, hc, hid, hp, hne⟩
    exact ⟨⟨c, hc, hid, hp⟩, hne⟩

/-- The index has the members of a class if it has any. -/
theorem find?_ofCatalog (h : cat.Indexed) : (ofCatalog cat s).find? id = some p ↔
    ∃ c ∈ cat.entries, c.id = id ∧ .ofClass cat s c = p ∧ p.isEmpty = false := by
  rw [find?, ← mem_ofCatalog]
  constructor
  · intro hfind
    obtain ⟨before, after, hsplit, -⟩ := List.lookup_eq_some_iff.mp hfind
    exact hsplit ▸ List.mem_append_right _ (List.mem_cons_self ..)
  · intro hp
    cases hfind : (ofCatalog cat s).members.lookup id with
    | none => simpa using List.lookup_eq_none_iff.mp hfind _ hp
    | some q =>
      obtain ⟨before, after, hsplit, -⟩ := List.lookup_eq_some_iff.mp hfind
      have hq : (id, q) ∈ (ofCatalog cat s).members := hsplit ▸ List.mem_append_right _ (List.mem_cons_self ..)
      obtain ⟨c, hc, hid, rfl, -⟩ := mem_ofCatalog.mp hp
      obtain ⟨d, hd, rfl, rfl, -⟩ := mem_ofCatalog.mp hq
      rw [h.eq_of_id hc hd hid]

end PeerIndex

/-! ### Members -/

namespace PeerMembers
variable {cat : Catalog} {s : Settings} {c d : ClassDecl}

/-- A factory of the class that the class itself declares. -/
structure IsFactory (s : Settings) (c : ClassDecl) (m : Method) : Prop where
  declared : m ∈ c.methods
  name : m.name = s.members.factoryMethod
  static : m.isStatic = true
  takes : m.paramTypes = [s.handleType]
  returns : m.returns = c.type

theorem mem_overloads_iff {m : Method} :
    (m ∈ c.overloads s.members.factoryMethod ∧ (m.isStatic && m.takes [s.handleType] && m.returns == c.type) = true) ↔
      IsFactory s c m := by
  simp only [ClassDecl.overloads, List.mem_filter, Bool.and_eq_true, beq_iff_eq, Method.takes]
  exact ⟨fun ⟨⟨hm, hname⟩, ⟨hstatic, htakes⟩, hreturns⟩ => ⟨hm, hname, hstatic, htakes, hreturns⟩,
    fun h => ⟨⟨h.declared, h.name⟩, ⟨h.static, h.takes⟩, h.returns⟩⟩

theorem isFactory_of_find? {m : Method} (h : (c.overloads s.members.factoryMethod).find? (fun m =>
    m.isStatic && m.takes [s.handleType] && m.returns == c.type) = some m) : IsFactory s c m := by
  have hkind := List.find?_some h
  exact mem_overloads_iff.mp ⟨List.mem_of_find?_eq_some h, hkind⟩

/-- All factories of a class are referred to in the same way, so it does not matter which of them counts. -/
theorem ownFactory_of_isFactory {m : Method} (h : IsFactory s c m) :
    ownFactory s c = some ⟨⟨c.name, m.name⟩, c.type, m.signature⟩ := by
  unfold ownFactory
  obtain ⟨hm, hkind⟩ := mem_overloads_iff.mpr h
  cases hfind : (c.overloads s.members.factoryMethod).find? _ with
  | none => exact absurd hkind (List.find?_eq_none.mp hfind m hm)
  | some m' =>
    have h' := isFactory_of_find? hfind
    rw [Option.map_some, Method.signature, Method.signature, h.name, h'.name, h.takes, h'.takes]

theorem isFactory_of_ownFactory {f : Factory} (h : ownFactory s c = some f) : ∃ m, IsFactory s c m := by
  obtain ⟨m, hfind, -⟩ := Option.map_eq_some_iff.mp h
  exact ⟨m, isFactory_of_find? hfind⟩

theorem returns_of_ownFactory {f : Factory} (h : ownFactory s c = some f) : f.returns = c.type := by
  obtain ⟨m, -, rfl⟩ := Option.map_eq_some_iff.mp h
  rfl

/-- A factory that is found along the lineage makes the class itself only if the class declares it. -/
theorem ownFactory_eq_filter (h : cat.Indexed) (hno : ∀ c, ¬TransGen cat.Extends c c) (hc : c ∈ cat.entries) :
    ownFactory s c = (ofClass cat s c).factory.filter fun f => cat.assignable f.returns c.type := by
  obtain ⟨above, habove⟩ := cat.mem_lineage_self c
  refine Option.ext fun f => ?_
  rw [Option.filter_eq_some_iff]
  constructor
  · intro hown
    refine ⟨?_, ?_⟩
    · show (cat.lineage c).findSome? (ownFactory s) = some f
      rw [habove, List.findSome?_cons, hown]
    · rw [returns_of_ownFactory hown, Catalog.assignable, beq_self_eq_true, Bool.true_or]
  · rintro ⟨hf, hreturns⟩
    obtain ⟨d, hd, hown⟩ := List.exists_of_findSome?_eq_some hf
    rw [returns_of_ownFactory hown] at hreturns
    rwa [h.eq_of_mem_lineage hno hc hd hreturns] at hown

/-- The first field of the name that the class itself declares can be assigned to the required type. -/
def HasField (cat : Catalog) (name : String) (required : HostType) (d : ClassDecl) : Prop :=
  ∃ f, d.field? name = some f ∧ cat.assignable f.type required = true

/-- `d` is the first class of the lineage of `c` with such a field. -/
def NearestField (cat : Catalog) (name : String) (required : HostType) (c d : ClassDecl) : Prop :=
  HasField cat name required d ∧
    ∃ before after, cat.lineage c = before ++ d :: after ∧ ∀ b ∈ before, ¬HasField cat name required b

section
variable {name : String} {required : HostType} {member : Member}

theorem ownField_eq_some :
    ownField cat name required d = some member ↔ HasField cat name required d ∧ member = ⟨d.name, name⟩ := by
  unfold ownField HasField
  cases hf : d.field? name with
  | none => simp
  | some f =>
    have hname : f.name = name := by simpa using List.find?_some hf
    simp [Option.filter_some, hname, @eq_comm _ member]

theorem ownField_eq_none : ownField cat name required d = none ↔ ¬HasField cat name required d := by
  rw [← not_iff_not, ← ne_eq, Option.ne_none_iff_exists', not_not]
  simp only [ownField_eq_some]
  exact ⟨fun ⟨_, h, _⟩ => h, fun h => ⟨_, h, rfl⟩⟩

theorem findSome?_ownField_eq_some : (cat.lineage c).findSome? (ownField cat name required) = some member ↔
    ∃ d, NearestField cat name required c d ∧ member = ⟨d.name, name⟩ := by
  simp only [List.findSome?_eq_some_iff, ownField_eq_some, ownField_eq_none, NearestField]
  constructor
  · rintro ⟨before, d, after, hsplit, ⟨hd, rfl⟩, hbefore⟩
    exact ⟨d, ⟨hd, before, after, hsplit, hbefore⟩, rfl⟩
  · rintro ⟨d, ⟨hd, before, after, hsplit, hbefore⟩, rfl⟩
    exact ⟨before, d, after, hsplit, ⟨hd, rfl⟩, hbefore⟩

theorem isSome_findSome?_ownField : ((cat.lineage c).findSome? (ownField cat name required)).isSome = true ↔
    ∃ d ∈ cat.lineage c, HasField cat name required d := by
  rw [List.findSome?_isSome_iff]
  simp only [Option.isSome_iff_ne_none, ne_eq, ownField_eq_none, not_not]

end

end PeerMembers

/-! ### The peer -/

/-- The convention that a conversion of a peer relies on. -/
def Direction.convention : Direction → Convention
  | .toRuntime => .peerField
  | .fromRuntime => .factoryMethod
  | .extractor => .extractorField

def MemberNames.ofConvention (names : MemberNames) : Convention → String
  | .peerField => names.peerField
  | .factoryMethod => names.factoryMethod
  | .extractorField => names.extractorField

namespace Converter
open PeerMembers
variable {cat : Catalog} {s : Settings} {t : HostType} {name : String} {c : ClassDecl} {d : Direction}

theorem select_builtIn_peering {index : PeerIndex} (h : (builtIn cat s).select cat t = .ok (.peering index)) :
    index = .ofCatalog cat s ∧ ((PeerIndex.ofCatalog cat s).of? t).isSome := by
  rw [select_builtIn] at h
  split at h
  · cases h
  · split at h
    · cases h
    · split at h
      · next hindex =>
        cases h
        exact ⟨rfl, hindex⟩
      · cases h

theorem class_of_select (hcat : cat.Indexed) (ht : (builtIn cat s).select cat t = .ok (.peering (.ofCatalog cat s))) :
    ∃ c ∈ cat.entries, cat.declOf? t = some c ∧ t.classRef?.map (·.id) = some c.id ∧
      (PeerIndex.ofCatalog cat s).of? t = some (.ofClass cat s c) := by
  obtain ⟨p, hp⟩ := Option.isSome_iff_exists.mp (select_builtIn_peering ht).2
  obtain ⟨r, hr, hfind⟩ := Option.bind_eq_some_iff.mp hp
  obtain ⟨c, hc, hid, rfl, -⟩ := (PeerIndex.find?_ofCatalog hcat).mp hfind
  refine ⟨c, hc, ?_, ?_, hp⟩
  · rw [Catalog.declOf?, hr]
    exact hcat.find?_eq_some.mpr ⟨hc, hid⟩
  · rw [hr, hid]
    rfl

theorem assignable_of_id (hid : t.classRef?.map (·.id) = some c.id) (source : ClassDecl) :
    cat.assignable source.type t = cat.assignable source.type c.type := by
  cases t with
  | primitive p => cases hid
  | array e => cases hid
  | object r =>
    have hid : r.id = c.id := Option.some.inj hid
    rw [ClassDecl.type, ClassDecl.type, cat.assignable_object, cat.assignable_object, hid]

/-- A conversion that prints one thing or fails for one reason, by whether a member is there. -/
theorem outcome_of_member {member : Type} {found : Option member} {text : member → String} {x : ConversionError}
    (h : (builtIn cat s).emission cat ⟨t, name, []⟩ d = found.elim (.fail x) fun a => .print (text a)) :
    ((builtIn cat s).Answers cat d t name (.ok ()) ↔ found.isSome = true) ∧
      (∀ a, found = some a → (builtIn cat s).Yields cat d t name (text a)) ∧
      ((builtIn cat s).Answers cat d t name (.ok ()) ∨ (builtIn cat s).Answers cat d t name (.error x)) := by
  cases found with
  | none =>
    have hx : (builtIn cat s).Answers cat d t name (.error x) := by
      rw [answers_iff, h]
      rfl
    refine ⟨?_, fun a ha => (nomatch ha), Or.inr hx⟩
    rw [answers_iff, h]
    exact ⟨fun h => (nomatch h), fun h => (nomatch h)⟩
  | some a =>
    have hok : (builtIn cat s).Answers cat d t name (.ok ()) := by
      rw [answers_iff, h]
      rfl
    refine ⟨⟨fun _ => rfl, fun _ => hok⟩, fun b hb => ?_, Or.inl hok⟩
    cases hb
    exact yields_of_print h

theorem emission_peer (ht : (builtIn cat s).select cat t = .ok (.peering (.ofCatalog cat s))) (name : String)
    (d : Direction) : (builtIn cat s).emission cat ⟨t, name, []⟩ d =
      Strategy.emitPeer (builtIn cat s) cat (.ofCatalog cat s) ⟨t, name, []⟩ d := by
  rw [emission_of_select ht]
  rfl

section
variable (ht : (builtIn cat s).select cat t = .ok (.peering (.ofCatalog cat s)))
  (hp : (PeerIndex.ofCatalog cat s).of? t = some (.ofClass cat s c))
include ht hp

theorem emission_peer_toRuntime (name : String) : (builtIn cat s).emission cat ⟨t, name, []⟩ .toRuntime =
    (PeerMembers.ofClass cat s c).peerField.elim (.fail (.missingConvention t.source .peerField s.members.peerField))
      fun field => .print (name ++ "." ++ field.reference) := by
  rw [emission_peer ht, Strategy.emitPeer, hp, Option.bind_some]
  cases (PeerMembers.ofClass cat s c).peerField <;> rfl

theorem emission_peer_extractor (name : String) : (builtIn cat s).emission cat ⟨t, name, []⟩ .extractor =
    (PeerMembers.ofClass cat s c).extractor.elim
      (.fail (.missingConvention t.source .extractorField s.members.extractorField))
      fun field => .print field.reference := by
  rw [emission_peer ht, Strategy.emitPeer, hp, Option.bind_some]
  cases (PeerMembers.ofClass cat s c).extractor <;> rfl

theorem emission_peer_fromRuntime (h : cat.Indexed) (hno : ∀ c, ¬TransGen cat.Extends c c) (hc : c ∈ cat.entries)
    (hid : t.classRef?.map (·.id) = some c.id) (name : String) :
    (builtIn cat s).emission cat ⟨t, name, []⟩ .fromRuntime =
      (ownFactory s c).elim (.fail (.missingConvention t.source .factoryMethod s.members.factoryMethod))
        fun f => .print (f.call s name) := by
  rw [emission_peer ht, Strategy.emitPeer, hp, Option.bind_some, ownFactory_eq_filter h hno hc]
  cases hf : (PeerMembers.ofClass cat s c).factory with
  | none => rfl
  | some f =>
    obtain ⟨d, -, hown⟩ := List.exists_of_findSome?_eq_some hf
    have hsame : cat.assignable f.returns t = cat.assignable f.returns c.type := by
      rw [returns_of_ownFactory hown]
      exact assignable_of_id hid d
    rw [Option.filter_some, ← hsame]
    show (if cat.assignable f.returns t = true then Emission.print (f.call s name) else Emission.fail _) = _
    cases cat.assignable f.returns t with
    | true => rfl
    | false => rfl

end

/-- In a hierarchy without cycles, a peer is made from its handle exactly if its own class declares a factory, and
    then by it. Its handle, and its extractor, are there exactly if some class of its lineage has a field for it as
    the first of the name, and then they are read from the nearest such class. Any failure names the type and the
    convention that it does not follow. -/
theorem peer_outcome (hcat : cat.Reachable) (hvalid : cat.validate = .ok ())
    (ht : (builtIn cat s).select cat t = .ok (.peering (.ofCatalog cat s))) (name : String) :
    ∃ c, cat.declOf? t = some c ∧
      (((builtIn cat s).Answers cat .fromRuntime t name (.ok ()) ↔ ∃ m, IsFactory s c m) ∧
        ((builtIn cat s).Answers cat .fromRuntime t name (.ok ()) →
          ∃ m, IsFactory s c m ∧ (builtIn cat s).Yields cat .fromRuntime t name
            (name ++ "." ++ s.members.backReference ++ " || " ++ methodReference c m ++ "(" ++ name ++ ")"))) ∧
      (((builtIn cat s).Answers cat .toRuntime t name (.ok ()) ↔
          ∃ d ∈ cat.lineage c, HasField cat s.members.peerField s.handleType d) ∧
        ((builtIn cat s).Answers cat .toRuntime t name (.ok ()) →
          ∃ d, NearestField cat s.members.peerField s.handleType c d ∧ (builtIn cat s).Yields cat .toRuntime t name
            (name ++ ".@" ++ d.name.source ++ "::" ++ s.members.peerField))) ∧
      (((builtIn cat s).Answers cat .extractor t name (.ok ()) ↔
          ∃ d ∈ cat.lineage c, HasField cat s.members.extractorField s.extractorType d) ∧
        ((builtIn cat s).Answers cat .extractor t name (.ok ()) →
          ∃ d, NearestField cat s.members.extractorField s.extractorType c d ∧
            (builtIn cat s).Yields cat .extractor t name ("@" ++ d.name.source ++ "::" ++ s.members.extractorField))) ∧
      ∀ d, (builtIn cat s).Answers cat d t name (.ok ()) ∨ (builtIn cat s).Answers cat d t name
        (.error (.missingConvention t.source d.convention (s.members.ofConvention d.convention))) := by
  have hno := hcat.indexed.acyclic_of_validate hvalid
  obtain ⟨c, hc, hdecl, hid, hp⟩ := class_of_select hcat.indexed ht
  obtain ⟨hfrom, hmade, hfrom'⟩ := outcome_of_member (emission_peer_fromRuntime ht hp hcat.indexed hno hc hid name)
  obtain ⟨hto, hread, hto'⟩ := outcome_of_member (emission_peer_toRuntime ht hp name)
  obtain ⟨hextract, hreferred, hextract'⟩ := outcome_of_member (emission_peer_extractor ht hp name)
  refine ⟨c, hdecl, ⟨hfrom.trans ?_, fun h => ?_⟩, ⟨hto.trans isSome_findSome?_ownField, fun h => ?_⟩,
    ⟨hextract.trans isSome_findSome?_ownField, fun h => ?_⟩, fun d => ?_⟩
  · rw [Option.isSome_iff_exists]
    exact ⟨fun ⟨_, hf⟩ => isFactory_of_ownFactory hf, fun ⟨_, hm⟩ => ⟨_, ownFactory_of_isFactory hm⟩⟩
  · obtain ⟨f, hf⟩ := Option.isSome_iff_exists.mp (hfrom.mp h)
    obtain ⟨m, hm⟩ := isFactory_of_ownFactory hf
    refine ⟨m, hm, ?_⟩
    rw [← Factory.call_of_method]
    exact hmade _ (ownFactory_of_isFactory hm)
  · obtain ⟨field, hfield⟩ := Option.isSome_iff_exists.mp (hto.mp h)
    obtain ⟨d, hd, rfl⟩ := findSome?_ownField_eq_some.mp hfield
    refine ⟨d, hd, ?_⟩
    rw [← Member.reference_through]
    exact hread _ hfield
  · obtain ⟨field, hfield⟩ := Option.isSome_iff_exists.mp (hextract.mp h)
    obtain ⟨d, hd, rfl⟩ := findSome?_ownField_eq_some.mp hfield
    refine ⟨d, hd, ?_⟩
    rw [← Member.reference_mk]
    exact hreferred _ hfield
  · cases d with
    | toRuntime => exact hto'
    | fromRuntime => exact hfrom'
    | extractor => exact hextract'

def base : ClassDecl :=
  { ClassDecl.classNamed "demo.Base" with fields := [⟨"jsoPeer", .named RuntimeType.handle, {}⟩] }

def node : ClassDecl :=
  { ClassDecl.classNamed "demo.Node" with superclass := some base.type, methods := [factoryOf "demo.Node"] }

/-- Its own field of the name holds no handle. -/
def leaf : ClassDecl :=
  { ClassDecl.classNamed "demo.Leaf" with superclass := some node.type, fields := [⟨"jsoPeer", .primitive .int, {}⟩] }

def forest : Catalog := (Catalog.runtime.declareAll [base, node, leaf]).1

-- Stated together, so that the catalog is evaluated once.
theorem forest_evaluated :
    forest.validate = .ok () ∧
    (Strategy.isPlain forest {} leaf.type = false ∧ Conversion.isCallable forest {} leaf.type = false ∧
      ((PeerIndex.ofCatalog forest {}).of? leaf.type).isSome = true) ∧
    forest.declOf? leaf.type = some leaf ∧
    forest.lineage leaf = [leaf, node, base] ∧
    forest.assignable (.primitive .int) (.named RuntimeType.handle) = false := by
  decide +kernel

theorem hasField_forest {d : ClassDecl} (hd : d ∈ forest.lineage leaf) :
    HasField forest "jsoPeer" (.named RuntimeType.handle) d ↔ d = base := by
  obtain ⟨-, -, -, hlineage, hint⟩ := forest_evaluated
  have hbase : HasField forest "jsoPeer" (.named RuntimeType.handle) base :=
    ⟨_, rfl, by rw [Catalog.assignable, beq_self_eq_true, Bool.true_or]⟩
  refine ⟨fun ⟨f, hf, ha⟩ => ?_, fun h => h ▸ hbase⟩
  simp only [hlineage, List.mem_cons, List.not_mem_nil, or_false] at hd
  rcases hd with rfl | rfl | rfl
  · cases hf
    rw [hint] at ha
    cases ha
  · cases hf
  · rfl

/-- The factory of the class above does not make the peer, but the handle is read from two classes above. -/
theorem peer_outcome_forest :
    forest.Reachable ∧ forest.validate = .ok () ∧
      (builtIn forest {}).select forest leaf.type = .ok (.peering (.ofCatalog forest {})) ∧
      IsFactory {} node (factoryOf "demo.Node") ∧ node ∈ forest.lineage leaf ∧
      (builtIn forest {}).Answers forest .fromRuntime leaf.type "x"
        (.error (.missingConvention "demo.Leaf" .factoryMethod "createPeer")) ∧
      (builtIn forest {}).Yields forest .toRuntime leaf.type "x" "x.@demo.Base::jsoPeer" := by
  obtain ⟨hvalid, ⟨hplain, hcallable, hpeer⟩, hdecl, hlineage, -⟩ := forest_evaluated
  have hcat : forest.Reachable := Catalog.Reachable.runtime.declareAll _
  have hselect : (builtIn forest {}).select forest leaf.type = .ok (.peering (.ofCatalog forest {})) := by
    rw [select_builtIn, hplain, hcallable, hpeer]
    rfl
  have hnode : node ∈ forest.lineage leaf := by simp [hlineage]
  have hbase : base ∈ forest.lineage leaf := by simp [hlineage]
  obtain ⟨c, hc, ⟨hfrom, -⟩, ⟨hto, hread⟩, -, hall⟩ := peer_outcome hcat hvalid hselect "x"
  obtain rfl : leaf = c := Option.some.inj (hdecl.symm.trans hc)
  refine ⟨hcat, hvalid, hselect, ⟨List.mem_singleton_self _, rfl, rfl, rfl, rfl⟩, hnode, ?_, ?_⟩
  · refine (hall .fromRuntime).resolve_left fun h => ?_
    obtain ⟨m, hm⟩ := hfrom.mp h
    exact nomatch hm.declared
  · obtain ⟨d, ⟨hd, before, after, hsplit, -⟩, htext⟩ := hread (hto.mpr ⟨base, hbase, (hasField_forest hbase).mpr rfl⟩)
    have hmem : d ∈ forest.lineage leaf := hsplit ▸ List.mem_append_right _ (List.mem_cons_self ..)
    obtain rfl := (hasField_forest hmem).mp hd
    have hbase : ("x" ++ ".@" ++ base.name.source ++ "::" ++ "jsoPeer" : String) = "x.@demo.Base::jsoPeer" := by
      decide +kernel
    rw [← hbase]
    exact htext

end Converter

end Marshal
