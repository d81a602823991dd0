import Marshal.Callable
import Marshal.Proofs.Peers

/-! # What references to methods say

A reference to a method gives the source name of its class, its name, and the descriptors of its parameters without
anything between them. It can be taken apart again in one way only, as long as the names do not contain the characters
that it is put together with. No descriptor is the beginning of another, so that a signature says where each of its
descriptors ends. The name of a class says which class it is if the class is declared under the fingerprint of this
name; nothing else keeps two classes from having the same one. -/

namespace Marshal

namespace Segments
variable {sep : Char} {xs ys xs' ys' : List Char}

/-- What comes before the first separator, and what comes after it. -/
theorem eq_of_append_of_first (hx : sep ∉ xs) (hy : sep ∉ ys) (h : xs ++ sep :: xs' = ys ++ sep :: ys') :
    xs = ys ∧ xs' = ys' := by
  rcases List.append_eq_append_iff.mp h with ⟨more, rfl, htail⟩ | ⟨more, rfl, htail⟩
  · rcases more with _ | ⟨c, more⟩
    · simpa using htail
    · simp_all
  · rcases more with _ | ⟨c, more⟩
    · simpa [eq_comm] using htail
    · simp_all

/-- What comes before the last separator, and what comes after it. -/
theorem eq_of_append_of_last (hx : sep ∉ xs') (hy : sep ∉ ys') (h : xs ++ sep :: xs' = ys ++ sep :: ys') :
    xs = ys ∧ xs' = ys' := by
  have hreverse := congrArg List.reverse h
  simp only [List.reverse_append, List.reverse_cons, List.append_assoc, List.singleton_append] at hreverse
  obtain ⟨htail, hhead⟩ := eq_of_append_of_first (by simpa using hx) (by simpa using hy) hreverse
  exact ⟨List.reverse_inj.mp hhead, List.reverse_inj.mp htail⟩

end Segments

/-! ### Binary names -/

namespace TypeName

/-- The name has none of the characters that binary names and descriptors put between and after its parts. -/
structure Unmarked (n : TypeName) : Prop where
  package : ∀ mark ∈ ['/', '$', ';'], mark ∉ n.package.toList
  simple : ∀ mark ∈ ['/', '$', ';'], mark ∉ n.simple.toList

/-- The characters with a mark for each dot. -/
def marked (mark : Char) (cs : List Char) : List Char := cs.map fun c => if c = '.' then mark else c

theorem mem_marked {mark c : Char} {cs : List Char} (h : c ∈ marked mark cs) : c = mark ∨ c ∈ cs := by
  obtain ⟨b, hb, rfl⟩ := List.mem_map.mp h
  split
  · exact Or.inl rfl
  · exact Or.inr hb

theorem marked_inj {mark : Char} {xs ys : List Char} (hx : mark ∉ xs) (hy : mark ∉ ys)
    (h : marked mark xs = marked mark ys) : xs = ys := by
  -- With a dot for each mark the text is what it was.
  have restored {cs : List Char} (hcs : mark ∉ cs) :
      (marked mark cs).map (fun c => if c = mark then '.' else c) = cs := by
    rw [marked, List.map_map]
    refine (List.map_congr_left fun c hc => ?_).trans (List.map_id cs)
    have hne : c ≠ mark := fun heq => hcs (heq ▸ hc)
    by_cases hdot : c = '.' <;> simp [hdot, hne]
  rw [← restored hx, h, restored hy]

theorem toList_binary (n : TypeName) : n.binary.toList =
    if n.package = "" then marked '$' n.simple.toList
    else marked '/' n.package.toList ++ '/' :: marked '$' n.simple.toList := by
  unfold binary marked
  by_cases hp : n.package = ""
  · simp [hp]
  · simp [hp]

section
variable {n n' : TypeName} (h : n.Unmarked) (h' : n'.Unmarked)
include h

theorem Unmarked.not_mem_nested {c : Char} (hc : c = '/' ∨ c = ';') : c ∉ marked '$' n.simple.toList := by
  intro hmem
  rcases mem_marked hmem with rfl | hmem
  · simp at hc
  · exact h.simple c (by rcases hc with rfl | rfl <;> simp) hmem

theorem Unmarked.not_mem_binary : ';' ∉ n.binary.toList := by
  have hnested := h.not_mem_nested (c := ';') (Or.inr rfl)
  rw [toList_binary]
  split
  · exact hnested
  · simp only [List.mem_append, List.mem_cons, not_or]
    refine ⟨fun hmem => ?_, by decide, hnested⟩
    rcases mem_marked hmem with heq | hmem
    · exact absurd heq (by decide)
    · exact h.package ';' (by simp) hmem

include h'

/-- The last slash stands before the nested name, and there is none without a package. -/
theorem Unmarked.binary_inj (hb : n.binary = n'.binary) : n = n' := by
  have hlist := congrArg String.toList hb
  have hslash := h.not_mem_nested (c := '/') (Or.inl rfl)
  have hslash' := h'.not_mem_nested (c := '/') (Or.inl rfl)
  have hsimple (heq : marked '$' n.simple.toList = marked '$' n'.simple.toList) : n.simple = n'.simple :=
    String.toList_inj.mp (marked_inj (h.simple '$' (by simp)) (h'.simple '$' (by simp)) heq)
  have hboth : n.package = n'.package ∧ n.simple = n'.simple := by
    rw [toList_binary, toList_binary] at hlist
    by_cases hp : n.package = "" <;> by_cases hp' : n'.package = ""
    · simp only [hp, hp', if_true] at hlist
      exact ⟨hp.trans hp'.symm, hsimple hlist⟩
    · simp only [hp, hp', if_true, if_false] at hlist
      exact absurd (hlist ▸ List.mem_append_right _ (List.mem_cons_self ..)) hslash
    · simp only [hp, hp', if_true, if_false] at hlist
      exact absurd (hlist ▸ List.mem_append_right _ (List.mem_cons_self ..)) hslash'
    · simp only [hp, hp', if_false] at hlist
      obtain ⟨hpackage, hnested⟩ := Segments.eq_of_append_of_last hslash hslash' hlist
      have hpackage := marked_inj (h.package '/' (by simp)) (h'.package '/' (by simp)) hpackage
      exact ⟨String.toList_inj.mp hpackage, hsimple hnested⟩
  cases n
  cases n'
  exact (mk.injEq ..).mpr hboth

end

end TypeName

/-! ### Descriptors -/

theorem Primitive.descriptor_inj {p q : Primitive} (h : p.descriptor = q.descriptor) : p = q := by
  cases p <;> cases q <;> first | rfl | exact absurd h (by decide)

theorem Primitive.descriptor_ne (p : Primitive) : p.descriptor ≠ 'L' ∧ p.descriptor ≠ '[' := by
  cases p <;> decide

namespace HostType

/-- References in the type are made from the names of their classes, which are unmarked. -/
def Unmarked : HostType → Prop
  | primitive _ => True
  | object c => c = .ofName c.name ∧ c.name.Unmarked
  | array e => e.Unmarked

@[simp] theorem toList_descriptor_primitive (p : Primitive) : (primitive p).descriptor.toList = [p.descriptor] := by
  simp [descriptor]

@[simp] theorem toList_descriptor_object (c : ClassRef) :
    (object c).descriptor.toList = 'L' :: (c.name.binary.toList ++ [';']) := by
  simp [descriptor]

@[simp] theorem toList_descriptor_array (e : HostType) : (array e).descriptor.toList = '[' :: e.descriptor.toList := by
  simp [descriptor]

/-- Two texts that begin with descriptors begin with the same one. -/
theorem descriptor_append_inj {t u : HostType} (ht : t.Unmarked) (hu : u.Unmarked) {xs ys : List Char}
    (h : t.descriptor.toList ++ xs = u.descriptor.toList ++ ys) : t = u ∧ xs = ys := by
  induction t generalizing u with
  | primitive p =>
    obtain ⟨hL, harray⟩ := p.descriptor_ne
    cases u with
    | primitive q =>
      simp only [toList_descriptor_primitive, List.cons_append, List.nil_append, List.cons.injEq] at h
      exact ⟨congrArg primitive (Primitive.descriptor_inj h.1), h.2⟩
    | object c => simp [hL] at h
    | array e => simp [harray] at h
  | object c =>
    cases u with
    | primitive q => simp [q.descriptor_ne.1.symm] at h
    | object c' =>
      simp only [toList_descriptor_object, List.cons_append, List.append_assoc, List.nil_append, List.cons.injEq,
        true_and] at h
      obtain ⟨hb, hrest⟩ := Segments.eq_of_append_of_first ht.2.not_mem_binary hu.2.not_mem_binary h
      rw [ht.1, hu.1, ht.2.binary_inj hu.2 (String.toList_inj.mp hb)]
      exact ⟨rfl, hrest⟩
    | array e => simp at h
  | array e ih =>
    cases u with
    | primitive q => simp [q.descriptor_ne.2.symm] at h
    | object c => simp at h
    | array e' =>
      simp only [toList_descriptor_array, List.cons_append, List.cons.injEq, true_and] at h
      obtain ⟨rfl, hrest⟩ := ih (u := e') ht hu h
      exact ⟨rfl, hrest⟩

theorem descriptor_ne_empty (t : HostType) : t.descriptor.toList ≠ [] := by
  cases t <;> simp

/-- A signature can be read in one way only. -/
theorem flatMap_descriptor_inj {ts us : List HostType} (ht : ∀ t ∈ ts, t.Unmarked) (hu : ∀ u ∈ us, u.Unmarked)
    (h : ts.flatMap (·.descriptor.toList) = us.flatMap (·.descriptor.toList)) : ts = us := by
  induction ts generalizing us with
  | nil =>
    cases us with
    | nil => rfl
    | cons u us => simp [u.descriptor_ne_empty] at h
  | cons t ts ih =>
    cases us with
    | nil => simp [t.descriptor_ne_empty] at h
    | cons u us =>
      rw [List.forall_mem_cons] at ht hu
      rw [List.flatMap_cons, List.flatMap_cons] at h
      obtain ⟨rfl, hrest⟩ := descriptor_append_inj ht.1 hu.1 h
      rw [ih ht.2 hu.2 hrest]

end HostType

/-! ### Methods -/

theorem Method.toList_signature (m : Method) : m.signature.toList = m.paramTypes.flatMap (·.descriptor.toList) := by
  rw [signature, String.toList_join, List.flatMap_map]

theorem Method.signature_inj {m m' : Method} (h : ∀ p ∈ m.paramTypes, p.Unmarked) (h' : ∀ p ∈ m'.paramTypes, p.Unmarked)
    (hs : m.signature = m'.signature) : m.paramTypes = m'.paramTypes := by
  refine HostType.flatMap_descriptor_inj h h' ?_
  rw [← toList_signature, ← toList_signature, hs]

theorem toList_methodReference (c : ClassDecl) (m : Method) : (methodReference c m).toList =
    '@' :: (c.name.source.toList ++ ':' :: (':' :: (m.name.toList ++ '(' :: (m.signature.toList ++ [')'])))) := by
  simp [methodReference]

/-- None of the names that a reference to the method is made of has the character that comes after it. -/
structure Referable (c : ClassDecl) (m : Method) : Prop where
  owner : ':' ∉ c.name.source.toList
  name : '(' ∉ m.name.toList
  params : ∀ p ∈ m.paramTypes, p.Unmarked

theorem Referable.methodReference_inj {c c' : ClassDecl} {m m' : Method} (h : Referable c m) (h' : Referable c' m')
    (hr : methodReference c m = methodReference c' m') :
    c.name.source = c'.name.source ∧ m.name = m'.name ∧ m.paramTypes = m'.paramTypes := by
  have hlist := congrArg String.toList hr
  rw [toList_methodReference, toList_methodReference, List.cons.injEq] at hlist
  obtain ⟨hsource, hrest⟩ := Segments.eq_of_append_of_first h.owner h'.owner hlist.2
  rw [List.cons.injEq] at hrest
  obtain ⟨hname, hrest⟩ := Segments.eq_of_append_of_first h.name h'.name hrest.2
  have hsignature := String.toList_inj.mp (List.append_cancel_right hrest)
  exact ⟨String.toList_inj.mp hsource, String.toList_inj.mp hname, Method.signature_inj h.params h'.params hsignature⟩

/-- The class is known by the fingerprint of its own name, as a class is that is made from a name. -/
def ClassDecl.KnownByName (c : ClassDecl) : Prop := c.id = c.name.fingerprint

theorem ClassDecl.KnownByName.id_eq {c c' : ClassDecl} (h : c.KnownByName) (h' : c'.KnownByName)
    (hsource : c.name.source = c'.name.source) : c.id = c'.id := by
  calc c.id
    _ = Fingerprint.ofName c.name.source := h
    _ = Fingerprint.ofName c'.name.source := by rw [hsource]
    _ = c'.id := h'.symm

namespace Catalog
variable {cat : Catalog} {c c' : ClassDecl} {m m' : Method}

/-- References to methods of declared classes that are known by their names are the same text exactly if the classes
    are the same and the methods have the same name and the same parameter types, and signatures are the same exactly
    if the parameter types are. -/
theorem methodReference_eq_iff (hcat : cat.Reachable) (hc : c ∈ cat.entries) (hc' : c' ∈ cat.entries)
    (hknown : c.KnownByName) (hknown' : c'.KnownByName) (h : Referable c m) (h' : Referable c' m') :
    (methodReference c m = methodReference c' m' ↔ c = c' ∧ m.name = m'.name ∧ m.paramTypes = m'.paramTypes) ∧
      (m.signature = m'.signature ↔ m.paramTypes = m'.paramTypes) := by
  refine ⟨⟨fun hr => ?_, ?_⟩, Method.signature_inj h.params h'.params, fun hp => by rw [Method.signature, hp]; rfl⟩
  · obtain ⟨hsource, hname, hparams⟩ := h.methodReference_inj h' hr
    exact ⟨hcat.indexed.eq_of_id hc hc' (hknown.id_eq hknown' hsource), hname, hparams⟩
  · rintro ⟨rfl, hname, hparams⟩
    rw [methodReference, methodReference, hname, Method.signature, hparams]
    rfl

/-- An array of numbers and a nested class. -/
def gather : Method :=
  { name := "gather", params := [⟨"depths", .array (.primitive .int)⟩, ⟨"node", .named "demo.Tree.Node"⟩] }

/-- The same types, with the array level at the other one. -/
def gatherAll : Method :=
  { name := "gather", params := [⟨"depth", .primitive .int⟩, ⟨"nodes", .array (.named "demo.Tree.Node")⟩] }

theorem referable_node : Referable Converter.node gather ∧ Referable Converter.node gatherAll := by
  have hparse : TypeName.parse "demo.Tree.Node" = ⟨"demo", "Tree.Node"⟩ := by decide +kernel
  have hunmarked : (TypeName.mk "demo" "Tree.Node").Unmarked := ⟨by simp, by simp⟩
  have hnested : (HostType.named "demo.Tree.Node").Unmarked := ⟨rfl, hparse ▸ hunmarked⟩
  have howner : ':' ∉ Converter.node.name.source.toList := by decide +kernel
  refine ⟨⟨howner, by decide, ?_⟩, ⟨howner, by decide, ?_⟩⟩
  · exact List.forall_mem_cons.mpr ⟨trivial, List.forall_mem_singleton.mpr hnested⟩
  · exact List.forall_mem_cons.mpr ⟨trivial, List.forall_mem_singleton.mpr hnested⟩

/-- Overloads that differ in where the brackets stand have different references. -/
theorem methodReference_eq_iff_overloads :
    Converter.forest.Reachable ∧ Converter.node ∈ Converter.forest.entries ∧ Converter.node.KnownByName ∧
      Referable Converter.node gather ∧ Referable Converter.node gatherAll ∧
      methodReference Converter.node gather ≠ methodReference Converter.node gatherAll ∧
      gather.signature ≠ gatherAll.signature := by
  have hcat : Converter.forest.Reachable := Reachable.runtime.declareAll _
  have hnode : Converter.node ∈ Converter.forest.entries := by decide +kernel
  have hparams : gather.paramTypes ≠ gatherAll.paramTypes := fun h => nomatch h
  obtain ⟨h, h'⟩ := referable_node
  have hknown : Converter.node.KnownByName := rfl
  obtain ⟨href, hsignature⟩ := methodReference_eq_iff hcat hnode hnode hknown hknown h h'
  exact ⟨hcat, hnode, hknown, h, h', fun heq => hparams (href.mp heq).2.2, fun heq => hparams (hsignature.mp heq)⟩

/-! A class that is declared twice, under its own fingerprint and under another one, and that has two methods which
differ in their results. -/

def tally : Method := { name := "tally", params := [⟨"by", .primitive .int⟩] }

def tallyBack : Method := { tally with returns := .primitive .int }

def counter : ClassDecl := { ClassDecl.ofName ⟨"demo", "Counter"⟩ with methods := [tally, tallyBack] }

def counterElsewhere : ClassDecl := { counter with id := .ofName "demo.Elsewhere" }

def counting : Catalog := (Catalog.runtime.declareAll [counter, counterElsewhere]).1

-- Stated together, so that the catalog is evaluated once.
theorem counting_evaluated :
    counter ∈ counting.entries ∧ counterElsewhere ∈ counting.entries ∧ counter ≠ counterElsewhere ∧
      ':' ∉ counter.name.source.toList := by
  decide +kernel

theorem referable_counter {c : ClassDecl} (hname : c.name = counter.name) {m : Method} (hm : m ∈ counter.methods) :
    Referable c m := by
  have howner : ':' ∉ c.name.source.toList := hname ▸ counting_evaluated.2.2.2
  have htypes : m.name = tally.name ∧ m.paramTypes = tally.paramTypes := by
    have hm : m ∈ [tally, tallyBack] := hm
    simp only [List.mem_cons, List.not_mem_nil, or_false] at hm
    rcases hm with rfl | rfl <;> exact ⟨rfl, rfl⟩
  refine ⟨howner, htypes.1 ▸ by decide, htypes.2 ▸ ?_⟩
  exact List.forall_mem_singleton.mpr trivial

/-- A reference does not tell declared classes with the same name apart, nor methods of a class that differ in more than
    their names and parameter types. -/
theorem methodReference_not_injective :
    (¬∀ (cat : Catalog) (c c' : ClassDecl) (m m' : Method), cat.Reachable → c ∈ cat.entries → c' ∈ cat.entries →
      m ∈ c.methods → m' ∈ c'.methods → Referable c m → Referable c' m' →
        methodReference c m = methodReference c' m' → c = c' ∧ m.name = m'.name ∧ m.paramTypes = m'.paramTypes) ∧
    ¬∀ (cat : Catalog) (c : ClassDecl) (m m' : Method), cat.Reachable → c ∈ cat.entries → m ∈ c.methods →
      m' ∈ c.methods → Referable c m → Referable c m' → methodReference c m = methodReference c m' → m = m' := by
  have hcat : counting.Reachable := Reachable.runtime.declareAll _
  obtain ⟨hcounter, helsewhere, hne, -⟩ := counting_evaluated
  have htally : tally ∈ counter.methods := List.mem_cons_self ..
  have hback : tallyBack ∈ counter.methods := List.mem_cons_of_mem _ (List.mem_cons_self ..)
  have hname : counterElsewhere.name = counter.name := rfl
  constructor
  · intro h
    have hreference : methodReference counter tally = methodReference counterElsewhere tally := by
      rw [methodReference, methodReference, hname]
    have hsame := h counting counter counterElsewhere tally tally hcat hcounter helsewhere htally htally
      (referable_counter rfl htally) (referable_counter hname htally) hreference
    exact hne hsame.1
  · intro h
    have hsame := h counting counter tally tallyBack hcat hcounter htally hback (referable_counter rfl htally)
      (referable_counter rfl hback) rfl
    have hreturns : HostType.primitive .void = .primitive .int := congrArg Method.returns hsame
    cases hreturns

end Catalog

end Marshal
