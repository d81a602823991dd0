import Marshal.Callable
import Marshal.Proofs.Shadowing
import Mathlib.Data.List.Nodup
import Mathlib.Logic.Relation

/-! # Designated methods

Which method a class exports is decided by whether it declares methods at all, by whether it designates one, and by
whether there is such a method. These are five cases, and exactly one of them applies. None of them looks at the order
of the tags, nor at any tag but the one that designates; and where all methods have different names, the order of the
methods does not matter either. -/

namespace Marshal
open Relation

/-! ### Tags -/

namespace Tags
variable {tag : String} {t t' : Tags}

theorem values_eq_singleton {values : List String} : t.values tag = [values] ↔
    ∃ before after, t.occurrences = before ++ (tag, values) :: after ∧ ∀ o ∈ before ++ after, o.1 ≠ tag := by
  have hocc : t.values tag = [values] ↔ t.occurrences.filter (·.1 == tag) = [(tag, values)] := by
    rw [Tags.values, List.map_eq_singleton_iff]
    constructor
    · rintro ⟨⟨other, given⟩, hfilter, rfl⟩
      have hmem : (other, given) ∈ t.occurrences.filter (·.1 == tag) := by simp [hfilter]
      have hother : other = tag := by simpa using List.of_mem_filter hmem
      rw [hfilter, hother]
    · intro hfilter
      exact ⟨_, hfilter, rfl⟩
  rw [hocc, List.filter_eq_cons_iff]
  simp only [List.filter_eq_nil_iff, beq_iff_eq, true_and, List.mem_append]
  constructor
  · rintro ⟨before, after, hsplit, hbefore, hafter⟩
    exact ⟨before, after, hsplit, fun o ho => ho.elim (hbefore o) (hafter o)⟩
  · rintro ⟨before, after, hsplit, hnone⟩
    exact ⟨before, after, hsplit, fun o ho => hnone o (Or.inl ho), fun o ho => hnone o (Or.inr ho)⟩

/-- A change of tags that leaves the occurrences of one tag what they are: an occurrence of another tag comes or goes,
    or two neighbours change places, whatever their tags are. -/
inductive Edit (tag : String) : Tags → Tags → Prop
  | insert {before after : List (String × List String)} {other : String} {values : List String} (hne : other ≠ tag) :
      Edit tag ⟨before ++ after⟩ ⟨before ++ (other, values) :: after⟩
  | remove {before after : List (String × List String)} {other : String} {values : List String} (hne : other ≠ tag) :
      Edit tag ⟨before ++ (other, values) :: after⟩ ⟨before ++ after⟩
  | swap {before after : List (String × List String)} {a b : String × List String} :
      Edit tag ⟨before ++ a :: b :: after⟩ ⟨before ++ b :: a :: after⟩

theorem Edit.values_perm (h : Edit tag t t') : (t.values tag).Perm (t'.values tag) := by
  cases h with
  | insert hne => simp [Tags.values, hne]
  | remove hne => simp [Tags.values, hne]
  | swap => exact (((List.Perm.swap ..).append_left _).filter _).map _

theorem Edit.single?_eq (h : Edit tag t t') : t'.single? tag = t.single? tag := by
  refine Option.ext fun value => ?_
  rw [single?_eq_some, single?_eq_some]
  constructor
  · intro hvalue
    exact List.perm_singleton.mp (hvalue ▸ h.values_perm)
  · intro hvalue
    exact (List.singleton_perm.mp (hvalue ▸ h.values_perm)).symm

end Tags

/-! ### Cases -/

variable {s : Settings} {c c' : ClassDecl} {name : String}

/-- The class designates a name: the tag for it occurs once on the class, with this value and no other. -/
def Designates (s : Settings) (c : ClassDecl) (name : String) : Prop :=
  ∃ before after, c.tags.occurrences = before ++ (s.tags.exported, [name]) :: after ∧
    ∀ o ∈ before ++ after, o.1 ≠ s.tags.exported

theorem designates_iff : Designates s c name ↔ c.tags.single? s.tags.exported = some name := by
  rw [Tags.single?_eq_some, Tags.values_eq_singleton, Designates]

theorem single?_eq_none_of_not_designates (h : ∀ name, ¬Designates s c name) :
    c.tags.single? s.tags.exported = none := by
  refine Option.eq_none_iff_forall_ne_some.mpr fun name hname => ?_
  exact h name (designates_iff.mpr hname)

theorem eq_of_designates {name' : String} (h : Designates s c name) (h' : Designates s c name') : name = name' := by
  rw [designates_iff] at h h'
  exact Option.some.inj (h.symm.trans h')

theorem exportedMethod_of_designates (h : Designates s c name) (hsome : c.methods ≠ []) : exportedMethod s c =
    match c.methods.find? (·.name == name) with
    | some m => .ok m
    | none => .error (.exportedMethodMissing c.name.source name) := by
  rw [designates_iff] at h
  obtain ⟨m, rest, hmethods⟩ := List.exists_cons_of_ne_nil hsome
  rw [exportedMethod, hmethods, h]
  cases rest <;> rfl

/-- The first method of its name is the one that is found. -/
theorem find?_of_first {m : Method} {before after : List Method} (hsplit : c.methods = before ++ m :: after)
    (hfirst : ∀ b ∈ before, b.name ≠ m.name) : c.methods.find? (·.name == m.name) = some m := by
  refine List.find?_eq_some_iff_append.mpr ⟨beq_self_eq_true _, before, after, hsplit, fun b hb => ?_⟩
  simpa using hfirst b hb

/-- How it stands with the exported method of a class. -/
inductive ExportCase
  | noMethod
  | onlyMethod (m : Method)
  | undecided (count : Nat)
  | designated (m : Method)
  | missing (name : String)

namespace ExportCase
variable {k k' : ExportCase}

inductive Applies (s : Settings) (c : ClassDecl) : ExportCase → Prop
  | noMethod (hnone : c.methods = []) : Applies s c noMethod
  | onlyMethod {m : Method} (hno : ∀ name, ¬Designates s c name) (hmethods : c.methods = [m]) :
      Applies s c (onlyMethod m)
  | undecided (hno : ∀ name, ¬Designates s c name) (hmany : 2 ≤ c.methods.length) :
      Applies s c (undecided c.methods.length)
  | designated {m : Method} {before after : List Method} (hname : Designates s c m.name)
      (hsplit : c.methods = before ++ m :: after) (hfirst : ∀ b ∈ before, b.name ≠ m.name) :
      Applies s c (designated m)
  | missing {name : String} (hname : Designates s c name) (hsome : c.methods ≠ [])
      (hnot : ∀ m ∈ c.methods, m.name ≠ name) : Applies s c (missing name)

/-- What is exported, or why nothing is. -/
def outcome (s : Settings) (c : ClassDecl) : ExportCase → Except ConversionError Method
  | noMethod => .error (.noFunctions c.name.source)
  | onlyMethod m => .ok m
  | undecided count => .error (.ambiguousExport c.name.source count s.tags.exported)
  | designated m => .ok m
  | missing name => .error (.exportedMethodMissing c.name.source name)

/-! ### Exactly one case -/

theorem exists_applies (s : Settings) (c : ClassDecl) : ∃ k, Applies s c k := by
  by_cases hsome : c.methods = []
  · exact ⟨_, .noMethod hsome⟩
  by_cases hdesignates : ∃ name, Designates s c name
  · obtain ⟨name, hname⟩ := hdesignates
    cases hfind : c.methods.find? (·.name == name) with
    | none => exact ⟨_, .missing hname hsome fun m hm => by simpa using List.find?_eq_none.mp hfind m hm⟩
    | some m =>
      obtain ⟨hm, before, after, hsplit, hfirst⟩ := List.find?_eq_some_iff_append.mp hfind
      obtain rfl : m.name = name := beq_iff_eq.mp hm
      exact ⟨_, .designated hname hsplit fun b hb => by simpa using hfirst b hb⟩
  · rw [not_exists] at hdesignates
    obtain ⟨m, rest, hmethods⟩ := List.exists_cons_of_ne_nil hsome
    cases rest with
    | nil => exact ⟨_, .onlyMethod hdesignates hmethods⟩
    | cons m' rest => exact ⟨_, .undecided hdesignates (by simp [hmethods])⟩

/-- The outcome is that of any case that applies. -/
theorem Applies.exportedMethod_eq (h : Applies s c k) : exportedMethod s c = k.outcome s c := by
  cases h with
  | noMethod hnone => simp [exportedMethod, outcome, hnone]
  | onlyMethod hno hmethods => simp [exportedMethod, outcome, hmethods, single?_eq_none_of_not_designates hno]
  | undecided hno hmany =>
    match hmethods : c.methods with
    | [] | [_] => simp [hmethods] at hmany
    | _ :: _ :: _ => simp [exportedMethod, outcome, hmethods, single?_eq_none_of_not_designates hno]
  | designated hname hsplit hfirst =>
    rw [exportedMethod_of_designates hname (by simp [hsplit]), find?_of_first hsplit hfirst]
    rfl
  | missing hname hsome hnot =>
    rw [exportedMethod_of_designates hname hsome, List.find?_eq_none.mpr (by simpa using hnot)]
    rfl

theorem Applies.unique (h : Applies s c k) (h' : Applies s c k') : k = k' := by
  cases h with
  | noMethod hnone => cases h' <;> simp_all
  | onlyMethod hno hmethods => cases h' <;> simp_all
  | undecided hno hmany => cases h' <;> simp_all
  | designated hname hsplit hfirst =>
    cases h' with
    | designated hname' hsplit' hfirst' =>
      have hfind := find?_of_first hsplit hfirst
      rw [eq_of_designates hname hname', find?_of_first hsplit' hfirst', Option.some.injEq] at hfind
      rw [hfind]
    | missing hname' _ hnot => exact absurd (eq_of_designates hname hname') (hnot _ (by simp [hsplit]))
    | _ => simp_all
  | missing hname hsome hnot =>
    cases h' with
    | designated hname' hsplit' _ => exact absurd (eq_of_designates hname' hname) (hnot _ (by simp [hsplit']))
    | missing hname' => rw [eq_of_designates hname hname']
    | _ => simp_all

/-- A case keeps applying when the methods change places, as long as their names are all different. -/
theorem Applies.of_perm (h : Applies s c k) (hdesignates : ∀ name, Designates s c' name ↔ Designates s c name)
    (hperm : c.methods.Perm c'.methods) (hnames : (c'.methods.map (·.name)).Nodup) : Applies s c' k := by
  cases h with
  | noMethod hnone => exact .noMethod (List.nil_perm.mp (hnone ▸ hperm))
  | onlyMethod hno hmethods =>
    exact .onlyMethod (fun name => mt (hdesignates name).mp (hno name)) (List.singleton_perm.mp (hmethods ▸ hperm)).symm
  | undecided hno hmany =>
    rw [hperm.length_eq] at hmany ⊢
    exact .undecided (fun name => mt (hdesignates name).mp (hno name)) hmany
  | @designated m before after hname hsplit hfirst =>
    have hmem : m ∈ c'.methods := hperm.subset (by simp [hsplit])
    obtain ⟨before', after', hsplit'⟩ := List.append_of_mem hmem
    rw [hsplit', List.map_append, List.map_cons] at hnames
    refine .designated ((hdesignates _).mpr hname) hsplit' fun b hb hbm => ?_
    exact (List.nodup_append.mp hnames).2.2 b.name (List.mem_map.mpr ⟨b, hb, rfl⟩) m.name (List.mem_cons_self ..) hbm
  | missing hname hsome hnot =>
    refine .missing ((hdesignates _).mpr hname) (fun hnone => hsome ?_) fun m hm => hnot m (hperm.mem_iff.mpr hm)
    exact List.perm_nil.mp (hnone ▸ hperm)

end ExportCase

/-! ### Rearranging a class -/

/-- The class with its methods in another order, or after a change of tags that leaves the designations as they are. -/
inductive Rearranged (s : Settings) (c : ClassDecl) : ClassDecl → Prop
  | methods {ms : List Method} (hperm : c.methods.Perm ms) : Rearranged s c { c with methods := ms }
  | tags {tags : Tags} (hedit : Tags.Edit s.tags.exported c.tags tags) : Rearranged s c { c with tags := tags }

namespace Rearranged
variable (h : Rearranged s c c')
include h

theorem designates_iff : Designates s c' name ↔ Designates s c name := by
  cases h with
  | methods hperm => rfl
  | tags hedit => rw [Marshal.designates_iff, Marshal.designates_iff, hedit.single?_eq]

theorem methods_perm : c.methods.Perm c'.methods := by
  cases h with
  | methods hperm => exact hperm
  | tags hedit => exact .refl _

theorem nodup_names (hnames : (c.methods.map (·.name)).Nodup) : (c'.methods.map (·.name)).Nodup :=
  (h.methods_perm.map _).nodup_iff.mp hnames

theorem outcome_eq (k : ExportCase) : k.outcome s c' = k.outcome s c := by
  cases h with
  | methods hperm => rfl
  | tags hedit => rfl

theorem exportedMethod_eq (hnames : (c.methods.map (·.name)).Nodup) : exportedMethod s c' = exportedMethod s c := by
  obtain ⟨k, hk⟩ := ExportCase.exists_applies s c
  have hk' := hk.of_perm (fun _ => h.designates_iff) h.methods_perm (h.nodup_names hnames)
  rw [hk.exportedMethod_eq, hk'.exportedMethod_eq, h.outcome_eq]

end Rearranged

theorem exportedMethod_of_rearrangements (h : ReflTransGen (Rearranged s) c c')
    (hnames : (c.methods.map (·.name)).Nodup) :
    exportedMethod s c' = exportedMethod s c ∧ (c'.methods.map (·.name)).Nodup := by
  induction h with
  | refl => exact ⟨rfl, hnames⟩
  | tail _ hstep ih => exact ⟨(hstep.exportedMethod_eq ih.2).trans ih.1, hstep.nodup_names ih.2⟩

/-- Exactly one case applies to a class, and its outcome is the method that the class exports, or the reason why it
    exports none. If its methods have different names, neither their order nor what happens to tags other than the one
    that designates, nor where that one stands among them, changes any of it. -/
theorem exportedMethod_by_case (s : Settings) (c : ClassDecl) :
    (∃! k, ExportCase.Applies s c k) ∧
    (∀ k, ExportCase.Applies s c k → exportedMethod s c = k.outcome s c) ∧
    ((c.methods.map (·.name)).Nodup → ∀ c', ReflTransGen (Rearranged s) c c' →
      exportedMethod s c' = exportedMethod s c) := by
  refine ⟨?_, fun k hk => hk.exportedMethod_eq, fun hnames c' h => (exportedMethod_of_rearrangements h hnames).1⟩
  obtain ⟨k, hk⟩ := ExportCase.exists_applies s c
  exact ⟨k, hk, fun k' hk' => hk'.unique hk⟩

/-! A class that designates the second of its methods, and the same class with the methods and the tags in another order
and one tag more. -/

def started : Method := { name := "started" }

def stopped : Method := { name := "stopped" }

def engine : ClassDecl :=
  { ClassDecl.interfaceNamed "demo.Engine" with
    methods := [started, stopped], tags := ⟨[("gwt.exported", ["stopped"]), ("since", ["1.2"])]⟩ }

def engineAgain : ClassDecl :=
  { engine with
    methods := [stopped, started], tags := ⟨[("since", ["1.2"]), ("author", []), ("gwt.exported", ["stopped"])]⟩ }

theorem rearranged_engine : ReflTransGen (Rearranged {}) engine engineAgain := by
  have hmethods : Rearranged {} engine { engine with methods := [stopped, started] } := .methods (.swap ..)
  have hswap := @Tags.Edit.swap "gwt.exported" [] [] ("gwt.exported", ["stopped"]) ("since", ["1.2"])
  have hinsert := @Tags.Edit.insert "gwt.exported" [("since", ["1.2"])] [("gwt.exported", ["stopped"])] "author" []
    (by decide)
  exact ((ReflTransGen.single hmethods).tail (.tags hswap)).tail (.tags hinsert)

theorem exportedMethod_by_case_engine :
    ExportCase.Applies {} engine (.designated stopped) ∧ ReflTransGen (Rearranged {}) engine engineAgain ∧
      exportedMethod {} engine = .ok stopped ∧ exportedMethod {} engineAgain = .ok stopped := by
  obtain ⟨-, hcase, hrearranged⟩ := exportedMethod_by_case {} engine
  have happlies : ExportCase.Applies {} engine (.designated stopped) :=
    @ExportCase.Applies.designated {} engine stopped [started] [] ⟨[], _, rfl, by decide⟩ rfl (by decide)
  have houtcome := hcase _ happlies
  exact ⟨happlies, rearranged_engine, houtcome,
    (hrearranged (by decide) engineAgain rearranged_engine).trans houtcome⟩

end Marshal
