import Marshal.Proofs.Emissions

/-! # What the built-in strategies look at

Whether one class reference can be assigned to another depends on their fingerprints only. So references to
the same class under the same name are converted by the same strategy, and a callable is a callable under
every name. A conversion from the runtime to the host looks at nothing but its type: neither at its name nor
at the conversions around it. -/

namespace Marshal

theorem Catalog.assignable_object (cat : Catalog) (a b : ClassRef) :
    cat.assignable (.object a) (.object b) = cat.reaches b.id cat.ids [a.id] := by
  unfold assignable
  by_cases hab : a = b
  · subst hab
    rw [beq_self_eq_true, Bool.true_or, reaches, if_pos rfl]
  · have hne : (HostType.object a == HostType.object b) = false := by simpa using hab
    rw [hne, Bool.false_or]
    rfl

/-- A class reference with the fingerprint of `t`. -/
def HostType.RefersTo (p t : HostType) : Prop := ∃ r, p = .object r ∧ r.id = t.fingerprint

namespace Conversion
variable {cat : Catalog} {s : Settings} {p t : HostType}

theorem isCallable_of_refersTo (ht : t.classRef?.isSome) (h : isCallable cat s t = true) (hp : p.RefersTo t) :
    isCallable cat s p = true := by
  obtain ⟨r, rfl, hid⟩ := hp
  cases t with
  | primitive q => cases ht
  | array e => cases ht
  | object q =>
    have hid' : r.id = q.id := hid
    unfold isCallable Settings.callableType HostType.named at h ⊢
    rw [Catalog.assignable_object] at h ⊢
    rw [hid']
    exact h

/-- Directly inside a conversion, what comes back to it are the callables that refer to its type. -/
theorem reenters_iff_isCallable (name : String) :
    reenters cat s ⟨t, name, []⟩ p = true ↔ p.RefersTo t ∧ isCallable cat s p = true := by
  cases p with
  | primitive q => exact ⟨fun h => (nomatch h), fun ⟨⟨_, h, _⟩, _⟩ => (nomatch h)⟩
  | array e => exact ⟨fun h => (nomatch h), fun ⟨⟨_, h, _⟩, _⟩ => (nomatch h)⟩
  | object r =>
    have hr : reenters cat s ⟨t, name, []⟩ (.object r) = (r.id == t.fingerprint && isCallable cat s (.object r)) := by
      simp [reenters, HostType.classRef?]
    rw [hr, Bool.and_eq_true, beq_iff_eq]
    refine ⟨fun hid => ⟨⟨r, rfl, hid.1⟩, hid.2⟩, fun hp => ?_⟩
    obtain ⟨⟨r', hr', hid⟩, hcallable⟩ := hp
    cases hr'
    exact ⟨hid, hcallable⟩

theorem reenters_iff (ht : t.classRef?.isSome) (h : isCallable cat s t = true) (name : String) :
    reenters cat s ⟨t, name, []⟩ p = true ↔ p.RefersTo t := by
  rw [reenters_iff_isCallable]
  exact ⟨And.left, fun hp => ⟨hp, isCallable_of_refersTo ht h hp⟩⟩

end Conversion

theorem Strategy.isPlain_congr {cat : Catalog} {s : Settings} {r q : ClassRef} (hid : r.id = q.id)
    (hname : r.name.source = q.name.source) : isPlain cat s (.object r) = isPlain cat s (.object q) := by
  show (_ || cat.assignable (.object r) (.object _)) = (_ || cat.assignable (.object q) (.object _))
  rw [Catalog.assignable_object, Catalog.assignable_object, hid, hname]

namespace Converter
variable {cat₀ cat : Catalog} {s : Settings} {t p : HostType}

/-- A third strategy counts for what is neither the same on both sides nor a callable. -/
theorem select_third (third : Strategy) (cat : Catalog) (s : Settings) (t : HostType) :
    select ⟨s, [.identity, .callable, third]⟩ cat t =
      if Strategy.isPlain cat s t then .ok .identity
      else if t.classRef?.isSome && Conversion.isCallable cat s t then .ok .callable
      else if third.accepts cat s t then .ok third
      else .error (.unresolvable t.source) := by
  have hidentity : Strategy.identity.accepts cat s t = Strategy.isPlain cat s t := rfl
  have hcallable : Strategy.callable.accepts cat s t = (t.classRef?.isSome && Conversion.isCallable cat s t) := rfl
  simp only [select, List.find?_cons, List.find?_nil, hidentity, hcallable]
  cases Strategy.isPlain cat s t with
  | true => rfl
  | false =>
    cases t.classRef?.isSome && Conversion.isCallable cat s t with
    | true => rfl
    | false => cases third.accepts cat s t <;> rfl

theorem select_builtIn (cat₀ cat : Catalog) (s : Settings) (t : HostType) :
    (builtIn cat₀ s).select cat t =
      if Strategy.isPlain cat s t then .ok .identity
      else if t.classRef?.isSome && Conversion.isCallable cat s t then .ok .callable
      else if ((PeerIndex.ofCatalog cat₀ s).of? t).isSome then .ok (.peering (.ofCatalog cat₀ s))
      else .error (.unresolvable t.source) :=
  select_third (.peering (.ofCatalog cat₀ s)) cat s t

theorem not_custom_of_select {cs : CustomStrategy} : (builtIn cat₀ s).select cat t ≠ .ok (.custom cs) := by
  intro h
  simpa [builtIn] using mem_of_select h

theorem select_builtIn_callable (h : (builtIn cat₀ s).select cat t = .ok .callable) :
    Strategy.isPlain cat s t = false ∧ t.classRef?.isSome ∧ Conversion.isCallable cat s t = true := by
  rw [select_builtIn] at h
  split at h
  · cases h
  · next hplain =>
    split at h
    · next hcallable =>
      rw [Bool.and_eq_true] at hcallable
      exact ⟨by simpa using hplain, hcallable⟩
    · split at h <;> cases h

theorem select_builtIn_error {x : ConversionError} (h : (builtIn cat₀ s).select cat t = .error x) :
    x = .unresolvable t.source ∧ (t.classRef?.isSome && Conversion.isCallable cat s t) = false := by
  rw [select_builtIn] at h
  split at h
  · cases h
  · split at h
    · cases h
    · next hcallable =>
      split at h
      · cases h
      · cases h
        exact ⟨rfl, by simpa using hcallable⟩

/-- Only the identity strategy among the built-in ones counts as one. -/
theorem select_builtIn_isIdentity {st : Strategy} (h : (builtIn cat₀ s).select cat t = .ok st)
    (hst : st.isIdentity = true) : st = .identity ∧ Strategy.isPlain cat s t = true := by
  rw [select_builtIn] at h
  split at h
  · next hplain =>
    cases h
    exact ⟨rfl, hplain⟩
  · split at h
    · cases h
      cases hst
    · split at h <;> cases h
      cases hst

/-- What comes from the runtime is converted, or fails, by the type alone. -/
theorem result_fromRuntime {c c' : Conversion} (h : c.type = c'.type) :
    ((builtIn cat₀ s).emission cat c .fromRuntime).result = ((builtIn cat₀ s).emission cat c' .fromRuntime).result := by
  cases hs : (builtIn cat₀ s).select cat c.type with
  | error x => rw [emission_of_select_error hs, emission_of_select_error (h ▸ hs)]
  | ok st =>
    rw [emission_of_select hs, emission_of_select (h ▸ hs)]
    cases st with
    | identity => rfl
    | callable =>
      simp only [emissionOf_callable, Strategy.emitCallable, Strategy.disallowed, h]
    | peering index =>
      simp only [emissionOf_peering, Strategy.emitPeer, Strategy.emitPeer.missing, h]
      split
      · split <;> rfl
      · rfl
    | custom cs => exact absurd hs not_custom_of_select

end Converter

end Marshal
