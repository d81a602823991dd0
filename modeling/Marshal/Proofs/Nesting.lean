import Marshal.Proofs.Callables
import Mathlib.Data.List.Induction

/-! # Chains of conversions

Conversions are nested along a chain of types, and each knows the fingerprints of all those around it. A chain goes on
until a type would be too deep in it, or is a callable that has the fingerprint of a type further out; this type is
reported with its position. Types that are no callables may come back any number of times. -/

namespace Marshal.Conversion
variable {cat : Catalog} {s : Settings}

/-- The conversion of the last part, each of the parts nested inside the one before it. -/
def chain (cat : Catalog) (s : Settings) (c : Conversion) (parts : List (HostType × String)) :
    Except ConversionError Conversion :=
  parts.foldlM (fun c p => c.nested cat s p.1 p.2) c

theorem chain_append_of_ok {c c' : Conversion} {xs : List (HostType × String)} (h : chain cat s c xs = .ok c')
    (ys : List (HostType × String)) : chain cat s c (xs ++ ys) = chain cat s c' ys := by
  have happend : chain cat s c (xs ++ ys) = (chain cat s c xs).bind fun c' => chain cat s c' ys := List.foldlM_append
  rw [happend, h]
  rfl

theorem chain_cons (c : Conversion) (t : HostType) (name : String) (rest : List (HostType × String)) :
    chain cat s c ((t, name) :: rest) = (c.nested cat s t name).bind fun c' => chain cat s c' rest :=
  List.foldlM_cons

/-- Of these types, each nested inside the one before it, the one at position `i` is too deep, or it is a callable with
    the fingerprint of one further out. -/
def Barred (cat : Catalog) (s : Settings) (types : List HostType) (i : Nat) : Prop :=
  s.maxDepth < i ∨
    ∃ r, types[i]? = some (.object r) ∧ isCallable cat s (.object r) = true ∧
      ∃ j t, j < i ∧ types[j]? = some t ∧ t.fingerprint = r.id

/-- What comes later does not matter. -/
theorem barred_append {types more : List HostType} {i : Nat} (hi : i < types.length) :
    Barred cat s (types ++ more) i ↔ Barred cat s types i := by
  have hsame : ∀ j, j ≤ i → (types ++ more)[j]? = types[j]? := fun j hj => List.getElem?_append_left (by omega)
  unfold Barred
  rw [hsame i (Nat.le_refl i)]
  refine or_congr_right (exists_congr fun r => and_congr_right fun _ => and_congr_right fun _ => ?_)
  refine exists_congr fun j => exists_congr fun t => and_congr_right fun hj => ?_
  rw [hsame j (Nat.le_of_lt hj)]

theorem barred_concat {above : List HostType} {t : HostType} : Barred cat s (above ++ [t]) above.length ↔
    s.maxDepth < above.length ∨
      ∃ r, t = .object r ∧ isCallable cat s t = true ∧ r.id ∈ above.map (·.fingerprint) := by
  unfold Barred
  rw [List.getElem?_concat_length]
  refine or_congr_right (exists_congr fun r => ?_)
  rw [Option.some.injEq]
  refine and_congr_right fun ht => ?_
  subst ht
  refine and_congr_right fun _ => ?_
  rw [List.mem_map]
  constructor
  · rintro ⟨j, u, hj, hu, hid⟩
    rw [List.getElem?_append_left hj] at hu
    exact ⟨u, List.mem_of_getElem? hu, hid⟩
  · rintro ⟨u, hmem, hid⟩
    obtain ⟨j, hu⟩ := List.getElem?_of_mem hmem
    obtain ⟨hj, -⟩ := List.getElem?_eq_some_iff.mp hu
    exact ⟨j, u, hj, by rw [List.getElem?_append_left hj, hu], hid⟩

/-! ### One conversion more -/

/-- The fingerprints of the conversions around this one, and its own. -/
def trail (c : Conversion) : List Fingerprint := c.enclosing ++ [c.type.fingerprint]

theorem length_trail (c : Conversion) : c.trail.length = c.depth + 1 := List.length_append

theorem reenters_iff_mem_trail {c : Conversion} {t : HostType} :
    c.reenters cat s t = true ↔ ∃ r, t = .object r ∧ isCallable cat s t = true ∧ r.id ∈ c.trail := by
  cases t with
  | primitive p => exact ⟨fun h => (nomatch h), fun ⟨_, h, _⟩ => (nomatch h)⟩
  | array e => exact ⟨fun h => (nomatch h), fun ⟨_, h, _⟩ => (nomatch h)⟩
  | object r => simp [reenters, HostType.classRef?, trail, and_comm, or_comm]

section
variable {c : Conversion} {above : List HostType} {t : HostType} (hc : c.trail = above.map (·.fingerprint))
include hc

theorem depth_of_trail : c.depth + 1 = above.length := by
  rw [← length_trail, hc, List.length_map]

theorem barred_iff_nested : Barred cat s (above ++ [t]) above.length ↔
    (c.reenters cat s t || decide (s.maxDepth < c.depth + 1)) = true := by
  rw [barred_concat, ← hc, ← reenters_iff_mem_trail, Bool.or_eq_true, decide_eq_true_eq, depth_of_trail hc, or_comm]

theorem nested_of_barred (h : Barred cat s (above ++ [t]) above.length) (name : String) :
    c.nested cat s t name = .error (.recursive t.source above.length) := by
  rw [nested, if_pos ((barred_iff_nested hc).mp h), depth_of_trail hc]

theorem nested_of_not_barred (h : ¬Barred cat s (above ++ [t]) above.length) (name : String) :
    c.nested cat s t name = .ok ⟨t, name, c.trail⟩ := by
  rw [nested, if_neg (mt (barred_iff_nested hc).mpr h)]
  rfl

end

/-! ### The whole chain -/

section
variable {t₀ : HostType} {name₀ : String} {parts : List (HostType × String)}

theorem depth_of_trail_eq {c : Conversion} (hc : c.trail = (t₀ :: parts.map (·.1)).map (·.fingerprint)) :
    c.depth = parts.length := by
  have h := depth_of_trail hc
  rwa [List.length_cons, List.length_map, Nat.add_right_cancel_iff] at h

/-- The whole chain comes about if nothing in it is barred, and the last conversion knows all of it. -/
theorem chain_of_not_barred (h : ∀ n < parts.length, ¬Barred cat s (t₀ :: parts.map (·.1)) (n + 1)) :
    ∃ c, chain cat s ⟨t₀, name₀, []⟩ parts = .ok c ∧ c.trail = (t₀ :: parts.map (·.1)).map (·.fingerprint) ∧
      ((t₀, name₀) :: parts).getLast? = some (c.type, c.name) := by
  induction parts using List.reverseRecOn with
  | nil => exact ⟨_, rfl, rfl, rfl⟩
  | append_singleton parts p ih =>
    obtain ⟨t, name⟩ := p
    have htypes : t₀ :: (parts ++ [(t, name)]).map (·.1) = (t₀ :: parts.map (·.1)) ++ [t] := by simp
    rw [htypes] at h ⊢
    have hlast : (t₀ :: parts.map (·.1)).length = parts.length + 1 := by simp
    obtain ⟨c, hchain, htrail, -⟩ := ih fun n hn => by
      rw [← @barred_append cat s _ [t] _ (by omega)]
      exact h n (by rw [List.length_append]; omega)
    refine ⟨⟨t, name, c.trail⟩, ?_, ?_, ?_⟩
    · have hnot := h parts.length (by rw [List.length_append]; exact Nat.lt_succ_self _)
      rw [← hlast] at hnot
      rw [chain_append_of_ok hchain, chain_cons, nested_of_not_barred htrail hnot]
      rfl
    · rw [List.map_append, ← htrail]
      rfl
    · rw [← List.cons_append, List.getLast?_concat]

theorem chain_append_of_barred {before after : List (HostType × String)} {t : HostType} {name : String}
    (hbarred : Barred cat s (t₀ :: (before ++ (t, name) :: after).map (·.1)) (before.length + 1))
    (hfirst : ∀ m < before.length, ¬Barred cat s (t₀ :: (before ++ (t, name) :: after).map (·.1)) (m + 1)) :
    (∃ c, chain cat s ⟨t₀, name₀, []⟩ before = .ok c) ∧
      chain cat s ⟨t₀, name₀, []⟩ (before ++ (t, name) :: after) =
        .error (.recursive t.source (before.length + 1)) := by
  have htypes : t₀ :: (before ++ (t, name) :: after).map (·.1) =
      (t₀ :: before.map (·.1)) ++ t :: after.map (·.1) := by
    rw [List.map_append]
    rfl
  have hlength : (t₀ :: before.map (·.1)).length = before.length + 1 := by simp
  rw [htypes] at hbarred hfirst
  obtain ⟨c, hchain, htrail, -⟩ := @chain_of_not_barred cat s t₀ name₀ before fun m hm => by
    rw [← barred_append (by omega)]
    exact hfirst m hm
  refine ⟨⟨c, hchain⟩, ?_⟩
  rw [List.append_cons, barred_append (by simp), ← hlength] at hbarred
  rw [chain_append_of_ok hchain, chain_cons, nested_of_barred htrail hbarred, hlength]
  rfl

/-- The chain ends at the first type that is barred, whatever is to come after it. -/
theorem chain_of_barred {n : Nat} (hn : n < parts.length) (hbarred : Barred cat s (t₀ :: parts.map (·.1)) (n + 1))
    (hfirst : ∀ m < n, ¬Barred cat s (t₀ :: parts.map (·.1)) (m + 1)) :
    (∃ c, chain cat s ⟨t₀, name₀, []⟩ (parts.take n) = .ok c) ∧
      chain cat s ⟨t₀, name₀, []⟩ parts = .error (.recursive parts[n].1.source (n + 1)) := by
  have hsplit : parts.take n ++ (parts[n].1, parts[n].2) :: parts.drop (n + 1) = parts := by
    show parts.take n ++ parts[n] :: parts.drop (n + 1) = parts
    rw [List.getElem_cons_drop, List.take_append_drop]
  have hlength : (parts.take n).length = n := List.length_take_of_le (Nat.le_of_lt hn)
  have h := @chain_append_of_barred cat s t₀ name₀ (parts.take n) (parts.drop (n + 1)) parts[n].1 parts[n].2
  rw [hsplit, hlength] at h
  exact h hbarred hfirst

theorem not_barred_of_chain {c : Conversion} (h : chain cat s ⟨t₀, name₀, []⟩ parts = .ok c) :
    ∀ n < parts.length, ¬Barred cat s (t₀ :: parts.map (·.1)) (n + 1) := by
  -- By induction on the position: at the first one that is barred the chain would have ended.
  intro n
  induction n using Nat.strongRecOn with
  | _ n ih =>
    intro hn hbarred
    rw [(chain_of_barred hn hbarred fun m hm => ih m hm (Nat.lt_trans hm hn)).2] at h
    cases h

theorem depth_le_of_chain {c : Conversion} (h : chain cat s ⟨t₀, name₀, []⟩ parts = .ok c) :
    c.depth ≤ s.maxDepth := by
  have hnot := not_barred_of_chain h
  obtain ⟨c', hc', htrail, -⟩ := chain_of_not_barred hnot
  cases hc'.symm.trans h
  have hdepth := depth_of_trail_eq htrail
  cases hparts : parts.length with
  | zero => omega
  | succ n =>
    have hlt := mt Or.inl (hnot n (by omega))
    omega

/-- No callable comes back below itself. -/
theorem fingerprint_ne_of_chain {c : Conversion} (h : chain cat s ⟨t₀, name₀, []⟩ parts = .ok c) {i j : Nat}
    (hij : j < i) {r : ClassRef} (hi : (t₀ :: parts.map (·.1))[i]? = some (.object r))
    (hcallable : isCallable cat s (.object r) = true) {t : HostType} (hj : (t₀ :: parts.map (·.1))[j]? = some t) :
    t.fingerprint ≠ r.id := by
  obtain ⟨hlength, -⟩ := List.getElem?_eq_some_iff.mp hi
  rw [List.length_cons, List.length_map] at hlength
  obtain ⟨n, rfl⟩ : ∃ n, i = n + 1 := ⟨i - 1, by omega⟩
  exact fun hid => not_barred_of_chain h n (by omega) (Or.inr ⟨r, hi, hcallable, j, t, hij, hj, hid⟩)

/-- Types that are no callables come back any number of times. -/
theorem not_barred_of_not_callable (hlength : parts.length ≤ s.maxDepth)
    (hplain : ∀ p ∈ parts, isCallable cat s p.1 = false) :
    ∀ n < parts.length, ¬Barred cat s (t₀ :: parts.map (·.1)) (n + 1) := by
  rintro n hn (hdepth | ⟨r, hr, hcallable, -⟩)
  · omega
  · rw [List.getElem?_cons_succ, List.getElem?_map, Option.map_eq_some_iff] at hr
    obtain ⟨p, hp, hr⟩ := hr
    rw [← hr, hplain p (List.mem_of_getElem? hp)] at hcallable
    cases hcallable

/-- Along a chain of types, each converted inside the one before it, the conversions end at the first one that is too
    deep or is a callable on the way already, and this one is reported. If there is none, they all come about, and the
    last one knows those around it. So no chain gets deeper than what is configured and no callable comes back below
    itself, but types that are no callables may. -/
theorem chain_outcome (cat : Catalog) (s : Settings) (t₀ : HostType) (name₀ : String)
    (parts : List (HostType × String)) :
    (∀ (n : Nat) (hn : n < parts.length), Barred cat s (t₀ :: parts.map (·.1)) (n + 1) →
      (∀ m < n, ¬Barred cat s (t₀ :: parts.map (·.1)) (m + 1)) →
        (∃ c, chain cat s ⟨t₀, name₀, []⟩ (parts.take n) = .ok c) ∧
          chain cat s ⟨t₀, name₀, []⟩ parts = .error (.recursive parts[n].1.source (n + 1))) ∧
    ((∀ n < parts.length, ¬Barred cat s (t₀ :: parts.map (·.1)) (n + 1)) →
      ∃ c, chain cat s ⟨t₀, name₀, []⟩ parts = .ok c ∧ c.depth = parts.length ∧
        c.enclosing = ((t₀ :: parts.map (·.1)).take parts.length).map (·.fingerprint) ∧
        ((t₀, name₀) :: parts).getLast? = some (c.type, c.name)) ∧
    (∀ c, chain cat s ⟨t₀, name₀, []⟩ parts = .ok c → c.depth ≤ s.maxDepth ∧
      ∀ (i j : Nat) (r : ClassRef) (t : HostType), j < i → (t₀ :: parts.map (·.1))[i]? = some (.object r) →
        isCallable cat s (.object r) = true → (t₀ :: parts.map (·.1))[j]? = some t → t.fingerprint ≠ r.id) ∧
    (parts.length ≤ s.maxDepth → (∀ p ∈ parts, isCallable cat s p.1 = false) →
      ∃ c, chain cat s ⟨t₀, name₀, []⟩ parts = .ok c) := by
  refine ⟨fun n hn hbarred hfirst => chain_of_barred hn hbarred hfirst, fun h => ?_, fun c hc => ?_,
    fun hs hplain => ?_⟩
  · obtain ⟨c, hc, htrail, hlast⟩ := @chain_of_not_barred cat s t₀ name₀ parts h
    have hdepth := depth_of_trail_eq htrail
    refine ⟨c, hc, hdepth, ?_, hlast⟩
    rw [List.map_take, ← htrail, trail, ← hdepth]
    exact (List.take_left' rfl).symm
  · exact ⟨depth_le_of_chain hc, fun i j r t hij hi hcallable hj => fingerprint_ne_of_chain hc hij hi hcallable hj⟩
  · obtain ⟨c, hc, -⟩ := @chain_of_not_barred cat s t₀ name₀ parts (not_barred_of_not_callable hs hplain)
    exact ⟨c, hc⟩

/-- What is inside a listener, and the listener once more. -/
def relistening : List (HostType × String) :=
  [(.primitive .int, "count"), (.named RuntimeType.string, "text"), (.named "demo.Listener", "next"),
    (.primitive .int, "more")]

theorem not_callable_relistening : ∀ p ∈ relistening.take 2, isCallable Converter.listening {} p.1 = false := by
  decide +kernel

theorem barred_relistening :
    Barred Converter.listening {} (.named "demo.Listener" :: relistening.map (·.1)) 3 :=
  Or.inr ⟨_, rfl, Converter.listening_evaluated.1.2.1, 0, _, by decide, rfl, rfl⟩

theorem not_barred_relistening {n : Nat} (hn : n < 2) :
    ¬Barred Converter.listening {} (.named "demo.Listener" :: relistening.map (·.1)) (n + 1) := by
  -- What follows the first three types does not matter for the first two parts.
  show ¬Barred _ _ ((.named "demo.Listener" :: (relistening.take 2).map (·.1)) ++ (relistening.drop 2).map (·.1)) _
  rw [barred_append (Nat.succ_lt_succ hn)]
  exact not_barred_of_not_callable (by decide) not_callable_relistening n hn

theorem chain_outcome_relistening :
    chain Converter.listening {} ⟨.named "demo.Listener", "f", []⟩ relistening =
        .error (.recursive "demo.Listener" 3) ∧
      ∃ c, chain Converter.listening {} ⟨.named "demo.Listener", "f", []⟩ (relistening.take 2) = .ok c ∧
        c.depth = 2 ∧ c.depth ≤ 32 ∧
        c.enclosing = [HostType.fingerprint (.named "demo.Listener"), HostType.fingerprint (.primitive .int)] := by
  obtain ⟨hends, -⟩ := chain_outcome Converter.listening {} (.named "demo.Listener") "f" relistening
  obtain ⟨-, hgoes, hbound, hplain⟩ :=
    chain_outcome Converter.listening {} (.named "demo.Listener") "f" (relistening.take 2)
  obtain ⟨-, herror⟩ := hends 2 (by decide) barred_relistening fun m hm => not_barred_relistening hm
  obtain ⟨c, hc, hdepth, henclosing, -⟩ :=
    hgoes (not_barred_of_not_callable (by decide) not_callable_relistening)
  obtain ⟨c', hc'⟩ := hplain (by decide) not_callable_relistening
  cases hc.symm.trans hc'
  exact ⟨herror, c, hc, hdepth, (hbound c hc).1, henclosing⟩

end

end Marshal.Conversion
