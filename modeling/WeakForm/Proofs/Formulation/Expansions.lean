import WeakForm.Formulation
import WeakForm.Proofs.Expression.Binding
import WeakForm.Proofs.Expression.Replacing
import WeakForm.Proofs.Expression.Evaluating
import WeakForm.Proofs.Lists

/-!
# Expanded texts

Beside a formulation stand the texts of the names that are defined by expressions, with the texts of
the names they use put in, and the numbers and arrays that were given directly. The expanded texts
have names of given ones and reserved names only, and an expression over names in use has the same
value as its expansion.
-/

namespace WeakForm

namespace Expr

/-- The trees of texts. -/
def treeOf (texts : List (String × String)) (name : String) : Option Expr :=
  (texts.lookup name).bind fun text => (parse text).toOption

/-- What is put in for a name. -/
def expansion (texts : List (String × String)) (name : String) : Expr :=
  (symbol name).substitute (treeOf texts)

variable {texts : List (String × String)} {name : String}

theorem expansion_of_lookup_eq_none (h : texts.lookup name = none) :
    expansion texts name = symbol name := by
  rw [expansion, substitute, treeOf, h]
  rfl

theorem expansion_of_lookup_eq_some {text : String} {e : Expr} (h : texts.lookup name = some text)
    (hparse : parse text = .ok e) : expansion texts name = e := by
  rw [expansion, substitute, treeOf, h, Option.bind_some, hparse]
  rfl

theorem expansion_congr {texts' : List (String × String)}
    (h : texts.lookup name = texts'.lookup name) : expansion texts name = expansion texts' name := by
  rw [expansion, expansion, substitute, substitute, treeOf, treeOf, h]

/-- The names of an expanded expression are those of what is put in for its names. -/
theorem mem_names_substitute (meaning : String → Option Expr) {e : Expr} {name : String} :
    name ∈ (e.substitute meaning).names ↔
      ∃ n ∈ e.names, name ∈ ((symbol n).substitute meaning).names := by
  induction e with
  | number d => simp [substitute, names]
  | symbol s => simp [names]
  | array rows ih =>
    simp only [substitute, substituteRows_eq, names, rowsNames_eq, List.mem_flatMap, List.mem_map,
      exists_exists_and_eq_and]
    constructor
    · rintro ⟨row, hrow, e, he, hname⟩
      obtain ⟨n, hn, hname⟩ := (ih row hrow e he).mp hname
      exact ⟨n, ⟨row, hrow, e, he, hn⟩, hname⟩
    · rintro ⟨n, ⟨row, hrow, e, he, hn⟩, hname⟩
      exact ⟨row, hrow, e, he, (ih row hrow e he).mpr ⟨n, hn, hname⟩⟩
  | sign s e ih => exact ih
  | binary op a b iha ihb =>
    simp only [substitute, names, List.mem_append]
    rw [iha, ihb]
    constructor
    · rintro (⟨n, hn, h⟩ | ⟨n, hn, h⟩)
      · exact ⟨n, .inl hn, h⟩
      · exact ⟨n, .inr hn, h⟩
    · rintro ⟨n, hn | hn, h⟩
      · exact .inl ⟨n, hn, h⟩
      · exact .inr ⟨n, hn, h⟩
  | transpose e ih => exact ih

end Expr

section Acceptance

variable {D : Definitions ℝ} {text : String}

/-- A constant that is accepted is an expression of defined names. -/
theorem Expr.evalConstant_eq_ok (hD : D.AreNamed) {v : Value ℝ} (h : evalConstant text D = .ok v) :
    ∃ t, parse text = .ok t ∧
      (∀ n ∈ t.names, Names.isReserved n = false ∧ (D.lookup n).isSome = true) ∧
      t.evalOutside D = .ok v := by
  cases hparse : parse text with
  | error fault =>
    rw [evalConstant_of_parse_error D hparse] at h
    cases h
  | ok t =>
    rw [evalConstant_eq hparse hD fun name => .error (.unboundName name)] at h
    split_ifs at h with hreserved hmissing
    refine ⟨t, rfl, fun n hn => ?_, h⟩
    have hn' := mem_symbols.mpr hn
    have hnot : Names.isReserved n = false := by
      simpa using List.filter_eq_nil_iff.mp hreserved n hn'
    exact ⟨hnot, Definitions.lookup_isSome.mpr (Definitions.missing_eq_nil.mp hmissing n hn' hnot)⟩

/-- A weak form that is accepted is an expression of defined and reserved names. -/
theorem Kernel.compile_eq_ok (hD : D.AreNamed) {label : String} {k : Kernel ℝ}
    (h : compile label text D = .ok k) :
    ∃ t, Expr.parse text = .ok t ∧
      (∀ n ∈ t.names, Names.isReserved n = true ∨ (D.lookup n).isSome = true) ∧
      k.integrand = fun site => t.eval (resolve D site) >>= Value.toReals := by
  cases hparse : Expr.parse text with
  | error fault =>
    rw [compile_of_parse_error label D hparse] at h
    cases h
  | ok t =>
    rw [compile_eq hparse hD label fun name => .error (.unboundName name)] at h
    split_ifs at h with hmissing
    cases h
    refine ⟨t, rfl, fun n hn => ?_, rfl⟩
    cases hreserved : Names.isReserved n with
    | true => exact .inl rfl
    | false => exact .inr <| Definitions.lookup_isSome.mpr <|
        Definitions.missing_eq_nil.mp hmissing n (Expr.mem_symbols.mpr hn) hreserved

end Acceptance

namespace Formulation

variable {s : Formulation ℝ} {texts : List (String × String)} {given : Definitions ℝ} {name : String}

/-- The expression put in for a name has the value of the constant everywhere. -/
structure MeansConstant (texts : List (String × String)) (given : Definitions ℝ) (name : String)
    (v : Value ℝ) : Prop where
  isGiven : ∀ n ∈ (Expr.expansion texts name).names,
    Names.isReserved n = false ∧ (given.lookup n).isSome = true
  eval_eq : ∀ site, (Expr.expansion texts name).eval (Kernel.resolve given site) = .ok v

/-- The expression put in for a name has the value of the kernel at every site where it runs in the
reals. -/
structure MeansKernel (texts : List (String × String)) (given : Definitions ℝ) (name : String)
    (k : Kernel ℝ) : Prop where
  isText : (texts.lookup name).isSome = true
  isGiven : ∀ n ∈ (Expr.expansion texts name).names, Names.isReserved n = false →
    (given.lookup n).isSome = true
  alike : ∀ site, Expr.RunsInReals (Kernel.resolve given site) (Expr.expansion texts name) →
    Alike Eq (k.integrand site)
      ((Expr.expansion texts name).eval (Kernel.resolve given site) >>= Value.toReals)

/-- Texts of expressions under valid names, and constants that were given under such. -/
structure IsRecord (texts : List (String × String)) (given : Definitions ℝ) : Prop where
  given_named : ∀ name, (given.lookup name).isSome = true → Names.check (α := ℝ) name = .ok ()
  given_constant : ∀ d ∈ given, ∃ v, d.2 = .constant v
  texts_named : ∀ name, (texts.lookup name).isSome = true → Names.check (α := ℝ) name = .ok ()
  parsed : ∀ name text, texts.lookup name = some text → ∃ e, Expr.parse text = .ok e

/-- What a history keeps: every name means what is put in for it. -/
structure IsExpanded (s : Formulation ℝ) (texts : List (String × String)) (given : Definitions ℝ) :
    Prop extends IsRecord texts given where
  named : ∀ name, (s.nameKind? name).isSome = true → Names.check (α := ℝ) name = .ok ()
  disjoint : ∀ name, (s.constants.lookup name).isSome = true → s.entries.lookup name = none
  constants : ∀ name v, s.constants.lookup name = some v → MeansConstant texts given name v
  entries : ∀ name e, s.entries.lookup name = some e → MeansKernel texts given name e.kernel

section Checks

variable {α : Type} {s : Formulation α}

theorem check_eq_ok : Names.check (α := α) name = .ok () ↔
    Names.isReserved name = false ∧ Names.isValid name = true := by
  unfold Names.check
  cases Names.isReserved name <;> cases Names.isValid name <;> simp

theorem nameKind?_isSome : (s.nameKind? name).isSome = true ↔
    (s.constants.lookup name).isSome = true ∨ (s.entries.lookup name).isSome = true := by
  unfold nameKind?
  cases s.constants.lookup name <;> simp

/-- A name that may be given a meaning has none of another kind. -/
theorem checkNew_eq_ok {kind : NameKind} : s.checkNew name kind = .ok () ↔
    Names.check (α := α) name = .ok () ∧ ∀ current, s.nameKind? name = some current →
      current = kind := by
  rw [checkNew, bind_eq_ok]
  constructor
  · rintro ⟨⟨⟩, hcheck, h⟩
    refine ⟨hcheck, fun current hcurrent => ?_⟩
    rw [hcurrent] at h
    by_contra hne
    simp [hne] at h
  · rintro ⟨hcheck, hkind⟩
    refine ⟨(), hcheck, ?_⟩
    cases hcurrent : s.nameKind? name with
    | none => rfl
    | some current => exact if_pos (hkind current hcurrent)

theorem entries_lookup_of_checkNew (h : s.checkNew name .constant = .ok ())
    (hdisjoint : (s.constants.lookup name).isSome = true → s.entries.lookup name = none) :
    s.entries.lookup name = none := by
  have hkind := (checkNew_eq_ok.mp h).2
  unfold nameKind? at hkind
  cases hconstant : s.constants.lookup name with
  | some v => exact hdisjoint (by simp [hconstant])
  | none =>
    cases hentry : s.entries.lookup name with
    | none => rfl
    | some e =>
      rw [hconstant, hentry] at hkind
      have hkind := hkind _ rfl
      cases hk : e.kind <;> simp [hk, EntryKind.toNameKind] at hkind

theorem constants_lookup_of_checkNew {kind : EntryKind}
    (h : s.checkNew name kind.toNameKind = .ok ()) : s.constants.lookup name = none := by
  have hkind := (checkNew_eq_ok.mp h).2
  unfold nameKind? at hkind
  cases hconstant : s.constants.lookup name with
  | none => rfl
  | some v =>
    rw [hconstant] at hkind
    have hkind := hkind _ rfl
    cases kind <;> simp [EntryKind.toNameKind] at hkind

theorem addEntry_eq_ok [Scalar α] {m : Mesh α} {s' : Formulation α} {kind : EntryKind}
    {source : Kernel.Source α} {boundary : Option TagId} :
    s.addEntry m kind name source boundary = .ok s' ↔ s.checkNew name kind.toNameKind = .ok () ∧
      (∀ tag, boundary = some tag → ∃ r, m.boundary tag = .ok r) ∧
      ∃ k, Kernel.ofSource name source s.definitions = .ok k ∧
        s' = { s with entries := assign name ⟨kind, k, boundary, none⟩ s.entries } := by
  rw [addEntry, bind_eq_ok]
  constructor
  · rintro ⟨⟨⟩, hcheck, h⟩
    cases boundary with
    | none =>
      obtain ⟨k, hk, h⟩ := bind_eq_ok.mp h
      cases h
      exact ⟨hcheck, nofun, k, hk, rfl⟩
    | some tag =>
      obtain ⟨⟨⟩, htag, h⟩ := bind_eq_ok.mp h
      obtain ⟨r, hr, -⟩ := map_eq_ok.mp htag
      obtain ⟨k, hk, h⟩ := bind_eq_ok.mp h
      cases h
      exact ⟨hcheck, fun _ htag => Option.some.inj htag ▸ ⟨r, hr⟩, k, hk, rfl⟩
  · rintro ⟨hcheck, hboundary, k, hk, rfl⟩
    refine ⟨(), hcheck, ?_⟩
    cases boundary with
    | none =>
      rw [hk]
      rfl
    | some tag =>
      obtain ⟨r, hr⟩ := hboundary tag rfl
      dsimp only
      rw [hr, hk]
      rfl

end Checks

section Frames

variable {texts' : List (String × String)} {given' : Definitions ℝ}

theorem resolve_congr {n : String} (h : given'.lookup n = given.lookup n) (site : Site ℝ) :
    Kernel.resolve given' site n = Kernel.resolve given site n :=
  Definitions.meaning_congr h (fun name => .error (.unboundName name)) site

/-- The meaning of a name does not change with that of others. -/
theorem MeansConstant.congr {v : Value ℝ} (h : MeansConstant texts given name v)
    (htext : texts'.lookup name = texts.lookup name)
    (hgiven : ∀ n, (given.lookup n).isSome = true → given'.lookup n = given.lookup n) :
    MeansConstant texts' given' name v := by
  have hexpansion := Expr.expansion_congr htext
  constructor
  · intro n hn
    rw [hexpansion] at hn
    obtain ⟨hreserved, hsome⟩ := h.isGiven n hn
    exact ⟨hreserved, by rwa [hgiven n hsome]⟩
  · intro site
    rw [hexpansion, ← h.eval_eq site]
    exact Expr.eval_congr fun n hn => resolve_congr (hgiven n (h.isGiven n hn).2) site

theorem MeansKernel.congr {k : Kernel ℝ} (h : MeansKernel texts given name k)
    (htext : texts'.lookup name = texts.lookup name)
    (hgiven : ∀ n, (given.lookup n).isSome = true → given'.lookup n = given.lookup n) :
    MeansKernel texts' given' name k := by
  have hexpansion := Expr.expansion_congr htext
  have hresolve (site : Site ℝ) (n : String) (hn : n ∈ (Expr.expansion texts name).names) :
      Kernel.resolve given' site n = Kernel.resolve given site n := by
    cases hreserved : Names.isReserved n with
    | true => simp [Kernel.resolve, hreserved]
    | false => exact resolve_congr (hgiven n (h.isGiven n hn hreserved)) site
  constructor
  · rw [htext]
    exact h.isText
  · intro n hn hreserved
    rw [hexpansion] at hn
    have hsome := h.isGiven n hn hreserved
    rwa [hgiven n hsome]
  · intro site hruns
    rw [hexpansion] at hruns ⊢
    rw [Expr.eval_congr (hresolve site)]
    exact h.alike site (hruns.congr (hresolve site))

end Frames

section Expansions

variable (h : IsExpanded s texts given)
include h

theorem IsExpanded.lookup_eq_none_of_isReserved (hreserved : Names.isReserved name = true) :
    texts.lookup name = none := by
  by_contra hne
  have hcheck := check_eq_ok.mp (h.texts_named name (Option.isSome_iff_ne_none.mpr hne))
  rw [hreserved] at hcheck
  cases hcheck.1

theorem IsExpanded.reads :
    Lexeme.Reads (fun n => texts.lookup n) (Expr.treeOf texts) := by
  intro n
  dsimp only [Expr.treeOf]
  cases htext : texts.lookup n with
  | none => rfl
  | some text =>
    obtain ⟨e, he⟩ := h.parsed n text htext
    exact ⟨e, by simp [he, Except.toOption], he⟩

/-- Definitions of a formulation are definitions of names. -/
theorem IsExpanded.areNamed : s.definitions.AreNamed := by
  intro d hd
  have hnamed : (s.nameKind? d.1).isSome = true ∧ d.2.isUnnamed = false := by
    rw [nameKind?_isSome, List.lookup_isSome_iff, List.lookup_isSome_iff]
    rcases List.mem_append.mp hd with hd | hd
    · obtain ⟨c, hc, rfl⟩ := List.mem_map.mp hd
      exact ⟨.inl ⟨c, hc, beq_self_eq_true _⟩, rfl⟩
    · obtain ⟨e, he, rfl⟩ := List.mem_map.mp hd
      exact ⟨.inr ⟨e, he, beq_self_eq_true _⟩, rfl⟩
  obtain ⟨hreserved, hvalid⟩ := check_eq_ok.mp (h.named d.1 hnamed.1)
  exact ⟨hvalid, hreserved, hnamed.2⟩

theorem IsExpanded.given_areNamed : given.AreNamed := by
  intro d hd
  obtain ⟨v, hv⟩ := h.given_constant d hd
  obtain ⟨hreserved, hvalid⟩ := check_eq_ok.mp <| h.given_named d.1 <|
    List.lookup_isSome_iff.mpr ⟨d, hd, beq_self_eq_true _⟩
  exact ⟨hvalid, hreserved, by rw [hv]; rfl⟩

/-- What is put in for a name that is in use leaves reserved and given names only. -/
theorem IsExpanded.isGiven_of_isSome (hname : (s.nameKind? name).isSome = true) {n : String}
    (hn : n ∈ (Expr.expansion texts name).names) (hreserved : Names.isReserved n = false) :
    (given.lookup n).isSome = true := by
  rw [nameKind?_isSome] at hname
  rcases hname with hname | hname
  · obtain ⟨v, hv⟩ := Option.isSome_iff_exists.mp hname
    exact ((h.constants name v hv).isGiven n hn).2
  · obtain ⟨e, he⟩ := Option.isSome_iff_exists.mp hname
    exact (h.entries name e he).isGiven n hn hreserved

/-- A text over names in use, expanded: it is that of an expression of given names. -/
theorem IsExpanded.parse_expand {text : String} {t : Expr} (hparse : Expr.parse text = .ok t)
    (hnames : ∀ n ∈ t.names, Names.isReserved n = true ∨ (s.nameKind? n).isSome = true) :
    Expr.parse (Expr.expand (fun n => texts.lookup n) text) =
        .ok (t.substitute (Expr.treeOf texts)) ∧
      ∀ n ∈ (t.substitute (Expr.treeOf texts)).names, Names.isReserved n = false →
        (given.lookup n).isSome = true := by
  refine ⟨Expr.parse_expand h.reads hparse, fun n hn hreserved => ?_⟩
  obtain ⟨k, hk, hn⟩ := (Expr.mem_names_substitute _).mp hn
  change n ∈ (Expr.expansion texts k).names at hn
  rcases hnames k hk with hkreserved | hkind
  · rw [Expr.expansion_of_lookup_eq_none (h.lookup_eq_none_of_isReserved hkreserved)] at hn
    obtain rfl := List.mem_singleton.mp hn
    rw [hkreserved] at hreserved
    cases hreserved
  · exact h.isGiven_of_isSome hkind hn hreserved

/-- An expression of constants keeps its value when it is expanded. -/
theorem IsExpanded.eval_constants {t : Expr} {v : Value ℝ}
    (hnames : ∀ n ∈ t.names, Names.isReserved n = false ∧ (s.constants.lookup n).isSome = true)
    (hvalue : t.evalOutside (s.constants.map fun c => (c.1, .constant c.2)) = .ok v)
    (site : Site ℝ) :
    (t.substitute (Expr.treeOf texts)).eval (Kernel.resolve given site) = .ok v := by
  rw [Expr.eval_substitute, ← hvalue]
  refine Expr.eval_congr fun n hn => ?_
  obtain ⟨hreserved, hsome⟩ := hnames n hn
  obtain ⟨w, hw⟩ := Option.isSome_iff_exists.mp hsome
  have hright : Kernel.resolve (s.constants.map fun c => (c.1, Definition.constant c.2)) .absent n =
      .ok w := by
    simp [Kernel.resolve, hreserved, lookup_map_value, hw]
  have hleft := (h.constants n w hw).eval_eq site
  rw [Expr.expansion, Expr.eval_substitute, Expr.eval] at hleft
  rw [hright]
  exact hleft

/-- The value of a name at a site is stood for by that of the expression that is put in for it. -/
theorem IsExpanded.alike_resolve {n : String}
    (hname : Names.isReserved n = true ∨ (s.nameKind? n).isSome = true) (site : Site ℝ)
    (hruns : Expr.RunsInReals (Kernel.resolve given site) (Expr.expansion texts n)) :
    Alike Value.StandsFor (Kernel.resolve s.definitions site n)
      ((Expr.expansion texts n).eval (Kernel.resolve given site)) := by
  have hreal := hruns.isReal _ (.refl _)
  have hsame (heq : Kernel.resolve s.definitions site n =
      (Expr.expansion texts n).eval (Kernel.resolve given site)) :
      Alike Value.StandsFor (Kernel.resolve s.definitions site n)
        ((Expr.expansion texts n).eval (Kernel.resolve given site)) := by
    rw [heq]
    cases hvalue : (Expr.expansion texts n).eval (Kernel.resolve given site) with
    | error e => exact .error e e
    | ok v => exact .ok ⟨hreal v hvalue, hreal v hvalue, rfl, id⟩
  cases hreserved : Names.isReserved n with
  | true =>
    refine hsame ?_
    rw [Expr.expansion_of_lookup_eq_none (h.lookup_eq_none_of_isReserved hreserved), Expr.eval]
    simp [Kernel.resolve, hreserved]
  | false =>
    have hdefinitions : s.definitions.lookup n =
        ((s.constants.lookup n).map Definition.constant).or
          ((s.entries.lookup n).map fun e => Definition.kernel e.kernel) := by
      rw [definitions, List.lookup_append, lookup_map_value,
        lookup_map_value fun e : Entry ℝ => Definition.kernel e.kernel]
    cases hconstant : s.constants.lookup n with
    | some v =>
      refine hsame ?_
      rw [(h.constants n v hconstant).eval_eq site]
      simp [Kernel.resolve, hreserved, hdefinitions, hconstant]
    | none =>
      obtain ⟨e, he⟩ : ∃ e, s.entries.lookup n = some e := by
        rw [hreserved, nameKind?_isSome, hconstant] at hname
        simpa [Option.isSome_iff_exists] using hname
      have hresolve : Kernel.resolve s.definitions site n =
          (e.kernel.integrand site).map Value.ofTensor := by
        simp [Kernel.resolve, hreserved, hdefinitions, hconstant, he]
      have hkernel := (h.entries n e he).alike site hruns
      rw [hresolve]
      generalize e.kernel.integrand site = x at hkernel
      cases hvalue : (Expr.expansion texts n).eval (Kernel.resolve given site) with
      | error err =>
        rw [hvalue] at hkernel
        cases hkernel
        exact .error _ _
      | ok v =>
        have hv := hreal v hvalue
        rw [hvalue, ok_bind, Value.toReals_eq hv] at hkernel
        cases hkernel with
        | ok heq =>
          subst heq
          exact .ok ⟨.inr rfl, hv, rfl, fun _ => .inr rfl⟩

end Expansions

end Formulation
end WeakForm
