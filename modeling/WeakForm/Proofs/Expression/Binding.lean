import WeakForm.Kernel
import WeakForm.Proofs.Expression.Evaluating
import WeakForm.Proofs.Expression.References
import WeakForm.Proofs.Expression.Writing
import WeakForm.Proofs.RealScalar

/-!
# Binding names

A text is accepted when all names of its expression are defined or reserved. The definitions that
are found in the text are then those of the names of the expression, so each of them is looked up
with success and no other definition matters. A name that is not defined is therefore always found
before anything is evaluated; only a constant is refused earlier, when it has a reserved name.
-/

namespace WeakForm

namespace Expr

theorem isValid_of_mem_names {e : Expr} (he : e.isWellFormed = true) {name : String}
    (h : name ∈ e.names) : Names.isValid name = true := by
  induction e with
  | number d => cases h
  | symbol s =>
    obtain rfl := List.mem_singleton.mp h
    exact he
  | array rows ih =>
    rw [names, rowsNames_eq, List.mem_flatMap] at h
    obtain ⟨row, hrow, h⟩ := h
    obtain ⟨e, hmem, h⟩ := List.mem_flatMap.mp h
    exact ih row hrow e hmem ((isWellFormed_array.mp he).2 row hrow e hmem) h
  | sign s e ih => exact ih he h
  | binary op a b iha ihb =>
    rw [isWellFormed, Bool.and_eq_true] at he
    rcases List.mem_append.mp h with h | h
    · exact iha he.1 h
    · exact ihb he.2 h
  | transpose e ih => exact ih he h

end Expr

namespace Definitions

variable {α : Type} {D D' : Definitions α} {e : Expr} {text name : String}

section Keys

/-- Definitions of valid names that are not reserved. -/
def AreNamed (D : Definitions α) : Prop :=
  ∀ d ∈ D, Names.isValid d.1 = true ∧ Names.isReserved d.1 = false ∧ d.2.isUnnamed = false

/-- All names of the expression are defined, apart from reserved ones. -/
def Covers (D : Definitions α) (e : Expr) : Prop :=
  ∀ name ∈ e.symbols, Names.isReserved name = false → name ∈ D.map Prod.fst

/-- The names of an expression that are neither defined nor reserved. -/
def missing (D : Definitions α) (e : Expr) : List String :=
  e.symbols.filter fun name => !Names.isReserved name && !(D.map Prod.fst).contains name

theorem missing_eq_nil : D.missing e = [] ↔ D.Covers e := by
  simp [missing, Covers, List.filter_eq_nil_iff]

theorem lookup_isSome : (D.lookup name).isSome = true ↔ name ∈ D.map Prod.fst := by
  induction D with
  | nil => simp
  | cons d D ih =>
    obtain ⟨key, v⟩ := d
    by_cases h : name = key
    · simp [h]
    · have hkey : (name == key) = false := by simpa using h
      rw [List.lookup_cons, hkey]
      simp [ih, h]

/-- Leaving out the definitions of other names does not matter. -/
theorem lookup_filter {keep : String → Bool} (h : keep name = true) :
    (D.filter fun d => keep d.1).lookup name = D.lookup name := by
  induction D with
  | nil => rfl
  | cons d D ih =>
    obtain ⟨key, v⟩ := d
    by_cases hkey : name = key
    · subst hkey
      simp [h]
    · have hne : (name == key) = false := by simpa using hkey
      rw [List.filter_cons, List.lookup_cons, hne]
      split
      · rw [List.lookup_cons, hne, ih]
      · exact ih

/-- Definitions that agree about the names of an expression miss the same ones. -/
theorem missing_congr (h : ∀ name ∈ e.symbols, D.lookup name = D'.lookup name) :
    D.missing e = D'.missing e := by
  refine List.filter_congr fun name hname => ?_
  have hkeys : name ∈ D.map Prod.fst ↔ name ∈ D'.map Prod.fst := by
    rw [← lookup_isSome, ← lookup_isSome, h name hname]
  rw [Bool.eq_iff_iff]
  simp [hkeys]

end Keys

variable [Scalar α]

/-- The meaning of a name at a site; `fallback` gives one to a name that is not defined. -/
def meaning (D : Definitions α) (fallback : String → Except (Error α) (Value α)) (site : Site α)
    (name : String) : Except (Error α) (Value α) :=
  if Names.isReserved name then Kernel.siteSymbol site name
  else
    match D.lookup name with
    | some (.constant v) => .ok v
    | some (.kernel k) => (k.integrand site).map Value.ofTensor
    | _ => fallback name

/-- Without a fallback a name that is not defined is an error. -/
theorem resolve_eq_meaning (D : Definitions α) (site : Site α) :
    Kernel.resolve D site = D.meaning (fun name => .error (.unboundName name)) site := rfl

/-- A name of the expression that is defined is never given a meaning by the fallback. -/
theorem meaning_eq (hD : D.AreNamed) (hcovers : D.Covers e) (h : name ∈ e.symbols)
    (fallback fallback' : String → Except (Error α) (Value α)) (site : Site α) :
    D.meaning fallback site name = D.meaning fallback' site name := by
  unfold meaning
  cases hreserved : Names.isReserved name with
  | true => rfl
  | false =>
    obtain ⟨d, hd⟩ := Option.isSome_iff_exists.mp (lookup_isSome.mpr (hcovers name h hreserved))
    have hnamed : d.isUnnamed = false := by
      obtain ⟨front, back, rfl, -⟩ := List.lookup_eq_some_iff.mp hd
      exact (hD (name, d) (by simp)).2.2
    rw [hd]
    cases d with
    | constant v => rfl
    | kernel k => rfl
    | unnamed => cases hnamed

theorem meaning_congr (h : D.lookup name = D'.lookup name)
    (fallback : String → Except (Error α) (Value α)) (site : Site α) :
    D.meaning fallback site name = D'.meaning fallback site name := by
  unfold meaning
  rw [h]

/-- The definitions that are found in a text give the names of its expression their meanings. -/
theorem eval_filter (hparse : Expr.parse text = .ok e) (hD : D.AreNamed) (hcovers : D.Covers e)
    (fallback : String → Except (Error α) (Value α)) (site : Site α) :
    e.eval (Kernel.resolve (D.filter fun d => Names.references text d.1) site) =
      e.eval (D.meaning fallback site) := by
  refine Expr.eval_congr fun name hname => ?_
  have hmem := Expr.mem_symbols.mpr hname
  have hvalid := Expr.isValid_of_mem_names (Expr.isWellFormed_of_parse hparse) hname
  have hfound := (Expr.references_iff_mem_symbols hparse hvalid).mpr hmem
  rw [resolve_eq_meaning, meaning_congr (lookup_filter hfound)]
  exact meaning_eq hD hcovers hmem _ _ site

omit [Scalar α] in
/-- Binding fails exactly for the names that are missing. -/
theorem bind_eq (hparse : Expr.parse text = .ok e) (hD : D.AreNamed) :
    Kernel.bind text e D =
      if D.missing e = [] then .ok (D.filter fun d => Names.references text d.1)
      else .error (.undefinedNames (D.missing e) text) := by
  have hunnamed : (D.any fun d => d.2.isUnnamed) = false :=
    List.any_eq_false.mpr fun d hd => by simp [(hD d hd).2.2]
  have hmissing : missing (D.filter fun d => Names.references text d.1) e = D.missing e := by
    refine missing_congr fun name hname => lookup_filter ?_
    have hvalid := Expr.isValid_of_mem_names (Expr.isWellFormed_of_parse hparse)
      (Expr.mem_symbols.mp hname)
    exact (Expr.references_iff_mem_symbols hparse hvalid).mpr hname
  rw [missing] at hmissing
  unfold Kernel.bind
  simp only [hunnamed, hmissing, Bool.false_eq_true, if_false, List.isEmpty_iff]

end Definitions

section Acceptance

variable {α : Type} [Scalar α] {D : Definitions α} {e : Expr} {text : String}

/-- A text is compiled unless a name is missing; its value then never asks the fallback. -/
theorem Kernel.compile_eq (hparse : Expr.parse text = .ok e) (hD : D.AreNamed) (label : String)
    (fallback : String → Except (Error α) (Value α)) :
    compile label text D =
      if D.missing e = [] then
        .ok ⟨label, some text, fun site => e.eval (D.meaning fallback site) >>= Value.toReals⟩
      else .error (.undefinedNames (D.missing e) text) := by
  rw [compile_of_parse label D hparse, Definitions.bind_eq hparse hD]
  split_ifs with hmissing
  · simp only [Except.map, Definitions.eval_filter hparse hD
      (Definitions.missing_eq_nil.mp hmissing) fallback]
  · rfl

/-- A constant is refused for its reserved names first, then for those that are missing. -/
theorem Expr.evalConstant_eq (hparse : parse text = .ok e) (hD : D.AreNamed)
    (fallback : String → Except (Error α) (Value α)) :
    evalConstant text D =
      if e.symbols.filter Names.isReserved = [] then
        if D.missing e = [] then e.eval (D.meaning fallback .absent)
        else .error (.undefinedNames (D.missing e) text)
      else .error (.reservedInConstant text (e.symbols.filter Names.isReserved)) := by
  rw [evalConstant_of_parse D hparse, Definitions.bind_eq hparse hD]
  simp only [evalOutside]
  split_ifs with hreserved hmissing
  · rw [ok_bind, Definitions.eval_filter hparse hD (Definitions.missing_eq_nil.mp hmissing) fallback]
  · rfl
  · rfl

/-- A kernel is refused for undefined names exactly if a name is missing. -/
theorem Kernel.compile_undefined_iff (hD : D.AreNamed) (label text : String) :
    (∃ names t, compile label text D = .error (.undefinedNames names t)) ↔
      ∃ e, Expr.parse text = .ok e ∧ ¬ D.Covers e := by
  cases hparse : Expr.parse text with
  | error fault => simp [compile_of_parse_error label D hparse]
  | ok e =>
    rw [compile_eq hparse hD label fun name => .error (.unboundName name)]
    split_ifs with hmissing
    · simp [Definitions.missing_eq_nil.mp hmissing]
    · simp [mt Definitions.missing_eq_nil.mpr hmissing]

/-- No evaluation outside of elements fails for want of a meaning. -/
theorem Definitions.lookedUp_eval (hkernels : ∀ d ∈ D, ∀ k, d.2 = .kernel k →
    LookedUp (k.integrand .absent)) (e : Expr) :
    LookedUp (e.eval (D.meaning (fun _ => .error .notText) .absent)) := by
  refine Expr.lookedUp_eval fun name _ => ?_
  unfold meaning
  refine .ite (.error rfl) ?_
  cases hd : D.lookup name with
  | none => exact .error rfl
  | some d =>
    cases d with
    | constant v => exact .ok v
    | kernel k =>
      obtain ⟨front, back, rfl, -⟩ := List.lookup_eq_some_iff.mp hd
      exact (hkernels (name, .kernel k) (by simp) k rfl).map _
    | unnamed => exact .error rfl

/-- A constant is refused for undefined names exactly if a name is missing and none is reserved. -/
theorem Expr.evalConstant_undefined_iff (hD : D.AreNamed) (hkernels : ∀ d ∈ D, ∀ k,
    d.2 = .kernel k → LookedUp (k.integrand .absent)) (text : String) :
    (∃ names t, evalConstant text D = .error (.undefinedNames names t)) ↔
      ∃ e, parse text = .ok e ∧ (∀ name ∈ e.symbols, Names.isReserved name = false) ∧
        ¬ D.Covers e := by
  cases hparse : parse text with
  | error fault => simp [evalConstant_of_parse_error D hparse]
  | ok e =>
    have hreserved : e.symbols.filter Names.isReserved = [] ↔
        ∀ name ∈ e.symbols, Names.isReserved name = false := by
      simp [List.filter_eq_nil_iff]
    rw [evalConstant_eq hparse hD fun _ => .error .notText]
    split_ifs with hnone hmissing
    · have hlookedUp := Definitions.lookedUp_eval hkernels e
      have hcovers := Definitions.missing_eq_nil.mp hmissing
      simp only [Except.ok.injEq, exists_eq_left', hcovers, not_true_eq_false, and_false, iff_false]
      rintro ⟨names, t, h⟩
      exact absurd (hlookedUp _ h) (by simp [Error.isLookup])
    · simpa [mt Definitions.missing_eq_nil.mpr hmissing] using hreserved.mp hnone
    · simp [mt hreserved.mpr hnone]

end Acceptance

/-- In every text that is an expression, the search for names and the reading of the expression find
the same ones. Over definitions of names, a kernel is therefore refused for undefined names exactly
if a name of its expression is missing; a constant exactly if moreover no name is reserved, as it is
refused for its reserved names before. Whatever a fallback says about undefined names, an accepted text
has the same value at every site, so no name is looked up in vain; and the value depends on the
definitions of the names of the expression only. -/
theorem names_found_and_bound {α : Type} [Scalar α] (text : String) :
    (∀ e, Expr.parse text = .ok e → ∀ name, Names.isValid name = true →
      (Names.references text name = true ↔ name ∈ e.symbols)) ∧
    ∀ D : Definitions α, D.AreNamed →
      (∀ label, (∃ names t, Kernel.compile label text D = .error (.undefinedNames names t)) ↔
        ∃ e, Expr.parse text = .ok e ∧ ¬ D.Covers e) ∧
      ((∀ d ∈ D, ∀ k, d.2 = .kernel k → LookedUp (k.integrand .absent)) →
        ((∃ names t, Expr.evalConstant text D = .error (.undefinedNames names t)) ↔
          ∃ e, Expr.parse text = .ok e ∧ (∀ name ∈ e.symbols, Names.isReserved name = false) ∧
            ¬ D.Covers e)) ∧
      ∀ e, Expr.parse text = .ok e →
        ((∃ name ∈ e.symbols, Names.isReserved name = true) → Expr.evalConstant text D =
          .error (.reservedInConstant text (e.symbols.filter Names.isReserved))) ∧
        (D.Covers e → ∀ fallback,
          (∀ label, Kernel.compile label text D =
            .ok ⟨label, some text, fun site => e.eval (D.meaning fallback site) >>= Value.toReals⟩) ∧
          ((∀ name ∈ e.symbols, Names.isReserved name = false) →
            Expr.evalConstant text D = e.eval (D.meaning fallback .absent))) ∧
        ∀ D' : Definitions α, D'.AreNamed →
          (∀ name ∈ e.symbols, D.lookup name = D'.lookup name) →
          (∀ label, Kernel.compile label text D = Kernel.compile label text D') ∧
            Expr.evalConstant text D = Expr.evalConstant text D' := by
  refine ⟨fun e hparse name hname => Expr.references_iff_mem_symbols hparse hname, fun D hD =>
    ⟨fun label => Kernel.compile_undefined_iff hD label text,
      fun hkernels => Expr.evalConstant_undefined_iff hD hkernels text, fun e hparse => ⟨?_, ?_, ?_⟩⟩⟩
  · rintro ⟨name, hname, hreserved⟩
    have hsome : e.symbols.filter Names.isReserved ≠ [] :=
      List.ne_nil_of_mem (List.mem_filter.mpr ⟨hname, hreserved⟩)
    rw [Expr.evalConstant_eq hparse hD fun _ => .error .notText, if_neg hsome]
  · intro hcovers fallback
    have hmissing := Definitions.missing_eq_nil.mpr hcovers
    constructor
    · intro label
      rw [Kernel.compile_eq hparse hD label fallback, if_pos hmissing]
    · intro hreserved
      have hnone : e.symbols.filter Names.isReserved = [] := by
        simpa [List.filter_eq_nil_iff] using hreserved
      rw [Expr.evalConstant_eq hparse hD fallback, if_pos hnone, if_pos hmissing]
  · intro D' hD' hagree
    -- any fallback will do, as long as it is the same one
    let fallback : String → Except (Error α) (Value α) := fun name => .error (.unboundName name)
    have heval (site : Site α) :
        e.eval (D.meaning fallback site) = e.eval (D'.meaning fallback site) :=
      Expr.eval_congr fun name hname =>
        Definitions.meaning_congr (hagree name (Expr.mem_symbols.mpr hname)) fallback site
    constructor
    · intro label
      rw [Kernel.compile_eq hparse hD label fallback, Kernel.compile_eq hparse hD' label fallback,
        Definitions.missing_congr hagree]
      simp only [heval]
    · rw [Expr.evalConstant_eq hparse hD fallback, Expr.evalConstant_eq hparse hD' fallback,
        Definitions.missing_congr hagree, heval]

/-- A name times another one. -/
def productOf (a b : String) : Expr := .binary .mul (.symbol a) (.symbol b)

/-- The name of a product is found in its text, and the product is a constant where it is defined
and undefined where it is not. -/
theorem names_found_and_bound_in_square :
    Names.references "q*q" "q" = true ∧
      Expr.evalConstant "q*q" [("q", .constant (.plain (.integer 2) : Value ℝ))] =
        .ok (.plain (.integer 4)) ∧
      (∃ names t, Expr.evalConstant "q*q" ([] : Definitions ℝ) =
        .error (.undefinedNames names t)) ∧
      ∃ names t, Kernel.compile "k" "q*q" ([] : Definitions ℝ) =
        .error (.undefinedNames names t) := by
  have hparse : Expr.parse "q*q" = .ok (productOf "q" "q") :=
    Expr.parse_of_write .whereNeeded (by decide) (by decide)
  have hsymbols : ∀ name, name ∈ (productOf "q" "q").symbols ↔ name = "q" := by
    simp [Expr.mem_symbols, productOf, Expr.names]
  have hreserved : ∀ name ∈ (productOf "q" "q").symbols, Names.isReserved name = false := by
    intro name hname
    rw [(hsymbols name).mp hname]
    decide
  have hmissing : ¬ Definitions.Covers (α := ℝ) [] (productOf "q" "q") := by
    intro h
    cases h "q" ((hsymbols "q").mpr rfl) (by decide)
  obtain ⟨hfound, hbound⟩ := names_found_and_bound (α := ℝ) "q*q"
  have hempty : Definitions.AreNamed (α := ℝ) [] := by rintro d ⟨⟩
  have hnamed : Definitions.AreNamed [("q", .constant (.plain (.integer 2) : Value ℝ))] := by
    intro d hd
    obtain rfl := List.mem_singleton.mp hd
    exact ⟨by decide, by decide, rfl⟩
  refine ⟨(hfound _ hparse "q" (by decide)).mpr ((hsymbols "q").mpr rfl), ?_, ?_, ?_⟩
  · have hcovers : Definitions.Covers [("q", .constant (.plain (.integer 2) : Value ℝ))]
        (productOf "q" "q") := by
      intro name hname _
      simp [(hsymbols name).mp hname]
    have hvalue := (((hbound _ hnamed).2.2 _ hparse).2.1 hcovers fun _ => .error .notText).2 hreserved
    rw [hvalue]
    rfl
  · exact ((hbound _ hempty).2.1 (by rintro d ⟨⟩)).mpr ⟨_, hparse, hreserved, hmissing⟩
  · exact ((hbound _ hempty).1 "k").mpr ⟨_, hparse, hmissing⟩

/-- A constant with a reserved name and a missing one is refused for the reserved one. -/
theorem reserved_before_undefined :
    ∃ e, Expr.parse "N*q" = .ok e ∧
      (∃ name ∈ e.symbols, Names.isReserved name = false ∧
        name ∉ ([] : Definitions ℝ).map Prod.fst) ∧
      (∃ names, Expr.evalConstant "N*q" ([] : Definitions ℝ) =
        .error (.reservedInConstant "N*q" names)) ∧
      ¬ ∃ names t, Expr.evalConstant "N*q" ([] : Definitions ℝ) =
        .error (.undefinedNames names t) := by
  have hparse : Expr.parse "N*q" = .ok (productOf "N" "q") :=
    Expr.parse_of_write .whereNeeded (by decide) (by decide)
  have hempty : Definitions.AreNamed (α := ℝ) [] := by rintro d ⟨⟩
  have hsymbols : ∀ name ∈ ["N", "q"], name ∈ (productOf "N" "q").symbols := by
    simp [Expr.mem_symbols, productOf, Expr.names]
  have hreserved : (productOf "N" "q").symbols.filter Names.isReserved ≠ [] :=
    List.ne_nil_of_mem (List.mem_filter.mpr ⟨hsymbols "N" (by simp), by decide⟩)
  have hvalue := Expr.evalConstant_eq hparse hempty fun _ => .error .notText
  rw [if_neg hreserved] at hvalue
  refine ⟨_, hparse, ⟨"q", hsymbols "q" (by simp), by decide, by simp⟩, ⟨_, hvalue⟩, ?_⟩
  rw [hvalue]
  rintro ⟨names, t, h⟩
  cases h

end WeakForm
