import Mathlib
import WeakForm.Proofs.Formulation.Registry

/-!
# Histories of definitions

A name means what its expression said when it was defined. This is the same as to put, at that time,
the text of every name it uses in place of the name: then nothing but reserved names and the
numbers and arrays that were given directly is left to look up. Every definition keeps this for the
names that were defined before it, so it holds after every history of definitions. A number that is
given again does not change what was defined with the old one, so both stay on record.
-/

namespace WeakForm
namespace Formulation

/-- Successful definitions of names, starting from none. Beside the formulation go the texts of the
names that are defined by expressions, expanded when they were defined, and the numbers and arrays
that were given directly, each under a name of its own. The first one that is given under a name has
this name; one that is given `again` has a new one, which is then the text of the name. -/
inductive History (m : Mesh ℝ) : Formulation ℝ → List (String × String) → Definitions ℝ → Prop
  | empty {s : Formulation ℝ} (hconstants : s.constants = []) (hentries : s.entries = []) :
      History m s [] []
  | given {s s' : Formulation ℝ} {texts : List (String × String)} {given : Definitions ℝ}
      {name : String} {value : Datum ℝ} {v : Value ℝ} (h : History m s texts given)
      (hdatum : ∀ text, value ≠ .text text) (hvalue : Definition.valueOfData value = .ok v)
      (hnew : given.lookup name = none) (hcall : s.addConstant name value = .ok s') :
      History m s' (unassign name texts) (assign name (.constant v) given)
  | again {s s' : Formulation ℝ} {texts : List (String × String)} {given : Definitions ℝ}
      {name fresh : String} {value : Datum ℝ} {v : Value ℝ} (h : History m s texts given)
      (hdatum : ∀ text, value ≠ .text text) (hvalue : Definition.valueOfData value = .ok v)
      (hgiven : (given.lookup name).isSome = true) (hcheck : Names.check (α := ℝ) fresh = .ok ())
      (hfresh : given.lookup fresh = none) (hcall : s.addConstant name value = .ok s') :
      History m s' (assign name fresh texts) (assign fresh (.constant v) given)
  | constant {s s' : Formulation ℝ} {texts : List (String × String)} {given : Definitions ℝ}
      {name text : String} (h : History m s texts given)
      (hcall : s.addConstant name (.text text) = .ok s') :
      History m s' (assign name (Expr.expand (fun n => texts.lookup n) text) texts) given
  | form {s s' : Formulation ℝ} {texts : List (String × String)} {given : Definitions ℝ}
      {name text : String} {kind : EntryKind} {boundary : Option TagId} (h : History m s texts given)
      (hcall : s.addEntry m kind name (.form (.text text)) boundary = .ok s') :
      History m s' (assign name (Expr.expand (fun n => texts.lookup n) text) texts) given

variable {m : Mesh ℝ} {s s' : Formulation ℝ} {texts : List (String × String)}
  {given : Definitions ℝ} {name : String}

section Records

variable {texts' : List (String × String)} {given' : Definitions ℝ}

/-- A text enters the record. -/
theorem IsRecord.assign_text (h : IsRecord texts given) {text : String} {t : Expr}
    (hcheck : Names.check (α := ℝ) name = .ok ()) (hparse : Expr.parse text = .ok t) :
    IsRecord (assign name text texts) given where
  given_named := h.given_named
  given_constant := h.given_constant
  texts_named n hn := by
    by_cases hname : n = name
    · rw [hname]
      exact hcheck
    · rw [lookup_assign, if_neg (by simpa using hname)] at hn
      exact h.texts_named n hn
  parsed n text' hn := by
    by_cases hname : n = name
    · rw [lookup_assign, if_pos (by simpa using hname)] at hn
      cases hn
      exact ⟨t, hparse⟩
    · rw [lookup_assign, if_neg (by simpa using hname)] at hn
      exact h.parsed n text' hn

/-- A given constant enters the record. -/
theorem IsRecord.assign_given (h : IsRecord texts given)
    (hcheck : Names.check (α := ℝ) name = .ok ()) (v : Value ℝ) :
    IsRecord texts (assign name (.constant v) given) where
  given_named n hn := by
    by_cases hname : n = name
    · rw [hname]
      exact hcheck
    · rw [lookup_assign, if_neg (by simpa using hname)] at hn
      exact h.given_named n hn
  given_constant d hd := by
    rcases mem_assign hd with hd | hd
    · exact ⟨v, hd⟩
    · exact h.given_constant d hd
  texts_named := h.texts_named
  parsed := h.parsed

/-- A text leaves it. -/
theorem IsRecord.unassign (h : IsRecord texts given) (name : String) :
    IsRecord (unassign name texts) given where
  given_named := h.given_named
  given_constant := h.given_constant
  texts_named n hn := by
    rw [lookup_unassign] at hn
    split at hn
    · cases hn
    · exact h.texts_named n hn
  parsed n text hn := by
    rw [lookup_unassign] at hn
    split at hn
    · cases hn
    · exact h.parsed n text hn

/-- A constant is defined. -/
theorem IsExpanded.assign_constant (h : IsExpanded s texts given)
    (hnew : s.checkNew name .constant = .ok ()) (hrecord : IsRecord texts' given')
    (htexts : ∀ n, n ≠ name → texts'.lookup n = texts.lookup n)
    (hgiven : ∀ n, (given.lookup n).isSome = true → given'.lookup n = given.lookup n)
    {v : Value ℝ} (hmeans : MeansConstant texts' given' name v) :
    IsExpanded { s with constants := assign name v s.constants } texts' given' where
  toIsRecord := hrecord
  named n hn := by
    by_cases hname : n = name
    · rw [hname]
      exact (checkNew_eq_ok.mp hnew).1
    · rw [nameKind?_isSome, lookup_assign, if_neg (by simpa using hname)] at hn
      exact h.named n (nameKind?_isSome.mpr hn)
  disjoint n hn := by
    by_cases hname : n = name
    · rw [hname]
      change s.entries.lookup name = none
      exact entries_lookup_of_checkNew hnew (h.disjoint name)
    · rw [lookup_assign, if_neg (by simpa using hname)] at hn
      exact h.disjoint n hn
  constants n w hn := by
    rw [lookup_assign] at hn
    by_cases hname : n = name
    · rw [if_pos (by simpa using hname)] at hn
      cases hn
      rw [hname]
      exact hmeans
    · rw [if_neg (by simpa using hname)] at hn
      exact (h.constants n w hn).congr (htexts n hname) hgiven
  entries n e hn := by
    have hname : n ≠ name := by
      rintro rfl
      have hnone := entries_lookup_of_checkNew hnew (h.disjoint n)
      rw [hnone] at hn
      cases hn
    exact (h.entries n e hn).congr (htexts n hname) hgiven

/-- A matrix or a vector is defined. -/
theorem IsExpanded.assign_entry (h : IsExpanded s texts given) {e : Entry ℝ}
    (hnew : s.checkNew name e.kind.toNameKind = .ok ()) (hrecord : IsRecord texts' given)
    (htexts : ∀ n, n ≠ name → texts'.lookup n = texts.lookup n)
    (hmeans : MeansKernel texts' given name e.kernel) :
    IsExpanded { s with entries := assign name e s.entries } texts' given where
  toIsRecord := hrecord
  named n hn := by
    by_cases hname : n = name
    · rw [hname]
      exact (checkNew_eq_ok.mp hnew).1
    · rw [nameKind?_isSome, lookup_assign, if_neg (by simpa using hname)] at hn
      exact h.named n (nameKind?_isSome.mpr hn)
  disjoint n hn := by
    have hname : n ≠ name := by
      rintro rfl
      have hnone := constants_lookup_of_checkNew hnew
      rw [hnone] at hn
      cases hn
    rw [lookup_assign, if_neg (by simpa using hname)]
    exact h.disjoint n hn
  constants n v hn := by
    have hname : n ≠ name := by
      rintro rfl
      have hnone := constants_lookup_of_checkNew hnew
      rw [hnone] at hn
      cases hn
    exact (h.constants n v hn).congr (htexts n hname) fun _ _ => rfl
  entries n e' hn := by
    rw [lookup_assign] at hn
    by_cases hname : n = name
    · rw [if_pos (by simpa using hname)] at hn
      cases hn
      rw [hname]
      exact hmeans
    · rw [if_neg (by simpa using hname)] at hn
      exact (h.entries n e' hn).congr (htexts n hname) fun _ _ => rfl

end Records

section Steps

theorem IsExpanded.empty (hconstants : s.constants = []) (hentries : s.entries = []) :
    IsExpanded s [] [] where
  given_named := by simp
  given_constant := by simp
  texts_named := by simp
  parsed := by simp
  named := by simp [nameKind?, hconstants, hentries]
  disjoint := by simp [hconstants]
  constants := by simp [hconstants]
  entries := by simp [hentries]

theorem eval_symbol {n : String} (hreserved : Names.isReserved n = false) {v : Value ℝ}
    (hlookup : given.lookup n = some (.constant v)) (site : Site ℝ) :
    (Expr.symbol n).eval (Kernel.resolve given site) = .ok v := by
  rw [Expr.eval]
  simp [Kernel.resolve, hreserved, hlookup]

/-- A name that is put in for another one gives it its value. -/
theorem MeansConstant.of_symbol {n : String} {v : Value ℝ}
    (hexpansion : Expr.expansion texts name = .symbol n) (hreserved : Names.isReserved n = false)
    (hlookup : given.lookup n = some (.constant v)) : MeansConstant texts given name v := by
  constructor
  · intro k hk
    rw [hexpansion] at hk
    obtain rfl := List.mem_singleton.mp hk
    exact ⟨hreserved, by rw [hlookup]; rfl⟩
  · intro site
    rw [hexpansion]
    exact eval_symbol hreserved hlookup site

/-- Constants that were given keep their values when another one is. -/
theorem lookup_assign_of_fresh {fresh : String} (hfresh : given.lookup fresh = none)
    (d : Definition ℝ) {n : String} (hn : (given.lookup n).isSome = true) :
    (assign fresh d given).lookup n = given.lookup n := by
  have hne : n ≠ fresh := by
    rintro rfl
    rw [hfresh] at hn
    cases hn
  rw [lookup_assign, if_neg (by simpa using hne)]

/-- A number or an array is given for the first time. -/
theorem IsExpanded.given_step (h : IsExpanded s texts given) {value : Datum ℝ} {v : Value ℝ}
    (hdatum : ∀ text, value ≠ .text text) (hvalue : Definition.valueOfData value = .ok v)
    (hnew : given.lookup name = none) (hcall : s.addConstant name value = .ok s') :
    IsExpanded s' (unassign name texts) (assign name (.constant v) given) := by
  obtain ⟨hcheck, w, hw, rfl⟩ := addConstant_eq_ok.mp hcall
  rw [constantValue_of_datum hdatum, hvalue] at hw
  obtain rfl := Except.ok.inj hw
  have hname := (checkNew_eq_ok.mp hcheck).1
  refine h.assign_constant hcheck ((h.assign_given hname v).unassign name) (fun n hn => ?_)
    (fun n hn => lookup_assign_of_fresh hnew _ hn)
    (.of_symbol ?_ (check_eq_ok.mp hname).1 (by simp [lookup_assign]))
  · rw [lookup_unassign, if_neg (by simpa using hn)]
  · exact Expr.expansion_of_lookup_eq_none (by simp [lookup_unassign])

/-- One is given again. What was defined before still finds the old one. -/
theorem IsExpanded.again_step (h : IsExpanded s texts given) {value : Datum ℝ} {v : Value ℝ}
    {fresh : String} (hdatum : ∀ text, value ≠ .text text)
    (hvalue : Definition.valueOfData value = .ok v) (hcheck : Names.check (α := ℝ) fresh = .ok ())
    (hfresh : given.lookup fresh = none) (hcall : s.addConstant name value = .ok s') :
    IsExpanded s' (assign name fresh texts) (assign fresh (.constant v) given) := by
  obtain ⟨hnew, w, hw, rfl⟩ := addConstant_eq_ok.mp hcall
  rw [constantValue_of_datum hdatum, hvalue] at hw
  obtain rfl := Except.ok.inj hw
  obtain ⟨hreserved, hvalid⟩ := check_eq_ok.mp hcheck
  have hparse : Expr.parse fresh = .ok (.symbol fresh) :=
    Expr.parse_of_write .whereNeeded rfl hvalid
  have hrecord := (h.assign_given hcheck v).assign_text (checkNew_eq_ok.mp hnew).1 hparse
  refine h.assign_constant hnew hrecord (fun n hn => ?_)
    (fun n hn => lookup_assign_of_fresh hfresh _ hn)
    (.of_symbol ?_ hreserved (by simp [lookup_assign]))
  · rw [lookup_assign, if_neg (by simpa using hn)]
  · exact Expr.expansion_of_lookup_eq_some (by simp [lookup_assign]) hparse

/-- A definition of a constant by an expression. -/
theorem IsExpanded.constant_step (h : IsExpanded s texts given) {text : String}
    (hcall : s.addConstant name (.text text) = .ok s') :
    IsExpanded s' (assign name (Expr.expand (fun n => texts.lookup n) text) texts) given := by
  obtain ⟨hcheck, v, hvalue, rfl⟩ := addConstant_eq_ok.mp hcall
  obtain ⟨t, hparse, hnames, houtside⟩ := Expr.evalConstant_eq_ok
    (fun d hd => h.areNamed d (List.mem_append_left _ hd)) hvalue
  have hconstants : ∀ n ∈ t.names,
      Names.isReserved n = false ∧ (s.constants.lookup n).isSome = true := by
    intro n hn
    obtain ⟨hreserved, hsome⟩ := hnames n hn
    rw [lookup_map_value, Option.isSome_map] at hsome
    exact ⟨hreserved, hsome⟩
  obtain ⟨hexpanded, hgiven⟩ := h.parse_expand hparse fun n hn =>
    .inr (nameKind?_isSome.mpr (.inl (hconstants n hn).2))
  have hexpansion : Expr.expansion (assign name (Expr.expand (fun n => texts.lookup n) text) texts)
      name = t.substitute (Expr.treeOf texts) :=
    Expr.expansion_of_lookup_eq_some (by rw [lookup_assign]; simp) hexpanded
  refine h.assign_constant hcheck (h.assign_text (checkNew_eq_ok.mp hcheck).1 hexpanded) ?_
    (fun _ _ => rfl) ⟨?_, ?_⟩
  · intro n hname
    rw [lookup_assign, if_neg (by simpa using hname)]
  · intro n hn
    rw [hexpansion] at hn
    have hreserved : Names.isReserved n = false := by
      obtain ⟨k, hk, hn⟩ := (Expr.mem_names_substitute _).mp hn
      obtain ⟨w, hw⟩ := Option.isSome_iff_exists.mp (hconstants k hk).2
      exact ((h.constants k w hw).isGiven n hn).1
    exact ⟨hreserved, hgiven n hn hreserved⟩
  · intro site
    rw [hexpansion]
    exact h.eval_constants hconstants houtside site

/-- A definition of a matrix or a vector by a weak form. -/
theorem IsExpanded.form_step (h : IsExpanded s texts given) {text : String} {kind : EntryKind}
    {boundary : Option TagId}
    (hcall : s.addEntry m kind name (.form (.text text)) boundary = .ok s') :
    IsExpanded s' (assign name (Expr.expand (fun n => texts.lookup n) text) texts) given := by
  obtain ⟨hcheck, -, k, hkernel, rfl⟩ := addEntry_eq_ok.mp hcall
  obtain ⟨t, hparse, hnames, hintegrand⟩ := Kernel.compile_eq_ok h.areNamed hkernel
  have hinUse : ∀ n ∈ t.names, Names.isReserved n = true ∨ (s.nameKind? n).isSome = true := by
    intro n hn
    refine (hnames n hn).imp_right fun hsome => nameKind?_isSome.mpr ?_
    rw [definitions, List.lookup_append, lookup_map_value,
      lookup_map_value fun e : Entry ℝ => Definition.kernel e.kernel, Option.isSome_or] at hsome
    simpa using hsome
  obtain ⟨hexpanded, hgiven⟩ := h.parse_expand hparse hinUse
  have hexpansion : Expr.expansion (assign name (Expr.expand (fun n => texts.lookup n) text) texts)
      name = t.substitute (Expr.treeOf texts) :=
    Expr.expansion_of_lookup_eq_some (by rw [lookup_assign]; simp) hexpanded
  refine h.assign_entry hcheck (h.assign_text (checkNew_eq_ok.mp hcheck).1 hexpanded) ?_
    ⟨by rw [lookup_assign]; simp, ?_, ?_⟩
  · intro n hname
    rw [lookup_assign, if_neg (by simpa using hname)]
  · rw [hexpansion]
    exact hgiven
  · intro site hruns
    rw [hexpansion] at hruns ⊢
    have heval := Expr.alike_eval hruns fun n hn => h.alike_resolve (hinUse n hn) site
    dsimp only
    rw [hintegrand]
    refine heval.bind fun v w _ _ hvw => ?_
    rw [Value.toReals_eq hvw.left, Value.toReals_eq hvw.right, hvw.tensor_eq]
    exact .ok rfl

/-- A history keeps the meaning of all names. -/
theorem History.isExpanded (h : History m s texts given) : IsExpanded s texts given := by
  induction h with
  | empty hconstants hentries => exact .empty hconstants hentries
  | given _ hdatum hvalue hnew hcall ih => exact ih.given_step hdatum hvalue hnew hcall
  | again _ hdatum hvalue _ hcheck hfresh hcall ih =>
    exact ih.again_step hdatum hvalue hcheck hfresh hcall
  | constant _ hcall ih => exact ih.constant_step hcall
  | form _ hcall ih => exact ih.form_step hcall

/-- There are always more names. -/
theorem exists_fresh (given : Definitions ℝ) :
    ∃ fresh, Names.check (α := ℝ) fresh = .ok () ∧ given.lookup fresh = none := by
  obtain ⟨n, hn⟩ : ∃ n, n = (given.map fun d => d.1.length).sum := ⟨_, rfl⟩
  have hchars : (String.ofList (List.replicate (n + 1) '_')).toList = List.replicate (n + 1) '_' :=
    String.toList_ofList
  refine ⟨String.ofList (List.replicate (n + 1) '_'), check_eq_ok.mpr ⟨?_, ?_⟩, ?_⟩
  · have hstart : ∀ r ∈ reservedNames, r.toList.head? ≠ some '_' := by decide
    rw [Names.isReserved, ← Bool.not_eq_true, List.contains_iff_mem]
    intro hmem
    exact hstart _ hmem (by rw [hchars]; rfl)
  · have hpart : Token.isNamePart '_' = true := by decide
    rw [Names.isValid, hchars, List.replicate_succ]
    simp [hpart]
    decide
  · -- the name is longer than all others together
    refine List.lookup_eq_none_iff.mpr fun d hd => ?_
    have hlength : d.1.length ≤ n := by
      rw [hn]
      exact List.le_sum_of_mem (List.mem_map_of_mem (f := fun d => d.1.length) hd)
    have hne : String.ofList (List.replicate (n + 1) '_') ≠ d.1 := by
      intro h
      rw [← h, String.length_ofList, List.length_replicate] at hlength
      omega
    exact bne_iff_ne.mpr hne

/-- A definition by a number, an array or a text. -/
def Call.IsDefinition : Call ℝ → Prop
  | .constant _ _ => True
  | .entry _ _ source _ => ∃ text, source = .form (.text text)
  | .assemble _ => False

/-- Every definition continues a history. -/
theorem History.exists_call (h : History m s texts given) {call : Call ℝ}
    (hdefinition : call.IsDefinition) (hcall : (call.run m s).1 = .ok ()) :
    ∃ texts' given', History m (call.run m s).2 texts' given' := by
  cases call with
  | assemble d => exact hdefinition.elim
  | constant name value =>
    cases hadd : s.addConstant name value with
    | error e => simp [Call.run, hadd] at hcall
    | ok s' =>
      have hafter : (Call.run m s (.constant name value)).2 = s' := by rw [Call.run, hadd]
      rw [hafter]
      by_cases htext : ∃ text, value = .text text
      · obtain ⟨text, rfl⟩ := htext
        exact ⟨_, _, h.constant hadd⟩
      · have hdatum : ∀ text, value ≠ .text text := fun text heq => htext ⟨text, heq⟩
        obtain ⟨-, v, hv, -⟩ := addConstant_eq_ok.mp hadd
        rw [constantValue_of_datum hdatum] at hv
        cases hgiven : given.lookup name with
        | none => exact ⟨_, _, h.given hdatum hv hgiven hadd⟩
        | some d =>
          obtain ⟨fresh, hcheck, hfresh⟩ := exists_fresh given
          exact ⟨_, _, h.again hdatum hv (by rw [hgiven]; rfl) hcheck hfresh hadd⟩
  | entry kind name source boundary =>
    obtain ⟨text, rfl⟩ := hdefinition
    cases hadd : s.addEntry m kind name (.form (.text text)) boundary with
    | error e => simp [Call.run, hadd] at hcall
    | ok s' =>
      have hafter : (Call.run m s (.entry kind name (.form (.text text)) boundary)).2 = s' := by
        rw [Call.run, hadd]
      rw [hafter]
      exact ⟨_, _, h.form hadd⟩

/-- So there is one of all definitions that are made, be it with success or not. -/
theorem exists_history (m : Mesh ℝ) (method : AssemblyMethod) {calls : List (Call ℝ)}
    (hcalls : ∀ call ∈ calls, call.IsDefinition) :
    ∃ texts given, History m (perform m ⟨method, [], []⟩ calls) texts given := by
  induction calls using List.reverseRecOn with
  | nil => exact ⟨_, _, .empty rfl rfl⟩
  | append_singleton calls call ih =>
    obtain ⟨texts, given, h⟩ := ih fun c hc => hcalls c (List.mem_append_left _ hc)
    have hdefinition := hcalls call (by simp)
    rw [perform, List.foldl_append]
    change ∃ texts given, History m (call.run m (perform m ⟨method, [], []⟩ calls)).2 texts given
    cases hcall : (call.run m (perform m ⟨method, [], []⟩ calls)).1 with
    | ok u => exact h.exists_call hdefinition hcall
    | error e =>
      have hname : call.defined?.isSome := by
        cases call with
        | assemble d => exact hdefinition.elim
        | constant name value => rfl
        | entry kind name source boundary => rfl
      rw [call.run_of_error hname hcall]
      exact ⟨texts, given, h⟩

end Steps

section Values

variable {v : Value ℝ} {k : Kernel ℝ}

theorem MeansConstant.evalConstant_eq (h : MeansConstant texts given name v)
    (hgiven : given.AreNamed) {text : String} {t : Expr} (htext : texts.lookup name = some text)
    (hparse : Expr.parse text = .ok t) : Expr.evalConstant text given = .ok v := by
  have hexpansion := Expr.expansion_of_lookup_eq_some htext hparse
  have hreserved : t.symbols.filter Names.isReserved = [] := by
    refine List.filter_eq_nil_iff.mpr fun n hn => ?_
    simp [(h.isGiven n (hexpansion ▸ Expr.mem_symbols.mp hn)).1]
  have hcovers : given.Covers t := fun n hn _ =>
    Definitions.lookup_isSome.mp (h.isGiven n (hexpansion ▸ Expr.mem_symbols.mp hn)).2
  rw [Expr.evalConstant_eq hparse hgiven fun n => .error (.unboundName n), if_pos hreserved,
    if_pos (Definitions.missing_eq_nil.mpr hcovers), ← hexpansion]
  exact h.eval_eq .absent

theorem MeansConstant.lookup_eq (h : MeansConstant texts given name v)
    (hconstants : ∀ d ∈ given, ∃ v, d.2 = .constant v) (htext : texts.lookup name = none) :
    given.lookup name = some (.constant v) := by
  have hexpansion := Expr.expansion_of_lookup_eq_none htext
  obtain ⟨hreserved, hsome⟩ := h.isGiven name (by rw [hexpansion]; simp [Expr.names])
  obtain ⟨d, hd⟩ := Option.isSome_iff_exists.mp hsome
  obtain ⟨w, hw⟩ := hconstants (name, d) (mem_of_lookup_eq_some hd)
  obtain rfl : d = .constant w := hw
  have hvalue := h.eval_eq .absent
  rw [hexpansion, eval_symbol hreserved hd] at hvalue
  rw [hd, Except.ok.inj hvalue]

theorem MeansKernel.exists_compile (h : MeansKernel texts given name k) (hgiven : given.AreNamed)
    {text : String} {t : Expr} (htext : texts.lookup name = some text)
    (hparse : Expr.parse text = .ok t) :
    ∃ k', Kernel.compile name text given = .ok k' ∧
      ∀ site, t.RunsInReals (Kernel.resolve given site) →
        (k.integrand site).toOption = (k'.integrand site).toOption := by
  have hexpansion := Expr.expansion_of_lookup_eq_some htext hparse
  have hcovers : given.Covers t := fun n hn hreserved =>
    Definitions.lookup_isSome.mp (h.isGiven n (hexpansion ▸ Expr.mem_symbols.mp hn) hreserved)
  rw [Kernel.compile_eq hparse hgiven name fun n => .error (.unboundName n),
    if_pos (Definitions.missing_eq_nil.mpr hcovers)]
  refine ⟨_, rfl, fun site hruns => ?_⟩
  have halike := h.alike site (hexpansion ▸ hruns)
  rw [hexpansion] at halike
  exact halike.toOption_eq

end Values

/-- After every history of definitions, a constant that was defined by an expression is the value of
the expanded text over the given constants, the other constants are given ones, and a kernel has at
every site the value of the weak form of its expanded text over the given constants, wherever that
runs in the reals. -/
theorem definitions_by_substitution (h : History m s texts given) :
    (∀ name v, s.constants.lookup name = some v →
      match texts.lookup name with
      | some text => Expr.evalConstant text given = .ok v
      | none => given.lookup name = some (.constant v)) ∧
    ∀ name e, s.entries.lookup name = some e → ∃ text t k, texts.lookup name = some text ∧
      Expr.parse text = .ok t ∧ Kernel.compile name text given = .ok k ∧
      ∀ site, t.RunsInReals (Kernel.resolve given site) →
        (e.kernel.integrand site).toOption = (k.integrand site).toOption := by
  have hexpanded := h.isExpanded
  constructor
  · intro name v hv
    have hmeans := hexpanded.constants name v hv
    cases htext : texts.lookup name with
    | some text =>
      obtain ⟨t, hparse⟩ := hexpanded.parsed name text htext
      exact hmeans.evalConstant_eq hexpanded.given_areNamed htext hparse
    | none => exact hmeans.lookup_eq hexpanded.given_constant htext
  · intro name e he
    have hmeans := hexpanded.entries name e he
    obtain ⟨text, htext⟩ := Option.isSome_iff_exists.mp hmeans.isText
    obtain ⟨t, hparse⟩ := hexpanded.parsed name text htext
    obtain ⟨k, hk, hvalues⟩ := hmeans.exists_compile hexpanded.given_areNamed htext hparse
    exact ⟨text, t, k, htext, hparse, hk, hvalues⟩

section Kept

variable {k : Kernel ℝ} {n : String} {z : ℤ}

theorem runsInReals_symbol (hreserved : Names.isReserved n = false)
    (hlookup : given.lookup n = some (.constant (.plain (.integer z)))) (site : Site ℝ) :
    (Expr.symbol n).RunsInReals (Kernel.resolve given site) := by
  constructor
  · intro p hp v hv
    cases hp
    rw [eval_symbol hreserved hlookup site] at hv
    cases hv
    trivial
  · rintro a b ⟨⟩

/-- The kernel of the name of a whole number is this number everywhere. -/
theorem integrand_of_symbol (hgiven : given.AreNamed) {label text : String}
    (hparse : Expr.parse text = .ok (.symbol n)) (hcompile : Kernel.compile label text given = .ok k)
    (hreserved : Names.isReserved n = false)
    (hlookup : given.lookup n = some (.constant (.plain (.integer z)))) (site : Site ℝ) :
    (k.integrand site).toOption = some (.scalar (z : ℝ)) := by
  obtain ⟨t, hparse', -, hintegrand⟩ := Kernel.compile_eq_ok hgiven hcompile
  obtain rfl : t = .symbol n := Except.ok.inj (hparse'.symm.trans hparse)
  have hreal : Number.IsReal (.integer z : Number ℝ) := trivial
  rw [hintegrand]
  dsimp only
  rw [eval_symbol hreserved hlookup site, ok_bind, Value.toReals_eq (v := .plain (.integer z)) hreal,
    Value.tensor_plain hreal]
  simp [Except.toOption]

end Kept

/-- A kernel keeps the constant it was defined with, a given number, when the constant is defined
anew as the square of that, and both keep the number when another one is given under its name. -/
theorem definitions_by_substitution_of_square :
    ∃ (s : Formulation ℝ) (texts : List (String × String)) (given : Definitions ℝ),
      History (.empty (.integer 2)) s texts given ∧
      s.constants.lookup "D" = some (.plain (.integer 4)) ∧
      s.constants.lookup "E" = some (.plain (.integer 7)) ∧
      Expr.evalConstant "E*E" given = .ok (.plain (.integer 4)) ∧
      ∃ e k, s.entries.lookup "K" = some e ∧ Kernel.compile "K" "(E)" given = .ok k ∧
        (k.integrand .absent).toOption = some (.scalar 2) ∧
        (e.kernel.integrand .absent).toOption = some (.scalar 2) := by
  let given : Definitions ℝ :=
    [("E", .constant (.plain (.integer 2))), ("E2", .constant (.plain (.integer 7)))]
  let s₁ : Formulation ℝ := ⟨.direct, [("E", .plain (.integer 2))], []⟩
  let s₂ : Formulation ℝ := ⟨.direct, [("E", .plain (.integer 2)), ("D", .plain (.integer 2))], []⟩
  have hgive : Formulation.addConstant ⟨.direct, [], []⟩ "E" (.integer 2) = .ok s₁ :=
    addConstant_eq_ok.mpr ⟨rfl, _, rfl, rfl⟩
  have hname : s₁.addConstant "D" (.text "E") = .ok s₂ := by cbv
  have hnamed : s₂.definitions.AreNamed := by
    intro d hd
    rcases List.mem_pair.mp hd with rfl | rfl <;> exact ⟨by decide, by decide, rfl⟩
  have hparseD : Expr.parse "D" = .ok (.symbol "D") :=
    Expr.parse_of_write .whereNeeded rfl (by decide)
  obtain ⟨k, hk⟩ := Kernel.exists_compile hparseD hnamed (by simp [Expr.names, s₂, definitions]) "K"
  let s₃ : Formulation ℝ := { s₂ with entries := [("K", ⟨.matrix, k, none, none⟩)] }
  have hform : s₂.addEntry (.empty (.integer 2)) .matrix "K" (.form (.text "D")) none = .ok s₃ :=
    addEntry_eq_ok.mpr ⟨rfl, by simp, k, hk, rfl⟩
  let s₄ : Formulation ℝ :=
    { s₃ with constants := [("E", .plain (.integer 2)), ("D", .plain (.integer 4))] }
  have hsquare : s₃.addConstant "D" (.text "E*E") = .ok s₄ := by cbv
  let s₅ : Formulation ℝ :=
    { s₃ with constants := [("E", .plain (.integer 7)), ("D", .plain (.integer 4))] }
  have hagain : s₄.addConstant "E" (.integer 7) = .ok s₅ := addConstant_eq_ok.mpr ⟨rfl, _, rfl, rfl⟩
  have hfresh : Names.check (α := ℝ) "E2" = .ok () := rfl
  have hhistory := (((((History.empty rfl rfl).given (by simp) rfl rfl hgive).constant hname).form
    hform).constant hsquare).again (by simp) rfl rfl hfresh rfl hagain
  obtain ⟨hconstants, hentries⟩ := definitions_by_substitution hhistory
  have hconstant := hconstants "D" (.plain (.integer 4)) rfl
  obtain ⟨text, t, k', htext, hparse, hk', hvalues⟩ := hentries "K" _ rfl
  obtain rfl : text = "(E)" := by
    refine Option.some.inj (htext.symm.trans ?_)
    cbv
  obtain rfl : t = .symbol "E" := by
    refine Except.ok.inj (hparse.symm.trans ?_)
    cbv
  have hgiven : Definitions.AreNamed given := by
    intro d hd
    rcases List.mem_pair.mp hd with rfl | rfl <;> exact ⟨by decide, by decide, rfl⟩
  have hvalue := integrand_of_symbol (z := 2) hgiven hparse hk' (by decide) rfl .absent
  refine ⟨_, _, _, hhistory, rfl, rfl, ?_, _, k', rfl, hk', hvalue, ?_⟩
  · refine (congrArg (Expr.evalConstant · given) ?_).trans hconstant
    cbv
  · rw [hvalues .absent (runsInReals_symbol (z := 2) (by decide) rfl .absent)]
    exact hvalue

end Formulation
end WeakForm
