import WeakForm.Proofs.RealScalar
import WeakForm.Proofs.Assembly.Linearity
import WeakForm.Proofs.Formulation.Registry

/-!
# Linear combinations of registered forms

A weak form may use other ones by their names. The text `a*K + b*L` of two scalar constants and two
registered forms is the combination of their kernels, so what it assembles to is the combination of
what they assemble to.
-/

namespace WeakForm

namespace Expr

/-- The expression `a*K + b*L` of the given names. -/
def combination (a K b L : String) : Expr :=
  .binary .add (.binary .mul (.symbol a) (.symbol K)) (.binary .mul (.symbol b) (.symbol L))

variable {a K b L : String}

/-- The text `a*K + b*L` of the given names. -/
def combinationText (a K b L : String) : String := a ++ "*" ++ K ++ " + " ++ b ++ "*" ++ L

/-- The pieces of the text `a*K + b*L`. -/
def combinationLexemes (a K b L : String) : List Lexeme :=
  [(some .name, a.toList), (some .mark, ['*']), (some .name, K.toList), (none, [' ']),
    (some .mark, ['+']), (none, [' ']), (some .name, b.toList), (some .mark, ['*']),
    (some .name, L.toList)]

theorem textOf_combinationLexemes :
    Lexeme.textOf (combinationLexemes a K b L) = (combinationText a K b L).toList := by
  have hstar : "*".toList = ['*'] := rfl
  have hplus : " + ".toList = [' ', '+', ' '] := rfl
  simp [Lexeme.textOf, combinationLexemes, combinationText, hstar, hplus]

theorem wellSpaced_combinationLexemes (ha : Names.isValid a = true) (hK : Names.isValid K = true)
    (hb : Names.isValid b = true) (hL : Names.isValid L = true) :
    Lexeme.WellSpaced (combinationLexemes a K b L) := by
  have hstar : Lexeme.IsProper (some .mark, ['*']) := .mark rfl
  have hplus : Lexeme.IsProper (some .mark, ['+']) := .mark rfl
  have hblank : Lexeme.IsProper (none, [' ']) := .blank (by simp) fun c hc => by
    rw [List.mem_singleton.mp hc]
    rfl
  constructor
  · simp only [combinationLexemes, List.forall_mem_cons]
    exact ⟨isProper_name ha, hstar, isProper_name hK, hblank, hplus, hblank, isProper_name hb,
      hstar, isProper_name hL, by simp⟩
  · simp [combinationLexemes, Lexeme.Apart, Lexeme.IsWord]

/-- The text `a*K + b*L` is read as the sum of the two products. -/
theorem parse_combination (ha : Names.isValid a = true) (hK : Names.isValid K = true)
    (hb : Names.isValid b = true) (hL : Names.isValid L = true) :
    parse (combinationText a K b L) = .ok (combination a K b L) := by
  have hscan := (wellSpaced_combinationLexemes ha hK hb hL).scan 0
  rw [textOf_combinationLexemes] at hscan
  refine (parse_eq_ok_of_scan hscan).mpr ?_
  have hname (n : String) (position : ℕ) :
      Derives .unary [⟨.name, String.ofList n.toList, position⟩] (.symbol n) := by
    have h : Derives .primary [⟨.name, String.ofList n.toList, position⟩]
        (.symbol (String.ofList n.toList)) := .name rfl
    rw [String.ofList_toList] at h ⊢
    exact .unsigned (.base (.operand h))
  have hproduct (n k : String) (p q r : ℕ) :
      Derives .product ([⟨.name, String.ofList n.toList, p⟩] ++ ⟨.mark, String.ofList ['*'], q⟩ ::
        [⟨.name, String.ofList k.toList, r⟩]) (.binary .mul (.symbol n) (.symbol k)) :=
    .product (.inl rfl) (.factor (hname n p)) ⟨rfl, rfl⟩ (hname k r)
  exact .sum (.inl rfl) (.summand (hproduct a K _ _ _)) ⟨rfl, rfl⟩ (hproduct b L _ _ _)

end Expr

namespace Value

variable {v w : Value ℝ} {x : ℝ} {s : Tensor ℝ}

/-- The product of a scalar and an array. -/
theorem exists_scalar_mul (hv : v.IsReal) (hx : v.tensor.item? = some x) (s : Tensor ℝ) :
    ∃ u, v.mul (.ofTensor s) = .ok u ∧ u.IsReal ∧ u.tensor = s.map (x * ·) := by
  have h := yields_mul hv (w := .ofTensor s) (.inr rfl)
  rw [hx] at h
  have hproduct := Tensor.scalar_zipWith (· * ·) x s
  obtain ⟨u, hu, hnumeric, htensor⟩ : Yields (v.mul (.ofTensor s)) (some (s.map (x * ·))) := by
    rw [← hproduct]
    exact h
  exact ⟨u, hu, hnumeric.isReal, htensor⟩

end Value

namespace Formulation

variable {s s' : Formulation ℝ} {m : Mesh ℝ} {a K b L C : String} {x y : ℝ} {eK eL : Entry ℝ}

/-- The name is that of a constant with a single entry. -/
def IsScalar (s : Formulation ℝ) (name : String) (x : ℝ) : Prop :=
  ∃ v, s.constants.lookup name = some v ∧ v.IsReal ∧ v.tensor.item? = some x

section Registered

theorem Change.method_eq {call : Call ℝ} (h : Change m s call s') : s'.method = s.method := by
  cases h <;> rfl

theorem method_perform (calls : List (Call ℝ)) : (perform m s calls).method = s.method := by
  induction calls generalizing s with
  | nil => rfl
  | cons call calls ih => exact ih.trans (call.change m s).method_eq

/-- What a name is assembled to. -/
theorem assemble_text_iff (h : s.entries.lookup K = some eK) {v : Assembled ℝ} :
    (s.assemble m (.text K)).1 = .ok v ↔ IsAssembly m s.method eK v := by
  rw [(assemble_of_ok (entry_text h)).1, evaluate_eq_ok]

theorem isAssembly_matrix_iff {method : AssemblyMethod} {A : SparseMatrix ℝ} :
    IsAssembly m method eK (.matrix A) ↔
      eK.kind = .matrix ∧ Assembly.matrix m eK.kernel eK.boundary method = .ok A :=
  ⟨fun | .matrix hkind hA => ⟨hkind, hA⟩, fun h => .matrix h.1 h.2⟩

theorem isAssembly_vector_iff {method : AssemblyMethod} {f : Array ℝ} :
    IsAssembly m method eK (.vector f) ↔
      eK.kind = .vector ∧ Assembly.vector m eK.kernel eK.boundary = .ok f :=
  ⟨fun | .vector hkind hf => ⟨hkind, hf⟩, fun h => .vector h.1 h.2⟩

end Registered

section Combinations

/-- The text `a*K + b*L` is compiled, and its kernel combines the two kernels. -/
theorem IsRegistry.exists_combination (hs : IsRegistry m s) (ha : s.IsScalar a x)
    (hb : s.IsScalar b y) (hK : s.entries.lookup K = some eK) (hL : s.entries.lookup L = some eL)
    (label : String) :
    ∃ k, Kernel.compile label (Expr.combinationText a K b L) s.definitions = .ok k ∧
      k.Combines eK.kernel eL.kernel x y := by
  obtain ⟨v, hv, hvreal, hx⟩ := ha
  obtain ⟨w, hw, hwreal, hy⟩ := hb
  have hva := lookup_constant hv
  have hwb := lookup_constant hw
  have hKdef := hs.lookup_kernel hK
  have hLdef := hs.lookup_kernel hL
  obtain ⟨hareserved, havalid⟩ := hs.named_of_lookup hva
  obtain ⟨hbreserved, hbvalid⟩ := hs.named_of_lookup hwb
  obtain ⟨hKreserved, hKvalid⟩ := hs.named_of_lookup hKdef
  obtain ⟨hLreserved, hLvalid⟩ := hs.named_of_lookup hLdef
  have hparse := Expr.parse_combination havalid hKvalid hbvalid hLvalid
  have hdefined {n : String} {d : Definition ℝ} (h : s.definitions.lookup n = some d) :
      n ∈ s.definitions.map Prod.fst := Definitions.lookup_isSome.mp (by rw [h]; rfl)
  have hnames : ∀ n ∈ (Expr.combination a K b L).names, n ∈ s.definitions.map Prod.fst := by
    intro n hn
    simp only [Expr.combination, Expr.names, List.mem_append, List.mem_singleton] at hn
    rcases hn with (rfl | rfl) | rfl | rfl
    · exact hdefined hva
    · exact hdefined hKdef
    · exact hdefined hwb
    · exact hdefined hLdef
  obtain ⟨k, hk⟩ := Kernel.exists_compile hparse hs.areNamed (fun n hn => .inr (hnames n hn)) label
  refine ⟨k, hk, fun site p q r hp hq hr => ?_⟩
  obtain ⟨u, hu, hureal, hutensor⟩ := Value.exists_scalar_mul hvreal hx p
  obtain ⟨z, hz, hzreal, hztensor⟩ := Value.exists_scalar_mul hwreal hy q
  have hsum := Value.yields_add hureal hzreal
  rw [hutensor, hztensor, hr] at hsum
  obtain ⟨t, ht, htnumeric, httensor⟩ := hsum
  rw [Kernel.integrand_of_compile hk hparse]
  simp only [Expr.combination, Expr.eval, Definitions.meaning, hareserved, hbreserved, hKreserved,
    hLreserved, hva, hwb, hKdef, hLdef, hp, hq, Bool.false_eq_true, if_false, Except.map, ok_bind,
    Operation.apply, hu, hz, ht, Value.toReals_eq htnumeric.isReal, httensor]

/-- A form that is registered is assembled from its kernel. -/
theorem assemble_assign (s : Formulation ℝ) (m : Mesh ℝ) (C : String) (e : Entry ℝ) :
    (({ s with entries := assign C e s.entries } : Formulation ℝ).assemble m (.text C)).1 =
      s.evaluate m e := by
  have h : ({ s with entries := assign C e s.entries } : Formulation ℝ).entries.lookup C = some e := by
    simp [lookup_assign]
  exact (assemble_of_ok (entry_text h)).1

/-- Whatever was called before on a formulation over a frozen mesh: if two forms with the same
boundary both assemble to matrices, then the form `a*K + b*L` with that boundary is accepted under any
new name, and it assembles to the matrix `x A + y B`, where `x` and `y` are the values of the scalars
`a` and `b`. The same holds of vectors if the two kernels have values of the same shape. -/
theorem assemble_combination {m : Mesh ℝ} (hm : m.Reachable) (hfrozen : m.frozen = true)
    (calls : List (Call ℝ)) {a b K L : String} {x y : ℝ} {eK eL : Entry ℝ}
    (ha : (perform m ⟨.triplet, [], []⟩ calls).IsScalar a x)
    (hb : (perform m ⟨.triplet, [], []⟩ calls).IsScalar b y)
    (hK : (perform m ⟨.triplet, [], []⟩ calls).entries.lookup K = some eK)
    (hL : (perform m ⟨.triplet, [], []⟩ calls).entries.lookup L = some eL)
    (hboundary : eL.boundary = eK.boundary) :
    let s := perform m ⟨.triplet, [], []⟩ calls
    let source := .form (.text (Expr.combinationText a K b L))
    (∀ A B C, (s.assemble m (.text K)).1 = .ok (.matrix A) →
      (s.assemble m (.text L)).1 = .ok (.matrix B) → s.checkNew C .matrix = .ok () →
      ∃ s' M, s.addEntry m .matrix C source eK.boundary = .ok s' ∧
        (s'.assemble m (.text C)).1 = .ok (.matrix M) ∧ M.rows = m.dofs ∧ M.cols = m.dofs ∧
        ∀ i < m.dofs, ∀ j < m.dofs, M.entry i j = x * A.entry i j + y * B.entry i j) ∧
    ∀ f g C, (s.assemble m (.text K)).1 = .ok (.vector f) →
      (s.assemble m (.text L)).1 = .ok (.vector g) → s.checkNew C .vector = .ok () →
      Assembly.HaveSameShape m eK.boundary eK.kernel eL.kernel →
      ∃ s' v, s.addEntry m .vector C source eK.boundary = .ok s' ∧
        (s'.assemble m (.text C)).1 = .ok (.vector v) ∧ v.size = m.dofs ∧
        ∀ i < m.dofs, v.getD i 0 = x * f.getD i 0 + y * g.getD i 0 := by
  intro s source
  have hs : IsRegistry m s := (isRegistry_empty m .triplet).perform calls
  have hmethod : s.method = .triplet := method_perform calls
  -- both kinds of entries are integrated over a domain, so the tag is that of a boundary
  have htag {es : List (Element ℝ)} (hes : Assembly.IsDomain m eK.boundary es) :
      ∀ tag, eK.boundary = some tag → ∃ r, m.boundary tag = .ok r := by
    intro tag htag
    rw [htag] at hes
    obtain ⟨r, hr, -⟩ := hes
    exact ⟨r, hr⟩
  constructor
  · intro A B C hA hB hnew
    obtain ⟨-, hA⟩ := isAssembly_matrix_iff.mp ((assemble_text_iff hK).mp hA)
    obtain ⟨-, hB⟩ := isAssembly_matrix_iff.mp ((assemble_text_iff hL).mp hB)
    rw [hmethod] at hA hB
    rw [hboundary] at hB
    obtain ⟨es, hes, -⟩ := Assembly.isMatrixOver_domain hm hfrozen hA
    obtain ⟨k, hk, hcombines⟩ := hs.exists_combination ha hb hK hL C
    obtain ⟨M, hM, hresult⟩ := Assembly.matrix_combination hm hfrozen hcombines hA hB
    refine ⟨_, M, addEntry_eq_ok.mpr ⟨hnew, htag hes, k, hk, rfl⟩, ?_, hresult⟩
    rw [assemble_assign, evaluate, hmethod]
    exact congrArg (Except.map Assembled.matrix) hM
  · intro f g C hf hg hnew hshape
    obtain ⟨-, hf⟩ := isAssembly_vector_iff.mp ((assemble_text_iff hK).mp hf)
    obtain ⟨-, hg⟩ := isAssembly_vector_iff.mp ((assemble_text_iff hL).mp hg)
    rw [hboundary] at hg
    obtain ⟨es, hes, -⟩ := Assembly.isVectorOver_domain hm hfrozen hf
    obtain ⟨k, hk, hcombines⟩ := hs.exists_combination ha hb hK hL C
    obtain ⟨v, hv, hresult⟩ := Assembly.vector_combination hm hfrozen hcombines hshape hf hg
    refine ⟨_, v, addEntry_eq_ok.mpr ⟨hnew, htag hes, k, hk, rfl⟩, ?_, hresult⟩
    rw [assemble_assign, evaluate]
    exact congrArg (Except.map Assembled.vector) hv

end Combinations

section Pair

open Assembly

/-- The constants of a bar. -/
noncomputable def pairConstants : List (String × Value ℝ) :=
  [("D", .plain (.real 2)), ("c", .plain (.real 3))]

/-- Two constants, and two forms. -/
noncomputable def pairCalls (kind : EntryKind) (first second : String) : List (Call ℝ) :=
  [.constant "D" (.real 2), .constant "c" (.real 3),
    .entry kind "K" (.form (.text first)) none, .entry kind "L" (.form (.text second)) none]

/-- Both forms are registered with their kernels. -/
theorem perform_pairCalls (kind : EntryKind) {first second : String} {tree tree' : Expr}
    (hfirst : Expr.parse first = .ok tree) (hsecond : Expr.parse second = .ok tree')
    (hnames : ∀ n ∈ tree.names ++ tree'.names, Names.isReserved n = true ∨ n = "D" ∨ n = "c") :
    ∃ k l, perform Mesh.bar ⟨.triplet, [], []⟩ (pairCalls kind first second) =
        ⟨.triplet, pairConstants, [("K", ⟨kind, k, none, none⟩), ("L", ⟨kind, l, none, none⟩)]⟩ ∧
      Kernel.compile "K" first (definitions ⟨.triplet, pairConstants, []⟩) = .ok k ∧
      Kernel.compile "L" second
        (definitions ⟨.triplet, pairConstants, [("K", ⟨kind, k, none, none⟩)]⟩) = .ok l := by
  have hconstants : IsRegistry Mesh.bar (⟨.triplet, pairConstants, []⟩ : Formulation ℝ) :=
    (isRegistry_empty Mesh.bar .triplet).perform [.constant "D" (.real 2), .constant "c" (.real 3)]
  have hdefined {entries : List (String × Entry ℝ)} {n : String}
      (h : n = "D" ∨ n = "c") :
      ((⟨.triplet, pairConstants, entries⟩ : Formulation ℝ).definitions.lookup n).isSome = true := by
    rcases h with rfl | rfl <;> rfl
  obtain ⟨k, hk, hcall⟩ := exists_entry hconstants kind "K" hfirst
    (fun n hn => (hnames n (List.mem_append_left _ hn)).imp_right hdefined) rfl
  have hregistry := hconstants.change ((Call.entry kind "K" (.form (.text first)) none).change Mesh.bar _)
  rw [hcall] at hregistry
  obtain ⟨l, hl, hcall'⟩ := exists_entry hregistry kind "L" hsecond
    (fun n hn => (hnames n (List.mem_append_right _ hn)).imp_right hdefined) rfl
  refine ⟨k, l, ?_, hk, hl⟩
  change (Call.run Mesh.bar (Call.run Mesh.bar ⟨.triplet, pairConstants, []⟩ _).2 _).2 = _
  rw [hcall, hcall']
  rfl

/-- Columns of the same shape functions have the same shape. -/
theorem haveSameShape_of_isColumn {m : Mesh ℝ} {k l : Kernel ℝ} {f g : DenseMatrix ℝ → ℕ → ℝ}
    (hk : ∀ c ∈ m.cells, k.IsColumn c.element f) (hl : ∀ c ∈ m.cells, l.IsColumn c.element g) :
    HaveSameShape m none k l := by
  intro es hes e he ξ s t hs ht
  obtain rfl : es = m.cells.map Cell.element := hes
  obtain ⟨c, hc, rfl⟩ := List.mem_map.mp he
  rw [hk c hc] at hs
  rw [hl c hc] at ht
  obtain ⟨N, hN, rfl⟩ := map_eq_ok.mp hs
  obtain ⟨N', hN', rfl⟩ := map_eq_ok.mp ht
  rw [hN] at hN'
  cases hN'
  rfl

theorem isScalar_pairConstants {s : Formulation ℝ} (hs : s.constants = pairConstants) :
    s.IsScalar "D" 2 ∧ s.IsScalar "c" 3 := by
  have hscalar (n : String) (x : ℝ) (h : pairConstants.lookup n = some (.plain (.real x))) :
      s.IsScalar n x := by
    have hreal : (Number.real x : Number ℝ).IsReal := trivial
    exact ⟨.plain (.real x), hs ▸ h, hreal, by rw [Value.tensor_plain hreal]; rfl⟩
  exact ⟨hscalar "D" 2 rfl, hscalar "c" 3 rfl⟩

/-- A combination of the stiffness and the mass of a bar, and one of two loads. -/
theorem assemble_combination_of_pair :
    (∃ k l A B s' M,
      let s := perform Mesh.bar ⟨.triplet, [], []⟩ (pairCalls .matrix "B'*D*B" "N'*c*N")
      s.entries = [("K", ⟨.matrix, k, none, none⟩), ("L", ⟨.matrix, l, none, none⟩)] ∧
      matrix Mesh.bar k none .triplet = .ok A ∧ matrix Mesh.bar l none .triplet = .ok B ∧
      s.addEntry Mesh.bar .matrix "C" (.form (.text "D*K + c*L")) none = .ok s' ∧
      (s'.assemble Mesh.bar (.text "C")).1 = .ok (.matrix M) ∧
      A.matrix 3 = !![2, -2, 0; -2, 2 + 2, -2; 0, -2, 2] ∧
      ∀ i < 3, ∀ j < 3, M.entry i j = 2 * A.entry i j + 3 * B.entry i j) ∧
    ∃ k l f g s' v,
      let s := perform Mesh.bar ⟨.triplet, [], []⟩ (pairCalls .vector "N'" "c*N'")
      s.entries = [("K", ⟨.vector, k, none, none⟩), ("L", ⟨.vector, l, none, none⟩)] ∧
      vector Mesh.bar k none = .ok f ∧ vector Mesh.bar l none = .ok g ∧
      s.addEntry Mesh.bar .vector "C" (.form (.text "D*K + c*L")) none = .ok s' ∧
      (s'.assemble Mesh.bar (.text "C")).1 = .ok (.vector v) ∧
      f.getD 1 0 = 1 ∧ g.getD 1 0 = 3 ∧ v.getD 1 0 = 2 * 1 + 3 * 3 := by
  have htext : Expr.combinationText "D" "K" "c" "L" = "D*K + c*L" := by decide
  have hdofs : 1 < Mesh.bar.dofs := by decide
  constructor
  · obtain ⟨k, l, hs, hk, hl⟩ := perform_pairCalls .matrix Kernel.parse_diffusion
      Kernel.parse_mass (by decide)
    obtain ⟨hD, hc⟩ := isScalar_pairConstants (congrArg constants hs)
    obtain ⟨A, hA, hAentry⟩ := exists_stiffness_bar (k := k) fun c hc =>
      Kernel.isStiffness_scalar hk Kernel.parse_diffusion (by decide) rfl
        (Mesh.isStraight_bar hc).isLagrange (Mesh.isStraight_bar hc).dofsPerNode_eq
    obtain ⟨B, hB⟩ := exists_matrix (m := Mesh.bar) (k := l) fun c hc =>
      (Mesh.isStraight_bar hc).exists_mass (x := .real 3)
        (Kernel.isSandwich_shape hl Kernel.parse_mass (by decide) rfl) trivial
    have hK := congrArg (fun s => s.entries.lookup "K") hs
    have hL := congrArg (fun s => s.entries.lookup "L") hs
    obtain ⟨hmatrix, -⟩ := assemble_combination Mesh.reachable_bar rfl _ hD hc hK hL rfl
    rw [htext] at hmatrix
    obtain ⟨s', M, hadd, hM, -, -, hentry⟩ := hmatrix A B "C"
      ((assemble_text_iff hK).mpr (hs ▸ .matrix rfl hA)) ((assemble_text_iff hL).mpr (hs ▸ .matrix rfl hB))
      (by rw [hs]; rfl)
    exact ⟨k, l, A, B, s', M, by rw [hs], hA, hB, hadd, hM, hAentry, hentry⟩
  · obtain ⟨k, l, hs, hk, hl⟩ := perform_pairCalls .vector Kernel.parse_transpose
      Kernel.parse_loaded (by decide)
    obtain ⟨hD, hc⟩ := isScalar_pairConstants (congrArg constants hs)
    have hrows {c : Cell ℝ} (hc : c ∈ Mesh.bar.cells) (ξ : List ℝ) (N : DenseMatrix ℝ)
        (hN : c.element.shape ξ = .ok N) : N.rows = 1 :=
      Element.rows_shape (Mesh.isStraight_bar hc).dofsPerNode_eq hN
    have hcolumn : ∀ c ∈ Mesh.bar.cells, k.IsColumn c.element fun N i => 1 * N.entry 0 i := by
      intro c hc
      simpa only [one_mul] using Kernel.isColumn_transpose hk (hrows hc)
    have hcolumn' : ∀ c ∈ Mesh.bar.cells, l.IsColumn c.element fun N i => 3 * N.entry 0 i :=
      fun c hc => Kernel.isColumn_loaded hl (x := .real 3) trivial rfl (hrows hc)
    obtain ⟨f, hf, hfvalue⟩ := exists_load_bar hcolumn
    obtain ⟨g, hg, hgvalue⟩ := exists_load_bar hcolumn'
    have hK := congrArg (fun s => s.entries.lookup "K") hs
    have hL := congrArg (fun s => s.entries.lookup "L") hs
    obtain ⟨-, hvector⟩ := assemble_combination Mesh.reachable_bar rfl _ hD hc hK hL rfl
    rw [htext] at hvector
    obtain ⟨s', v, hadd, hv, -, hentry⟩ := hvector f g "C"
      ((assemble_text_iff hK).mpr (.vector rfl hf)) ((assemble_text_iff hL).mpr (.vector rfl hg))
      (by rw [hs]; rfl) (haveSameShape_of_isColumn hcolumn hcolumn')
    refine ⟨k, l, f, g, s', v, by rw [hs], hf, hg, hadd, hv, hfvalue, hgvalue, ?_⟩
    rw [hentry 1 hdofs, hfvalue, hgvalue]

end Pair

end Formulation
end WeakForm
