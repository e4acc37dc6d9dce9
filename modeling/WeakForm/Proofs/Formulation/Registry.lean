import WeakForm.Proofs.Assembly.OverCells
import WeakForm.Proofs.Formulation.Expansions

/-!
# The names of a formulation

A formulation is changed by definitions and by assemblies, any of which may fail. At all times its names
are distinct and valid and the value of an entry is that of its present kernel. No call changes the kind
of a name, and only a definition under the same name changes what a name stands for.
-/

namespace WeakForm
namespace Formulation

/-- A call that defines a name or assembles an entry. -/
inductive Call (α : Type) where
  | constant (name : String) (value : Datum α)
  | entry (kind : EntryKind) (name : String) (source : Kernel.Source α) (boundary : Option TagId)
  | assemble (name : Datum α)

variable {α : Type}

/-- The name that a call defines. -/
def Call.defined? : Call α → Option String
  | constant name _ => some name
  | entry _ name _ _ => some name
  | assemble _ => none

variable [Scalar α]

/-- The outcome of a call, and the formulation after it. -/
def Call.run (m : Mesh α) (s : Formulation α) : Call α → Except (Error α) Unit × Formulation α
  | constant name value =>
    match s.addConstant name value with
    | .error e => (.error e, s)
    | .ok s' => (.ok (), s')
  | entry kind name source boundary =>
    match s.addEntry m kind name source boundary with
    | .error e => (.error e, s)
    | .ok s' => (.ok (), s')
  | assemble name => ((s.assemble m name).1.map fun _ => (), (s.assemble m name).2)

/-- The formulation after calls one after the other. -/
def perform (m : Mesh α) (s : Formulation α) (calls : List (Call α)) : Formulation α :=
  calls.foldl (fun s call => (call.run m s).2) s

variable {m : Mesh α} {s s' : Formulation α} {name : String}

section Assemblies

/-- The matrix, or the vector, that the kernel of an entry has over its boundary. -/
inductive IsAssembly (m : Mesh α) (method : AssemblyMethod) (e : Entry α) : Assembled α → Prop
  | matrix {A : SparseMatrix α} (hkind : e.kind = .matrix)
      (hA : Assembly.matrix m e.kernel e.boundary method = .ok A) : IsAssembly m method e (.matrix A)
  | vector {f : Array α} (hkind : e.kind = .vector)
      (hf : Assembly.vector m e.kernel e.boundary = .ok f) : IsAssembly m method e (.vector f)

theorem evaluate_matrix {e : Entry α} (hkind : e.kind = .matrix) :
    s.evaluate m e = (Assembly.matrix m e.kernel e.boundary s.method).map .matrix := by
  rw [evaluate, hkind]

theorem evaluate_vector {e : Entry α} (hkind : e.kind = .vector) :
    s.evaluate m e = (Assembly.vector m e.kernel e.boundary).map .vector := by
  rw [evaluate, hkind]

theorem evaluate_eq_ok {e : Entry α} {v : Assembled α} :
    s.evaluate m e = .ok v ↔ IsAssembly m s.method e v := by
  constructor
  · intro h
    cases hkind : e.kind with
    | matrix =>
      rw [evaluate_matrix hkind] at h
      obtain ⟨A, hA, rfl⟩ := map_eq_ok.mp h
      exact .matrix hkind hA
    | vector =>
      rw [evaluate_vector hkind] at h
      obtain ⟨f, hf, rfl⟩ := map_eq_ok.mp h
      exact .vector hkind hf
  · rintro (⟨hkind, hA⟩ | ⟨hkind, hf⟩)
    · rw [evaluate_matrix hkind, hA]
      rfl
    · rw [evaluate_vector hkind, hf]
      rfl

theorem IsAssembly.withValue {method : AssemblyMethod} {e : Entry α} {v : Assembled α}
    (h : IsAssembly m method e v) (value : Option (Assembled α)) :
    IsAssembly m method { e with value := value } v := by
  cases h with
  | matrix hkind hA => exact .matrix hkind hA
  | vector hkind hf => exact .vector hkind hf

/-- The formulations agree but for the value of one entry. -/
structure AgreesBut (s s' : Formulation α) (name : String) (value : Option (Assembled α)) : Prop where
  method : s'.method = s.method
  constants : s'.constants = s.constants
  keys : s'.entries.map Prod.fst = s.entries.map Prod.fst
  others : ∀ n, n ≠ name → s'.entries.lookup n = s.entries.lookup n
  entry : ∀ e, s.entries.lookup name = some e → s'.entries.lookup name = some { e with value := value }

omit [Scalar α] in
theorem agreesBut_assign {e : Entry α} (he : s.entries.lookup name = some e)
    (value : Option (Assembled α)) :
    AgreesBut s { s with entries := assign name { e with value := value } s.entries } name value where
  method := rfl
  constants := rfl
  keys := by rw [map_fst_assign, if_pos (by rw [he]; rfl)]
  others n hn := by rw [lookup_assign, if_neg (by simpa using hn)]
  entry e' he' := by
    rw [lookup_assign, if_pos (beq_self_eq_true _), Option.some.inj (he.symm.trans he')]

omit [Scalar α] in
theorem entry_eq_ok {d : Datum α} {e : Entry α} (h : s.entry d = .ok (name, e)) :
    d.toName = .ok (some name) ∧ s.entries.lookup name = some e := by
  rw [entry, bind_eq_ok] at h
  obtain ⟨n, hn, h⟩ := h
  split at h
  · rename_i found hfound
    cases h
    obtain ⟨n', rfl, hn'⟩ := Option.bind_eq_some_iff.mp hfound
    obtain ⟨e', he', heq⟩ := Option.map_eq_some_iff.mp hn'
    cases heq
    exact ⟨hn, he'⟩
  · cases h

theorem assemble_of_error {d : Datum α} {e : Error α} (h : s.entry d = .error e) :
    s.assemble m d = (.error e, s) := by
  rw [assemble, h]

/-- An assembly evaluates the entry and changes nothing but its value, which is none if it fails. -/
theorem assemble_of_ok {d : Datum α} {e : Entry α} (h : s.entry d = .ok (name, e)) :
    (s.assemble m d).1 = s.evaluate m e ∧
      (s.assemble m d).2 = { s with
        entries := assign name { e with value := (s.evaluate m e).toOption } s.entries } := by
  rw [assemble, h]
  dsimp only
  cases s.evaluate m e <;> exact ⟨rfl, rfl⟩

end Assemblies

section Steps

/-- A constant that is not given by a text has the value of its data. -/
theorem constantValue_of_datum {value : Datum α} (hdatum : ∀ text, value ≠ .text text) :
    s.constantValue value = Definition.valueOfData value := by
  unfold constantValue
  split
  · exact absurd rfl (hdatum _)
  · rfl

theorem addConstant_eq_ok {value : Datum α} :
    s.addConstant name value = .ok s' ↔ s.checkNew name .constant = .ok () ∧
      ∃ v, s.constantValue value = .ok v ∧ s' = { s with constants := assign name v s.constants } := by
  constructor
  · intro h
    rw [addConstant, bind_eq_ok] at h
    obtain ⟨⟨⟩, hcheck, h⟩ := h
    obtain ⟨v, hv, h⟩ := bind_eq_ok.mp h
    cases h
    exact ⟨hcheck, v, hv, rfl⟩
  · rintro ⟨hcheck, v, hv, rfl⟩
    rw [addConstant, hcheck, ok_bind, hv]
    rfl

/-- What a call does to a formulation. -/
inductive Change (m : Mesh α) (s : Formulation α) (call : Call α) : Formulation α → Prop
  | none : Change m s call s
  | constant {name : String} {v : Value α} (hname : call.defined? = some name)
      (hnew : s.checkNew name .constant = .ok ()) :
      Change m s call { s with constants := assign name v s.constants }
  | entry {name : String} {e : Entry α} (hname : call.defined? = some name)
      (hnew : s.checkNew name e.kind.toNameKind = .ok ()) (hvalue : e.value = .none) :
      Change m s call { s with entries := assign name e s.entries }
  | value {name : String} {e : Entry α} (he : s.entries.lookup name = some e) :
      Change m s call { s with
        entries := assign name { e with value := (s.evaluate m e).toOption } s.entries }

theorem Call.change (m : Mesh α) (s : Formulation α) (call : Call α) :
    Change m s call (call.run m s).2 := by
  cases call with
  | constant name value =>
    cases hcall : s.addConstant name value with
    | error e => simpa only [run, hcall] using .none
    | ok s' =>
      obtain ⟨hnew, v, -, rfl⟩ := addConstant_eq_ok.mp hcall
      simpa only [run, hcall] using .constant rfl hnew
  | entry kind name source boundary =>
    cases hcall : s.addEntry m kind name source boundary with
    | error e => simpa only [run, hcall] using .none
    | ok s' =>
      obtain ⟨hnew, -, k, -, rfl⟩ := addEntry_eq_ok.mp hcall
      simpa only [run, hcall] using .entry (e := ⟨kind, k, boundary, none⟩) rfl hnew rfl
  | assemble d =>
    cases hentry : s.entry d with
    | error e => simpa only [run, assemble_of_error hentry] using .none
    | ok found =>
      obtain ⟨name, e⟩ := found
      simpa only [run, (assemble_of_ok hentry).2] using .value (entry_eq_ok hentry).2

/-- A definition that fails leaves the formulation as it is. -/
theorem Call.run_of_error {call : Call α} (hname : call.defined?.isSome) {e : Error α}
    (h : (call.run m s).1 = .error e) : (call.run m s).2 = s := by
  cases call with
  | constant name value => cases hcall : s.addConstant name value <;> simp_all [run]
  | entry kind name source boundary =>
    cases hcall : s.addEntry m kind name source boundary <;> simp_all [run]
  | assemble d => cases hname

end Steps

section Invariants

/-- What holds of the names of a formulation at all times. -/
structure IsRegistry (m : Mesh α) (s : Formulation α) : Prop where
  constants_nodup : (s.constants.map Prod.fst).Nodup
  entries_nodup : (s.entries.map Prod.fst).Nodup
  disjoint : ∀ name, (s.constants.lookup name).isSome = true → s.entries.lookup name = none
  named : ∀ name, (s.nameKind? name).isSome = true →
    Names.isReserved name = false ∧ Names.isValid name = true
  values : ∀ name e, s.entries.lookup name = some e →
    e.value = none ∨ ∃ v, IsAssembly m s.method e v ∧ e.value = some v

theorem isRegistry_empty (m : Mesh α) (method : AssemblyMethod) : IsRegistry m ⟨method, [], []⟩ where
  constants_nodup := List.nodup_nil
  entries_nodup := List.nodup_nil
  disjoint := by simp
  named := by simp [nameKind?]
  values := by simp

variable {call : Call α}

theorem IsRegistry.change (h : IsRegistry m s) (hs : Change m s call s') : IsRegistry m s' := by
  cases hs with
  | none => exact h
  | @constant name v hname hnew =>
    refine ⟨nodup_map_fst_assign h.constants_nodup name v, h.entries_nodup, fun n hn => ?_,
      fun n hn => ?_, h.values⟩
    · by_cases heq : n = name
      · rw [heq]
        change s.entries.lookup name = none
        exact entries_lookup_of_checkNew hnew (h.disjoint name)
      · rw [lookup_assign, if_neg (by simpa using heq)] at hn
        exact h.disjoint n hn
    · by_cases heq : n = name
      · rw [heq]
        exact check_eq_ok.mp (checkNew_eq_ok.mp hnew).1
      · rw [nameKind?_isSome, lookup_assign, if_neg (by simpa using heq)] at hn
        exact h.named n (nameKind?_isSome.mpr hn)
  | @entry name e hname hnew hvalue =>
    refine ⟨h.constants_nodup, nodup_map_fst_assign h.entries_nodup name e, fun n hn => ?_,
      fun n hn => ?_, fun n e' hn => ?_⟩
    · have hne : n ≠ name := by
        rintro rfl
        rw [constants_lookup_of_checkNew hnew] at hn
        cases hn
      rw [lookup_assign, if_neg (by simpa using hne)]
      exact h.disjoint n hn
    · by_cases heq : n = name
      · rw [heq]
        exact check_eq_ok.mp (checkNew_eq_ok.mp hnew).1
      · rw [nameKind?_isSome, lookup_assign, if_neg (by simpa using heq)] at hn
        exact h.named n (nameKind?_isSome.mpr hn)
    · rw [lookup_assign] at hn
      split_ifs at hn
      · cases hn
        exact .inl hvalue
      · exact h.values n e' hn
  | @value name e he =>
    have hkeys : (s.entries.lookup name).isSome = true := by rw [he]; rfl
    refine ⟨h.constants_nodup, nodup_map_fst_assign h.entries_nodup name _, fun n hn => ?_,
      fun n hn => ?_, fun n e' hn => ?_⟩
    · rw [lookup_assign]
      split_ifs with heq
      · rw [beq_iff_eq.mp heq] at hn
        rw [h.disjoint name hn] at he
        cases he
      · exact h.disjoint n hn
    · refine h.named n (nameKind?_isSome.mpr ((nameKind?_isSome.mp hn).imp_right fun hn => ?_))
      rw [lookup_assign] at hn
      split_ifs at hn with heq
      · rw [beq_iff_eq.mp heq]
        exact hkeys
      · exact hn
    · rw [lookup_assign] at hn
      split_ifs at hn
      · cases hn
        cases heval : s.evaluate m e with
        | error err => exact .inl rfl
        | ok v => exact .inr ⟨v, (evaluate_eq_ok.mp heval).withValue _, rfl⟩
      · exact h.values n e' hn

/-- No call changes the kind of a name. -/
theorem Change.nameKind?_eq (hs : Change m s call s') {kind : NameKind}
    (h : s.nameKind? name = some kind) : s'.nameKind? name = some kind := by
  cases hs with
  | none => exact h
  | @constant n v hname hnew =>
    by_cases heq : name = n
    · subst heq
      obtain rfl := (checkNew_eq_ok.mp hnew).2 kind h
      simp [nameKind?, lookup_assign]
    · simpa [nameKind?, lookup_assign, heq] using h
  | @entry n e hname hnew hvalue =>
    by_cases heq : name = n
    · subst heq
      obtain rfl := (checkNew_eq_ok.mp hnew).2 kind h
      simp [nameKind?, lookup_assign, constants_lookup_of_checkNew hnew]
    · simpa [nameKind?, lookup_assign, heq] using h
  | @value n e he =>
    by_cases heq : name = n
    · subst heq
      simpa [nameKind?, lookup_assign, he] using h
    · simpa [nameKind?, lookup_assign, heq] using h

/-- A call that does not define a name changes nothing about it but its value. -/
theorem Change.entry_eq (hs : Change m s call s') (hcall : call.defined? ≠ some name) {e : Entry α}
    (h : s.entries.lookup name = some e) :
    ∃ value, s'.entries.lookup name = some { e with value := value } := by
  cases hs with
  | none | constant => exact ⟨e.value, h⟩
  | entry hname =>
    refine ⟨e.value, ?_⟩
    rw [lookup_assign, if_neg]
    · exact h
    · rintro heq
      exact hcall (beq_iff_eq.mp heq ▸ hname)
  | @value n e' he =>
    by_cases heq : name = n
    · subst heq
      obtain rfl := Option.some.inj (he.symm.trans h)
      exact ⟨_, by rw [lookup_assign, if_pos (beq_self_eq_true _)]⟩
    · exact ⟨e.value, by rw [lookup_assign, if_neg (by simpa using heq)]; exact h⟩

theorem Change.constants_eq (hs : Change m s call s') (hcall : call.defined? ≠ some name) :
    s'.constants.lookup name = s.constants.lookup name := by
  cases hs with
  | none | entry | value => rfl
  | constant hname =>
    rw [lookup_assign, if_neg]
    rintro heq
    exact hcall (beq_iff_eq.mp heq ▸ hname)

end Invariants

section Runs

theorem IsRegistry.perform (h : IsRegistry m s) (calls : List (Call α)) :
    IsRegistry m (perform m s calls) := by
  induction calls generalizing s with
  | nil => exact h
  | cons call calls ih => exact ih (h.change (call.change m s))

theorem nameKind?_perform {kind : NameKind} (h : s.nameKind? name = some kind) (calls : List (Call α)) :
    (perform m s calls).nameKind? name = some kind := by
  induction calls generalizing s with
  | nil => exact h
  | cons call calls ih => exact ih ((call.change m s).nameKind?_eq h)

theorem entry_perform {e : Entry α} (h : s.entries.lookup name = some e) {calls : List (Call α)}
    (hcalls : ∀ call ∈ calls, call.defined? ≠ some name) :
    ∃ value, (perform m s calls).entries.lookup name = some { e with value := value } := by
  induction calls generalizing s e with
  | nil => exact ⟨e.value, h⟩
  | cons call calls ih =>
    obtain ⟨hcall, hcalls⟩ := List.forall_mem_cons.mp hcalls
    obtain ⟨value, hvalue⟩ := (call.change m s).entry_eq hcall h
    obtain ⟨value', hvalue'⟩ := ih hvalue hcalls
    exact ⟨value', hvalue'⟩

theorem constants_perform {calls : List (Call α)}
    (hcalls : ∀ call ∈ calls, call.defined? ≠ some name) :
    (perform m s calls).constants.lookup name = s.constants.lookup name := by
  induction calls generalizing s with
  | nil => rfl
  | cons call calls ih =>
    obtain ⟨hcall, hcalls⟩ := List.forall_mem_cons.mp hcalls
    exact (ih hcalls).trans ((call.change m s).constants_eq hcall)

end Runs

section Registered

omit [Scalar α] in
theorem lookup_constant {v : Value α} (h : s.constants.lookup name = some v) :
    s.definitions.lookup name = some (.constant v) := by
  simp [definitions, List.lookup_append, lookup_map_value, h]

theorem IsRegistry.lookup_kernel (hs : IsRegistry m s) {e : Entry α}
    (h : s.entries.lookup name = some e) : s.definitions.lookup name = some (.kernel e.kernel) := by
  have hnone : s.constants.lookup name = none := by
    by_contra hsome
    rw [hs.disjoint name (Option.isSome_iff_ne_none.mpr hsome)] at h
    cases h
  rw [definitions, List.lookup_append, lookup_map_value,
    lookup_map_value fun e : Entry α => Definition.kernel e.kernel, hnone, h]
  rfl

theorem IsRegistry.named_of_lookup (hs : IsRegistry m s) {d : Definition α}
    (h : s.definitions.lookup name = some d) :
    Names.isReserved name = false ∧ Names.isValid name = true := by
  refine hs.named name (nameKind?_isSome.mpr ?_)
  rw [definitions, List.lookup_append, lookup_map_value,
    lookup_map_value fun e : Entry α => Definition.kernel e.kernel] at h
  have hsome := congrArg Option.isSome h
  rw [Option.isSome_or, Option.isSome_map, Option.isSome_map] at hsome
  simpa using hsome

theorem IsRegistry.areNamed (hs : IsRegistry m s) : s.definitions.AreNamed := by
  intro d hd
  have hnamed : d.2.isUnnamed = false := by
    rcases List.mem_append.mp hd with hd | hd
    · obtain ⟨c, -, rfl⟩ := List.mem_map.mp hd
      rfl
    · obtain ⟨e, -, rfl⟩ := List.mem_map.mp hd
      rfl
  obtain ⟨v, hv⟩ := Option.isSome_iff_exists.mp
    (Definitions.lookup_isSome.mpr (List.mem_map_of_mem (f := Prod.fst) hd))
  obtain ⟨hreserved, hvalid⟩ := hs.named_of_lookup hv
  exact ⟨hvalid, hreserved, hnamed⟩

omit [Scalar α] in
theorem entry_text {e : Entry α} (h : s.entries.lookup name = some e) :
    s.entry (.text name) = .ok (name, e) := by
  have hname : (Datum.text name : Datum α).toName = .ok (some name) := rfl
  rw [entry, hname, ok_bind]
  simp only [Option.bind_some, h]
  rfl

/-- An entry is assembled by its name, and keeps the result. -/
theorem assemble_eq_ok {e : Entry α} {v : Assembled α} (h : s.entries.lookup name = some e)
    (hv : IsAssembly m s.method e v) : s.assemble m (.text name) =
      (.ok v, { s with entries := assign name { e with value := some v } s.entries }) := by
  obtain ⟨houtcome, hafter⟩ := assemble_of_ok (m := m) (entry_text h)
  rw [evaluate_eq_ok.mpr hv] at houtcome hafter
  exact Prod.ext houtcome hafter

/-- A form of names in use is registered with its kernel. -/
theorem exists_entry {s : Formulation ℝ} {m : Mesh ℝ} (hs : IsRegistry m s) (kind : EntryKind)
    (name : String) {text : String} {tree : Expr} (hparse : Expr.parse text = .ok tree)
    (hnames : ∀ n ∈ tree.names, Names.isReserved n = true ∨ (s.definitions.lookup n).isSome = true)
    (hnew : s.checkNew name kind.toNameKind = .ok ()) :
    ∃ k, Kernel.compile name text s.definitions = .ok k ∧
      (Call.entry kind name (.form (.text text)) none).run m s =
        (.ok (), { s with entries := assign name ⟨kind, k, none, none⟩ s.entries }) := by
  obtain ⟨k, hk⟩ := Kernel.exists_compile hparse hs.areNamed
    (fun n hn => (hnames n hn).imp_right Definitions.lookup_isSome.mp) name
  have hadd : s.addEntry m kind name (.form (.text text)) none =
      .ok { s with entries := assign name ⟨kind, k, none, none⟩ s.entries } :=
    addEntry_eq_ok.mpr ⟨hnew, nofun, k, hk, rfl⟩
  exact ⟨k, hk, by rw [Call.run, hadd]⟩

end Registered

/-- After any calls on a formulation without names: its names are distinct, valid and not reserved, no
constant is an entry, and the value of an entry is none or the assembly of its present kernel over its
present boundary. Whatever is called then, a name keeps its kind; a definition that fails changes
nothing; an entry that is defined has the kernel of its source, no value, and keeps its kernel and its
boundary until it is defined anew; an assembly changes the value of its entry only, to none if it
fails. -/
theorem registry_after_calls (m : Mesh α) (method : AssemblyMethod) (calls : List (Call α)) :
    let s := perform m ⟨method, [], []⟩ calls
    IsRegistry m s ∧
      (∀ name kind, s.nameKind? name = some kind →
        ∀ later, (perform m s later).nameKind? name = some kind) ∧
      (∀ (call : Call α) e, call.defined?.isSome → (call.run m s).1 = .error e →
        (call.run m s).2 = s) ∧
      (∀ kind name source boundary, (Call.entry kind name source boundary).run m s =
          (.ok (), ((Call.entry kind name source boundary).run m s).2) →
        ∃ k, Kernel.ofSource name source s.definitions = .ok k ∧
          ((Call.entry kind name source boundary).run m s).2.entries.lookup name =
            some ⟨kind, k, boundary, none⟩) ∧
      (∀ name later, (∀ call ∈ later, call.defined? ≠ some name) →
        (perform m s later).constants.lookup name = s.constants.lookup name ∧
        ∀ e, s.entries.lookup name = some e →
          ∃ value, (perform m s later).entries.lookup name = some { e with value := value }) ∧
      ∀ d, (∀ e, s.entry d = .error e → s.assemble m d = (.error e, s)) ∧
        ∀ name e, s.entry d = .ok (name, e) →
          (e.kind = .matrix → (s.assemble m d).1 =
            (Assembly.matrix m e.kernel e.boundary s.method).map .matrix) ∧
          (e.kind = .vector → (s.assemble m d).1 =
            (Assembly.vector m e.kernel e.boundary).map .vector) ∧
          AgreesBut s (s.assemble m d).2 name (s.assemble m d).1.toOption := by
  intro s
  refine ⟨(isRegistry_empty m method).perform calls, fun name kind h => nameKind?_perform h,
    fun call e hname => call.run_of_error hname, ?_,
    fun name later hlater => ⟨constants_perform hlater, fun e he => entry_perform he hlater⟩,
    fun d => ⟨fun e he => assemble_of_error he, fun name e he => ?_⟩⟩
  · intro kind name source boundary hcall
    cases hadd : s.addEntry m kind name source boundary with
    | error e => simp [Call.run, hadd] at hcall
    | ok s' =>
      obtain ⟨-, -, k, hk, rfl⟩ := addEntry_eq_ok.mp hadd
      exact ⟨k, hk, by simp [Call.run, hadd, lookup_assign]⟩
  · obtain ⟨houtcome, hafter⟩ := assemble_of_ok (m := m) he
    refine ⟨fun hkind => houtcome.trans (evaluate_matrix hkind),
      fun hkind => houtcome.trans (evaluate_vector hkind), ?_⟩
    rw [hafter, houtcome]
    exact agreesBut_assign (entry_eq_ok he).2 _

section Redefinition

/-- The stiffness of a bar in terms of its constant. -/
noncomputable def stiffnessCall : Call ℝ := .entry .matrix "K" (.form (.text "B'*D*B")) none

/-- The constant of a bar is given, its stiffness is defined and assembled, and then the constant is given
anew. -/
noncomputable def barCalls : List (Call ℝ) :=
  [.constant "D" (.real 3), stiffnessCall, .assemble (.text "K"), .constant "D" (.real 5)]

/-- The stiffness of a bar is registered with that of its present constant. -/
theorem exists_stiffnessCall {s : Formulation ℝ} (hs : IsRegistry Mesh.bar s) {x : ℝ}
    (hD : s.definitions.lookup "D" = some (.constant (.plain (.real x))))
    (hnew : s.checkNew "K" EntryKind.matrix.toNameKind = .ok ()) :
    ∃ k A, stiffnessCall.run Mesh.bar s =
        (.ok (), { s with entries := assign "K" ⟨.matrix, k, none, none⟩ s.entries }) ∧
      Assembly.matrix Mesh.bar k none .triplet = .ok A ∧
        A.matrix 3 = !![x, -x, 0; -x, x + x, -x; 0, -x, x] := by
  have hnames : ∀ n ∈ (Kernel.sandwich "B" "D").names,
      Names.isReserved n = true ∨ (s.definitions.lookup n).isSome = true := by
    intro n hn
    have hname : n = "B" ∨ n = "D" ∨ n = "B" := by simpa [Kernel.sandwich, Expr.names] using hn
    rcases hname with rfl | rfl | rfl
    · exact .inl (by decide)
    · exact .inr (by rw [hD]; rfl)
    · exact .inl (by decide)
  obtain ⟨k, hk, hcall⟩ := exists_entry hs .matrix "K" Kernel.parse_diffusion hnames hnew
  obtain ⟨A, hA, hentry⟩ := Assembly.exists_stiffness_bar fun c hc =>
    Kernel.isStiffness_scalar hk Kernel.parse_diffusion (by decide) hD
      (Mesh.isStraight_bar hc).isLagrange (Mesh.isStraight_bar hc).dofsPerNode_eq
  exact ⟨k, A, hcall, hA, hentry⟩

/-- A matrix keeps its kernel and its value when a constant in its form is given anew. When it is defined
anew itself it has no value, until it is assembled with the present constant. -/
theorem redefinition_over_bar : ∃ k l A B,
    let s := perform Mesh.bar ⟨.triplet, [], []⟩ barCalls
    let t := (stiffnessCall.run Mesh.bar s).2
    s.entries = [("K", ⟨.matrix, k, none, some (.matrix A)⟩)] ∧
      A.matrix 3 = !![3, -3, 0; -3, 3 + 3, -3; 0, -3, 3] ∧
      t.entries = [("K", ⟨.matrix, l, none, none⟩)] ∧
      (t.assemble Mesh.bar (.text "K")).1 = .ok (.matrix B) ∧
      B.matrix 3 = !![5, -5, 0; -5, 5 + 5, -5; 0, -5, 5] := by
  have hs := (isRegistry_empty Mesh.bar (α := ℝ) .triplet).perform
  obtain ⟨k, A, hfirst, hA, hAentry⟩ := exists_stiffnessCall
    (s := ⟨.triplet, [("D", .plain (.real 3))], []⟩) (hs [.constant "D" (.real 3)]) (x := 3) rfl rfl
  have hassembled : assemble ⟨.triplet, [("D", .plain (.real 3))], [("K", ⟨.matrix, k, none, none⟩)]⟩
      Mesh.bar (.text "K") = (.ok (.matrix A),
        ⟨.triplet, [("D", .plain (.real 3))], [("K", ⟨.matrix, k, none, some (.matrix A)⟩)]⟩) :=
    assemble_eq_ok (e := ⟨.matrix, k, none, none⟩) rfl (.matrix rfl hA)
  have hperform : perform Mesh.bar ⟨.triplet, [], []⟩ barCalls = ⟨.triplet, [("D", .plain (.real 5))],
      [("K", ⟨.matrix, k, none, some (.matrix A)⟩)]⟩ := by
    have hcalls : perform Mesh.bar ⟨.triplet, [], []⟩ barCalls =
        (Call.run Mesh.bar (assemble (stiffnessCall.run Mesh.bar
          ⟨.triplet, [("D", .plain (.real 3))], []⟩).2 Mesh.bar (.text "K")).2
            (.constant "D" (.real 5))).2 := rfl
    rw [hcalls, hfirst]
    change (Call.run Mesh.bar (assemble ⟨.triplet, [("D", .plain (.real 3))],
      [("K", ⟨.matrix, k, none, none⟩)]⟩ Mesh.bar (.text "K")).2 (.constant "D" (.real 5))).2 = _
    rw [hassembled]
    rfl
  obtain ⟨l, B, hsecond, hB, hBentry⟩ := exists_stiffnessCall (hs barCalls) (x := 5)
    (by rw [hperform]; rfl) (by rw [hperform]; rfl)
  rw [hperform] at hsecond ⊢
  refine ⟨k, l, A, B, rfl, hAentry, ?_, ?_, hBentry⟩
  · rw [hsecond]
    rfl
  · have hassembled : (assemble ⟨.triplet, [("D", .plain (.real 5))],
        [("K", ⟨.matrix, l, none, none⟩)]⟩ Mesh.bar (.text "K")).1 = .ok (.matrix B) :=
      congrArg Prod.fst (assemble_eq_ok (e := ⟨.matrix, l, none, none⟩) rfl (.matrix rfl hB))
    rw [hsecond]
    exact hassembled

end Redefinition

end Formulation
end WeakForm
