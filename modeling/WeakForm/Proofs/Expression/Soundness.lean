import WeakForm.Proofs.Expression.Readings

/-!
# Readers follow the grammar

A reader that succeeds has read a list of tokens that derives its result, and the others are left.
One that fails names one of the tokens that it was given, or the end behind them. Both are shown
together for all readers by recursion on the number of tokens, as the readers themselves call each
other.
-/

namespace WeakForm

/-- An expression has a token at least. -/
theorem Derives.ne_nil {c : Category} {ts : List Token} {e : Expr} (h : Derives c ts e) :
    ts ≠ [] := by
  induction h <;> simp_all

theorem JoinedBy.append_head {mark : String} {p : List Token} {parts : List (List Token)}
    {ts : List Token} (front : List Token) (h : JoinedBy mark (p :: parts) ts) :
    JoinedBy mark ((front ++ p) :: parts) (front ++ ts) := by
  cases h with
  | one => exact .one _
  | cons ht h =>
    rw [← List.append_assoc]
    exact .cons ht h

namespace Parser

/-- The end of the text. -/
def finish (stop : ℕ) : Token := current stop []

/-- A reading of the tokens `ts` whose result is right for the tokens that were read. -/
def Sound {β : Type} (stop : ℕ) (ts : List Token) (P : β → List Token → Prop) :
    Except Fault (β × List Token) → Prop
  | .ok r => ∃ us, ts = us ++ r.2 ∧ P r.1 us
  | .error (.token _ found) => found ∈ ts ++ [finish stop]
  | .error .unequalRows => True

variable {stop : ℕ} {β γ : Type} {ts : List Token}

section Sound

theorem mem_of_mem_rest {us rest : List Token} {t : Token} (hts : ts = us ++ rest)
    (h : t ∈ rest ++ [finish stop]) : t ∈ ts ++ [finish stop] := by
  rw [hts]
  simp only [List.mem_append] at h ⊢
  tauto

theorem current_mem (rest : List Token) : current stop rest ∈ rest ++ [finish stop] := by
  cases rest <;> simp [current, finish]

/-- What follows a sound reading is read from the tokens it leaves. -/
theorem Sound.bind {P : β → List Token → Prop} {Q : γ → List Token → Prop}
    {x : Except Fault (β × List Token)} {f : β × List Token → Except Fault (γ × List Token)}
    (hx : Sound stop ts P x)
    (hf : ∀ b us rest, ts = us ++ rest → P b us →
      Sound stop rest (fun c vs => Q c (us ++ vs)) (f (b, rest))) :
    Sound stop ts Q (x >>= f) := by
  match x with
  | .error f => cases f <;> exact hx
  | .ok (b, rest) =>
    obtain ⟨us, hts, hb⟩ := hx
    have hrest := hf b us rest hts hb
    rw [ok_bind]
    match hfb : f (b, rest) with
    | .ok (c, rest') =>
      rw [hfb] at hrest
      obtain ⟨vs, hvs, hc⟩ := hrest
      exact ⟨us ++ vs, by rw [hts, hvs, List.append_assoc], hc⟩
    | .error (.token _ found) =>
      rw [hfb] at hrest
      exact mem_of_mem_rest hts hrest
    | .error .unequalRows => trivial

theorem Sound.map {P : β → List Token → Prop} {Q : γ → List Token → Prop}
    {x : Except Fault (β × List Token)} {f : β → γ} (hx : Sound stop ts P x)
    (hf : ∀ b us, P b us → Q (f b) us) : Sound stop ts Q (x.map fun r => (f r.1, r.2)) := by
  match x with
  | .error f => cases f <;> exact hx
  | .ok (b, rest) =>
    obtain ⟨us, hts, hb⟩ := hx
    exact ⟨us, hts, hf b us hb⟩

theorem Sound.imp {P Q : β → List Token → Prop} {x : Except Fault (β × List Token)}
    (hx : Sound stop ts P x) (h : ∀ b us, P b us → Q b us) : Sound stop ts Q x := by
  match x with
  | .error f => cases f <;> exact hx
  | .ok (b, rest) =>
    obtain ⟨us, hts, hb⟩ := hx
    exact ⟨us, hts, h b us hb⟩

/-- A reader that takes a token and goes on with the others. -/
theorem Sound.cons {P : β → List Token → Prop} {x : Except Fault (β × List Token)} {t : Token}
    (hx : Sound stop ts (fun b us => P b (t :: us)) x) : Sound stop (t :: ts) P x := by
  match x with
  | .error (.token _ found) => exact List.mem_cons_of_mem _ hx
  | .error .unequalRows => trivial
  | .ok (b, rest) =>
    obtain ⟨us, hts, hb⟩ := hx
    exact ⟨t :: us, by rw [hts]; rfl, hb⟩

theorem Sound.done {P : β → List Token → Prop} {b : β} (h : P b []) :
    Sound stop ts P (.ok (b, ts)) := ⟨[], rfl, h⟩

theorem Sound.closed {P : β → List Token → Prop} {b : β} {text : String}
    (h : ∀ t : Token, t.Marks text → P b [t]) : Sound stop ts P (closed stop text (b, ts)) := by
  cases ts with
  | nil => simp [Parser.closed, Sound, finish]
  | cons t rest =>
    simp only [Parser.closed]
    split_ifs with ht
    · exact ⟨[t], rfl, h t (isMark_iff.mp ht)⟩
    · simp [Sound]

end Sound

section Entries

/-- The rows that are read up to the closing bracket, after the rows `done` and the entries `row`
of the current row. -/
def RowsFrom (done : List (List Expr)) (row : List Expr) (value : List (List Expr))
    (us : List Token) : Prop :=
  ∃ (u : Token) (body : List Token) (first : List Token × List (List Token × Expr))
    (more : List (List Token × List (List Token × Expr))),
    us = body ++ [u] ∧ u.Marks "]" ∧ JoinedBy ";" (first.1 :: more.map Prod.fst) body ∧
      (∀ r ∈ first :: more, JoinedBy "," (r.2.map Prod.fst) r.1 ∧
        ∀ c ∈ r.2, Derives .sum c.1 c.2) ∧
      value = done ++ (row ++ first.2.map Prod.snd) :: more.map fun r => r.2.map Prod.snd

variable {done : List (List Expr)} {row : List Expr} {a : Expr} {cs us : List Token}
  {value : List (List Expr)}

theorem RowsFrom.last (ha : Derives .sum cs a) {t : Token} (ht : t.Marks "]") :
    RowsFrom done row (done ++ [row ++ [a]]) (cs ++ [t]) := by
  refine ⟨t, cs, (cs, [(cs, a)]), [], rfl, ht, .one _, ?_, by simp⟩
  simp only [List.mem_singleton, forall_eq, List.map_cons, List.map_nil]
  exact ⟨.one _, ha⟩

theorem RowsFrom.entry (ha : Derives .sum cs a) {t : Token} (ht : t.Marks ",")
    (h : RowsFrom done (row ++ [a]) value us) : RowsFrom done row value (cs ++ t :: us) := by
  obtain ⟨u, body, first, more, rfl, hu, hbody, hrows, rfl⟩ := h
  refine ⟨u, cs ++ t :: body, (cs ++ t :: first.1, (cs, a) :: first.2), more, by simp, hu, ?_, ?_,
    by simp⟩
  · simpa using hbody.append_head (cs ++ [t])
  · obtain ⟨hfirst, hmore⟩ := List.forall_mem_cons.mp hrows
    refine List.forall_mem_cons.mpr ⟨⟨.cons ht hfirst.1, ?_⟩, hmore⟩
    exact List.forall_mem_cons.mpr ⟨ha, hfirst.2⟩

theorem RowsFrom.newRow (ha : Derives .sum cs a) {t : Token} (ht : t.Marks ";")
    (h : RowsFrom (done ++ [row ++ [a]]) [] value us) :
    RowsFrom done row value (cs ++ t :: us) := by
  obtain ⟨u, body, first, more, rfl, hu, hbody, hrows, rfl⟩ := h
  refine ⟨u, cs ++ t :: body, (cs, [(cs, a)]), first :: more, by simp, hu, .cons ht hbody, ?_,
    by simp⟩
  refine List.forall_mem_cons.mpr ⟨⟨.one _, ?_⟩, hrows⟩
  simpa using ha

/-- Rows of one length make an array. -/
theorem RowsFrom.derives (h : RowsFrom [] [] value us) {t : Token} (ht : t.Marks "[")
    (hwidth : (value.all fun r => r.length == (value.headD []).length) = true) :
    Derives .primary (t :: us) (.array value) := by
  obtain ⟨u, body, first, more, rfl, hu, hbody, hrows, hvalue⟩ := h
  have hrows' : value = (first :: more).map fun r => r.2.map Prod.snd := by simpa using hvalue
  rw [hrows']
  refine .array (value.headD []).length ht hbody (fun r hr => (hrows r hr).1) (fun r hr => ?_)
    (fun r hr => (hrows r hr).2) hu
  have hmem : r.2.map Prod.snd ∈ value := by
    rw [hrows']
    exact List.mem_map_of_mem (f := fun r : List Token × List (List Token × Expr) =>
      r.2.map Prod.snd) hr
  have hlen := List.all_eq_true.mp hwidth _ hmem
  simpa using hlen

end Entries

section Readers

/-- Something that derives an expression leaves fewer tokens. -/
theorem rest_lt {c : Category} {us rest : List Token} {e : Expr} (hts : ts = us ++ rest)
    (h : Derives c us e) : rest.length < ts.length := by
  have hpos := List.length_pos_iff.mpr h.ne_nil
  rw [hts, List.length_append]
  omega

theorem transposed_sound (e : Expr) (before ts : List Token) (h : Derives .postfixed before e) :
    Sound stop ts (fun e us => Derives .postfixed (before ++ us) e) (.ok (transposed (e, ts))) := by
  induction ts generalizing e before with
  | nil =>
    rw [transposed_nil]
    exact .done (by rwa [List.append_nil])
  | cons t rest ih =>
    by_cases ht : t.Marks "'"
    · rw [transposed_mark e ht]
      refine ((ih _ (before ++ [t]) (.transpose h ht)).imp ?_).cons
      intro e us hus
      simpa using hus
    · rw [← isMark_iff, Bool.not_eq_true] at ht
      rw [transposed_other e ht]
      exact .done (by rwa [List.append_nil])

mutual

theorem sum_sound (ts : List Token) :
    Sound stop ts (fun e us => Derives .sum us e) (reading (sum stop ts)) := by
  rw [reading_sum]
  refine (product_sound ts).bind ?_
  intro a us rest hts ha
  have hlt := rest_lt hts ha
  exact sumTail_sound a us rest (.summand ha)
termination_by (ts.length, 7)
decreasing_by
  · exact Prod.Lex.right _ (by decide)
  · exact Prod.Lex.left _ _ hlt

theorem sumTail_sound (a : Expr) (before ts : List Token) (h : Derives .sum before a) :
    Sound stop ts (fun e us => Derives .sum (before ++ us) e) (reading (sumTail stop a ts)) := by
  match ts with
  | [] =>
    rw [reading_sumTail_nil]
    exact .done (by rwa [List.append_nil])
  | t :: rest =>
    cases ht : additive? t with
    | none =>
      rw [reading_sumTail_none stop a ht]
      exact .done (by rwa [List.append_nil])
    | some op =>
      rw [reading_sumTail_some stop a ht]
      obtain ⟨hop, hmark⟩ := additive?_eq_some.mp ht
      refine ((product_sound rest).bind ?_).cons
      intro b us rest' hrest hb
      have hlt := rest_lt hrest hb
      refine (sumTail_sound _ (before ++ t :: us) rest' (.sum hop h hmark hb)).imp ?_
      intro e vs hvs
      simpa using hvs
termination_by (ts.length, 6)
decreasing_by
  · exact Prod.Lex.left _ _ (Nat.lt_succ_self _)
  · exact Prod.Lex.left _ _ (Nat.lt_succ_of_lt hlt)

theorem product_sound (ts : List Token) :
    Sound stop ts (fun e us => Derives .product us e) (reading (product stop ts)) := by
  rw [reading_product]
  refine (unary_sound ts).bind ?_
  intro a us rest hts ha
  have hlt := rest_lt hts ha
  exact productTail_sound a us rest (.factor ha)
termination_by (ts.length, 5)
decreasing_by
  · exact Prod.Lex.right _ (by decide)
  · exact Prod.Lex.left _ _ hlt

theorem productTail_sound (a : Expr) (before ts : List Token) (h : Derives .product before a) :
    Sound stop ts (fun e us => Derives .product (before ++ us) e)
      (reading (productTail stop a ts)) := by
  match ts with
  | [] =>
    rw [reading_productTail_nil]
    exact .done (by rwa [List.append_nil])
  | t :: rest =>
    cases ht : multiplicative? t with
    | none =>
      rw [reading_productTail_none stop a ht]
      exact .done (by rwa [List.append_nil])
    | some op =>
      rw [reading_productTail_some stop a ht]
      obtain ⟨hop, hmark⟩ := multiplicative?_eq_some.mp ht
      refine ((unary_sound rest).bind ?_).cons
      intro b us rest' hrest hb
      have hlt := rest_lt hrest hb
      refine (productTail_sound _ (before ++ t :: us) rest' (.product hop h hmark hb)).imp
        fun e vs hvs => ?_
      simpa using hvs
termination_by (ts.length, 4)
decreasing_by
  · exact Prod.Lex.left _ _ (Nat.lt_succ_self _)
  · exact Prod.Lex.left _ _ (Nat.lt_succ_of_lt hlt)

theorem unary_sound (ts : List Token) :
    Sound stop ts (fun e us => Derives .unary us e) (reading (unary stop ts)) := by
  match ts with
  | [] =>
    rw [unary]
    exact (power_sound []).imp fun e us => .unsigned
  | t :: rest =>
    cases ht : signOf? t with
    | none =>
      rw [reading_unary_none stop ht]
      exact (power_sound (t :: rest)).imp fun e us => .unsigned
    | some s =>
      rw [reading_unary_some stop ht]
      refine ((unary_sound rest).map ?_).cons
      intro e us he
      exact .signed (signOf?_eq_some.mp ht) he
termination_by (ts.length, 4)
decreasing_by
  · exact Prod.Lex.right _ (by decide)
  · exact Prod.Lex.right _ (by decide)
  · exact Prod.Lex.left _ _ (Nat.lt_succ_self _)

theorem power_sound (ts : List Token) :
    Sound stop ts (fun e us => Derives .power us e) (reading (power stop ts)) := by
  rw [reading_power]
  refine (postfixed_sound ts).bind ?_
  intro a us rest hts ha
  have hlt := rest_lt hts ha
  exact powerTail_sound a us rest (.base ha)
termination_by (ts.length, 3)
decreasing_by
  · exact Prod.Lex.right _ (by decide)
  · exact Prod.Lex.left _ _ hlt

theorem powerTail_sound (a : Expr) (before ts : List Token) (h : Derives .power before a) :
    Sound stop ts (fun e us => Derives .power (before ++ us) e)
      (reading (powerTail stop a ts)) := by
  match ts with
  | [] =>
    rw [reading_powerTail_nil]
    exact .done (by rwa [List.append_nil])
  | t :: rest =>
    by_cases ht : t.Marks "^"
    · rw [reading_powerTail_mark stop a ht]
      refine ((exponent_sound rest).bind ?_).cons
      intro b us rest' hrest hb
      have hlt := rest_lt hrest hb
      refine (powerTail_sound _ (before ++ t :: us) rest' (.power h ht hb)).imp ?_
      intro e vs hvs
      simpa using hvs
    · rw [← isMark_iff, Bool.not_eq_true] at ht
      rw [reading_powerTail_other stop a ht]
      exact .done (by rwa [List.append_nil])
termination_by (ts.length, 2)
decreasing_by
  · exact Prod.Lex.left _ _ (Nat.lt_succ_self _)
  · exact Prod.Lex.left _ _ (Nat.lt_succ_of_lt hlt)

theorem exponent_sound (ts : List Token) :
    Sound stop ts (fun e us => Derives .exponent us e) (reading (exponent stop ts)) := by
  match ts with
  | [] =>
    rw [exponent]
    exact (postfixed_sound []).imp fun e us => .plainExponent
  | t :: rest =>
    cases ht : signOf? t with
    | none =>
      rw [reading_exponent_none stop ht]
      exact (postfixed_sound (t :: rest)).imp fun e us => .plainExponent
    | some s =>
      rw [reading_exponent_some stop ht]
      refine ((exponent_sound rest).map ?_).cons
      intro e us he
      exact .signedExponent (signOf?_eq_some.mp ht) he
termination_by (ts.length, 2)
decreasing_by
  · exact Prod.Lex.right _ (by decide)
  · exact Prod.Lex.right _ (by decide)
  · exact Prod.Lex.left _ _ (Nat.lt_succ_self _)

theorem postfixed_sound (ts : List Token) :
    Sound stop ts (fun e us => Derives .postfixed us e) (reading (postfixed stop ts)) := by
  have hbind : reading (postfixed stop ts) =
      reading (primary stop ts) >>= fun r => .ok (transposed r) := by
    rw [reading_postfixed]
    cases reading (primary stop ts) <;> rfl
  rw [hbind]
  exact (primary_sound ts).bind fun a us rest _ ha => transposed_sound a us rest (.operand ha)
termination_by (ts.length, 1)
decreasing_by exact Prod.Lex.right _ (by decide)

theorem primary_sound (ts : List Token) :
    Sound stop ts (fun e us => Derives .primary us e) (reading (primary stop ts)) := by
  match ts with
  | [] =>
    rw [reading_primary_nil]
    exact current_mem []
  | t :: rest =>
    by_cases hnumber : t.kind = .number
    · rw [reading_primary_number stop hnumber]
      exact .cons (.done (.number hnumber))
    by_cases hname : t.kind = .name
    · rw [reading_primary_name stop hname]
      exact .cons (.done (.name hname))
    by_cases hopen : t.Marks "("
    · rw [reading_primary_parentheses stop hopen]
      refine ((sum_sound rest).bind ?_).cons
      intro a us rest' _ ha
      exact .closed fun u hu => .parentheses hopen ha hu
    by_cases harray : t.Marks "["
    · match rest with
      | [] =>
        rw [reading_primary_cut stop harray]
        exact List.mem_cons_of_mem _ (current_mem [])
      | u :: rest' =>
        by_cases hempty : u.Marks "]"
        · rw [reading_primary_empty stop harray hempty]
          exact List.mem_cons_of_mem _ (List.mem_cons_of_mem _ (current_mem rest'))
        · rw [← isMark_iff, Bool.not_eq_true] at hempty
          rw [reading_primary_array stop harray hempty]
          refine ((entries_sound [] [] (u :: rest')).bind ?_).cons
          intro value us rest'' _ hrows
          unfold rectangular
          split_ifs with hwidth
          · exact .done (by simpa using hrows.derives harray hwidth)
          · trivial
    rw [← isMark_iff, Bool.not_eq_true] at hopen harray
    rw [reading_primary_other stop hnumber hname hopen harray]
    simp [Sound]
termination_by (ts.length, 0)
decreasing_by
  · exact Prod.Lex.left _ _ (Nat.lt_succ_self _)
  · exact Prod.Lex.left _ _ (Nat.lt_succ_self _)

theorem entries_sound (done : List (List Expr)) (row : List Expr) (ts : List Token) :
    Sound stop ts (RowsFrom done row) (reading (entries stop done row ts)) := by
  rw [reading_entries]
  refine (sum_sound ts).bind ?_
  intro a us rest hts ha
  have hlt := rest_lt hts ha
  match rest with
  | [] => exact current_mem []
  | t :: rest' =>
    have hlt' : rest'.length < ts.length := by
      simp only [List.length_cons] at hlt
      omega
    dsimp only
    split_ifs with hcomma hsemicolon hclose
    · exact ((entries_sound done (row ++ [a]) rest').imp fun value vs hvs =>
        hvs.entry ha (isMark_iff.mp hcomma)).cons
    · exact ((entries_sound (done ++ [row ++ [a]]) [] rest').imp fun value vs hvs =>
        hvs.newRow ha (isMark_iff.mp hsemicolon)).cons
    · exact .cons (.done (.last ha (isMark_iff.mp hclose)))
    · simp [Sound]
termination_by (ts.length, 8)
decreasing_by
  · exact Prod.Lex.right _ (by decide)
  · exact Prod.Lex.left _ _ hlt'
  · exact Prod.Lex.left _ _ hlt'

end

end Readers

end Parser
end WeakForm
