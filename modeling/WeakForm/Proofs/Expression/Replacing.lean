import WeakForm.Proofs.Expression.Derivations

/-!
# Replacing names

A name of an expression may be replaced by any other expression in parentheses: the tokens then
stand for the tree in which the name is replaced by the tree of that expression. In particular the
grammar does not look at the positions of tokens.

When names in the text of an expression are replaced by the texts of other expressions in
parentheses, the new text is that of the expression with its names replaced. The marks keep what is
put in apart from its neighbours, so the pieces of the new text are those of the old ones.
-/

namespace WeakForm

/-- The tokens `us` are the tokens `ts`, perhaps at other positions, but instead of each name that has
a meaning there are the tokens of this meaning in parentheses. -/
inductive Expands (meaning : String → Option Expr) : List Token → List Token → Prop
  | nil : Expands meaning [] []
  | keep {t u : Token} {ts us : List Token} (hkind : u.kind = t.kind) (htext : u.text = t.text)
      (hmeaning : t.kind = .name → meaning t.text = none) (h : Expands meaning ts us) :
      Expands meaning (t :: ts) (u :: us)
  | replace {t u v : Token} {ts us vs : List Token} {e : Expr} (ht : t.kind = .name)
      (hmeaning : meaning t.text = some e) (hu : u.Marks "(") (he : Derives .sum us e)
      (hv : v.Marks ")") (h : Expands meaning ts vs) :
      Expands meaning (t :: ts) (u :: (us ++ v :: vs))

namespace Expands

variable {meaning : String → Option Expr} {t : Token} {ts us vs : List Token}

theorem append_inv (h : Expands meaning (ts ++ us) vs) :
    ∃ ts' us', vs = ts' ++ us' ∧ Expands meaning ts ts' ∧ Expands meaning us us' := by
  induction ts generalizing vs with
  | nil => exact ⟨[], vs, rfl, .nil, h⟩
  | cons t ts ih =>
    cases h with
    | keep hkind htext hmeaning h =>
      obtain ⟨ts', us', rfl, hts, hus⟩ := ih h
      exact ⟨_ :: ts', us', rfl, .keep hkind htext hmeaning hts, hus⟩
    | @replace _ u v _ ws _ _ ht hmeaning hu he hv h =>
      obtain ⟨ts', us', rfl, hts, hus⟩ := ih h
      exact ⟨u :: (ws ++ v :: ts'), us', by simp, .replace ht hmeaning hu he hv hts, hus⟩

/-- A token that is no name stays. -/
theorem cons_inv (ht : t.kind ≠ .name) (h : Expands meaning (t :: ts) vs) :
    ∃ u us, vs = u :: us ∧ u.kind = t.kind ∧ u.text = t.text ∧ Expands meaning ts us := by
  cases h with
  | keep hkind htext _ h => exact ⟨_, _, rfl, hkind, htext, h⟩
  | replace ht' => exact absurd ht' ht

theorem nil_inv (h : Expands meaning [] vs) : vs = [] := by
  cases h
  rfl

/-- A mark stays. -/
theorem mark_inv {text : String} (ht : t.Marks text) (h : Expands meaning (t :: ts) vs) :
    ∃ u us, vs = u :: us ∧ u.Marks text ∧ Expands meaning ts us := by
  obtain ⟨u, us, rfl, hkind, htext, h⟩ := h.cons_inv (by simp [ht.1])
  exact ⟨u, us, rfl, ⟨hkind.trans ht.1, htext.trans ht.2⟩, h⟩

theorem sign_inv {s : Sign} (ht : t.MarksSign s) (h : Expands meaning (t :: ts) vs) :
    ∃ u us, vs = u :: us ∧ u.MarksSign s ∧ Expands meaning ts us := by
  cases s
  · exact h.mark_inv (show t.Marks "+" from ht)
  · exact h.mark_inv (show t.Marks "-" from ht)

/-- The mark of an operation stays between its operands. -/
theorem operation_inv {op : Operation} (ht : t.MarksOperation op)
    (h : Expands meaning (ts ++ t :: us) vs) :
    ∃ ts' u us', vs = ts' ++ u :: us' ∧ u.MarksOperation op ∧ Expands meaning ts ts' ∧
      Expands meaning us us' := by
  obtain ⟨ts', rest, rfl, hts, hrest⟩ := h.append_inv
  have hmark : ∃ u us', rest = u :: us' ∧ u.MarksOperation op ∧ Expands meaning us us' := by
    cases op
    · exact hrest.mark_inv (show t.Marks "+" from ht)
    · exact hrest.mark_inv (show t.Marks "-" from ht)
    · exact hrest.mark_inv (show t.Marks "*" from ht)
    · exact hrest.mark_inv (show t.Marks "/" from ht)
    · exact hrest.mark_inv (show t.Marks "^" from ht)
  obtain ⟨u, us', rfl, hu, hus⟩ := hmark
  exact ⟨ts', u, us', rfl, hu, hts, hus⟩

/-- A mark at the end stays. -/
theorem last_inv {text : String} (ht : t.Marks text) (h : Expands meaning (ts ++ [t]) vs) :
    ∃ ts' u, vs = ts' ++ [u] ∧ u.Marks text ∧ Expands meaning ts ts' := by
  obtain ⟨ts', rest, rfl, hts, hrest⟩ := h.append_inv
  obtain ⟨u, us, rfl, hu, hus⟩ := hrest.mark_inv ht
  rw [hus.nil_inv]
  exact ⟨ts', u, rfl, hu, hts⟩

theorem joinedBy {mark : String} {parts : List (List Token)} (hj : JoinedBy mark parts ts)
    (h : Expands meaning ts vs) :
    ∃ parts', JoinedBy mark parts' vs ∧ List.Forall₂ (Expands meaning) parts parts' := by
  induction hj generalizing vs with
  | one ts => exact ⟨[vs], .one vs, .cons h .nil⟩
  | cons ht _ ih =>
    obtain ⟨ts', rest, rfl, hts, hrest⟩ := h.append_inv
    obtain ⟨u, us, rfl, hu, hus⟩ := hrest.mark_inv ht
    obtain ⟨parts', hparts, hall⟩ := ih hus
    exact ⟨ts' :: parts', .cons hu hparts, .cons hts hall⟩

end Expands

section Arrays

variable {meaning : String → Option Expr}

/-- The entries of a row after names are replaced. -/
theorem exists_cells {cells : List (List Token × Expr)} {parts : List (List Token)}
    (h : List.Forall₂ (Expands meaning) (cells.map Prod.fst) parts)
    (hcells : ∀ c ∈ cells, ∀ us, Expands meaning c.1 us →
      Derives .sum us (c.2.substitute meaning)) :
    ∃ cells' : List (List Token × Expr), cells'.map Prod.fst = parts ∧
      cells'.map Prod.snd = (cells.map Prod.snd).map (Expr.substitute meaning) ∧
      ∀ c ∈ cells', Derives .sum c.1 c.2 := by
  induction cells generalizing parts with
  | nil =>
    cases h
    exact ⟨[], rfl, rfl, by simp⟩
  | cons c cells ih =>
    obtain ⟨part, parts, hpart, hparts, rfl⟩ := List.forall₂_cons_left_iff.mp h
    obtain ⟨hc, hcells⟩ := List.forall_mem_cons.mp hcells
    obtain ⟨cells', rfl, hsnd, hall⟩ := ih hparts hcells
    refine ⟨(part, c.2.substitute meaning) :: cells', rfl, by simp [hsnd], ?_⟩
    exact List.forall_mem_cons.mpr ⟨hc part hpart, hall⟩

/-- The rows of an array after names are replaced. -/
theorem exists_arrayRows {rows : List (List Token × List (List Token × Expr))}
    {parts : List (List Token)}
    (h : List.Forall₂ (Expands meaning) (rows.map Prod.fst) parts)
    (hrow : ∀ row ∈ rows, JoinedBy "," (row.2.map Prod.fst) row.1)
    (hcells : ∀ row ∈ rows, ∀ c ∈ row.2, ∀ us, Expands meaning c.1 us →
      Derives .sum us (c.2.substitute meaning)) :
    ∃ rows' : List (List Token × List (List Token × Expr)), rows'.map Prod.fst = parts ∧
      rows'.map (fun row => row.2.map Prod.snd) =
        (rows.map fun row => row.2.map Prod.snd).map (fun row => row.map (Expr.substitute meaning)) ∧
      (∀ row ∈ rows', JoinedBy "," (row.2.map Prod.fst) row.1) ∧
      ∀ row ∈ rows', ∀ c ∈ row.2, Derives .sum c.1 c.2 := by
  induction rows generalizing parts with
  | nil =>
    cases h
    exact ⟨[], rfl, rfl, by simp, by simp⟩
  | cons row rows ih =>
    obtain ⟨part, parts, hpart, hparts, rfl⟩ := List.forall₂_cons_left_iff.mp h
    obtain ⟨hj, hrow⟩ := List.forall_mem_cons.mp hrow
    obtain ⟨hc, hcells⟩ := List.forall_mem_cons.mp hcells
    obtain ⟨rows', rfl, hsnd, hjoined, hall⟩ := ih hparts hrow hcells
    obtain ⟨cellParts, hcellParts, hexpands⟩ := hpart.joinedBy hj
    obtain ⟨cells', rfl, hcellsnd, hderives⟩ := exists_cells hexpands hc
    refine ⟨(part, cells') :: rows', rfl, by simp [hsnd, hcellsnd], ?_, ?_⟩
    · exact List.forall_mem_cons.mpr ⟨hcellParts, hjoined⟩
    · exact List.forall_mem_cons.mpr ⟨hderives, hall⟩

end Arrays

/-- The tokens of an expression in which names are replaced stand for the tree in which they are. -/
theorem Derives.expand {meaning : String → Option Expr} {c : Category} {ts us : List Token}
    {e : Expr} (h : Derives c ts e) (hts : Expands meaning ts us) :
    Derives c us (e.substitute meaning) := by
  induction h generalizing us with
  | number ht =>
    obtain ⟨u, us, rfl, hkind, htext, hus⟩ := hts.cons_inv (by simp [ht])
    rw [hus.nil_inv, Expr.substitute, ← htext]
    exact .number (hkind.trans ht)
  | name ht =>
    cases hts with
    | keep hkind htext hmeaning h =>
      rw [h.nil_inv, Expr.substitute, hmeaning ht, Option.getD_none, ← htext]
      exact .name (hkind.trans ht)
    | replace _ hmeaning hu he hv h =>
      rw [h.nil_inv, Expr.substitute, hmeaning, Option.getD_some]
      exact .parentheses hu he hv
  | parentheses ht _ hu ih =>
    obtain ⟨u, us, rfl, hu', hus⟩ := hts.mark_inv ht
    obtain ⟨ts', v, rfl, hv, hts'⟩ := hus.last_inv hu
    exact .parentheses hu' (ih hts') hv
  | array width ht hrows hrow hwidth _ hu ih =>
    obtain ⟨u, us, rfl, hu', hus⟩ := hts.mark_inv ht
    obtain ⟨ts', v, rfl, hv, hts'⟩ := hus.last_inv hu
    obtain ⟨parts, hparts, hexpands⟩ := hts'.joinedBy hrows
    obtain ⟨rows', rfl, hsnd, hjoined, hderives⟩ :=
      exists_arrayRows hexpands hrow fun row hr c hc us h => ih row hr c hc h
    rw [Expr.substitute, Expr.substituteRows_eq, ← hsnd]
    refine .array width hu' hparts hjoined (fun row hr => ?_) hderives hv
    have hmem := List.mem_map_of_mem (f := fun row : List Token × List (List Token × Expr) =>
      row.2.map Prod.snd) hr
    rw [hsnd, List.map_map] at hmem
    obtain ⟨row', hr', heq⟩ := List.mem_map.mp hmem
    have hlen := congrArg List.length heq
    simp only [Function.comp_apply, List.length_map] at hlen
    rw [← hlen, hwidth row' hr']
  | operand _ ih => exact .operand (ih hts)
  | transpose _ ht ih =>
    obtain ⟨ts', u, rfl, hu, hts'⟩ := hts.last_inv ht
    exact .transpose (ih hts') hu
  | plainExponent _ ih => exact .plainExponent (ih hts)
  | signedExponent ht _ ih =>
    obtain ⟨u, us, rfl, hu, hus⟩ := hts.sign_inv ht
    exact .signedExponent hu (ih hus)
  | base _ ih => exact .base (ih hts)
  | power _ ht _ iha ihb =>
    obtain ⟨ts', u, us', rfl, hu, hts', hus'⟩ := hts.operation_inv ht
    exact .power (iha hts') hu (ihb hus')
  | unsigned _ ih => exact .unsigned (ih hts)
  | signed ht _ ih =>
    obtain ⟨u, us, rfl, hu, hus⟩ := hts.sign_inv ht
    exact .signed hu (ih hus)
  | factor _ ih => exact .factor (ih hts)
  | product hop _ ht _ iha ihb =>
    obtain ⟨ts', u, us', rfl, hu, hts', hus'⟩ := hts.operation_inv ht
    exact .product hop (iha hts') hu (ihb hus')
  | summand _ ih => exact .summand (ih hts)
  | sum hop _ ht _ iha ihb =>
    obtain ⟨ts', u, us', rfl, hu, hts', hus'⟩ := hts.operation_inv ht
    exact .sum hop (iha hts') hu (ihb hus')

namespace Lexeme

variable {l : Lexeme} {ls us : List Lexeme} {rest : List Char}

section Spacing

theorem apart_of_mark {a b : Lexeme} (h : a.1 = some .mark ∨ b.1 = some .mark) : Apart a b := by
  rcases h with h | h <;> simp [Apart, IsWord, h]

/-- Pieces that end where a mark begins. -/
theorem WellSpaced.append (hls : WellSpaced ls) (hus : WellSpaced us)
    (hmark : ∀ u ∈ us.head?, u.1 = some .mark) : WellSpaced (ls ++ us) := by
  refine ⟨List.forall_mem_append.mpr ⟨hls.proper, hus.proper⟩, ?_⟩
  exact List.isChain_append.mpr ⟨hls.apart, hus.apart, fun a _ u hu => apart_of_mark (.inr (hmark u hu))⟩

theorem WellSpaced.cons_mark (hl : l.IsProper) (hmark : l.1 = some .mark) (hls : WellSpaced ls) :
    WellSpaced (l :: ls) :=
  ⟨List.forall_mem_cons.mpr ⟨hl, hls.proper⟩,
    List.isChain_cons.mpr ⟨fun _ _ => apart_of_mark (.inl hmark), hls.apart⟩⟩

def opening : Lexeme := (some .mark, ['('])

def closing : Lexeme := (some .mark, [')'])

theorem isProper_opening : opening.IsProper := .mark rfl

theorem isProper_closing : closing.IsProper := .mark rfl

end Spacing

section Tokens

theorem tokens_append (position : ℕ) (ls us : List Lexeme) :
    tokens position (ls ++ us) = tokens position ls ++ tokens (position + (textOf ls).length) us := by
  induction ls generalizing position with
  | nil => rfl
  | cons l ls ih =>
    rw [List.cons_append, tokens_cons, ih, tokens_cons position l ls, List.append_assoc]
    simp [textOf, Nat.add_assoc]

/-- The tokens of pieces differ in their positions only. -/
theorem expands_tokens (ls : List Lexeme) (position position' : ℕ) :
    Expands (fun _ => none) (tokens position ls) (tokens position' ls) := by
  induction ls generalizing position position' with
  | nil => exact .nil
  | cons l ls ih =>
    obtain ⟨kind, p⟩ := l
    cases kind with
    | none => exact ih _ _
    | some kind => exact .keep rfl rfl (fun _ => rfl) (ih _ _)

/-- The tokens of pieces stand for the same tree at every position. -/
theorem derives_tokens {c : Category} {e : Expr} {position : ℕ}
    (h : Derives c (tokens position ls) e) (position' : ℕ) :
    Derives c (tokens position' ls) e := by
  simpa [Expr.substitute_none] using h.expand (expands_tokens ls position position')

end Tokens

section Replacement

variable {texts : String → Option String} {meaning : String → Option Expr}

/-- A text is expanded piece by piece. -/
theorem expandChars_append (h : Token.lexeme (l.2 ++ rest) = l) (hne : l.2 ≠ []) :
    Expr.expandChars texts (l.2 ++ rest) =
      Expr.replacement texts l ++ Expr.expandChars texts rest := by
  obtain ⟨kind, p⟩ := l
  obtain ⟨c, p, rfl⟩ := List.exists_cons_of_ne_nil hne
  dsimp only at h ⊢
  rw [List.cons_append] at h ⊢
  rw [Expr.expandChars.eq_def]
  dsimp only
  split
  · rename_i hlen
    simp [h] at hlen
  · rename_i n hlen
    have hn : n = p.length := by simpa [h, eq_comm] using hlen
    have hdrop : (p ++ rest).drop n = rest := by simp [hn]
    rw [hdrop, h]

theorem WellSpaced.expandChars (h : WellSpaced ls) :
    Expr.expandChars texts (textOf ls) = ls.flatMap (Expr.replacement texts) := by
  induction ls with
  | nil =>
    rw [textOf, List.flatMap_nil, Expr.expandChars.eq_def]
    rfl
  | cons l ls ih =>
    have hcut := h.head.lexeme_append h.mayPrecede
    rw [textOf, List.flatMap_cons, ← textOf, expandChars_append hcut h.head.ne_nil, ih h.tail,
      List.flatMap_cons]

/-- The texts are those of the expressions that the names mean. -/
def Reads (texts : String → Option String) (meaning : String → Option Expr) : Prop :=
  ∀ name, match texts name with
    | some text => ∃ e, meaning name = some e ∧ Expr.parse text = .ok e
    | none => meaning name = none

/-- A piece is put in for a name that has a text, and all other pieces stay. -/
theorem replacement_cases (texts : String → Option String) (l : Lexeme) :
    (∃ name text, l = (some .name, name) ∧ texts (String.ofList name) = some text ∧
      Expr.replacement texts l = '(' :: (text.toList ++ [')'])) ∨
    (∀ name, l = (some .name, name) → texts (String.ofList name) = none) ∧
      Expr.replacement texts l = l.2 := by
  obtain ⟨kind, p⟩ := l
  by_cases hkind : kind = some .name
  · subst hkind
    cases htext : texts (String.ofList p) with
    | some text => exact .inl ⟨p, text, rfl, htext, by simp [Expr.replacement, htext]⟩
    | none =>
      refine .inr ⟨fun name h => ?_, by simp [Expr.replacement, htext]⟩
      cases h
      exact htext
  · refine .inr ⟨fun name h => absurd (congrArg Prod.fst h) hkind, ?_⟩
    unfold Expr.replacement
    split
    · rename_i h
      exact absurd (congrArg Prod.fst h) hkind
    · rename_i h
      exact congrArg Prod.snd h.symm

/-- The pieces of an expanded text. -/
theorem WellSpaced.exists_expanded (hreads : Reads texts meaning) (hls : WellSpaced ls)
    (position position' : ℕ) :
    ∃ us, WellSpaced us ∧ textOf us = ls.flatMap (Expr.replacement texts) ∧
      Expands meaning (tokens position ls) (tokens position' us) ∧
      ∀ u ∈ us.head?, u.1 = some .mark ∨ ls.head? = some u := by
  induction ls generalizing position position' with
  | nil => exact ⟨[], .nil, rfl, .nil, by simp⟩
  | cons l ls ih =>
    rcases replacement_cases texts l with ⟨name, text, rfl, htext, hreplacement⟩ | ⟨hnone, hkeep⟩
    · obtain ⟨e, hmeaning, hparse⟩ : ∃ e, meaning (String.ofList name) = some e ∧
          Expr.parse text = .ok e := by simpa [htext] using hreads (String.ofList name)
      obtain ⟨inner, hinner, htextOf, hderives⟩ := Expr.exists_lexemes_of_parse hparse
      obtain ⟨us, hus, husText, hexpands, -⟩ := ih hls.tail (position + name.length)
        (position' + 1 + (textOf inner).length + 1)
      have hclosed : WellSpaced (closing :: us) := hus.cons_mark isProper_closing rfl
      refine ⟨opening :: (inner ++ closing :: us),
        (hinner.append hclosed (by simp [closing])).cons_mark isProper_opening rfl, ?_, ?_,
        by simp [opening]⟩
      · rw [List.flatMap_cons, hreplacement, ← husText, ← htextOf]
        simp [textOf, opening, closing]
      · have htokens : tokens position' (opening :: (inner ++ closing :: us)) =
            ⟨.mark, "(", position'⟩ :: (tokens (position' + 1) inner ++
              ⟨.mark, ")", position' + 1 + (textOf inner).length⟩ ::
                tokens (position' + 1 + (textOf inner).length + 1) us) := by
          rw [opening, tokens, tokens_append]
          rfl
        rw [htokens]
        exact .replace rfl hmeaning ⟨rfl, rfl⟩ (derives_tokens hderives _) ⟨rfl, rfl⟩ hexpands
    · obtain ⟨us, hus, husText, hexpands, hhead⟩ := ih hls.tail (position + l.2.length)
        (position' + l.2.length)
      refine ⟨l :: us, ⟨List.forall_mem_cons.mpr ⟨hls.head, hus.proper⟩,
        List.isChain_cons.mpr ⟨fun u hu => ?_, hus.apart⟩⟩, ?_, ?_, by simp⟩
      · rcases hhead u hu with hmark | hfirst
        · exact apart_of_mark (.inr hmark)
        · exact (List.isChain_cons.mp hls.apart).1 u hfirst
      · rw [textOf, List.flatMap_cons, ← textOf, husText, List.flatMap_cons, hkeep]
      · obtain ⟨kind, p⟩ := l
        cases kind with
        | none => exact hexpands
        | some kind =>
          refine .keep rfl rfl (fun hname => ?_) hexpands
          have hkind : kind = .name := hname
          simpa [hnone p (by rw [hkind])] using hreads (String.ofList p)

end Replacement

end Lexeme

/-- The text of an expression in which names are replaced by texts is that of the expression in
which they are replaced by what those texts stand for. -/
theorem Expr.parse_expand {texts : String → Option String} {meaning : String → Option Expr}
    (hreads : Lexeme.Reads texts meaning) {text : String} {e : Expr} (h : parse text = .ok e) :
    parse (expand texts text) = .ok (e.substitute meaning) := by
  obtain ⟨ls, hls, htext, hderives⟩ := exists_lexemes_of_parse h
  obtain ⟨us, hus, husText, hexpands, -⟩ := hls.exists_expanded hreads 0 0
  have hscan := hus.scan 0
  rw [husText, ← hls.expandChars, htext] at hscan
  refine (parse_eq_ok_of_scan ?_).mpr (hderives.expand hexpands)
  rw [expand, String.toList_ofList]
  exact hscan

end WeakForm
