import WeakForm.Proofs.Expression.Completeness
import WeakForm.Proofs.Expression.Lexemes
import WeakForm.Proofs.Expression.Trees

/-!
# Derivations

What the tokens of an expression say about its tree. Words never follow each other; the names of the
tree are those among the tokens, in the same order, and the tree is well-formed if they are valid.
-/

namespace WeakForm

section Words

variable {mark : String} {parts : List (List Token)} {ts us : List Token} {t : Token}

theorem Token.Marks.not_isWord {text : String} (h : t.Marks text) : ¬ t.IsWord := by
  rintro (hk | hk)
  · cases h.1.symm.trans hk
  · cases h.1.symm.trans hk

theorem Token.MarksSign.not_isWord {s : Sign} (h : t.MarksSign s) : ¬ t.IsWord := by
  cases s
  · exact (show t.Marks "+" from h).not_isWord
  · exact (show t.Marks "-" from h).not_isWord

theorem Token.MarksOperation.not_isWord {op : Operation} (h : t.MarksOperation op) :
    ¬ t.IsWord := by
  cases op
  · exact (show t.Marks "+" from h).not_isWord
  · exact (show t.Marks "-" from h).not_isWord
  · exact (show t.Marks "*" from h).not_isWord
  · exact (show t.Marks "/" from h).not_isWord
  · exact (show t.Marks "^" from h).not_isWord

namespace Token

theorem WordsApart.cons (ht : ¬ t.IsWord) (h : WordsApart ts) : WordsApart (t :: ts) :=
  List.isChain_cons.mpr ⟨fun _ _ hw => ht hw.1, h⟩

/-- A mark keeps words apart. -/
theorem WordsApart.join (h : WordsApart ts) (ht : ¬ t.IsWord) (h' : WordsApart us) :
    WordsApart (ts ++ t :: us) := by
  refine List.isChain_append.mpr ⟨h, h'.cons ht, ?_⟩
  intro a _ b hb hw
  cases hb
  exact ht hw.2

theorem WordsApart.close (h : WordsApart ts) (ht : ¬ t.IsWord) : WordsApart (ts ++ [t]) :=
  h.join ht .nil

end Token

theorem JoinedBy.wordsApart (h : JoinedBy mark parts ts)
    (hparts : ∀ part ∈ parts, Token.WordsApart part) : Token.WordsApart ts := by
  induction h with
  | one ts => exact hparts ts (by simp)
  | cons ht _ ih =>
    obtain ⟨hpart, hparts⟩ := List.forall_mem_cons.mp hparts
    exact hpart.join ht.not_isWord (ih hparts)

/-- No two words follow each other in an expression. -/
theorem Derives.wordsApart {c : Category} {e : Expr} (h : Derives c ts e) :
    Token.WordsApart ts := by
  induction h with
  | number => exact .singleton _
  | name => exact .singleton _
  | parentheses ht _ hu ih => exact (ih.close hu.not_isWord).cons ht.not_isWord
  | array width ht hrows hrow _ _ hu ih =>
    refine Token.WordsApart.cons ht.not_isWord (Token.WordsApart.close ?_ hu.not_isWord)
    refine hrows.wordsApart fun part hpart => ?_
    obtain ⟨row, hmem, rfl⟩ := List.mem_map.mp hpart
    refine (hrow row hmem).wordsApart fun cell hcell => ?_
    obtain ⟨c, hc, rfl⟩ := List.mem_map.mp hcell
    exact ih row hmem c hc
  | operand _ ih => exact ih
  | transpose _ ht ih => exact ih.close ht.not_isWord
  | plainExponent _ ih => exact ih
  | signedExponent ht _ ih => exact ih.cons ht.not_isWord
  | base _ ih => exact ih
  | power _ ht _ iha ihb => exact iha.join ht.not_isWord ihb
  | unsigned _ ih => exact ih
  | signed ht _ ih => exact ih.cons ht.not_isWord
  | factor _ ih => exact ih
  | product _ _ ht _ iha ihb => exact iha.join ht.not_isWord ihb
  | summand _ ih => exact ih
  | sum _ _ ht _ iha ihb => exact iha.join ht.not_isWord ihb

end Words

section Names

/-- The names among tokens. -/
def nameTexts (ts : List Token) : List String :=
  (ts.filter fun t => t.kind == .name).map Token.text

theorem nameTexts_append (ts us : List Token) :
    nameTexts (ts ++ us) = nameTexts ts ++ nameTexts us := by simp [nameTexts]

theorem nameTexts_cons {t : Token} (ht : ¬ t.IsWord) (ts : List Token) :
    nameTexts (t :: ts) = nameTexts ts := by
  have hkind : (t.kind == .name) = false := by
    simpa using fun h => ht (.inr h)
  simp [nameTexts, hkind]

theorem JoinedBy.nameTexts_eq {mark : String} {parts : List (List Token)} {ts : List Token}
    (h : JoinedBy mark parts ts) : nameTexts ts = parts.flatMap nameTexts := by
  induction h with
  | one ts => simp
  | cons ht _ ih =>
    rw [nameTexts_append, nameTexts_cons ht.not_isWord, ih, List.flatMap_cons]

/-- The names of an expression are those among its tokens. -/
theorem Derives.names_eq {c : Category} {ts : List Token} {e : Expr} (h : Derives c ts e) :
    e.names = nameTexts ts := by
  induction h with
  | number ht => simp [Expr.names, nameTexts, ht]
  | name ht => simp [Expr.names, nameTexts, ht]
  | parentheses ht _ hu ih =>
    rw [nameTexts_cons ht.not_isWord, nameTexts_append, nameTexts_cons hu.not_isWord, ih]
    simp [nameTexts]
  | array width ht hrows hrow _ _ hu ih =>
    rw [nameTexts_cons ht.not_isWord, nameTexts_append, nameTexts_cons hu.not_isWord,
      hrows.nameTexts_eq, Expr.names, Expr.rowsNames_eq, List.flatMap_map, List.flatMap_map]
    simp only [nameTexts, List.filter_nil, List.map_nil, List.append_nil]
    refine List.flatMap_congr fun row hmem => ?_
    change _ = nameTexts row.1
    rw [(hrow row hmem).nameTexts_eq, List.flatMap_map, List.flatMap_map]
    exact List.flatMap_congr fun c hc => ih row hmem c hc
  | operand _ ih => exact ih
  | transpose _ ht ih =>
    rw [nameTexts_append, nameTexts_cons ht.not_isWord, Expr.names, ih]
    simp [nameTexts]
  | plainExponent _ ih => exact ih
  | signedExponent ht _ ih => rw [nameTexts_cons ht.not_isWord, Expr.names, ih]
  | base _ ih => exact ih
  | power _ ht _ iha ihb =>
    rw [nameTexts_append, nameTexts_cons ht.not_isWord, Expr.names, iha, ihb]
  | unsigned _ ih => exact ih
  | signed ht _ ih => rw [nameTexts_cons ht.not_isWord, Expr.names, ih]
  | factor _ ih => exact ih
  | product _ _ ht _ iha ihb =>
    rw [nameTexts_append, nameTexts_cons ht.not_isWord, Expr.names, iha, ihb]
  | summand _ ih => exact ih
  | sum _ _ ht _ iha ihb =>
    rw [nameTexts_append, nameTexts_cons ht.not_isWord, Expr.names, iha, ihb]

end Names

section WellFormed

theorem JoinedBy.ne_nil {mark : String} {parts : List (List Token)} {ts : List Token}
    (h : JoinedBy mark parts ts) : parts ≠ [] := by
  cases h <;> simp

theorem JoinedBy.mem {mark : String} {parts : List (List Token)} {ts : List Token}
    (h : JoinedBy mark parts ts) {part : List Token} (hpart : part ∈ parts) {t : Token}
    (ht : t ∈ part) : t ∈ ts := by
  induction h with
  | one ts =>
    obtain rfl := List.mem_singleton.mp hpart
    exact ht
  | cons _ _ ih =>
    rcases List.mem_cons.mp hpart with rfl | hpart
    · exact List.mem_append_left _ ht
    · exact List.mem_append_right _ (List.mem_cons_of_mem _ (ih hpart))

/-- The tree of an expression is well-formed if its names are valid. -/
theorem Derives.isWellFormed {c : Category} {ts : List Token} {e : Expr} (h : Derives c ts e)
    (hts : ∀ t ∈ ts, t.kind = .name → Names.isValid t.text = true) : e.isWellFormed = true := by
  induction h with
  | number => rfl
  | name ht => exact hts _ (by simp) ht
  | parentheses _ _ _ ih => exact ih fun t ht => hts t (by simp [ht])
  | array width _ hrows hrow hwidth _ _ ih =>
    rw [Expr.isWellFormed_array, Expr.isRectangle_iff]
    refine ⟨⟨?_, width, ?_, ?_⟩, ?_⟩
    · simpa using hrows.ne_nil
    · obtain ⟨row, hr⟩ := List.exists_mem_of_ne_nil _ (by simpa using hrows.ne_nil)
      rw [← hwidth row hr]
      simpa using (hrow row hr).ne_nil
    · intro row' hrow'
      obtain ⟨row, hr, rfl⟩ := List.mem_map.mp hrow'
      rw [List.length_map, hwidth row hr]
    · intro row' hrow' e he
      obtain ⟨row, hr, rfl⟩ := List.mem_map.mp hrow'
      obtain ⟨cell, hcell, rfl⟩ := List.mem_map.mp he
      refine ih row hr cell hcell fun t ht => hts t ?_
      have hrowMem := (hrow row hr).mem (List.mem_map_of_mem hcell) ht
      simp [hrows.mem (List.mem_map_of_mem hr) hrowMem]
  | operand _ ih => exact ih hts
  | transpose _ _ ih => exact ih fun t ht => hts t (by simp [ht])
  | plainExponent _ ih => exact ih hts
  | signedExponent _ _ ih => exact ih fun t ht => hts t (by simp [ht])
  | base _ ih => exact ih hts
  | power _ _ _ iha ihb =>
    rw [Expr.isWellFormed, iha fun t ht => hts t (by simp [ht]),
      ihb fun t ht => hts t (by simp [ht]), Bool.and_self]
  | unsigned _ ih => exact ih hts
  | signed _ _ ih => exact ih fun t ht => hts t (by simp [ht])
  | factor _ ih => exact ih hts
  | product _ _ _ _ iha ihb =>
    rw [Expr.isWellFormed, iha fun t ht => hts t (by simp [ht]),
      ihb fun t ht => hts t (by simp [ht]), Bool.and_self]
  | summand _ ih => exact ih hts
  | sum _ _ _ _ iha ihb =>
    rw [Expr.isWellFormed, iha fun t ht => hts t (by simp [ht]),
      ihb fun t ht => hts t (by simp [ht]), Bool.and_self]

/-- The names among the tokens of a text are valid. -/
theorem Lexeme.WellSpaced.isValid {ls : List Lexeme} (h : WellSpaced ls) {position : ℕ} {t : Token}
    (ht : t ∈ tokens position ls) (hname : t.kind = .name) : Names.isValid t.text = true := by
  induction ls generalizing position with
  | nil => cases ht
  | cons l ls ih =>
    rw [tokens_cons, List.mem_append] at ht
    rcases ht with ht | ht
    · cases h.head with
      | name hc hp =>
        obtain rfl := List.mem_singleton.mp ht
        simpa [Names.isValid, hc] using hp
      | number =>
        obtain rfl := List.mem_singleton.mp ht
        cases hname
      | mark =>
        obtain rfl := List.mem_singleton.mp ht
        cases hname
      | blank => cases ht
    · exact ih h.tail ht

/-- The text of an expression consists of well-spaced pieces, whose tokens stand for it. -/
theorem Expr.exists_lexemes_of_parse {text : String} {e : Expr} (h : parse text = .ok e) :
    ∃ ls, Lexeme.WellSpaced ls ∧ Lexeme.textOf ls = text.toList ∧
      Derives .sum (Lexeme.tokens 0 ls) e := by
  cases hscan : Token.scan 0 text.toList with
  | error bad =>
    unfold parse at h
    rw [hscan] at h
    cases h
  | ok ts =>
    have hd := (parse_eq_ok_of_scan hscan).mp h
    obtain ⟨ls, hls, htext, rfl⟩ := Lexeme.exists_wellSpaced hscan hd.wordsApart
    exact ⟨ls, hls, htext, hd⟩

/-- What is read from a text is well-formed. -/
theorem Expr.isWellFormed_of_parse {text : String} {e : Expr} (h : parse text = .ok e) :
    e.isWellFormed = true := by
  obtain ⟨ls, hls, -, hd⟩ := exists_lexemes_of_parse h
  exact hd.isWellFormed fun t ht hname => hls.isValid ht hname

end WellFormed

end WeakForm
