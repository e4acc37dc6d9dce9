import WeakForm.Proofs.Expression.Numerals
import WeakForm.Proofs.Outcome

/-!
# Lexemes

A text is cut into lexemes: numerals, names, marks and runs of white space. The pieces of a text in
which no two numbers or names touch are the pieces that each stand for themselves, so such a text may
be taken apart and put together again piece by piece.
-/

namespace WeakForm

open Text (isBlank)
open Names (isSeparator)

/-- A piece of a text with its kind; white space has none. -/
abbrev Lexeme := Option TokenKind × List Char

namespace Lexeme

/-- Numbers and names. -/
def IsWord (l : Lexeme) : Prop := l.1 = some .number ∨ l.1 = some .name

/-- The characters of a piece are those of its kind. -/
inductive IsProper : Lexeme → Prop
  | number {p : List Char} (h : Token.IsNumeral p) : IsProper (some .number, p)
  | name {c : Char} {p : List Char} (hc : Token.isNameStart c = true)
      (hp : ∀ d ∈ p, Token.isNamePart d = true) : IsProper (some .name, c :: p)
  | mark {c : Char} (h : Token.isMark c = true) : IsProper (some .mark, [c])
  | blank {p : List Char} (hne : p ≠ []) (h : ∀ c ∈ p, isBlank c = true) : IsProper (none, p)

/-- Two pieces that may touch. -/
def Apart (a b : Lexeme) : Prop := ¬ (a.IsWord ∧ b.IsWord) ∧ ¬ (a.1 = none ∧ b.1 = none)

/-- What may come after a piece. -/
def MayPrecede (l : Lexeme) (rest : List Char) : Prop :=
  (l.IsWord → Token.Separated rest) ∧ (l.1 = none → ∀ c ∈ rest.head?, isBlank c = false)

variable {l : Lexeme} {cs rest : List Char}

theorem IsProper.ne_nil (h : l.IsProper) : l.2 ≠ [] := by
  cases h with
  | number h =>
    obtain ⟨m, x, rfl, hm, -⟩ := h
    simp [hm.ne_nil]
  | name => simp
  | mark => simp
  | blank hne => exact hne

theorem isMantissa_head {m : List Char} (h : Token.IsMantissa m) :
    ∃ c m', m = c :: m' ∧ (Text.isDigit c = true ∨ c = '.') := by
  cases h with
  | whole hd hne =>
    obtain ⟨c, ds, rfl⟩ := List.exists_cons_of_ne_nil hne
    exact ⟨c, ds, rfl, .inl (hd c (by simp))⟩
  | @point ds es hd _ _ =>
    cases ds with
    | nil => exact ⟨'.', es, rfl, .inr rfl⟩
    | cons c ds => exact ⟨c, _, rfl, .inl (hd c (by simp))⟩

/-- A numeral starts with a digit or a point. -/
theorem isNumeral_head {p : List Char} (h : Token.IsNumeral p) :
    ∃ c p', p = c :: p' ∧ (Text.isDigit c = true ∨ c = '.') := by
  obtain ⟨m, x, rfl, hm, -⟩ := h
  obtain ⟨c, m', rfl, hc⟩ := isMantissa_head hm
  exact ⟨c, m' ++ x, rfl, hc⟩

/-- Marks and white space start with a separator. -/
theorem IsProper.isSeparator_head (h : l.IsProper) (hword : ¬ l.IsWord) :
    ∃ c p, l.2 = c :: p ∧ isSeparator c = true := by
  cases h with
  | number => exact absurd (.inl rfl) hword
  | name => exact absurd (.inr rfl) hword
  | @mark c h => exact ⟨c, [], rfl, Token.isSeparator_of_isMark h⟩
  | blank hne h =>
    obtain ⟨c, p, rfl⟩ := List.exists_cons_of_ne_nil hne
    exact ⟨c, p, rfl, Token.isSeparator_of_isBlank (h c (by simp))⟩

theorem isBlank_of_isSeparator_eq_false {c : Char} (h : Names.isSeparator c = false) : isBlank c = false := by
  rw [← Bool.not_eq_true]
  intro hb
  exact absurd (Token.isSeparator_of_isBlank hb) (by simp [h])

theorem isBlank_of_mem_numeral {p : List Char} (hp : Token.IsNumeral p) : ∀ c ∈ p, isBlank c = false := by
  have hdigits {ds : List Char} (hd : Token.AllDigits ds) : ∀ c ∈ ds, isBlank c = false :=
    fun c hc => isBlank_of_isSeparator_eq_false (Token.isSeparator_of_isDigit (hd c hc))
  obtain ⟨m, x, rfl, hm, hx⟩ := hp
  refine List.forall_mem_append.mpr ⟨?_, ?_⟩
  · cases hm with
    | whole hd => exact hdigits hd
    | point hd he =>
      exact List.forall_mem_append.mpr ⟨hdigits hd, List.forall_mem_cons.mpr ⟨by decide, hdigits he⟩⟩
  · cases hx with
    | absent => exact fun c hc => absurd hc (by simp)
    | present hc hs hd =>
      refine List.forall_mem_cons.mpr ⟨?_, List.forall_mem_append.mpr ⟨?_, hdigits hd⟩⟩
      · rcases hc with rfl | rfl <;> decide
      · rcases hs with rfl | rfl | rfl
        · simp
        · exact List.forall_mem_singleton.mpr (by decide)
        · exact List.forall_mem_singleton.mpr (by decide)

/-- There is no white space in numbers, names and marks. -/
theorem IsProper.isBlank_of_mem (h : l.IsProper) (hkind : l.1 ≠ none) : ∀ c ∈ l.2, isBlank c = false := by
  cases h with
  | number hp => exact isBlank_of_mem_numeral hp
  | name hc hp =>
    have hpart {d : Char} (hd : Token.isNamePart d = true) : isBlank d = false :=
      isBlank_of_isSeparator_eq_false (Token.isSeparator_of_isNamePart hd)
    exact List.forall_mem_cons.mpr ⟨hpart (Token.isNamePart_of_isNameStart hc), fun d hd => hpart (hp d hd)⟩
  | mark hc =>
    refine List.forall_mem_cons.mpr ⟨?_, by simp⟩
    rw [← Bool.not_eq_true]
    intro hb
    exact absurd hc (by simp [Token.isMark_of_isBlank hb])
  | blank => exact absurd rfl hkind

/-- A piece other than white space does not start with a blank. -/
theorem IsProper.isBlank_head (h : l.IsProper) (hkind : l.1 ≠ none) :
    ∃ c p, l.2 = c :: p ∧ isBlank c = false := by
  obtain ⟨c, p, hp⟩ := List.exists_cons_of_ne_nil h.ne_nil
  exact ⟨c, p, hp, h.isBlank_of_mem hkind c (by simp [hp])⟩

theorem numberLexeme_eq_nil {c : Char} (hd : Text.isDigit c = false) (hp : c ≠ '.') :
    Token.numberLexeme (c :: rest) = [] := by
  simp [Token.numberLexeme, Token.mantissaLexeme, hd, hp]

theorem nameLexeme_eq_nil {c : Char} (h : Token.isNameStart c = false) :
    Token.nameLexeme (c :: rest) = [] := by
  simp [Token.nameLexeme, h]

/-- A piece is cut as a whole where another one may follow it. -/
theorem IsProper.lexeme_append (h : l.IsProper) (hrest : l.MayPrecede rest) :
    Token.lexeme (l.2 ++ rest) = l := by
  obtain ⟨hword, hblank⟩ := hrest
  cases h with
  | number h =>
    have hne := (IsProper.number h).ne_nil
    have hnumber := Token.numberLexeme_append h (hword (.inl rfl))
    simp [Token.lexeme, hnumber, hne]
  | @name c p hc hp =>
    have hnumber : Token.numberLexeme (c :: (p ++ rest)) = [] := by
      refine numberLexeme_eq_nil (Token.isDigit_of_isNameStart hc) ?_
      rintro rfl
      exact absurd hc (by decide)
    have hpart := Token.takeWhile_append_of_head hp fun d hd =>
      Token.isNamePart_of_isSeparator (hword (.inr rfl) d hd)
    simp [Token.lexeme, hnumber, Token.nameLexeme, hc, hpart]
  | @mark c hc =>
    have hsep := Token.isSeparator_of_isMark hc
    have hnumber : Token.numberLexeme (c :: rest) = [] := by
      refine numberLexeme_eq_nil (Token.isDigit_of_isSeparator hsep) ?_
      rintro rfl
      exact absurd hc (by decide)
    have hname : Token.nameLexeme (c :: rest) = [] :=
      nameLexeme_eq_nil (Token.isNameStart_of_isSeparator hsep)
    simp [Token.lexeme, hnumber, hname, hc]
  | blank hne h =>
    obtain ⟨c, p, rfl⟩ := List.exists_cons_of_ne_nil hne
    have hc := h c (by simp)
    have hsep := Token.isSeparator_of_isBlank hc
    have hnumber : Token.numberLexeme (c :: (p ++ rest)) = [] := by
      refine numberLexeme_eq_nil (Token.isDigit_of_isSeparator hsep) ?_
      rintro rfl
      exact absurd hc (by decide)
    have hname : Token.nameLexeme (c :: (p ++ rest)) = [] :=
      nameLexeme_eq_nil (Token.isNameStart_of_isSeparator hsep)
    have hrun := Token.takeWhile_append_of_head h (hblank rfl)
    rw [List.cons_append] at hrun
    simp [Token.lexeme, hnumber, hname, Token.isMark_of_isBlank hc, hrun]

/-- Every piece that is cut is proper and the longest of its kind. -/
theorem exists_of_lexeme (h : Token.lexeme cs = l) (hne : l.2 ≠ []) :
    l.IsProper ∧ ∃ rest, cs = l.2 ++ rest ∧ (l.1 = none → ∀ c ∈ rest.head?, isBlank c = false) := by
  simp only [Token.lexeme] at h
  split_ifs at h with hnumber hname hmark
  · subst h
    obtain ⟨front, rest, rfl, hfront, hblank, hrest⟩ := Token.exists_takeWhile isBlank cs
    dsimp only at hne ⊢
    rw [hfront] at hne ⊢
    exact ⟨.blank hne hblank, rest, rfl, fun _ => hrest⟩
  · subst h
    cases cs with
    | nil => exact absurd rfl hne
    | cons c cs =>
      by_cases hc : Token.isMark c = true
      · refine ⟨?_, cs, by simp [hc], fun h => absurd h (by simp)⟩
        simpa [hc] using IsProper.mark hc
      · exact absurd (by simp [hc]) hmark
  · subst h
    cases cs with
    | nil => exact absurd rfl hne
    | cons c cs =>
      by_cases hc : Token.isNameStart c = true
      · obtain ⟨front, rest, rfl, hfront, hpart, -⟩ := Token.exists_takeWhile Token.isNamePart cs
        have hlexeme : Token.nameLexeme (c :: (front ++ rest)) = c :: front := by
          simp [Token.nameLexeme, hc, hfront]
        simp only [hlexeme]
        exact ⟨.name hc hpart, rest, by simp, fun h => absurd h (by simp)⟩
      · exact absurd (nameLexeme_eq_nil (by simpa using hc)) hne
  · subst h
    obtain ⟨hnumeral, rest, hcs⟩ := Token.exists_of_numberLexeme rfl (by simpa using hnumber)
    exact ⟨.number hnumeral, rest, hcs, fun h => absurd h (by simp)⟩

/-- The text of a list of pieces. -/
def textOf (ls : List Lexeme) : List Char := ls.flatMap Prod.snd

/-- The tokens among the pieces of a text that starts at `position`. -/
def tokens (position : ℕ) : List Lexeme → List Token
  | [] => []
  | (none, p) :: ls => tokens (position + p.length) ls
  | (some kind, p) :: ls =>
    ⟨kind, String.ofList p, position⟩ :: tokens (position + p.length) ls

/-- Proper pieces that may touch as they do. -/
structure WellSpaced (ls : List Lexeme) : Prop where
  proper : ∀ l ∈ ls, l.IsProper
  apart : ls.IsChain Apart

variable {ls : List Lexeme}

theorem WellSpaced.nil : WellSpaced [] := ⟨by simp, .nil⟩

theorem WellSpaced.head (h : WellSpaced (l :: ls)) : l.IsProper := h.proper l (by simp)

theorem WellSpaced.tail (h : WellSpaced (l :: ls)) : WellSpaced ls :=
  ⟨fun l' hl' => h.proper l' (by simp [hl']), (List.isChain_cons.mp h.apart).2⟩

theorem WellSpaced.mayPrecede (h : WellSpaced (l :: ls)) : l.MayPrecede (textOf ls) := by
  cases ls with
  | nil => exact ⟨fun _ => Token.separated_nil, fun _ c hc => by cases hc⟩
  | cons l' ls =>
    obtain ⟨hword, hblank⟩ := (List.isChain_cons_cons.mp h.apart).1
    constructor
    · intro hl
      obtain ⟨c, p, hp, hc⟩ := h.tail.head.isSeparator_head fun hl' => hword ⟨hl, hl'⟩
      rw [textOf, List.flatMap_cons, hp]
      exact Token.separated_cons hc _
    · intro hl
      obtain ⟨c, p, hp, hc⟩ := h.tail.head.isBlank_head fun hl' => hblank ⟨hl, hl'⟩
      rw [textOf, List.flatMap_cons, hp]
      intro d hd
      cases hd
      exact hc

section Scanning

theorem scan_nil (position : ℕ) : Token.scan position [] = .ok [] := by rw [Token.scan.eq_def]

/-- The tokens of a text are those of its first piece and of the rest. -/
theorem scan_append {position : ℕ} (h : Token.lexeme (l.2 ++ rest) = l) (hne : l.2 ≠ []) :
    Token.scan position (l.2 ++ rest) =
      (Token.scan (position + l.2.length) rest).map fun ts => tokens position [l] ++ ts := by
  obtain ⟨kind, p⟩ := l
  obtain ⟨c, p, rfl⟩ := List.exists_cons_of_ne_nil hne
  dsimp only at h ⊢
  rw [List.cons_append] at h ⊢
  rw [Token.scan.eq_def]
  dsimp only
  split
  · rename_i hlen
    simp [h] at hlen
  · rename_i n hlen
    have hn : n = p.length := by simpa [h, eq_comm] using hlen
    have hdrop : (p ++ rest).drop n = rest := by simp [hn]
    rw [hdrop, h, hn]
    cases Token.scan (position + (p.length + 1)) rest <;> cases kind <;> rfl

/-- The tokens of well-spaced pieces are those of their text. -/
theorem WellSpaced.scan (h : WellSpaced ls) (position : ℕ) :
    Token.scan position (textOf ls) = .ok (tokens position ls) := by
  induction ls generalizing position with
  | nil => exact scan_nil position
  | cons l ls ih =>
    have hcut := h.head.lexeme_append h.mayPrecede
    rw [textOf, List.flatMap_cons, ← textOf, scan_append hcut h.head.ne_nil, ih h.tail]
    obtain ⟨kind, p⟩ := l
    cases kind <;> rfl

end Scanning

end Lexeme

/-- Numbers and names. -/
def Token.IsWord (t : Token) : Prop := t.kind = .number ∨ t.kind = .name

/-- No two words follow each other. -/
def Token.WordsApart (ts : List Token) : Prop := ts.IsChain fun t u => ¬ (t.IsWord ∧ u.IsWord)

namespace Lexeme

variable {l : Lexeme} {ls : List Lexeme} {cs : List Char}

/-- A word among the pieces is a word among the tokens. -/
theorem tokens_word (hl : l.IsWord) (position : ℕ) (ls : List Lexeme) :
    ∃ t : Token, t.IsWord ∧ tokens position (l :: ls) = t :: tokens (position + l.2.length) ls := by
  obtain ⟨kind, p⟩ := l
  rcases hl with rfl | rfl
  · exact ⟨_, .inl rfl, rfl⟩
  · exact ⟨_, .inr rfl, rfl⟩

theorem tokens_cons (position : ℕ) (l : Lexeme) (ls : List Lexeme) :
    tokens position (l :: ls) = tokens position [l] ++ tokens (position + l.2.length) ls := by
  obtain ⟨kind, p⟩ := l
  cases kind <;> rfl

theorem wordsApart_tail {ts us : List Token} (h : Token.WordsApart (ts ++ us)) :
    Token.WordsApart us := (List.isChain_append.mp h).2.1

/-- A piece may stand before well-spaced pieces if neither two words nor two runs of white space
meet. -/
theorem WellSpaced.cons (hl : l.IsProper) (h : WellSpaced ls)
    (hblank : l.1 = none → ∀ c ∈ (textOf ls).head?, isBlank c = false) {position : ℕ}
    (hts : Token.WordsApart (tokens position (l :: ls))) : WellSpaced (l :: ls) := by
  constructor
  · exact List.forall_mem_cons.mpr ⟨hl, h.proper⟩
  · refine List.isChain_cons.mpr ⟨?_, h.apart⟩
    intro l' hl'
    obtain ⟨ls', rfl⟩ : ∃ ls', ls = l' :: ls' := by
      cases ls with
      | nil => cases hl'
      | cons a ls' =>
        cases hl'
        exact ⟨ls', rfl⟩
    constructor
    · rintro ⟨hword, hword'⟩
      obtain ⟨t, ht, htokens⟩ := tokens_word hword position (l' :: ls')
      obtain ⟨t', ht', htokens'⟩ := tokens_word hword' (position + l.2.length) ls'
      rw [htokens, htokens'] at hts
      exact (List.isChain_cons_cons.mp hts).1 ⟨ht, ht'⟩
    · rintro ⟨hnone, hnone'⟩
      obtain ⟨kind, p⟩ := l'
      dsimp only at hnone'
      subst hnone'
      cases h.head with
      | blank hne hp =>
        obtain ⟨c, p, rfl⟩ := List.exists_cons_of_ne_nil hne
        exact absurd (hp c (by simp)) (by simp [hblank hnone c rfl])

/-- A text whose words are apart consists of well-spaced pieces. -/
theorem exists_wellSpaced {position : ℕ} {ts : List Token} (h : Token.scan position cs = .ok ts)
    (hts : Token.WordsApart ts) :
    ∃ ls, WellSpaced ls ∧ textOf ls = cs ∧ tokens position ls = ts := by
  induction hn : cs.length using Nat.strong_induction_on generalizing cs position ts with
  | _ n ih =>
  cases cs with
  | nil =>
    rw [scan_nil] at h
    cases h
    exact ⟨[], .nil, rfl, rfl⟩
  | cons c cs =>
    generalize hl : Token.lexeme (c :: cs) = l
    by_cases hne : l.2 = []
    · rw [Token.scan.eq_def] at h
      dsimp only at h
      split at h
      · cases h
      · rename_i hlen
        simp [hl, hne] at hlen
    · obtain ⟨hproper, rest, hrest, hblank⟩ := exists_of_lexeme hl hne
      rw [hrest, scan_append (by rw [← hrest, hl]) hne] at h
      obtain ⟨ts', hscan, rfl⟩ := map_eq_ok.mp h
      have hshorter : rest.length < n := by
        have hlen := congrArg List.length hrest
        have hpos := List.length_pos_iff.mpr hne
        rw [List.length_append] at hlen
        omega
      obtain ⟨ls, hls, rfl, rfl⟩ := ih _ hshorter hscan (wordsApart_tail hts) rfl
      rw [← tokens_cons] at hts ⊢
      exact ⟨l :: ls, hls.cons hproper hblank hts, hrest.symm, rfl⟩

end Lexeme
end WeakForm

/-!
## Longest pieces

Whatever proper piece starts a text is of the same kind as the piece that is cut from it and a front of
that piece. So the piece that is cut is the longest, no text starts with pieces of two kinds, and nothing
is cut exactly where nothing starts. White space that is put in behind a number, a name or a mark cannot
make it longer.
-/

namespace WeakForm

open Text (isDigit isBlank)

namespace Token

section Fronts

variable {m p x : List Char}

theorem IsMantissa.isPrefix_mantissaLexeme (hm : IsMantissa m) (rest : List Char) :
    m <+: mantissaLexeme (m ++ rest) := by
  cases hm with
  | whole hd hne =>
    have hwhole := @List.takeWhile_append_of_pos _ isDigit m rest hd
    simp only [mantissaLexeme, hwhole]
    rw [if_neg (by simp [hne])]
    split_ifs
    · exact List.prefix_append _ _
    · rw [List.append_assoc, List.append_assoc]
      exact List.prefix_append _ _
  | @point ds es hd he hne =>
    have hwhole : (ds ++ '.' :: (es ++ rest)).takeWhile isDigit = ds := by
      refine takeWhile_append_of_head hd fun c hc => ?_
      cases hc
      decide
    have hplaces := @List.takeWhile_append_of_pos _ isDigit es rest he
    have hdrop : (ds ++ '.' :: (es ++ rest)).drop (ds.length + 1) = es ++ rest := by
      rw [List.drop_append]
      simp
    rw [List.append_assoc, List.cons_append]
    simp only [mantissaLexeme, hwhole, List.drop_left, List.take_succ_cons, List.take_zero, List.filter_cons,
      beq_self_eq_true, if_true, List.filter_nil, List.length_singleton, hdrop, hplaces]
    by_cases hds : ds = []
    · simp [hds, hne.resolve_left (fun h => h hds)]
    · simp [hds]

theorem IsExponent.isPrefix_exponentLexeme (hx : IsExponent x) (rest : List Char) :
    x <+: exponentLexeme (x ++ rest) := by
  cases hx with
  | absent => exact List.nil_prefix
  | @present c sign ds hc hs hd hne =>
    have hdigits := @List.takeWhile_append_of_pos _ isDigit ds rest hd
    have hmark : (c == 'e' || c == 'E') = true := by
      rcases hc with rfl | rfl <;> rfl
    simp only [List.cons_append, exponentLexeme, hmark, if_true, sign_append hs hd hne rest]
    rw [List.append_assoc, List.drop_left, hdigits, if_neg (by simp [hne]), ← List.append_assoc]
    exact List.prefix_append (c :: (sign ++ ds)) _

/-- A numeral at the front of a text is the front of the number that is cut from it. -/
theorem IsNumeral.isPrefix_numberLexeme (hp : IsNumeral p) (rest : List Char) :
    p <+: numberLexeme (p ++ rest) := by
  obtain ⟨m, x, rfl, hm, hx⟩ := hp
  rw [List.append_assoc]
  have hmantissa := hm.isPrefix_mantissaLexeme (x ++ rest)
  have hne : mantissaLexeme (m ++ (x ++ rest)) ≠ [] := fun h => by
    rw [h, List.prefix_nil] at hmantissa
    exact hm.ne_nil hmantissa
  have hnumber : numberLexeme (m ++ (x ++ rest)) = mantissaLexeme (m ++ (x ++ rest)) ++
      exponentLexeme ((m ++ (x ++ rest)).drop (mantissaLexeme (m ++ (x ++ rest))).length) := by
    simp [numberLexeme, hne]
  rw [hnumber]
  cases hx with
  | absent =>
    rw [List.append_nil]
    exact hmantissa.trans (List.prefix_append _ _)
  | @present c sign ds hc hs hd hds =>
    -- the mantissa ends at the mark of the exponent
    have hend : mantissaLexeme (m ++ (c :: (sign ++ ds) ++ rest)) = m := by
      refine mantissaLexeme_append hm fun d hd => ?_
      cases hd
      rcases hc with rfl | rfl <;> decide
    rw [hend, List.drop_left]
    exact (List.prefix_append_right_inj m).mpr ((IsExponent.present hc hs hd hds).isPrefix_exponentLexeme rest)

end Fronts

end Token

namespace Lexeme

variable {l : Lexeme} {cs : List Char}

/-- A proper piece stands at the front of a text. -/
def Starts (l : Lexeme) (cs : List Char) : Prop := l.IsProper ∧ l.2 <+: cs

/-- The longest piece at the front of a text: everything that starts the text is a front of it and has
its kind. -/
def IsLongest (l : Lexeme) (cs : List Char) : Prop :=
  l.Starts cs ∧ ∀ l' : Lexeme, l'.Starts cs → l'.1 = l.1 ∧ l'.2 <+: l.2

theorem IsProper.starts_append (h : l.IsProper) (rest : List Char) : l.Starts (l.2 ++ rest) :=
  ⟨h, List.prefix_append _ _⟩

/-- The piece that is cut goes as far as every piece that starts the text. -/
theorem Starts.isPrefix_lexeme (h : l.Starts cs) :
    (Token.lexeme cs).1 = l.1 ∧ l.2 <+: (Token.lexeme cs).2 := by
  obtain ⟨hproper, rest, rfl⟩ := h
  cases hproper with
  | @number p hp =>
    have hfront := hp.isPrefix_numberLexeme rest
    have hne : Token.numberLexeme (p ++ rest) ≠ [] := fun h => by
      rw [h, List.prefix_nil] at hfront
      exact (IsProper.number hp).ne_nil hfront
    have hcut : Token.lexeme (p ++ rest) = (some .number, Token.numberLexeme (p ++ rest)) := by
      simp [Token.lexeme, hne]
    rw [hcut]
    exact ⟨rfl, hfront⟩
  | @name c p hc hp =>
    have hnumber : Token.numberLexeme (c :: (p ++ rest)) = [] := by
      refine numberLexeme_eq_nil (Token.isDigit_of_isNameStart hc) ?_
      rintro rfl
      exact absurd hc (by decide)
    have hcut : Token.lexeme (c :: (p ++ rest)) = (some .name, c :: (p ++ rest.takeWhile Token.isNamePart)) := by
      rw [← List.takeWhile_append_of_pos hp]
      simp [Token.lexeme, hnumber, Token.nameLexeme, hc]
    rw [List.cons_append, hcut]
    exact ⟨rfl, List.prefix_append (c :: p) _⟩
  | @mark c hc =>
    have hproper := IsProper.mark hc
    have hprecede : MayPrecede (some .mark, [c]) rest :=
      ⟨fun h => by simp [IsWord] at h, fun h => by simp at h⟩
    rw [hproper.lexeme_append hprecede]
    exact ⟨rfl, List.prefix_rfl⟩
  | @blank p hne hp =>
    obtain ⟨front, tail, rfl, hfront, hblank, htail⟩ := Token.exists_takeWhile isBlank rest
    have hproper : IsProper (none, p ++ front) :=
      .blank (by simp [hne]) (List.forall_mem_append.mpr ⟨hp, hblank⟩)
    have hprecede : MayPrecede (none, p ++ front) tail :=
      ⟨fun h => by simp [IsWord] at h, fun _ => htail⟩
    rw [← List.append_assoc, hproper.lexeme_append hprecede]
    exact ⟨rfl, List.prefix_append _ _⟩

/-- The piece that is cut is the longest one. -/
theorem isLongest_iff : l.IsLongest cs ↔ Token.lexeme cs = l ∧ l.2 ≠ [] := by
  constructor
  · rintro ⟨hl, hlongest⟩
    obtain ⟨hkind, hfront⟩ := hl.isPrefix_lexeme
    have hne : (Token.lexeme cs).2 ≠ [] := fun h => by
      rw [h, List.prefix_nil] at hfront
      exact hl.1.ne_nil hfront
    obtain ⟨hproper, rest, hrest, -⟩ := exists_of_lexeme (rfl : Token.lexeme cs = _) hne
    have hback := (hlongest _ ⟨hproper, rest, hrest.symm⟩).2
    exact ⟨Prod.ext hkind (hback.eq_of_length_le hfront.length_le), hl.1.ne_nil⟩
  · rintro ⟨rfl, hne⟩
    obtain ⟨hproper, rest, hrest, -⟩ := exists_of_lexeme (rfl : Token.lexeme cs = _) hne
    refine ⟨⟨hproper, rest, hrest.symm⟩, fun l' hl' => ?_⟩
    obtain ⟨hkind, hfront⟩ := hl'.isPrefix_lexeme
    exact ⟨hkind.symm, hfront⟩

/-- Nothing is cut where nothing starts. -/
theorem lexeme_eq_nil_iff : (Token.lexeme cs).2 = [] ↔ ∀ l : Lexeme, ¬ l.Starts cs := by
  constructor
  · intro h l hl
    have hfront := hl.isPrefix_lexeme.2
    rw [h, List.prefix_nil] at hfront
    exact hl.1.ne_nil hfront
  · intro h
    by_contra hne
    exact h _ (isLongest_iff.mpr ⟨rfl, hne⟩).1

section Blanks

theorem IsProper.isBlank_of_none (h : l.IsProper) (hkind : l.1 = none) : ∀ c ∈ l.2, isBlank c = true := by
  cases h with
  | blank _ hp => exact hp
  | number => cases hkind
  | name => cases hkind
  | mark => cases hkind

/-- White space that is put in somewhere behind a piece does not make it longer. -/
theorem IsLongest.insert {a b w : List Char} (h : l.IsLongest (l.2 ++ (a ++ b))) (hkind : l.1 ≠ none)
    (hw : ∀ c ∈ w, isBlank c = true) : l.IsLongest (l.2 ++ (a ++ (w ++ b))) := by
  obtain ⟨⟨hproper, -⟩, hlongest⟩ := h
  refine ⟨hproper.starts_append _, fun l' hl' => ?_⟩
  have hfront : l'.2 <+: (l.2 ++ a) ++ (w ++ b) := by
    rw [List.append_assoc]
    exact hl'.2
  have hshort (h : l'.2 <+: l.2 ++ a) : l'.1 = l.1 ∧ l'.2 <+: l.2 := by
    refine hlongest l' ⟨hl'.1, h.trans ?_⟩
    rw [← List.append_assoc]
    exact List.prefix_append _ _
  obtain h | ⟨q, hlong⟩ := List.prefix_or_prefix_of_prefix hfront (List.prefix_append (l.2 ++ a) (w ++ b))
  · exact hshort h
  rw [← hlong, List.prefix_append_right_inj] at hfront
  cases q with
  | nil => exact hshort (by rw [← hlong, List.append_nil])
  | cons d q =>
    cases w with
    | nil => exact hlongest l' hl'
    | cons e w =>
      -- a longer piece has white space in it and so nothing else, unlike this one
      have hblank : isBlank d = true := (List.cons_prefix_cons.mp hfront).1 ▸ hw e (by simp)
      have hnone : l'.1 = none := by
        by_contra hsome
        exact absurd hblank (by simp [hl'.1.isBlank_of_mem hsome d (by simp [← hlong])])
      obtain ⟨c, hc⟩ := List.exists_mem_of_ne_nil _ hproper.ne_nil
      have hin := hl'.1.isBlank_of_none hnone c (by simp [← hlong, hc])
      exact absurd hin (by simp [hproper.isBlank_of_mem hkind c hc])

end Blanks

end Lexeme
end WeakForm
