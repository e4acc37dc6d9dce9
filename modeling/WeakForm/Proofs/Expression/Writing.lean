import WeakForm.Expression.Writer
import WeakForm.Proofs.Expression.FreeNumerals
import WeakForm.Proofs.Expression.Replacing

/-!
# Reading what was written

An expression is read back from its text, whether all operations stand in parentheses or only those
that bind less tightly than their places demand. The pieces of the text are the tokens that are read,
and by induction on the tree they stand for it as an expression of the category its place asks for.
-/

namespace WeakForm

section Numerals

variable {c : Char} {ds : List Char}

theorem digitValue?_of_isDigit (h : c.isDigit = true) :
    Text.digitValue? c = some (c.toNat - '0'.toNat) := by
  simp only [Char.isDigit, Bool.and_eq_true, decide_eq_true_eq, UInt32.le_iff_toNat_le,
    ge_iff_le] at h
  change 48 ≤ c.toNat ∧ c.toNat ≤ 57 at h
  simp [Text.digitValue?, Text.digitZeros, h]

theorem isDigit_of_asciiDigit (h : c.isDigit = true) : Text.isDigit c = true := by
  rw [Text.isDigit, digitValue?_of_isDigit h]
  rfl

theorem asciiDigit_ne (h : c.isDigit = true) : c ≠ '.' ∧ c ≠ 'e' ∧ c ≠ 'E' ∧ c ≠ '-' := by
  refine ⟨?_, ?_, ?_, ?_⟩ <;> rintro rfl <;> exact absurd h (by decide)

/-- ASCII digits are read with base ten. -/
theorem digitsValue_eq_ofDigitChars (h : ∀ c ∈ ds, c.isDigit = true) :
    Text.digitsValue ds = Nat.ofDigitChars 10 ds 0 := by
  rw [Nat.ofDigitChars_eq_foldl, Text.digitsValue]
  refine List.foldl_ext _ _ _ fun n c hc => ?_
  rw [digitValue?_of_isDigit (h c hc), Option.getD_some]

theorem asciiDigit_of_mem_toDigits {n : ℕ} (h : c ∈ Nat.toDigits 10 n) : c.isDigit = true :=
  Nat.isDigit_of_mem_toDigits (by decide) (by decide) h

theorem digitsValue_toDigits (n : ℕ) : Text.digitsValue (Nat.toDigits 10 n) = n := by
  rw [digitsValue_eq_ofDigitChars fun c hc => asciiDigit_of_mem_toDigits hc]
  exact Nat.ofDigitChars_toDigits (by decide) (by decide)

theorem allDigits_toDigits (n : ℕ) : Token.AllDigits (Nat.toDigits 10 n) :=
  fun _ hc => isDigit_of_asciiDigit (asciiDigit_of_mem_toDigits hc)

namespace Decimal

/-- A decimal has no zeros left to move. -/
theorem normalize_self (d : Decimal) : normalize d.mantissa d.exponent = d := by
  obtain ⟨m, e, hnormal⟩ := d
  unfold normalize
  rcases hnormal with ⟨rfl, rfl⟩ | hm
  · rfl
  · have hne : m ≠ 0 := by
      rintro rfl
      exact hm rfl
    simp [hne, hm]

/-- The characters of a numeral. -/
theorem toList_numeral (d : Decimal) :
    d.numeral.toList = Nat.toDigits 10 d.mantissa ++
      (if d.exponent = 0 then [] else
        'e' :: ((if d.exponent < 0 then ['-'] else []) ++ Nat.toDigits 10 d.exponent.natAbs)) := by
  unfold numeral
  split_ifs <;> simp [String.toList_append]

theorem isNumeral_numeral (d : Decimal) : Token.IsNumeral d.numeral.toList := by
  rw [toList_numeral]
  refine ⟨_, _, rfl, .whole (allDigits_toDigits _) Nat.toDigits_ne_nil, ?_⟩
  split_ifs
  · exact .absent
  · exact .present (.inl rfl) (.inr (.inr rfl)) (allDigits_toDigits _) Nat.toDigits_ne_nil
  · exact .present (.inl rfl) (.inl rfl) (allDigits_toDigits _) Nat.toDigits_ne_nil

/-- A numeral has the value it was written for. -/
theorem numberValue_numeral (d : Decimal) : Parser.numberValue d.numeral = d := by
  have hdigits : Text.digitsValue ((Nat.toDigits 10 d.exponent.natAbs).filter Text.isDigit) =
      d.exponent.natAbs := by
    rw [List.filter_eq_self.mpr (allDigits_toDigits _), digitsValue_toDigits]
  have hhead : (Nat.toDigits 10 d.exponent.natAbs).head? ≠ some '-' := by
    intro h
    exact (asciiDigit_ne (asciiDigit_of_mem_toDigits (List.mem_of_mem_head? h))).2.2.2 rfl
  have hminus : Text.isDigit '-' = false := by decide
  have hmantissa : (Nat.toDigits 10 d.mantissa).takeWhile (· != '.') = Nat.toDigits 10 d.mantissa :=
    List.takeWhile_eq_self_iff.mpr fun c hc => by
      simpa using (asciiDigit_ne (asciiDigit_of_mem_toDigits hc)).1
  rw [Token.numberValue_append (toList_numeral d) (.whole (allDigits_toDigits _) Nat.toDigits_ne_nil)
    (by split_ifs <;> simp), hmantissa, List.drop_length, List.drop_nil, ofDigits, List.append_nil,
    List.length_nil, Nat.cast_zero, sub_zero, digitsValue_toDigits, List.drop_one]
  conv_rhs => rw [← normalize_self d]
  congr 1
  rcases lt_trichotomy d.exponent 0 with hneg | hzero | hpos
  · simp only [hneg.ne, hneg, if_true, if_false, List.tail_cons, List.singleton_append,
      List.filter_cons, hminus, List.head?_cons, beq_self_eq_true]
    simp only [Bool.false_eq_true, if_false, hdigits]
    omega
  · simp [hzero, Text.digitsValue]
  · simp only [hpos.ne', hpos.not_gt, if_false, List.tail_cons, List.nil_append, hdigits,
      beq_eq_false_iff_ne.mpr hhead, Bool.false_eq_true]
    omega

end Decimal

end Numerals

section Pieces

/-- The token that a piece of text is when it stands alone. -/
def pieceToken (p : String) : Token := ⟨(Token.lexeme p.toList).1.getD .mark, p, 0⟩

def tokensOf (ps : List String) : List Token := ps.map pieceToken

/-- A piece that is one token. -/
def IsPiece (p : String) : Prop := Lexeme.IsProper (some (pieceToken p).kind, p.toList)

theorem tokensOf_append (ps qs : List String) : tokensOf (ps ++ qs) = tokensOf ps ++ tokensOf qs :=
  List.map_append

theorem tokensOf_cons (p : String) (ps : List String) :
    tokensOf (p :: ps) = pieceToken p :: tokensOf ps := rfl

/-- A piece of the characters of some kind is a token of that kind. -/
theorem pieceToken_kind {p : String} {kind : TokenKind}
    (h : Lexeme.IsProper (some kind, p.toList)) : (pieceToken p).kind = kind := by
  have hcut : Token.lexeme (p.toList ++ []) = (some kind, p.toList) :=
    h.lexeme_append ⟨fun _ => Token.separated_nil, by simp⟩
  rw [List.append_nil] at hcut
  simp [pieceToken, hcut]

theorem isPiece_of_isProper {p : String} {kind : TokenKind}
    (h : Lexeme.IsProper (some kind, p.toList)) : IsPiece p := by
  rwa [IsPiece, pieceToken_kind h]

theorem isProper_numeral (d : Decimal) :
    Lexeme.IsProper (some .number, d.numeral.toList) := .number d.isNumeral_numeral

theorem isProper_name {name : String} (h : Names.isValid name = true) :
    Lexeme.IsProper (some .name, name.toList) := by
  unfold Names.isValid at h
  split at h
  · rename_i c rest hchars
    simp only [Bool.and_eq_true, List.all_eq_true] at h
    rw [hchars]
    exact .name h.1 h.2
  · cases h

theorem isProper_mark {p : String} {c : Char} (hp : p.toList = [c]) (hc : Token.isMark c = true) :
    Lexeme.IsProper (some .mark, p.toList) := by
  rw [hp]
  exact .mark hc

theorem marks_of_isProper {p : String} (h : Lexeme.IsProper (some .mark, p.toList)) :
    (pieceToken p).Marks p := ⟨pieceToken_kind h, rfl⟩

theorem Sign.isProper_mark (s : Sign) : Lexeme.IsProper (some .mark, s.mark.toList) := by
  cases s <;> exact WeakForm.isProper_mark rfl rfl

theorem Sign.marks_mark (s : Sign) : (pieceToken s.mark).MarksSign s := by
  cases s <;> exact marks_of_isProper (isProper_mark _)

theorem Operation.isProper_mark (op : Operation) :
    Lexeme.IsProper (some .mark, op.mark.toList) := by
  cases op <;> exact WeakForm.isProper_mark rfl rfl

theorem Operation.marks_mark (op : Operation) : (pieceToken op.mark).MarksOperation op := by
  cases op <;> exact marks_of_isProper (isProper_mark _)

end Pieces

namespace Expr

variable (style : Parentheses)

theorem rowPieces_eq (row : List Expr) : rowPieces style row = row.map (pieces style (.binding 0)) := by
  induction row with
  | nil => rfl
  | cons e row ih => rw [rowPieces, ih, List.map_cons]

theorem rowsPieces_eq (rows : List (List Expr)) :
    rowsPieces style rows =
      rows.map fun row => joined "," (row.map (pieces style (.binding 0))) := by
  induction rows with
  | nil => rfl
  | cons row rows ih => rw [rowsPieces, ih, rowPieces_eq, List.map_cons]

section Pieces

variable {mark : String} {ps : List String} {parts : List (List String)}

theorem isPiece_mark {c : Char} (hp : mark.toList = [c]) (hc : Token.isMark c = true) :
    IsPiece mark := isPiece_of_isProper (isProper_mark hp hc)

/-- Pieces between two marks. -/
theorem forall_mem_between {first last : String} (hfirst : IsPiece first)
    (h : ∀ p ∈ ps, IsPiece p) (hlast : IsPiece last) :
    ∀ p ∈ first :: (ps ++ [last]), IsPiece p := by
  refine List.forall_mem_cons.mpr ⟨hfirst, fun p hp => ?_⟩
  rcases List.mem_append.mp hp with hp | hp
  · exact h p hp
  · obtain rfl := List.mem_singleton.mp hp
    exact hlast

theorem forall_mem_enclosed (h : ∀ p ∈ ps, IsPiece p) (bare : Bool) :
    ∀ p ∈ enclosed bare ps, IsPiece p := by
  cases bare
  · exact forall_mem_between (isPiece_mark (c := '(') rfl rfl) h (isPiece_mark (c := ')') rfl rfl)
  · exact h

theorem forall_mem_joined (hmark : IsPiece mark) (h : ∀ ps ∈ parts, ∀ p ∈ ps, IsPiece p) :
    ∀ p ∈ joined mark parts, IsPiece p := by
  induction parts with
  | nil => simp [joined]
  | cons ps parts ih =>
    obtain ⟨hps, hparts⟩ := List.forall_mem_cons.mp h
    cases parts with
    | nil => exact hps
    | cons qs parts =>
      intro p hp
      rw [joined, List.mem_append, List.mem_cons] at hp
      · rcases hp with hp | rfl | hp
        · exact hps p hp
        · exact hmark
        · exact ih hparts p hp
      · simp

/-- Every piece of a well-formed expression is one token. -/
theorem isPiece_of_mem_pieces {e : Expr} (he : e.isWellFormed = true) (place : Place) :
    ∀ p ∈ pieces style place e, IsPiece p := by
  induction e generalizing place with
  | number d =>
    intro p hp
    obtain rfl := List.mem_singleton.mp hp
    exact isPiece_of_isProper (isProper_numeral d)
  | symbol name =>
    intro p hp
    obtain rfl := List.mem_singleton.mp hp
    exact isPiece_of_isProper (isProper_name he)
  | array rows ih =>
    obtain ⟨-, hentries⟩ := isWellFormed_array.mp he
    rw [pieces, rowsPieces_eq]
    refine forall_mem_between (isPiece_mark (c := '[') rfl rfl) ?_ (isPiece_mark (c := ']') rfl rfl)
    refine forall_mem_joined (isPiece_mark (c := ';') rfl rfl) fun ps hps => ?_
    obtain ⟨row, hrow, rfl⟩ := List.mem_map.mp hps
    refine forall_mem_joined (isPiece_mark (c := ',') rfl rfl) fun ps hps => ?_
    obtain ⟨e, he, rfl⟩ := List.mem_map.mp hps
    exact ih row hrow e he (hentries row hrow e he) _
  | sign s e ih =>
    refine forall_mem_enclosed (List.forall_mem_cons.mpr ⟨?_, ih he _⟩) _
    exact isPiece_of_isProper s.isProper_mark
  | binary op a b iha ihb =>
    rw [isWellFormed, Bool.and_eq_true] at he
    refine forall_mem_enclosed (fun p hp => ?_) _
    rcases List.mem_append.mp hp with hp | hp
    · exact iha he.1 _ p hp
    rcases List.mem_cons.mp hp with rfl | hp
    · exact isPiece_of_isProper op.isProper_mark
    · exact ihb he.2 _ p hp
  | transpose e ih =>
    refine forall_mem_enclosed (fun p hp => ?_) _
    rcases List.mem_append.mp hp with hp | hp
    · exact ih he _ p hp
    · obtain rfl := List.mem_singleton.mp hp
      exact isPiece_mark (c := '\'') rfl rfl

end Pieces
end Expr

section Places

/-- The category that a place asks for. -/
def Place.category : Place → Category
  | .binding 0 => .sum
  | .binding 1 => .product
  | .binding 2 => .unary
  | .binding 3 => .power
  | .binding _ => .postfixed
  | .exponent => .exponent

variable {ts us : List Token} {e a b : Expr}

/-- What binds tightly also stands where less is demanded. -/
theorem Derives.loosen {m n : ℕ} (hmn : m ≤ n) (h : Derives (Place.binding n).category ts e) :
    Derives (Place.binding m).category ts e := by
  induction hmn with
  | refl => exact h
  | @step n _ ih =>
    apply ih
    match n with
    | 0 => exact .summand h
    | 1 => exact .factor h
    | 2 => exact .unsigned h
    | 3 => exact .base h
    | n + 4 => exact h

/-- What is in parentheses stands everywhere. -/
theorem Derives.inPlace (h : Derives .primary ts e) : ∀ place : Place, Derives place.category ts e
  | .binding n => by
    have hlast : Derives (Place.binding (n + 4)).category ts e := .operand h
    exact hlast.loosen (Nat.le_add_right n 4)
  | .exponent => .plainExponent (.operand h)

/-- A binary operation binds as its table says. -/
theorem Derives.binary {op : Operation} {t : Token} (ha : Derives op.leftPlace.category ts a)
    (ht : t.MarksOperation op) (hb : Derives op.rightPlace.category us b) :
    Derives (Place.binding op.binding).category (ts ++ t :: us) (.binary op a b) := by
  cases op
  · exact .sum (.inl rfl) ha ht hb
  · exact .sum (.inr rfl) ha ht hb
  · exact .product (.inl rfl) ha ht hb
  · exact .product (.inr rfl) ha ht hb
  · exact .power ha ht hb

/-- Pieces stand for an expression in its place if they do so wherever they are bare. -/
theorem Derives.enclosed {place : Place} {bare : Bool} {ps : List String}
    (hsum : Derives .sum (tokensOf ps) e)
    (hbare : bare = true → Derives place.category (tokensOf ps) e) :
    Derives place.category (tokensOf (Expr.enclosed bare ps)) e := by
  cases bare
  · have hopen := marks_of_isProper (isProper_mark (p := "(") (c := '(') rfl rfl)
    have hclose := marks_of_isProper (isProper_mark (p := ")") (c := ')') rfl rfl)
    have hprimary := Derives.parentheses hopen hsum hclose
    simpa [Expr.enclosed, tokensOf] using hprimary.inPlace place
  · exact hbare rfl

/-- Pieces with marks between them are tokens with marks between them. -/
theorem joinedBy_joined {mark : String} {c : Char} (hmark : mark.toList = [c])
    (hc : Token.isMark c = true) (parts : List (List String)) (hne : parts ≠ []) :
    JoinedBy mark (parts.map tokensOf) (tokensOf (Expr.joined mark parts)) := by
  induction parts with
  | nil => exact absurd rfl hne
  | cons ps parts ih =>
    cases parts with
    | nil => exact .one _
    | cons qs parts =>
      rw [Expr.joined, tokensOf_append, tokensOf_cons]
      · exact .cons (marks_of_isProper (isProper_mark hmark hc)) (ih (by simp))
      · simp

/-- An operation without parentheses binds as tightly as its place demands. -/
theorem Derives.bare {style : Parentheses} {place : Place} (hop : e.isOperand = false)
    (h : Derives (Place.binding e.binding).category ts e)
    (hexponent : e.isSign = true ∨ e.binding = 4 → Derives .exponent ts e)
    (hbare : Expr.isBare style place e = true) : Derives place.category ts e := by
  cases style with
  | everywhere => exact absurd (hop.symm.trans hbare) (by decide)
  | whereNeeded =>
    cases place with
    | binding least => exact h.loosen (of_decide_eq_true hbare)
    | exponent => exact hexponent (by simpa [Expr.isBare] using hbare)

namespace Expr

variable (style : Parentheses)

/-- An entry of an array with its tokens. -/
def entryTokens (e : Expr) : List Token × Expr := (tokensOf (pieces style (.binding 0) e), e)

/-- A row of an array with its tokens. -/
def rowTokens (row : List Expr) : List Token × List (List Token × Expr) :=
  (tokensOf (joined "," (row.map (pieces style (.binding 0)))), row.map (entryTokens style))

theorem map_rowTokens (rows : List (List Expr)) :
    (rows.map (rowTokens style)).map (fun row => row.2.map Prod.snd) = rows := by
  have hrow (row : List Expr) : (rowTokens style row).2.map Prod.snd = row := by
    simp [rowTokens, entryTokens, Function.comp_def]
  simp [Function.comp_def, hrow]

variable {style}

/-- The pieces of an array stand for it if those of its entries do. -/
theorem derives_array {rows : List (List Expr)} (hrectangle : isRectangle rows = true)
    (h : ∀ row ∈ rows, ∀ e ∈ row, Derives .sum (tokensOf (pieces style (.binding 0) e)) e)
    (place : Place) : Derives .primary (tokensOf (pieces style place (.array rows))) (.array rows) := by
  obtain ⟨hne, width, hwidth, hrows⟩ := isRectangle_iff.mp hrectangle
  have hopen := marks_of_isProper (isProper_mark (p := "[") (c := '[') rfl rfl)
  have hclose := marks_of_isProper (isProper_mark (p := "]") (c := ']') rfl rfl)
  rw [pieces, rowsPieces_eq, tokensOf_cons, tokensOf_append]
  nth_rewrite 2 [← map_rowTokens style rows]
  refine .array width hopen ?_ ?_ ?_ ?_ hclose
  · have hjoined := joinedBy_joined (show ";".toList = [';'] from rfl) rfl
      (rows.map fun row => joined "," (row.map (pieces style (.binding 0)))) (by simpa)
    simpa [rowTokens, Function.comp_def] using hjoined
  · intro row' hrow'
    obtain ⟨row, hrow, rfl⟩ := List.mem_map.mp hrow'
    have hcells : row ≠ [] := by
      rintro rfl
      exact hwidth (hrows [] hrow).symm
    have hjoined := joinedBy_joined (show ",".toList = [','] from rfl) rfl
      (row.map (pieces style (.binding 0))) (by simpa)
    simpa [rowTokens, entryTokens, Function.comp_def] using hjoined
  · intro row' hrow'
    obtain ⟨row, hrow, rfl⟩ := List.mem_map.mp hrow'
    simpa [rowTokens] using hrows row hrow
  · intro row' hrow' c hc
    obtain ⟨row, hrow, rfl⟩ := List.mem_map.mp hrow'
    obtain ⟨e, he, rfl⟩ := List.mem_map.mp hc
    exact h row hrow e he

/-- The pieces of a well-formed expression stand for it, in the category of its place. -/
theorem derives_pieces (he : e.isWellFormed = true) (place : Place) :
    Derives place.category (tokensOf (pieces style place e)) e := by
  induction e generalizing place with
  | number d =>
    have hnumber : Derives .primary (tokensOf [d.numeral]) (.number (Parser.numberValue d.numeral)) :=
      .number (pieceToken_kind (isProper_numeral d))
    rw [d.numberValue_numeral] at hnumber
    exact hnumber.inPlace place
  | symbol name =>
    have hname : Derives .primary (tokensOf [name]) (.symbol name) :=
      .name (pieceToken_kind (isProper_name he))
    exact hname.inPlace place
  | array rows ih =>
    obtain ⟨hrectangle, hentries⟩ := isWellFormed_array.mp he
    have harray := derives_array hrectangle
      (fun row hrow e he => ih row hrow e he (hentries row hrow e he) (.binding 0)) place
    exact harray.inPlace place
  | sign s e ih =>
    have hunary : Derives (Place.binding 2).category
        (tokensOf (s.mark :: pieces style (.binding 2) e)) (.sign s e) :=
      .signed s.marks_mark (ih he (.binding 2))
    have hexponent : Derives .exponent
        (tokensOf (s.mark :: pieces style .exponent e)) (.sign s e) :=
      .signedExponent s.marks_mark (ih he .exponent)
    rw [pieces]
    cases hbare : isBare style place (.sign s e)
    · exact .enclosed (hunary.loosen (Nat.zero_le 2)) (by simp)
    -- within an exponent the operand of a sign is an exponent too
    · cases place with
      | binding least =>
        cases style with
        | everywhere => cases hbare
        | whereNeeded => exact hunary.loosen (of_decide_eq_true hbare)
      | exponent => exact hexponent
  | binary op a b iha ihb =>
    rw [isWellFormed, Bool.and_eq_true] at he
    have hbinary := Derives.binary (iha he.1 op.leftPlace) op.marks_mark (ihb he.2 op.rightPlace)
    rw [← tokensOf_cons, ← tokensOf_append] at hbinary
    refine .enclosed (hbinary.loosen (Nat.zero_le _)) (hbinary.bare rfl fun h => ?_)
    cases op <;> simp [isSign, binding, Operation.binding] at h
  | transpose e ih =>
    have htranspose : Derives (Place.binding 4).category
        (tokensOf (pieces style (.binding 4) e ++ ["'"])) (.transpose e) := by
      rw [tokensOf_append]
      exact .transpose (ih he (.binding 4)) (marks_of_isProper (isProper_mark (c := '\'') rfl rfl))
    exact .enclosed (htranspose.loosen (Nat.zero_le 4))
      (htranspose.bare rfl fun _ => .plainExponent htranspose)

end Expr

end Places

section Reading

/-- The pieces of a text as they are cut from it. -/
def lexemesOf (ps : List String) : List Lexeme :=
  ps.map fun p => (some (pieceToken p).kind, p.toList)

variable {ps : List String}

theorem textOf_lexemesOf (ps : List String) :
    Lexeme.textOf (lexemesOf ps) = (String.join ps).toList := by
  rw [String.toList_join, Lexeme.textOf, lexemesOf, List.flatMap_map]

/-- Pieces no two of which are neighbouring words are cut from their text. -/
theorem wellSpaced_lexemesOf (h : ∀ p ∈ ps, IsPiece p) (hts : Token.WordsApart (tokensOf ps)) :
    Lexeme.WellSpaced (lexemesOf ps) := by
  constructor
  · intro l hl
    obtain ⟨p, hp, rfl⟩ := List.mem_map.mp hl
    exact h p hp
  · refine (List.isChain_map _).mpr (((List.isChain_map _).mp hts).imp fun p q hpq => ⟨?_, by simp⟩)
    simpa [Lexeme.IsWord, Token.IsWord] using hpq

/-- The tokens of a text are its pieces, each at its position. -/
theorem expands_lexemesOf (ps : List String) (position : ℕ) :
    Expands (fun _ => none) (tokensOf ps) (Lexeme.tokens position (lexemesOf ps)) := by
  induction ps generalizing position with
  | nil => exact .nil
  | cons p ps ih => exact .keep rfl (String.ofList_toList) (fun _ => rfl) (ih _)

/-- Pieces that stand for an expression are read as it. -/
theorem parse_join {e : Expr} (h : ∀ p ∈ ps, IsPiece p) (he : Derives .sum (tokensOf ps) e) :
    Expr.parse (String.join ps) = .ok e := by
  have hscan := (wellSpaced_lexemesOf h he.wordsApart).scan 0
  rw [textOf_lexemesOf] at hscan
  rw [Expr.parse_eq_ok_of_scan hscan]
  simpa [Expr.substitute_none] using he.expand (expands_lexemesOf ps 0)

/-- A well-formed expression is read back from its text. -/
theorem Expr.parse_of_isWellFormed (style : Parentheses) {e : Expr} (he : e.isWellFormed = true) :
    parse (write style e) = .ok e :=
  parse_join (isPiece_of_mem_pieces style he _) (derives_pieces he (.binding 0))

/-- The text that a well-formed expression is written as is read as this expression. -/
theorem Expr.parse_of_write (style : Parentheses) {e : Expr} {text : String}
    (h : write style e = text) (he : e.isWellFormed = true) : parse text = .ok e :=
  h ▸ parse_of_isWellFormed style he

/-- An expression is read back from its text exactly if it is well-formed. -/
theorem Expr.parse_write (style : Parentheses) (e : Expr) :
    parse (write style e) = .ok e ↔ e.isWellFormed = true :=
  ⟨isWellFormed_of_parse, parse_of_isWellFormed style⟩

/-- A power that is negated, and one with a negated exponent. -/
example : Expr.write .whereNeeded
    (.sign .minus (.binary .pow (.symbol "a") (.sign .minus (.symbol "b")))) = "-a^-b" := by
  decide

end Reading

end WeakForm
