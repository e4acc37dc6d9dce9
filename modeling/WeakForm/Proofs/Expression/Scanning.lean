import WeakForm.Proofs.Expression.FreeNumerals

/-!
# Scanning

Tokens are read from a text one after the other: white space is passed over, and then the longest piece
is taken. The scan succeeds exactly if the whole text can be read like this, and it fails exactly if this
leads to a place where nothing starts. Where a token ends does not depend on white space behind it, so
white space may be put in at any place outside the tokens, and only positions change.
-/

namespace WeakForm

open Text (isBlank)

namespace Token

/-- Tokens are read from the front of a text at a position, which leaves the rest of the text: each is the
longest piece where it stands, with nothing but white space before it. -/
inductive Reads : ℕ → List Char → List Token → List Char → Prop
  | stop {position : ℕ} {gap : List Char} (hgap : ∀ c ∈ gap, isBlank c = true) (rest : List Char) :
      Reads position (gap ++ rest) [] rest
  | token {position : ℕ} {gap p cs rest : List Char} {kind : TokenKind} {ts : List Token}
      (hgap : ∀ c ∈ gap, isBlank c = true) (hp : Lexeme.IsLongest (some kind, p) (p ++ cs))
      (h : Reads (position + gap.length + p.length) cs ts rest) :
      Reads position (gap ++ (p ++ cs)) (⟨kind, String.ofList p, position + gap.length⟩ :: ts) rest

/-- The token further on in its text. -/
def shift (t : Token) (n : ℕ) : Token := { t with position := t.position + n }

/-- The token after `n` characters have been put in at a place of its text. -/
def moved (place n : ℕ) (t : Token) : Token := if t.position < place then t else t.shift n

section Steps

variable {position : ℕ} {gap cs rest : List Char} {c : Char} {ts : List Token}

theorem scan_of_isLongest {l : Lexeme} (h : l.IsLongest (l.2 ++ rest)) (position : ℕ) :
    scan position (l.2 ++ rest) =
      (scan (position + l.2.length) rest).map fun ts => Lexeme.tokens position [l] ++ ts := by
  obtain ⟨hcut, hne⟩ := Lexeme.isLongest_iff.mp h
  exact Lexeme.scan_append hcut hne

theorem scan_of_stuck (h : ∀ l : Lexeme, ¬ l.Starts (c :: cs)) (position : ℕ) :
    scan position (c :: cs) = .error (c, position) := by
  have hnil := Lexeme.lexeme_eq_nil_iff.mpr h
  rw [scan.eq_def]
  dsimp only
  split
  · rfl
  · rename_i hlength
    simp [hnil] at hlength

/-- White space is passed over. -/
theorem scan_blanks (hgap : ∀ c ∈ gap, isBlank c = true) (hcs : ∀ c ∈ cs.head?, isBlank c = false)
    (position : ℕ) : scan position (gap ++ cs) = scan (position + gap.length) cs := by
  by_cases hne : gap = []
  · rw [hne]
    rfl
  · have hproper : Lexeme.IsProper (none, gap) := .blank hne hgap
    have hprecede : Lexeme.MayPrecede (none, gap) cs :=
      ⟨fun h => by simp [Lexeme.IsWord] at h, fun _ => hcs⟩
    rw [Lexeme.scan_append (l := (none, gap)) (hproper.lexeme_append hprecede) hne]
    cases scan (position + gap.length) cs <;> rfl

/-- Where nothing starts, no white space does. -/
theorem isBlank_of_stuck (h : ∀ l : Lexeme, ¬ l.Starts cs) : ∀ c ∈ cs.head?, isBlank c = false := by
  intro c hc
  rw [← Bool.not_eq_true]
  intro hblank
  obtain ⟨rest, rfl⟩ := List.head?_eq_some_iff.mp hc
  exact h (none, [c]) ⟨.blank (by simp) (by simpa using hblank), rest, rfl⟩

theorem isBlank_of_isLongest {kind : TokenKind} {p : List Char}
    (h : Lexeme.IsLongest (some kind, p) (p ++ cs)) : ∀ c ∈ (p ++ cs).head?, isBlank c = false := by
  intro c hc
  obtain ⟨d, q, rfl, hd⟩ := h.1.1.isBlank_head (by simp)
  cases hc
  exact hd

end Steps

namespace Reads

variable {position : ℕ} {gap cs rest : List Char} {ts : List Token}

theorem isSuffix (h : Reads position cs ts rest) : rest <:+ cs := by
  induction h with
  | stop => exact List.suffix_append _ _
  | token _ _ _ ih => exact ih.trans ((List.suffix_append _ _).trans (List.suffix_append _ _))

/-- White space in front of a text that is read may be passed over, too. -/
theorem blanks (hgap : ∀ c ∈ gap, isBlank c = true) (h : Reads (position + gap.length) cs ts rest) :
    Reads position (gap ++ cs) ts rest := by
  cases h with
  | stop hgap' =>
    rw [← List.append_assoc]
    exact .stop (List.forall_mem_append.mpr ⟨hgap, hgap'⟩) rest
  | @token _ gap' p cs _ kind ts hgap' hp h =>
    have hlength : position + gap.length + gap'.length = position + (gap ++ gap').length := by
      rw [List.length_append, Nat.add_assoc]
    rw [hlength] at h ⊢
    rw [← List.append_assoc]
    exact .token (List.forall_mem_append.mpr ⟨hgap, hgap'⟩) hp h

/-- The scan goes on where reading stops. -/
theorem scan_eq (h : Reads position cs ts rest) (hrest : ∀ c ∈ rest.head?, isBlank c = false) :
    scan position cs = (scan (position + (cs.length - rest.length)) rest).map fun us => ts ++ us := by
  induction h with
  | @stop position gap hgap rest =>
    have hlength : (gap ++ rest).length - rest.length = gap.length := by simp
    rw [scan_blanks hgap hrest, hlength]
    cases scan (position + gap.length) rest <;> rfl
  | @token position gap p cs rest kind ts hgap hp h ih =>
    have hle := h.isSuffix.length_le
    have hlength : position + ((gap ++ (p ++ cs)).length - rest.length) =
        position + gap.length + p.length + (cs.length - rest.length) := by
      simp only [List.length_append]
      omega
    rw [scan_blanks hgap (isBlank_of_isLongest hp), scan_of_isLongest (l := (some kind, p)) hp, ih hrest, hlength]
    cases scan (position + gap.length + p.length + (cs.length - rest.length)) rest <;> rfl

end Reads

section Scans

variable {position place : ℕ} {cs : List Char} {c : Char} {ts : List Token}

/-- Every text is read up to its end, or up to a place where nothing starts. -/
theorem exists_reads (position : ℕ) (cs : List Char) : ∃ ts rest, Reads position cs ts rest ∧
    (rest ≠ [] → ∀ l : Lexeme, ¬ l.Starts rest) := by
  induction hn : cs.length using Nat.strong_induction_on generalizing cs position with
  | _ n ih =>
  by_cases hstuck : ∀ l : Lexeme, ¬ l.Starts cs
  · exact ⟨[], cs, @Reads.stop position [] (by simp) cs, fun _ => hstuck⟩
  obtain ⟨l, hl⟩ : ∃ l : Lexeme, l.IsLongest cs :=
    ⟨_, Lexeme.isLongest_iff.mpr ⟨rfl, fun h => hstuck (Lexeme.lexeme_eq_nil_iff.mp h)⟩⟩
  obtain ⟨hproper, tail, rfl⟩ := hl.1
  have hshorter : tail.length < n := by
    have hpos := List.length_pos_iff.mpr hproper.ne_nil
    rw [List.length_append] at hn
    omega
  obtain ⟨ts, rest, hreads, hrest⟩ := ih _ hshorter (position + l.2.length) tail rfl
  obtain ⟨kind, p⟩ := l
  cases kind with
  | none => exact ⟨ts, rest, hreads.blanks (hproper.isBlank_of_none rfl), hrest⟩
  | some kind => exact ⟨_, rest, @Reads.token position [] p tail rest kind ts (by simp) hl hreads, hrest⟩

/-- The scan of a text succeeds exactly if all of it can be read. -/
theorem scan_eq_ok : scan position cs = .ok ts ↔ Reads position cs ts [] := by
  have hread {ts : List Token} (h : Reads position cs ts []) : scan position cs = .ok ts := by
    rw [h.scan_eq (by simp), Lexeme.scan_nil]
    exact congrArg Except.ok (List.append_nil ts)
  refine ⟨fun h => ?_, hread⟩
  obtain ⟨us, rest, hreads, hrest⟩ := exists_reads position cs
  cases rest with
  | nil =>
    rw [hread hreads] at h
    cases h
    exact hreads
  | cons d rest =>
    have hstuck := hrest (by simp)
    rw [hreads.scan_eq (isBlank_of_stuck hstuck), scan_of_stuck hstuck] at h
    cases h

/-- The scan of a text fails exactly if reading it leads to a place where nothing starts. -/
theorem scan_eq_error : scan position cs = .error (c, place) ↔ ∃ front rest ts, cs = front ++ c :: rest ∧
    place = position + front.length ∧ Reads position cs ts (c :: rest) ∧
      ∀ l : Lexeme, ¬ l.Starts (c :: rest) := by
  constructor
  · intro h
    obtain ⟨ts, rest, hreads, hrest⟩ := exists_reads position cs
    cases rest with
    | nil =>
      rw [scan_eq_ok.mpr hreads] at h
      cases h
    | cons d rest =>
      have hstuck := hrest (by simp)
      rw [hreads.scan_eq (isBlank_of_stuck hstuck), scan_of_stuck hstuck] at h
      cases h
      obtain ⟨front, rfl⟩ := hreads.isSuffix
      exact ⟨front, rest, ts, rfl, by simp, hreads, hstuck⟩
  · rintro ⟨front, rest, ts, rfl, rfl, hreads, hstuck⟩
    rw [hreads.scan_eq (isBlank_of_stuck hstuck), scan_of_stuck hstuck]
    simp [Except.map]

end Scans

namespace Reads

variable {position : ℕ} {cs rest w : List Char} {ts : List Token}

/-- The tokens are within the text. -/
theorem bounds (h : Reads position cs ts rest) :
    ∀ t ∈ ts, position ≤ t.position ∧ t.position + t.text.length ≤ position + cs.length := by
  induction h with
  | stop => simp
  | @token position gap p cs rest kind ts hgap hp h ih =>
    refine List.forall_mem_cons.mpr ⟨⟨Nat.le_add_right _ _, ?_⟩, fun t ht => ?_⟩
    · simp only [String.length_ofList, List.length_append]
      omega
    · have hbounds := ih t ht
      rw [List.length_append, List.length_append]
      omega

/-- Every token ends before the next one starts. -/
theorem pairwise (h : Reads position cs ts rest) :
    ts.Pairwise fun t u => t.position + t.text.length ≤ u.position := by
  induction h with
  | stop => exact .nil
  | token _ _ h ih =>
    refine .cons (fun u hu => ?_) ih
    rw [String.length_ofList]
    exact (h.bounds u hu).1

/-- Every token is the longest piece at its place. -/
theorem isLongest (h : Reads position cs ts rest) : ∀ t ∈ ts,
    Lexeme.IsLongest (some t.kind, t.text.toList) (cs.drop (t.position - position)) := by
  induction h with
  | stop => simp
  | @token position gap p cs rest kind ts hgap hp h ih =>
    refine List.forall_mem_cons.mpr ⟨?_, fun t ht => ?_⟩
    · rw [String.toList_ofList, Nat.add_sub_cancel_left, List.drop_left]
      exact hp
    · have hbounds := h.bounds t ht
      have hplace : t.position - position =
          (gap ++ p).length + (t.position - (position + gap.length + p.length)) := by
        rw [List.length_append]
        omega
      rw [hplace, ← List.append_assoc, List.drop_length_add_append]
      exact ih t ht

theorem shift (h : Reads position cs ts rest) (n : ℕ) :
    Reads (position + n) cs (ts.map fun t => t.shift n) rest := by
  induction h with
  | stop hgap rest => exact .stop hgap rest
  | @token position gap p cs rest kind ts hgap hp h ih =>
    have hposition : position + gap.length + n = position + n + gap.length := by omega
    have hend : position + gap.length + p.length + n = position + n + gap.length + p.length := by omega
    rw [hend] at ih
    rw [List.map_cons, Token.shift, hposition]
    exact .token hgap hp ih

/-- Tokens behind the place are moved. -/
theorem map_moved {place : ℕ} (h : Reads position cs ts rest) (hplace : place ≤ position) (n : ℕ) :
    ts.map (moved place n) = ts.map fun t => t.shift n := by
  refine List.map_congr_left fun t ht => if_neg ?_
  have hbounds := h.bounds t ht
  omega

/-- White space may be put in at every place that is inside no token. -/
theorem insert {a b : List Char} (h : Reads position (a ++ b) ts []) (hw : ∀ c ∈ w, isBlank c = true)
    (hplace : ∀ t ∈ ts, position + a.length ≤ t.position ∨ t.position + t.text.length ≤ position + a.length) :
    Reads position (a ++ (w ++ b)) (ts.map (moved (position + a.length) w.length)) [] := by
  -- the first token is behind the place
  have hbehind {position : ℕ} {a b : List Char} {ts : List Token} (ha : ∀ c ∈ a, isBlank c = true)
      (h : Reads (position + a.length) b ts []) :
      Reads position (a ++ (w ++ b)) (ts.map (moved (position + a.length) w.length)) [] := by
    rw [h.map_moved le_rfl, ← List.append_assoc]
    refine blanks (List.forall_mem_append.mpr ⟨ha, hw⟩) ?_
    rw [List.length_append, ← Nat.add_assoc]
    exact h.shift w.length
  generalize hcs : a ++ b = cs at h
  generalize hrest : ([] : List Char) = rest at h
  induction h generalizing a b with
  | @stop position gap hgap rest =>
    subst hrest
    rw [List.append_nil] at hcs
    subst hcs
    obtain ⟨ha, hb⟩ := List.forall_mem_append.mp hgap
    refine hbehind ha ?_
    rw [← List.append_nil b]
    exact .stop hb []
  | @token position gap p cs rest kind ts hgap hp h ih =>
    subst hrest
    obtain ⟨hfirst, hothers⟩ := List.forall_mem_cons.mp hplace
    have hfront : a <+: gap ++ (p ++ cs) := ⟨b, hcs⟩
    by_cases hbefore : a.length ≤ gap.length
    · obtain ⟨gap', rfl⟩ := List.prefix_of_prefix_length_le hfront (List.prefix_append _ _) hbefore
      rw [List.append_assoc, List.append_cancel_left_eq] at hcs
      subst hcs
      obtain ⟨ha, hgap'⟩ := List.forall_mem_append.mp hgap
      refine hbehind ha ?_
      rw [List.length_append, ← Nat.add_assoc] at h ⊢
      exact .token hgap' hp h
    · have hlength : (gap ++ p).length ≤ a.length := by
        simp only [String.length_ofList] at hfirst
        rw [List.length_append]
        omega
      have hfront' : gap ++ p <+: gap ++ (p ++ cs) := ⟨cs, List.append_assoc _ _ _⟩
      obtain ⟨a', rfl⟩ := List.prefix_of_prefix_length_le hfront' hfront hlength
      simp only [List.append_assoc, List.append_cancel_left_eq] at hcs
      subst hcs
      have hplace' : position + (gap ++ p ++ a').length = position + gap.length + p.length + a'.length := by
        simp only [List.length_append]
        omega
      rw [hplace'] at hothers ⊢
      have hkept : moved (position + gap.length + p.length + a'.length) w.length
          ⟨kind, String.ofList p, position + gap.length⟩ = ⟨kind, String.ofList p, position + gap.length⟩ := by
        have hpos := List.length_pos_iff.mpr hp.1.1.ne_nil
        exact if_pos (by dsimp only at hpos ⊢; omega)
      rw [List.map_cons, hkept, List.append_assoc, List.append_assoc]
      exact .token hgap (hp.insert (by simp) hw) (ih hothers rfl rfl)

end Reads

/-- The tokens at their positions, with nothing but white space before each of them, make up a text. -/
inductive Spells : ℕ → List Token → List Char → Prop
  | nil (position : ℕ) : Spells position [] []
  | cons {position : ℕ} {gap cs : List Char} {t : Token} {ts : List Token}
      (hgap : ∀ c ∈ gap, isBlank c = true) (hposition : t.position = position + gap.length)
      (h : Spells (t.position + t.text.length) ts cs) :
      Spells position (t :: ts) (gap ++ (t.text.toList ++ cs))

/-- What is read from all of a text makes it up, together with its end. -/
theorem Reads.spells {position : ℕ} {cs : List Char} {ts : List Token} (h : Reads position cs ts []) :
    Spells position (ts ++ [⟨.finish, "", position + cs.length⟩]) cs := by
  generalize hrest : ([] : List Char) = rest at h
  induction h with
  | stop hgap =>
    subst hrest
    exact .cons hgap (by rw [List.append_nil]) (.nil _)
  | @token position gap p cs rest kind ts hgap hp h ih =>
    have hspells := ih hrest
    have hlength : position + (gap ++ (p ++ cs)).length = position + gap.length + p.length + cs.length := by
      simp only [List.length_append]
      omega
    rw [← hlength] at hspells
    have hcons := Spells.cons (t := ⟨kind, String.ofList p, position + gap.length⟩) hgap rfl
      (by rwa [String.length_ofList])
    rwa [String.toList_ofList] at hcons

end Token

namespace Expr

/-- What the tokens of a text are: with white space they make up the text, the last one is its end, each of
the others is the longest piece at its place, numbers can be read, and white space may be put in at every
place that is inside no token. -/
structure IsTokenized (text : String) (ts : List Token) : Prop where
  spells : Token.Spells 0 ts text.toList
  increasing : ts.Pairwise fun t u => t.position < u.position
  finish : ts.getLast? = some ⟨.finish, "", text.length⟩
  longest : ∀ t ∈ ts.dropLast,
    Lexeme.IsLongest (some t.kind, t.text.toList) (text.toList.drop t.position)
  number : ∀ t ∈ ts, t.kind = .number →
    Text.readNumeral t.text = some (.finite false (Parser.numberValue t.text))
  blanks : ∀ a b w : String, text = a ++ b → (∀ c ∈ w.toList, isBlank c = true) →
    (∀ t ∈ ts, a.length ≤ t.position ∨ t.position + t.text.length ≤ a.length) →
      tokenize (a ++ w ++ b) = .ok (ts.map (Token.moved a.length w.length))

theorem tokenize_eq_ok_iff {text : String} {ts : List Token} : tokenize text = .ok ts ↔
    ∃ words, Token.Reads 0 text.toList words [] ∧ ts = words ++ [⟨.finish, "", text.length⟩] := by
  simp only [← Token.scan_eq_ok, tokenize]
  cases Token.scan 0 text.toList with
  | error e => simp
  | ok words => simp only [Except.ok.injEq, exists_eq_left', eq_comm]

theorem tokenize_eq_error_iff {text : String} {e : SyntaxError} : tokenize text = .error e ↔
    ∃ c place, Token.scan 0 text.toList = .error (c, place) ∧ e = .character c place text := by
  rw [tokenize]
  cases Token.scan 0 text.toList with
  | error stuck =>
    constructor
    · intro h
      cases h
      exact ⟨_, _, rfl, rfl⟩
    · rintro ⟨c, place, hstuck, rfl⟩
      cases hstuck
      rfl
  | ok words => simp

/-- Everything said about tokens is said about what is read from the whole text. -/
theorem isTokenized_of_reads {text : String} {words : List Token} (h : Token.Reads 0 text.toList words []) :
    IsTokenized text (words ++ [⟨.finish, "", text.length⟩]) := by
  have hlongest := h.isLongest
  have hbounds := h.bounds
  simp only [Nat.sub_zero] at hlongest
  simp only [Nat.zero_add, String.length_toList] at hbounds
  have hpositive : ∀ t ∈ words, 0 < t.text.length := fun t ht => by
    rw [← String.length_toList]
    exact List.length_pos_iff.mpr (hlongest t ht).1.1.ne_nil
  constructor
  case spells =>
    have hspells := h.spells
    rwa [Nat.zero_add, String.length_toList] at hspells
  case increasing =>
    refine List.pairwise_append.mpr ⟨h.pairwise.imp_of_mem fun ht _ hle => ?_, by simp, fun t ht u hu => ?_⟩
    · exact (Nat.lt_add_of_pos_right (hpositive _ ht)).trans_le hle
    · rw [List.mem_singleton.mp hu]
      exact (Nat.lt_add_of_pos_right (hpositive t ht)).trans_le (hbounds t ht).2
  case finish => exact List.getLast?_concat
  case longest =>
    rw [List.dropLast_concat]
    exact hlongest
  case number =>
    intro t ht hkind
    rcases List.mem_append.mp ht with ht | ht
    · refine Token.readNumeral_eq ?_
      cases hkind ▸ (hlongest t ht).1.1 with
      | number hp => exact hp
    · rw [List.mem_singleton.mp ht] at hkind
      cases hkind
  case blanks =>
    intro a b w htext hw hplace
    subst htext
    obtain ⟨hwords, -⟩ := List.forall_mem_append.mp hplace
    rw [String.toList_append] at h
    have hinsert := h.insert hw (by simpa only [Nat.zero_add, String.length_toList] using hwords)
    rw [Nat.zero_add, String.length_toList, String.length_toList, ← List.append_assoc, ← String.toList_append,
      ← String.toList_append] at hinsert
    have hfinish : Token.moved a.length w.length ⟨.finish, "", (a ++ b).length⟩ =
        ⟨.finish, "", (a ++ w ++ b).length⟩ := by
      simp only [Token.moved, Token.shift, String.length_append]
      rw [if_neg (by omega), Nat.add_right_comm]
    exact tokenize_eq_ok_iff.mpr ⟨_, hinsert, by rw [List.map_append, List.map_singleton, hfinish]⟩

/-- Reading is lossless and takes the longest piece each time. It fails exactly if it leads to a place where
no number, name, mark or white space starts. -/
theorem tokenize_lossless (text : String) :
    (∀ ts, tokenize text = .ok ts → IsTokenized text ts) ∧
    ∀ e, tokenize text = .error e ↔ ∃ front c rest ts, text.toList = front ++ c :: rest ∧
      e = .character c front.length text ∧ Token.Reads 0 text.toList ts (c :: rest) ∧
        ∀ l : Lexeme, ¬ l.Starts (c :: rest) := by
  constructor
  · intro ts hts
    obtain ⟨words, hreads, rfl⟩ := tokenize_eq_ok_iff.mp hts
    exact isTokenized_of_reads hreads
  · intro e
    rw [tokenize_eq_error_iff]
    constructor
    · rintro ⟨c, place, hscan, rfl⟩
      obtain ⟨front, rest, ts, htext, rfl, hreads, hstuck⟩ := Token.scan_eq_error.mp hscan
      exact ⟨front, c, rest, ts, htext, by rw [Nat.zero_add], hreads, hstuck⟩
    · rintro ⟨front, c, rest, ts, htext, rfl, hreads, hstuck⟩
      exact ⟨c, _, Token.scan_eq_error.mpr ⟨front, rest, ts, htext, rfl, hreads, hstuck⟩,
        by rw [Nat.zero_add]⟩

-- an exponent without digits is no part of the number
example : tokenize "2.e+ x" =
    .ok [⟨.number, "2.", 0⟩, ⟨.name, "e", 2⟩, ⟨.mark, "+", 3⟩, ⟨.name, "x", 5⟩, ⟨.finish, "", 6⟩] := by
  decide +kernel

end Expr
end WeakForm
