import ThreeAddress.Proofs.Token.Lexeme

/-!
# Tokens tile their source

Each token of a source text but the last one occupies a span of it: the characters from its first
one on, as many as its length says. `Span.Fits` says what the text has to do with one token: where
the token is recorded to begin, how it is spelled, and what may follow it. `GapsFrom` says that the
spans follow each other and that only blanks and complete comments stand in front of them, between
them and behind them. The one exception is a comment without an end, whose opening is the last span.

`Token.scan_tiles` states this of every text. The scanner is followed along the text:
`scanFrom_skip` passes over the characters of a lexeme, and `scanFrom_tiles` takes one lexeme after
the other.
-/

namespace ThreeAddress

open List

/-! ## Places in a text -/

/-- The place behind a text: the line is counted by the newlines, the column by the characters
behind the last newline. -/
def Position.behind (text : List Char) : Position where
  line := 1 + text.count '\n'
  column := 1 + (text.reverse.takeWhile (· != '\n')).length

/-- A further character moves the place behind a text by one step. -/
lemma Position.next_behind (text : List Char) (c : Char) :
    (Position.behind text).next c = Position.behind (text ++ [c]) := by
  by_cases hc : c = '\n'
  · simp [Position.next, Position.behind, hc, Nat.add_assoc]
  · have hcount : [c].count '\n' = 0 := count_eq_zero.mpr (by simpa using Ne.symm hc)
    simp [Position.next, Position.behind, hc, hcount]
    omega

namespace Text

variable {source : List Char} {i j k : Nat} {settings : Settings}

/-- The part of a text from one place to another. -/
def between (source : List Char) (i j : Nat) : List Char := (source.drop i).take (j - i)

lemma between_append (hij : i ≤ j) (hjk : j ≤ k) :
    between source i j ++ between source j k = between source i k := by
  have hdrop : source.drop j = (source.drop i).drop (j - i) := by
    rw [drop_drop, Nat.add_sub_cancel' hij]
  have hwidth : k - i = (j - i) + (k - j) := by omega
  rw [between, between, between, hwidth, take_add, hdrop]

/-- A part joins what follows it. -/
lemma between_append_drop (hij : i ≤ j) : between source i j ++ source.drop j = source.drop i := by
  have hdrop : source.drop j = (source.drop i).drop (j - i) := by
    rw [drop_drop, Nat.add_sub_cancel' hij]
  rw [between, hdrop, take_append_drop]

lemma between_middle (before word after : List Char) :
    between (before ++ word ++ after) before.length (before ++ word).length = word := by
  simp [between]

end Text

/-! ## Spans -/

/-- A token with the place of its first character in the text. -/
structure Span where
  start : Nat
  token : Token

namespace Span

/-- The place behind the last character. -/
def stop (p : Span) : Nat := p.start + p.token.length.toNat

/-- The characters of a span. -/
def text (source : List Char) (p : Span) : List Char := Text.between source p.start p.stop

/-- The token of a comment without an end. -/
def IsUnclosed (p : Span) : Prop := p.token.kind = .illegal ∧ p.token.value = unclosedMessage

/-- What a text has to do with a token that occupies a span of it. -/
structure Fits (file : Int) (source : List Char) (p : Span) : Prop where
  /-- The span has characters. -/
  length_pos : 0 < p.token.length
  /-- They belong to the text. -/
  stop_le : p.stop ≤ source.length
  /-- They stand on one line. -/
  one_line : '\n' ∉ p.text source
  file_eq : p.token.file = file
  /-- The line is one more than the newlines in front of the span. -/
  line_eq : p.token.line = 1 + ((source.take p.start).count '\n' : Nat)
  /-- The column is one more than the characters behind the last newline in front of the span. -/
  column_eq : p.token.column =
    1 + (((source.take p.start).reverse.takeWhile (· != '\n')).length : Nat)
  /-- The characters are a word of the token's kind and value. -/
  spelled : Spelled p.token.kind p.token.value (p.text source)
  /-- A name or a number carries the characters. -/
  carried : p.token.kind = .identifier ∨ p.token.kind = .number →
    p.token.value.toList = p.text source
  /-- A keyword, an operator or a punctuation sign is spelled by them and carries nothing. -/
  spelling : p.token.kind.isFixed = true →
    p.token.value = "" ∧ p.token.kind.spelling.toList = p.text source
  /-- No letter, digit or underscore follows a name, a keyword or a number, be it valid or not. -/
  ended : p.token.kind.TakesAll p.token.value → Text.EndsWord (source.drop p.stop)

end Span

/-- From a place on, a text consists of the spans, of blanks and of complete comments. The opening
of a comment without an end comes last, and no closing sign follows it. -/
inductive GapsFrom (settings : Settings) (source : List Char) : Nat → List Span → Prop
  | done {place} (hgap : Gap settings (source.drop place) []) : GapsFrom settings source place []
  | span {place p spans} (hplace : place ≤ p.start)
      (hgap : Gap settings (Text.between source place p.start) (source.drop p.start))
      (hclosed : ¬ p.IsUnclosed) (hrest : GapsFrom settings source p.stop spans) :
      GapsFrom settings source place (p :: spans)
  | unclosed {place p} (hplace : place ≤ p.start)
      (hgap : Gap settings (Text.between source place p.start) (source.drop p.start))
      (hunclosed : p.IsUnclosed) (henabled : settings.feature .blockComments = true)
      (htext : p.text source = ['/', '*']) (hopen : ¬ ['*', '/'] <:+: source.drop p.stop) :
      GapsFrom settings source place [p]

/-- Nothing fills the gap between a place and itself. -/
lemma Gap.empty {settings} (source : List Char) (place : Nat) :
    Gap settings (Text.between source place place) (source.drop place) := by
  have hnothing : Text.between source place place = [] := by simp [Text.between]
  rw [hnothing]
  exact .nil

namespace GapsFrom

variable {place : Nat} {spans : List Span}

/-- One more blank or comment in front of the first span. -/
lemma prepend {start} (hstart : start ≤ place)
    (hpiece : Filler settings (Text.between source start place) (source.drop place))
    (h : GapsFrom settings source place spans) : GapsFrom settings source start spans := by
  -- The gap in front of the first span grows by the piece, whichever rule describes that span.
  have hgrow : ∀ {stop : Nat}, place ≤ stop →
      Gap settings (Text.between source place stop) (source.drop stop) →
        Gap settings (Text.between source start stop) (source.drop stop) := by
    intro stop hstop hgap
    rw [← Text.between_append hstart hstop]
    refine .cons ?_ hgap
    rwa [Text.between_append_drop hstop]
  cases h with
  | done hgap =>
    refine .done ?_
    rw [← Text.between_append_drop hstart]
    refine .cons ?_ hgap
    rwa [append_nil]
  | span hplace hgap hclosed hrest =>
    exact .span (hstart.trans hplace) (hgrow hplace hgap) hclosed hrest
  | unclosed hplace hgap hunclosed henabled htext hopen =>
    exact .unclosed (hstart.trans hplace) (hgrow hplace hgap) hunclosed henabled htext hopen

/-- The spans begin at the place or behind it. -/
lemma le_start (h : GapsFrom settings source place spans) : ∀ p ∈ spans, place ≤ p.start := by
  induction h with
  | done => exact forall_mem_nil _
  | span hplace hgap hclosed hrest ih =>
    have hstop : ∀ q : Span, q.start ≤ q.stop := fun q => Nat.le_add_right _ _
    refine forall_mem_cons.mpr ⟨hplace, fun q hq => ?_⟩
    exact hplace.trans ((hstop _).trans (ih q hq))
  | unclosed hplace => exact forall_mem_singleton.mpr hplace

/-- No two spans overlap, and they come in their order in the text. -/
lemma pairwise (h : GapsFrom settings source place spans) :
    spans.Pairwise fun p q => p.stop ≤ q.start := by
  induction h with
  | done => exact .nil
  | span hplace hgap hclosed hrest ih => exact .cons hrest.le_start ih
  | unclosed => exact pairwise_singleton _ _

end GapsFrom

/-! ## Following the scanner -/

namespace Token

variable {file : Int}

/-- The token at a place of a text. -/
def placed (file : Int) (p : Position) (kind : TokenKind) (value : String) (length : Nat) : Token :=
  { kind, value, file, line := p.line, column := p.column, length }

/-- The scanner passes over the characters of a lexeme. -/
lemma scanFrom_skip (before piece after : List Char) :
    scanFrom settings file (.behind before) piece.length (piece ++ after) =
      scanFrom settings file (.behind (before ++ piece)) 0 after := by
  induction piece generalizing before with
  | nil => rw [append_nil, length_nil, nil_append]
  | cons c cs ih =>
    rw [length_cons, cons_append, scanFrom, Position.next_behind, ih, append_assoc,
      singleton_append]

/-- The scanner passes over the rest of a lexeme whose first character it has looked at. -/
lemma scanFrom_next (settings : Settings) (file : Int) (before : List Char) {c rest piece after}
    (hpiece : piece ≠ []) (htext : c :: rest = piece ++ after) :
    scanFrom settings file ((Position.behind before).next c) (piece.length - 1) rest =
      scanFrom settings file (.behind (before ++ piece)) 0 after := by
  obtain ⟨d, tail, rfl⟩ := exists_cons_of_ne_nil hpiece
  rw [cons_append] at htext
  cases htext
  rw [Position.next_behind, length_cons, Nat.add_sub_cancel, scanFrom_skip, append_assoc,
    singleton_append]

/-- The span of a word behind a text. -/
def wordSpan (file : Int) (kind : TokenKind) (value : String) (before word : List Char) : Span :=
  ⟨before.length, placed file (.behind before) kind value word.length⟩

lemma stop_wordSpan (file : Int) (kind : TokenKind) (value : String) (before word : List Char) :
    (wordSpan file kind value before word).stop = (before ++ word).length := by
  simp [wordSpan, Span.stop, placed]

/-- The characters of the span of a word are the word. -/
lemma text_wordSpan (file : Int) (kind : TokenKind) (value : String)
    (before word after : List Char) :
    (wordSpan file kind value before word).text (before ++ word ++ after) = word := by
  rw [Span.text, stop_wordSpan]
  exact Text.between_middle before word after

/-- A word fits the text it stands in. -/
lemma fits_wordSpan (file : Int) (before : List Char) {kind value word after}
    (hspelled : Spelled kind value word) (hended : kind.TakesAll value → Text.EndsWord after) :
    (wordSpan file kind value before word).Fits file (before ++ word ++ after) := by
  have hlen : 0 < word.length := length_pos_iff.mpr hspelled.ne_nil
  have hstop := stop_wordSpan file kind value before word
  have htext := text_wordSpan file kind value before word after
  have hplace : (before ++ word ++ after).take
      (wordSpan file kind value before word).start = before := by
    rw [append_assoc]
    exact take_left
  refine ⟨?_, ?_, ?_, rfl, ?_, ?_, ?_, ?_, ?_, ?_⟩
  · exact Int.natCast_pos.mpr hlen
  · rw [hstop, append_assoc, length_append, length_append, length_append]
    omega
  · rw [htext]
    exact hspelled.newline_notMem
  · rw [hplace]
    exact Int.natCast_add 1 _
  · rw [hplace]
    exact Int.natCast_add 1 _
  · rwa [htext]
  · rw [htext]
    exact hspelled.carried
  · rw [htext]
    exact hspelled.spelling
  · rwa [hstop, drop_left]

/-- The tokens of a text from a place on, when they tile what stands there. -/
def TilesFrom (settings : Settings) (file : Int) (source : List Char) (place : Nat)
    (tokens : List Token) :
    Prop :=
  ∃ spans : List Span,
    tokens = spans.map Span.token ++ [placed file (.behind source) .endOfFile "" 0] ∧
      (∀ p ∈ spans, p.Fits file source) ∧ GapsFrom settings source place spans

namespace TilesFrom

variable {tokens : List Token} {before piece after : List Char}

section

variable (h : TilesFrom settings file (before ++ piece ++ after) (before ++ piece).length tokens)
include h

/-- A blank or a comment is passed over. -/
lemma gap (hpiece : Filler settings piece after) :
    TilesFrom settings file (before ++ piece ++ after) before.length tokens := by
  obtain ⟨spans, htokens, hfits, hgaps⟩ := h
  refine ⟨spans, htokens, hfits, hgaps.prepend ?_ ?_⟩
  · rw [length_append]
    exact Nat.le_add_right _ _
  · rwa [Text.between_middle, drop_left]

/-- A word makes a token. -/
lemma word {kind value} (hspelled : Spelled kind value piece)
    (hclosed : kind = .illegal → value ≠ unclosedMessage)
    (hended : kind.TakesAll value → Text.EndsWord after) :
    TilesFrom settings file (before ++ piece ++ after) before.length
      (placed file (.behind before) kind value piece.length :: tokens) := by
  obtain ⟨spans, rfl, hfits, hgaps⟩ := h
  have hfit := fits_wordSpan file before hspelled hended
  refine ⟨wordSpan file kind value before piece :: spans, rfl,
    forall_mem_cons.mpr ⟨hfit, hfits⟩, ?_⟩
  refine .span le_rfl (.empty _ _) (fun h => hclosed h.1 h.2) ?_
  rwa [stop_wordSpan]

end

/-- A comment without an end makes the last token in front of the end of the file. -/
lemma unclosed (henabled : settings.feature .blockComments = true)
    (hopen : ¬ ['*', '/'] <:+: after) :
    TilesFrom settings file (before ++ ['/', '*'] ++ after) before.length
      [placed file (.behind before) .illegal unclosedMessage ['/', '*'].length,
        placed file (.behind (before ++ ['/', '*'] ++ after)) .endOfFile "" 0] := by
  have hended : TokenKind.illegal.TakesAll unclosedMessage → Text.EndsWord after := by
    rintro (hkind | hkind | hkind | ⟨-, text, htext⟩)
    · cases hkind
    · cases hkind
    · exact absurd hkind (by decide)
    · have hchars := congrArg String.toList htext
      simp [unclosedMessage] at hchars
  have hfit := fits_wordSpan file before .unclosed hended
  refine ⟨[wordSpan file .illegal unclosedMessage before ['/', '*']], rfl,
    forall_mem_singleton.mpr hfit, ?_⟩
  refine .unclosed le_rfl (.empty _ _) ⟨rfl, rfl⟩ henabled
    (text_wordSpan file _ _ before _ after) ?_
  rwa [stop_wordSpan, drop_left]

end TilesFrom

/-- One lexeme after the other, the scanner tiles what is left of a text. -/
lemma scanFrom_tiles (settings : Settings) (file : Int) (before rest : List Char) :
    TilesFrom settings file (before ++ rest) before.length
    (scanFrom settings file (.behind before) 0 rest) := by
  -- The induction is on the length of what is left, since a lexeme may take many characters.
  induction hlen : rest.length using Nat.strong_induction_on generalizing before rest with
  | _ n ih =>
  cases rest with
  | nil =>
    refine ⟨[], ?_, forall_mem_nil _, .done ?_⟩
    · rw [append_nil, scanFrom]
      rfl
    · rw [append_nil, drop_length]
      exact .nil
  | cons c rest =>
    -- What is left behind a lexeme is tiled, by the induction.
    have hbehind : ∀ piece after : List Char, piece ≠ [] → c :: rest = piece ++ after →
        TilesFrom settings file (before ++ piece ++ after) (before ++ piece).length
          (scanFrom settings file ((Position.behind before).next c) (piece.length - 1) rest) := by
      intro piece after hpiece htext
      have hshorter : after.length < n := by
        have hpos := length_pos_iff.mpr hpiece
        rw [← hlen, htext, length_append]
        omega
      rw [scanFrom_next settings file before hpiece htext]
      exact ih _ hshorter (before ++ piece) after rfl
    rw [scanFrom]
    have hreading := Lexeme.reading_read settings c rest
    generalize Lexeme.read settings c rest = lexeme at hreading
    cases hreading with
    | gap piece after htext hpiece =>
      have hne : piece ≠ [] := by cases hpiece <;> exact cons_ne_nil _ _
      rw [htext, ← append_assoc]
      exact (hbehind piece after hne htext).gap hpiece
    | word hword =>
      obtain ⟨word, after, htext, rfl, hspelled, hclosed, hended⟩ := hword
      rw [htext, ← append_assoc]
      exact (hbehind word after hspelled.ne_nil htext).word hspelled hclosed hended
    | unclosed henabled htext hopen =>
      rename_i after
      have hend := scanFrom_next settings file before (cons_ne_nil c rest) (append_nil _).symm
      rw [length_cons, Nat.add_sub_cancel, scanFrom] at hend
      have hsource : before ++ c :: rest = before ++ ['/', '*'] ++ after := by
        rw [htext, append_assoc]
        rfl
      rw [hsource] at hend ⊢
      simp only [hend]
      exact .unclosed henabled hopen

/-- The tokens of a text end with the end of the file, and those before it are spelled by words. -/
lemma scan_eq (settings : Settings) (file : Int) (source : List Char) :
    ∃ body eof, scan settings file source = body ++ [eof] ∧ eof.kind = .endOfFile ∧
      ∀ t ∈ body, ∃ word, Spelled t.kind t.value word := by
  obtain ⟨spans, htokens, hfits, -⟩ := scanFrom_tiles settings file [] source
  exact ⟨_, _, htokens, rfl, forall_mem_map.mpr fun p hp => ⟨_, (hfits p hp).spelled⟩⟩

/-- A token that is not the end of the file is spelled by a word. -/
lemma spelled_of_mem_scan {source t} (ht : t ∈ scan settings file source)
    (hkind : t.kind ≠ .endOfFile) :
    ∃ word, Spelled t.kind t.value word := by
  obtain ⟨body, eof, hscan, heof, hbody⟩ := scan_eq settings file source
  rw [hscan] at ht
  rcases mem_append.mp ht with ht | ht
  · exact hbody t ht
  · exact absurd (mem_singleton.mp ht ▸ heof) hkind

/-- The tokens of a text tile it. The last of them, and no other, is the end of the file, behind the
whole text. Each of the others fits the span it occupies; the spans are disjoint and in order; and
what they leave out are blanks and complete comments, or follows the opening of a comment without an
end. -/
theorem scan_tiles (settings : Settings) (file : Int) (source : List Char) :
    ∃ spans : List Span,
      scan settings file source =
        spans.map Span.token ++ [placed file (.behind source) .endOfFile "" 0] ∧
      (∀ p ∈ spans, p.token.kind ≠ .endOfFile ∧ p.Fits file source) ∧
      (spans.Pairwise fun p q => p.stop ≤ q.start) ∧ GapsFrom settings source 0 spans := by
  obtain ⟨spans, htokens, hfits, hgaps⟩ := scanFrom_tiles settings file [] source
  refine ⟨spans, htokens, ?_, hgaps.pairwise, hgaps⟩
  intro p hp
  exact ⟨(hfits p hp).spelled.ne_endOfFile, hfits p hp⟩

end Token

end ThreeAddress
