import Mathlib.Algebra.Group.Nat.Defs
import ThreeAddress.Proofs.Lowering.Reasons
import ThreeAddress.Proofs.Parser.Origins
import ThreeAddress.Proofs.Token.Excerpt

/-!
# The places of case values

The value of a case is the only token of a tree that is not one of the source text: it begins at the
sign, if there is one, and its length is the difference of two columns. Blanks and comments may
stand between the sign and the digits. The length is that of the literal as long as they hold no
newline; behind a newline the columns count anew.
-/

namespace ThreeAddress

open List Lowering

/-- A number stands in a text, perhaps behind a minus sign; blanks and comments may come between the
two. -/
structure SignedLiteral (settings : Settings) (source : List Char) (value : String)
    (before sign gap digits after : List Char) : Prop where
  source_eq : source = before ++ (sign ++ gap ++ digits) ++ after
  signed : sign = [] ∧ gap = [] ∨ sign = ['-'] ∧ Gap settings gap (digits ++ after)
  digits_ne_nil : digits ≠ []
  isDigit : ∀ c ∈ digits, Text.isDigit c = true
  /-- The number takes all the digits there are. -/
  ended : Text.EndsWord after
  value_eq : value.toList = sign ++ digits

/-- Newlines of a literal stand between the sign and the number. -/
lemma SignedLiteral.newline_notMem_iff {settings value source before sign gap digits after}
    (h : SignedLiteral settings source value before sign gap digits after) :
    '\n' ∉ sign ++ gap ++ digits ↔ '\n' ∉ gap := by
  have hsign : '\n' ∉ sign := by rcases h.signed with ⟨rfl, -⟩ | ⟨rfl, -⟩ <;> decide
  have hdigits : '\n' ∉ digits := fun hmem => absurd (h.isDigit _ hmem) (by decide)
  simp [hsign, hdigits]

/-! ## Columns -/

namespace Position

variable {before text : List Char}

/-- A text without newlines moves the column by its length. -/
lemma column_behind_append (h : '\n' ∉ text) :
    (behind (before ++ text)).column = (behind before).column + text.length := by
  have hchars : ∀ c ∈ text.reverse, (c != '\n') = true := fun c hc =>
    bne_iff_ne.mpr fun heq => h (heq ▸ mem_reverse.mp hc)
  simp only [behind, reverse_append, takeWhile_append_of_pos hchars, length_append, length_reverse]
  omega

/-- Behind a text with a newline the column counts characters of that text only. -/
lemma column_behind_append_of_mem (before) (h : '\n' ∈ text) :
    (behind (before ++ text)).column ≤ text.length := by
  obtain ⟨line, rest, hsplit, hline⟩ := eq_append_cons_of_mem (mem_reverse.mpr h)
  have hchars : ∀ c ∈ line, (c != '\n') = true := fun c hc => bne_iff_ne.mpr fun heq =>
    hline (heq ▸ hc)
  have hlen : text.length = line.length + (rest.length + 1) := by
    rw [← length_reverse, hsplit, length_append, length_cons]
  have hwidth : (before ++ text).reverse.takeWhile (· != '\n') = line := by
    rw [reverse_append, hsplit, append_assoc, takeWhile_append_of_pos hchars, cons_append,
      takeWhile_cons_of_neg (by decide), append_nil]
  change 1 + ((before ++ text).reverse.takeWhile (· != '\n')).length ≤ text.length
  rw [hwidth]
  omega

lemma column_behind_le (text : List Char) : (behind text).column ≤ 1 + text.length := by
  have hlen := (takeWhile_sublist (· != '\n') (l := text.reverse)).length_le
  rw [length_reverse] at hlen
  exact Nat.add_le_add_left hlen 1

end Position

/-- What stands in front of a place continues to the next one. -/
lemma Text.take_append_between (source) {i j} (hij : i ≤ j) :
    source.take i ++ between source i j = source.take j := by
  rw [between, ← take_add, Nat.add_sub_cancel' hij]

/-! ## Adjacent tokens -/

section Adjacent

variable {settings : Settings} {file : Int} {source : List Char} {place : Nat}
  {spans before after : List Span} {p q : Span}

/-- Blanks and comments fill the gap between two adjacent spans. -/
lemma GapsFrom.adjacent (h : GapsFrom settings source place spans)
    (hspans : spans = before ++ p :: q :: after) :
    p.stop ≤ q.start ∧ Gap settings (Text.between source p.stop q.start) (source.drop q.start) := by
  induction h generalizing before with
  | done => simp at hspans
  | span _ _ _ hrest ih =>
    cases before with
    | nil =>
      cases hspans
      cases hrest with
      | span hplace hgap | unclosed hplace hgap => exact ⟨hplace, hgap⟩
    | cons b before => exact ih (cons.inj hspans).2
  | unclosed =>
    cases before with
    | nil => cases hspans
    | cons b before => simp at hspans

/-- Adjacent tokens of a text occupy adjacent spans of it. -/
lemma Token.exists_spans {ts} (hts : ts <:+: (Token.scan settings file source).dropLast) :
    ∃ spans before after, spans.map Span.token = ts ∧ (∀ p ∈ spans, p.Fits file source) ∧
      GapsFrom settings source 0 (before ++ spans ++ after) := by
  obtain ⟨all, htokens, hfits, hgaps⟩ := scanFrom_tiles settings file [] source
  obtain ⟨front, behind, hsplit⟩ := hts
  have hscan : (Token.scan settings file source).dropLast = all.map Span.token := by
    rw [show Token.scan settings file source = _ from htokens, dropLast_concat]
  rw [hscan] at hsplit
  obtain ⟨left, after, rfl, hleft, -⟩ := map_eq_append_iff.mp hsplit.symm
  obtain ⟨before, spans, rfl, -, hspans⟩ := map_eq_append_iff.mp hleft
  exact ⟨spans, before, after, hspans, fun p hp => hfits p (by simp [hp]), hgaps⟩

/-- The word of a number consists of digits. -/
lemma Spelled.isDigit {value text} (h : Spelled .number value text) :
    ∀ c ∈ text, Text.isDigit c = true := by
  cases h with
  | fixed hkind => cases hkind
  | number hc hcs => exact forall_mem_cons.mpr ⟨hc, hcs⟩

/-- The column behind a span. -/
lemma Span.Fits.column_stop (h : q.Fits file source) :
    q.token.column + q.token.length = (Position.behind (source.take q.stop)).column := by
  have htake : source.take q.start ++ q.text source = source.take q.stop :=
    Text.take_append_between _ (Nat.le_add_right _ _)
  rw [← htake, Position.column_behind_append h.one_line, h.column_eq, h.length_text]
  simp [Position.behind]

end Adjacent

/-! ## Case values -/

section Values

variable {settings : Settings} {file : Int} {source : List Char} {p q : Span}

/-- A case value is recorded at the place of its literal, and its length is the difference of two
columns. -/
structure Token.Covers (file : Int) (before literal : List Char) (place : Token) : Prop where
  file_eq : place.file = file
  line_eq : place.line = (Position.behind before).line
  column_eq : place.column = (Position.behind before).column
  length_eq : place.length = (Position.behind (before ++ literal)).column -
    (Position.behind before).column

/-- The columns of a text fit into a word if its length does. -/
lemma toInt_columns {before literal after}
    (hsource : (before ++ literal ++ after).length < 2 ^ 63) :
    (Int64.ofInt ((Position.behind (before ++ literal)).column -
      (Position.behind before).column)).toInt = (Position.behind (before ++ literal)).column -
      (Position.behind before).column := by
  have hstart := Position.column_behind_le before
  have hstop := Position.column_behind_le (before ++ literal)
  have hleast : 1 ≤ (Position.behind before).column := Nat.le_add_right 1 _
  simp only [length_append] at hsource hstop
  exact Int64.toInt_ofInt_of_le (by omega) (by omega)

/-- The value of a case that reaches from one span to another. -/
lemma covers_of_spans {text} (hsource : source.length < 2 ^ 63) (hp : p.Fits file source)
    (hq : q.Fits file source) (hpq : p.start ≤ q.stop) :
    ∃ place, Tree.caseValueTree p.token q.token text = .leaf .intLiteral place text ∧
      place.Covers file (source.take p.start) (Text.between source p.start q.stop) := by
  have htake := Text.take_append_between source hpq
  have hcolumn : p.token.column = (Position.behind (source.take p.start)).column := by
    rw [hp.column_eq, Position.behind, Int.natCast_add]
    rfl
  have hfits : (source.take p.start ++ Text.between source p.start q.stop ++
      source.drop q.stop).length < 2 ^ 63 := by
    rwa [htake, take_append_drop]
  refine ⟨_, rfl, hp.file_eq, ?_, hcolumn, ?_⟩
  · rw [hp.line_eq, Position.behind, Int.natCast_add]
    rfl
  · rw [← toInt_columns hfits, htake, ← hq.column_stop, ← hcolumn]

/-- The value of a case covers a literal of the text. -/
lemma CaseValue.covers {ts t} (h : CaseValue ts t)
    (hts : ts <:+: (Token.scan settings file source).dropLast) (hsource : source.length < 2 ^ 63) :
    ∃ place text before sign gap digits after, t = .leaf .intLiteral place text ∧
      SignedLiteral settings source text before sign gap digits after ∧
      place.Covers file before (sign ++ gap ++ digits) := by
  obtain ⟨spans, front, rest, hspans, hfits, hgaps⟩ := Token.exists_spans hts
  cases h with
  | plain hkind =>
    obtain ⟨q, _, rfl, rfl, hnil⟩ := map_eq_cons_iff.mp hspans
    have hq := hfits q mem_cons_self
    obtain ⟨place, ht, hplace⟩ := covers_of_spans hsource hq hq (Nat.le_add_right _ _)
    refine ⟨place, _, _, [], [], q.text source, _, ht,
      ⟨q.source_eq source, .inl ⟨rfl, rfl⟩, hq.spelled.ne_nil,
      (hkind ▸ hq.spelled).isDigit, hq.ended (.inr (.inl hkind)), hq.carried (.inr hkind)⟩, hplace⟩
  | negative hsign hkind =>
    obtain ⟨p, _, rfl, rfl, hmore⟩ := map_eq_cons_iff.mp hspans
    obtain ⟨q, _, rfl, rfl, hnil⟩ := map_eq_cons_iff.mp hmore
    obtain rfl := map_eq_nil_iff.mp hnil
    have hp := hfits p mem_cons_self
    have hq := hfits q (mem_cons_of_mem _ mem_cons_self)
    have hminus : ['-'] = p.text source := by
      have hspelling := (hp.spelling (by rw [hsign]; rfl)).2
      rwa [hsign] at hspelling
    obtain ⟨hpq, hgap⟩ := hgaps.adjacent (append_assoc front [p, q] rest)
    have hsigned : p.start ≤ p.stop := Nat.le_add_right _ _
    have hstart : p.start ≤ q.start := hsigned.trans hpq
    have hstop : q.start ≤ q.stop := Nat.le_add_right _ _
    have hlit : Text.between source p.start q.stop =
        ['-'] ++ Text.between source p.stop q.start ++ q.text source := by
      rw [hminus, Span.text, Span.text, Text.between_append hsigned hpq,
        Text.between_append hstart hstop]
    obtain ⟨place, ht, hplace⟩ := covers_of_spans hsource hp hq (hstart.trans hstop)
    rw [hlit] at hplace
    refine ⟨place, _, _, ['-'], _, q.text source, source.drop q.stop, ht,
      ⟨?_, .inr ⟨rfl, ?_⟩, hq.spelled.ne_nil,
      (hkind ▸ hq.spelled).isDigit, hq.ended (.inr (.inl hkind)), ?_⟩, hplace⟩
    · rw [← hlit, Text.take_append_between _ (hstart.trans hstop), take_append_drop]
    · rwa [Span.text, Text.between_append_drop hstop]
    · rw [String.toList_append, hq.carried (.inr hkind)]
      rfl

/-- The length of a case value is that of its literal exactly if the literal has no newline. -/
lemma Token.Covers.length_eq_iff {place : Token} {before literal : List Char}
    (h : place.Covers file before literal) :
    '\n' ∉ literal ↔ place.length = (literal.length : Nat) := by
  rw [h.length_eq]
  constructor
  · intro hnewline
    rw [Position.column_behind_append hnewline]
    omega
  · intro hlen hnewline
    have hshort := Position.column_behind_append_of_mem before hnewline
    have hleast : 1 ≤ (Position.behind before).column := Nat.le_add_right 1 _
    omega

end Values

namespace Tree

/-- What a tree contains stems from tokens if the tree does, unless it is the value of a case. -/
lemma StemsFrom.of_contains {tokens} {root t : Tree} (h : root.StemsFrom tokens)
    (ht : root.Contains t) :
    t.StemsFrom tokens ∨ ∃ place text, t = .leaf .intLiteral place text := by
  induction ht with
  | self => exact .inl h
  | @child kind token value ops children t _ ht ih =>
    rcases ih with ih | ⟨place, text, hleaf⟩
    · cases ih with
      | node _ hcase hchildren =>
        by_cases hkind : kind = .caseClause
        · subst hkind
          obtain ⟨ts, first, body, -, hval, rfl⟩ := hcase rfl
          rcases mem_cons.mp ht with rfl | ht
          · cases hval with
            | plain | negative => exact .inr ⟨_, _, rfl⟩
          · exact .inl (hchildren t ht)
        · exact .inl (hchildren t (by rwa [clauseBody_of_ne hkind]))
    · cases hleaf
      cases ht

end Tree

/-- The value of a case begins at its sign or, without one, at its number. Its length is the
difference between the columns behind the number and in front of the sign. It is the length of the
whole literal, sign, gap and number, exactly if no newline stands between sign and number; then the
literal stands in one line, and a mark under the value of the case marks the literal and nothing
else. -/
theorem caseValue_span (settings : Settings) (file : Int) (source : List Char) (root : Tree)
    (hsource : source.length < 2 ^ 63) (h : Tree.ofSource settings file source = .ok root)
    (token : Token) (value : String) (ops : List TokenKind) (children : List Tree)
    (hclause : root.Contains (.node .caseClause token value ops children)) :
    ∃ place text body before sign gap digits after,
    children = .leaf .intLiteral place text :: body ∧
      SignedLiteral settings source text before sign gap digits after ∧
      place.Covers file before (sign ++ gap ++ digits) ∧
      ('\n' ∉ gap ↔ place.length = ((sign ++ gap ++ digits).length : Nat)) ∧
      ('\n' ∉ gap → 1 ≤ place.length ∧ ∃ above front behind below,
        place.StandsIn source (sign ++ gap ++ digits) above front behind below ∧
        Diagnostic.underlined (front ++ (sign ++ gap ++ digits) ++ behind)
          (Diagnostic.mark place).toList = sign ++ gap ++ digits) := by
  rcases (stemsFrom_of_source h).of_contains hclause with hstems | ⟨place, text, hleaf⟩
  swap
  · cases hleaf
  cases hstems with
  | node _ hcase _ =>
    obtain ⟨ts, first, body, hts, hvalue, rfl⟩ := hcase rfl
    obtain ⟨place, text, before, sign, gap, digits, after, rfl, hliteral, hplace⟩ :=
      hvalue.covers hts hsource
    have hiff := hliteral.newline_notMem_iff.symm.trans hplace.length_eq_iff
    refine ⟨place, text, body, before, sign, gap, digits, after, rfl, hliteral, hplace, hiff,
      fun hgap => ⟨?_, ?_⟩⟩
    · have hdigits := List.length_pos_iff.mpr hliteral.digits_ne_nil
      rw [hiff.mp hgap, List.length_append]
      omega
    · obtain ⟨above, front, behind, below, hstands, -⟩ := Token.standsIn_of_place hliteral.source_eq
        (hliteral.newline_notMem_iff.mpr hgap) (hplace.line_eq.trans (Int.natCast_add 1 _))
        (hplace.column_eq.trans (Int.natCast_add 1 _)) (hiff.mp hgap)
      refine ⟨above, front, behind, below, hstands, Diagnostic.underlined_mark hstands (.inl ?_)⟩
      exact List.append_ne_nil_of_right_ne_nil _ hliteral.digits_ne_nil

/-- The value of the case in a program that is one `switch` with one clause. -/
def Tree.onlyCase? : Tree → Option (Token × Token × String)
  | .node _ _ _ _ [.node _ _ _ _ [.node _ _ _ _ [.node _ _ _ _
      [_, .node .caseClause token "" [] [.node .intLiteral place text [] []]]]]] =>
    some (token, place, text)
  | _ => none

lemma Tree.contains_of_onlyCase? {root token place text}
    (h : onlyCase? root = some (token, place, text)) :
    root.Contains (.branch .caseClause token [.leaf .intLiteral place text]) := by
  unfold onlyCase? at h
  split at h
  · cases h
    exact .child (.child (.child (.child .self (.head _)) (.head _)) (.head _)) (.tail _ (.head _))
  · cases h

/-- The literal with a blank behind its sign has the length of its three characters, and is marked.
-/
theorem caseValue_behind_blank :
    ∃ root token place line, line = "switch(x)\x7bcase - 5:\x7d".toList ∧
    Tree.ofSource {} 0 line = .ok root ∧
      root.Contains (.branch .caseClause token [.leaf .intLiteral place "-5"]) ∧ place.length = 3 ∧
      Diagnostic.underlined line (Diagnostic.mark place).toList = "- 5".toList := by
  let line := "switch(x)\x7bcase - 5:\x7d".toList
  let token : Token := ⟨.kwCase, "", 0, 1, 11, 4⟩
  have honly : (Tree.ofSource {} 0 line).toOption.map Tree.onlyCase? =
      some (some (token, ⟨.minus, "", 0, 1, 16, 3⟩, "-5")) := by decide +kernel
  obtain ⟨root, hsource, hcase⟩ := ok_of_toOption_map honly
  have hclause := Tree.contains_of_onlyCase? hcase
  obtain ⟨place, text, body, before, sign, gap, digits, after, hchildren, hliteral, -,
      hlength, hmarked⟩ :=
    caseValue_span {} 0 line root (by decide) hsource token "" [] _ hclause
  cases hchildren
  have hone : '\n' ∉ line := by decide
  have hgap : '\n' ∉ gap := fun h => hone (by simp [hliteral.source_eq, h])
  obtain ⟨-, above, front, behind, below, hstands, hunderlined⟩ := hmarked hgap
  obtain rfl : above = [] := hstands.begins.resolve_right fun h =>
    hone (by simp [hstands.source_eq, mem_of_getLast? h])
  obtain rfl : below = [] := hstands.ends.resolve_right fun h =>
    hone (by simp [hstands.source_eq, mem_of_head? h])
  have hline : line = front ++ (sign ++ gap ++ digits) ++ behind := by simpa using hstands.source_eq
  have hfront : front.length = 15 := by
    have hcolumn : (16 : Int) = 1 + (front.length : Nat) := hstands.column_eq
    omega
  have hthree : (sign ++ gap ++ digits).length = 3 := (Int.ofNat.inj (hlength.mp hgap)).symm
  have hdashed : sign ++ gap ++ digits = (line.drop 15).take 3 := by
    rw [hline, append_assoc front, drop_left' hfront, take_left' hthree]
  rw [← hline, hdashed] at hunderlined
  exact ⟨root, token, _, line, rfl, hsource, hclause, rfl, hunderlined⟩

/-- A newline behind the sign leaves a length below zero. -/
theorem caseValue_behind_newline : ∃ root token place,
    Tree.ofSource {} 0 "switch(x)\x7bcase -\n5:\x7d".toList = .ok root ∧
      root.Contains (.branch .caseClause token [.leaf .intLiteral place "-5"]) ∧
      place.length = -14 := by
  let token : Token := ⟨.kwCase, "", 0, 1, 11, 4⟩
  have honly : (Tree.ofSource {} 0 "switch(x)\x7bcase -\n5:\x7d".toList).toOption.map
      Tree.onlyCase? = some (some (token, ⟨.minus, "", 0, 1, 16, -14⟩, "-5")) := by decide +kernel
  obtain ⟨root, hsource, hcase⟩ := ok_of_toOption_map honly
  exact ⟨root, _, _, hsource, Tree.contains_of_onlyCase? hcase, rfl⟩

end ThreeAddress
