import ThreeAddress.Proofs.Token.Tiling

/-!
# Scanning undoes spelling

A list of words can be written down in many ways: between two words stands a separator, which begins
with a blank and goes on with blanks and comments. `LaidOut settings words text` says that `text` is
one of these ways. `scanFrom_laidOut` says that the scanner finds the words again, whatever the
separators are.

Since a separator begins with a blank, no word is taken together with what follows it, and no sign
in front of a comment is taken for a part of it. The words are read one at a time
(`Lexeme.read_word`), and blanks and comments are passed over (`Token.scanFrom_layout`).
-/

namespace ThreeAddress

open List

/-! ## Words and separators -/

/-- The word of a token that is neither illegal nor the end of the file. -/
structure Word where
  kind : TokenKind
  value : String
  text : List Char
  spelled : Spelled kind value text
  legal : kind ≠ .illegal

/-- Blanks and complete comments of kinds that are switched on; a line comment ends with its line.
-/
inductive Layout (settings : Settings) : List Char → Prop
  | nil : Layout settings []
  | blank {c rest} (hc : Text.isSkipped c = true) (hrest : Layout settings rest) :
      Layout settings (c :: rest)
  | lineComment {body rest} (henabled : settings.feature .lineComments = true) (hbody : '\n' ∉ body)
      (hrest : Layout settings rest) : Layout settings ('/' :: '/' :: body ++ '\n' :: rest)
  | blockComment {body rest} (henabled : settings.feature .blockComments = true)
      (hbody : ¬ ['*', '/'] <:+: body) (hrest : Layout settings rest) :
      Layout settings ('/' :: '*' :: body ++ ['*', '/'] ++ rest)

/-- The ways to write down words: one after the other, with blanks and comments between two of them,
of which a blank comes first. -/
inductive LaidOut (settings : Settings) : List Word → List Char → Prop
  | nil : LaidOut settings [] []
  | last (w : Word) : LaidOut settings [w] w.text
  | more (w : Word) {v : Word} {words : List Word} {c : Char} {layout rest : List Char}
      (hc : Text.isSkipped c = true) (hlayout : Layout settings layout)
      (hrest : LaidOut settings (v :: words) rest) :
      LaidOut settings (w :: v :: words) (w.text ++ c :: layout ++ rest)

/-! ## Letters and digits -/

namespace Text

/-- Whether no range of a table meets a range of another. -/
def areApart (table table' : List (Nat × Nat)) : Bool :=
  table.all fun r => table'.all fun r' => Nat.blt r.2 r'.1 || Nat.blt r'.2 r.1

/-- A number is in the ranges of one of two tables only, if these are apart. -/
lemma inRanges_of_areApart {table table' n} (hapart : areApart table table' = true)
    (h : inRanges table n = true) :
    inRanges table' n = false := by
  obtain ⟨r, hr, hn⟩ := any_eq_true.mp h
  rw [inRanges, any_eq_false]
  intro r' hr'
  have hbeside := all_eq_true.mp (all_eq_true.mp hapart r hr) r' hr'
  simp only [Bool.and_eq_true, Bool.or_eq_true, decide_eq_true_eq, Nat.blt_eq] at hn hbeside ⊢
  omega

/-- No digit is a letter. -/
lemma isLetter_of_isDigit {c} (hc : isDigit c = true) : isLetter c = false := by
  unfold isDigit at hc
  unfold isLetter
  split at hc
  · rename_i hascii
    rw [if_pos hascii]
    have hall : ∀ n < 0x80, (Char.ofNat n).isDigit = true → (Char.ofNat n).isAlpha = false :=
      by decide +kernel
    simpa using hall c.toNat hascii (by simpa using hc)
  · rename_i hwide
    rw [if_neg hwide]
    exact inRanges_of_areApart (by decide +kernel) hc

end Text

/-! ## Reading one word -/

/-- Nothing but a blank can stand at the head of a text. -/
def Text.Breaks (after : List Char) : Prop := ∀ c, after.head? = some c → Text.isSkipped c = true

/-- A word ends in front of a blank. -/
lemma Text.Breaks.endsWord {after} (h : Text.Breaks after) : Text.EndsWord after := by
  intro c hc
  have hblank := h c hc
  simp only [Text.isSkipped, Bool.or_eq_true, decide_eq_true_eq] at hblank
  rcases hblank with ((rfl | rfl) | rfl) | rfl <;> decide

/-- All characters of a run are taken if the character behind them does not belong to it. -/
lemma takeWhile_run {p : Char → Bool} {cs after : List Char} (hcs : ∀ d ∈ cs, p d = true)
    (hafter : ∀ d, after.head? = some d → p d = false) :
    (cs ++ after).takeWhile p = cs ∧ (cs ++ after).dropWhile p = after := by
  rw [takeWhile_append_of_pos hcs, dropWhile_append_of_pos hcs]
  cases after with
  | nil => simp
  | cons d after => simp [hafter d rfl]

namespace Lexeme

variable {settings : Settings} {kind : TokenKind} {value : String} {c : Char} {cs after : List Char}

/-- A letter begins a name or a keyword, and a digit a number. -/
lemma read_alphanumeric (hc : Text.isLetter c = true ∨ Text.isDigit c = true) (rest : List Char) :
    read settings c rest = if Text.isLetter c then name c rest else number c rest := by
  have hblank : ¬ (c = ' ' ∨ c = '\t' ∨ c = '\n' ∨ c = '\r') := by
    rintro (rfl | rfl | rfl | rfl) <;> exact absurd hc (by decide)
  have hslash : c ≠ '/' := by
    rintro rfl
    exact absurd hc (by decide)
  rw [read, if_neg hblank, if_neg (mt And.left hslash), if_neg (mt And.left hslash)]
  exact if_ctx_congr .rfl (fun _ => rfl) fun hletter => if_pos (hc.resolve_left hletter)

/-- A number in front of a blank is read. -/
lemma read_number (hc : Text.isDigit c = true) (hcs : ∀ d ∈ cs, Text.isDigit d = true)
    (hafter : Text.Breaks after) :
    read settings c (cs ++ after) = .word .number (String.ofList (c :: cs)) (c :: cs).length := by
  have hends : ∀ d, after.head? = some d → Text.isDigit d = false := by
    intro d hd
    have hword := hafter.endsWord d hd
    simp only [Text.isWordChar, Bool.or_eq_false_iff] at hword
    exact hword.1.2
  obtain ⟨htake, hdrop⟩ := takeWhile_run hcs hends
  rw [read_alphanumeric (.inr hc), Text.isLetter_of_isDigit hc, if_neg Bool.false_ne_true]
  simp only [number, htake, hdrop]
  cases hhead : after.head? with
  | none => rfl
  | some d => simp [hafter.endsWord d hhead]

/-- A keyword in front of a blank is read. -/
lemma read_keyword (hkind : kind ∈ TokenKind.keywords) (hafter : Text.Breaks after)
    (hspelling : kind.spelling.toList = c :: cs) :
    read settings c (cs ++ after) = .word kind "" (c :: cs).length := by
  have hkeywords : ∀ k ∈ TokenKind.keywords, (k.spelling.toList.all Text.isWordChar = true ∧
      (k.spelling.toList.head?.any Text.isLetter = true)) ∧
      TokenKind.ofKeyword? k.spelling = some k := by
    decide +kernel
  obtain ⟨⟨hword, hletter⟩, hfound⟩ := hkeywords kind hkind
  rw [hspelling] at hword hletter
  replace hletter : Text.isLetter c = true := hletter
  have hcs : ∀ d ∈ cs, Text.isWordChar d = true := fun d hd => all_eq_true.mp hword d (.tail _ hd)
  have hval : String.ofList (c :: cs) = kind.spelling := by rw [← hspelling, String.ofList_toList]
  rw [read_alphanumeric (.inl hletter), if_pos hletter]
  simp only [name, (takeWhile_run hcs hafter.endsWord).1, hval, hfound]

/-- An operator or a punctuation sign in front of a blank is read: no longer operator can begin
there, and no comment. -/
lemma read_sign (hfixed : kind.isFixed = true) (hkind : kind ∉ TokenKind.keywords)
    (hafter : Text.Breaks after) (hspelling : kind.spelling.toList = c :: cs) :
    read settings c (cs ++ after) = .word kind "" (c :: cs).length := by
  have hends : ∀ d ∈ ['=', '/', '*'], after.head? ≠ some d := by
    intro d hd hhead
    have hblank := hafter d hhead
    simp only [mem_cons, not_mem_nil, or_false] at hd
    rcases hd with rfl | rfl | rfl <;> cases hblank
  have hequal := hends '=' (by decide)
  have hslash := hends '/' (by decide)
  have hstar := hends '*' (by decide)
  cases kind <;> first | exact absurd hkind (by decide) | (cases hfixed; done) | skip
  all_goals
    obtain ⟨rfl, rfl⟩ : _ ∧ _ := by simpa [TokenKind.spelling] using hspelling.symm
    simp [read, sign, pair, doubled, Text.isLetter, Text.isDigit, hequal, hslash, hstar]

/-- A word in front of a blank is read. -/
lemma read_word {word} (hword : Spelled kind value word) (hlegal : kind ≠ .illegal)
    (hafter : Text.Breaks after) :
    ∃ c rest, word ++ after = c :: rest ∧ read settings c rest = .word kind value word.length := by
  cases hword with
  | identifier hc hcs hkey =>
    refine ⟨_, _ ++ _, rfl, ?_⟩
    rw [read_alphanumeric (.inl hc), if_pos hc]
    simp only [name, (takeWhile_run hcs hafter.endsWord).1, hkey]
  | number hc hcs => exact ⟨_, _, rfl, read_number hc hcs hafter⟩
  | invalidNumber | half | unexpected | unclosed => exact absurd rfl hlegal
  | fixed hfixed =>
    obtain ⟨c, cs, hspelling⟩ := exists_cons_of_ne_nil (Spelled.fixed hfixed).ne_nil
    rw [hspelling]
    refine ⟨c, cs ++ after, rfl, ?_⟩
    by_cases hkind : kind ∈ TokenKind.keywords
    · exact read_keyword hkind hafter hspelling
    · exact read_sign hfixed hkind hafter hspelling

/-! ## Reading blanks and comments -/

lemma read_blank (hc : Text.isSkipped c = true) (rest : List Char) :
    read settings c rest = .gap 1 := by
  have hblank : c = ' ' ∨ c = '\t' ∨ c = '\n' ∨ c = '\r' := by
    simpa [Text.isSkipped, or_assoc] using hc
  rw [read, if_pos hblank]

/-- A line comment is read up to the end of its line. -/
lemma read_lineComment (henabled : settings.feature .lineComments = true) (hbody : '\n' ∉ cs)
    (after : List Char) : read settings '/' ('/' :: cs ++ '\n' :: after) =
    .gap ('/' :: '/' :: cs).length := by
  have hrun : ∀ d ∈ '/' :: cs, (d != '\n') = true := by
    intro d hd
    rw [bne_iff_ne]
    rintro rfl
    rcases mem_cons.mp hd with hd | hd
    · cases hd
    · exact hbody hd
  have hend : ∀ d, ('\n' :: after).head? = some d → (d != '\n') = false := by
    intro d hd
    cases hd
    rfl
  have htake := (takeWhile_run hrun hend).1
  have hblank : ¬ ('/' = ' ' ∨ '/' = '\t' ∨ '/' = '\n' ∨ '/' = '\r') := by decide
  rw [read, if_neg hblank, if_pos ⟨rfl, rfl, henabled⟩, htake, length_cons, Nat.add_comm]
  rfl

/-- A comment ends with its first closing sign. -/
lemma commentEnd?_append (hbody : ¬ ['*', '/'] <:+: cs) (after : List Char) :
    commentEnd? (cs ++ ['*', '/'] ++ after) = some (cs ++ ['*', '/']).length := by
  induction cs with
  | nil => rfl
  | cons c cs ih =>
    rw [infix_cons_iff, not_or] at hbody
    have hrest := ih hbody.2
    have hopen : ∀ rest, c = '*' → cs ++ ['*', '/'] ++ after ≠ '/' :: rest := by
      rintro rest rfl htext
      cases cs with
      | nil => cases htext
      | cons d cs =>
        obtain rfl := (cons.inj htext).1
        exact hbody.1 ⟨cs, rfl⟩
    rw [cons_append, cons_append, commentEnd?, hrest]
    · rfl
    · exact fun rest hc htext => hopen rest hc htext

/-- A block comment is read up to its first closing sign. -/
lemma read_blockComment (henabled : settings.feature .blockComments = true)
    (hbody : ¬ ['*', '/'] <:+: cs) (after : List Char) :
    read settings '/' ('*' :: cs ++ ['*', '/'] ++ after) =
    .gap ('/' :: '*' :: cs ++ ['*', '/']).length := by
  have hblank : ¬ ('/' = ' ' ∨ '/' = '\t' ∨ '/' = '\n' ∨ '/' = '\r') := by decide
  have hline : ¬ ('/' = '/' ∧ ('*' :: cs ++ ['*', '/'] ++ after).head? = some '/' ∧
      settings.feature .lineComments = true) := by simp
  have htail : ('*' :: cs ++ ['*', '/'] ++ after).tail = cs ++ ['*', '/'] ++ after := rfl
  rw [read, if_neg hblank, if_neg hline, if_pos ⟨rfl, rfl, henabled⟩, htail,
    commentEnd?_append hbody]
  exact congrArg gap (Nat.add_comm ..)

end Lexeme

/-! ## Scanning -/

namespace Token

variable {file : Int}

/-- The scanner makes a token of a word in front of a blank. -/
lemma scanFrom_word (w : Word) (before : List Char) {after} (hafter : Text.Breaks after) :
    scanFrom settings file (.behind before) 0 (w.text ++ after) =
      placed file (.behind before) w.kind w.value w.text.length ::
        scanFrom settings file (.behind (before ++ w.text)) 0 after := by
  have hread : ∃ c rest, w.text ++ after = c :: rest ∧
      Lexeme.read settings c rest = .word w.kind w.value w.text.length :=
    Lexeme.read_word w.spelled w.legal hafter
  obtain ⟨c, rest, htext, hread⟩ := hread
  have hnext := scanFrom_next settings file before w.spelled.ne_nil htext.symm
  rw [htext, scanFrom, hread, ← hnext]
  rfl

/-- The scanner passes over a blank or a comment that it reads. -/
lemma scanFrom_gap {c} (tail before : List Char) {after}
    (hread : Lexeme.read settings c (tail ++ after) = .gap (c :: tail).length) :
    scanFrom settings file (.behind before) 0 (c :: tail ++ after) =
      scanFrom settings file (.behind (before ++ c :: tail)) 0 after := by
  rw [cons_append, scanFrom, hread]
  exact scanFrom_next settings file before (cons_ne_nil c tail) rfl

/-- The scanner passes over a blank. -/
lemma scanFrom_blank {c} (hc : Text.isSkipped c = true) (before after : List Char) :
    scanFrom settings file (.behind before) 0 (c :: after) = scanFrom settings file
    (.behind (before ++ [c])) 0 after :=
  scanFrom_gap [] before (Lexeme.read_blank hc after)

/-- The scanner passes over blanks and comments. -/
lemma scanFrom_layout {layout} (h : Layout settings layout) (before after : List Char) :
    scanFrom settings file (.behind before) 0 (layout ++ after) =
      scanFrom settings file (.behind (before ++ layout)) 0 after := by
  induction h generalizing before with
  | nil => rw [append_nil, nil_append]
  | @blank c rest hc _ ih =>
    rw [cons_append, scanFrom_blank hc, ih, append_assoc, singleton_append]
  | @lineComment body rest henabled hbody _ ih =>
    -- the line comment, and the blank at the end of its line
    have hread := Lexeme.read_lineComment henabled hbody (rest ++ after)
    rw [append_assoc, cons_append (a := '\n'), scanFrom_gap _ before hread,
      scanFrom_blank (by decide), ih]
    simp
  | @blockComment body rest henabled hbody _ ih =>
    have hread := Lexeme.read_blockComment henabled hbody (rest ++ after)
    have hgap : scanFrom settings file (.behind before) 0
        ('/' :: '*' :: body ++ ['*', '/'] ++ (rest ++ after)) = _ :=
      scanFrom_gap ('*' :: body ++ ['*', '/']) before hread
    rw [append_assoc _ rest, hgap, ih, append_assoc]
    rfl

/-- A token without the place where it begins. -/
def unlocated (t : Token) : Token := { t with line := 0, column := 0 }

/-- The scanner finds the words that a text is made of. -/
lemma scanFrom_laidOut {words text} (h : LaidOut settings words text) (before : List Char) :
    (scanFrom settings file (.behind before) 0 text).map unlocated =
      words.map (fun w => { kind := w.kind, value := w.value, file, length := w.text.length }) ++
        [{ kind := .endOfFile, file }] := by
  induction h generalizing before with
  | nil => rfl
  | last w =>
    have hend : Text.Breaks [] := nofun
    have hword : scanFrom settings file (.behind before) 0 (w.text ++ []) = _ :=
      scanFrom_word w before hend
    rw [append_nil] at hword
    rw [hword]
    rfl
  | @more w v words c layout rest hc hlayout _ ih =>
    have hbreaks : Text.Breaks (c :: (layout ++ rest)) := by
      intro d hd
      cases hd
      exact hc
    rw [append_assoc, cons_append, scanFrom_word w before hbreaks, scanFrom_blank hc,
      scanFrom_layout hlayout, map_cons, ih]
    rfl

end Token

end ThreeAddress
