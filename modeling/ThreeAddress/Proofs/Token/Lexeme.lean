import Mathlib.Data.List.Infix
import Mathlib.Data.List.TakeWhile
import Mathlib.Tactic.Common
import ThreeAddress.Token.Scanner

/-!
# What stands at a place of a text

A text is made up of words and of what fills the gaps between them. `Filler settings text after`
says that `text` is one blank or one complete comment of a kind that is switched on, when `after`
follows it; a line comment is complete if the line or the text ends behind it. `Spelled kind value
text` says that `text` is the word of a token of that kind with that value.

The results of this file describe what `Lexeme.read` finds at the head of a text: a gap is a filler,
a word is spelled by the characters it takes, and a name or a number takes all the letters, digits
and underscores there are. A comment without an end contains no closing sign.
-/

namespace ThreeAddress

open List

/-! ## Gaps -/

/-- The blanks, which the scanner skips: spaces, tabs and the characters that end lines. -/
def Text.isSkipped (c : Char) : Bool := c = ' ' || c = '\t' || c = '\n' || c = '\r'

/-- One blank or one complete comment, in front of a text. -/
inductive Filler (settings : Settings) : List Char → List Char → Prop
  | blank {c after} (hc : Text.isSkipped c = true) : Filler settings [c] after
  | lineComment {body after} (henabled : settings.feature .lineComments = true)
      (hbody : '\n' ∉ body) (hend : ∀ c, after.head? = some c → c = '\n') :
      Filler settings ('/' :: '/' :: body) after
  | blockComment {body after} (henabled : settings.feature .blockComments = true)
      (hbody : ¬ ['*', '/'] <:+: body) : Filler settings ('/' :: '*' :: body ++ ['*', '/']) after

/-- Blanks and complete comments only, in front of a text. -/
inductive Gap (settings : Settings) : List Char → List Char → Prop
  | nil {after} : Gap settings [] after
  | cons {piece rest after} (hpiece : Filler settings piece (rest ++ after))
      (hrest : Gap settings rest after) : Gap settings (piece ++ rest) after

/-! ## Words -/

/-- The kinds that are spelled in one way only: the keywords, the operators and the punctuation. -/
def TokenKind.isFixed : TokenKind → Bool
  | .endOfFile | .illegal | .identifier | .number | .unknown _ => false
  | _ => true

/-- The message about a comment without an end. -/
def unclosedMessage : String := "unterminated block comment"

/-- The words of tokens with a kind and a value. -/
inductive Spelled : TokenKind → String → List Char → Prop
  | fixed {kind} (hkind : kind.isFixed = true) : Spelled kind "" kind.spelling.toList
  | identifier {c cs} (hc : Text.isLetter c = true) (hcs : ∀ d ∈ cs, Text.isWordChar d = true)
      (hkeyword : TokenKind.ofKeyword? (String.ofList (c :: cs)) = none) :
      Spelled .identifier (String.ofList (c :: cs)) (c :: cs)
  | number {c cs} (hc : Text.isDigit c = true) (hcs : ∀ d ∈ cs, Text.isDigit d = true) :
      Spelled .number (String.ofList (c :: cs)) (c :: cs)
  /-- A number that letters or underscores are glued to. -/
  | invalidNumber {c cs} (hc : Text.isDigit c = true) (hcs : ∀ d ∈ cs, Text.isWordChar d = true)
      (hbad : ∃ d ∈ cs, Text.isDigit d = false) :
      Spelled .illegal ("invalid number literal: " ++ String.ofList (c :: cs)) (c :: cs)
  /-- Half of an operator. -/
  | half {c} (hc : c = '&' ∨ c = '|') :
      Spelled .illegal ("expected '" ++ String.singleton c ++ String.singleton c ++
        "', found a single '" ++ String.singleton c ++ "'") [c]
  | unexpected {c} (hblank : Text.isSkipped c = false) (hletter : Text.isLetter c = false)
      (hdigit : Text.isDigit c = false) :
      Spelled .illegal ("unexpected character: '" ++ String.singleton c ++ "'") [c]
  /-- The opening of a comment without an end. -/
  | unclosed : Spelled .illegal unclosedMessage ['/', '*']

/-- The words that take all the letters, digits and underscores there are: names, keywords, numbers,
and illegal numbers. -/
def TokenKind.TakesAll (kind : TokenKind) (value : String) : Prop :=
  kind = .identifier ∨ kind = .number ∨ kind ∈ TokenKind.keywords ∨
    kind = .illegal ∧ ∃ text, value = "invalid number literal: " ++ text

/-- No letter, digit or underscore stands at the head of a text. -/
def Text.EndsWord (after : List Char) : Prop := ∀ c, after.head? = some c →
    Text.isWordChar c = false

namespace Spelled

variable {kind : TokenKind} {value : String} {text : List Char}

variable (h : Spelled kind value text)
include h

/-- A word has characters. -/
lemma ne_nil : text ≠ [] := by
  cases h with
  | fixed hkind =>
    cases kind with
    | unknown n => cases hkind
    | _ => decide
  | identifier | number | invalidNumber | half | unexpected | unclosed => exact cons_ne_nil _ _

lemma ne_endOfFile : kind ≠ .endOfFile := by
  rintro rfl
  cases h with
  | fixed hkind => cases hkind

/-- A word stands on one line. -/
lemma newline_notMem : '\n' ∉ text := by
  have hword : Text.isWordChar '\n' = false := by decide
  have hcons : ∀ {c : Char} {cs : List Char}, Text.isWordChar c = true →
      (∀ d ∈ cs, Text.isWordChar d = true) → '\n' ∉ c :: cs := by
    intro c cs hc hcs hmem
    have hall : ∀ d ∈ c :: cs, Text.isWordChar d = true := forall_mem_cons.mpr ⟨hc, hcs⟩
    have hnewline := hall '\n' hmem
    cases hnewline
  have hdigit : ∀ {d : Char}, Text.isDigit d = true → Text.isWordChar d = true := by
    intro d hd
    simp [Text.isWordChar, hd]
  cases h with
  | fixed hkind =>
    cases kind with
    | unknown n => cases hkind
    | _ => decide
  | identifier hc hcs => exact hcons (by simp [Text.isWordChar, hc]) hcs
  | number hc hcs => exact hcons (hdigit hc) fun d hd => hdigit (hcs d hd)
  | invalidNumber hc hcs => exact hcons (hdigit hc) hcs
  | half hc => rcases hc with rfl | rfl <;> decide
  | unexpected hblank =>
    intro hmem
    obtain rfl := mem_singleton.mp hmem
    cases hblank
  | unclosed => decide

/-- Names and numbers carry the word they are spelled by. -/
lemma carried (hkind : kind = .identifier ∨ kind = .number) : value.toList = text := by
  cases h with
  | identifier | number => exact String.toList_ofList
  | fixed hfixed => rcases hkind with rfl | rfl <;> cases hfixed
  | invalidNumber | half | unexpected | unclosed => rcases hkind with hkind | hkind <;> cases hkind

/-- Keywords, operators and punctuation carry nothing and are spelled as always. -/
lemma spelling (hkind : kind.isFixed = true) : value = "" ∧ kind.spelling.toList = text := by
  cases h with
  | fixed => exact ⟨rfl, rfl⟩
  | identifier | number | invalidNumber | half | unexpected | unclosed => cases hkind

end Spelled

/-! ## Comments -/

namespace Lexeme

/-- The end of a comment is the first closing sign. -/
lemma commentEnd?_eq_some {cs n} (h : commentEnd? cs = some n) :
    ∃ body after, cs = body ++ ['*', '/'] ++ after ∧ n = body.length + 2 ∧
    ¬ ['*', '/'] <:+: body := by
  fun_induction commentEnd? cs generalizing n with
  | case1 => cases h
  | case2 rest =>
    refine ⟨[], rest, rfl, (Option.some.inj h).symm, ?_⟩
    simp
  | case3 c cs hc ih =>
    obtain ⟨m, hm, rfl⟩ := Option.map_eq_some_iff.mp h
    obtain ⟨body, after, rfl, rfl, hbody⟩ := ih hm
    refine ⟨c :: body, after, rfl, by simp, ?_⟩
    rw [infix_cons_iff]
    rintro (hstarts | hinside)
    · obtain ⟨tail, htail⟩ := hstarts
      cases htail
      exact hc (tail ++ ['*', '/'] ++ after) rfl rfl
    · exact hbody hinside

/-- A comment without an end has no closing sign. -/
lemma commentEnd?_eq_none {cs} (h : commentEnd? cs = none) : ¬ ['*', '/'] <:+: cs := by
  fun_induction commentEnd? cs with
  | case1 => simp
  | case2 rest => cases h
  | case3 c cs hc ih =>
    rw [infix_cons_iff]
    rintro (hstarts | hinside)
    · obtain ⟨tail, htail⟩ := hstarts
      cases htail
      exact hc tail rfl rfl
    · exact ih (Option.map_eq_none_iff.mp h) hinside

/-! ## Reading -/

/-- At the head of a text stands the word of a token, with a width; it does not open a comment. If
such a word takes all letters, digits and underscores, then none is left behind it. -/
def Heads (kind : TokenKind) (value : String) (width : Nat) (text : List Char) : Prop :=
  ∃ word after, text = word ++ after ∧ word.length = width ∧ Spelled kind value word ∧
    (kind = .illegal → value ≠ unclosedMessage) ∧ (kind.TakesAll value → Text.EndsWord after)

/-- What can be read at the head of a text. -/
inductive Reading (settings : Settings) (text : List Char) : Lexeme → Prop
  | gap (piece after : List Char) (htext : text = piece ++ after)
      (hpiece : Filler settings piece after) :
      Reading settings text (.gap piece.length)
  | word {kind value width} (hword : Heads kind value width text) :
      Reading settings text (.word kind value width)
  | unclosed {rest} (henabled : settings.feature .blockComments = true)
      (htext : text = '/' :: '*' :: rest) (hopen : ¬ ['*', '/'] <:+: rest) :
      Reading settings text .unclosed

variable {settings : Settings} {c : Char} {rest : List Char} {kind : TokenKind}

lemma endsWord_dropWhile (cs : List Char) : Text.EndsWord (cs.dropWhile Text.isWordChar) := by
  intro d hd
  have hhead := head?_dropWhile_not Text.isWordChar cs
  rwa [hd] at hhead

/-- A word that begins with a letter is a keyword or a name, and takes all it can. -/
lemma reading_name (hc : Text.isLetter c = true) : Reading settings (c :: rest) (name c rest) := by
  have hsplit : c :: rest = c :: rest.takeWhile Text.isWordChar ++
      rest.dropWhile Text.isWordChar := by
    rw [cons_append, takeWhile_append_dropWhile]
  simp only [name]
  split
  · rename_i k hkey
    have hfixed : ∀ k ∈ TokenKind.keywords, k.isFixed = true := by decide
    have hfound : (k.spelling == String.ofList (c :: rest.takeWhile Text.isWordChar)) = true :=
      find?_some (p := fun k : TokenKind => k.spelling == _) hkey
    have htext : k.spelling.toList = c :: rest.takeWhile Text.isWordChar := by
      rw [beq_iff_eq.mp hfound, String.toList_ofList]
    have hspelled : Spelled k "" (c :: rest.takeWhile Text.isWordChar) := by
      rw [← htext]
      exact .fixed (hfixed k (mem_of_find?_eq_some hkey))
    have hkind : k ≠ .illegal := by
      rintro rfl
      cases hfixed _ (mem_of_find?_eq_some hkey)
    exact .word ⟨_, _, hsplit, rfl, hspelled, fun h => absurd h hkind, fun _ =>
      endsWord_dropWhile rest⟩
  · rename_i hkey
    have hspelled := Spelled.identifier hc (fun d hd => mem_takeWhile_imp hd) hkey
    have hkind : TokenKind.identifier ≠ .illegal := by decide
    exact .word ⟨_, _, hsplit, rfl, hspelled, fun h => absurd h hkind, fun _ =>
      endsWord_dropWhile rest⟩

/-- A number that no word character follows. -/
lemma reading_plainNumber (hc : Text.isDigit c = true)
    (hends : Text.EndsWord (rest.dropWhile Text.isDigit)) :
    Reading settings (c :: rest) (.word .number (String.ofList (c :: rest.takeWhile Text.isDigit))
      (c :: rest.takeWhile Text.isDigit).length) := by
  have hsplit : c :: rest = c :: rest.takeWhile Text.isDigit ++ rest.dropWhile Text.isDigit := by
    rw [cons_append, takeWhile_append_dropWhile]
  have hspelled := Spelled.number hc fun d (hd : d ∈ rest.takeWhile Text.isDigit) =>
    mem_takeWhile_imp hd
  exact .word ⟨_, _, hsplit, rfl, hspelled, nofun, fun _ => hends⟩

/-- A number that a word character follows is illegal, and takes all it can. -/
lemma reading_invalidNumber {d} (hc : Text.isDigit c = true)
    (hd : (rest.dropWhile Text.isDigit).head? = some d) (hword : Text.isWordChar d = true) :
    Reading settings (c :: rest)
      (.word .illegal ("invalid number literal: " ++
        String.ofList (c :: rest.takeWhile Text.isWordChar))
        (c :: rest.takeWhile Text.isWordChar).length) := by
  have hsplit : c :: rest = c :: rest.takeWhile Text.isWordChar ++
      rest.dropWhile Text.isWordChar := by
    rw [cons_append, takeWhile_append_dropWhile]
  -- The digits in front of `d` are word characters too, so `d` is among those taken.
  have hmem : d ∈ rest.takeWhile Text.isWordChar := by
    obtain ⟨more, hmore⟩ := head?_eq_some_iff.mp hd
    have hrest : rest = rest.takeWhile Text.isDigit ++ d :: more := by
      rw [← hmore, takeWhile_append_dropWhile]
    have hdigits : ∀ e ∈ rest.takeWhile Text.isDigit, Text.isWordChar e = true := by
      intro e he
      have hdigit : Text.isDigit e = true := mem_takeWhile_imp he
      simp [Text.isWordChar, hdigit]
    rw [hrest, takeWhile_append_of_pos hdigits, takeWhile_cons_of_pos hword]
    simp
  have hnot : Text.isDigit d = false := by
    have hhead := head?_dropWhile_not Text.isDigit rest
    rwa [hd] at hhead
  have hspelled := Spelled.invalidNumber hc
    (fun e (he : e ∈ rest.takeWhile Text.isWordChar) => mem_takeWhile_imp he) ⟨d, hmem, hnot⟩
  refine .word ⟨_, _, hsplit, rfl, hspelled, fun _ hval => ?_, fun _ => endsWord_dropWhile rest⟩
  have hchars := congrArg String.toList hval
  simp [unclosedMessage] at hchars

/-- A word that begins with a digit is a number or illegal. -/
lemma reading_number (hc : Text.isDigit c = true) :
    Reading settings (c :: rest) (number c rest) := by
  simp only [number]
  split
  · rename_i d hd
    split
    · rename_i hword
      exact reading_invalidNumber hc hd hword
    · rename_i hword
      refine reading_plainNumber hc fun e he => ?_
      cases hd.symm.trans he
      exact Bool.not_eq_true _ ▸ hword
  · rename_i hnone
    refine reading_plainNumber hc fun e he => ?_
    rw [hnone] at he
    cases he

/-- An operator or a punctuation sign at the head of a text. -/
lemma reading_fixed (word after : List Char) (hkind : kind.isFixed = true)
    (hkey : kind ∉ TokenKind.keywords) (hword : kind.spelling.toList = word) :
    Reading settings (word ++ after) (.word kind "" word.length) := by
  refine .word ⟨word, after, rfl, rfl, hword ▸ .fixed hkind, ?_, ?_⟩
  · rintro rfl
    cases hkind
  rintro (rfl | rfl | hmem | ⟨rfl, -⟩)
  · cases hkind
  · cases hkind
  · exact absurd hmem hkey
  · cases hkind

/-- A single character that is illegal, with a message that is neither about a comment nor a number.
-/
lemma reading_illegal {value} (hspelled : Spelled .illegal value [c])
    (hclosed : value ≠ unclosedMessage)
    (hval : ∀ text, value ≠ "invalid number literal: " ++ text) :
    Reading settings (c :: rest) (.word .illegal value 1) := by
  refine .word ⟨[c], rest, rfl, rfl, hspelled, fun _ => hclosed, ?_⟩
  rintro (hkind | hkind | hkind | ⟨-, text, htext⟩)
  · cases hkind
  · cases hkind
  · exact absurd hkind (by decide)
  · exact absurd htext (hval text)

/-- A sign that a second character may turn into another one. -/
lemma reading_pair {second joined single}
    (hjoined : Reading settings ([c, second] ++ rest.tail) (.word joined "" 2))
    (hsingle : Reading settings (c :: rest) (.word single "" 1)) :
    Reading settings (c :: rest) (pair second joined single rest) := by
  unfold pair
  split
  · rename_i hhead
    obtain ⟨more, rfl⟩ := head?_eq_some_iff.mp hhead
    exact hjoined
  · exact hsingle

/-- A sign that must be written twice. -/
lemma reading_doubled {joined} (hc : c = '&' ∨ c = '|')
    (hjoined : Reading settings ([c, c] ++ rest.tail) (.word joined "" 2)) :
    Reading settings (c :: rest) (doubled c joined rest) := by
  simp only [doubled]
  split
  · rename_i hhead
    obtain ⟨more, rfl⟩ := head?_eq_some_iff.mp hhead
    exact hjoined
  · refine reading_illegal (.half hc) (fun hval => ?_) fun text htext => ?_
    · have hchars := congrArg String.toList hval
      simp [unclosedMessage] at hchars
    · have hchars := congrArg String.toList htext
      simp at hchars

/-- A character that begins neither a name nor a number is a sign or illegal. -/
lemma reading_sign (hblank : Text.isSkipped c = false) (hletter : Text.isLetter c = false)
    (hdigit : Text.isDigit c = false) : Reading settings (c :: rest) (sign c rest) := by
  unfold sign
  split
  case h_13 | h_14 | h_15 | h_16 =>
    exact reading_pair (reading_fixed [_, _] _ (by decide) (by decide) (by decide))
      (reading_fixed [_] _ (by decide) (by decide) (by decide))
  case h_17 | h_18 =>
    exact reading_doubled (by decide) (reading_fixed [_, _] _ (by decide) (by decide) (by decide))
  case h_19 =>
    refine reading_illegal (.unexpected hblank hletter hdigit) (fun hval => ?_) fun text htext => ?_
    · have hchars := congrArg String.toList hval
      simp [unclosedMessage] at hchars
    · have hchars := congrArg String.toList htext
      simp at hchars
  -- The signs that stand for themselves.
  all_goals exact reading_fixed [_] _ (by decide) (by decide) (by decide)

/-- A line comment goes to the end of the line. -/
lemma reading_lineComment (henabled : settings.feature .lineComments = true)
    (hrest : rest.head? = some '/') :
    Reading settings ('/' :: rest) (.gap (1 + (rest.takeWhile (· != '\n')).length)) := by
  obtain ⟨more, rfl⟩ := head?_eq_some_iff.mp hrest
  have htake : ('/' :: more).takeWhile (· != '\n') = '/' :: more.takeWhile (· != '\n') :=
    takeWhile_cons_of_pos (by decide)
  rw [htake, Nat.add_comm, ← length_cons (a := '/')]
  refine .gap _ (more.dropWhile (· != '\n')) ?_ (.lineComment henabled ?_ ?_)
  · rw [cons_append, cons_append, takeWhile_append_dropWhile]
  · intro hmem
    have hne := mem_takeWhile_imp hmem
    simp at hne
  · intro d hd
    have hhead := head?_dropWhile_not (· != '\n') more
    rw [hd] at hhead
    simpa using hhead

/-- A block comment goes to its first closing sign, if there is one. -/
lemma reading_blockComment (henabled : settings.feature .blockComments = true)
    (hrest : rest.head? = some '*') :
    Reading settings ('/' :: rest) (match commentEnd? rest.tail with
      | some n => .gap (2 + n)
      | none => .unclosed) := by
  obtain ⟨more, rfl⟩ := head?_eq_some_iff.mp hrest
  rw [tail_cons]
  cases hend : commentEnd? more with
  | none => exact .unclosed henabled rfl (commentEnd?_eq_none hend)
  | some n =>
    obtain ⟨body, after, rfl, rfl, hbody⟩ := commentEnd?_eq_some hend
    have hwidth : 2 + (body.length + 2) = ('/' :: '*' :: body ++ ['*', '/']).length := by
      simp
      omega
    show Reading settings _ (.gap (2 + (body.length + 2)))
    rw [hwidth]
    exact .gap _ after (by simp) (.blockComment henabled hbody)

/-- Whatever is read at the head of a text stands there. -/
theorem reading_read (settings : Settings) (c : Char) (rest : List Char) :
    Reading settings (c :: rest) (read settings c rest) := by
  unfold read
  split
  · rename_i hblank
    have hc : Text.isSkipped c = true := by simpa [Text.isSkipped, or_assoc] using hblank
    exact .gap [c] rest rfl (.blank hc)
  rename_i hblank
  have hc : Text.isSkipped c = false := by simpa [Text.isSkipped, and_assoc] using hblank
  split
  · rename_i hcomment
    obtain ⟨rfl, hrest, henabled⟩ := hcomment
    exact reading_lineComment henabled hrest
  split
  · rename_i hcomment
    obtain ⟨rfl, hrest, henabled⟩ := hcomment
    exact reading_blockComment henabled hrest
  split
  · rename_i hletter
    exact reading_name hletter
  rename_i hletter
  split
  · rename_i hdigit
    exact reading_number hdigit
  · rename_i hdigit
    exact reading_sign hc (Bool.not_eq_true _ ▸ hletter) (Bool.not_eq_true _ ▸ hdigit)

end Lexeme

end ThreeAddress
