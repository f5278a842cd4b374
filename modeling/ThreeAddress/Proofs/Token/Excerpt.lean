import ThreeAddress.Diagnostic
import ThreeAddress.Proofs.Token.Tiling

/-!
# Diagnostics underline the text of a token

The scanner counts lines and columns while it reads, and a diagnostic counts the lines of the whole
text again. Both come to the same line (`SourceFile.fromLine_above`): the text between the newlines
around the token. In it the mark stands under the characters of the token, and at the end of the
line for the token that ends the file.
-/

namespace ThreeAddress

open List

/-- A token stands in a line of a text: behind the lines `above` and in front of the lines `below`,
with the parts `front` and `behind` of its own line around it. -/
structure Token.StandsIn (source : List Char) (t : Token)
    (text above front behind below : List Char) : Prop where
  source_eq : source = above ++ (front ++ text ++ behind) ++ below
  one_line : '\n' ∉ front ++ text ++ behind
  /-- The line begins behind a newline, unless it is the first one. -/
  begins : above = [] ∨ above.getLast? = some '\n'
  /-- The line ends in front of a newline, unless it is the last one. -/
  ends : below = [] ∨ below.head? = some '\n'
  line_eq : t.line = 1 + (above.count '\n' : Nat)
  column_eq : t.column = 1 + (front.length : Nat)
  length_eq : t.length = (text.length : Nat)

section Lines

variable {source above : List Char} {t : Token} {settings : Settings} {file : Int}

/-- A text that begins a line continues with the lines that are left. -/
lemma SourceFile.fromLine_above (h : above = [] ∨ above.getLast? = some '\n') (rest : List Char) :
    fromLine (above.count '\n') (above ++ rest) = rest := by
  induction hn : above.count '\n' generalizing above with
  | zero =>
    rcases h with rfl | h
    · rfl
    · exact absurd (mem_of_getLast? h) (count_eq_zero.mp hn)
  | succ n ih =>
    have hmem : '\n' ∈ above := count_pos_iff.mp (by omega)
    obtain ⟨first, above', rfl, hfirst⟩ := eq_append_cons_of_mem hmem
    have hdrop : (first ++ '\n' :: above' ++ rest).dropWhile (· != '\n') = '\n' ::
        (above' ++ rest) := by
      rw [append_assoc, dropWhile_append_of_pos, cons_append, dropWhile_cons_of_neg (by simp)]
      intro c hc
      exact bne_iff_ne.mpr fun heq => hfirst (heq ▸ hc)
    rw [fromLine, hdrop]
    refine ih ?_ ?_
    · cases above' with
      | nil => exact .inl rfl
      | cons c cs =>
        refine .inr ?_
        simpa using h
    · rw [count_append, count_eq_zero.mpr hfirst, count_cons_self] at hn
      omega

/-- The part of a text behind its last newline. -/
lemma exists_front (before : List Char) : ∃ above front, before = above ++ front ∧ '\n' ∉ front ∧
    (above = [] ∨ above.getLast? = some '\n') ∧
    front.length = (before.reverse.takeWhile (· != '\n')).length := by
  refine ⟨(before.reverse.dropWhile (· != '\n')).reverse,
    (before.reverse.takeWhile (· != '\n')).reverse, ?_, ?_, ?_, length_reverse⟩
  · rw [← reverse_append, takeWhile_append_dropWhile, reverse_reverse]
  · intro h
    simpa using mem_takeWhile_imp (mem_reverse.mp h)
  · rw [getLast?_reverse, reverse_eq_nil_iff]
    cases hrest : before.reverse.dropWhile (· != '\n') with
    | nil => exact .inl rfl
    | cons c cs =>
      refine .inr ?_
      have hc := head_dropWhile_not (· != '\n') (by rw [hrest]; exact cons_ne_nil c cs)
      simpa [hrest] using hc

/-- A part of a text without newlines stands in a line. -/
lemma Token.standsIn_of_place {before text after} (hsource : source = before ++ text ++ after)
    (htext : '\n' ∉ text) (hline : t.line = 1 + (before.count '\n' : Nat))
    (hcolumn : t.column = 1 + ((before.reverse.takeWhile (· != '\n')).length : Nat))
    (hlen : t.length = (text.length : Nat)) :
    ∃ above front behind below, t.StandsIn source text above front behind below ∧
      (after = [] → behind = [] ∧ below = []) := by
  obtain ⟨above, front, rfl, hfront, habove, hwidth⟩ := exists_front before
  refine ⟨above, front, after.takeWhile (· != '\n'), after.dropWhile (· != '\n'),
    ⟨?_, ?_, habove, ?_, ?_, ?_, hlen⟩, ?_⟩
  · rw [hsource]
    simp [takeWhile_append_dropWhile]
  · have hbehind : '\n' ∉ after.takeWhile (· != '\n') := fun h => by simpa using mem_takeWhile_imp h
    simp [hfront, htext, hbehind]
  · cases hrest : after.dropWhile (· != '\n') with
    | nil => exact .inl rfl
    | cons c cs =>
      have hc := head_dropWhile_not (· != '\n') (by rw [hrest]; exact cons_ne_nil c cs)
      exact .inr (by simpa [hrest] using hc)
  · rw [hline, count_append, count_eq_zero.mpr hfront, Nat.add_zero]
  · rw [hcolumn, hwidth]
  · rintro rfl
    exact ⟨rfl, rfl⟩

/-- A text is what stands in front of a span, the span and what stands behind it. -/
lemma Span.source_eq (p : Span) (source : List Char) :
    source = source.take p.start ++ p.text source ++ source.drop p.stop := by
  rw [append_assoc, Span.text, Text.between_append_drop (j := p.stop) (Nat.le_add_right _ _),
    take_append_drop]

/-- A span has as many characters as its token says. -/
lemma Span.Fits.length_text {p : Span} (h : p.Fits file source) :
    p.token.length = ((p.text source).length : Nat) := by
  have hstop : p.start + p.token.length.toNat ≤ source.length := h.stop_le
  have hpos := h.length_pos
  rw [Span.text, Text.between, length_take, length_drop, Span.stop]
  omega

/-- Every token of a text stands in a line of it: with the characters that it is spelled with, or,
for the end of the file, with none and behind all others. -/
lemma Token.standsIn_of_mem_scan (ht : t ∈ Token.scan settings file source) :
    t.file = file ∧ ∃ text above front behind below,
    t.StandsIn source text above front behind below ∧
      (Spelled t.kind t.value text ∨ t.kind = .endOfFile ∧ text = [] ∧
        behind = [] ∧ below = []) := by
  obtain ⟨spans, htokens, hfits, -⟩ := scanFrom_tiles settings file [] source
  have hscan : t ∈ spans.map Span.token ++ [placed file (.behind source) .endOfFile "" 0] :=
    htokens ▸ ht
  rcases mem_append.mp hscan with hmem | hmem
  · obtain ⟨p, hp, rfl⟩ := mem_map.mp hmem
    have hfit : p.Fits file source := hfits p hp
    obtain ⟨above, front, behind, below, h, -⟩ :=
      standsIn_of_place (p.source_eq source) hfit.one_line hfit.line_eq
      hfit.column_eq hfit.length_text
    exact ⟨hfit.file_eq, _, above, front, behind, below, h, .inl hfit.spelled⟩
  · obtain rfl := mem_singleton.mp hmem
    obtain ⟨above, front, behind, below, h, hend⟩ :=
      standsIn_of_place (t := placed file (.behind source) .endOfFile "" 0)
      (show source = source ++ [] ++ [] by simp) not_mem_nil (Int.natCast_add 1 _)
      (Int.natCast_add 1 _) rfl
    obtain ⟨hbehind, hbelow⟩ := hend rfl
    exact ⟨rfl, [], above, front, behind, below, h, .inr ⟨rfl, rfl, hbehind, hbelow⟩⟩

end Lines

namespace Diagnostic

/-- The characters of a line above the signs of a mark. -/
def underlined (line mark : List Char) : List Char :=
  ((line.zip mark).filter fun p => p.2 != ' ').map Prod.fst

section Marks

variable {source text above front behind below : List Char} {t : Token} {others : List SourceFile}
  {name message : String}

variable (h : t.StandsIn source text above front behind below)
include h

/-- The mark under a token that stands in a line. -/
lemma mark_of_standsIn :
    (mark t).toList = replicate front.length ' ' ++ '^' ::
    replicate (max text.length 1 - 1) '~' := by
  have hcolumn : (t.column - 1).toNat = front.length := by
    rw [h.column_eq]
    omega
  have hlen : (t.length - 1).toNat = max text.length 1 - 1 := by
    rw [h.length_eq]
    omega
  rw [mark, String.toList_ofList, hcolumn, hlen]

/-- The mark under a token stands under its text. A token without text has to end its line, since
its mark has a sign all the same. -/
lemma underlined_mark (htext : text ≠ [] ∨ behind = []) :
    underlined (front ++ text ++ behind) (mark t).toList = text := by
  have hfront : ((front.zip (replicate front.length ' ')).filter fun p => p.2 != ' ') = [] := by
    refine filter_eq_nil_iff.mpr fun p hp => ?_
    simpa using eq_of_mem_replicate (of_mem_zip hp).2
  rw [mark_of_standsIn h, underlined, append_assoc, zip_append (by simp), filter_append,
    hfront, nil_append]
  cases text with
  | nil =>
    obtain rfl := htext.resolve_left (absurd rfl)
    rfl
  | cons c cs =>
    have hwidth : max (c :: cs).length 1 - 1 = cs.length := by
      simp
    have hmarks : ((cs.zip (replicate cs.length '~')).filter fun p => p.2 != ' ') =
        cs.zip (replicate cs.length '~') := by
      refine filter_eq_self.mpr fun p hp => ?_
      rw [eq_of_mem_replicate (of_mem_zip hp).2]
      rfl
    have hzip : (cs ++ behind).zip (replicate cs.length '~') =
        cs.zip (replicate cs.length '~') := by
      rw [← append_nil (replicate cs.length '~'), zip_append (by simp), zip_nil_right,
        append_nil, append_nil]
    rw [hwidth, cons_append, zip_cons_cons, hzip, filter_cons_of_pos (by rfl), hmarks, map_cons,
      map_fst_zip (by simp)]

/-- The line that is shown for a token is the one it stands in. -/
lemma line_of_standsIn : SourceFile.line ⟨name, source⟩ t.line =
    String.ofList (front ++ text ++ behind) := by
  have hnum : (t.line - 1).toNat = above.count '\n' := by
    rw [h.line_eq]
    omega
  have hline : ((front ++ text ++ behind) ++ below).takeWhile (· != '\n') = front ++
      text ++ behind := by
    have hchars : ∀ c ∈ front ++ text ++ behind, (c != '\n') = true := fun c hc =>
      bne_iff_ne.mpr fun heq => h.one_line (heq ▸ hc)
    rw [takeWhile_append_of_pos hchars]
    rcases h.ends with rfl | hbelow
    · simp
    · obtain ⟨below', rfl⟩ : ∃ below', below = '\n' :: below' := by
        cases below with
        | nil => cases hbelow
        | cons c cs => exact ⟨cs, by rw [Option.some.inj hbelow]⟩
      simp
  rw [SourceFile.line, hnum, h.source_eq, append_assoc above,
    SourceFile.fromLine_above h.begins, hline]

/-- The mark under a token can be made unless the text is too long. -/
lemma isMarkable_of_standsIn (hsource : source.length ≤ longestMark) : isMarkable t = true := by
  have hwidth : front.length + text.length ≤ source.length := by
    rw [h.source_eq]
    simp only [length_append]
    omega
  have hleast : leastColumn < 0 := by decide
  rw [isMarkable, h.column_eq, h.length_eq]
  simp only [Bool.and_eq_true, decide_eq_true_eq]
  omega

end Marks

/-- An error about a token shows the line of the source text that the token stands in, and under it
a mark as long as the token, or of one sign for the end of the file. What is marked is the text of
the token. Every such error can be shown, unless the source text is longer than any mark. -/
theorem error_of_mem_scan (settings : Settings) (name message : String) (source : List Char)
    (others : List SourceFile) (t : Token) (ht : t ∈ Token.scan settings 0 source) :
    ∃ text above front behind below, t.StandsIn source text above front behind below ∧
      (Spelled t.kind t.value text ∨ t.kind = .endOfFile ∧ text = [] ∧ behind = [] ∧ below = []) ∧
      error (⟨name, source⟩ :: others) t message =
        name ++ ":" ++ toString t.line ++ ":" ++ toString t.column ++ ": error: " ++
          message ++ "\n" ++ ("  " ++ String.ofList (front ++ text ++ behind) ++ "\n") ++
          ("  " ++ mark t ++ "\n") ∧
      (mark t).toList = List.replicate front.length ' ' ++ '^' ::
      List.replicate (max text.length 1 - 1) '~' ∧
      underlined (front ++ text ++ behind) (mark t).toList = text ∧
      (source.length ≤ longestMark →
        error? (⟨name, source⟩ :: others) t message =
        some (error (⟨name, source⟩ :: others) t message)) := by
  obtain ⟨hfile, text, above, front, behind, below, h, hspelled⟩ := Token.standsIn_of_mem_scan ht
  have htext : text ≠ [] ∨ behind = [] := hspelled.imp Spelled.ne_nil fun hend => hend.2.2.1
  refine ⟨text, above, front, behind, below, h, hspelled, ?_, mark_of_standsIn h,
    underlined_mark h htext, fun hsource => ?_⟩
  · have hknown : file? (⟨name, source⟩ :: others) t = some ⟨name, source⟩ := by
      rw [file?, hfile]
      rfl
    have hline : t.line ≠ 0 := by
      rw [h.line_eq]
      omega
    simp only [error, render, excerpt, hknown, if_neg hline, line_of_standsIn h, Severity.name]
    simp only [String.append_assoc]
    rfl
  · rw [error?, isShowable, isMarkable_of_standsIn h hsource, Bool.or_true, if_pos rfl]

/-- A name in the second line of a text is shown with this line, and all of it is marked. -/
theorem error_in_second_line :
    let source := "a;\n  sum=1;".toList
    let t : Token := ⟨.identifier, "sum", 0, 2, 3, 3⟩
    t ∈ Token.scan {} 0 source ∧
      (∃ above front behind below, t.StandsIn source "sum".toList above front behind below ∧
        underlined (front ++ "sum".toList ++ behind) (mark t).toList = "sum".toList) ∧
      error? [⟨"f", source⟩] t "m" = some "f:2:3: error: m\n    sum=1;\n    ^~~\n" := by
  intro source t
  have ht : t ∈ Token.scan {} 0 source := by decide
  obtain ⟨text, above, front, behind, below, h, -, herror, -, hunderlined, hshown⟩ :=
    error_of_mem_scan {} "f" "m" source [] t ht
  have hshows : SourceFile.line ⟨"f", source⟩ t.line = _ := line_of_standsIn h
  have hline : front ++ text ++ behind = "  sum=1;".toList :=
    String.ofList_injective (hshows.symm.trans rfl)
  obtain rfl : text = "sum".toList := by
    rw [← hunderlined, hline]
    decide
  refine ⟨ht, ⟨above, front, behind, below, h, hunderlined⟩,
    (hshown (by decide)).trans (congrArg some ?_)⟩
  rw [herror, hline]
  rfl

end Diagnostic

end ThreeAddress
