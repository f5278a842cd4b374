import Mathlib.Tactic.Common
import ThreeAddress.Text.Words

/-!
# Wrapping

Wrapping puts words on lines greedily. The lines are a `Layout` of the words: they hold all of them
in order, and each fits unless it is a single word. No layout has fewer lines: wherever another one
has begun a line no later than wrapping has, wrapping has not used more lines, and where it has
begun its line later, it has used one more (`length_fillLines_le`).
-/

namespace ThreeAddress.Text

open List

/-- Words on one line stay within a width in bytes, or there is only one of them. -/
def Fits (width : Int) (line : List String) : Prop :=
  ((" ".intercalate line).utf8ByteSize : Int) ≤ width ∨ line.length = 1

/-- Lines that cut a sequence of words and fit. -/
structure Layout (width : Int) (ws : List String) (lines : List (List String)) : Prop where
  flatten : lines.flatten = ws
  fits : ∀ line ∈ lines, Fits width line

variable {width : Int} {w : String} {g ws : List String} {lines : List (List String)}

/-! ## Words -/

/-- The words are what stands between blanks and is not empty. -/
lemma words_eq_splitOnP (s : String) :
    words s = ((s.toList.splitOnP isBlank).filter (· ≠ [])).map String.ofList := by
  have hsplit : ∀ cs, ∃ more, cs.splitOnP isBlank = (splitWords cs).1 :: more ∧
      (splitWords cs).2 = (more.filter (· ≠ [])).map String.ofList := by
    intro cs
    induction cs with
    | nil => exact ⟨[], splitOnP_nil, rfl⟩
    | cons c cs ih =>
      obtain ⟨more, hmore, hwords⟩ := ih
      rw [splitOnP_cons_eq_if_modifyHead, hmore, splitWords]
      cases isBlank c with
      | true =>
        exact ⟨_, rfl, by cases hfirst : (splitWords cs).1 <;> simp [consWord, hfirst, hwords]⟩
      | false => exact ⟨more, rfl, hwords⟩
  obtain ⟨more, hmore, hwords⟩ := hsplit s.toList
  rw [words, hmore]
  cases hfirst : (splitWords s.toList).1 <;> simp [consWord, hfirst, hwords]

lemma intercalate_concat (hg : g ≠ []) :
    " ".intercalate (g ++ [w]) = " ".intercalate g ++ " " ++ w := by
  rw [String.intercalate_append_of_ne_nil hg (cons_ne_nil _ _), String.intercalate_singleton]

lemma size_le_append (g b : List String) :
    (" ".intercalate g).utf8ByteSize ≤ (" ".intercalate (g ++ b)).utf8ByteSize := by
  by_cases hb : b = []
  · simp [hb]
  · by_cases hg : g = []
    · simp [hg]
    · rw [String.intercalate_append_of_ne_nil hg hb, String.utf8ByteSize_append,
        String.utf8ByteSize_append]
      omega

/-- Lines joined by spaces are their words joined by spaces. -/
lemma intercalate_flatten (hne : [] ∉ lines) :
    " ".intercalate (lines.map " ".intercalate) = " ".intercalate lines.flatten := by
  induction lines with
  | nil => rfl
  | cons l lines ih =>
    obtain ⟨hl, hlines⟩ := not_or.mp (mt mem_cons.mpr hne)
    cases lines with
    | nil => simp
    | cons l' lines =>
      have hrest : (l' :: lines).flatten ≠ [] := fun h => by simp_all
      rw [map_cons, map_cons, String.intercalate_cons_cons, ← map_cons, ih hlines,
        flatten_cons (L := l' :: lines), String.intercalate_append_of_ne_nil (Ne.symm hl) hrest]

/-! ## Lines -/

/-- The lines are a layout of the words of the unfinished line and those that follow. -/
lemma exists_layout_fillLines (hg : g ≠ []) (hfits : Fits width g) (ws : List String) :
    ∃ lines, Layout width (g ++ ws) lines ∧ [] ∉ lines ∧
      fillLines width (" ".intercalate g) ws = lines.map " ".intercalate := by
  induction ws generalizing g with
  | nil => exact ⟨[g], ⟨by simp, by simpa using hfits⟩, by simpa using hg, rfl⟩
  | cons w ws ih =>
    rw [fillLines]
    split
    · obtain ⟨lines, hlayout, hne, hlines⟩ := ih (cons_ne_nil w []) (.inr rfl)
      rw [String.intercalate_singleton] at hlines
      exact ⟨g :: lines, ⟨by simp [hlayout.flatten], forall_mem_cons.mpr ⟨hfits, hlayout.fits⟩⟩,
        by simpa [hne] using hg.symm, by rw [hlines, map_cons]⟩
    · rename_i hroom
      have hsize : Fits width (g ++ [w]) := by
        refine .inl ?_
        simp only [intercalate_concat hg, String.utf8ByteSize_append]
        have hblank : " ".utf8ByteSize = 1 := rfl
        omega
      rw [← intercalate_concat hg, append_cons]
      exact ih (by simp) hsize

/-- Another layout has `g` on its current line, and then `b` and further lines. Wrapping uses at
most one more line than it does, and none more if its own line is no longer than `g`. -/
lemma length_fillLines_le (line : String) (hg : g ≠ []) {b} (hfits : Fits width (g ++ b))
    (hlines : ∀ l ∈ lines, Fits width l) (hws : ws = b ++ lines.flatten) :
    (fillLines width line ws).length ≤ lines.length + 2 ∧
    (line.utf8ByteSize ≤ (" ".intercalate g).utf8ByteSize →
      (fillLines width line ws).length ≤ lines.length + 1) := by
  have hblank : " ".utf8ByteSize = 1 := rfl
  induction ws generalizing line g b lines with
  | nil => simp [fillLines]
  | cons w ws ih =>
    rw [fillLines]
    cases b with
    | cons w' b =>
      -- The other layout puts the word on its line, which holds two words then and is not too long.
      obtain ⟨rfl, rfl⟩ := cons.inj hws
      rw [append_cons] at hfits
      have hroom : ((" ".intercalate g).utf8ByteSize : Int) + 1 + w.utf8ByteSize ≤ width := by
        have hsize := size_le_append (g ++ [w]) b
        rw [intercalate_concat hg, String.utf8ByteSize_append, String.utf8ByteSize_append] at hsize
        obtain hfits | hone := hfits
        · omega
        · have hlen := length_pos_iff.mpr hg
          simp only [length_append, length_singleton] at hone
          omega
      have hnext (l : String) := ih l (by simp) hfits hlines rfl
      simp only [intercalate_concat hg, String.utf8ByteSize_append] at hnext
      split
      · have hcount := hnext w
        rw [length_cons]
        omega
      · have hcount := hnext (line ++ " " ++ w)
        simp only [String.utf8ByteSize_append] at hcount
        omega
    | nil =>
      -- The other layout begins a line with the word, so that wrapping may fall behind by the rest
      -- of its own.
      obtain ⟨before, b, after, rfl, hbefore, rfl⟩ := flatten_eq_cons_iff.mp hws.symm
      obtain ⟨hcur, hafter⟩ := forall_mem_cons.mp (forall_mem_append.mp hlines).2
      have hnext (l : String) := ih l (cons_ne_nil w []) hcur hafter rfl
      rw [String.intercalate_singleton] at hnext
      rw [length_append, length_cons]
      split
      · have hcount := hnext w
        rw [length_cons]
        omega
      · have hcount := hnext (line ++ " " ++ w)
        omega

/-- Wrapping loses no word and uses the fewest lines: its lines, joined by single spaces, are the
words of the text joined by single spaces; every line is within the width or a single word; and
every way of cutting the words into such lines has at least as many. -/
theorem wrap_fewest_lines (s : String) (width : Int) (hwidth : 0 < width) :
    words s = ((s.toList.splitOnP isBlank).filter (· ≠ [])).map String.ofList ∧
    " ".intercalate (wrap s width) = " ".intercalate (words s) ∧
    (∀ line ∈ wrap s width, (line.utf8ByteSize : Int) ≤ width ∨ line ∈ words s) ∧
    (∃ lines, Layout width (words s) lines ∧ wrap s width = lines.map " ".intercalate) ∧
    ∀ lines, Layout width (words s) lines → (wrap s width).length ≤ lines.length := by
  refine ⟨words_eq_splitOnP s, ?_⟩
  rw [wrap]
  cases words s with
  | nil => exact ⟨rfl, forall_mem_nil _, ⟨[], ⟨rfl, forall_mem_nil _⟩, rfl⟩,
      fun _ _ => Nat.zero_le _⟩
  | cons w ws =>
    simp only [if_neg (Int.not_le.mpr hwidth)]
    obtain ⟨lines, hlayout, hne, hlines⟩ :=
      exists_layout_fillLines (cons_ne_nil w []) (.inr rfl : Fits width [w]) ws
    rw [String.intercalate_singleton] at hlines
    rw [singleton_append] at hlayout
    refine ⟨?_, fun line hline => ?_, ⟨lines, hlayout, hlines⟩, fun other hother => ?_⟩
    · rw [hlines, intercalate_flatten hne, hlayout.flatten]
    · obtain ⟨l, hl, rfl⟩ := mem_map.mp (hlines ▸ hline)
      refine (hlayout.fits l hl).imp_right fun hone => ?_
      obtain ⟨v, rfl⟩ := length_eq_one_iff.mp hone
      rw [String.intercalate_singleton, ← hlayout.flatten]
      exact mem_flatten_of_mem hl mem_cons_self
    · obtain ⟨before, b, after, rfl, -, hws⟩ := flatten_eq_cons_iff.mp hother.flatten
      have hfits := forall_mem_cons.mp (forall_mem_append.mp hother.fits).2
      have hcount := (length_fillLines_le w (cons_ne_nil w []) hfits.1 hfits.2 hws).2
        (Nat.le_of_eq (congrArg _ String.intercalate_singleton.symm))
      rw [length_append, length_cons]
      omega

/-- A word that is longer than the width, and words that just fill it. -/
theorem wrap_fewest_lines_sample : (0 : Int) < 5 ∧
    wrap " a bcd  efghijk\tl " 5 = ["a bcd", "efghijk", "l"] ∧
    ∀ lines, Layout 5 (words " a bcd  efghijk\tl ") lines → 3 ≤ lines.length := by
  have hwrap : wrap " a bcd  efghijk\tl " 5 = ["a bcd", "efghijk", "l"] := by decide +kernel
  refine ⟨by decide, hwrap, fun lines hlines => ?_⟩
  have hcount := (wrap_fewest_lines _ 5 (by decide)).2.2.2.2 lines hlines
  rwa [hwrap] at hcount

end ThreeAddress.Text
