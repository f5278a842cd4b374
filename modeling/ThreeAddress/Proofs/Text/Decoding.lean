import Mathlib.Algebra.Group.Nat.Defs
import ThreeAddress.Text.Quoted

/-!
# Texts that can be read back

Parts that are joined by a character can be told from the whole text if the character is in none of
them. A quoted text has no newline, and what is quoted can be read back from it character by
character (`Text.unescape?`).
-/

namespace ThreeAddress

open List

/-! ## Texts that are joined -/

section Joined

variable {x : Char} {parts parts' : List (List Char)}

/-- Parts that are joined by a character can be told from the whole, if it is in none of them. -/
lemma eq_of_intercalate_eq (h : ∀ l ∈ parts, x ∉ l) (h' : ∀ l ∈ parts', x ∉ l) (hne : parts ≠ [])
    (hne' : parts' ≠ []) (heq : [x].intercalate parts = [x].intercalate parts') :
    parts = parts' := by
  rw [← splitOn_intercalate x h hne, heq, splitOn_intercalate x h' hne']

/-- What stands in joined parts stands in one of them, or joins them. -/
lemma mem_of_mem_intercalate {c} (h : c ∈ [x].intercalate parts) : c = x ∨ ∃ l ∈ parts, c ∈ l := by
  induction parts with
  | nil => cases h
  | cons l parts ih =>
    cases parts with
    | nil => exact .inr ⟨l, mem_cons_self, by simpa using h⟩
    | cons l' parts =>
      rw [intercalate_cons_cons, mem_append, mem_append, mem_singleton] at h
      rcases h with (hl | hx) | hrest
      · exact .inr ⟨l, mem_cons_self, hl⟩
      · exact .inl hx
      · obtain hx | ⟨m, hm, hc⟩ := ih hrest
        · exact .inl hx
        · exact .inr ⟨m, mem_cons_of_mem _ hm, hc⟩

/-- Parts that each end with a character are joined by it, with nothing behind the last. -/
lemma flatMap_append_singleton (x : Char) (parts : List (List Char)) :
    parts.flatMap (· ++ [x]) = [x].intercalate (parts ++ [[]]) := by
  induction parts with
  | nil => rfl
  | cons l parts ih =>
    rw [flatMap_cons, ih]
    cases parts with
    | nil => simp [intercalate]
    | cons l' parts => simp only [cons_append, intercalate_cons_cons]

/-- Parts that each end with a character can be told from the whole, if it is in none of them. -/
lemma eq_of_flatMap_eq (h : ∀ l ∈ parts, x ∉ l) (h' : ∀ l ∈ parts', x ∉ l)
    (heq : parts.flatMap (· ++ [x]) = parts'.flatMap (· ++ [x])) : parts = parts' := by
  rw [flatMap_append_singleton, flatMap_append_singleton] at heq
  have hlast : ∀ l ∈ [[]], x ∉ l := forall_mem_singleton.mpr not_mem_nil
  have happend := eq_of_intercalate_eq (forall_mem_append.mpr ⟨h, hlast⟩)
    (forall_mem_append.mpr ⟨h', hlast⟩) (by simp) (by simp) heq
  exact append_cancel_right happend

end Joined

/-! ## Quoted text -/

namespace Text

/-- The number that hexadecimal digits stand for. -/
def readHex (cs : List Char) : Nat :=
  cs.foldl (fun n c => 16 * n + "0123456789abcdef".toList.idxOf c) 0

/-- The control characters that have an escape letter. -/
def controls : List Char := [7, 8, 9, 10, 11, 12, 13].map Char.ofNat

/-- The character that is written at the beginning of a text between quotes, and what follows it. -/
def unescape? : List Char → Option (Char × List Char)
  | '\\' :: 'x' :: cs => some (.ofNat (readHex (cs.take 2)), cs.drop 2)
  | '\\' :: 'u' :: cs => some (.ofNat (readHex (cs.take 4)), cs.drop 4)
  | '\\' :: 'U' :: cs => some (.ofNat (readHex (cs.take 8)), cs.drop 8)
  | '\\' :: c :: cs => some ((controls.find? (escapeLetter? · = some c)).getD c, cs)
  | c :: cs => some (c, cs)
  | [] => none

lemma readHex_toDigits (n : Nat) : readHex (Nat.toDigits 16 n) = n := by
  have hdigit : ∀ d < 16, "0123456789abcdef".toList.idxOf d.digitChar = d := by decide
  induction n using Nat.strongRecOn with
  | ind n ih =>
    rw [Nat.toDigits_eq_if (by decide)]
    split
    · rename_i hn
      rw [readHex, foldl_cons, foldl_nil, hdigit n hn]
      omega
    · rename_i hn
      have hrest := ih (n / 16) (Nat.div_lt_self (by omega) (by decide))
      rw [readHex] at hrest
      rw [readHex, foldl_append, hrest, foldl_cons, foldl_nil, hdigit _ (Nat.mod_lt n (by decide))]
      omega

lemma readHex_hexDigits (width n : Nat) : readHex (hexDigits width n) = n := by
  have hzeros (k : Nat) : readHex (replicate k '0') = 0 := by
    induction k with
    | zero => rfl
    | succ k ih => exact ih
  simp only [hexDigits, readHex, foldl_append] at hzeros ⊢
  rw [hzeros]
  exact readHex_toDigits n

lemma length_hexDigits {width n : Nat} (hwidth : 0 < width) (hn : n < 16 ^ width) :
    (hexDigits width n).length = width := by
  have hlen := (Nat.length_toDigits_le_iff (b := 16) (by decide) hwidth).mpr hn
  simp only [hexDigits, length_append, length_replicate]
  omega

lemma mem_controls {c l} (h : escapeLetter? c = some l) : c ∈ controls := by
  have hcode : c.toNat ∈ [7, 8, 9, 10, 11, 12, 13] := by
    unfold escapeLetter? at h
    split at h <;> simp_all
  rw [← Char.ofNat_toNat c]
  exact mem_map_of_mem hcode

/-- Every character can be read back from how it is written. -/
lemma unescape?_escape (c : Char) (cs : List Char) : unescape? (escape c ++ cs) = some (c, cs) := by
  have hhex (width : Nat) (hwidth : 0 < width) (hc : c.toNat < 16 ^ width) :
      (Char.ofNat (readHex ((hexDigits width c.toNat ++ cs).take width)),
        (hexDigits width c.toNat ++ cs).drop width) = (c, cs) := by
    have hlen := length_hexDigits hwidth hc
    rw [take_left' hlen, drop_left' hlen, readHex_hexDigits, Char.ofNat_toNat]
  have hcontrol : ∀ c ∈ controls, ∀ l, escapeLetter? c = some l →
      unescape? ('\\' :: l :: cs) = some (c, cs) := by
    intro c hc l hl
    simp only [controls, map_cons, map_nil, mem_cons, not_mem_nil, or_false] at hc
    rcases hc with rfl | rfl | rfl | rfl | rfl | rfl | rfl <;> cases hl <;> rfl
  unfold escape
  split
  · rename_i hc
    rcases (by simpa using hc : c = '"' ∨ c = '\\') with rfl | rfl <;> rfl
  · rename_i hc
    split
    · have hslash : c ≠ '\\' := by
        rintro rfl
        simp at hc
      simp [unescape?, hslash]
    · split
      · rename_i l hl
        exact hcontrol c (mem_controls hl) l hl
      · split
        · exact congrArg some (hhex 2 (by decide) (by omega))
        · split
          · exact congrArg some (hhex 4 (by decide) (by omega))
          · exact congrArg some (hhex 8 (by decide) c.val.toNat_lt)

/-- No text is written like another. -/
lemma quote_injective {s s' : String} (h : quote s = quote s') : s = s' := by
  have hchars (cs cs' : List Char) (h : cs.flatMap escape = cs'.flatMap escape) : cs = cs' := by
    induction cs generalizing cs' with
    | nil =>
      cases cs' with
      | nil => rfl
      | cons c' cs' =>
        have hread := unescape?_escape c' (cs'.flatMap escape)
        rw [← flatMap_cons, ← h] at hread
        cases hread
    | cons c cs ih =>
      have hread := unescape?_escape c (cs.flatMap escape)
      rw [← flatMap_cons, h] at hread
      cases cs' with
      | nil => cases hread
      | cons c' cs' =>
        rw [flatMap_cons, unescape?_escape] at hread
        obtain ⟨rfl, hrest⟩ := Prod.mk.inj (Option.some.inj hread)
        rw [ih cs' hrest.symm]
  have hlist := congrArg String.toList h
  simp only [quote, String.toList_ofList, cons_append, cons.injEq, true_and,
    append_cancel_right_eq] at hlist
  exact String.toList_inj.mp (hchars _ _ hlist)

/-- A quoted text is a single line. -/
lemma newline_notMem_quote (s : String) : '\n' ∉ (quote s).toList := by
  have hdigits (n : Nat) : '\n' ∉ Nat.toDigits 16 n := by
    induction n using Nat.strongRecOn with
    | ind n ih =>
      have hdigit (d : Nat) : '\n' ≠ d.digitChar := (Nat.digitChar_ne '\n' (by decide)).symm
      rw [Nat.toDigits_eq_if (by decide)]
      split
      · simp [hdigit]
      · rename_i hn
        simp [hdigit, ih (n / 16) (Nat.div_lt_self (by omega) (by decide))]
  have hhex (width n : Nat) : '\n' ∉ hexDigits width n := by
    simp [hexDigits, mem_replicate, hdigits]
  have hescape (c : Char) : '\n' ∉ escape c := by
    unfold escape
    split
    · rename_i hc
      rcases (by simpa using hc : c = '"' ∨ c = '\\') with rfl | rfl <;> decide
    · split
      · rename_i hc
        rw [mem_singleton]
        rintro rfl
        exact absurd hc (by decide)
      · split
        · rename_i l hl
          have hne : '\n' ≠ l := by
            rintro rfl
            unfold escapeLetter? at hl
            split at hl <;> simp at hl
          simp [hne]
        · repeat' split
          all_goals simp [hhex]
  simp [quote, hescape]

end Text

end ThreeAddress
