import ThreeAddress.Proofs.Lowering.Separation
import ThreeAddress.Proofs.Parser.Declarations

/-!
# The names of a source text

A name in a source text begins with a letter and goes on with letters, digits and underscores. All
of these are printable characters. The variables of a generated program are names of its source
text.
-/

namespace ThreeAddress

open List

variable {file : Int} {source : List Char} {settings : Settings}

/-! ## The characters of names -/

namespace Text

/-- A letter followed by letters, digits and underscores. -/
def IsName (name : String) : Prop :=
  ∃ c cs, name.toList = c :: cs ∧ isLetter c = true ∧ ∀ d ∈ cs, isWordChar d = true

lemma IsName.isWordChar {name} (h : IsName name) : ∀ c ∈ name.toList, isWordChar c = true := by
  obtain ⟨c, cs, hname, hc, hcs⟩ := h
  rw [hname]
  refine forall_mem_cons.mpr ⟨?_, hcs⟩
  simp [Text.isWordChar, hc]

lemma ne_of_isWordChar {c d} (hc : isWordChar c = true) (hd : isWordChar d = false) : c ≠ d := by
  rintro rfl
  rw [hc] at hd
  cases hd

/-- A name can be declared. -/
lemma IsName.isValidName {name} (h : IsName name) : SymbolTable.isValidName name = true := by
  obtain ⟨c, cs, hname, hc, -⟩ := h
  have hne : c ≠ '_' := by
    rintro rfl
    cases hc
  rw [SymbolTable.isValidName, hname]
  simpa using hne

/-- Whether the ranges of a table are parts of those of another, where both tables are in order. -/
def isPartOf (table : List (Nat × Nat)) : List (Nat × Nat) → Bool
  | [] => table.isEmpty
  | r :: rest => isPartOf (table.dropWhile fun part => r.1 ≤ part.1 && part.2 ≤ r.2) rest

/-- Numbers in the ranges of a table are in those of a table it is part of. -/
lemma inRanges_of_isPartOf {table table' n} (hpart : isPartOf table table' = true)
    (h : inRanges table n = true) :
    inRanges table' n = true := by
  induction table' generalizing table with
  | nil =>
    obtain rfl := isEmpty_iff.mp hpart
    cases h
  | cons r rest ih =>
    rw [← takeWhile_append_dropWhile (p := fun part => r.1 ≤ part.1 && part.2 ≤ r.2) (l := table),
      inRanges, any_append, Bool.or_eq_true] at h
    rw [inRanges, any_cons, Bool.or_eq_true]
    rcases h with h | h
    · obtain ⟨part, hmem, hn⟩ := any_eq_true.mp h
      have hrange := mem_takeWhile_imp hmem
      simp only [Bool.and_eq_true, decide_eq_true_eq] at hn hrange ⊢
      left
      omega
    · exact .inr (ih hpart h)

/-- A character of a name is printable. -/
lemma isPrintable_of_isWordChar {c} (h : isWordChar c = true) : isPrintable c = true := by
  simp only [isWordChar, isLetter, isDigit, Bool.or_eq_true, beq_iff_eq] at h
  unfold isPrintable
  by_cases hc : c.toNat < 0x80
  · rw [if_pos hc] at h ⊢
    have hascii : ∀ n, n < 0x80 → (Char.ofNat n).isAlpha = true ∨ (Char.ofNat n).isDigit = true ∨
        Char.ofNat n = '_' → 0x20 ≤ n ∧ n < 0x7f := by decide +kernel
    have hrange := hascii c.toNat hc
    rw [Char.ofNat_toNat, if_pos hc] at *
    simp only [Bool.and_eq_true, decide_eq_true_eq]
    exact hrange (by tauto)
  · rw [if_neg hc] at h ⊢
    rcases h with (hletter | hdigit) | rfl
    · exact inRanges_of_isPartOf (by decide +kernel) hletter
    · rw [if_neg hc] at hdigit
      exact inRanges_of_isPartOf (by decide +kernel) hdigit
    · exact absurd (by decide) hc

end Text

/-! ## Names in source texts -/

lemma Spelled.isName {value word} (h : Spelled .identifier value word) : Text.IsName value := by
  cases h with
  | fixed hkind => cases hkind
  | identifier hc hcs => exact ⟨_, _, String.toList_ofList, hc, hcs⟩

/-- The names among the tokens of a text. -/
lemma Token.isName_of_mem_scan {t} (ht : t ∈ scan settings file source)
    (hkind : t.kind = .identifier) :
    Text.IsName t.value := by
  obtain ⟨word, hword⟩ := spelled_of_mem_scan ht (by simp [hkind])
  exact (hkind ▸ hword).isName

/-- The declarations of a tree declare names. -/
def Tree.DeclaresNames (root : Tree) : Prop :=
  ∀ x type, root.scope x = some type → Text.IsName x

/-- The tree of a source text declares names. -/
lemma declaresNames_of_source {root} (h : Tree.ofSource settings file source = .ok root) :
    root.DeclaresNames := by
  intro x type hx
  obtain ⟨l1, l2, hlist, -⟩ := lookup_eq_some_iff.mp hx
  have hmem : (x, type) ∈ root.declarations.filterMap Tree.declared? := by simp [hlist]
  obtain ⟨d, hd, hdeclared⟩ := mem_filterMap.mp hmem
  obtain ⟨keyword, text, name, hname, hkind, rfl⟩ := declaresFrom_of_source h d hd
  cases hdeclared
  exact Token.isName_of_mem_scan hname hkind

/-- The variables of a program that is generated from a source text are names. -/
lemma isName_of_generate {root state p} (hsource : Tree.ofSource settings file source = .ok root)
    (hgen : (generate settings state root).outcome = .ok p) : ∀ x ∈ p.globals.map Prod.fst,
    Text.IsName x := by
  intro x hx
  have hsome : p.globalType? x ≠ none := by
    obtain ⟨g, hg, rfl⟩ := mem_map.mp hx
    rw [Program.globalType?, ne_eq, lookup_eq_none_iff]
    intro hnone
    simpa using hnone g hg
  obtain ⟨type, htype⟩ := Option.ne_none_iff_exists'.mp hsome
  rw [globalType?_of_generate hgen] at htype
  exact declaresNames_of_source hsource x type htype

end ThreeAddress
