import ThreeAddress.Proofs.Lowering.Elision
import ThreeAddress.Proofs.Lowering.Robustness
import ThreeAddress.Proofs.Qbe.Reading

/-!
# What can be wrong with a shaped tree

Lowering finds most faults of a tree by counting children and operators. A shaped tree has none of
these, and what is left to find is in its names, its numbers and its clauses: `Tree.Blamed` lists
the reasons for which a shaped tree can be called malformed, each with the nodes it comes from.
-/

namespace ThreeAddress

open List

variable {cs : List Char} {text : String} {t : Tree}

/-! ## Numbers of 64 bits -/

namespace Text

/-- Decimal digits, at least one. -/
def AreDigits (cs : List Char) : Prop := cs ≠ [] ∧ ∀ c ∈ cs, c.isDigit = true

/-- A text is a decimal number that 64 signed bits can hold, with or without a sign. -/
inductive IsInt64 (text : String) : Prop
  | plain {digits} (hdigits : AreDigits digits)
      (htext : text.toList = digits ∨ text.toList = '+' :: digits)
      (hvalue : Nat.ofDigitChars 10 digits 0 < signedBound)
  | negative {digits} (hdigits : AreDigits digits) (htext : text.toList = '-' :: digits)
      (hvalue : Nat.ofDigitChars 10 digits 0 ≤ signedBound)

/-- Digits are read as the natural number they stand for, if it fits. -/
lemma AreDigits.readNatural_eq (h : AreDigits cs)
    (hfits : Nat.ofDigitChars 10 cs 0 < UInt64.size) :
    readNatural cs = .ok (Nat.ofDigitChars 10 cs 0) := by
  cases cs with
  | nil => exact absurd rfl h.1
  | cons c cs => exact readDigits_eq h.2 0 hfits

lemma AreDigits.head?_ne (h : AreDigits cs) {c} (hc : c.isDigit = false) : cs.head? ≠ some c := by
  intro hhead
  have hdigit := h.2 c (mem_of_head? hhead)
  rw [hc] at hdigit
  cases hdigit

/-- Numbers of 64 bits are read. -/
lemma IsInt64.exists_readInt64 (h : IsInt64 text) : ∃ w, readInt64 text = .ok w := by
  have hsize : UInt64.size = 2 * signedBound := rfl
  have hpos : 0 < signedBound := by decide
  cases h with
  | @plain digits hdigits htext hval =>
    have hread := hdigits.readNatural_eq (by omega)
    have hminus : text.toList.head? ≠ some '-' := by
      rcases htext with htext | htext
      · rw [htext]
        exact hdigits.head?_ne (by decide)
      · simp [htext]
    have hrest : (if text.toList.head? = some '+' then text.toList.tail else text.toList) =
        digits := by
      rcases htext with htext | htext
      · rw [htext, if_neg (hdigits.head?_ne (by decide))]
      · rw [htext]
        exact if_pos rfl
    refine ⟨Int64.ofNat (Nat.ofDigitChars 10 digits 0), ?_⟩
    unfold readInt64
    split
    · rename_i cs hcs
      exact absurd (by rw [hcs]; rfl) hminus
    · rw [hrest, hread]
      exact if_pos hval
  | @negative digits hdigits htext hval =>
    have hread := hdigits.readNatural_eq (by omega)
    refine ⟨Int64.ofInt (-(Nat.ofDigitChars 10 digits 0 : Int)), ?_⟩
    rw [readInt64, htext]
    simp only [hread]
    exact if_pos hval

lemma not_isInt64_of_error {fault} (h : readInt64 text = .error fault) : ¬ IsInt64 text := by
  intro htext
  obtain ⟨w, hw⟩ := htext.exists_readInt64
  rw [h] at hw
  cases hw

end Text

/-! ## Reasons -/

namespace Tree

/-- A tree is part of another one. -/
inductive Contains (root : Tree) : Tree → Prop
  | self : Contains root root
  | child {kind token value ops children t}
      (h : Contains root (.node kind token value ops children)) (ht : t ∈ children) :
      Contains root t

lemma Shaped.of_contains {root : Tree} (h : root.Shaped) (ht : root.Contains t) : t.Shaped := by
  induction ht with
  | self => exact h
  | child _ ht ih =>
    cases ih with
    | node _ hchildren => exact hchildren _ ht

lemma Shaped.whole (h : t.Shaped) : t.Whole := by
  induction h with
  | node _ _ ih => exact .node ih

/-- A shaped number is a leaf. -/
lemma Shaped.eq_intLiteral (h : t.Shaped) (hkind : t.IsA [.intLiteral]) :
    ∃ token text, t = .leaf .intLiteral token text := by
  cases h with
  | node hfits _ =>
    obtain rfl := mem_singleton.mp hkind
    cases hfits with
    | intLiteral => exact ⟨_, _, rfl⟩

/-- A shaped name is a leaf. -/
lemma Shaped.eq_identifier (h : t.Shaped) (hkind : t.IsA [.identifier]) :
    ∃ token name, t = .leaf .identifier token name := by
  cases h with
  | node hfits _ =>
    obtain rfl := mem_singleton.mp hkind
    cases hfits with
    | identifier => exact ⟨_, _, rfl⟩

/-- A shaped declaration declares a name. -/
lemma Shaped.eq_declaration (h : t.Shaped) (hkind : t.IsA [.declaration]) :
    ∃ keyword text token name, t = .node .declaration keyword text []
    [.leaf .identifier token name] := by
  cases h with
  | node hfits hchildren =>
    obtain rfl := mem_singleton.mp hkind
    cases hfits with
    | declaration htype hname =>
      obtain ⟨token, name, rfl⟩ := (hchildren _ (.head _)).eq_identifier hname
      exact ⟨_, _, token, name, rfl⟩

/-- A tree has a declaration of a name with a type, at the token of the name. -/
def Declares (root : Tree) (token : Token) (name : String) (type : ValueType) : Prop :=
  ∃ keyword text, type = .ofKeyword text ∧
    root.Contains (.node .declaration keyword text [] [.leaf .identifier token name])

/-- The reasons for which a tree can be called malformed although it is shaped. -/
inductive Blamed (root : Tree) : LowerError → Prop
  /-- A name is declared that is empty or belongs to the compiler. -/
  | invalidName {token name type} (hdeclares : root.Declares token name type)
      (hname : name = "" ∨ name.toList.head? = some '_') : Blamed root ⟨token, .invalidName name⟩
  /-- A name is declared with two types. -/
  | redeclared {token earlier name now before} (hnow : root.Declares token name now)
      (hbefore : root.Declares earlier name before) (hne : now ≠ before) :
      Blamed root ⟨token, .redeclared name now before⟩
  /-- A number in an expression has more than 64 bits. -/
  | invalidInteger {token text} (hliteral : root.Contains (.leaf .intLiteral token text))
      (htext : ¬ Text.IsInt64 text) : Blamed root ⟨token, .invalidInteger text⟩
  /-- The value of a case has more than 64 bits. -/
  | invalidCase {keyword token text body}
      (hclause : root.Contains (.branch .caseClause keyword (.leaf .intLiteral token text :: body)))
      (htext : ¬ Text.IsInt64 text) : Blamed root ⟨token, .invalidCase text⟩
  /-- A `switch` has a default clause after another one. -/
  | secondDefault {token scrutinee before clause after}
      (hselection : root.Contains (.branch .selection token
      (scrutinee :: (before ++ clause :: after)))) (hbefore : ∃ t ∈ before, IsA [.defaultClause] t)
      (hclause : clause.IsA [.defaultClause]) :
      Blamed root ⟨clause.token, .secondDefault⟩

end Tree

end ThreeAddress
