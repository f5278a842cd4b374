import ThreeAddress.Proofs.Qbe.Discipline
import ThreeAddress.Proofs.Token.Layout

/-!
# The identifiers of a module

QBE takes ASCII letters, digits, `_` and `.` in a name behind a sigil, and no digit at its
beginning. The names of blocks and temporaries are of this form, and so are the symbols of variables
with such names. But the name of a variable can have letters and digits of any script, and goes into
its two symbols as it is.
-/

namespace ThreeAddress

open List

namespace Il

/-- The name that a token has behind its sigil. -/
def Token.name? : Token → Option String
  | .temp x | .symbol x | .label x => some x
  | _ => none

/-- The names that stand behind a sigil in a text. -/
def identifiers (text : String) : List String :=
  (lexFrom .between text.toList).filterMap Token.name?

/-- A character that QBE takes in a name. -/
def isNameChar (c : Char) : Bool := c.isAlphanum || c == '_' || c == '.'

/-- A name that QBE takes. -/
def isIdentifier (name : String) : Bool :=
  name.toList.head?.any (!·.isDigit) && name.toList.all isNameChar

/-- The name of a variable behind the beginning of its symbol. -/
lemma isIdentifier_append {front} (h : isIdentifier front = true) (name : String) :
    isIdentifier (front ++ name) = name.toList.all isNameChar := by
  rw [isIdentifier, Bool.and_eq_true] at h
  have hhead : (front ++ name).toList.head? = front.toList.head? := by
    rw [String.toList_append]
    cases hfront : front.toList with
    | nil =>
      rw [hfront] at h
      cases h.1
    | cons c cs => rfl
  rw [isIdentifier, hhead, h.1, String.toList_append, all_append, h.2, Bool.true_and, Bool.true_and]

/-- A number behind a name. -/
lemma isIdentifier_number {front} (h : isIdentifier front = true) (n : Nat) :
    isIdentifier (front ++ toString n) = true := by
  rw [isIdentifier_append h, all_eq_true]
  intro c hc
  rw [show toString n = Nat.repr n from rfl, Nat.toList_repr] at hc
  simp [isNameChar, Char.isAlphanum, Nat.isDigit_of_mem_toDigits (by decide) (by decide) hc]

/-- A letter is no ASCII digit. -/
lemma isDigit_of_isLetter {c} (h : Text.isLetter c = true) : c.isDigit = false := by
  refine Bool.eq_false_iff.mpr fun hdigit => ?_
  have hascii : c.toNat < 0x80 :=
    Nat.lt_of_le_of_lt (Char.isDigit_iff_toNat.mp hdigit).2 (by decide)
  have hletter := Text.isLetter_of_isDigit ((if_pos hascii).trans hdigit)
  rw [h] at hletter
  cases hletter

/-- The name of a variable is taken if its characters are. -/
lemma isIdentifier_of_isName {name} (h : Text.IsName name) :
    isIdentifier name = name.toList.all isNameChar := by
  obtain ⟨c, cs, hname, hc, -⟩ := h
  rw [isIdentifier, hname, head?_cons, Option.any_some, isDigit_of_isLetter hc]
  rfl

end Il

namespace Qbe

open Il

/-! ## Names of blocks and temporaries -/

/-- A name that QBE takes, or a symbol of one of several variables. -/
def IsKnown (names : List String) (x : String) : Prop :=
  isIdentifier x = true ∨ x ∈ names.map variableSymbol ++ names.map formatSymbol

lemma isKnown_variable {names x} (h : x ∈ names) : IsKnown names (variableSymbol x) :=
  .inr (mem_append_left _ (mem_map_of_mem h))

lemma isKnown_format {names x} (h : x ∈ names) : IsKnown names (formatSymbol x) :=
  .inr (mem_append_right _ (mem_map_of_mem h))

lemma Block.Proper.isIdentifier_name {b : Block} (h : b.Proper) : isIdentifier b.name = true := by
  cases b with
  | start | exit => decide
  | marked id =>
    obtain ⟨k, rfl⟩ := Int.eq_ofNat_of_zero_le (h id rfl)
    exact isIdentifier_number (by decide) k
  | through n | dead n => exact isIdentifier_number (by decide) n

lemma Value.Proper.isIdentifier_name {r} (h : Value.Proper (.register r)) :
    isIdentifier r.name = true := by
  cases r with
  | temp id =>
    obtain ⟨k, rfl⟩ := Int.eq_ofNat_of_zero_le (h id rfl)
    exact isIdentifier_number (by decide) k
  | scratch n => exact isIdentifier_number (by decide) n

section Lines

variable {names : List String} {l : Line} {v : Value}

lemma Value.Proper.isKnown (h : v.Proper) : ∀ x ∈ v.token.name?, IsKnown names x := by
  cases v with
  | const w => exact nofun
  | register r =>
    rintro x ⟨⟩
    exact .inl h.isIdentifier_name

/-- The names in a line are taken or symbols of variables. -/
lemma Line.Proper.isKnown (h : l.Proper names) (hl : l.Legible) :
    ∀ t ∈ l.tokens ++ [.sign '\n'], ∀ x ∈ t.name?, IsKnown names x := by
  have hscratch : ∀ n, IsKnown names (Register.scratch n).name := fun n =>
    .inl (Value.Proper.isIdentifier_name nofun)
  cases l with
  | block b => simpa [Line.tokens, Token.name?] using .inl h.isIdentifier_name
  | load n x | store n x => simpa [Line.tokens, Token.name?, hscratch] using isKnown_variable h
  | compute dst op args =>
    obtain ⟨hdst, hargs⟩ := forall_mem_cons.mp h
    have hname : IsKnown names dst.name := .inl hdst.isIdentifier_name
    rcases hl with ⟨-, v, rfl⟩ | ⟨-, v, w, rfl⟩
    · simpa [Line.tokens, Token.name?, hname] using (hargs v (by simp)).isKnown
    · simpa [Line.tokens, Token.name?, hname] using ⟨(hargs v (by simp)).isKnown,
        (hargs w (by simp)).isKnown⟩
  | compare n op left right =>
    simpa [Line.tokens, Token.name?, hscratch] using ⟨h.1.isKnown, h.2.isKnown⟩
  | jump b => simpa [Line.tokens, Token.name?] using .inl h.isIdentifier_name
  | branch n t f =>
    simpa [Line.tokens, Token.name?, hscratch] using ⟨.inl h.1.isIdentifier_name,
      .inl h.2.isIdentifier_name⟩
  | print x n =>
    have hprintf : IsKnown names "printf" := .inl (by decide)
    simpa [Line.tokens, Token.name?, hscratch, hprintf] using isKnown_format h
  | ret => simp [Line.tokens, Token.name?]

end Lines

/-! ## Programs -/

namespace Module

variable {m : Module}

/-- The tokens between the data of a module and its lines. -/
def header : List Il.Token :=
  [.sign '\n', .keyword .exported, .keyword .function, .keyword .word, .symbol "main", .sign '(',
    .sign ')', .sign '{', .sign '\n']

/-- The tokens of a module. -/
def tokens (m : Module) : List Il.Token :=
  m.globals.flatMap (fun x => wordTokens x ++ [.sign '\n']) ++
    m.globals.flatMap (fun x => formatTokens x ++ [.sign '\n']) ++
      (header ++ (m.lines.flatMap (fun l => l.tokens ++ [.sign '\n']) ++ [.sign '}', .sign '\n']))

/-- The text of a module is read as its tokens. -/
lemma lexFrom_text (hglobals : ∀ x ∈ m.globals, Text.IsName x) (hlines : ∀ l ∈ m.lines, l.Legible) :
    lexFrom .between m.text.toList = m.tokens := by
  have hwords := spells_join fun x hx => wordText_spells (hglobals x hx)
  have hformats := spells_join fun x hx => formatDataText_spells (hglobals x hx)
  have hbody := spells_join fun l hl => Line.spells (hlines l hl)
  have hheader : Spells header "\nexport function w $main() \x7b\n" := fun rest => rfl
  have hend : Spells [.sign '}', .sign '\n'] "\x7d\n" := fun rest => rfl
  have hmodule := ((((hwords.append hformats).append hheader).append hbody).append hend) []
  rw [append_nil, lexFrom, append_nil] at hmodule
  refine hmodule.trans ?_
  rw [append_assoc, append_assoc]
  rfl

/-- The names in the tokens of a module are taken or symbols of variables. -/
lemma isKnown_of_mem_tokens (hlines : ∀ l ∈ m.lines, l.Legible ∧ l.Proper m.globals) :
    ∀ t ∈ m.tokens, ∀ x ∈ t.name?, IsKnown m.globals x := by
  have hmain : IsKnown m.globals "main" := .inl (by decide)
  refine forall_mem_append.mpr ⟨forall_mem_append.mpr ⟨?_, ?_⟩, forall_mem_append.mpr ⟨?_,
    forall_mem_append.mpr ⟨?_, ?_⟩⟩⟩
  · refine forall_mem_flatMap.mpr fun x hx => ?_
    simpa [wordTokens, Token.name?] using isKnown_variable hx
  · refine forall_mem_flatMap.mpr fun x hx => ?_
    simpa [formatTokens, Token.name?] using isKnown_format hx
  · simpa [header, Token.name?] using hmain
  · exact forall_mem_flatMap.mpr fun l hl => (hlines l hl).2.isKnown (hlines l hl).1
  · simp [Token.name?]

/-- The names in the text of a module are taken unless they are symbols of variables whose names are
not, and all are taken only if there is no such variable. -/
lemma identifiers_text (hglobals : ∀ x ∈ m.globals, Text.IsName x)
    (hlines : ∀ l ∈ m.lines, l.Legible ∧ l.Proper m.globals) :
    (∀ name ∈ identifiers m.text, isIdentifier name = true ∨ ∃ x ∈ m.globals,
      isIdentifier x = false ∧
      (name = "v_" ++ x ∨ name = "fmt_" ++ x)) ∧
    ((∀ name ∈ identifiers m.text, isIdentifier name = true) ↔ ∀ x ∈ m.globals,
      isIdentifier x = true) := by
  have htokens := lexFrom_text hglobals fun l hl => (hlines l hl).1
  have hsymbol : ∀ front, isIdentifier front = true → ∀ x ∈ m.globals, isIdentifier (front ++ x) =
      isIdentifier x :=
    fun front hfront x hx => by rw [isIdentifier_append hfront,
      isIdentifier_of_isName (hglobals x hx)]
  have hnames : ∀ name ∈ identifiers m.text, isIdentifier name = true ∨ ∃ x ∈ m.globals,
      isIdentifier x = false ∧
        (name = "v_" ++ x ∨ name = "fmt_" ++ x) := by
    intro name hname
    rw [identifiers, htokens] at hname
    obtain ⟨t, ht, hname⟩ := mem_filterMap.mp hname
    rcases isKnown_of_mem_tokens hlines t ht name hname with htaken | hmem
    · exact .inl htaken
    · obtain ⟨x, hx, hsame, hform⟩ : ∃ x ∈ m.globals, isIdentifier name = isIdentifier x ∧
          (name = "v_" ++ x ∨ name = "fmt_" ++ x) := by
        rw [mem_append, mem_map, mem_map] at hmem
        rcases hmem with ⟨x, hx, rfl⟩ | ⟨x, hx, rfl⟩
        · exact ⟨x, hx, hsymbol _ (by decide) x hx, .inl rfl⟩
        · exact ⟨x, hx, hsymbol _ (by decide) x hx, .inr rfl⟩
      cases htaken : isIdentifier x with
      | true => exact .inl (hsame.trans htaken)
      | false => exact .inr ⟨x, hx, htaken, hform⟩
  refine ⟨hnames, fun h x hx => ?_, fun h name hname => ?_⟩
  · have hmem : variableSymbol x ∈ identifiers m.text := by
      rw [identifiers, htokens]
      exact mem_filterMap.mpr ⟨.symbol _, mem_append_left _ (mem_append_left _ (mem_flatMap.mpr
        ⟨x, hx, by simp [wordTokens]⟩)), rfl⟩
    exact (hsymbol _ (by decide) x hx).symm.trans (h _ hmem)
  · rcases hnames name hname with htaken | ⟨x, hx, hnot, -⟩
    · exact htaken
    · rw [h x hx] at hnot
      cases hnot

end Module

end Qbe

/-- In the text of a program that is generated from a source text, every name behind a sigil
consists of ASCII letters, digits, `_` and `.` and begins with no digit, unless it is a symbol of a
variable whose name is not of this form. So all names are of this form exactly if those of the
declared variables are. -/
theorem emitQbe_identifiers (settings : Settings) (file : Int) (source : List Char) (root : Tree)
    (state : LowerState) (program : Program)
    (hsource : Tree.ofSource settings file source = .ok root)
    (hgenerate : (generate settings state root).outcome = .ok program) :
    ∃ text, emitQbe program = .ok text ∧
      (∀ name ∈ Il.identifiers text, Il.isIdentifier name = true ∨
        ∃ x ∈ program.globals.map Prod.fst,
        Il.isIdentifier x = false ∧ (name = "v_" ++ x ∨ name = "fmt_" ++ x)) ∧
      ((∀ name ∈ Il.identifiers text, Il.isIdentifier name = true) ↔
        ∀ x ∈ program.globals.map Prod.fst, Il.isIdentifier x = true) := by
  obtain ⟨m, hemit, hglobals, hnames, -, -, hlines⟩ := Qbe.exists_module hsource hgenerate
  rw [← hglobals]
  exact ⟨m.text, hemit, Qbe.Module.identifiers_text hnames hlines⟩

/-- A source text whose variable has a name of ASCII characters. -/
def plainSource : List Char := "num x_1; x_1 = x_1 + 1;".toList

/-- All names in the text of its program are taken. -/
theorem emitQbe_plainSource : ∃ root program text, Tree.ofSource {} 0 plainSource = .ok root ∧
    (generate {} {} root).outcome = .ok program ∧ emitQbe program = .ok text ∧
    ∀ name ∈ Il.identifiers text, Il.isIdentifier name = true := by
  have hfound : (generatedBy? {} plainSource).map (fun p => p.globals.map Prod.fst) =
    some ["x_1"] := by decide +kernel
  obtain ⟨program, hprogram, hglobals⟩ := Option.map_eq_some_iff.mp hfound
  obtain ⟨root, hsource, hgenerate⟩ := exists_of_generatedBy? hprogram
  obtain ⟨text, hemit, -, hall⟩ :=
    emitQbe_identifiers {} 0 plainSource root {} program hsource hgenerate
  refine ⟨root, program, text, hsource, hgenerate, hemit, hall.mpr ?_⟩
  rw [hglobals]
  decide

/-- A source text whose variable has a name with a letter outside of ASCII. -/
def accentedSource : List Char := "num é;".toList

/-- The letter stands in a name of the text, and QBE does not take it. -/
theorem emitQbe_accentedSource : ∃ root program text, Tree.ofSource {} 0 accentedSource = .ok root ∧
    (generate {} {} root).outcome = .ok program ∧ emitQbe program = .ok text ∧
    "v_é" ∈ Il.identifiers text ∧ Il.isIdentifier "v_é" = false := by
  have hfound : ((generatedBy? {} accentedSource).map fun p =>
      (emitQbe p).toOption.map Il.identifiers) =
      some (some ["v_é", "fmt_é", "main", "start", ".1", "v_é", "printf", "fmt_é", ".1"]) :=
      by decide +kernel
  obtain ⟨program, hprogram, htext⟩ := Option.map_eq_some_iff.mp hfound
  obtain ⟨root, hsource, hgenerate⟩ := exists_of_generatedBy? hprogram
  obtain ⟨text, hemit, hidentifiers⟩ := ok_of_toOption_map htext
  refine ⟨root, program, text, hsource, hgenerate, hemit, ?_, by decide⟩
  rw [hidentifiers]
  decide

end ThreeAddress
