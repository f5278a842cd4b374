import ThreeAddress.Proofs.Qbe.Language
import ThreeAddress.Qbe.Module

/-!
# Reading the text of a module

The text of a QBE module, read as the intermediate language, is the module of the same lines in
which blocks and temporaries go by their names (`Qbe.Module.il`).

`Spells tokens text` says that a piece of text is read as tokens, whatever follows it, and `Words
token text` that it is read as one token where a sign or a blank follows. `Reads items text` says
the same of whole lines and the items they contribute. They are put together piece by piece, line by
line.
-/

namespace ThreeAddress

open List

/-! ## Numerals -/

namespace Text

/-- Digits are read as the number they stand for, if it fits. -/
lemma readDigits_eq {cs} (hcs : ∀ c ∈ cs, c.isDigit = true) (acc : Nat)
    (hfits : Nat.ofDigitChars 10 cs acc < UInt64.size) :
    readDigits acc cs = .ok (Nat.ofDigitChars 10 cs acc) := by
  induction cs generalizing acc with
  | nil => rfl
  | cons c cs ih =>
    obtain ⟨hc, hrest⟩ := forall_mem_cons.mp hcs
    rw [Nat.ofDigitChars_cons] at hfits ⊢
    have hnext : 10 * acc + (c.toNat - '0'.toNat) < UInt64.size := by
      rw [Nat.ofDigitChars_eq_ofDigitChars_zero] at hfits
      have hpow : 0 < 10 ^ cs.length := Nat.pow_pos (by decide)
      have hmul := Nat.le_mul_of_pos_left (10 * acc + (c.toNat - '0'.toNat)) hpow
      omega
    rw [readDigits, if_pos hc, if_pos hnext]
    exact ih hrest _ hfits

/-- The decimal digits of a number are read as the number. -/
lemma readNatural_toDigits {n} (hn : n < UInt64.size) :
    readNatural (Nat.toDigits 10 n) = .ok n := by
  have hval : Nat.ofDigitChars 10 (Nat.toDigits 10 n) 0 = n :=
    Nat.ofDigitChars_toDigits (by decide) (by decide)
  have hdigits : ∀ c ∈ Nat.toDigits 10 n, c.isDigit = true := fun c hc =>
    Nat.isDigit_of_mem_toDigits (by decide) (by decide) hc
  have hread := readDigits_eq hdigits 0 (hval.symm ▸ hn)
  rw [hval] at hread
  cases hcs : Nat.toDigits 10 n with
  | nil => exact absurd hcs Nat.toDigits_ne_nil
  | cons c cs =>
    rwa [hcs] at hread

/-- The digits of a number do not begin with a sign. -/
lemma head?_toDigits_ne {n c} (hc : c.isDigit = false) : (Nat.toDigits 10 n).head? ≠ some c := by
  intro hhead
  have hdigit := Nat.isDigit_of_mem_toDigits (by decide) (by decide) (mem_of_head? hhead)
  rw [hc] at hdigit
  cases hdigit

/-- The digits of a number are read as a word. -/
lemma readInt64_repr {n} (hn : n < signedBound) : readInt64 (Nat.repr n) = .ok (Int64.ofNat n) := by
  have hsize : UInt64.size = 2 * signedBound := rfl
  have hminus : (Nat.toDigits 10 n).head? ≠ some '-' := head?_toDigits_ne (by decide)
  have hplus : (Nat.toDigits 10 n).head? ≠ some '+' := head?_toDigits_ne (by decide)
  have hread : readNatural (Nat.toDigits 10 n) = .ok n := readNatural_toDigits (by omega)
  rw [readInt64, Nat.toList_repr]
  split
  · rename_i cs hcs
    exact absurd (by rw [hcs]; rfl) hminus
  · rw [if_neg hplus, hread]
    exact if_pos hn

/-- The digits of a number after a minus sign are read as a word. -/
lemma readInt64_minus_repr {n} (hn : n ≤ signedBound) :
    readInt64 ("-" ++ Nat.repr n) = .ok (Int64.ofInt (-(n : Int))) := by
  have hsize : UInt64.size = 2 * signedBound := rfl
  have hpos : 0 < signedBound := by decide
  have hread : readNatural (Nat.toDigits 10 n) = .ok n := readNatural_toDigits (by omega)
  have hlist : ("-" ++ Nat.repr n).toList = '-' :: Nat.toDigits 10 n := by
    rw [String.toList_append, Nat.toList_repr]
    rfl
  rw [readInt64, hlist]
  simp only [hread]
  exact if_pos hn

/-- A word in decimal is read as the word. -/
lemma readInt64_toString (w : Int64) : readInt64 (toString w.toInt) = .ok w := by
  have hupper := w.toInt_lt
  have hlower := w.le_toInt
  have hw := w.ofInt_toInt
  cases hn : w.toInt with
  | ofNat n =>
    rw [hn] at hupper hw
    have hn : n < signedBound := by
      have hlt : (n : Int) < 2 ^ 63 := hupper
      rw [signedBound]
      omega
    exact (readInt64_repr hn).trans (congrArg Except.ok hw)
  | negSucc n =>
    rw [hn] at hlower hw
    have hn : n + 1 ≤ signedBound := by
      rw [signedBound]
      omega
    exact (readInt64_minus_repr hn).trans (congrArg Except.ok hw)

end Text

/-! ## Names of blocks and temporaries -/

namespace Qbe

def Block.name : Block → String
  | start => "start"
  | marked id => "L" ++ toString id
  | through n => "ft" ++ toString n
  | dead n => "dead" ++ toString n
  | exit => "exit"

def Register.name : Register → String
  | temp id => "t" ++ toString id
  | scratch n => "." ++ toString n

/-- The value that a value stands for in the language. -/
def Value.il : Value → Il.Value
  | const w => .const w
  | register r => .temp r.name

/-- The symbol of the data word of a variable. -/
def variableSymbol (name : String) : String := "v_" ++ name

def formatSymbol (name : String) : String := "fmt_" ++ name

/-- The line that a line stands for in the language. -/
def Line.il : Line → Il.Line
  | block b => .label b.name
  | load n x => .load (Register.scratch n).name (variableSymbol x)
  | store n x => .store (.temp (Register.scratch n).name) (variableSymbol x)
  | compute dst op args => .compute dst.name op (args.map Value.il)
  | compare n op left right => .compare (Register.scratch n).name op left.il right.il
  | jump b => .jump b.name
  | branch n t f => .branch (.temp (Register.scratch n).name) t.name f.name
  | print x n => .print (formatSymbol x) (.temp (Register.scratch n).name)
  | ret => .ret (.const 0)

/-- The module that a module stands for in the language. -/
def Module.il (m : Module) : Il.Module where
  data := m.globals.map (fun x => (variableSymbol x, .word 0)) ++
    m.globals.map fun x => (formatSymbol x, .text (formatOf x))
  body := m.lines.map Line.il

lemma toString_int_inj {a b : Int} (h : toString a = toString b) : a = b := by
  have hsign : ∀ m n : Nat, Nat.repr m ≠ "-" ++ Nat.repr n := by
    intro m n heq
    have hlist := congrArg String.toList heq
    rw [Nat.toList_repr, String.toList_append] at hlist
    exact Text.head?_toDigits_ne (show '-'.isDigit = false by decide) (by rw [hlist]; rfl)
  cases a with
  | ofNat m =>
    cases b with
    | ofNat n => exact congrArg Int.ofNat (Nat.repr_inj.mp h)
    | negSucc n => exact absurd h (hsign m (n + 1))
  | negSucc m =>
    cases b with
    | ofNat n => exact absurd h.symm (hsign n (m + 1))
    | negSucc n =>
      have hsucc : m + 1 = n + 1 := Nat.repr_inj.mp ((String.append_right_inj _).mp h)
      exact congrArg Int.negSucc (Nat.succ.inj hsucc)

lemma Block.name_inj {b b' : Block} (h : b.name = b'.name) : b = b' := by
  have hhead : b.name.toList.head? = b'.name.toList.head? := by rw [h]
  cases b with
  | start | exit => cases b' <;> first | rfl | simp [Block.name] at hhead
  | marked id =>
    cases b' with
    | marked id' => exact congrArg _ (toString_int_inj ((String.append_right_inj _).mp h))
    | _ => simp [Block.name] at hhead
  | through n =>
    cases b' with
    | through n' => exact congrArg _ (Nat.repr_inj.mp ((String.append_right_inj _).mp h))
    | _ => simp [Block.name] at hhead
  | dead n =>
    cases b' with
    | dead n' => exact congrArg _ (Nat.repr_inj.mp ((String.append_right_inj _).mp h))
    | _ => simp [Block.name] at hhead

lemma Register.name_inj {r r' : Register} (h : r.name = r'.name) : r = r' := by
  have hhead : r.name.toList.head? = r'.name.toList.head? := by rw [h]
  cases r with
  | temp id =>
    cases r' with
    | temp id' => exact congrArg _ (toString_int_inj ((String.append_right_inj _).mp h))
    | scratch n => simp [Register.name] at hhead
  | scratch n =>
    cases r' with
    | temp id => simp [Register.name] at hhead
    | scratch n' => exact congrArg _ (Nat.repr_inj.mp ((String.append_right_inj _).mp h))

lemma Block.toList_text (b : Block) : b.text.toList = '@' :: b.name.toList := by
  cases b <;> simp [Block.text, Block.name]

lemma Register.toList_text (r : Register) : r.text.toList = '%' :: r.name.toList := by
  cases r <;> simp [Register.text, Register.name, scratchText]

end Qbe

/-! ## Tokens -/

namespace Il

/-- A piece of text is read as tokens, whatever follows it. -/
def Spells (tokens : List Token) (text : String) : Prop :=
  ∀ rest, lexFrom .between (text.toList ++ rest) = tokens ++ lexFrom .between rest

/-- A piece of text is read as the beginning of a word, which makes a token if nothing else belongs
to it. -/
def Words (token : Token) (text : String) : Prop :=
  ∃ before, Token.ofWord before.reverse = token ∧
    ∀ rest, lexFrom .between (text.toList ++ rest) = lexFrom (.word before) rest

/-- All characters of a text can stand in a word. -/
def IsWord (text : List Char) : Prop := ∀ c ∈ text, separator? c = none

instance (text : List Char) : Decidable (IsWord text) :=
  List.decidableBAll (fun c => separator? c = none) text

section Spelling

variable {token : Token} {tokens tokens' : List Token} {text text' name : String} {c : Char}

lemma Spells.append (h : Spells tokens text) (h' : Spells tokens' text') :
    Spells (tokens ++ tokens') (text ++ text') := by
  intro rest
  rw [String.toList_append, append_assoc, append_assoc, h, h']

/-- A word that is followed by a sign or a blank. -/
lemma Words.spells (h : Words token text) (h' : Spells tokens text')
    (hend : text'.toList.head?.any (fun c => (separator? c).isSome) = true := by decide) :
    Spells (token :: tokens) (text ++ text') := by
  intro rest
  obtain ⟨before, rfl, hword⟩ := h
  rw [String.toList_append, append_assoc, hword, cons_append, ← h']
  cases htext : text'.toList with
  | nil =>
    rw [htext] at hend
    cases hend
  | cons c cs =>
    rw [htext] at hend
    obtain ⟨after, hc⟩ := Option.isSome_iff_exists.mp hend
    rw [cons_append, lexFrom, lexFrom]
    simp only [hc]

/-- A word between two pieces of text. -/
lemma Spells.word (h : Spells tokens text) (hname : Words token name) (h' : Spells tokens' text')
    (hend : text'.toList.head?.any (fun c => (separator? c).isSome) = true := by decide) :
    Spells (tokens ++ token :: tokens') (text ++ name ++ text') := by
  rw [String.append_assoc]
  exact h.append (hname.spells h' hend)

/-- Several pieces of text are read as the tokens of each. -/
lemma spells_join {α : Type} {text : α → String} {tokens : α → List Token} {xs : List α}
    (h : ∀ x ∈ xs, Spells (tokens x) (text x)) :
    Spells (xs.flatMap tokens) (.join (xs.map text)) := by
  induction xs with
  | nil => exact fun rest => rfl
  | cons x xs ih =>
    obtain ⟨hx, hxs⟩ := forall_mem_cons.mp h
    rw [map_cons, String.join_cons]
    exact hx.append (ih hxs)

/-- The characters of a word are collected. -/
lemma lexFrom_word {cs} (hcs : IsWord cs) (before rest : List Char) :
    lexFrom (.word before) (cs ++ rest) = lexFrom (.word (cs.reverse ++ before)) rest := by
  induction cs generalizing before with
  | nil => rfl
  | cons c cs ih =>
    obtain ⟨hc, hcs⟩ := forall_mem_cons.mp hcs
    rw [cons_append, lexFrom]
    simp only [hc]
    rw [ih hcs, reverse_cons, append_assoc]
    rfl

lemma words_of_toList {cs} (htext : text.toList = c :: cs) (hword : IsWord (c :: cs))
    (hquote : c ≠ '"') :
    Words (.ofWord (c :: cs)) text := by
  obtain ⟨hc, hcs⟩ := forall_mem_cons.mp hword
  refine ⟨cs.reverse ++ [c], by simp, fun rest => ?_⟩
  rw [htext, cons_append, lexFrom]
  simp only [hc, if_neg hquote]
  exact lexFrom_word hcs [c] rest

/-- A name behind its sigil. -/
lemma words_name {make : String → Token} (htext : text.toList = c :: name.toList)
    (hname : IsWord name.toList) (hmake : ∀ cs, Token.ofWord (c :: cs) = make (.ofList cs))
    (hc : separator? c = none ∧ c ≠ '"' := by decide) :
    Words (make name) text := by
  have hword := words_of_toList htext (forall_mem_cons.mpr ⟨hc.1, hname⟩) hc.2
  rwa [hmake, String.ofList_toList] at hword

/-- Characters of a kind to which no sign and no blank belongs can stand in a word. -/
lemma separator?_eq_none {p : Char → Bool} (hp : p c = true)
    (hseparators : [' ', '\t', '\n', '=', ',', '(', ')', '{', '}'].all (fun d => !p d) = true) :
    separator? c = none := by
  have hne : ∀ d ∈ [' ', '\t', '\n', '=', ',', '(', ')', '{', '}'], c ≠ d := by
    rintro d hd rfl
    have hc := all_eq_true.mp hseparators c hd
    rw [hp] at hc
    cases hc
  simp [separator?, hne]

lemma IsWord.of_isName (h : Text.IsName name) : IsWord name.toList := fun c hc =>
  separator?_eq_none (h.isWordChar c hc) (by decide)

/-- A character of a number in decimal. -/
def isNumeric (c : Char) : Bool := c.isDigit || c == '-'

/-- A number in decimal consists of digits and perhaps a minus sign. -/
lemma toList_toString (n : Int) : ∃ d ds, (toString n).toList = d :: ds ∧
    ∀ c ∈ d :: ds, isNumeric c = true := by
  have hdigits : ∀ n, ∀ c ∈ Nat.toDigits 10 n, isNumeric c = true := fun n c hc => by
    rw [isNumeric, Nat.isDigit_of_mem_toDigits (by decide) (by decide) hc, Bool.true_or]
  cases n with
  | ofNat n =>
    obtain ⟨d, ds, hds⟩ := exists_cons_of_ne_nil (Nat.toDigits_ne_nil (n := n) (b := 10))
    refine ⟨d, ds, Nat.toList_repr.trans hds, ?_⟩
    rw [← hds]
    exact hdigits n
  | negSucc n =>
    refine ⟨'-', Nat.toDigits 10 (n + 1), ?_, forall_mem_cons.mpr ⟨rfl, hdigits _⟩⟩
    show ("-" ++ Nat.repr (n + 1)).toList = _
    rw [String.toList_append, Nat.toList_repr]
    rfl

lemma isWord_toString (n : Int) : IsWord (toString n).toList := by
  obtain ⟨d, ds, htext, hds⟩ := toList_toString n
  rw [htext]
  exact fun c hc => separator?_eq_none (hds c hc) (by decide)

lemma isWord_toString_nat (n : Nat) : IsWord (toString n).toList := isWord_toString n

lemma IsWord.append {name'} (h : IsWord name.toList) (h' : IsWord name'.toList) :
    IsWord (name ++ name').toList := by
  rw [String.toList_append]
  exact forall_mem_append.mpr ⟨h, h'⟩

/-- A number in decimal is no keyword. -/
lemma lookup_keywords_eq_none {d ds} (hd : isNumeric d = true) :
    keywords.lookup (.ofList (d :: ds)) = none := by
  have hkeywords : keywords.all (fun k => k.1.toList.all fun c => !isNumeric c) = true := by decide
  refine lookup_eq_none_iff.mpr fun k hk => bne_iff_ne.mpr fun heq => ?_
  have hmem : d ∈ k.1.toList := by
    rw [← heq, String.toList_ofList]
    exact mem_cons_self
  have hnot := all_eq_true.mp (all_eq_true.mp hkeywords k hk) d hmem
  rw [hd] at hnot
  cases hnot

lemma words_number (w : Int64) : Words (.number w) (toString w.toInt) := by
  obtain ⟨d, ds, htext, hds⟩ := toList_toString w.toInt
  have hd := (forall_mem_cons.mp hds).1
  have hother : ∀ s, isNumeric s = false → d ≠ s := by
    rintro s hs rfl
    rw [hd] at hs
    cases hs
  have hword : Token.ofWord (d :: ds) = .number w := by
    unfold Token.ofWord
    split
    · rename_i heq
      exact absurd (cons.inj heq).1 (hother '%' (by decide))
    · rename_i heq
      exact absurd (cons.inj heq).1 (hother '$' (by decide))
    · rename_i heq
      exact absurd (cons.inj heq).1 (hother '@' (by decide))
    · rw [lookup_keywords_eq_none hd, ← htext, String.ofList_toList, Text.readInt64_toString]
  rw [← hword]
  exact words_of_toList htext (fun c hc => separator?_eq_none (hds c hc) (by decide))
    (hother '"' (by decide))

/-- A character that is printable, or the end of a line, is read back in a quoted text. -/
lemma lexFrom_escape (hc : Text.isPrintable c = true ∨ c = '\n') (before rest : List Char) :
    lexFrom (.quoted before) (Text.escape c ++ rest) = lexFrom (.quoted (c :: before)) rest := by
  by_cases hquote : c = '"'
  · subst hquote
    rfl
  · by_cases hslash : c = '\\'
    · subst hslash
      rfl
    · rcases hc with hc | rfl
      · have hescape : Text.escape c = [c] := by simp [Text.escape, hquote, hslash, hc]
        rw [hescape, singleton_append, lexFrom, if_neg hquote, if_neg hslash]
      · rfl

/-- The characters of a quoted text are read back. -/
lemma lexFrom_escapes {cs : List Char} (hcs : ∀ c ∈ cs, Text.isPrintable c = true ∨ c = '\n')
    (before rest : List Char) :
    lexFrom (.quoted before) (cs.flatMap Text.escape ++ rest) =
    lexFrom (.quoted (cs.reverse ++ before)) rest := by
  induction cs generalizing before with
  | nil => rfl
  | cons c cs ih =>
    obtain ⟨hc, hcs⟩ := forall_mem_cons.mp hcs
    rw [flatMap_cons, append_assoc, lexFrom_escape hc, ih hcs, reverse_cons, append_assoc]
    rfl

lemma spells_quote (hname : ∀ c ∈ name.toList, Text.isPrintable c = true ∨ c = '\n') :
    Spells [.quoted name] (Text.quote name) := by
  intro rest
  rw [Text.quote, String.toList_ofList, cons_append, cons_append, append_assoc]
  show lexFrom (.quoted []) _ = _
  rw [lexFrom_escapes hname, append_nil]
  show Token.quoted (.ofList name.toList.reverse.reverse) :: _ = _
  rw [reverse_reverse, String.ofList_toList]
  rfl

end Spelling

/-- Whole lines of text contribute items to a module, whatever follows them. -/
def Reads (items : List Item) (text : String) : Prop :=
  ∀ rest, itemsFrom [] (lexFrom .between (text.toList ++ rest)) =
    (itemsFrom [] (lexFrom .between rest)).map (items ++ ·)

section Items

variable {items items' : List Item} {tokens : List Token} {text text' : String}

lemma Reads.append (h : Reads items text) (h' : Reads items' text') :
    Reads (items ++ items') (text ++ text') := by
  intro rest
  rw [String.toList_append, append_assoc, h, h', Option.map_map]
  congr 1
  funext more
  simp

/-- Several lines contribute their items. -/
lemma reads_join {α : Type} {line : α → String} {item : α → Item} {xs : List α}
    (h : ∀ x ∈ xs, Reads [item x] (line x)) : Reads (xs.map item) (.join (xs.map line)) := by
  induction xs with
  | nil =>
    intro rest
    simp
  | cons x xs ih =>
    obtain ⟨hx, hxs⟩ := forall_mem_cons.mp h
    rw [map_cons, map_cons, String.join_cons]
    exact hx.append (ih hxs)

/-- The tokens of a line are collected up to its end. -/
lemma itemsFrom_line (htokens : .sign '\n' ∉ tokens) (hitems : Item.ofTokens? tokens = some items)
    (rest : List Token) :
    itemsFrom [] (tokens ++ .sign '\n' :: rest) = (itemsFrom [] rest).map (items ++ ·) := by
  have hcollect : ∀ before, itemsFrom before (tokens ++ .sign '\n' :: rest) =
      itemsFrom (tokens.reverse ++ before) (.sign '\n' :: rest) := by
    clear hitems
    induction tokens with
    | nil => exact fun before => rfl
    | cons t ts ih =>
      intro before
      rw [mem_cons, not_or] at htokens
      obtain ⟨ht, hts⟩ := htokens
      rw [cons_append, itemsFrom.eq_3 before t _ (fun h => ht h.symm), ih hts,
        reverse_cons, append_assoc]
      rfl
  rw [hcollect, append_nil, itemsFrom, reverse_reverse, hitems]
  cases itemsFrom [] rest with
  | none | some => rfl

/-- A line that is read as tokens contributes their item. -/
lemma Spells.reads (h : Spells (tokens ++ [.sign '\n']) text) (htokens : .sign '\n' ∉ tokens)
    (hitems : Item.ofTokens? tokens = some items) : Reads items text := by
  intro rest
  rw [h, append_assoc, singleton_append, itemsFrom_line htokens hitems]

end Items

end Il

/-! ## Lines -/

namespace Qbe

open Il

def Value.token : Value → Il.Token
  | const w => .number w
  | register r => .temp r.name

def Line.tokens : Line → List Il.Token
  | block b => [.label b.name]
  | load n x => [.temp (Register.scratch n).name, .sign '=', .keyword .long, .keyword .loadl,
      .symbol (variableSymbol x)]
  | store n x => [.keyword .storel, .temp (Register.scratch n).name, .sign ',',
      .symbol (variableSymbol x)]
  | compute dst op args => .temp dst.name :: .sign '=' :: .keyword .long ::
      .keyword (.operation op) :: (args.map Value.token).intersperse (.sign ',')
  | compare n op left right => [.temp (Register.scratch n).name, .sign '=', .keyword .word,
      .keyword (.operation op), left.token, .sign ',', right.token]
  | jump b => [.keyword .jmp, .label b.name]
  | branch n t f => [.keyword .jnz, .temp (Register.scratch n).name, .sign ',',
      .label t.name, .sign ',', .label f.name]
  | print x n => [.keyword .call, .symbol "printf", .sign '(', .keyword .long,
      .symbol (formatSymbol x), .sign ',', .keyword .dots, .sign ',', .keyword .long,
      .temp (Register.scratch n).name, .sign ')']
  | ret => [.keyword .ret, .number 0]

/-- A line can be read: its variable is a name, and its operation fits its form. -/
def Line.Legible : Line → Prop
  | load _ x | store _ x | print x _ => Text.IsName x
  | compute _ op args =>
    ((op = .copy ∨ op = .neg) ∧ ∃ v, args = [v]) ∨ (op.isBinary = true ∧ ∃ v w, args = [v, w])
  | compare _ op _ _ => op.isRelation = true
  | block _ | jump _ | branch _ _ _ | ret => True

lemma Block.isWord_name (b : Block) : IsWord b.name.toList := by
  cases b with
  | start | exit => decide
  | marked id => exact IsWord.append (by decide) (isWord_toString id)
  | through n | dead n => exact IsWord.append (by decide) (isWord_toString_nat n)

lemma Register.isWord_name (r : Register) : IsWord r.name.toList := by
  cases r with
  | temp id => exact IsWord.append (by decide) (isWord_toString id)
  | scratch n => exact IsWord.append (by decide) (isWord_toString_nat n)

section Lines

variable {x : String}

lemma Block.words (b : Block) : Words (.label b.name) b.text :=
    words_name b.toList_text b.isWord_name fun _ => rfl

lemma Register.words (r : Register) : Words (.temp r.name) r.text :=
  words_name r.toList_text r.isWord_name fun _ => rfl

lemma Value.words (v : Value) : Words v.token v.text := by
  cases v with
  | const w => exact words_number w
  | register r => exact r.words

/-- The data word of a variable. -/
lemma words_variable (hx : Text.IsName x) : Words (.symbol (variableSymbol x)) (variableText x) :=
  words_name (c := '$') (by simp [variableText, variableSymbol])
    (IsWord.append (by decide) (.of_isName hx)) fun _ => rfl

/-- The format of a variable. -/
lemma words_format (hx : Text.IsName x) : Words (.symbol (formatSymbol x)) (formatText x) :=
  words_name (c := '$') (by simp [formatText, formatSymbol])
    (IsWord.append (by decide) (.of_isName hx)) fun _ => rfl

/-- The name of an operation. -/
lemma words_mnemonic {op} (hop : op = .copy ∨ op = .neg ∨ op.isBinary = true ∨
      op.isRelation = true) : Words (.keyword (.operation op)) (mnemonic op) := by
  cases op with
  | copy | neg | add | sub | mul | div | rem | eq | ne | lt | gt | le | ge =>
      exact ⟨_, rfl, fun rest => rfl⟩
  | _ => simp [Opcode.isBinary, Opcode.isRelation] at hop

/-- A line is read as its tokens. -/
lemma Line.spells {l : Line} (hl : l.Legible) : Spells (l.tokens ++ [.sign '\n']) l.text := by
  have htab : Spells [] "\t" := fun rest => rfl
  have hblank : Spells [] " " := fun rest => rfl
  have hcomma : Spells [.sign ','] ", " := fun rest => rfl
  have hend : Spells [.sign '\n'] "\n" := fun rest => rfl
  cases l with
  | block b => exact b.words.spells hend
  | load n x =>
    have hload : Spells [.sign '=', .keyword .long, .keyword .loadl] " =l loadl " := fun rest => rfl
    exact (htab.word (Register.scratch n).words hload).word (words_variable hl) hend
  | store n x =>
    have hstore : Spells [.keyword .storel] "\tstorel " := fun rest => rfl
    exact (hstore.word (Register.scratch n).words hcomma).word (words_variable hl) hend
  | compute dst op args =>
    have hclass : Spells [.sign '=', .keyword .long] " =l " := fun rest => rfl
    have hop : op = .copy ∨ op = .neg ∨ op.isBinary = true ∨ op.isRelation = true := by
      rcases hl with ⟨rfl | rfl, -⟩ | ⟨hbinary, -⟩ <;> simp_all
    have hfront := (htab.word dst.words hclass).word (words_mnemonic hop) hblank
    rcases hl with ⟨-, v, rfl⟩ | ⟨-, v, w, rfl⟩
    · exact hfront.word v.words hend
    · have htext : (Line.compute dst op [v, w]).text = "\t" ++ dst.text ++ " =l " ++
          mnemonic op ++ " " ++ (v.text ++ ", " ++ w.text ++ "\n") := String.append_assoc
      rw [htext]
      exact hfront.append ((v.words.spells hcomma).word w.words hend)
  | compare n op left right =>
    have hclass : Spells [.sign '=', .keyword .word] " =w " := fun rest => rfl
    have hfront := (htab.word (Register.scratch n).words hclass).word
      (words_mnemonic (.inr (.inr (.inr hl)))) hblank
    exact (hfront.word left.words hcomma).word right.words hend
  | jump b =>
    have hjump : Spells [.keyword .jmp] "\tjmp " := fun rest => rfl
    exact hjump.word b.words hend
  | branch n t f =>
    have hbranch : Spells [.keyword .jnz] "\tjnz " := fun rest => rfl
    exact ((hbranch.word (Register.scratch n).words hcomma).word t.words hcomma).word f.words hend
  | print x n =>
    have hcall : Spells [.keyword .call, .symbol "printf", .sign '(', .keyword .long]
      "\tcall $printf(l " :=
      fun rest => rfl
    have hdots : Spells [.sign ',', .keyword .dots, .sign ',', .keyword .long] ", ..., l " :=
      fun rest => rfl
    have hclose : Spells [.sign ')', .sign '\n'] ")\n" := fun rest => rfl
    exact (hcall.word (words_format hl) hdots).word (Register.scratch n).words hclose
  | ret => exact fun rest => rfl

/-- The tokens of a line hold no end of a line. -/
lemma Line.newline_notMem_tokens {l : Line} (hl : l.Legible) : .sign '\n' ∉ l.tokens := by
  have hval : ∀ v : Value, Token.sign '\n' ≠ v.token := by
    intro v
    cases v with
    | const | register => exact nofun
  cases l with
  | compute dst op args =>
    rcases hl with ⟨-, v, rfl⟩ | ⟨-, v, w, rfl⟩ <;> simp [Line.tokens, hval]
  | compare n op left right => simp [Line.tokens, hval]
  | _ => simp [Line.tokens]

/-- The tokens of a line make its item. -/
lemma Line.ofTokens?_tokens {l : Line} (hl : l.Legible) :
    Item.ofTokens? l.tokens = some [.line l.il] := by
  cases l with
  | compute dst op args =>
    rcases hl with ⟨-, v, rfl⟩ | ⟨-, v, w, rfl⟩
    · cases v with
      | const | register => rfl
    · cases v with
      | const | register => cases w <;> rfl
  | compare n op left right =>
    cases left with
    | const | register => cases right <;> rfl
  | _ => rfl

lemma Line.reads {l : Line} (hl : l.Legible) : Reads [.line l.il] l.text :=
  (Line.spells hl).reads (Line.newline_notMem_tokens hl) (Line.ofTokens?_tokens hl)

/-- The tokens of the data word of a variable. -/
def Module.wordTokens (x : String) : List Il.Token :=
  [.keyword .data, .symbol (variableSymbol x), .sign '=', .sign '{', .keyword .long,
    .number 0, .sign '}']

def Module.formatTokens (x : String) : List Il.Token :=
  [.keyword .data, .symbol (formatSymbol x), .sign '=', .sign '{', .keyword .byte,
    .quoted (formatOf x), .sign ',', .keyword .byte, .number 0, .sign '}']

/-- The data word of a variable is read as its tokens. -/
lemma Module.wordText_spells (hx : Text.IsName x) :
    Spells (wordTokens x ++ [.sign '\n']) (wordText x) := by
  have hdata : Spells [.keyword .data] "data " := fun rest => rfl
  have hword : Spells [.sign '=', .sign '{', .keyword .long, .number 0, .sign '}', .sign '\n']
      " = \x7b l 0 \x7d\n" := fun rest => rfl
  exact hdata.word (words_variable hx) hword

lemma Module.wordText_reads (hx : Text.IsName x) :
    Reads [.data (variableSymbol x) (.word 0)] (wordText x) :=
  (wordText_spells hx).reads (by simp [wordTokens]) rfl

/-- The format of a variable is read as its tokens. -/
lemma Module.formatDataText_spells (hx : Text.IsName x) :
    Spells (formatTokens x ++ [.sign '\n']) (formatDataText x) := by
  have hdata : Spells [.keyword .data] "data " := fun rest => rfl
  have hopen : Spells [.sign '=', .sign '{', .keyword .byte] " = \x7b b " := fun rest => rfl
  have hquoted : Spells [.quoted (formatOf x)] (Text.quote (x ++ " = %ld\n")) := by
    apply spells_quote
    intro c hc
    rw [formatOf, String.toList_append, mem_append] at hc
    rcases hc with hc | hc
    · exact .inl (Text.isPrintable_of_isWordChar (hx.isWordChar c hc))
    · have hall : " = %ld\n".toList.all (fun c => Text.isPrintable c || c == '\n') =
        true := by decide
      simpa using all_eq_true.mp hall c hc
  have hclose : Spells [.sign ',', .keyword .byte, .number 0, .sign '}', .sign '\n']
      ", b 0 \x7d\n" :=
    fun rest => rfl
  exact ((hdata.word (words_format hx) hopen).append hquoted).append hclose

lemma Module.formatDataText_reads (hx : Text.IsName x) :
    Reads [.data (formatSymbol x) (.text (formatOf x))] (formatDataText x) :=
  (formatDataText_spells hx).reads (by simp [formatTokens]) rfl

end Lines

/-! ## Modules -/

namespace Module

variable {m : Module}

/-- The items of a module. -/
def items (m : Module) : List Item :=
  m.globals.map (fun x => .data (variableSymbol x) (.word 0)) ++
    m.globals.map (fun x => .data (formatSymbol x) (.text (formatOf x))) ++
      (.opening :: (m.lines.map fun l => .line l.il) ++ [.closing])

/-- A text is read as the items of its module. -/
lemma text_reads (hglobals : ∀ x ∈ m.globals, Text.IsName x) (hlines : ∀ l ∈ m.lines, l.Legible) :
    Reads m.items m.text := by
  have hwords := reads_join fun x hx => wordText_reads (hglobals x hx)
  have hformats := reads_join fun x hx => formatDataText_reads (hglobals x hx)
  have hbody := reads_join fun l hl => Line.reads (hlines l hl)
  have hempty : Spells ([] ++ [.sign '\n']) "\n" := fun rest => rfl
  have hheader : Spells ([.keyword .exported, .keyword .function, .keyword .word,
    .symbol "main", .sign '(',
      .sign ')', .sign '{'] ++ [.sign '\n']) "export function w $main() \x7b\n" := fun rest => rfl
  have hend : Spells ([.sign '}'] ++ [.sign '\n']) "\x7d\n" := fun rest => rfl
  have hopen : Reads [.opening] "\nexport function w $main() \x7b\n" :=
    (hempty.reads (by simp) rfl).append (hheader.reads (by simp) rfl)
  have hclose : Reads [.closing] "\x7d\n" := hend.reads (by simp) rfl
  have hmodule := (((hwords.append hformats).append hopen).append hbody).append hclose
  rwa [append_assoc _ _ [Item.closing], append_assoc] at hmodule

/-- The lines of a function make its body. -/
lemma bodyOf?_lines (lines : List Line) :
    bodyOf? ((lines.map fun l => .line l.il) ++ [.closing]) = some (lines.map Line.il) := by
  induction lines with
  | nil => rfl
  | cons l ls ih =>
    rw [map_cons, cons_append, bodyOf?, ih]
    rfl

/-- Data in front of a function goes into its module. -/
lemma assemble?_data {α : Type} {symbol : α → String} {data : α → Data}
    {items : List Item} {il : Il.Module} (h : assemble? items = some il) (xs : List α) :
    assemble? ((xs.map fun x => .data (symbol x) (data x)) ++ items) =
      some { il with data := (xs.map fun x => (symbol x, data x)) ++ il.data } := by
  induction xs with
  | nil => exact h
  | cons x xs ih =>
    rw [map_cons, cons_append, assemble?, ih]
    rfl

/-- A text is read as its module. -/
lemma read_text (hglobals : ∀ x ∈ m.globals, Text.IsName x) (hlines : ∀ l ∈ m.lines, l.Legible)
    (hvalid : m.il.Valid) : Il.read m.text = some m.il := by
  have hitems : itemsFrom [] (lexFrom .between m.text.toList) = some m.items := by
    have hreads := text_reads hglobals hlines []
    rw [append_nil] at hreads
    rw [hreads]
    simp [lexFrom, itemsFrom]
  have hbody : assemble? (.opening :: (m.lines.map fun l => .line l.il) ++ [.closing]) =
      some { data := [], body := m.lines.map Line.il } := by
    rw [cons_append, assemble?, bodyOf?_lines]
    rfl
  have hmodule : assemble? m.items = some m.il := by
    rw [items, append_assoc, assemble?_data (assemble?_data hbody _), append_nil]
    rfl
  unfold Il.read
  rw [hitems]
  show (assemble? m.items).bind _ = _
  rw [hmodule]
  exact if_pos hvalid

end Module

end Qbe

end ThreeAddress
