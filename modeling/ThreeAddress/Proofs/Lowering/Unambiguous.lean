import ThreeAddress.Proofs.Code.Listing
import ThreeAddress.Proofs.Lowering.Literals
import ThreeAddress.Proofs.Qbe.Reading
import ThreeAddress.Proofs.Text.Decoding

/-!
# Listings are unambiguous

A listing has no quotes, and a variable may be called `goto`. It can be read back all the same.
Lines end with newlines, and the words of a line are separated by blanks; since no operand is
written with either, the lines and words of a listing can be told from its text. The number of words
in a line tells the form of the instruction. The first character of an operand tells whether it is a
constant, and its name whether it is a variable or a temporary, as long as no variable has the name
of a temporary.

The one line that could be read in two ways is that of a negated constant, which looks like the copy
of a negative one. The code of a source text copies no negative constant, so a minus sign in front
of an operand that stands alone behind `=` is always a negation.
-/

namespace ThreeAddress

open List Lowering

/-! ## Operands -/

/-- A text without blanks and newlines. -/
def Text.IsSolid (text : String) : Prop := ∀ c ∈ text.toList, c ≠ ' ' ∧ c ≠ '\n'

lemma Text.IsSolid.append {text text'} (h : IsSolid text) (h' : IsSolid text') :
    IsSolid (text ++ text') := by
  rw [IsSolid, String.toList_append]
  exact forall_mem_append.mpr ⟨h, h'⟩

/-- Numbers are written without blanks. -/
lemma Text.isSolid_toString (n : Int) : IsSolid (toString n) := by
  obtain ⟨d, ds, htext, hds⟩ := Il.toList_toString n
  rw [IsSolid, htext]
  intro c hc
  have hnumeric := hds c hc
  constructor
  · rintro rfl
    cases hnumeric
  · rintro rfl
    cases hnumeric

lemma Text.IsName.isSolid {name} (h : IsName name) : IsSolid name := fun c hc =>
  ⟨ne_of_isWordChar (h.isWordChar c hc) (by decide),
    ne_of_isWordChar (h.isWordChar c hc) (by decide)⟩

/-- A text that the temporaries of code are numbered behind: without blanks, and with a beginning
unlike that of a number. -/
structure Text.IsTag (tag : String) : Prop where
  isSolid : IsSolid tag
  head? : ∃ c, tag.toList.head? = some c ∧ Il.isNumeric c = false

lemma Text.isTag_minted : IsTag "_t" := ⟨by simp [IsSolid], '_', rfl, by decide⟩

/-- An operand that can be read: a constant, a named variable or a temporary that is numbered behind
`tag`. -/
inductive Operand.Legible (tag : String) : Operand → Prop
  | const (w : Int64) : Operand.Legible tag (.const w)
  | global {x} (hx : Text.IsName x) : Operand.Legible tag (.global x)
  | temp (k : Nat) : Operand.Legible tag (.temp (tag ++ toString k) k)

/-- Operands of two pieces of code are legible, and no variable of the one is called like a
temporary of the other. -/
structure Operand.Told (tag : String) (V V' : Operand → Prop) : Prop where
  isTag : Text.IsTag tag
  legible {v} : V v → v.Legible tag
  legible' {v} : V' v → v.Legible tag
  apart {x id} : V (.global x) → ¬ V' (.temp x id)
  apart' {x id} : V' (.global x) → ¬ V (.temp x id)

lemma eq_of_numbered {tag : String} {j k : Nat}
    (h : tag ++ toString j = tag ++ toString k) : j = k :=
  Nat.repr_inj.mp ((String.append_right_inj tag).mp h)

namespace Operand

variable {v v' : Operand} {x : String} {id : Int}

lemma Stored.legible (hv : v.Stored names) (hnames : ∀ x ∈ names, Text.IsName x) :
    v.Legible "_t" := by
  cases hv with
  | global hx => exact .global (hnames _ hx)
  | temp k => exact .temp k

lemma Valued.legible (hv : v.Valued names) (hnames : ∀ x ∈ names, Text.IsName x) :
    v.Legible "_t" := by
  cases hv with
  | const w => exact .const w
  | stored hv => exact hv.legible hnames

/-- A character of a number in decimal is no letter. -/
lemma isLetter_of_isNumeric {c} (h : Il.isNumeric c = true) : Text.isLetter c = false := by
  have hascii : ∀ n, n < 0x80 → Il.isNumeric (Char.ofNat n) = true →
      (Char.ofNat n).isAlpha = false := by
    decide +kernel
  have hc : c.toNat < 0x80 := by
    simp only [Il.isNumeric, Bool.or_eq_true, beq_iff_eq] at h
    rcases h with h | rfl
    · have hdigit := (Char.isDigit_iff_toNat.mp h).2
      have hnine : '9'.toNat < 0x80 := by decide
      omega
    · decide
  rw [Text.isLetter, if_pos hc]
  have hchar := hascii c.toNat hc
  rw [Char.ofNat_toNat] at hchar
  exact hchar h

/-- The name of a variable does not begin like a minted temporary. -/
lemma Legible.ne_minted (h : (Operand.global x).Legible tag) :
    ¬ (Operand.temp x id).Legible "_t" := by
  cases h with
  | global hx =>
    obtain ⟨c, cs, htext, hc, -⟩ := hx
    intro htemp
    cases htemp
    rw [String.toList_append] at htext
    obtain rfl : '_' = c := (List.cons.inj htext).1
    cases hc

section Tag

variable (htag : Text.IsTag tag) (h : v.Legible tag)
include htag h

/-- A legible operand is written without blanks. -/
lemma Legible.isSolid : Text.IsSolid v.text := by
  cases h with
  | const w => exact Text.isSolid_toString _
  | global hx => exact hx.isSolid
  | temp k => exact htag.isSolid.append (Text.isSolid_toString k)

/-- The first character of an operand tells whether it is a constant. -/
lemma Legible.head?_text : ∃ c, v.text.toList.head? = some c ∧
    (Il.isNumeric c = true ↔ ∃ w, v = .const w) := by
  cases h with
  | const w =>
    obtain ⟨d, ds, htext, hds⟩ := Il.toList_toString w.toInt
    have hhead : (Operand.const w).text.toList.head? = some d :=
      by rw [Operand.text, htext, List.head?_cons]
    exact ⟨d, hhead, iff_of_true (hds d mem_cons_self) ⟨w, rfl⟩⟩
  | @global x hx =>
    obtain ⟨c, cs, htext, hc, -⟩ := hx
    have hhead : (Operand.global x).text.toList.head? = some c :=
      by rw [Operand.text, htext, List.head?_cons]
    refine ⟨c, hhead, iff_of_false (fun hnumeric => ?_) nofun⟩
    rw [isLetter_of_isNumeric hnumeric] at hc
    cases hc
  | temp k =>
    obtain ⟨c, hc, hnumeric⟩ := htag.head?
    have hhead : (Operand.temp (tag ++ toString k) k).text.toList.head? = some c := by
      rw [Operand.text, String.toList_append, List.head?_append, hc, Option.some_or]
    exact ⟨c, hhead, iff_of_false (by simp [hnumeric]) nofun⟩

/-- Legible operands are told apart by their texts, unless a variable has the name of a temporary.
-/
lemma Legible.text_inj (h' : v'.Legible tag) (hapart : ∀ x id, v = .global x → v' ≠ .temp x id)
    (hapart' : ∀ x id, v' = .global x → v ≠ .temp x id) (htext : v.text = v'.text) : v = v' := by
  have hconst : (∃ w, v = .const w) ↔ ∃ w, v' = .const w := by
    obtain ⟨c, hc, hv⟩ := h.head?_text htag
    obtain ⟨c', hc', hv'⟩ := h'.head?_text htag
    rw [htext] at hc
    cases hc.symm.trans hc'
    exact hv.symm.trans hv'
  cases h with
  | const w =>
    obtain ⟨w', rfl⟩ := hconst.mp ⟨w, rfl⟩
    exact congrArg Operand.const (Int64.toInt_inj.mp (Qbe.toString_int_inj htext))
  | global hx =>
    cases h' with
    | const w' => cases (hconst.mpr ⟨w', rfl⟩).choose_spec
    | global hx' => exact congrArg Operand.global htext
    | temp k => exact absurd (congrArg (Operand.temp · (k : Int)) htext.symm) (hapart _ _ rfl)
  | temp k =>
    cases h' with
    | const w' => cases (hconst.mpr ⟨w', rfl⟩).choose_spec
    | global hx' => exact absurd (congrArg (Operand.temp · (k : Int)) htext) (hapart' _ _ rfl)
    | temp k' => rw [eq_of_numbered htext]

/-- A minus sign begins no operand but a negative constant. -/
lemma Legible.text_ne_minus (hplain : ∀ w, v = .const w → 0 ≤ w.toInt) (text : String) :
    v.text ≠ "-" ++ text := by
  intro htext
  obtain ⟨c, hc, hv⟩ := h.head?_text htag
  have hminus : ("-" ++ text).toList.head? = some '-' := by
    rw [String.toList_append]
    rfl
  rw [htext, hminus] at hc
  cases hc
  obtain ⟨w, rfl⟩ := hv.mp (by decide)
  obtain ⟨n, hn⟩ := Int.eq_ofNat_of_zero_le (hplain w rfl)
  rw [Operand.text, hn] at htext
  have hdigits := congrArg String.toList htext
  have hrepr : (toString (n : Int)).toList = Nat.toDigits 10 n := Nat.toList_repr
  rw [hrepr] at hdigits
  exact Text.head?_toDigits_ne (show '-'.isDigit = false by decide) (by rw [hdigits, hminus])

end Tag

/-- Such operands can be told from their texts. -/
lemma Told.text_inj {V V'} (h : Told tag V V') (hv : V v) (hv' : V' v')
    (htext : v.text = v'.text) : v = v' :=
  (h.legible hv).text_inj h.isTag (h.legible' hv') (fun _ _ hx hid => h.apart (hx ▸ hv) (hid ▸ hv'))
    (fun _ _ hx hid => h.apart' (hx ▸ hv') (hid ▸ hv)) htext

/-- Minted temporaries are never called like variables. -/
lemma told_minted : Told "_t" (Legible "_t") (Legible "_t") :=
  ⟨Text.isTag_minted, id, id, Legible.ne_minted, Legible.ne_minted⟩

end Operand

/-! ## Instructions -/

/-- The sign before the operand of an operation on one operand. -/
def Opcode.sign (op : Opcode) : String := if op = .neg then "-" else ""

/-- An instruction is written with the given words. Its operands are among `V`, and its labels are
numbered behind `tag`. -/
inductive Instr.Worded (V : Operand → Prop) (tag : String) : Instr → List String → Prop
  | unary {op dst src} (hop : op = .copy ∨ op = .neg) (hdst : V dst) (hsrc : V src)
      (hplain : op = .copy → ∀ w, src = .const w → 0 ≤ w.toInt) :
      Instr.Worded V tag (.unary op dst src) [dst.text, "=", op.sign ++ src.text]
  | binary {op dst left right} (hop : op.isBinary = true) (hdst : V dst) (hleft : V left)
      (hright : V right) :
      Instr.Worded V tag (.binary op dst left right) [dst.text, "=", left.text,
        op.symbol, right.text]
  | branch {op left right} (wanted : Bool) (k : Nat) (hop : op.isRelation = true) (hleft : V left)
      (hright : V right) :
      Instr.Worded V tag (.branch wanted op left right ⟨tag ++ toString k, k⟩)
        [if wanted then "if" else "ifFalse", left.text, op.symbol, right.text, "goto",
          tag ++ toString k]
  | jump (k : Nat) : Instr.Worded V tag (.jump ⟨tag ++ toString k, k⟩) ["goto", tag ++ toString k]
  | mark (k : Nat) : Instr.Worded V tag (.mark ⟨tag ++ toString k, k⟩) [tag ++ toString k ++ ":"]

/-- Binary operations and comparisons are told apart by their symbols. -/
lemma Opcode.symbol_inj {op op' : Opcode} (h : op.isBinary || op.isRelation)
    (h' : op'.isBinary || op'.isRelation) (hsymbol : op.symbol = op'.symbol) : op = op' := by
  cases op <;> cases h <;> cases op' <;> cases h' <;> first | rfl | exact absurd hsymbol (by decide)

namespace Instr

variable {i i' : Instr} {words words' : List String}

/-- Instructions of generated code are written with words, if the variables have names and no
negative constant is copied. -/
lemma Regular.worded (h : i.Regular names) (hnames : ∀ x ∈ names, Text.IsName x)
    (hplain : i.CopiesPlain) :
    ∃ words, i.Worded (Operand.Legible "_t") "_L" words := by
  cases h with
  | unary hop hdst hsrc =>
    refine ⟨_, .unary hop (hdst.legible hnames) (hsrc.legible hnames) ?_⟩
    rintro rfl w rfl
    exact hplain _ w rfl
  | binary hop hdst hleft hright =>
    exact ⟨_, .binary hop (hdst.legible hnames) (hleft.legible hnames) (hright.legible hnames)⟩
  | branch wanted k hop hleft hright =>
    exact ⟨_, .branch wanted k hop (hleft.legible hnames) (hright.legible hnames)⟩
  | jump k => exact ⟨_, .jump k⟩
  | mark k => exact ⟨_, .mark k⟩

/-- The text of an instruction is its words with blanks between them. -/
lemma Worded.exists_text (h : i.Worded V tag' words) :
    ∃ s, i.text = .ok s ∧ s.toList = [' '].intercalate (words.map String.toList) := by
  cases h with
  | @unary op dst src hop =>
    rcases hop with rfl | rfl
    · exact ⟨dst.text ++ " = " ++ src.text, rfl, by simp [Opcode.sign, intercalate_cons_cons]⟩
    · exact ⟨dst.text ++ " = -" ++ src.text, rfl, by simp [Opcode.sign, intercalate_cons_cons]⟩
  | @binary op dst left right hop =>
    refine ⟨dst.text ++ " = " ++ left.text ++ " " ++ op.symbol ++ " " ++ right.text, ?_, ?_⟩
    · cases op <;> cases hop <;> rfl
    · simp [intercalate_cons_cons]
  | @branch op left right wanted k =>
    refine ⟨(if wanted then "if" else "ifFalse") ++ " " ++
      (left.text ++ " " ++ op.symbol ++ " " ++ right.text) ++ " goto " ++
      (tag' ++ toString k), ?_, ?_⟩
    · cases wanted <;> rfl
    · simp [intercalate_cons_cons]
  | jump k => exact ⟨"goto " ++ (tag' ++ toString k), rfl, by simp [intercalate_cons_cons]⟩
  | mark k => exact ⟨tag' ++ toString k ++ ":", rfl, by simp⟩

/-- Of the operands only those that the instruction mentions matter. -/
lemma Worded.imp (h : i.Worded V tag' words) (hV : ∀ v, i.Mentions v → V v → V' v) :
    i.Worded V' tag' words := by
  cases h with
  | unary hop hdst hsrc hplain =>
    exact .unary hop (hV _ (.inl rfl) hdst) (hV _ (.inr (.inl (.head _))) hsrc) hplain
  | binary hop hdst hleft hright =>
    refine .binary hop (hV _ (.inl rfl) hdst) (hV _ (.inr (.inl (.head _))) hleft) (hV _ ?_ hright)
    exact .inr (.inl (.tail _ (.head _)))
  | branch wanted k hop hleft hright =>
    refine .branch wanted k hop (hV _ (.inr (.inr ?_)) hleft) (hV _ (.inr (.inr ?_)) hright)
    · cases wanted <;> exact ⟨_, rfl, .inl rfl⟩
    · cases wanted <;> exact ⟨_, rfl, .inr rfl⟩
  | jump k => exact .jump k
  | mark k => exact .mark k

lemma Worded.ne_nil (h : i.Worded V tag' words) : words ≠ [] := by
  cases h <;> exact cons_ne_nil _ _

/-- The words of an instruction have no blanks in them. -/
lemma Worded.isSolid (hV : ∀ {v}, V v → Text.IsSolid v.text) (htag' : Text.IsSolid tag')
    (h : i.Worded V tag' words) :
    ∀ word ∈ words, Text.IsSolid word := by
  have hfixed : ∀ word ∈ ["=", "if", "ifFalse", "goto", ":", "-", ""], Text.IsSolid word := by
    simp [Text.IsSolid]
  have hlabel : ∀ k : Nat, Text.IsSolid (tag' ++ k.repr) := fun k =>
    htag'.append (Text.isSolid_toString k)
  have hsymbol : ∀ op : Opcode, op.isBinary = true ∨ op.isRelation = true →
      Text.IsSolid op.symbol := by
    intro op hop
    cases op with
    | unknown n => simp [Opcode.isBinary, Opcode.isRelation] at hop
    | _ => simp [Text.IsSolid, Opcode.symbol]
  cases h with
  | @unary op dst src hop hdst hsrc =>
    have hsign : Text.IsSolid op.sign := by
      rcases hop with rfl | rfl
      · exact hfixed "" (by decide)
      · exact hfixed "-" (by decide)
    simp [hV hdst, hsign.append (hV hsrc), hfixed "=" (by decide)]
  | binary hop hdst hleft hright =>
    simp [hV hdst, hV hleft, hV hright, hsymbol _ (.inl hop), hfixed "=" (by decide)]
  | branch wanted k hop hleft hright =>
    have hword : Text.IsSolid (if wanted then "if" else "ifFalse") := by
      cases wanted
      · exact hfixed "ifFalse" (by decide)
      · exact hfixed "if" (by decide)
    simp [hword, hV hleft, hV hright, hsymbol _ (.inr hop), hlabel k, hfixed "goto" (by decide)]
  | jump k => simp [hlabel k, hfixed "goto" (by decide)]
  | mark k => simpa using (hlabel k).append (hfixed ":" (by decide))

/-- Operations on one operand are told apart by their words. -/
lemma unary_inj (hV : Operand.Told tag V V') {op op' : Opcode} {src src' : Operand}
    (hop : op = .copy ∨ op = .neg) (hop' : op' = .copy ∨ op' = .neg) (hsrc : V src)
    (hsrc' : V' src') (hplain : op = .copy → ∀ w, src = .const w → 0 ≤ w.toInt)
    (hplain' : op' = .copy → ∀ w, src' = .const w → 0 ≤ w.toInt)
    (hword : op.sign ++ src.text = op'.sign ++ src'.text) : op = op' ∧ src = src' := by
  have hcopy : ∀ text, Opcode.copy.sign ++ text = text := fun text => String.empty_append
  rcases hop with rfl | rfl <;> rcases hop' with rfl | rfl
  · rw [hcopy, hcopy] at hword
    exact ⟨rfl, hV.text_inj hsrc hsrc' hword⟩
  · rw [hcopy] at hword
    exact absurd hword ((hV.legible hsrc).text_ne_minus hV.isTag (hplain rfl) src'.text)
  · rw [hcopy] at hword
    exact absurd hword.symm ((hV.legible' hsrc').text_ne_minus hV.isTag (hplain' rfl) src.text)
  · exact ⟨rfl, hV.text_inj hsrc hsrc' ((String.append_right_inj _).mp hword)⟩

/-- Instructions are told apart by their words. -/
lemma Worded.inj (hV : Operand.Told tag V V') (h : i.Worded V tag' words)
    (h' : i'.Worded V' tag' words') (heq : words = words') : i = i' := by
  -- The forms have different numbers of words.
  have hlen := congrArg length heq
  cases h with
  | unary hop hdst hsrc hplain =>
    cases h' with
    | unary hop' hdst' hsrc' hplain' =>
      simp only [cons.injEq, and_true, true_and] at heq
      obtain ⟨rfl, rfl⟩ := unary_inj hV hop hop' hsrc hsrc' hplain hplain' heq.2
      rw [hV.text_inj hdst hdst' heq.1]
    | _ => exact absurd hlen (by simp)
  | binary hop hdst hleft hright =>
    cases h' with
    | binary hop' hdst' hleft' hright' =>
      simp only [cons.injEq, and_true, true_and] at heq
      rw [hV.text_inj hdst hdst' heq.1, hV.text_inj hleft hleft' heq.2.1,
        Opcode.symbol_inj (by simp [hop]) (by simp [hop']) heq.2.2.1,
        hV.text_inj hright hright' heq.2.2.2]
    | _ => exact absurd hlen (by simp)
  | branch wanted k hop hleft hright =>
    cases h' with
    | branch wanted' k' hop' hleft' hright' =>
      simp only [cons.injEq, and_true, true_and] at heq
      have hwanted : wanted = wanted' := by
        have hword := heq.1
        revert hword
        cases wanted <;> cases wanted' <;> decide
      rw [hwanted, hV.text_inj hleft hleft' heq.2.1,
        Opcode.symbol_inj (by simp [hop]) (by simp [hop']) heq.2.2.1,
        hV.text_inj hright hright' heq.2.2.2.1, eq_of_numbered heq.2.2.2.2]
    | _ => exact absurd hlen (by simp)
  | jump k =>
    cases h' with
    | jump k' =>
      simp only [cons.injEq, and_true, true_and] at heq
      rw [eq_of_numbered heq]
    | _ => exact absurd hlen (by simp)
  | mark k =>
    cases h' with
    | mark k' =>
      simp only [cons.injEq, and_true] at heq
      rw [eq_of_numbered ((String.append_left_inj _).mp heq)]
    | _ => exact absurd hlen (by simp)

/-- Instructions that are written with words are told apart by their texts. -/
lemma Worded.text_inj (hV : Operand.Told tag V V') (htag' : Text.IsSolid tag') {s s'}
    (h : i.Worded V tag' words) (h' : i'.Worded V' tag' words') (hs : i.text = .ok s)
    (hs' : i'.text = .ok s') (heq : s = s') : i = i' := by
  obtain ⟨_, htext, hwords⟩ := h.exists_text
  cases hs.symm.trans htext
  obtain ⟨_, htext', hwords'⟩ := h'.exists_text
  cases hs'.symm.trans htext'
  have hblank : ∀ {words : List String}, (∀ word ∈ words, Text.IsSolid word) →
      ∀ word ∈ words.map String.toList, ' ' ∉ word := by
    intro words h
    rw [forall_mem_map]
    exact fun word hword hmem => (h word hword ' ' hmem).1 rfl
  have hsolid := h.isSolid (fun hv => (hV.legible hv).isSolid hV.isTag) htag'
  have hsolid' := h'.isSolid (fun hv => (hV.legible' hv).isSolid hV.isTag) htag'
  have hsplit := eq_of_intercalate_eq (hblank hsolid) (hblank hsolid') (by simpa using h.ne_nil)
    (by simpa using h'.ne_nil) (hwords.symm.trans ((congrArg String.toList heq).trans hwords'))
  exact h.inj hV h' (map_injective_iff.mpr (fun _ _ => String.toList_injective) hsplit)

/-- The text of an instruction that is written with words is one line. -/
lemma Worded.newline_notMem {s} (hwords : ∀ word ∈ words, Text.IsSolid word)
    (h : i.Worded V tag' words) (hs : i.text = .ok s) : '\n' ∉ s.toList := by
  obtain ⟨_, htext, htoList⟩ := h.exists_text
  cases hs.symm.trans htext
  rw [htoList]
  intro hmem
  obtain hblank | ⟨word, hword, hnewline⟩ := mem_of_mem_intercalate hmem
  · cases hblank
  · obtain ⟨word, hmem, rfl⟩ := mem_map.mp hword
    exact (hwords word hmem '\n' hnewline).2 rfl

end Instr

/-! ## Listings -/

section Listings

variable {code code' : List Instr}

/-- Code of instructions that are written with words has a listing, and its texts are lines. -/
lemma exists_lines (hV : ∀ {v}, V v → Text.IsSolid v.text) (htag' : Text.IsSolid tag')
    (h : ∀ i ∈ code, ∃ words, i.Worded V tag' words) :
    ∃ lines, Forall₂ (fun i line => i.text = .ok line) code lines ∧ ∀ line ∈ lines,
    '\n' ∉ line.toList := by
  induction code with
  | nil => exact ⟨[], .nil, forall_mem_nil _⟩
  | cons i code ih =>
    obtain ⟨⟨words, hwords⟩, hcode⟩ := forall_mem_cons.mp h
    obtain ⟨line, hline, -⟩ := hwords.exists_text
    obtain ⟨lines, hlines, hnewline⟩ := ih hcode
    refine ⟨line :: lines, .cons hline hlines, forall_mem_cons.mpr ⟨?_, hnewline⟩⟩
    exact hwords.newline_notMem (hwords.isSolid hV htag') hline

/-- Code of instructions that are written with words can be told from its lines. -/
lemma eq_of_lines (hV : Operand.Told tag V V') (htag' : Text.IsSolid tag') {lines}
    (h : ∀ i ∈ code, ∃ words, i.Worded V tag' words)
    (h' : ∀ i ∈ code', ∃ words, i.Worded V' tag' words)
    (hlines : Forall₂ (fun i line => i.text = .ok line) code lines)
    (hlines' : Forall₂ (fun i line => i.text = .ok line) code' lines) : code = code' := by
  induction hlines generalizing code' with
  | nil =>
    cases hlines'
    rfl
  | cons hline _ ih =>
    cases hlines' with
    | cons hline' hlines' =>
      obtain ⟨⟨words, hwords⟩, hcode⟩ := forall_mem_cons.mp h
      obtain ⟨⟨words', hwords'⟩, hcode'⟩ := forall_mem_cons.mp h'
      rw [hwords.text_inj hV htag' hwords' hline hline' rfl, ih hcode hcode' hlines']

/-- The text of a listing is its lines, with a newline behind each. -/
lemma toList_join_lines (lines : List String) :
    (String.join (lines.map (· ++ "\n"))).toList = (lines.map String.toList).flatMap
    (· ++ ['\n']) := by
  rw [String.toList_join, flatMap_map, flatMap_map]
  simp only [String.toList_append]
  rfl

/-- Code of instructions that are written with words has a listing, and can be told from its text.
-/
theorem listingText?_inj (h : ∀ i ∈ code, ∃ words, i.Worded (Operand.Legible "_t") "_L" words)
    (h' : ∀ i ∈ code', ∃ words, i.Worded (Operand.Legible "_t") "_L" words)
    (heq : listingText? code = listingText? code') :
    (∃ text, listingText? code = some text) ∧ code = code' := by
  have hsolid : ∀ {v : Operand}, v.Legible "_t" → Text.IsSolid v.text := fun hv =>
    hv.isSolid Text.isTag_minted
  have hlabel : Text.IsSolid "_L" := by simp [Text.IsSolid]
  obtain ⟨lines, hlines, hnewline⟩ := exists_lines hsolid hlabel h
  obtain ⟨lines', hlines', hnewline'⟩ := exists_lines hsolid hlabel h'
  have htext : listingText? code = some (String.join (lines.map (· ++ "\n"))) := by
    rw [listingText?, listing?_eq_some_iff.mpr hlines, Option.map_some]
  have htext' : listingText? code' = some (String.join (lines'.map (· ++ "\n"))) := by
    rw [listingText?, listing?_eq_some_iff.mpr hlines', Option.map_some]
  rw [htext, htext', Option.some.injEq] at heq
  have htexts := congrArg String.toList heq
  rw [toList_join_lines, toList_join_lines] at htexts
  have hsame : lines.map String.toList = lines'.map String.toList :=
    eq_of_flatMap_eq (forall_mem_map.mpr hnewline) (forall_mem_map.mpr hnewline') htexts
  obtain rfl := map_injective_iff.mpr (fun _ _ => String.toList_injective) hsame
  exact ⟨⟨_, htext⟩, eq_of_lines Operand.told_minted hlabel h h' hlines hlines'⟩

end Listings

/-- The code of a source text is written with words. -/
lemma worded_of_source {settings file source root state p}
    (hsource : Tree.ofSource settings file source = .ok root)
    (hgen : (generate settings state root).outcome = .ok p) :
    ∀ i ∈ p.code, ∃ words, i.Worded (Operand.Legible "_t") "_L" words := by
  intro i hi
  have hregular := (regular_of_generate hgen).forms i hi
  obtain ⟨hlower, hcode⟩ := lower_of_generate hgen
  have hplain := copiesPlain_of_source hsource hlower
  rw [← hcode] at hplain
  exact hregular.worded (isName_of_generate hsource hgen) (hplain i hi)

/-- Programs of source texts that are listed alike have the same code. Each is generated with
settings of its own and in a state of its own. -/
theorem listing_unambiguous {settings settings' : Settings} {file file' : Int}
    {source source' : List Char} {root root' : Tree} {state state' : LowerState} {p p' : Program}
    (hsource : Tree.ofSource settings file source = .ok root)
    (hgenerate : (generate settings state root).outcome = .ok p)
    (hsource' : Tree.ofSource settings' file' source' = .ok root')
    (hgenerate' : (generate settings' state' root').outcome = .ok p')
    (hlisting : listingText? p.code = listingText? p'.code) :
    (∃ text, listingText? p.code = some text) ∧ p.code = p'.code :=
  listingText?_inj (worded_of_source hsource hgenerate)
    (worded_of_source hsource' hgenerate') hlisting

/-- A source text whose variables have the names of words that stand in listings. -/
def gotoSource : List Char :=
    "num goto, ifFalse; goto = -5; if (goto < 2) ifFalse = goto - 5;".toList

/-- The same program, written otherwise. -/
def gotoBlocks : List Char :=
  "num goto; num ifFalse; { goto = - 5; } /* then */ if (goto < 2) { ifFalse = (goto - 5); }".toList

/-- The listing of both. -/
def gotoListing : String :=
  "_t0 = -5\ngoto = _t0\nifFalse goto < 2 goto _L0\n_t1 = goto - 5\nifFalse = _t1\n_L0:\n"

/-- The two programs are listed alike, and have the same code. -/
theorem gotoSource_unambiguous : ∃ root root' p p', Tree.ofSource {} 0 gotoSource = .ok root ∧
    (generate {} {} root).outcome = .ok p ∧ Tree.ofSource {} 0 gotoBlocks = .ok root' ∧
    (generate {} {} root').outcome = .ok p' ∧ listingText? p.code = some gotoListing ∧
    p.code = p'.code := by
  have hlisted : (generatedBy? {} gotoSource).bind (listingText? ·.code) = some gotoListing :=
    by decide +kernel
  have hlisted' : (generatedBy? {} gotoBlocks).bind (listingText? ·.code) = some gotoListing :=
    by decide +kernel
  obtain ⟨p, hp, htext⟩ := Option.bind_eq_some_iff.mp hlisted
  obtain ⟨p', hp', htext'⟩ := Option.bind_eq_some_iff.mp hlisted'
  obtain ⟨root, hsource, hgenerate⟩ := exists_of_generatedBy? hp
  obtain ⟨root', hsource', hgenerate'⟩ := exists_of_generatedBy? hp'
  have hcode := (listing_unambiguous hsource hgenerate hsource' hgenerate'
    (htext.trans htext'.symm)).2
  exact ⟨root, root', p, p', hsource, hgenerate, hsource', hgenerate', htext, hcode⟩

end ThreeAddress
