import ThreeAddress.Proofs.Lowering.Safety
import ThreeAddress.Proofs.Lowering.Separation
import ThreeAddress.Proofs.Parser.Soundness

/-!
# The instructions of generated programs

What code is selected from a program does not depend on the types of its operands. It matters that
every operand is a constant, a declared variable or a temporary, that tests compare, that jumps go
to marked labels, that no label is marked twice, and that temporaries are written before they are
read. `Program.Regular` collects this, and generated programs are regular.
-/

namespace ThreeAddress

open Lowering Machine

/-! ## Forms of instructions -/

/-- An operand that can be written: a declared variable or a temporary. -/
inductive Operand.Stored (names : List String) : Operand → Prop
  | global {x} (hx : x ∈ names) : Operand.Stored names (.global x)
  | temp (k : Nat) : Operand.Stored names (tempOf k)

/-- An operand that can be read. -/
inductive Operand.Valued (names : List String) : Operand → Prop
  | const (w : Int64) : Operand.Valued names (.const w)
  | stored {v} (hv : v.Stored names) : Operand.Valued names v

/-- An operation on one operand. -/
def Instr.unary (op : Opcode) (dst src : Operand) : Instr :=
  { op, result := some dst, args := [some src] }

/-- Jumps when a comparison comes out as wanted. -/
def Instr.branch (wanted : Bool) (op : Opcode) (left right : Operand) (l : Label) : Instr :=
  if wanted then .jumpIf op left right l else .jumpUnless op left right l

/-- An instruction of generated code. -/
inductive Instr.Regular (names : List String) : Instr → Prop
  | unary {op dst src} (hop : op = .copy ∨ op = .neg) (hdst : dst.Stored names)
      (hsrc : src.Valued names) :
      Instr.Regular names (.unary op dst src)
  | binary {op dst left right} (hop : op.isBinary = true) (hdst : dst.Stored names)
      (hleft : left.Valued names) (hright : right.Valued names) :
      Instr.Regular names (.binary op dst left right)
  | branch {op left right} (wanted : Bool) (k : Nat) (hop : op.isRelation = true)
      (hleft : left.Valued names) (hright : right.Valued names) :
      Instr.Regular names (.branch wanted op left right (labelOf k))
  | jump (k : Nat) : Instr.Regular names (.jump (labelOf k))
  | mark (k : Nat) : Instr.Regular names (.mark (labelOf k))

/-- The program is one that code can be selected from. -/
structure Program.Regular (p : Program) : Prop where
  forms : ∀ i ∈ p.code, i.Regular (p.globals.map Prod.fst)
  /-- No label is marked twice. -/
  marks : ((marked p.code).map Label.name).Nodup
  /-- Jumps go to labels that are marked. -/
  targets : ∀ i ∈ p.code, i.op.isJump = true → ∀ l, i.target = some l → .mark l ∈ p.code
  labels : checkLabels p.code = .ok ()
  /-- Temporaries are written before they are read. -/
  covered : ∀ index, labelIndex p.code = .ok index → ∀ k, Covered p.code index k 0 ∅

/-! ## Execution -/

/-- The machine is about to divide the least word by -1. -/
def Machine.Overflows (m : Machine) (i : Instr) : Prop :=
  (i.op = .div ∨ i.op = .rem) ∧ m.readAll i.args = .ok [Int64.minValue, -1]

/-- No division that is executed from given values of the variables divides the least word by -1. -/
def Machine.NeverOverflows (code : List Instr) (start : Bindings) : Prop :=
  ∀ m i, Visits code start m → code[m.next]? = some i → ¬ m.Overflows i

/-- A program without divisions never divides the least word by -1. -/
lemma neverOverflows_of_code {code} (h : code.all (fun i => i.op != .div && i.op != .rem) = true)
    (start : Bindings) :
    NeverOverflows code start := by
  intro m i _ hi hoverflow
  have hop := List.all_eq_true.mp h i (List.mem_of_getElem? hi)
  rcases hoverflow.1 with hdiv | hrem
  · simp [hdiv] at hop
  · simp [hrem] at hop

section Execution

variable {index : LabelIndex} {m m' : Machine} {op : Opcode} {dst src left right : Operand}
  {l : Label}

lemma Machine.readAll_one_inv {v xs} (h : m.readAll [v] = .ok xs) :
    ∃ x, m.read v = .ok x ∧ xs = [x] := by
  obtain ⟨x, hx, h⟩ := bind_eq_ok h
  exact ⟨x, hx, (Except.ok.inj h).symm⟩

/-- A list of two arguments is read if both are. -/
lemma Machine.readAll_two_inv {v w xs} (h : m.readAll [v, w] = .ok xs) :
    ∃ x y, m.read v = .ok x ∧ m.read w = .ok y ∧ xs = [x, y] := by
  obtain ⟨x, hx, h⟩ := bind_eq_ok h
  obtain ⟨ys, hys, h⟩ := bind_eq_ok h
  obtain ⟨y, hy, rfl⟩ := readAll_one_inv hys
  exact ⟨x, y, hx, hy, (Except.ok.inj h).symm⟩

/-- An executed operation leads to the next instruction. -/
lemma Machine.step_plain_next {i} (hjump : i.op.isJump = false) (hmark : i.op ≠ .mark)
    (h : m.step index i = .ok m') :
    m'.next = m.next + 1 := by
  obtain ⟨_, _, m1, -, -, hwrite, rfl⟩ := step_plain_cases hjump hmark h
  rcases write_cases hwrite with ⟨_, -, rfl⟩ | ⟨_, _, -, rfl⟩ <;> rfl

/-- An executed operation on one operand has read it and written its result. -/
lemma Machine.step_unary_inv (hop : op = .copy ∨ op = .neg)
    (h : m.step index (.unary op dst src) = .ok m') :
    ∃ x w m1, m.read (some src) = .ok x ∧ compute op [x] = .ok w ∧ m.write (some dst) w = .ok m1 ∧
      m' = { m1 with next := m1.next + 1 } := by
  have hjump : op.isJump = false := by rcases hop with rfl | rfl <;> rfl
  have hmark : op ≠ .mark := by rcases hop with rfl | rfl <;> nofun
  obtain ⟨xs, w, m1, hxs, hw, hwrite, hm'⟩ :=
    step_plain_cases (i := .unary op dst src) hjump hmark h
  obtain ⟨x, hx, rfl⟩ := readAll_one_inv hxs
  exact ⟨x, w, m1, hx, hw, hwrite, hm'⟩

/-- An executed operation on two operands has read them and written its result. -/
lemma Machine.step_binary_inv (hop : op.isBinary = true)
    (h : m.step index (.binary op dst left right) = .ok m') :
    ∃ x y w m1, m.read (some left) = .ok x ∧ m.read (some right) = .ok y ∧
    compute op [x, y] = .ok w ∧
      m.write (some dst) w = .ok m1 ∧ m' = { m1 with next := m1.next + 1 } := by
  obtain ⟨xs, w, m1, hxs, hw, hwrite, hm'⟩ :=
    step_plain_cases (i := .binary op dst left right) (isJump_of_isBinary hop)
    (ne_mark_of_isBinary hop) h
  obtain ⟨x, y, hx, hy, rfl⟩ := readAll_two_inv hxs
  exact ⟨x, y, w, m1, hx, hy, hw, hwrite, hm'⟩

/-- An executed branch has compared its operands, and goes to its label if that came out as wanted.
-/
lemma Machine.step_branch_inv {wanted}
    (h : m.step index (.branch wanted op left right l) = .ok m') :
    ∃ x y b, m.read (some left) = .ok x ∧ m.read (some right) = .ok y ∧ compare op x y = .ok b ∧
      m' = { m with next := if b = wanted then place index (some l) else m.next + 1 } := by
  have hdecide : ∀ b, m.decide (some ⟨op, some left, some right⟩) = .ok b →
      ∃ x y, m.read (some left) = .ok x ∧ m.read (some right) = .ok y ∧ compare op x y = .ok b := by
    intro b hb
    obtain ⟨x, hx, hb⟩ := bind_eq_ok hb
    obtain ⟨y, hy, hb⟩ := bind_eq_ok hb
    exact ⟨x, y, hx, hy, hb⟩
  cases wanted with
  | true =>
    obtain ⟨b, hb, h⟩ := bind_eq_ok h
    obtain ⟨x, y, hx, hy, hb⟩ := hdecide b hb
    exact ⟨x, y, b, hx, hy, hb, (Except.ok.inj h).symm⟩
  | false =>
    obtain ⟨b, hb, h⟩ := bind_eq_ok h
    obtain ⟨x, y, hx, hy, hb⟩ := hdecide b hb
    refine ⟨x, y, b, hx, hy, hb, ?_⟩
    rw [← Except.ok.inj h]
    cases b <;> rfl

end Execution

/-! ## Generated programs -/

section Typed

variable {p : Program} {Δ : Lanes}

/-- What holds values is a declared variable or a temporary. -/
lemma Operand.Holds.stored {type} {v : Operand} (h : v.Holds p.globalType? Δ type) :
    v.Stored (p.globals.map Prod.fst) := by
  cases h with
  | global hx =>
    obtain ⟨l1, l2, hglobals, -⟩ := List.lookup_eq_some_iff.mp hx
    exact .global (by simp [hglobals])
  | temp _ => exact .temp _

lemma Operand.Numeric.valued {v : Operand} (h : v.Numeric p.globalType? Δ) :
    v.Valued (p.globals.map Prod.fst) := by
  cases h with
  | const w => exact .const w
  | held hv => exact .stored hv.stored

/-- A typed test is a comparison of what can be read. -/
lemma Test.Typed.regular {op : Opcode} {left right : Operand}
    (h : Test.Typed p.globalType? Δ ⟨op, some left, some right⟩) :
    op.isRelation = true ∧ left.Valued (p.globals.map Prod.fst) ∧
    right.Valued (p.globals.map Prod.fst) := by
  cases h with
  | numbers hop hleft hright => exact ⟨hop, hleft.valued, hright.valued⟩
  | flag hx =>
    have hholds : (Operand.global _).Holds p.globalType? Δ .bool := .global hx
    exact ⟨rfl, .stored hholds.stored, .const 1⟩
  | truths hop hj hk => exact ⟨hop, .stored (.temp _), .stored (.temp _)⟩

/-- A typed instruction with minted labels is regular. -/
lemma Instr.Typed.regular {i : Instr} (h : i.Typed p.globalType? Δ)
    (hlabel : ∀ l, i.target = some l → ∃ k, l = labelOf k) :
    i.Regular (p.globals.map Prod.fst) := by
  cases h with
  | number hdst hsrc => exact .unary (.inl rfl) hdst.stored hsrc.valued
  | truth b hdst => exact .unary (.inl rfl) hdst.stored (.const _)
  | neg _ hsrc => exact .unary (.inr rfl) (.temp _) hsrc.valued
  | binary hop _ hleft hright => exact .binary hop (.temp _) hleft.valued hright.valued
  | jumpIf htest =>
    obtain ⟨k, rfl⟩ := hlabel _ rfl
    obtain ⟨hop, hleft, hright⟩ := htest.regular
    exact .branch true k hop hleft hright
  | jumpUnless htest =>
    obtain ⟨k, rfl⟩ := hlabel _ rfl
    obtain ⟨hop, hleft, hright⟩ := htest.regular
    exact .branch false k hop hleft hright
  | jump l =>
    obtain ⟨k, rfl⟩ := hlabel _ rfl
    exact .jump k
  | mark l =>
    obtain ⟨k, rfl⟩ := hlabel _ rfl
    exact .mark k

end Typed

/-- Generated programs are regular. -/
theorem regular_of_generate {settings state root} {p : Program}
    (h : (generate settings state root).outcome = .ok p) :
    p.Regular := by
  obtain ⟨Δ, n, n', hlaned⟩ := laned_of_generate h
  obtain ⟨hlower, hcode⟩ := lower_of_generate h
  have hcomplete := lower_complete hlower
  have hwithin := (lower_within settings root state).2
  have htargets := lower_targets hlower
  rw [← hcode] at hcomplete hwithin htargets
  refine ⟨fun i hi => ?_, ?_, ?_, ?_, ?_⟩
  · refine (hlaned.typed i hi).regular fun l hl => ?_
    cases hwithin i hi with
    | copy | neg | binary => cases hl
    | jumpIf _ _ hlabel | jumpUnless _ _ hlabel | jump hlabel | mark hlabel =>
      obtain ⟨k, -, -, rfl⟩ := hlabel
      exact ⟨k, (Option.some.inj hl).symm⟩
  · have hnames := nodup_map_name_labelsBetween state.names.labels
      (lower settings root state).state.names.labels
    exact (hcomplete.marked.map Label.name).nodup_iff.mpr hnames
  · intro i hi hjump l hl
    obtain ⟨k, hk, hmark⟩ := htargets i hi hjump
    obtain rfl := Option.some.inj (hl.symm.trans hk)
    exact hmark
  · rw [hcode]
    exact lower_checkLabels hlower
  · rw [hcode]
    exact fun index hindex k => lower_covered hlower hindex k

/-! ## Programs of source texts -/

/-- The program that is generated from a source text in a state, if one is. -/
def generatedBy? (state : LowerState) (source : List Char) : Option Program := do
  let root ← (Tree.ofSource {} 0 source).toOption
  (generate {} state root).outcome.toOption

/-- A program of a source text is generated from its tree. -/
lemma exists_of_generatedBy? {state source p} (h : generatedBy? state source = some p) :
    ∃ root, Tree.ofSource {} 0 source = .ok root ∧ (generate {} state root).outcome = .ok p := by
  obtain ⟨root, hroot, hp⟩ := Option.bind_eq_some_iff.mp h
  exact ⟨root, ok_of_toOption hroot, ok_of_toOption hp⟩

end ThreeAddress
