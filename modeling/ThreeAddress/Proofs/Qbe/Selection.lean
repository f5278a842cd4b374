import ThreeAddress.Proofs.Qbe.Reading
import ThreeAddress.Qbe.Selection

/-!
# Lines are selected for every regular program

`Selected` says which lines a regular instruction gets: a label that opens a block, if none is open,
then lines that neither are labels nor jump, and at the end possibly a jump, or a branch and the
label of the block behind it. So the lines of a program form blocks, and since numbers are given
only once and labels are marked only once, the blocks have different names.
-/

namespace ThreeAddress.Qbe

open List Lowering

variable {lines : List Line} {names : List String} {last : Nat} {i : Instr} {s : State}

/-! ## Lines -/

/-- A line that is no label and does not jump. -/
def Line.isStraight : Line → Bool
  | load _ _ | store _ _ | compute _ _ _ | compare _ _ _ _ | print _ _ => true
  | block _ | jump _ | branch _ _ _ | ret => false

/-- The block that a line begins. -/
def Line.block? : Line → Option Block
  | block b => some b
  | _ => none

/-- The blocks that a line can lead to. -/
def Line.targets : Line → List Block
  | jump b => [b]
  | branch _ t f => [t, f]
  | _ => []

/-- The blocks that lines begin. -/
def blocksOf (lines : List Line) : List Block := lines.filterMap Line.block?

/-- A block of lines that were selected for code with the given marks while the last number went
from `last` to `last'`. -/
def Block.Between (last last' : Nat) (marks : List Label) : Block → Prop
  | start | exit => False
  | marked id => ∃ k : Nat, id = k ∧ labelOf k ∈ marks
  | through n => last < n ∧ n ≤ last'
  | dead n => last ≤ n ∧ n < last'

/-- Lines after which a block is under way or not, as it was before or not. -/
def Leads (lines : List Line) (before after : Bool) : Prop :=
  (lines.map Line.il).foldlM Il.Line.follow? before = some after

section Lines

variable {lines' : List Line} {before between after : Bool}

lemma blocksOf_append : blocksOf (lines ++ lines') = blocksOf lines ++ blocksOf lines' :=
    filterMap_append

/-- Straight lines begin no blocks. -/
lemma blocksOf_straight (h : ∀ l ∈ lines, l.isStraight = true) : blocksOf lines = [] := by
  refine filterMap_eq_nil_iff.mpr fun l hl => ?_
  have hl := h l hl
  cases l with
  | load | store | compute | compare | print => rfl
  | block | jump | branch | ret => cases hl

lemma Line.targets_straight {l : Line} (h : l.isStraight = true) : l.targets = [] := by
  cases l with
  | load | store | compute | compare | print => rfl
  | block | jump | branch | ret => cases h

lemma Leads.append (h : Leads lines before between) (h' : Leads lines' between after) :
    Leads (lines ++ lines') before after := by
  unfold Leads at h h' ⊢
  rwa [map_append, foldlM_append, h]

/-- Straight lines stay in their block. -/
lemma leads_straight (h : ∀ l ∈ lines, l.isStraight = true) : Leads lines true true := by
  induction lines with
  | nil => rfl
  | cons l ls ih =>
    obtain ⟨hl, hls⟩ := forall_mem_cons.mp h
    have hone : Leads [l] true true := by
      cases l with
      | load | store | compute | compare | print => rfl
      | block | jump | branch | ret => cases hl
    exact hone.append (ih hls)

end Lines

/-! ## What is selected -/

/-- The lines that load an operand into a value, while the last number goes from `last` to another
one. -/
inductive Loaded (names : List String) (last : Nat) : Operand → List Line → Value → Nat → Prop
  | const (w : Int64) : Loaded names last (.const w) [] (.const w) last
  | temp (k : Nat) : Loaded names last (tempOf k) [] (.register (.temp k)) last
  | global {x} (hx : x ∈ names) :
      Loaded names last (.global x) [.load (last + 1) x]
      (.register (.scratch (last + 1))) (last + 1)

/-- The lines that give an operand the result of an operation. -/
inductive Assigned (names : List String) (last : Nat) (op : Opcode) (args : List Value) :
    Operand → List Line → Nat → Prop
  | temp (k : Nat) : Assigned names last op args (tempOf k) [.compute (.temp k) op args] last
  | global {x} (hx : x ∈ names) : Assigned names last op args (.global x)
      [.compute (.scratch (last + 1)) op args, .store (last + 1) x] (last + 1)

def branchLine (wanted : Bool) (test : Nat) (k : Nat) : Line :=
  if wanted then .branch test (.marked k) (.through test) else .branch test
    (.through test) (.marked k)

/-- The lines for a regular instruction, and the state behind them. -/
inductive Selected (names : List String) (s : State) : Instr → List Line → State → Prop
  | unary {op dst src load value last₁ lines last₂} (hop : op = .copy ∨ op = .neg)
      (hload : Loaded names (open? s).2 src load value last₁)
      (hassign : Assigned names last₁ op [value] dst lines last₂) :
      Selected names s (.unary op dst src) ((open? s).1 ++ (load ++ lines)) ⟨last₂, true⟩
  | binary {op dst left right load value last₁ load' value' last₂ lines last₃}
      (hop : op.isBinary = true) (hleft : Loaded names (open? s).2 left load value last₁)
      (hright : Loaded names last₁ right load' value' last₂)
      (hassign : Assigned names last₂ op [value, value'] dst lines last₃) :
      Selected names s (.binary op dst left right) ((open? s).1 ++ (load ++ load' ++ lines))
      ⟨last₃, true⟩
  | branch {op left right load value last₁ load' value' last₂} (wanted : Bool) (k : Nat)
      (hop : op.isRelation = true) (hleft : Loaded names (open? s).2 left load value last₁)
      (hright : Loaded names last₁ right load' value' last₂) :
      Selected names s (.branch wanted op left right (labelOf k))
        ((open? s).1 ++ (load ++ load' ++ ([.compare (last₂ + 1) op value value'] ++
          [branchLine wanted (last₂ + 1) k, .block (.through (last₂ + 1))]))) ⟨last₂ + 2, true⟩
  | jump (k : Nat) :
      Selected names s (.jump (labelOf k)) ((open? s).1 ++ [.jump (.marked k)]) ⟨(open? s).2, false⟩
  | mark (k : Nat) : Selected names s (.mark (labelOf k)) [.block (.marked k)]
      { s with inBlock := true }

/-- The lines for regular code. -/
inductive SelectedAll (names : List String) : State → List Instr → List Line → State → Prop
  | nil (s : State) : SelectedAll names s [] [] s
  | cons {s i lines s₁ code rest s'} (hi : Selected names s i lines s₁)
      (hcode : SelectedAll names s₁ code rest s') :
      SelectedAll names s (i :: code) (lines ++ rest) s'

section Existence

variable {op : Opcode} {dst src left right v : Operand} {load load' : List Line}
  {value value' : Value} {last₁ last₂ last₃ : Nat}

lemma exists_loaded (hv : v.Valued names) (last : Nat) :
    ∃ load value last', loadOperand last (some v) = (load, value, last') ∧
    Loaded names last v load value last' := by
  cases hv with
  | const w => exact ⟨_, _, _, rfl, .const w⟩
  | stored hv =>
    cases hv with
    | temp k => exact ⟨_, _, _, rfl, .temp k⟩
    | global hx => exact ⟨_, _, _, rfl, .global hx⟩

lemma exists_assigned (hdst : dst.Stored names) (last : Nat) (op : Opcode) (args : List Value) :
    ∃ lines last', assign last (some dst) op args = .ok (lines, last') ∧
    Assigned names last op args dst lines last' := by
  cases hdst with
  | temp k => exact ⟨_, _, rfl, .temp k⟩
  | global hx => exact ⟨_, _, rfl, .global hx⟩

/-- The lines for an operation on one operand. -/
lemma select_unary (hop : op = .copy ∨ op = .neg)
    (hload : loadOperand (open? s).2 (some src) = (load, value, last₁))
    (hassign : assign last₁ (some dst) op [value] = .ok (lines, last₂)) :
    select s (.unary op dst src) = .ok ((open? s).1 ++ (load ++ lines), ⟨last₂, true⟩) := by
  have hunary : unary (open? s).2 (.unary op dst src) = .ok (load ++ lines, last₂) := by
    simp only [unary, Instr.unary, hload, hassign, bind, Except.bind, pure, Except.pure]
  rcases hop with rfl | rfl
  · show (unary (open? s).2 (.unary .copy dst src) >>= _) = _
    rw [hunary]
    rfl
  · show (unary (open? s).2 (.unary .neg dst src) >>= _) = _
    rw [hunary]
    rfl

/-- The lines for an operation on two operands. -/
lemma select_binary (hop : op.isBinary = true)
    (hleft : loadOperand (open? s).2 (some left) = (load, value, last₁))
    (hright : loadOperand last₁ (some right) = (load', value', last₂))
    (hassign : assign last₂ (some dst) op [value, value'] = .ok (lines, last₃)) :
    select s (.binary op dst left right) = .ok ((open? s).1 ++ (load ++ load' ++ lines),
      ⟨last₃, true⟩) := by
  have hbinary : binary (open? s).2 (.binary op dst left right) =
      .ok (load ++ load' ++ lines, last₃) := by
    simp only [binary, Instr.binary, hleft, hright, hassign, bind, Except.bind, pure, Except.pure]
  have hselect : select s (.binary op dst left right) =
      (binary (open? s).2 (.binary op dst left right) >>= fun r =>
          .ok ((open? s).1 ++ r.1, ⟨r.2, true⟩)) := by
    cases op with
    | add | sub | mul | div | rem => rfl
    | _ => cases hop
  rw [hselect, hbinary]
  rfl

/-- The lines for a conditional jump. -/
lemma select_branch (wanted : Bool) (k : Nat)
    (hleft : loadOperand (open? s).2 (some left) = (load, value, last₁))
    (hright : loadOperand last₁ (some right) = (load', value', last₂)) :
    select s (.branch wanted op left right (labelOf k)) =
      .ok ((open? s).1 ++ (load ++ load' ++ [.compare (last₂ + 1) op value value',
        branchLine wanted (last₂ + 1) k, .block (.through (last₂ + 1))]), ⟨last₂ + 2, true⟩) := by
  cases wanted with
  | true =>
    show (branchLines (open? s).2 (.jumpIf op left right (labelOf k)) true >>= _) = _
    simp only [branchLines, Instr.jumpIf, hleft, hright]
    rfl
  | false =>
    show (branchLines (open? s).2 (.jumpUnless op left right (labelOf k)) false >>= _) = _
    simp only [branchLines, Instr.jumpUnless, hleft, hright]
    rfl

/-- Lines are selected for every regular instruction. -/
lemma exists_selected (hi : i.Regular names) (s : State) :
    ∃ lines s', select s i = .ok (lines, s') ∧ Selected names s i lines s' := by
  cases hi with
  | @unary op dst src hop hdst hsrc =>
    obtain ⟨load, value, last₁, hload, hloaded⟩ := exists_loaded hsrc (open? s).2
    obtain ⟨lines, last₂, hassign, hassigned⟩ := exists_assigned hdst last₁ op [value]
    exact ⟨_, _, select_unary hop hload hassign, .unary hop hloaded hassigned⟩
  | @binary op dst left right hop hdst hleft hright =>
    obtain ⟨load, value, last₁, hload, hloaded⟩ := exists_loaded hleft (open? s).2
    obtain ⟨load', value', last₂, hload', hloaded'⟩ := exists_loaded hright last₁
    obtain ⟨lines, last₃, hassign, hassigned⟩ := exists_assigned hdst last₂ op [value, value']
    exact ⟨_, _, select_binary hop hload hload' hassign, .binary hop hloaded hloaded' hassigned⟩
  | @branch op left right wanted k hop hleft hright =>
    obtain ⟨load, value, last₁, hload, hloaded⟩ := exists_loaded hleft (open? s).2
    obtain ⟨load', value', last₂, hload', hloaded'⟩ := exists_loaded hright last₁
    exact ⟨_, _, select_branch wanted k hload hload', .branch wanted k hop hloaded hloaded'⟩
  | jump k => exact ⟨_, _, rfl, .jump k⟩
  | mark k => exact ⟨_, _, rfl, .mark k⟩

/-- Lines are selected for regular code. -/
lemma exists_selectedAll {code} (hcode : ∀ i ∈ code, i.Regular names) (s : State) :
    ∃ lines s', selectAll s code = .ok (lines, s') ∧ SelectedAll names s code lines s' := by
  induction code generalizing s with
  | nil => exact ⟨[], s, rfl, .nil s⟩
  | cons i code ih =>
    obtain ⟨hi, hcode⟩ := forall_mem_cons.mp hcode
    obtain ⟨lines, s₁, hselect, hlines⟩ := exists_selected hi s
    obtain ⟨rest, s', hselectAll, hrest⟩ := ih hcode s₁
    refine ⟨lines ++ rest, s', ?_, .cons hlines hrest⟩
    simp only [selectAll, hselect, hselectAll, bind, Except.bind, pure, Except.pure]

end Existence

/-! ## Operands and results -/

/-- Lines of the middle of a block, which can be read. -/
def Plain (lines : List Line) : Prop := ∀ l ∈ lines, l.isStraight = true ∧ l.Legible

lemma plain_nil : Plain [] := forall_mem_nil _

lemma Plain.append {lines lines'} (h : Plain lines) (h' : Plain lines') : Plain (lines ++ lines') :=
  fun l hl => (mem_append.mp hl).elim (h l) (h' l)

section Parts

variable {op : Opcode} {v dst : Operand} {value : Value} {args : List Value} {last' : Nat}
  (hnames : ∀ x ∈ names, Text.IsName x)
include hnames

/-- Operands are loaded with plain lines. -/
lemma Loaded.plain (h : Loaded names last v lines value last') : Plain lines ∧ last ≤ last' := by
  cases h with
  | const | temp => exact ⟨plain_nil, le_refl _⟩
  | global hx => exact ⟨forall_mem_singleton.mpr ⟨rfl, hnames _ hx⟩, Nat.le_succ _⟩

/-- Results are assigned with plain lines. -/
lemma Assigned.plain (h : Assigned names last op args dst lines last')
    (hop : ((op = .copy ∨ op = .neg) ∧ ∃ v, args = [v]) ∨
      (op.isBinary = true ∧ ∃ v w, args = [v, w])) :
    Plain lines ∧ last ≤ last' := by
  cases h with
  | temp => exact ⟨forall_mem_singleton.mpr ⟨rfl, hop⟩, le_refl _⟩
  | global hx =>
    exact ⟨forall_mem_cons.mpr ⟨⟨rfl, hop⟩, forall_mem_singleton.mpr ⟨rfl, hnames _ hx⟩⟩,
      Nat.le_succ _⟩

end Parts

/-! ## Code -/

/-- What is known of lines that were selected for code. -/
structure Selects (s : State) (code : List Instr) (lines : List Line) (s' : State) : Prop where
  le : s.last ≤ s'.last
  legible : ∀ l ∈ lines, l.Legible
  leads : Leads lines s.inBlock s'.inBlock
  nodup : (blocksOf lines).Nodup
  between : ∀ b ∈ blocksOf lines, b.Between s.last s'.last (marked code)
  /-- Every label of the code begins a block. -/
  marks : ∀ k : Nat, labelOf k ∈ marked code → .marked k ∈ blocksOf lines
  /-- The lines lead to blocks of their own and to labels that the code jumps to. -/
  targets : ∀ l ∈ lines, ∀ b ∈ l.targets, b ∈ blocksOf lines ∨
    ∃ i ∈ code, i.op.isJump = true ∧ ∃ k : Nat, i.target = some (labelOf k) ∧ b = .marked k

section Code

variable {s₁ s' : State} {code c1 c2 : List Instr} {l1 l2 : List Line}

/-- A block belongs to one of two pieces of code. -/
lemma Block.Between.apart {last' last'' marks marks'} {b : Block} (h1 : b.Between last last' marks)
    (h2 : b.Between last' last'' marks') (hnodup : (marks ++ marks').Nodup) : False := by
  cases b with
  | start | exit => exact h1
  | through n =>
    have hupper : n ≤ last' := h1.2
    have hlower : last' < n := h2.1
    omega
  | dead n =>
    have hupper : n < last' := h1.2
    have hlower : last' ≤ n := h2.1
    omega
  | marked id =>
    obtain ⟨k, rfl, hk⟩ := h1
    obtain ⟨k', hid, hk'⟩ := h2
    cases hid
    exact disjoint_of_nodup_append hnodup hk hk'

/-- A block of a piece of code belongs to the whole. -/
lemma Block.Between.mono {lower upper last' marks marks'} {b : Block}
    (h : b.Between last last' marks) (hlower : lower ≤ last) (hupper : last' ≤ upper)
    (hmarks : marks ⊆ marks') : b.Between lower upper marks' := by
  cases b with
  | start | exit => exact h
  | through n => exact ⟨Nat.lt_of_le_of_lt hlower h.1, le_trans h.2 hupper⟩
  | dead n => exact ⟨le_trans hlower h.1, Nat.lt_of_lt_of_le h.2 hupper⟩
  | marked id =>
    obtain ⟨k, rfl, hk⟩ := h
    exact ⟨k, rfl, hmarks hk⟩

lemma Selects.append (h1 : Selects s c1 l1 s₁) (h2 : Selects s₁ c2 l2 s')
    (hnodup : (marked (c1 ++ c2)).Nodup) :
    Selects s (c1 ++ c2) (l1 ++ l2) s' where
  le := le_trans h1.le h2.le
  legible l hl := (mem_append.mp hl).elim (h1.legible l) (h2.legible l)
  leads := h1.leads.append h2.leads
  nodup := by
    rw [blocksOf_append]
    rw [marked_append] at hnodup
    refine h1.nodup.append h2.nodup fun b hb hb' => ?_
    exact (h1.between b hb).apart (h2.between b hb') hnodup
  between b hb := by
    rw [blocksOf_append] at hb
    rw [marked_append]
    rcases mem_append.mp hb with hb | hb
    · exact (h1.between b hb).mono (le_refl _) h2.le (subset_append_left _ _)
    · exact (h2.between b hb).mono h1.le (le_refl _) (subset_append_right _ _)
  marks k hk := by
    rw [marked_append] at hk
    rw [blocksOf_append]
    rcases mem_append.mp hk with hk | hk
    · exact mem_append_left _ (h1.marks k hk)
    · exact mem_append_right _ (h2.marks k hk)
  targets l hl b hb := by
    rw [blocksOf_append]
    rcases mem_append.mp hl with hl | hl
    · rcases h1.targets l hl b hb with hown | ⟨i, hi, hjump⟩
      · exact .inl (mem_append_left _ hown)
      · exact .inr ⟨i, mem_append_left _ hi, hjump⟩
    · rcases h2.targets l hl b hb with hown | ⟨i, hi, hjump⟩
      · exact .inl (mem_append_right _ hown)
      · exact .inr ⟨i, mem_append_right _ hi, hjump⟩

/-- Plain lines for code without marks. -/
lemma Plain.selects (h : Plain lines) (hcode : marked code = []) {last'} (hle : last ≤ last') :
    Selects ⟨last, true⟩ code lines ⟨last', true⟩ := by
  have hblocks : blocksOf lines = [] := blocksOf_straight fun l hl => (h l hl).1
  refine ⟨hle, fun l hl => (h l hl).2, leads_straight fun l hl => (h l hl).1, ?_, ?_, ?_, ?_⟩
  · rw [hblocks]
    exact nodup_nil
  · rw [hblocks]
    exact nofun
  · rw [hcode]
    exact nofun
  · intro l hl b hb
    rw [Line.targets_straight (h l hl).1] at hb
    cases hb

/-- The label that opens a block, if one is needed. -/
lemma open_selects (s : State) : Selects s [] (open? s).1 ⟨(open? s).2, true⟩ := by
  obtain ⟨last, inBlock⟩ := s
  cases inBlock with
  | true => exact plain_nil.selects rfl (le_refl _)
  | false =>
    exact ⟨Nat.le_succ _, forall_mem_singleton.mpr trivial, rfl, nodup_singleton _,
      forall_mem_singleton.mpr ⟨le_refl _, Nat.lt_succ_self _⟩, nofun,
      forall_mem_singleton.mpr nofun⟩

/-- The branch of a conditional jump, and the label of the block behind it. -/
lemma branchLine_selects {left right op n} (wanted : Bool) (k : Nat) (hn : last < n) :
    Selects ⟨last, true⟩ [.branch wanted op left right (labelOf k)]
      [branchLine wanted n k, .block (.through n)] ⟨n + 1, true⟩ := by
  have htargets : ∀ b ∈ (branchLine wanted n k).targets, b = .through n ∨ b = .marked k := by
    cases wanted <;> simp [branchLine, Line.targets]
  have hblocks : blocksOf [branchLine wanted n k, .block (.through n)] = [.through n] := by
    cases wanted <;> rfl
  refine ⟨by show last ≤ n + 1; omega, ?_, ?_, ?_, ?_, ?_, ?_⟩
  · refine forall_mem_cons.mpr ⟨?_, forall_mem_singleton.mpr trivial⟩
    cases wanted <;> trivial
  · cases wanted <;> rfl
  · rw [hblocks]
    exact nodup_singleton _
  · rw [hblocks]
    exact forall_mem_singleton.mpr ⟨hn, Nat.le_succ n⟩
  · cases wanted <;> exact nofun
  · rw [hblocks]
    refine forall_mem_cons.mpr ⟨fun b hb => ?_, forall_mem_singleton.mpr nofun⟩
    rcases htargets b hb with rfl | rfl
    · exact .inl (mem_singleton_self _)
    · refine .inr ⟨_, mem_singleton_self _, ?_, k, ?_, rfl⟩ <;> cases wanted <;> rfl

/-- The lines of an instruction. -/
lemma Selected.selects (hnames : ∀ x ∈ names, Text.IsName x) (h : Selected names s i lines s') :
    Selects s [i] lines s' := by
  have hopen : ∀ {lines s'}, Selects ⟨(open? s).2, true⟩ [i] lines s' → marked [i] = [] →
      Selects s [i] ((open? s).1 ++ lines) s' := fun h hmarks =>
      (open_selects s).append h (hmarks ▸ nodup_nil)
  cases h with
  | @unary op dst src load value last₁ lines last₂ hop hload hassign =>
    obtain ⟨hplain, hle⟩ := hload.plain hnames
    obtain ⟨hplain', hle'⟩ := hassign.plain hnames (.inl ⟨hop, value, rfl⟩)
    have hmarks : marked [.unary op dst src] = [] := by rcases hop with rfl | rfl <;> rfl
    exact hopen ((hplain.append hplain').selects hmarks (le_trans hle hle')) hmarks
  | @binary op dst left right load value last₁ load' value' last₂ lines last₃ hop hleft
      hright hassign =>
    obtain ⟨hplain, hle⟩ := hleft.plain hnames
    obtain ⟨hplain', hle'⟩ := hright.plain hnames
    obtain ⟨hplain'', hle''⟩ := hassign.plain hnames (.inr ⟨hop, value, value', rfl⟩)
    have hmarks : marked [.binary op dst left right] = [] :=
      marked_cons_of_ne (ne_mark_of_isBinary hop) []
    exact hopen (((hplain.append hplain').append hplain'').selects hmarks
      (le_trans hle (le_trans hle' hle''))) hmarks
  | @branch op left right load value last₁ load' value' last₂ wanted k hop hleft hright =>
    obtain ⟨hplain, hle⟩ := hleft.plain hnames
    obtain ⟨hplain', hle'⟩ := hright.plain hnames
    have hcompare : Plain [.compare (last₂ + 1) op value value'] :=
      forall_mem_singleton.mpr ⟨rfl, hop⟩
    have hmarks : marked [.branch wanted op left right (labelOf k)] = [] := by cases wanted <;> rfl
    have hmiddle := ((hplain.append hplain').append hcompare).selects marked_nil (le_trans hle hle')
    rw [← append_assoc _ [_]]
    exact hopen (hmiddle.append (branchLine_selects wanted k (Nat.lt_succ_self _))
      (hmarks ▸ nodup_nil)) hmarks
  | jump k =>
    refine hopen ⟨le_refl _, forall_mem_singleton.mpr trivial, rfl, nodup_nil,
      forall_mem_nil _, nofun, ?_⟩ rfl
    exact forall_mem_singleton.mpr
      (forall_mem_singleton.mpr (.inr ⟨_, mem_singleton_self _, rfl, k, rfl, rfl⟩))
  | mark k =>
    refine ⟨le_refl _, forall_mem_singleton.mpr trivial, rfl, nodup_singleton _,
      forall_mem_singleton.mpr ⟨k, rfl, mem_singleton_self _⟩, fun k' hk' =>
      ?_, forall_mem_singleton.mpr nofun⟩
    obtain rfl := labelOf_name_inj (congrArg Label.name (mem_singleton.mp hk'))
    exact mem_singleton_self _

/-- The lines of code that marks no label twice. -/
lemma SelectedAll.selects (hnames : ∀ x ∈ names, Text.IsName x)
    (h : SelectedAll names s code lines s') (hnodup : (marked code).Nodup) :
    Selects s code lines s' := by
  induction h with
  | nil s =>
    exact ⟨le_refl _, forall_mem_nil _, rfl, nodup_nil, forall_mem_nil _, nofun, forall_mem_nil _⟩
  | @cons s i lines s₁ code rest s' hi _ ih =>
    refine (hi.selects hnames).append (ih ?_) hnodup
    rw [← singleton_append, marked_append] at hnodup
    exact hnodup.of_append_right

end Code

/-! ## Programs -/

/-- The lines behind those of the code. -/
def endLines (s : State) (globals : List String) : List Line :=
  (if s.inBlock then [] else [.block .exit]) ++ (printLines s.last globals ++ [.ret])

/-- The module of a program for whose code lines were selected. -/
def moduleOf (p : Program) (lines : List Line) (s : State) : Module where
  globals := p.globals.map Prod.fst
  lines := .block .start :: (lines ++ endLines s (p.globals.map Prod.fst))

section Programs

variable {p : Program}

lemma ofProgram_eq (h : selectAll {} p.code = .ok (lines, s)) :
    ofProgram p = .ok (moduleOf p lines s) := by
  unfold ofProgram
  rw [h]
  simp [moduleOf, endLines, bind, Except.bind, pure, Except.pure]

section

variable (hnames : ∀ x ∈ names, Text.IsName x)
include hnames

/-- The lines that print variables are plain. -/
lemma printLines_plain (last : Nat) : Plain (printLines last names) := by
  induction names generalizing last with
  | nil => exact plain_nil
  | cons x xs ih =>
    obtain ⟨hx, hxs⟩ := forall_mem_cons.mp hnames
    intro l hl
    rw [printLines, mem_cons, mem_cons] at hl
    rcases hl with rfl | rfl | hl
    · exact ⟨rfl, hx⟩
    · exact ⟨rfl, hx⟩
    · exact ih hxs (last + 1) l hl

/-- The lines behind those of the code end the function. -/
lemma endLines_leads (s : State) : Leads (endLines s names) s.inBlock false := by
  have hprint : Leads (printLines s.last names ++ [.ret]) true false :=
    (leads_straight fun l hl => (printLines_plain hnames s.last l hl).1).append rfl
  have hexit : Leads (if s.inBlock then [] else [.block .exit]) s.inBlock true := by
    cases s.inBlock <;> rfl
  exact hexit.append hprint

/-- The lines behind those of the code can be read and lead nowhere, and begin at most one block. -/
lemma endLines_spec (s : State) : (∀ l ∈ endLines s names, l.Legible ∧ l.targets = []) ∧
      (blocksOf (endLines s names) = [] ∨ blocksOf (endLines s names) = [.exit]) := by
  have hplain := printLines_plain hnames s.last
  constructor
  · intro l hl
    rw [endLines, mem_append, mem_append, mem_singleton] at hl
    rcases hl with hl | hl | rfl
    · split at hl
      · cases hl
      · obtain rfl := mem_singleton.mp hl
        exact ⟨trivial, rfl⟩
    · exact ⟨(hplain l hl).2, Line.targets_straight (hplain l hl).1⟩
    · exact ⟨trivial, rfl⟩
  · rw [endLines, blocksOf_append, blocksOf_append, blocksOf_straight fun l hl => (hplain l hl).1]
    split
    · exact .inl rfl
    · exact .inr rfl

end

lemma filterMap_label?_il (lines : List Line) :
    (lines.map Line.il).filterMap Il.Line.label? = (blocksOf lines).map Block.name := by
  rw [blocksOf, filterMap_map, map_filterMap]
  congr 1
  funext l
  cases l <;> rfl

lemma Line.targets_il (l : Line) : l.il.targets = l.targets.map Block.name := by
  cases l <;> rfl

/-- A block that lines begin has its label among them. -/
lemma label_mem_of_mem_blocksOf {lines b} (h : b ∈ blocksOf lines) :
    .label b.name ∈ lines.map Line.il := by
  obtain ⟨l, hl, hb⟩ := mem_filterMap.mp h
  cases l with
  | block b' =>
    obtain rfl := Option.some.inj hb
    exact mem_map.mpr ⟨.block b', hl, rfl⟩
  | _ => cases hb

/-- The module of a regular program keeps the rules of the language. -/
lemma moduleOf_valid (hp : p.Regular) (hnames : ∀ x ∈ p.globals.map Prod.fst, Text.IsName x)
    (hlines : Selects {} p.code lines s) : (moduleOf p lines s).il.Valid := by
  obtain ⟨hend, hexit⟩ := endLines_spec hnames s
  refine ⟨?_, ?_, ?_⟩
  · have hstart : Leads [.block .start] false true := rfl
    exact hstart.append (hlines.leads.append (endLines_leads hnames s))
  · show (((moduleOf p lines s).lines.map Line.il).filterMap Il.Line.label?).Nodup
    rw [filterMap_label?_il]
    refine Nodup.map (fun b b' h => Block.name_inj h) ?_
    show (.start :: blocksOf (lines ++ endLines s _)).Nodup
    rw [blocksOf_append, nodup_cons, mem_append, not_or]
    have hstart : Block.start ∉ blocksOf lines := fun h => hlines.between _ h
    have hapart : Block.exit ∉ blocksOf lines := fun h => hlines.between _ h
    rcases hexit with hexit | hexit
    · rw [hexit, append_nil]
      exact ⟨⟨hstart, nofun⟩, hlines.nodup⟩
    · rw [hexit]
      refine ⟨⟨hstart, by simp⟩, hlines.nodup.append (nodup_singleton _) fun b hb hb' => ?_⟩
      obtain rfl := mem_singleton.mp hb'
      exact hapart hb
  · intro l hl t ht
    obtain ⟨line, hline, rfl⟩ := mem_map.mp hl
    rw [Line.targets_il] at ht
    obtain ⟨b, hb, rfl⟩ := mem_map.mp ht
    have hblock : b ∈ blocksOf lines := by
      rcases mem_cons.mp hline with rfl | hline
      · cases hb
      · rcases mem_append.mp hline with hline | hline
        · rcases hlines.targets line hline b hb with hown | ⟨i, hi, hjump, k, hk, rfl⟩
          · exact hown
          · exact hlines.marks k (mem_filterMap.mpr ⟨_, hp.targets i hi hjump _ hk, rfl⟩)
        · rw [(hend line hline).2] at hb
          cases hb
    show Il.Line.label b.name ∈ (lines ++ endLines s _).map Line.il
    rw [map_append]
    exact mem_append_left _ (label_mem_of_mem_blocksOf hblock)

lemma moduleOf_legible (hnames : ∀ x ∈ p.globals.map Prod.fst, Text.IsName x)
    (hlines : Selects {} p.code lines s) :
    ∀ l ∈ (moduleOf p lines s).lines, l.Legible := by
  intro l hl
  rcases mem_cons.mp hl with rfl | hl
  · trivial
  · rcases mem_append.mp hl with hl | hl
    · exact hlines.legible l hl
    · exact ((endLines_spec hnames s).1 l hl).1

/-- The text of a regular program is read as its module. -/
theorem read_moduleOf (hp : p.Regular) (hnames : ∀ x ∈ p.globals.map Prod.fst, Text.IsName x)
    (hlines : Selects {} p.code lines s) :
    Il.read (moduleOf p lines s).text = some (moduleOf p lines s).il :=
  Module.read_text hnames (moduleOf_legible hnames hlines) (moduleOf_valid hp hnames hlines)

end Programs

end ThreeAddress.Qbe
