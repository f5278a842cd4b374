import Mathlib.Data.Set.Basic
import ThreeAddress.Code.Reachable
import ThreeAddress.Proofs.Machine.Paths

/-!
# The control-flow graph of code

The nodes of the graph are the places of the instructions, and the edges go from a place to its
successors: a conditional jump has two, whatever its test would give. A walk starts at the first
instruction and follows the edges.

The last part says what an executed instruction can do: which values it has read, and what it leaves
of the machine.
-/

namespace ThreeAddress

open List

/-- An instruction reads an operand, as an argument or in its test. -/
def Instr.Reads (i : Instr) (v : Operand) : Prop :=
  some v ∈ i.args ∨ ∃ t, i.test = some t ∧ (t.left = some v ∨ t.right = some v)

/-! ## Walks -/

/-- Control can go from a place to another. -/
def Edge (code : List Instr) (index : LabelIndex) (i j : Nat) : Prop :=
  ∃ instr js, code[i]? = some instr ∧ successors index i instr = .ok js ∧ j ∈ js

/-- A walk from the first instruction passes the places `visited`, in order, and has come to a
place. -/
inductive Walk (code : List Instr) (index : LabelIndex) : List Nat → Nat → Prop
  | start : Walk code index [] 0
  | step {visited i j} (hwalk : Walk code index visited i) (hedge : Edge code index i j) :
      Walk code index (visited ++ [i]) j

section Edges

variable {code : List Instr} {index : LabelIndex} {i j : Nat} {instr : Instr}

/-- An instruction that is no jump leads to the next one only. -/
lemma Edge.eq_succ (h : Edge code index i j) (hi : code[i]? = some instr)
    (hjump : instr.op.isJump = false) :
    j = i + 1 := by
  obtain ⟨instr', js, hi', hjs, hj⟩ := h
  cases hi.symm.trans hi'
  rw [successors, hjump] at hjs
  cases hjs
  exact mem_singleton.mp hj

/-- A jump leads to the place of its label, and a conditional one to the next instruction as well.
-/
lemma Edge.eq_place {l} (h : Edge code index i j) (hi : code[i]? = some instr)
    (hl : instr.target = some l) (hjump : instr.op.isJump = true) :
    j = Machine.place index (some l) ∨ j = i + 1 ∧ instr.op ≠ .jump := by
  obtain ⟨instr', js, hi', hjs, hj⟩ := h
  cases hi.symm.trans hi'
  rw [successors, if_pos hjump, hl] at hjs
  simp only at hjs
  cases hplace : index[l.name]? with
  | none =>
    rw [hplace] at hjs
    cases hjs
  | some target =>
    have hat : Machine.place index (some l) = target :=
      by rw [Machine.place, hplace, Option.getD_some]
    rw [hplace] at hjs
    cases hjs
    rw [hat]
    split at hj
    · exact .inl (mem_singleton.mp hj)
    · rename_i hop
      rcases mem_cons.mp hj with hj | hj
      · exact .inl hj
      · exact .inr ⟨mem_singleton.mp hj, hop⟩

lemma edge_succ (hi : code[i]? = some instr) (hjump : instr.op.isJump = false) :
    Edge code index i (i + 1) := by
  refine ⟨instr, [i + 1], hi, ?_, mem_cons_self⟩
  rw [successors, hjump]
  rfl

/-- A jump has the place of its label as a successor, and a conditional one the next instruction as
well. -/
lemma edges_jump {l} (hi : code[i]? = some instr) (hjump : instr.op.isJump = true)
    (hl : instr.target = some l) (hj : index[l.name]? = some j) : Edge code index i j ∧
    (instr.op ≠ .jump → Edge code index i (i + 1)) := by
  have hjs : successors index i instr = .ok (if instr.op = .jump then [j] else [j, i + 1]) := by
    rw [successors, if_pos hjump, hl]
    simp only [hj]
  refine ⟨⟨instr, _, hi, hjs, ?_⟩, fun hop => ⟨instr, _, hi, hjs, ?_⟩⟩
  · split <;> exact mem_cons_self
  · rw [if_neg hop]
    exact mem_cons_of_mem _ mem_cons_self

end Edges

/-! ## Executed instructions -/

lemma bind_eq_ok {ε α β : Type} {x : Except ε α} {f : α → Except ε β} {b : β}
    (h : x >>= f = .ok b) :
    ∃ a, x = .ok a ∧ f a = .ok b := by
  cases x with
  | error e => cases h
  | ok a => exact ⟨a, rfl, h⟩

namespace Machine

section Executed

variable {index : LabelIndex} {m m' : Machine} {i : Instr}

/-- A value is written into a variable or into a temporary. -/
lemma write_cases {dst w} (h : m.write dst w = .ok m') :
    (∃ x, dst = some (.global x) ∧ m' = { m with globals := m.globals.insert x w }) ∨
    ∃ name id, dst = some (.temp name id) ∧ m' = { m with temps := m.temps.insert name w } := by
  unfold write at h
  split at h
  · exact .inl ⟨_, rfl, (Except.ok.inj h).symm⟩
  · exact .inr ⟨_, _, rfl, (Except.ok.inj h).symm⟩
  · cases h

/-- An executed operation has read its arguments and written its result. -/
lemma step_plain_cases (hjump : i.op.isJump = false) (hmark : i.op ≠ .mark)
    (h : m.step index i = .ok m') :
    ∃ xs w m1, m.readAll i.args = .ok xs ∧ compute i.op xs = .ok w ∧ m.write i.result w = .ok m1 ∧
      m' = { m1 with next := m1.next + 1 } := by
  rw [step_plain hjump hmark] at h
  obtain ⟨xs, hxs, h⟩ := bind_eq_ok h
  obtain ⟨w, hw, h⟩ := bind_eq_ok h
  obtain ⟨m1, hm1, h⟩ := bind_eq_ok h
  exact ⟨xs, w, m1, hxs, hw, hm1, (Except.ok.inj h).symm⟩

/-- An executed instruction was a mark, a jump, a conditional jump whose test was decided, or an
operation whose arguments were read and whose result was written. -/
lemma step_cases (h : m.step index i = .ok m') :
    (i.op = .mark ∧ m' = { m with next := m.next + 1 }) ∨
    (i.op = .jump ∧ m' = { m with next := place index i.target }) ∨
    (∃ b, i.op = .jumpIf ∧ m.decide i.test = .ok b ∧
      m' = { m with next := if b then place index i.target else m.next + 1 }) ∨
    (∃ b, i.op = .jumpUnless ∧ m.decide i.test = .ok b ∧
      m' = { m with next := if b then m.next + 1 else place index i.target }) ∨
    (i.op.isJump = false ∧ i.op ≠ .mark ∧ ∃ xs w m1, m.readAll i.args = .ok xs ∧
      compute i.op xs = .ok w ∧ m.write i.result w = .ok m1 ∧
      m' = { m1 with next := m1.next + 1 }) := by
  by_cases hplain : i.op.isJump = false ∧ i.op ≠ .mark
  · obtain ⟨hjump, hmark⟩ := hplain
    exact .inr (.inr (.inr (.inr ⟨hjump, hmark, step_plain_cases hjump hmark h⟩)))
  · cases hop : i.op with
    | mark =>
      rw [step, hop] at h
      exact .inl ⟨rfl, (Except.ok.inj h).symm⟩
    | jump =>
      rw [step, hop] at h
      exact .inr (.inl ⟨rfl, (Except.ok.inj h).symm⟩)
    | jumpIf =>
      rw [step, hop] at h
      obtain ⟨b, hb, h⟩ := bind_eq_ok h
      exact .inr (.inr (.inl ⟨b, rfl, hb, (Except.ok.inj h).symm⟩))
    | jumpUnless =>
      rw [step, hop] at h
      obtain ⟨b, hb, h⟩ := bind_eq_ok h
      exact .inr (.inr (.inr (.inl ⟨b, rfl, hb, (Except.ok.inj h).symm⟩)))
    | _ => simp [hop, Opcode.isJump] at hplain

/-- An executed instruction follows an edge, if jumps go to labels in the index. -/
lemma step_edge {code} (hi : code[m.next]? = some i) (h : m.step index i = .ok m')
    (hindex : i.op.isJump = true → ∃ l j, i.target = some l ∧ index[l.name]? = some j) :
    Edge code index m.next m'.next := by
  have htaken : i.op.isJump = true → Edge code index m.next (place index i.target) ∧
      (i.op ≠ .jump → Edge code index m.next (m.next + 1)) := by
    intro hjump
    obtain ⟨l, j, hl, hj⟩ := hindex hjump
    rw [hl, place, hj, Option.getD_some]
    exact edges_jump hi hjump hl hj
  rcases step_cases h with ⟨hop, rfl⟩ | ⟨hop, rfl⟩ | ⟨b, hop, -, rfl⟩ | ⟨b, hop, -, rfl⟩ |
    ⟨hjump, -, xs, w, m1, -, -, hwrite, rfl⟩
  · exact edge_succ hi (hop ▸ rfl)
  · exact (htaken (hop ▸ rfl)).1
  · obtain ⟨hedge, hnext⟩ := htaken (hop ▸ rfl)
    cases b with
    | true => exact hedge
    | false => exact hnext (by rw [hop]; decide)
  · obtain ⟨hedge, hnext⟩ := htaken (hop ▸ rfl)
    cases b with
    | true => exact hnext (by rw [hop]; decide)
    | false => exact hedge
  · have hnext : m1.next = m.next := by
      rcases write_cases hwrite with ⟨_, -, rfl⟩ | ⟨_, _, -, rfl⟩ <;> rfl
    rw [hnext]
    exact edge_succ hi hjump

end Executed

end Machine

end ThreeAddress
