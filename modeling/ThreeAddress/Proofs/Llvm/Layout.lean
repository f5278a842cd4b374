import ThreeAddress.Proofs.Llvm.Selection

/-!
# Where instructions stand in a module

The position of an instruction is behind what has been added to the current block for the code in
front of it (`Falls`). `Realized` says what stands there, and at which positions control goes on: a
jump goes to the beginning of its label's block, which is the position of the instruction behind the
mark. This is all that is needed to follow the module, be it along executions or along all walks.
-/

namespace ThreeAddress.Llvm

open List Lowering Select

variable {globals : List String} {s : State} {b : Nat}

/-! ## The finished module -/

/-- The module with the blocks of a state. -/
def State.module (s : State) (globals : List String) :
    Module := { globals, blocks := s.blocks.toList }

/-- The blocks have the instructions that they have in the state. -/
@[simp] lemma State.code_module : (s.module globals).code b = s.code b := by
  have hblocks : (s.module globals).blocks[b]? = s.blocks[b]? := Array.getElem?_toList
  unfold Module.code State.code
  cases hblock : s.blocks[b]? with
  | none | some => simp only [hblocks, hblock]

/-- The blocks end as they do in the state. -/
@[simp] lemma State.exit?_module : (s.module globals).exit? b = s.exit? b := by
  have hblocks : (s.module globals).blocks[b]? = s.blocks[b]? := Array.getElem?_toList
  unfold Module.exit? State.exit?
  cases hblock : s.blocks[b]? with
  | none | some => simp only [hblocks, hblock]

/-- Control comes to the instruction at an index, from the one in front of it, at a position. -/
def Falls (p : Program) (j : Nat) (place : Position) : Prop :=
  ∃ s, instrs (p.globals.map Prod.fst) (p.code.take j) {} = .ok ((), s) ∧
    s.current = some place.block ∧
    place.offset = (s.code place.block).length

/-- What stands at the position of the instruction with an index, and where control goes on. -/
inductive Realized (p : Program) (m : Module) (j b o : Nat) : Instr → Prop
  | plain {i insts} (hinsts : Computes (p.globals.map Prod.fst) i insts)
      (hcode : CodeAt (m.code b) o insts) (hnext : Falls p (j + 1) ⟨b, o + insts.length⟩) :
      Realized p m j b o i
  | branch {wanted op left right l through target} (r : Nat)
      (hleft : left.Valued (p.globals.map Prod.fst))
      (hright : right.Valued (p.globals.map Prod.fst))
      (hcode : CodeAt (m.code b) o (testInsts r op left right))
      (hend : o + (testInsts r op left right).length = (m.code b).length)
      (hexit : m.exit? b = some (branchEnd wanted (.result (after (after r left) right)) target
      through)) (htarget : ∀ k, p.code[k]? = some (.mark l) → Falls p (k + 1) ⟨target, 0⟩)
      (hthrough : Falls p (j + 1) ⟨through, 0⟩) :
      Realized p m j b o (.branch wanted op left right l)
  | jump {l target} (hend : o = (m.code b).length) (hexit : m.exit? b = some (.jump target))
      (htarget : ∀ k, p.code[k]? = some (.mark l) → Falls p (k + 1) ⟨target, 0⟩) :
      Realized p m j b o (.jump l)
  | mark {l next} (hend : o = (m.code b).length) (hexit : m.exit? b = some (.jump next))
      (hnext : Falls p (j + 1) ⟨next, 0⟩) : Realized p m j b o (.mark l)

/-- The translation of a regular program gets to a state behind its code and finishes. -/
structure Compiled (p : Program) (globals : List String) (s final : State) : Prop where
  regular : p.Regular
  code : instrs (p.globals.map Prod.fst) p.code {} = .ok ((), s)
  finished : Finished globals s final

section Layout

variable {p : Program} {s1 final : State} {j o : Nat} {i : Instr}

/-- The translation of a program passes each of its instructions. -/
lemma Compiled.split (h : Compiled p globals s final) (hi : p.code[j]? = some i) :
    ∃ s1 s2, instrs (p.globals.map Prod.fst) (p.code.take j) {} = .ok ((), s1) ∧
      instrs (p.globals.map Prod.fst) (p.code.take (j + 1)) {} = .ok ((), s2) ∧
      Effect (p.globals.map Prod.fst) i s1 s2 ∧ Extends s2 final := by
  obtain ⟨hp, hs, hfinal⟩ := h
  obtain ⟨hj, rfl⟩ := List.getElem?_eq_some_iff.mp hi
  have hsplit : p.code = p.code.take j ++ ([p.code[j]] ++ p.code.drop (j + 1)) := by
    rw [singleton_append, ← drop_eq_getElem_cons hj, take_append_drop]
  have hmarks := hp.marks
  rw [hsplit, marked_append, marked_append, map_append, map_append, ← append_assoc] at hmarks
  have hfront : (marked (p.code.take j)).map Label.name |>.Nodup :=
    hmarks.of_append_left.of_append_left
  obtain ⟨s1, hs1, h1, -, -⟩ := instrs_ok (fun k hk => hp.forms k (mem_of_mem_take hk)) ready_start
    (by simpa using hfront)
  have hfresh : ∀ l ∈ marked [p.code[j]], l.name ∉ (marked (p.code.take j)).map Label.name := by
    intro l hl hmem
    exact (nodup_append.mp hmarks.of_append_left).2.2 _ hmem _ (mem_map_of_mem hl) rfl
  obtain ⟨s2, hone, h2, heffect⟩ := translates_of_regular (hp.forms _ (getElem_mem hj)) h1 hfresh
  obtain ⟨s3, hback, -, hext, -⟩ :=
    instrs_ok (fun k hk => hp.forms k (mem_of_mem_drop hk)) h2 hmarks
  have hnext : instrs (p.globals.map Prod.fst) (p.code.take (j + 1)) {} = .ok ((), s2) := by
    rw [take_succ_eq_append_getElem hj, instrs_append hs1]
    exact bind_ok hone
  rw [hsplit, ← append_assoc, ← take_succ_eq_append_getElem hj, instrs_append hnext, hback] at hs
  obtain rfl := (Prod.mk.inj (Except.ok.inj hs)).2
  exact ⟨s1, s2, hs1, hnext, heffect, hext.trans hfinal.ext⟩

/-- What has been added to a block stands there in the end. -/
lemma Extends.codeAt {insts} (h : Extends s1 final) (hcode : s1.code b = s.code b ++ insts) :
    CodeAt ((final.module globals).code b) (s.code b).length insts := by
  rw [State.code_module]
  obtain ⟨rest, hrest⟩ := h.code b
  rw [hcode] at hrest
  have hself := CodeAt.self (final.code b)
  rw [← hrest] at hself ⊢
  have hat := hself.left.right
  rwa [Nat.zero_add] at hat

/-- Behind the mark of a label control is at the beginning of the label's block. -/
lemma Compiled.falls_mark {l} (h : Compiled p globals s final) (hl : final.marked[l.name]? = some b)
    (hj : p.code[j]? = some (.mark l)) : Falls p (j + 1) ⟨b, 0⟩ := by
  obtain ⟨s1, s2, -, hs2, heffect, hext⟩ := h.split hj
  obtain ⟨next, hmarked, hcur, hempty⟩ := heffect.opened l rfl
  cases (hext.marked _ _ hmarked).symm.trans hl
  exact ⟨s2, hs2, hcur, by rw [hempty]; rfl⟩

/-- At the position of an instruction stands what has been added for it. -/
theorem Compiled.realized (h : Compiled p globals s final) (hat : Falls p j ⟨b, o⟩)
    (hi : p.code[j]? = some i) :
    Realized p (final.module globals) j b o i := by
  obtain ⟨s1, s2, hs1, hs2, heffect, hext⟩ := h.split hi
  obtain ⟨s1', hs1', hb, ho⟩ := hat
  obtain rfl := (Prod.mk.inj (Except.ok.inj (hs1.symm.trans hs1'))).2
  obtain rfl : o = (s1.code b).length := ho
  have htarget : ∀ {l : Label} {target}, s2.marked[l.name]? = some target →
      ∀ k, p.code[k]? = some (.mark l) → Falls p (k + 1) ⟨target, 0⟩ :=
    fun hl k hk => h.falls_mark (hext.marked _ _ hl) hk
  have hended : ∀ {t}, s2.exit? b = some t → (final.module globals).exit? b = some t ∧
      (final.module globals).code b = s2.code b := by
    intro t ht
    rw [State.exit?_module, State.code_module]
    exact hext.exit b t ht
  cases heffect.emitted b hb with
  | @plain i insts hinsts hcode hcur =>
    refine .plain hinsts (hext.codeAt hcode) ⟨s2, hs2, hcur, ?_⟩
    show _ = (s2.code b).length
    rw [hcode, length_append]
  | branch r hleft hright hcode hexit hl hcur hthrough =>
    obtain ⟨hexit', hcode'⟩ := hended hexit
    refine .branch r hleft hright (hext.codeAt hcode) ?_ hexit' (htarget hl) ⟨s2, hs2, hcur, ?_⟩
    · rw [hcode', hcode, length_append]
    · rw [hthrough]
      rfl
  | jump hcode hexit hl =>
    obtain ⟨hexit', hcode'⟩ := hended hexit
    refine .jump ?_ hexit' (htarget hl)
    rw [hcode', hcode]
  | mark hcode hexit hcur hempty =>
    obtain ⟨hexit', hcode'⟩ := hended hexit
    refine .mark ?_ hexit' ⟨s2, hs2, hcur, ?_⟩
    · rw [hcode', hcode]
    · rw [hempty]
      rfl

lemma falls_start : Falls p 0 ⟨body, 0⟩ := ⟨{}, rfl, rfl, by rw [code_start]; rfl⟩

/-- Behind the code the variables are printed, and the function returns. -/
lemma Compiled.printing (h : Compiled p globals s final) (hat : Falls p j ⟨b, o⟩)
    (hend : p.code[j]? = none) :
    (final.module globals).exit? b = some .ret ∧ ∃ r,
      CodeAt ((final.module globals).code b) o (printInsts r globals) ∧
      o + (printInsts r globals).length = ((final.module globals).code b).length := by
  obtain ⟨s', hs', hb, ho⟩ := hat
  rw [take_of_length_le (getElem?_eq_none_iff.mp hend)] at hs'
  obtain rfl := (Prod.mk.inj (Except.ok.inj (h.code.symm.trans hs'))).2
  obtain rfl : o = (s.code b).length := ho
  obtain ⟨hexit, r, hcode⟩ := h.finished.prints b hb
  rw [State.exit?_module, State.code_module]
  refine ⟨hexit, r, ?_, ?_⟩
  · have hself := CodeAt.self (final.code b)
    rw [hcode] at hself ⊢
    have hat := hself.right
    rwa [Nat.zero_add] at hat
  · rw [hcode, length_append]

end Layout

end ThreeAddress.Llvm
