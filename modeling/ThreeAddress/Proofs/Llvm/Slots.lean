import ThreeAddress.Proofs.Llvm.Layout

/-!
# Stack slots are stored into before they are loaded

`Module.Safe m k p A` says that every walk of at most `k` edges from the position `p` on loads only
slots that are in `A` or are stored into on the walk itself. A position of an instruction is safe
because the instruction is covered: what is loaded for it are the temporaries that it reads, and
what is stored is the temporary that it writes.
-/

namespace ThreeAddress.Llvm

open List Lowering Select Machine

variable {l : Label} {j : Nat} {p : Position} {A : Set Operand}

/-! ## Safe positions -/

/-- Every walk of at most `k` edges from a position on, before which the slots in `A` have been
stored into, loads only slots that have been stored into. -/
def Module.Safe (m : Module) : Nat → Position → Set String → Prop
  | 0, _, _ => True
  | k + 1, p, A => (∀ inst name, m.instAt? p = some inst → inst.loads? = some name → name ∈ A) ∧
      ∀ q, m.Edge p q → m.Safe k q
      (A ∪ {name | ∃ inst, m.instAt? p = some inst ∧ inst.stores? = some name})

section Safe

variable {m : Module} {k b o : Nat} {A B : Set String}

lemma Module.Safe.mono (h : m.Safe k p A) (hAB : A ⊆ B) : m.Safe k p B := by
  induction k generalizing p A B with
  | zero => trivial
  | succ k ih =>
    obtain ⟨hloads, hnext⟩ := h
    refine ⟨fun inst name hinst hname => hAB (hloads inst name hinst hname), fun q hq => ?_⟩
    exact ih (hnext q hq) (Set.union_subset_union_left _ hAB)

/-- Shorter walks are safe too. -/
lemma Module.Safe.shorter (h : m.Safe k p A) (hj : j ≤ k) : m.Safe j p A := by
  induction j generalizing k p A with
  | zero => trivial
  | succ j ih =>
    cases k with
    | zero => exact absurd hj (Nat.not_succ_le_zero j)
    | succ k => exact ⟨h.1, fun q hq => ih (h.2 q hq) (Nat.le_of_succ_le_succ hj)⟩

/-- An instruction that loads what has been stored is followed by the next one. -/
lemma Module.Safe.of_inst {inst} (hinst : (m.code b)[o]? = some inst)
    (hloads : ∀ name, inst.loads? = some name → name ∈ A)
    (h : m.Safe k ⟨b, o + 1⟩ (A ∪ {name | inst.stores? = some name})) :
    m.Safe (k + 1) ⟨b, o⟩ A := by
  obtain ⟨ho, -⟩ := List.getElem?_eq_some_iff.mp hinst
  refine ⟨fun inst' name hinst' hname => ?_, fun q hq => ?_⟩
  · obtain rfl := Option.some.inj (hinst.symm.trans hinst')
    exact hloads name hname
  · have hstores : {name | inst.stores? = some name} ⊆
        {name | ∃ inst', m.instAt? ⟨b, o⟩ = some inst' ∧ inst'.stores? = some name} :=
      fun name hname => ⟨inst, hinst, hname⟩
    generalize hp : (⟨b, o⟩ : Position) = p at hq hstores
    cases hq with
    | next =>
      obtain ⟨rfl, rfl⟩ := Position.mk.inj hp
      exact h.mono (Set.union_subset_union_right _ hstores)
    | leave =>
      obtain ⟨rfl, rfl⟩ := Position.mk.inj hp
      exact absurd ho (Nat.lt_irrefl _)

/-- Behind the last instruction control goes to the blocks that the end of the block leads to. -/
lemma Module.Safe.of_exit {t} (hend : o = (m.code b).length) (hexit : m.exit? b = some t)
    (h : ∀ c ∈ t.targets, m.Safe k ⟨c, 0⟩ A) : m.Safe (k + 1) ⟨b, o⟩ A := by
  refine ⟨fun inst name hinst _ => ?_, fun q hq => ?_⟩
  · rw [Module.instAt?, hend, getElem?_eq_none (le_refl _)] at hinst
    cases hinst
  · generalize hp : (⟨b, o⟩ : Position) = p at hq
    cases hq with
    | next ho =>
      obtain ⟨rfl, rfl⟩ := Position.mk.inj hp
      omega
    | leave ht hc =>
      obtain ⟨rfl, -⟩ := Position.mk.inj hp
      obtain rfl := Option.some.inj (hexit.symm.trans ht)
      exact (h _ hc).mono Set.subset_union_left

/-- Instructions that load what has been stored before them. -/
lemma Module.Safe.of_insts {insts} (hcode : CodeAt (m.code b) o insts)
    (hloads : ∀ inst ∈ insts, ∀ name, inst.loads? = some name → name ∈ A)
    (h : m.Safe k ⟨b, o + insts.length⟩ (A ∪ {name | ∃ inst ∈ insts, inst.stores? = some name})) :
    m.Safe (k + insts.length) ⟨b, o⟩ A := by
  induction insts generalizing o A with
  | nil => exact h.mono (Set.union_subset (le_refl _) (by simp))
  | cons inst insts ih =>
    refine .of_inst hcode.head (hloads inst mem_cons_self) (ih hcode.tail ?_ ?_)
    · exact fun inst' hinst' name hname => .inl (hloads inst' (mem_cons_of_mem _ hinst') name hname)
    · rw [length_cons, Nat.add_comm insts.length 1, ← Nat.add_assoc] at h
      refine h.mono ?_
      rintro name (hname | ⟨inst', hinst', hname⟩)
      · exact .inl (.inl hname)
      · rcases mem_cons.mp hinst' with rfl | hinst'
        · exact .inl (.inr hname)
        · exact .inr ⟨inst', hinst', hname⟩

/-- Where a walk comes to, what remains is safe if all was safe in the beginning. -/
lemma Module.Walk.safe {visited} (hstart : ∀ k, m.Safe k ⟨entry, 0⟩ ∅) (hwalk : m.Walk visited p)
    (k : Nat) :
    m.Safe k p {name | ∃ q ∈ visited, ∃ inst, m.instAt? q = some inst ∧
      inst.stores? = some name} := by
  induction hwalk generalizing k with
  | start => exact (hstart k).mono (Set.empty_subset _)
  | step hwalk hedge ih =>
    refine ((ih (k + 1)).2 _ hedge).mono ?_
    rintro name (⟨q, hq, hstored⟩ | hstored)
    · exact ⟨q, mem_append_left _ hq, hstored⟩
    · exact ⟨_, mem_append_right _ mem_cons_self, hstored⟩

end Safe

/-! ## The slots of instructions -/

section Slots

variable {names : List String} {i : Instr} {insts : List Inst} {inst : Inst} {name : String}
  {v : Operand} {r : Nat}

/-- An operand that is loaded from a slot is a temporary. -/
lemma temp_of_loads (hinst : inst ∈ loads r v) (hname : inst.loads? = some name) :
    ∃ id, v = .temp name id := by
  cases v with
  | const | label => cases hinst
  | global x =>
    obtain rfl := mem_singleton.mp hinst
    cases hname
  | temp n id =>
    obtain rfl := mem_singleton.mp hinst
    cases hname
    exact ⟨id, rfl⟩

/-- Two operands and an instruction that loads nothing. -/
lemma temp_of_loads_two {left right rest} (hrest : ∀ inst ∈ rest, inst.loads? = none) {r'}
    (hinst : inst ∈ loads r left ++ (loads r' right ++ rest)) (hname : inst.loads? = some name) :
    ∃ id, left = .temp name id ∨ right = .temp name id := by
  rcases mem_append.mp hinst with hinst | hinst
  · obtain ⟨id, rfl⟩ := temp_of_loads hinst hname
    exact ⟨id, .inl rfl⟩
  · rcases mem_append.mp hinst with hinst | hinst
    · obtain ⟨id, rfl⟩ := temp_of_loads hinst hname
      exact ⟨id, .inr rfl⟩
    · rw [hrest inst hinst] at hname
      cases hname

section

variable (h : Computes names i insts)
include h

/-- What is loaded for an operation are temporaries that it reads. -/
lemma Computes.reads (hinst : inst ∈ insts) (hname : inst.loads? = some name) :
    ∃ id, i.Reads (.temp name id) := by
  cases h with
  | copy r hdst hsrc hplace =>
    rcases mem_append.mp hinst with hinst | hinst
    · obtain ⟨id, rfl⟩ := temp_of_loads hinst hname
      exact ⟨id, .inl mem_cons_self⟩
    · obtain rfl := mem_singleton.mp hinst
      cases hname
  | neg r hdst hsrc hplace =>
    rcases mem_append.mp hinst with hinst | hinst
    · obtain ⟨id, rfl⟩ := temp_of_loads hinst hname
      exact ⟨id, .inl mem_cons_self⟩
    · simp only [mem_cons, not_mem_nil, or_false] at hinst
      rcases hinst with rfl | rfl <;> cases hname
  | binary r hop hdst hleft hright hplace =>
    have hrest := temp_of_loads_two (by simp [Inst.loads?]) hinst hname
    obtain ⟨id, rfl | rfl⟩ := hrest
    · exact ⟨id, .inl mem_cons_self⟩
    · exact ⟨id, .inl (mem_cons_of_mem _ mem_cons_self)⟩

/-- A temporary that an operation writes is stored into its slot. -/
lemma Computes.stores {id} (hres : i.result = some (.temp name id)) :
    ∃ inst ∈ insts, inst.stores? = some name := by
  cases h with
  | copy r hdst hsrc hplace =>
    obtain rfl := Option.some.inj hres
    obtain rfl := Option.some.inj hplace
    exact ⟨_, mem_append_right _ mem_cons_self, rfl⟩
  | neg r hdst hsrc hplace =>
    obtain rfl := Option.some.inj hres
    obtain rfl := Option.some.inj hplace
    exact ⟨_, mem_append_right _ (mem_cons_of_mem _ mem_cons_self), rfl⟩
  | binary r hop hdst hleft hright hplace =>
    obtain rfl := Option.some.inj hres
    obtain rfl := Option.some.inj hplace
    exact ⟨_, mem_append_right _ (mem_append_right _ (mem_cons_of_mem _ mem_cons_self)), rfl⟩

lemma Computes.length_pos : 0 < insts.length := by
  cases h with
  | copy | neg | binary =>
    simp only [length_append, length_cons]
    omega

/-- An operation does not jump. -/
lemma Computes.isJump : i.op.isJump = false := by
  cases h with
  | copy | neg => rfl
  | @binary op operation dst left right place r hop =>
    cases op with
    | jump | jumpIf | jumpUnless => cases hop
    | _ => rfl

end

/-- What is loaded for a branch are temporaries that it reads. -/
lemma testInsts_reads {op left right} (wanted : Bool) (hinst : inst ∈ testInsts r op left right)
    (hname : inst.loads? = some name) :
    ∃ id, (Instr.branch wanted op left right l).Reads (.temp name id) := by
  have htest : (Instr.branch wanted op left right l).test = some ⟨op, some left, some right⟩ := by
    cases wanted <;> rfl
  obtain ⟨id, hor⟩ := temp_of_loads_two (by simp [Inst.loads?]) hinst hname
  refine ⟨id, .inr ⟨_, htest, ?_⟩⟩
  rcases hor with rfl | rfl
  · exact .inl rfl
  · exact .inr rfl

/-- Printing uses no slots. -/
lemma printInsts_loads {xs} (hinst : inst ∈ printInsts r xs) : inst.loads? = none := by
  induction xs generalizing r with
  | nil => cases hinst
  | cons x xs ih =>
    simp only [printInsts, mem_cons] at hinst
    rcases hinst with rfl | rfl | rfl | hinst
    · rfl
    · rfl
    · rfl
    · exact ih hinst

end Slots

/-! ## Programs -/

section Programs

variable {p : Program} {s final : State} {index : LabelIndex} {globals : List String}

/-- What is covered behind an edge is covered after the writes of the instruction. -/
lemma covered_next {code q i} (hcovered : ∀ n, Covered code index n j A) (hi : code[j]? = some i)
    (hedge : Edge code index j q) (n : Nat) :
    Covered code index n q (A ∪ {v | i.result = some v}) :=
  (hcovered (n + 1) i hi).2 q hedge

/-- Behind the mark of a label to which control can go, as much is covered as there. -/
lemma covered_mark {code} (hcovered : ∀ n, Covered code index n j A)
    (hj : code[j]? = some (.mark l)) (n : Nat) :
    Covered code index n (j + 1) A :=
  (covered_next hcovered hj (edge_succ hj rfl) n).mono (Set.union_subset (le_refl _) nofun)

/-- In a regular program there are edges from a jump to the mark of its label, and from a
conditional one to the next instruction. -/
lemma edges_to_mark (hp : p.Regular) (hindex : labelIndex p.code = .ok index) {i}
    (hi : p.code[j]? = some i) (hjump : i.op.isJump = true) (hl : i.target = some l) :
    ∃ k, p.code[k]? = some (.mark l) ∧ Edge p.code index j k ∧
    (i.op ≠ .jump → Edge p.code index j (j + 1)) := by
  obtain ⟨k, hk⟩ := mem_iff_getElem?.mp (hp.targets i (mem_of_getElem? hi) hjump l hl)
  obtain ⟨hedge, hnext⟩ := edges_jump hi hjump hl (labelIndex_locates hindex hk)
  exact ⟨k, hk, hedge, hnext⟩

/-- The positions of covered instructions are safe. -/
theorem Compiled.safe (h : Compiled p globals s final)
    (hindex : labelIndex p.code = .ok index) {k b o B} (hat : Falls p j ⟨b, o⟩)
    (hcovered : ∀ n, Covered p.code index n j A) (hAB : ∀ name id, .temp name id ∈ A → name ∈ B) :
    (final.module globals).Safe k ⟨b, o⟩ B := by
  -- Every position is left by at least one edge, so that the walks get shorter.
  induction k generalizing j b o A B with
  | zero => trivial
  | succ k ih =>
    cases hi : p.code[j]? with
    | none =>
      obtain ⟨hexit, r, hcode, hend⟩ := h.printing hat hi
      refine (Module.Safe.of_insts hcode (fun inst hinst name hname => ?_) ?_).shorter
        (Nat.le_add_right _ _)
      · rw [printInsts_loads hinst] at hname
        cases hname
      · exact .of_exit hend hexit (forall_mem_nil _)
    | some i =>
      have hreads : ∀ name id, i.Reads (.temp name id) → name ∈ B :=
        fun name id hread => hAB name id ((hcovered 1 i hi).1 name id hread)
      have hunwritten : i.result = none →
          ∀ name id, .temp name id ∈ A ∪ {v | i.result = some v} → name ∈ B := by
        rintro hnone name id (hmem | hmem)
        · exact hAB name id hmem
        · cases hnone.symm.trans hmem
      cases h.realized hat hi with
      | @plain i insts hinsts hcode hnext =>
        have hwritten : ∀ name id, .temp name id ∈ A ∪ {v | i.result = some v} →
            name ∈ B ∪ {name | ∃ inst ∈ insts, inst.stores? = some name} := by
          rintro name id (hmem | hmem)
          · exact .inl (hAB name id hmem)
          · exact .inr (hinsts.stores hmem)
        have hrest := ih hnext (covered_next hcovered hi (edge_succ hi hinsts.isJump)) hwritten
        refine (Module.Safe.of_insts hcode (fun inst hinst name hname => ?_) hrest).shorter ?_
        · obtain ⟨id, hread⟩ := hinsts.reads hinst hname
          exact hreads name id hread
        · exact Nat.add_le_add_left hinsts.length_pos k
      | @branch wanted op left right l through target r _ _ hcode hend hexit htarget hthrough =>
        have hfields : (Instr.branch wanted op left right l).op.isJump = true ∧
            (Instr.branch wanted op left right l).op ≠ .jump ∧
            (Instr.branch wanted op left right l).target = some l ∧
            (Instr.branch wanted op left right l).result = none := by
          cases wanted <;> exact ⟨rfl, nofun, rfl, rfl⟩
        obtain ⟨hjump, hop, hl, hnone⟩ := hfields
        obtain ⟨k', hk', hedge, hnext⟩ := edges_to_mark h.regular hindex hi hjump hl
        have htaken := ih (htarget k' hk') (covered_mark (covered_next hcovered hi hedge) hk')
          (hunwritten hnone)
        have hpassed := ih hthrough (covered_next hcovered hi (hnext hop)) (hunwritten hnone)
        refine (Module.Safe.of_insts hcode (fun inst hinst name hname => ?_) ?_).shorter
          (Nat.le_add_right _ _)
        · obtain ⟨id, hread⟩ := testInsts_reads wanted hinst hname
          exact hreads name id hread
        · refine .of_exit hend hexit fun c hc => ?_
          rcases mem_targets_branchEnd hc with rfl | rfl
          · exact htaken.mono Set.subset_union_left
          · exact hpassed.mono Set.subset_union_left
      | @jump l target hend hexit htarget =>
        obtain ⟨k', hk', hedge, -⟩ := edges_to_mark h.regular hindex hi rfl rfl
        refine .of_exit hend hexit fun c hc => ?_
        obtain rfl := mem_singleton.mp hc
        exact ih (htarget k' hk') (covered_mark (covered_next hcovered hi hedge) hk')
          (hunwritten rfl)
      | @mark l next hend hexit hnext =>
        refine .of_exit hend hexit fun c hc => ?_
        obtain rfl := mem_singleton.mp hc
        exact ih hnext (covered_mark hcovered hi) hAB

/-- The function is safe from its beginning. -/
lemma Compiled.safe_start (h : Compiled p globals s final) (k : Nat) :
    (final.module globals).Safe k ⟨entry, 0⟩ ∅ := by
  obtain ⟨names, hcode, -⟩ := h.finished.closed.slotted
  obtain ⟨index, hindex⟩ := labelIndex_of_checkLabels h.regular.labels
  have hbody : ∀ A, (final.module globals).Safe k ⟨body, 0⟩ A := by
    intro A
    exact (h.safe hindex falls_start (h.regular.covered index hindex) nofun).mono
      (Set.empty_subset A)
  have hallocas : ∀ inst ∈ (final.module globals).code entry, inst.loads? = none := by
    intro inst hinst
    rw [State.code_module, hcode] at hinst
    obtain ⟨name, -, rfl⟩ := mem_map.mp hinst
    rfl
  refine (Module.Safe.of_insts (.self _) (fun inst hinst name hname => ?_) ?_).shorter
    (Nat.le_add_right k _)
  · rw [hallocas inst hinst] at hname
    cases hname
  · have hexit : (final.module globals).exit? entry = some (.jump body) := by
      rw [State.exit?_module, h.finished.closed.entry_jumps]
    refine (Module.Safe.of_exit (Nat.zero_add _) hexit fun c hc => ?_).shorter (Nat.le_succ k)
    rw [mem_singleton.mp hc]
    exact hbody _

/-- The module of a regular program is well formed. -/
theorem Compiled.wellFormed (h : Compiled p globals s final) :
    (final.module globals).WellFormed := by
  have hclosed := h.finished.closed
  obtain ⟨names, hcode, hnodup, hnames⟩ := hclosed.slotted
  have hother : ∀ {b inst name}, inst ∈ final.code b → inst.loads? = some name ∨
      inst.stores? = some name →
        b ≠ entry := by
    rintro b inst name hinst huses rfl
    rw [hcode] at hinst
    obtain ⟨name', -, rfl⟩ := mem_map.mp hinst
    rcases huses with huses | huses
    · cases huses
    · cases huses
  refine ⟨?_, ?_, ?_, ?_, ?_, ?_⟩
  · intro block hblock
    obtain ⟨b, hb⟩ := mem_iff_getElem?.mp hblock
    have hb' : final.blocks[b]? = some block := by rwa [← Array.getElem?_toList]
    have hended := hclosed.ended b (Array.getElem?_eq_some_iff.mp hb').1
    unfold State.exit? at hended
    rwa [hb'] at hended
  · intro b t ht
    rw [State.exit?_module] at ht
    exact hclosed.targets b t ht
  · intro b inst hinst name hname
    rw [State.code_module] at hinst
    by_contra hb
    rw [(hclosed.used b hb inst hinst).1] at hname
    cases hname
  · have hsome : Inst.allocates? ∘ Inst.alloca = some := rfl
    rw [State.code_module, hcode, filterMap_map, hsome, filterMap_some]
    exact hnodup
  · intro b inst hinst name huses
    rw [State.code_module] at hinst ⊢
    have hslot := (hclosed.used b (hother hinst huses) inst hinst).2 name huses
    rw [hcode]
    exact mem_map_of_mem ((hnames name).mp hslot)
  · intro visited q inst name hwalk hinst hname
    exact (hwalk.safe (h.safe_start) 1).1 inst name hinst hname

end Programs

end ThreeAddress.Llvm
