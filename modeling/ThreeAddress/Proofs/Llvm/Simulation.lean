import ThreeAddress.Backend
import ThreeAddress.Proofs.Llvm.Execution

/-!
# The LLVM backend simulates the machine

An execution first makes the stack slots. Then every executed instruction of a regular program is
matched by a part of its module, and afterwards the two are at corresponding places and still agree
(`step_simulated`); a mark that is jumped to is matched by nothing. So a run that finishes is
matched up to the end of the code, where the variables are printed.
-/

namespace ThreeAddress

open List

variable {p : Program} {s final : State} {m : Machine} {f : Frame}

namespace Llvm

open Lowering Machine

/-! ## Steps -/

/-- A state of the module and a state of the machine are at corresponding places and agree. At a
mark, the module may already be behind it. -/
structure Related (p : Program) (il : Module) (m : Machine) (f : Frame) : Prop where
  place : Falls p m.next ⟨f.block, f.offset⟩ ∨
    ∃ l, p.code[m.next]? = some (.mark l) ∧ Falls p (m.next + 1) ⟨f.block, f.offset⟩
  agrees : Agrees (p.globals.map Prod.fst) il m f

section Steps

variable {globals : List String} {index : LabelIndex} {m' : Machine} {i : Instr}

/-- A jump goes to the beginning of its label's block. -/
lemma related_target {il l target} (hp : p.Regular) (hindex : labelIndex p.code = .ok index)
    (hi : i ∈ p.code) (hjump : i.op.isJump = true) (hl : i.target = some l)
    (htarget : ∀ k, p.code[k]? = some (.mark l) → Falls p (k + 1) ⟨target, 0⟩)
    (hm : Agrees (p.globals.map Prod.fst) il m f) :
    Related p il { m with next := place index (some l) }
      { f with block := target, offset := 0 } := by
  obtain ⟨k, hk⟩ := mem_iff_getElem?.mp (hp.targets i hi hjump l hl)
  refine ⟨.inr ⟨l, ?_⟩, hm.at⟩
  rw [linked_of_labelIndex hindex k l hk]
  exact ⟨hk, htarget k hk⟩

/-- An executed instruction is matched by a part of the module, if control comes to it from the
instruction in front of it. -/
lemma falls_simulated (h : Compiled p globals s final) (hindex : labelIndex p.code = .ok index)
    (hat : Falls p m.next ⟨f.block, f.offset⟩)
    (hm : Agrees (p.globals.map Prod.fst) (final.module globals) m f)
    (hi : p.code[m.next]? = some i) (hstep : m.step index i = .ok m')
    (hoverflow : ¬ m.Overflows i) :
    ∃ k f', Runs (final.module globals).step k f f' ∧ Related p (final.module globals) m' f' := by
  have hmem := mem_of_getElem? hi
  cases h.realized hat hi with
  | @plain i insts hinsts hcode hnext =>
    obtain ⟨f', hsteps, hblock, hoffset, hm'⟩ :=
      (hinsts.executes h.wellFormed hm hstep hoverflow).run hcode
    refine ⟨_, f', hsteps, .inl ?_, hm'⟩
    rwa [step_plain_next hinsts.isJump hinsts.op_ne_mark hstep, hblock, hoffset]
  | @branch wanted op left right l through target r hleft hright hcode hend hexit
      htarget hthrough =>
    obtain ⟨x, y, b, hx, hy, hb, rfl⟩ := step_branch_inv hstep
    obtain ⟨f1, hsteps, hblock, hoffset, hm1, htest⟩ :=
      (testInsts_execute hleft hright hm hx hy hb).run hcode
    rw [← hblock] at hend hexit
    rw [← hoffset] at hend
    have hleave := runs_exit hend hexit (branchEnd_exec wanted target through htest)
    refine ⟨_, _, hsteps.trans hleave, ?_⟩
    by_cases hbw : b = wanted
    · rw [if_pos hbw, if_pos hbw]
      exact related_target h.regular hindex hmem (by cases wanted <;> rfl)
        (by cases wanted <;> rfl) htarget hm1
    · rw [if_neg hbw, if_neg hbw]
      exact ⟨.inl hthrough, hm1.at⟩
  | @jump l target hend hexit htarget =>
    cases hstep
    exact ⟨1, _, runs_exit hend hexit rfl, related_target h.regular hindex hmem rfl rfl htarget hm⟩
  | @mark l next hend hexit hnext =>
    cases hstep
    exact ⟨1, _, runs_exit hend hexit rfl, .inl hnext, hm.at⟩

/-- An executed instruction is matched by a part of the module. -/
lemma step_simulated (h : Compiled p globals s final) (hindex : labelIndex p.code = .ok index)
    (hm : Related p (final.module globals) m f) (hi : p.code[m.next]? = some i)
    (hstep : m.step index i = .ok m') (hoverflow : ¬ m.Overflows i) :
    ∃ k f', Runs (final.module globals).step k f f' ∧ Related p (final.module globals) m' f' := by
  rcases hm.place with hat | ⟨l, hl, hat⟩
  · exact falls_simulated h hindex hat hm.agrees hi hstep hoverflow
  · -- the module is already behind the mark
    cases hi.symm.trans hl
    cases hstep
    exact ⟨0, f, .refl, .inl hat, hm.agrees.at⟩

/-- A run of the machine on which the least word is never divided by -1 is matched by one of the
module. -/
theorem path_simulated (h : Compiled p globals s final) (hindex : labelIndex p.code = .ok index) {n}
    (hpath : Path p.code index n m m')
    (hnever : ∀ j m1 i, Path p.code index j m m1 → p.code[m1.next]? = some i → ¬ m1.Overflows i)
    (hm : Related p (final.module globals) m f) :
    ∃ k f', Runs (final.module globals).step k f f' ∧ Related p (final.module globals) m' f' := by
  induction hpath generalizing f with
  | refl => exact ⟨0, f, .refl, hm⟩
  | @step n m m1 m' i hi hstep hrest ih =>
    obtain ⟨k, f1, hsteps, hm1⟩ := step_simulated h hindex hm hi hstep (hnever 0 m i .refl hi)
    obtain ⟨k', f', hsteps', hm'⟩ :=
      ih (fun j m2 i' hpath => hnever (j + 1) m2 i' (.step hi hstep hpath)) hm1
    exact ⟨k + k', f', hsteps.trans hsteps', hm'⟩

end Steps

/-! ## The beginning and the end -/

section Ends

variable {il : Module}

/-- The instructions that make stack slots. -/
lemma allocas_execute (slots : List String) : il.Executes (slots.map .alloca) f fun f' =>
    f'.globals = f.globals ∧ f'.output = f.output ∧ ∀ n, n ∈ slots ∨ f.slots n ≠ none →
    f'.slots n ≠ none := by
  induction slots generalizing f with
  | nil => exact executes_nil ⟨rfl, rfl, fun n hn => hn.resolve_left not_mem_nil⟩
  | cons slot slots ih =>
    have halloca : il.Executes [.alloca slot] f
        (· = { f.advance with slots := Function.update f.slots slot (some none) }) :=
      executes_inst rfl rfl rfl rfl
    refine halloca.append ?_
    rintro f1 rfl
    refine ih.mono ?_
    rintro f' ⟨hglobals, houtput, hslots⟩
    refine ⟨hglobals, houtput, fun n hn => ?_⟩
    by_cases hslot : n = slot
    · refine hslots n (.inr ?_)
      show Function.update f.slots slot (some none) n ≠ none
      rw [hslot, Function.update_self]
      exact Option.some_ne_none _
    · refine hslots n ?_
      rcases hn with hn | hn
      · exact .inl ((mem_cons.mp hn).resolve_left hslot)
      · refine .inr ?_
        show Function.update f.slots slot (some none) n ≠ none
        rwa [Function.update_of_ne hslot]

/-- After the stack slots have been made, the function begins where the machine begins. -/
lemma start_related {names} (hnames : names = p.globals.map Prod.fst)
    (h : Compiled p names s final) :
    ∃ k f, Runs (final.module names).step k (final.module names).start f ∧
      Related p (final.module names) { globals := {} } f := by
  obtain ⟨slots, hcode, -⟩ := h.finished.closed.slotted
  have hentry : (final.module names).code entry = slots.map .alloca :=
    by rw [State.code_module, hcode]
  have hself := CodeAt.self ((final.module names).code entry)
  nth_rewrite 2 [hentry] at hself
  have hallocas : (final.module names).Executes (slots.map .alloca) (final.module names).start _ :=
    allocas_execute slots
  obtain ⟨f, hsteps, hblock, hoffset, hglobals, houtput, hslots⟩ := hallocas.run hself
  have hend : f.offset = ((final.module names).code f.block).length := by
    rw [hoffset, hblock]
    show 0 + _ = ((final.module names).code entry).length
    rw [hentry, Nat.zero_add]
  have hexit : (final.module names).exit? f.block = some (.jump body) := by
    rw [hblock, State.exit?_module]
    exact h.finished.closed.entry_jumps
  refine ⟨_, _, hsteps.trans (runs_exit hend hexit rfl), .inl falls_start, ?_, ?_, ?_, houtput⟩
  · intro x hx
    rw [hglobals]
    show (if x ∈ names then some 0 else none) = _
    rw [hnames, if_pos hx]
    simp [storeOf]
  · intro k w hw
    simp [Machine.read, tempOf] at hw
  · intro n hn
    rw [hentry] at hn
    obtain ⟨n', hn', hsame⟩ := mem_map.mp hn
    obtain rfl := Inst.alloca.inj hsame
    exact hslots n' (.inl hn')

/-- The instructions that print variables. -/
lemma printInsts_execute {globals names} (hnames : ∀ x ∈ names, Text.IsName x)
    (hmem : ∀ x ∈ names, x ∈ il.globals)
    (hglobals : ∀ x ∈ names, f.globals x = some (storeOf globals x)) (r : Nat) :
    il.Executes (printInsts r names) f fun f' =>
    f'.output = f.output ++ (printed globals names).toList := by
  induction names generalizing f r with
  | nil => exact executes_nil (by simp [printed])
  | cons x xs ih =>
    obtain ⟨hx, hxs⟩ := forall_mem_cons.mp hnames
    obtain ⟨hxmem, hxsmem⟩ := forall_mem_cons.mp hmem
    obtain ⟨hxvalue, hxsvalue⟩ := forall_mem_cons.mp hglobals
    let f2 := (f.bind r (.format x)).bind (r + 1) (.word (storeOf globals x))
    have hformat : (Inst.format r x).exec il f = some (f.bind r (.format x)) := if_pos hxmem
    have hload : (Inst.load (r + 1) (.global x)).exec il (f.bind r (.format x)) = some f2 := by
      show (f.globals x >>= _) = _
      rw [hxvalue]
      rfl
    have hprint : (Inst.print (r + 2) (.result r) (.result (r + 1))).exec il f2 =
        some { f2.advance with
          output := f.output ++ (printedLine x (storeOf globals x)).toList } := by
      have hline := formatted?_formatOf hx (storeOf globals x)
      simp [Inst.exec, f2, Frame.value?, Frame.word?, Frame.bind, Frame.advance, hline]
    have hthree : il.Executes
        [.format r x, .load (r + 1) (.global x), .print (r + 2) (.result r) (.result (r + 1))]
        f fun f' =>
          f'.globals = f.globals ∧ f'.output = f.output ++
          (printedLine x (storeOf globals x)).toList := by
      refine (executes_inst (Q := (· = _)) hformat rfl rfl rfl).append ?_
      rintro _ rfl
      refine (executes_inst (Q := (· = _)) hload rfl rfl rfl).append ?_
      rintro _ rfl
      exact executes_inst hprint rfl rfl ⟨rfl, rfl⟩
    refine hthree.append ?_
    rintro f1 ⟨hglobals1, houtput1⟩
    rw [← hglobals1] at hxsvalue
    refine (ih hxs hxsmem hxsvalue (r + 3)).mono fun f' hf' => ?_
    rw [hf', houtput1]
    simp [printed]

/-- Behind the code the function prints the variables and returns zero. -/
lemma end_simulated {names} (hvars : names = p.globals.map Prod.fst)
    (hnames : ∀ x ∈ names, Text.IsName x) (h : Compiled p names s final)
    (hm : Related p (final.module names) m f) (hend : p.code[m.next]? = none) :
    ∃ k f', Runs (final.module names).step k f f' ∧ (final.module names).returned? f' = some 0 ∧
      f'.output = (printed m.globals names).toList := by
  have hat : Falls p m.next ⟨f.block, f.offset⟩ := by
    rcases hm.place with hat | ⟨l, hl, -⟩
    · exact hat
    · rw [hend] at hl
      cases hl
  obtain ⟨hexit, r, hcode, hlen⟩ := h.printing hat hend
  have hvalues : ∀ x ∈ names, f.globals x = some (storeOf m.globals x) := by
    rw [hvars]
    exact hm.agrees.globals
  obtain ⟨f', hsteps, hblock, hoffset, houtput⟩ :=
    (printInsts_execute hnames (fun x hx => hx) hvalues r).run hcode
  refine ⟨_, f', hsteps, ?_, ?_⟩
  · rw [Module.returned?, hblock, hoffset, if_pos ⟨hlen, hexit⟩]
  · rw [houtput, hm.agrees.output, nil_append]

end Ends

/-! ## Text -/

/-- A module in which every block has an end has a text. -/
lemma Module.exists_text {il : Module} (h : ∀ block ∈ il.blocks, block.terminator ≠ none) :
    ∃ text, il.text? = some text := by
  have hblocks : ∀ (n : Numbering) (labels : Array String) (blocks : List Block) (index : Nat),
      (∀ block ∈ blocks, block.terminator ≠ none) →
      ∃ texts, blockTexts? n labels index blocks = some texts := by
    intro n labels blocks
    induction blocks with
    | nil => exact fun _ _ => ⟨[], rfl⟩
    | cons block blocks ih =>
      intro index hended
      obtain ⟨hblock, hrest⟩ := forall_mem_cons.mp hended
      obtain ⟨t, ht⟩ := Option.ne_none_iff_exists'.mp hblock
      obtain ⟨texts, htexts⟩ := ih (index + 1) hrest
      simp [blockTexts?, blockText?, ht, htexts]
  unfold text?
  obtain ⟨texts, htexts⟩ := hblocks (({} : Numbering).addAll 0 (unnamedFrom 0 il.blocks))
    (blockLabels (({} : Numbering).addAll 0 (unnamedFrom 0 il.blocks)) 0 il.blocks).toArray
    il.blocks 0 h
  simp [htexts]

end Llvm

open Machine

/-- For a program that is generated from a source text there is an LLVM module and a text of it. The
module is well formed: every block has one end, every branch goes to a block, stack slots are made
in the first block, and on every walk they are stored into before they are loaded. If a run of the
program from nothing finishes, and no division on the way is one of the least word by -1, then the
function prints the variables in order of declaration with the values that the run leaves them, and
returns zero. -/
theorem emitLlvm_simulates_run (settings : Settings) (file : Int) (source : List Char) (root : Tree)
    (state : LowerState) (program : Program)
    (hsource : Tree.ofSource settings file source = .ok root)
    (hgenerate : (generate settings state root).outcome = .ok program) :
    ∃ il text, Llvm.ofProgram program = .ok il ∧ il.text? = some text ∧
    emitLlvm program = .ok text ∧
      il.WellFormed ∧
      ∀ limit record r, run program.code {} limit record = .finished r →
      NeverOverflows program.code {} →
        il.Returns 0 (printed r.globals (program.globals.map Prod.fst)) := by
  have hp := regular_of_generate hgenerate
  have hnames := isName_of_generate hsource hgenerate
  obtain ⟨s, final, hs, hprogram, hfinal⟩ := Llvm.program_ok hp
  have hcompiled : Llvm.Compiled program _ s final := ⟨hp, hs, hfinal⟩
  have hwf := hcompiled.wellFormed
  obtain ⟨index, hindex⟩ := labelIndex_of_checkLabels hp.labels
  obtain ⟨text, htext⟩ := Llvm.Module.exists_text hwf.terminated
  have hmodule : Llvm.ofProgram program = .ok (final.module (program.globals.map Prod.fst)) := by
    unfold Llvm.ofProgram
    simp only [hprogram]
    rfl
  refine ⟨_, text, hmodule, htext, ?_, hwf, ?_⟩
  · rw [emitLlvm, hmodule]
    simp only [htext]
  · intro limit record r hrun hnever
    obtain ⟨n, m, hpath, hend⟩ := run_follows hindex hp.labels {} limit record
    rcases hend with ⟨hend, r', hrun', hglobals⟩ | ⟨-, r', hrun', -⟩ | ⟨i, fault, -, -, hrun'⟩
    · obtain rfl := RunOutcome.finished.inj (hrun.symm.trans hrun')
      obtain ⟨k₀, f₀, hstart, hm₀⟩ := Llvm.start_related rfl hcompiled
      obtain ⟨k₁, f₁, hsteps, hm₁⟩ := Llvm.path_simulated hcompiled hindex hpath
        (fun j m₁ i hpath hi => hnever m₁ i ⟨index, j, hindex, hpath⟩ hi) hm₀
      obtain ⟨k₂, f₂, hprint, hreturned, houtput⟩ :=
        Llvm.end_simulated rfl hnames hcompiled hm₁ hend
      rw [hglobals]
      exact ⟨_, f₂, (hstart.trans hsteps).trans hprint, hreturned, houtput⟩
    · cases hrun.symm.trans hrun'
    · cases hrun.symm.trans hrun'

/-- A source text that adds up squares and changes the sign of the sum. -/
def squareSumSource : List Char :=
  "num n; num s; n = 4; while (n > 0) { s = s + n * n; n = n - 1; } if (s == 30) s = -s;".toList

/-- The module of the program is well formed and prints the number and the sum. -/
theorem emitLlvm_squareSumSource :
    ∃ root program il text, Tree.ofSource {} 0 squareSumSource = .ok root ∧
    (generate {} {} root).outcome = .ok program ∧ Llvm.ofProgram program = .ok il ∧
    il.text? = some text ∧
    emitLlvm program = .ok text ∧ il.WellFormed ∧ il.Returns 0 "n = 0\ns = -30\n" := by
  have hprinted : printedBy? squareSumSource 100 = some "n = 0\ns = -30\n" := by decide +kernel
  obtain ⟨root, program, r, hsource, hgenerate, hnever, hrun, hlines⟩ :=
    exists_of_printedBy? hprinted
  obtain ⟨il, text, hmodule, htext, hemit, hwf, hfinished⟩ :=
    emitLlvm_simulates_run {} 0 squareSumSource root {} program hsource hgenerate
  refine ⟨root, program, il, text, hsource, hgenerate, hmodule, htext, hemit, hwf, ?_⟩
  rw [← hlines]
  exact hfinished 100 false r hrun hnever

end ThreeAddress
