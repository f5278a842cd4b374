import ThreeAddress.Proofs.Code.Search
import ThreeAddress.Proofs.Lowering.Comparison
import ThreeAddress.Proofs.Lowering.Regular
import ThreeAddress.Proofs.Machine.Limits

/-!
# Trees of any shape

Lowering has to look at the children and operators of nodes whose shape nobody has checked. It stops
at an absent node, and only there: a tree in which every node is present is lowered, or refused with
a fault, whatever its kinds, values, operators and numbers of children are. The code of a tree that
is lowered is regular, so that it can be listed, checked, explored, renamed and run.

Notes are shown while a tree is lowered, and a note can be shown unless its token has a place that
is beyond any text. Since notes are about tokens of the tree, all notes can be shown if all tokens
can.
-/

namespace ThreeAddress

open List Lowering Machine

/-! ## Trees without absent nodes -/

/-- No node of a tree is absent. -/
inductive Tree.Whole : Tree → Prop
  | node {kind token value ops children} (hchildren : ∀ t ∈ children, Tree.Whole t) :
      Tree.Whole (.node kind token value ops children)

/-- No node of a tree is absent if none below its root is. -/
lemma Tree.whole_node_iff {kind token value ops children} :
    (Tree.node kind token value ops children).Whole ↔ ∀ t ∈ children, t.Whole := by
  constructor
  · rintro ⟨hchildren⟩
    exact hchildren
  · exact .node

/-- The nodes of one of several trees are among the nodes of all. -/
lemma Tree.mem_visitAll {prune t ts p} (ht : t ∈ ts) (hp : p ∈ t.visit prune) :
    p ∈ Tree.visitAll prune ts := by
  induction ts with
  | nil => exact absurd ht not_mem_nil
  | cons u ts ih =>
    rw [Tree.visitAll, mem_append]
    rcases mem_cons.mp ht with rfl | ht
    · exact .inl hp
    · exact .inr (ih ht)

/-- A tree without absent nodes is admitted if its tokens may be cited. -/
lemma Tree.Whole.admitted {Cited} {t : Tree} (h : t.Whole)
    (hcited : ∀ p ∈ t.visit fun _ => false, Cited p.2) :
    t.Admitted Cited False := by
  induction h with
  | node _ ih =>
    obtain ⟨htoken, hrest⟩ := forall_mem_cons.mp hcited
    exact .node htoken fun t ht => ih t ht fun p hp => hrest p (Tree.mem_visitAll ht hp)

/-- A run that may not stop at an absent node, compared with itself. -/
def Comparison.whole (settings : Settings) (Cited : Token → Prop) :
    Comparison settings settings where
  ahead := {}
  Cited := Cited
  gaps := False
  Code _ _ := True
  code_nil := trivial
  code_append _ _ := trivial
  code_emit _ := trivial
  code_selfCopy _ := trivial

section Lowering

variable (settings : Settings) {root : Tree}

/-- A tree without absent nodes is lowered or refused, and notes are about its tokens. -/
lemma lower_of_whole (state : LowerState) (Cited : Token → Prop) (hwhole : root.Whole)
    (hcited : ∀ p ∈ root.visit fun _ => false, Cited p.2) :
    (lower settings root state).outcome ≠ .error .incomplete ∧
      ∀ n ∈ (lower settings root state).notes, Cited n.token := by
  have hadmitted := hwhole.admitted hcited
  cases hwhole with
  | @node kind token value ops children _ =>
    by_cases hkind : kind = .program
    · subst hkind
      obtain ⟨houtcomes, -, -, hnotes, -⟩ :=
        Comparison.results_lower (C := .whole settings Cited) (s := state) hadmitted
          (Nat.add_zero _).symm (Nat.add_zero _).symm
      refine ⟨fun h => ?_, hnotes⟩
      rw [h] at houtcomes
      cases houtcomes with
      | incomplete hgaps => exact hgaps
    · rw [lower_of_ne_program fun _ _ _ _ h => hkind (Tree.node.inj h).1]
      exact ⟨nofun, forall_mem_nil _⟩

/-- Notes can be shown if their tokens can. -/
lemma exists_report {files notes} (h : ∀ n ∈ notes, Diagnostic.isShowable files n.token = true) :
    ∃ text, Note.report? settings files notes = some text := by
  have hnotes : ∀ n ∈ notes, ∃ text,
      Diagnostic.warning? settings files n.warning n.token n.message = some text := by
    intro n hn
    refine ⟨Diagnostic.warning settings files n.warning n.token n.message, ?_⟩
    rw [Diagnostic.warning?, h n hn, Bool.or_true, if_pos rfl]
  obtain ⟨texts, htexts⟩ := exists_mapM_iff.mpr hnotes
  exact ⟨String.join texts, by rw [Note.report?, htexts, Option.map_some]⟩

end Lowering

/-! ## Regular code -/

section Regular

variable {i : Instr} {names : List String}

/-- A regular instruction has the arguments of its operation. -/
lemma Instr.Regular.arity_le (h : i.Regular names) : i.op.arity ≤ i.args.length := by
  cases h with
  | unary hop => rcases hop with rfl | rfl <;> exact le_rfl
  | @binary op _ _ _ hop => cases op <;> first | exact le_rfl | cases hop
  | branch wanted => cases wanted <;> exact Nat.zero_le _
  | jump | mark => exact Nat.zero_le _

/-- A regular conditional jump has a test. -/
lemma Instr.Regular.exists_test (h : i.Regular names) (hop : i.op = .jumpIf ∨ i.op = .jumpUnless) :
    ∃ t, i.test = some t := by
  cases h with
  | unary hunary => rcases hunary with rfl | rfl <;> rcases hop with hop | hop <;> cases hop
  | @binary op _ _ _ hbinary =>
    have hjump := isJump_of_isBinary hbinary
    rcases hop with hop | hop <;> rw [show op = _ from hop] at hjump <;> cases hjump
  | branch wanted => cases wanted <;> exact ⟨_, rfl⟩
  | jump | mark => rcases hop with hop | hop <;> cases hop

/-- Regular code whose labels have been checked is not rejected, and no instruction fails for a part
that is missing. -/
lemma run_of_regular {code} (hcode : ∀ i ∈ code, i.Regular names)
    (hcheck : checkLabels code = .ok ()) (start : Bindings) (limit : Int) (record : Bool) :
    (∀ fault, run code start limit record ≠ .rejected fault) ∧
      ∀ p i, run code start limit record ≠ .failed p i .incomplete :=
  run_of_complete (fun i hi => ⟨(hcode i hi).arity_le, (hcode i hi).exists_test⟩) hcheck
    start limit record

end Regular

/-! ## Programs -/

/-- The code of a tree that is lowered is regular. -/
lemma lower_regular {settings root} {state : LowerState}
    (h : (lower settings root state).outcome = .ok ()) :
    ∀ i ∈ (lower settings root state).code,
      i.Regular ((lower settings root state).state.symbols.order.map Symbol.name) := by
  have hgen : (generate settings state root).outcome = .ok
      { globals := (lower settings root state).state.symbols.order.map fun s => (s.name, s.type)
        code := (lower settings root state).code
        temps := (lower settings root state).state.names.temps
        labels := (lower settings root state).state.names.labels } := by
    simp only [generate, h, lower_checkLabels h]
    split <;> rfl
  have hforms := (regular_of_generate hgen).forms
  simp only [map_map] at hforms
  exact hforms

/-- A tree without absent nodes is lowered or refused with a fault, whatever its shape is. Its notes
can be shown if its tokens can. The code of a tree that is lowered has all the parts that its
operations need: it can be listed, its labels pass the check, it can be explored and renamed, and a
run of it never needs a part that is missing. -/
theorem lower_robust (settings : Settings) (files : List SourceFile)
    (state : LowerState) (root : Tree) (hwhole : root.Whole) :
    let lowered := lower settings root state
    lowered.outcome ≠ .error .incomplete ∧
    ((∀ p ∈ root.visit fun _ => false, Diagnostic.isShowable files p.2 = true) →
      ∃ text, Note.report? settings files lowered.notes = some text) ∧
    (lowered.outcome = .ok () →
      (∀ i ∈ lowered.code, i.Regular (lowered.state.symbols.order.map Symbol.name)) ∧
      (∃ lines, listing? lowered.code = some lines) ∧
      checkLabels lowered.code = .ok () ∧
      (∃ seen, reachable lowered.code = .ok seen) ∧
      (∃ lines, canonical? lowered.code = some lines) ∧
      ∀ start limit record, (∀ fault, run lowered.code start limit record ≠ .rejected fault) ∧
        ∀ p i, run lowered.code start limit record ≠ .failed p i .incomplete) := by
  intro lowered
  have hcomplete : lowered.outcome ≠ .error .incomplete :=
    (lower_of_whole settings state (fun _ => True) hwhole fun _ _ => trivial).1
  refine ⟨hcomplete, fun hshowable => ?_, fun hok => ?_⟩
  · have hnotes : ∀ n ∈ lowered.notes, Diagnostic.isShowable files n.token = true :=
      (lower_of_whole settings state (Diagnostic.isShowable files · = true) hwhole hshowable).2
    exact exists_report settings hnotes
  · have hregular : ∀ i ∈ lowered.code, i.Regular (lowered.state.symbols.order.map Symbol.name) :=
      lower_regular hok
    have harity : ∀ i ∈ lowered.code, i.op.arity ≤ i.args.length := fun i hi =>
      (hregular i hi).arity_le
    have hlisting : ∃ lines, listing? lowered.code = some lines := exists_listing_iff.mpr harity
    have hcheck : checkLabels lowered.code = .ok () := lower_checkLabels hok
    have hreachable : ∃ seen, reachable lowered.code = .ok seen :=
      (reachable_iff_accessible hcheck).imp fun _ h => h.1
    have hcanonical : ∃ lines, canonical? lowered.code = some lines := exists_canonical harity
    exact ⟨hregular, hlisting, hcheck, hreachable, hcanonical, run_of_regular hregular hcheck⟩

/-- A program whose nodes carry texts, operators and children that do not belong there. -/
def litteredProgram : Tree :=
  let x := Tree.node .identifier {} "x" [.bang] [.leaf (.unknown 7) {} "stray"]
  .node .program {} "text" [.plus] [.branch .block {} [.node .declaration {} "num" [] [x]],
    .node .assignment {} "text" [.star] [x, .leaf .intLiteral {} "5"]]

/-- It is lowered all the same; its notes can be shown, and its code can be explored. -/
theorem litteredProgram_robust : litteredProgram.Whole ∧
    (lower {} litteredProgram {}).outcome = .ok () ∧
    (∃ text, Note.report? {} [] (lower {} litteredProgram {}).notes = some text) ∧
    ∃ seen, reachable (lower {} litteredProgram {}).code = .ok seen := by
  have hwhole : litteredProgram.Whole := by
    simp [litteredProgram, Tree.leaf, Tree.branch, Tree.whole_node_iff]
  have hok : (lower {} litteredProgram {}).outcome = .ok () := by rfl
  obtain ⟨-, hnotes, hcode⟩ := lower_robust {} [] {} litteredProgram hwhole
  exact ⟨hwhole, hok, hnotes (by decide), (hcode hok).2.2.2.1⟩

/-- A declaration in a column that no text has. -/
def farDeclaration : Tree :=
  let x := Tree.leaf .identifier { line := 1, column := Int64.maxValue.toInt, length := 1 } "x"
  .branch .program {} [.node .declaration {} "num" [] [x]]

/-- Although no node is absent and it is lowered, the note that its variable is not used cannot be
shown. -/
theorem farDeclaration_unshowable : farDeclaration.Whole ∧
    (lower {} farDeclaration {}).outcome = .ok () ∧
    Note.report? {} [⟨"main", "num x;".toList⟩] (lower {} farDeclaration {}).notes = none := by
  refine ⟨?_, rfl, ?_⟩
  · simp [farDeclaration, Tree.leaf, Tree.branch, Tree.whole_node_iff]
  · decide

end ThreeAddress
