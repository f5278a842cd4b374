import ThreeAddress.Lowering.Program
import ThreeAddress.Proofs.Scope

/-!
# Successful lowering

`Lowering.Yields x s a code s'` says that the lowering `x`, started in the state `s`, succeeds with
the result `a`, emits `code` and ends in the state `s'`; the notes it makes are left out. The lemmas
of this file say when the combinators and the small steps of lowering yield something, each as an
equivalence. A lowering function is then taken apart, or put together, by rewriting with them.

Of the symbols, the code depends on the scope only, that is on the types of the declared names.
-/

namespace ThreeAddress

variable {σ : Type} {notes : List Note} {s0 s s' : LoweringState σ} {name : String} {token : Token}
  {code : List Instr}

/-- The names after `k` more labels. -/
def Names.addLabels (n : Names) (k : Nat) : Names := { n with labels := n.labels + k }

/-- The names after one more temporary. -/
def Names.addTemp (n : Names) : Names := { n with temps := n.temps + 1 }

/-- The names when the next temporary has the number `k`. -/
def Names.setTemps (n : Names) (k : Nat) : Names := { n with temps := k }

lemma Names.eq_setTemps {n n' : Names} (h : n'.labels = n.labels) : n' = n.setTemps n'.temps := by
  rw [setTemps, ← h]

/-- The scope in which a part of a tree is lowered. -/
def LoweringState.scope (s : LoweringState σ) : Scope := s.symbols.scope

namespace Lowering

/-- Started in the state `s`, the lowering `x` succeeds with the result `a`, emits `code` and ends
in the state `s'`. -/
def Yields {α : Type} (x : Lowering σ α) (s : LoweringState σ) (a : α) (code : List Instr)
    (s' : LoweringState σ) :
    Prop :=
  ∃ notes, x s = ⟨.ok a, code, notes, s'⟩

variable {α β : Type}

/-- What a lowering yields shows in its outcome, its code and its state. -/
lemma yields_iff {x : Lowering σ α} {a} :
    x.Yields s a code s' ↔ (x s).outcome = .ok a ∧ (x s).code = code ∧ (x s).state = s' := by
  constructor
  · rintro ⟨notes, h⟩
    rw [h]
    exact ⟨rfl, rfl, rfl⟩
  · rintro ⟨houtcome, hcode, hstate⟩
    exact ⟨(x s).notes, by rw [← houtcome, ← hcode, ← hstate]⟩

lemma yields_of_outcome {x : Lowering σ α} {a} (h : (x s).outcome = .ok a) :
    x.Yields s a (x s).code (x s).state :=
  yields_iff.mpr ⟨h, rfl, rfl⟩

/-- A lowering that is known to succeed yields its own result, code and state only. -/
lemma yields_iff_of_eq {x : Lowering σ α} {a0 a c0} (h : x s = ⟨.ok a0, c0, notes, s0⟩) :
    x.Yields s a code s' ↔ a = a0 ∧ code = c0 ∧ s' = s0 := by
  rw [yields_iff, h]
  constructor
  · rintro ⟨h1, h2, h3⟩
    exact ⟨(Except.ok.inj h1).symm, h2.symm, h3.symm⟩
  · rintro ⟨rfl, rfl, rfl⟩
    exact ⟨rfl, rfl, rfl⟩

/-! ## Combinators -/

@[simp] lemma yields_pure {a b} : (pure a : Lowering σ α).Yields s b code s' ↔ b = a ∧
    code = [] ∧ s' = s :=
  yields_iff_of_eq rfl

/-- Two parts, one after the other, succeed when both do, with the codes and the notes of both in
order. -/
lemma bind_eq_ok_iff {x : Lowering σ α} {f : α → Lowering σ β} {b : β} :
    (x >>= f) s = ⟨.ok b, code, notes, s'⟩ ↔
      ∃ a c1 n1 s1 c2 n2, x s = ⟨.ok a, c1, n1, s1⟩ ∧ f a s1 = ⟨.ok b, c2, n2, s'⟩ ∧
        code = c1 ++ c2 ∧ notes = n1 ++ n2 := by
  have hbind : (x >>= f) s = Lowering.bind x f s := rfl
  rw [hbind, Lowering.bind]
  constructor
  · intro h
    rcases hx : x s with ⟨outcome, c1, n1, s1⟩
    rw [hx] at h
    cases outcome with
    | error e => cases h
    | ok a =>
      injection h with h1 h2 h3 h4
      refine ⟨a, c1, n1, s1, (f a s1).code, (f a s1).notes, rfl, ?_, h2.symm, h3.symm⟩
      rw [← h1, ← h4]
  · rintro ⟨a, c1, n1, s1, c2, n2, hx, hf, rfl, rfl⟩
    rw [hx]
    simp only [hf]

/-- Two parts, one after the other, succeed when both do, and emit their codes in order. -/
lemma yields_bind {x : Lowering σ α} {f : α → Lowering σ β} {b : β} :
    (x >>= f).Yields s b code s' ↔ ∃ a c1 s1 c2, x.Yields s a c1 s1 ∧ (f a).Yields s1 b c2 s' ∧
    code = c1 ++ c2 := by
  constructor
  · rintro ⟨notes, h⟩
    obtain ⟨a, c1, n1, s1, c2, n2, hx, hf, hcode, -⟩ := bind_eq_ok_iff.mp h
    exact ⟨a, c1, s1, c2, ⟨n1, hx⟩, ⟨n2, hf⟩, hcode⟩
  · rintro ⟨a, c1, s1, c2, ⟨n1, hx⟩, ⟨n2, hf⟩, hcode⟩
    exact ⟨n1 ++ n2, bind_eq_ok_iff.mpr ⟨a, c1, n1, s1, c2, n2, hx, hf, hcode, rfl⟩⟩

/-- From some state, the lowering `x` succeeds. -/
def Succeeds (x : Lowering σ α) : Prop := ∃ s a code s', x.Yields s a code s'

lemma Succeeds.of_bind {x : Lowering σ α} {f : α → Lowering σ β} (h : (x >>= f).Succeeds) :
    x.Succeeds ∧ ∃ a, (f a).Succeeds := by
  obtain ⟨s, b, code, s', h⟩ := h
  obtain ⟨a, c1, s1, c2, hx, hf, -⟩ := yields_bind.mp h
  exact ⟨⟨s, a, c1, s1, hx⟩, a, s1, b, c2, s', hf⟩

@[simp] lemma not_yields_incomplete {a} : ¬ (incomplete : Lowering σ α).Yields s a code s' := by
  rintro ⟨notes, h⟩
  cases h

@[simp] lemma not_yields_fail {fault a} :
    ¬ (fail token fault : Lowering σ α).Yields s a code s' := by
  rintro ⟨notes, h⟩
  cases h

/-! ## Small steps -/

@[simp] lemma yields_emit {s s' : LowerState} {i u} : (emit i).Yields s u code s' ↔
    code = [i] ∧ s' = s :=
  (yields_iff_of_eq rfl).trans (and_iff_right rfl)

@[simp] lemma yields_note {subject u} : (note token subject).Yields s u code s' ↔
    code = [] ∧ s' = s :=
  (yields_iff_of_eq rfl).trans (and_iff_right rfl)

/-! ## Small steps before others -/

section Bind

variable {f : α → Lowering σ β} {b : β}

/-- A lowering that is known to succeed, before another. -/
lemma yields_bind_of_eq {x : Lowering σ α} {a0 : α} {c0 : List Instr}
    (h : x s = ⟨.ok a0, c0, notes, s0⟩) :
    (x >>= f).Yields s b code s' ↔ ∃ c, (f a0).Yields s0 b c s' ∧ code = c0 ++ c := by
  rw [yields_bind]
  constructor
  · rintro ⟨a, c1, s1, c, hx, hf, hcode⟩
    obtain ⟨rfl, rfl, rfl⟩ := (yields_iff_of_eq h).mp hx
    exact ⟨c, hf, hcode⟩
  · rintro ⟨c, hf, hcode⟩
    exact ⟨a0, c0, s0, c, ⟨notes, h⟩, hf, hcode⟩

/-- A lowering that is known to succeed without code, before another. -/
lemma yields_bind_of_eq_nil {x a0} (h : x s = ⟨.ok a0, [], notes, s0⟩) :
    (x >>= f).Yields s b code s' ↔ (f a0).Yields s0 b code s' := by
  rw [yields_bind_of_eq h]
  simp only [List.nil_append, exists_eq_right']

lemma yields_emit_bind {s s' : LowerState} {i} {f : Unit → Lower β} :
    (emit i >>= f).Yields s b code s' ↔ ∃ c, (f ()).Yields s b c s' ∧ code = i :: c :=
  yields_bind_of_eq rfl

lemma yields_note_bind {subject f} : (note token subject >>= f).Yields s b code s' ↔
    (f ()).Yields s b code s' :=
  yields_bind_of_eq_nil rfl

lemma yields_freshTemp_bind {f} : (freshTemp >>= f).Yields s b code s' ↔
      (f (tempOf s.names.temps)).Yields { s with names := s.names.addTemp } b code s' :=
  yields_bind_of_eq_nil rfl

lemma yields_freshLabel_bind {f} : (freshLabel >>= f).Yields s b code s' ↔
      (f (labelOf s.names.labels)).Yields { s with names := s.names.addLabels 1 } b code s' :=
  yields_bind_of_eq_nil rfl

lemma yields_symbols_bind {f} : (symbols >>= f).Yields s b code s' ↔
    (f s.symbols).Yields s b code s' :=
  yields_bind_of_eq_nil rfl

lemma yields_setSymbols_bind {t f} :
    (setSymbols t >>= f).Yields s b code s' ↔ (f ()).Yields { s with symbols := t } b code s' :=
  yields_bind_of_eq_nil rfl

/-- A name has the type that the scope gives it. -/
@[simp] lemma yields_typeOfName {type} :
    (typeOfName token name).Yields s type code s' ↔ s.scope name = some type ∧
    code = [] ∧ s' = s := by
  rw [LoweringState.scope, ← SymbolTable.lookup_eq_ok_iff, typeOfName, yields_symbols_bind]
  cases SymbolTable.lookup s.symbols name with
  | ok found => simp only [yields_pure, Except.ok.injEq, eq_comm]
  | error fault => simp

/-- A use of a name has the type of the name and is counted. -/
@[simp] lemma yields_useName {type : ValueType} : (useName token name).Yields s type code s' ↔
      s.scope name = some type ∧ code = [] ∧ s' = { s with symbols := s.symbols.use name } := by
  rw [useName, yields_bind]
  simp only [yields_typeOfName, yields_symbols_bind, yields_setSymbols_bind, yields_pure]
  constructor
  · rintro ⟨_, _, _, _, ⟨htype, rfl, rfl⟩, ⟨rfl, rfl, rfl⟩, rfl⟩
    exact ⟨htype, rfl, rfl⟩
  · rintro ⟨htype, rfl, rfl⟩
    exact ⟨type, [], s, [], ⟨htype, rfl, rfl⟩, ⟨rfl, rfl, rfl⟩, rfl⟩

/-- What follows gets the type of a used name. -/
lemma yields_useName_bind {f : ValueType → Lowering σ β} :
    (useName token name >>= f).Yields s b code s' ↔
      ∃ type, s.scope name = some type ∧
      (f type).Yields { s with symbols := s.symbols.use name } b code s' := by
  simp only [yields_bind, yields_useName]
  constructor
  · rintro ⟨type, c1, s1, c2, ⟨htype, rfl, rfl⟩, hf, rfl⟩
    exact ⟨type, htype, hf⟩
  · rintro ⟨type, htype, hf⟩
    exact ⟨type, [], _, code, ⟨htype, rfl, rfl⟩, hf, rfl⟩

end Bind

/-! ## Lowering without effect -/

/-- A lowering that emits nothing and leaves the state as it is. -/
def Quiet (x : Lowering σ α) : Prop :=
  ∀ ⦃s a code s'⦄, x.Yields s a code s' → code = [] ∧ s' = s

/-- A lowering without effect, before another. -/
lemma Quiet.yields_bind {x : Lowering σ α} {f : α → Lowering σ β} {b : β} (hx : x.Quiet) :
    (x >>= f).Yields s b code s' ↔ ∃ a, x.Yields s a [] s ∧ (f a).Yields s b code s' := by
  rw [Lowering.yields_bind]
  constructor
  · rintro ⟨a, c1, s1, c2, ha, hf, rfl⟩
    obtain ⟨rfl, rfl⟩ := hx ha
    exact ⟨a, ha, hf⟩
  · rintro ⟨a, ha, hf⟩
    exact ⟨a, [], s, code, ha, hf, rfl⟩

@[simp] lemma scope_use (s : LoweringState σ) (name : String) :
    LoweringState.scope { s with symbols := s.symbols.use name } = s.scope :=
  SymbolTable.scope_use s.symbols name

@[simp] lemma scope_names (s : LoweringState σ) (names : Names) :
    LoweringState.scope { s with names } = s.scope := rfl

lemma symbols_bind (f : SymbolTable → Lowering σ α) (s : LoweringState σ) :
    (symbols >>= f) s = f s.symbols s := rfl

/-! ## Lowering without faults and notes -/

/-- A lowering that succeeds from every state, without notes, and changes at most the names and the
sink. -/
def Steady (x : Lowering σ α) : Prop := ∀ s, ∃ a code names sink,
    x s = ⟨.ok a, code, [], { s with names, sink }⟩

lemma steady_pure (a : α) : (pure a : Lowering σ α).Steady := fun s => ⟨a, [], s.names, s.sink, rfl⟩

lemma steady_emit [Sink σ] (i : Instr) : (emit i : Lowering σ Unit).Steady :=
  fun s => ⟨(), [i], s.names, Sink.put s.sink i, rfl⟩

lemma steady_freshTemp : (freshTemp : Lowering σ Operand).Steady := fun _ => ⟨_, [], _, _, rfl⟩

lemma steady_freshLabel : (freshLabel : Lowering σ Label).Steady := fun _ => ⟨_, [], _, _, rfl⟩

/-- Steady parts, one after the other, are steady. -/
lemma Steady.bind {x : Lowering σ α} {f : α → Lowering σ β} (hx : x.Steady)
    (hf : ∀ a, (f a).Steady) : (x >>= f).Steady := by
  intro s
  obtain ⟨a, c1, names1, sink1, hxs⟩ := hx s
  obtain ⟨b, c2, names2, sink2, hfs⟩ := hf a { s with names := names1, sink := sink1 }
  exact ⟨b, c1 ++ c2, names2, sink2, bind_eq_ok_iff.mpr ⟨a, c1, [], _, c2, [], hxs, hfs, rfl, rfl⟩⟩

lemma steady_jumpTo [Sink σ] (l : Option Label) : (jumpTo l : Lowering σ Unit).Steady := by
  cases l with
  | none => exact steady_pure ()
  | some l => exact steady_emit _

lemma steady_markAt [Sink σ] (l : Option Label) : (markAt l : Lowering σ Unit).Steady := by
  cases l with
  | none => exact steady_pure ()
  | some l => exact steady_emit _

/-- Jumps on a comparison are steady. -/
lemma steady_branch [Sink σ] (op : Opcode) (left right : Operand) (holds fails : Option Label) :
    (branch op left right holds fails : Lowering σ Unit).Steady := by
  cases holds with
  | none =>
    cases fails with
    | none => exact steady_pure ()
    | some f => exact steady_emit _
  | some t =>
    cases fails with
    | none => exact steady_emit _
    | some f => exact (steady_emit _).bind fun _ => steady_emit _

/-- A bare result at the end changes nothing. -/
lemma bind_pure_eq {α} (x : Lowering σ α) : x >>= pure = x := by
  funext s
  have hbind : (x >>= pure) s = Lowering.bind x Lowering.pure s := rfl
  rw [hbind, Lowering.bind]
  rcases x s with ⟨outcome, code, notes, s1⟩
  cases outcome with
  | error e => rfl
  | ok a => simp only [Lowering.pure, List.append_nil]

end Lowering

/-! ## Statements in parts -/

section Statements

open Lowering

variable {u : Unit} {condition t : Tree}

section

variable {s s' : LowerState}

/-- An `if` without an `else` ends at a new label. -/
lemma conditional_none_parts {body : Lower Unit}
    (h : (conditional condition body none).Yields s u code s') :
    ∃ c1 s1 c2, (cond condition none (some (labelOf s.names.labels))).Yields
        { s with names := s.names.addLabels 1 } () c1 s1 ∧
      body.Yields s1 () c2 s' ∧ code = c1 ++ c2 ++ [.mark (labelOf s.names.labels)] := by
  simp only [conditional, yields_freshLabel_bind] at h
  obtain ⟨_, c1, s1, _, hcond, hmore, rfl⟩ := yields_bind.mp h
  obtain ⟨_, c2, s2, _, hbody, hmark, rfl⟩ := yields_bind.mp hmore
  obtain ⟨rfl, rfl⟩ := yields_emit.mp hmark
  exact ⟨c1, s1, c2, hcond, hbody, (List.append_assoc ..).symm⟩

/-- An `if` with an `else` has a label for the `else` and one for the end. -/
lemma conditional_some_parts {thenBody elseBody : Lower Unit}
    (h : (conditional condition thenBody (some elseBody)).Yields s u code s') :
    ∃ c1 s1 c2 s2 c3, (cond condition none (some (labelOf s.names.labels))).Yields
        { s with names := s.names.addLabels 2 } () c1 s1 ∧
      thenBody.Yields s1 () c2 s2 ∧ elseBody.Yields s2 () c3 s' ∧
        code = c1 ++ c2 ++ [.jump (labelOf (s.names.labels + 1)), .mark (labelOf s.names.labels)] ++
          c3 ++ [.mark (labelOf (s.names.labels + 1))] := by
  simp only [conditional, yields_freshLabel_bind] at h
  obtain ⟨_, c1, s1, _, hcond, hmore, rfl⟩ := yields_bind.mp h
  obtain ⟨_, c2, s2, _, hthen, hjump, rfl⟩ := yields_bind.mp hmore
  simp only [yields_emit_bind] at hjump
  obtain ⟨_, ⟨_, hlast, rfl⟩, rfl⟩ := hjump
  obtain ⟨_, c3, s3, _, helse, hmark, rfl⟩ := yields_bind.mp hlast
  obtain ⟨rfl, rfl⟩ := yields_emit.mp hmark
  exact ⟨c1, s1, c2, s2, c3, hcond, hthen, helse, by simp [Names.addLabels]⟩

/-- A `while` has a label at its start and one behind it. -/
lemma loop_parts {body : Lower Unit} (h : (loop condition body).Yields s u code s') :
    ∃ c1 s1 c2, (cond condition none (some (labelOf (s.names.labels + 1)))).Yields
        { s with names := s.names.addLabels 2 } () c1 s1 ∧
      body.Yields s1 () c2 s' ∧ code = .mark (labelOf s.names.labels) :: (c1 ++ c2 ++
          [.jump (labelOf s.names.labels), .mark (labelOf (s.names.labels + 1))]) := by
  simp only [loop, yields_freshLabel_bind, yields_emit_bind] at h
  obtain ⟨_, hcode, rfl⟩ := h
  obtain ⟨_, c1, s1, _, hcond, hmore, rfl⟩ := yields_bind.mp hcode
  obtain ⟨_, c2, s2, _, hbody, hjump, rfl⟩ := yields_bind.mp hmore
  obtain ⟨_, hmark, rfl⟩ := yields_emit_bind.mp hjump
  obtain ⟨rfl, rfl⟩ := yields_emit.mp hmark
  exact ⟨c1, s1, c2, hcond, hbody, by simp [Names.addLabels]⟩

end

/-- Making a note first about a body that is never executed changes nothing. -/
lemma yields_noteUnreachable_bind {f} : (noteUnreachable t >>= f).Yields s u code s' ↔
    (f ()).Yields s u code s' := by
  cases t with
  | absent => exact yields_bind_of_eq_nil rfl
  | node kind token value ops children =>
    simp only [noteUnreachable]
    split
    · exact yields_bind_of_eq_nil rfl
    · exact yields_note_bind

lemma quiet_noteUnreachable (t : Tree) : (noteUnreachable t : Lowering σ Unit).Quiet := by
  intro s u code s' h
  rw [← bind_pure_eq (noteUnreachable t)] at h
  exact (yields_pure.mp (yields_noteUnreachable_bind.mp h)).2

end Statements

end ThreeAddress
