import Mathlib.Order.Interval.Set.Basic
import ThreeAddress.Proofs.Lowering.Assignment
import ThreeAddress.Proofs.Lowering.Execution

/-!
# Where bodies are lowered

A site is a place in the lowering of a program: statements, the state in which they are lowered, and
the place of their code. The sites in a site are those of its statements and of their bodies. A body
is lowered from the state, and its code stands behind the code, of all that is lowered before it in
its statement (`Site.after`), and the relation `Inside` says for each kind of statement what that
is.

In a program that can be lowered the code of every site is where the site says, and no jump from
elsewhere goes to a label that was minted for it (`Fits.inside`).
-/

namespace ThreeAddress

open List Lowering

variable {done : Label} {c₁ c₂ : List Instr} {labels : List Label}
  {clauses following leading : List Tree} {s₁ s₂ : LowerState} {k l m n n' r : Nat} {v : Operand}
  {d d' : Option Label} {condition scrutinee t : Tree}

/-! ## Sites -/

/-- What statements are to the ones they are a part of. -/
inductive Role
  /-- One statement of several, or all of them. -/
  | part
  /-- The body of an `if` for a condition that holds. -/
  | thenBody (condition : Tree)
  /-- The body of an `if` for a condition that does not hold. -/
  | elseBody (condition : Tree)
  /-- The body of a `while`. -/
  | loopBody (condition : Tree)
  /-- The body of a clause of a `switch` that others lead. -/
  | clause (leading : List Tree) (clause : Tree)

/-- Statements that are lowered one after the other, the state before them, and the place of their
code. -/
structure Site where
  body : List Tree
  state : LowerState
  place : Nat

namespace Site

/-- The code that is emitted at a site. -/
def code (settings : Settings) (a : Site) : List Instr := (statements settings a.body a.state).code

/-- The site of statements that are lowered behind `x`, when `x` is lowered at another site. -/
def after (a : Site) (x : Lower Unit) (body : List Tree) : Site :=
  ⟨body, (x a.state).state, a.place + (x a.state).code.length⟩

/-- The site of a program, whose declarations have been collected. -/
def ofProgram (root : Tree) (state : LowerState) : Site :=
  ⟨[root], (collectAll root.declarations { state with symbols := {} }).state, 0⟩

end Site

/-- What is lowered before the body of an `if` without an `else`. -/
def beforeOnly (condition : Tree) : Lower Unit := do
  let done ← freshLabel
  cond condition none (some done)

/-- What is lowered before the first body of an `if` with an `else`. -/
def beforeThen (condition : Tree) : Lower Unit := do
  let otherwise ← freshLabel
  let _ ← freshLabel
  cond condition none (some otherwise)

/-- What is lowered before the second body of an `if`. -/
def beforeElse (settings : Settings) (condition thenBody : Tree) : Lower Unit := do
  let otherwise ← freshLabel
  let done ← freshLabel
  cond condition none (some otherwise)
  statement settings thenBody
  emit (.jump done)
  emit (.mark otherwise)

/-- What is lowered before the body of a `while`. -/
def beforeLoop (condition : Tree) : Lower Unit := do
  let start ← freshLabel
  let done ← freshLabel
  emit (.mark start)
  cond condition none (some done)

/-- Lowers clauses of a `switch` that others follow. -/
def leadingClauses (settings : Settings) (done : Label) : List Label → List Tree → Lower Unit
  | label :: labels, clause :: clauses => do
    emit (.mark label)
    statements settings clause.clauseStatements
    emit (.jump done)
    leadingClauses settings done labels clauses
  | _, _ => return ()

/-- What is lowered before the body of a clause of a `switch`, up to the mark of the clause. -/
def beforeClause (settings : Settings) (scrutinee : Tree) (leading : List Tree) (clause : Tree)
    (following : List Tree) : Lower Unit := do
  let value ← scrutineeTemp scrutinee
  let done ← freshLabel
  let (labels, default?) ← dispatch value [] none (leading ++ clause :: following)
  emit (.jump (default?.getD done))
  leadingClauses settings done labels leading
  emit (.mark (labels.getD leading.length done))

/-- The sites directly in a site. -/
inductive Inside (settings : Settings) : Role → Site → Site → Prop
  | item {a before t following} (hbody : a.body = before ++ t :: following) :
      Inside settings .part a (a.after (statements settings before) [t])
  | sequence {a kind token value ops children} (hkind : kind = .program ∨ kind = .block)
      (hbody : a.body = [.node kind token value ops children]) :
      Inside settings .part a (a.after (pure ()) children)
  | inner {a token value ops t} (hbody : a.body = [.node .statement token value ops [t]]) :
      Inside settings .part a (a.after (pure ()) [t])
  | onlyBody {a token value ops condition t rest} (hrest : rest = [] ∨ rest = [.absent])
      (hbody : a.body = [.node .conditional token value ops (condition :: t :: rest)]) :
      Inside settings (.thenBody condition) a (a.after (beforeOnly condition) [t])
  | thenBody {a token value ops condition t e} (he : e.isAbsent = false)
      (hbody : a.body = [.node .conditional token value ops [condition, t, e]]) :
      Inside settings (.thenBody condition) a (a.after (beforeThen condition) [t])
  | elseBody {a token value ops condition t e} (he : e.isAbsent = false)
      (hbody : a.body = [.node .conditional token value ops [condition, t, e]]) :
      Inside settings (.elseBody condition) a (a.after (beforeElse settings condition t) [e])
  | loopBody {a token value ops condition t}
      (hbody : a.body = [.node .loop token value ops [condition, t]]) :
      Inside settings (.loopBody condition) a (a.after (beforeLoop condition) [t])
  | clause {a token value ops scrutinee leading clause following}
      (hbody : a.body = [.node .selection token value ops
        (scrutinee :: (leading ++ clause :: following))]) :
      Inside settings (.clause leading clause) a
        (a.after (beforeClause settings scrutinee leading clause following) clause.clauseStatements)

/-- The sites in the lowering of a program. -/
def SiteOf (settings : Settings) (root : Tree) (state : LowerState) : Site → Prop :=
  Relation.ReflTransGen (fun a b => ∃ role, Inside settings role a b) (.ofProgram root state)

/-! ## Parts of the lowering -/

section Parts

variable {settings : Settings} {s s' : LowerState} {c : List Instr} {token : Token} {value : String}
  {ops : List TokenKind}

lemma yields_statements_singleton :
    (statements settings [t]).Yields s () c s' ↔ (statement settings t).Yields s () c s' := by
  simp only [statements, yields_bind, yields_pure]
  constructor
  · rintro ⟨_, c₁, s₁, _, h, ⟨-, rfl, rfl⟩, rfl⟩
    rwa [append_nil]
  · exact fun h => ⟨(), c, s', [], h, ⟨trivial, rfl, rfl⟩, (append_nil c).symm⟩

lemma yields_statements_append {ts us} : (statements settings (ts ++ us)).Yields s () c s' ↔
    ∃ c₁ s₁ c₂,
      (statements settings ts).Yields s () c₁ s₁ ∧
      (statements settings us).Yields s₁ () c₂ s' ∧ c = c₁ ++ c₂ := by
  induction ts generalizing s c with
  | nil =>
    simp only [nil_append, statements, yields_pure]
    constructor
    · exact fun h => ⟨[], s, c, ⟨trivial, rfl, rfl⟩, h, rfl⟩
    · rintro ⟨_, _, c, ⟨-, rfl, rfl⟩, h, rfl⟩
      exact h
  | cons t ts ih =>
    simp only [cons_append, statements, yields_bind, ih]
    constructor
    · rintro ⟨_, c₁, s₁, _, ht, ⟨c₂, s₂, c3, hts, hus, rfl⟩, rfl⟩
      exact ⟨c₁ ++ c₂, s₂, c3, ⟨(), c₁, s₁, c₂, ht, hts, rfl⟩, hus, by rw [append_assoc]⟩
    · rintro ⟨_, s₂, c3, ⟨_, c₁, s₁, c₂, ht, hts, rfl⟩, hus, rfl⟩
      exact ⟨(), c₁, s₁, c₂ ++ c3, ht, ⟨c₂, s₂, c3, hts, hus, rfl⟩, by rw [append_assoc]⟩

/-- What is lowered before the second body of an `if` is what the `if` begins with. -/
lemma yields_beforeElse (hcond : (cond condition none (some (labelOf s.names.labels))).Yields
      { s with names := s.names.addLabels 2 } () c₁ s₁)
    (ht : (statement settings t).Yields s₁ () c₂ s₂) :
    (beforeElse settings condition t).Yields s ()
      (c₁ ++ c₂ ++ [.jump (labelOf (s.names.labels + 1)), .mark (labelOf s.names.labels)]) s₂ := by
  refine yields_freshLabel_bind.mpr (yields_freshLabel_bind.mpr ?_)
  refine yields_bind.mpr ⟨(), c₁, s₁, _, hcond, ?_, append_assoc ..⟩
  refine yields_bind.mpr ⟨(), c₂, s₂, _, ht, ?_, rfl⟩
  exact yields_emit_bind.mpr ⟨_, yields_emit.mpr ⟨rfl, rfl⟩, rfl⟩

/-- What is lowered before the body of a `while` is what the `while` begins with. -/
lemma yields_beforeLoop (hcond : (cond condition none (some (labelOf (s.names.labels + 1)))).Yields
      { s with names := s.names.addLabels 2 } () c₁ s₁) :
    (beforeLoop condition).Yields s () (.mark (labelOf s.names.labels) :: c₁) s₁ :=
  yields_freshLabel_bind.mpr (yields_freshLabel_bind.mpr (yields_emit_bind.mpr ⟨c₁, hcond, rfl⟩))

/-- A clause of a `switch` is lowered behind those that lead it, and before those that follow. -/
lemma clauseBodies_split (leading : List Tree) {clause}
    (hlen : labels.length = (leading ++ clause :: following).length)
    (hpresent : ∀ t ∈ leading ++ clause :: following, t.isAbsent = false)
    (h : (clauseBodies settings done labels (leading ++ clause :: following)).Yields s () c s') :
    ∃ c₁ s₁ label d s₂ labels' c₂, (leadingClauses settings done labels leading).Yields s () c₁ s₁ ∧
      labels[leading.length]? = some label ∧
      (statements settings clause.clauseStatements).Yields s₁ () d s₂ ∧
      (clauseBodies settings done labels' following).Yields s₂ () c₂ s' ∧
      c = c₁ ++ .mark label :: (d ++ (leaveCode done following ++ c₂)) := by
  induction leading generalizing labels s c with
  | nil =>
    obtain ⟨label, labels, rfl⟩ := exists_cons_of_length_eq_add_one hlen
    cases clause with
    | absent => cases (forall_mem_cons.mp hpresent).1
    | node kind token value ops children =>
      obtain ⟨d, s₂, c₂, hbody, hrest, rfl⟩ := clauseBodies_parts h
      rw [← clauseStatements_node kind token value ops] at hbody
      exact ⟨[], s, label, d, s₂, labels, c₂, yields_pure.mpr ⟨rfl, rfl, rfl⟩, rfl, hbody, hrest,
        by rw [nil_append, append_assoc]⟩
  | cons t leading ih =>
    rw [cons_append] at hlen hpresent h
    obtain ⟨l, labels, rfl⟩ := exists_cons_of_length_eq_add_one hlen
    obtain ⟨ht, hothers⟩ := forall_mem_cons.mp hpresent
    cases t with
    | absent => cases ht
    | node kind token value ops children =>
      obtain ⟨c0, s0, c', hbody, hrest, rfl⟩ := clauseBodies_parts h
      rw [← clauseStatements_node kind token value ops] at hbody
      obtain ⟨c₁, s₁, label, d, s₂, labels', c₂, hleading, hlabel, hclause, hfollowing, rfl⟩ :=
        ih (Nat.succ.inj hlen) hothers hrest
      have hjump : leaveCode done (leading ++ clause :: following) = [.jump done] := by
        simp [leaveCode]
      refine ⟨.mark l :: (c0 ++ .jump done :: c₁), s₁, label, d, s₂, labels', c₂, ?_, hlabel,
        hclause, hfollowing, ?_⟩
      · exact yields_emit_bind.mpr ⟨_, yields_bind.mpr ⟨(), c0, s0, _, hbody,
          yields_emit_bind.mpr ⟨c₁, hleading, rfl⟩, rfl⟩, rfl⟩
      · rw [hjump]
        simp

/-- What is lowered before a clause of a `switch` is what the `switch` begins with. -/
lemma yields_beforeClause {clause c3 s3 label} (hscrut : (scrutineeTemp scrutinee).Yields s v c₁ s₁)
    (hdisp : (dispatch v [] none (leading ++ clause :: following)).Yields
      { s₁ with names := s₁.names.addLabels 1 } (labels, d) c₂ s₂)
    (hleading : (leadingClauses settings (labelOf s₁.names.labels) labels leading).Yields
      s₂ () c3 s3) (hlabel : labels[leading.length]? = some label) :
    (beforeClause settings scrutinee leading clause following).Yields s ()
      (c₁ ++ (c₂ ++ .jump (d.getD (labelOf s₁.names.labels)) :: (c3 ++ [.mark label]))) s3 := by
  refine yields_bind.mpr ⟨v, c₁, s₁, _, hscrut, yields_freshLabel_bind.mpr ?_, rfl⟩
  refine yields_bind.mpr ⟨(labels, d), c₂, s₂, _, hdisp, yields_emit_bind.mpr ⟨_, ?_, rfl⟩, rfl⟩
  refine yields_bind.mpr ⟨(), c3, s3, _, hleading, yields_emit.mpr ⟨?_, rfl⟩, rfl⟩
  rw [getD_eq_getElem?_getD, hlabel, Option.getD_some]

end Parts

/-! ## Jumps and the labels they go to -/

/-- The jumps of code go to labels with numbers in a set. -/
def JumpsTo (c : List Instr) (L : Set Nat) : Prop :=
  ∀ i ∈ c, i.op.isJump = true → ∃ k ∈ L, i.target = some (labelOf k)

/-- The jumps at certain places of code go to labels with numbers in a set. -/
def JumpsFrom (code : List Instr) (places : Set Nat) (L : Set Nat) : Prop :=
  ∀ q ∈ places, ∀ i, code[q]? = some i → i.op.isJump = true → ∃ k ∈ L, i.target = some (labelOf k)

section Jumps

variable {code c c₁ c₂ : List Instr} {L L' S S' : Set Nat} {p k : Nat} {i : Instr}

lemma jumpsTo_nil : JumpsTo [] L := forall_mem_nil _

lemma JumpsTo.append (h1 : JumpsTo c₁ L) (h2 : JumpsTo c₂ L) : JumpsTo (c₁ ++ c₂) L :=
  forall_mem_append.mpr ⟨h1, h2⟩

lemma JumpsTo.mark_cons (l : Label) (h : JumpsTo c L) : JumpsTo (.mark l :: c) L :=
    forall_mem_cons.mpr ⟨nofun, h⟩

lemma JumpsTo.jump_cons (hk : k ∈ L) (h : JumpsTo c L) : JumpsTo (.jump (labelOf k) :: c) L :=
  forall_mem_cons.mpr ⟨fun _ => ⟨k, hk, rfl⟩, h⟩

lemma JumpsTo.mono (h : JumpsTo c L) (hL : L ⊆ L') : JumpsTo c L' := fun i hi hjump => by
  obtain ⟨k, hk, htarget⟩ := h i hi hjump
  exact ⟨k, hL hk, htarget⟩

/-- The jumps at the places of a piece of code are those of the piece. -/
lemma CodeAt.jumpsFrom (hat : CodeAt code p c) (h : JumpsTo c L) :
    JumpsFrom code (Set.Ico p (p + c.length)) L := by
  rintro q ⟨hlower, hupper⟩ i hi hjump
  obtain ⟨j, rfl⟩ := Nat.exists_eq_add_of_le hlower
  rw [hat j (Nat.lt_of_add_lt_add_left hupper)] at hi
  exact h i (mem_of_getElem? hi) hjump

lemma JumpsFrom.union (h : JumpsFrom code S L) (h' : JumpsFrom code S' L) :
    JumpsFrom code (S ∪ S') L := by
  rintro q (hq | hq)
  · exact h q hq
  · exact h' q hq

lemma JumpsFrom.mono (h : JumpsFrom code S L) (hS : S' ⊆ S) (hL : L ⊆ L') :
    JumpsFrom code S' L' := by
  intro q hq i hi hjump
  obtain ⟨k, hk, htarget⟩ := h q (hS hq) i hi hjump
  exact ⟨k, hL hk, htarget⟩

end Jumps

/-- Code stands at a place, and no jump from another place goes to the labels in a set. -/
structure Nested (code : List Instr) (place : Nat) (c : List Instr) (L : Set Nat) : Prop where
  code_at : CodeAt code place c
  spared : JumpsFrom code (Set.Ico place (place + c.length))ᶜ Lᶜ

/-- A part of nested code is nested, with labels that the code around it does not jump to. -/
lemma Nested.part {code x d y p L L'} (h : Nested code p (x ++ (d ++ y)) L) (hL : L' ⊆ L)
    (hx : JumpsTo x L'ᶜ) (hy : JumpsTo y L'ᶜ) : Nested code (p + x.length) d L' where
  code_at := h.code_at.right.left
  spared := by
    have hinside := (h.code_at.left.jumpsFrom hx).union (h.code_at.right.right.jumpsFrom hy)
    have houtside := h.spared.mono (subset_refl _) (Set.compl_subset_compl.mpr hL)
    refine (houtside.union hinside).mono (fun q hq => ?_) (subset_refl _)
    simp only [Set.mem_compl_iff, Set.mem_Ico, not_and, not_lt, Set.mem_union,
      length_append] at hq ⊢
    omega

/-! ## Labels of the parts -/

section Labels

variable {settings : Settings} {s s' : LowerState} {c : List Instr}

/-- A lowering that keeps to its names jumps to its own labels only. -/
lemma Lowering.Keeps.jumpsTo {α} {x : Lower α} {Q a} {b : Names} (hx : x.Keeps b s.names Q)
    (h : x.Yields s a c s') :
    s.names ≤ s'.names ∧ JumpsTo c (Set.Ico b.labels s'.names.labels) := by
  obtain ⟨-, rfl, rfl⟩ := yields_iff.mp h
  obtain ⟨hle, hwithin, -⟩ := hx s (le_refl _)
  refine ⟨hle, fun i hi hjump => ?_⟩
  obtain ⟨k, hlower, hupper, htarget⟩ := (hwithin i hi).of_jump hjump
  exact ⟨k, ⟨hlower, hupper⟩, htarget⟩

lemma statements_jumpsTo {ts} (h : (statements settings ts).Yields s () c s') :
    s.names ≤ s'.names ∧ JumpsTo c (Set.Ico s.names.labels s'.names.labels) :=
  (keeps_statements settings ts (le_refl _)).jumpsTo h

/-- A condition whose exit has been minted just before jumps to labels from then on. -/
lemma cond_jumpsTo {j} (h : (cond condition none (some (labelOf (s.names.labels + j)))).Yields
      { s with names := s.names.addLabels k } () c s') (hj : j < k) :
    s.names.labels + k ≤ s'.names.labels ∧ JumpsTo c (Set.Ico s.names.labels s'.names.labels) := by
  have hadd : s.names ≤ s.names.addLabels k := ⟨le_refl _, Nat.le_add_right _ _⟩
  obtain ⟨hle, hjumps⟩ := (keeps_cond condition hadd (exitsWithin_none_some
    ⟨s.names.labels + j, Nat.le_add_right _ _, Nat.add_lt_add_left hj _, rfl⟩)).jumpsTo h
  exact ⟨hle.labels, hjumps⟩

lemma Ico_subset_compl_Ico : Set.Ico l m ⊆ (Set.Ico m r)ᶜ := fun _ hk hk' =>
    Nat.not_lt.mpr hk'.1 hk.2

lemma Ico_subset_compl_Ico' : Set.Ico m r ⊆ (Set.Ico l m)ᶜ := fun _ hk hk' =>
    Nat.not_lt.mpr hk.1 hk'.2

lemma leaveCode_jumpsTo {L} (hk : k ∈ L) (following : List Tree) :
    JumpsTo (leaveCode (labelOf k) following) L := by
  unfold leaveCode
  split
  · exact jumpsTo_nil
  · exact jumpsTo_nil.jump_cons hk

/-- A clause jumps to its own labels and to the end of the `switch`, and so do the clauses behind
it. -/
lemma JumpsTo.clause {label leave} (hlm : l ≤ m) (hmr : m ≤ r) (h1 : JumpsTo c₁ (Set.Ico l m))
    (hleave : JumpsTo leave {k}) (h2 : JumpsTo c₂ (insert k (Set.Ico m r))) :
    JumpsTo (.mark label :: (c₁ ++ leave ++ c₂)) (insert k (Set.Ico l r)) := by
  have hbody := h1.mono ((Set.Ico_subset_Ico_right hmr).trans (Set.subset_insert k _))
  have hrest := h2.mono (Set.insert_subset_insert (Set.Ico_subset_Ico_left hlm))
  exact ((hbody.append (hleave.mono (by simp))).append hrest).mark_cons label

/-- Clauses of a `switch` jump to their own labels and to the end of the `switch`. -/
lemma clauseBodies_jumpsTo {labels clauses s c}
    (h : (clauseBodies settings (labelOf k) labels clauses).Yields s () c s') :
    s.names ≤ s'.names ∧ JumpsTo c (insert k (Set.Ico s.names.labels s'.names.labels)) := by
  match labels, clauses with
  | [], [] | _ :: _, [] =>
    unfold clauseBodies at h
    obtain ⟨-, rfl, rfl⟩ := yields_pure.mp h
    exact ⟨le_refl _, jumpsTo_nil⟩
  | [], _ :: _ | _ :: _, .absent :: _ =>
    unfold clauseBodies at h
    exact absurd h not_yields_incomplete
  | label :: labels, .node kind token value ops children :: clauses =>
    obtain ⟨c₁, s₁, c₂, hbody, hrest, rfl⟩ := clauseBodies_parts h
    obtain ⟨hle1, hjumps1⟩ := statements_jumpsTo hbody
    obtain ⟨hle2, hjumps2⟩ := clauseBodies_jumpsTo hrest
    exact ⟨hle1.trans hle2, .clause hle1.labels hle2.labels hjumps1
      (leaveCode_jumpsTo (Set.mem_singleton k) clauses) hjumps2⟩

/-- A clause of a `switch` that others follow is left with a jump. -/
lemma leadingClauses_parts {label clause}
    (h : (leadingClauses settings done (label :: labels) (clause :: clauses)).Yields s () c s') :
    ∃ c₁ s₁ c₂, (statements settings clause.clauseStatements).Yields s () c₁ s₁ ∧
      (leadingClauses settings done labels clauses).Yields s₁ () c₂ s' ∧
      c = .mark label :: (c₁ ++ .jump done :: c₂) := by
  obtain ⟨_, hmore, rfl⟩ := yields_emit_bind.mp h
  obtain ⟨_, c₁, s₁, _, hbody, hjump, rfl⟩ := yields_bind.mp hmore
  obtain ⟨c₂, hrest, rfl⟩ := yields_emit_bind.mp hjump
  exact ⟨c₁, s₁, c₂, hbody, hrest, rfl⟩

/-- Clauses of a `switch` that others follow jump to their own labels and to the end of the
`switch`. -/
lemma leadingClauses_jumpsTo {labels clauses s c}
    (h : (leadingClauses settings (labelOf k) labels clauses).Yields s () c s') :
    s.names ≤ s'.names ∧ JumpsTo c (insert k (Set.Ico s.names.labels s'.names.labels)) := by
  match labels, clauses with
  | [], _ | _ :: _, [] =>
    unfold leadingClauses at h
    obtain ⟨-, rfl, rfl⟩ := yields_pure.mp h
    exact ⟨le_refl _, jumpsTo_nil⟩
  | label :: labels, clause :: clauses =>
    obtain ⟨c₁, s₁, c₂, hbody, hrest, rfl⟩ := leadingClauses_parts h
    obtain ⟨hle1, hjumps1⟩ := statements_jumpsTo hbody
    obtain ⟨hle2, hjumps2⟩ := leadingClauses_jumpsTo hrest
    have hjumps : JumpsTo (.mark label :: (c₁ ++ [.jump (labelOf k)] ++ c₂)) _ :=
      .clause hle1.labels hle2.labels hjumps1 (jumpsTo_nil.jump_cons (Set.mem_singleton k)) hjumps2
    rw [append_assoc] at hjumps
    exact ⟨hle1.trans hle2, hjumps⟩

/-- Clauses of a `switch` that others follow end with a jump, as does what comes before them. -/
lemma leadingClauses_leave {labels clauses} {s : LowerState} {c}
    (h : (leadingClauses settings done labels clauses).Yields s () c s') (l : Label) :
    ∃ y l', .jump l :: c = y ++ [.jump l'] := by
  match labels, clauses with
  | [], _ | _ :: _, [] =>
    unfold leadingClauses at h
    obtain ⟨-, rfl, -⟩ := yields_pure.mp h
    exact ⟨[], l, rfl⟩
  | label :: labels, clause :: clauses =>
    obtain ⟨c₁, s₁, c₂, -, hrest, rfl⟩ := leadingClauses_parts h
    obtain ⟨y, l', hlast⟩ := leadingClauses_leave hrest done
    exact ⟨.jump l :: .mark label :: (c₁ ++ y), l', by simp [hlast]⟩

/-- The tests of a `switch` jump to the labels of its clauses. -/
lemma DispatchCode.jumpsTo (h : DispatchCode v d clauses n c labels d' n') :
    JumpsTo c (Set.Ico n n') := by
  intro i hi _
  obtain ⟨w, k, hk, rfl⟩ := h.tests i hi
  exact ⟨k, hk, rfl⟩

/-- The label of the default clause is one of the labels minted for the clauses, if it was not known
before. -/
lemma DispatchCode.default_minted (h : DispatchCode v d clauses n c labels d' n') :
    d' = d ∨ ∃ k ∈ Set.Ico n n', d' = some (labelOf k) := by
  obtain rfl := h.labels_eq
  rcases h.default_mem with rfl | ⟨l, hl, rfl⟩
  · exact .inl rfl
  · obtain ⟨k, hlower, hupper, rfl⟩ := mem_labelsBetween.mp hl
    exact .inr ⟨k, ⟨hlower, hupper⟩, rfl⟩

lemma eq_labelOf_of_getElem? {j x} (h : (labelsBetween l r)[j]? = some x) :
    x = labelOf (l + j) := by
  obtain ⟨hj, rfl⟩ := List.getElem?_eq_some_iff.mp h
  simp [labelsBetween]

/-- The code of a `switch` around one of its clauses, and the labels that its parts jump to: `c₁`
computes the scrutinee `v`, `c₂` are the tests, `c₃` the leading clauses, and `c₄` is what comes
behind the body of the clause. -/
structure ClauseParts (settings : Settings) (s : LowerState) (scrutinee : Tree)
    (leading : List Tree) (clause : Tree) (following : List Tree) (s' : LowerState) (v : Operand)
    (d : Option Label) (n : Nat) (s₁ s₂ : LowerState) (c₁ c₂ c₃ body c₄ : List Instr) : Prop where
  tests : ∃ labels, DispatchCode v none (leading ++ clause :: following)
    (s.names.labels + 1) c₂ labels d n
  before : (beforeClause settings scrutinee leading clause following).Yields s ()
    (c₁ ++ (c₂ ++ .jump (d.getD (labelOf s.names.labels)) ::
      (c₃ ++ [.mark (labelOf (s.names.labels + 1 + leading.length))]))) s₁
  lowered : (statements settings clause.clauseStatements).Yields s₁ () body s₂
  first_jumps : JumpsTo c₁ ∅
  leading_jumps : JumpsTo c₃ (insert s.names.labels (Set.Ico n s₁.names.labels))
  leading_leave : ∃ y l, .jump (d.getD (labelOf s.names.labels)) :: c₃ = y ++ [.jump l]
  last_jumps : JumpsTo c₄ (insert s.names.labels (Set.Ico s₂.names.labels s'.names.labels))
  tests_le : s.names.labels < n ∧ n ≤ s₁.names.labels
  body_le : s₂.names.labels ≤ s'.names.labels

/-- A `switch` consists of such parts around each of its clauses. -/
lemma clause_parts {clause token value ops}
      (h : (statement settings (.node .selection token value ops
        (scrutinee :: (leading ++ clause :: following)))).Yields s () c s') :
    ∃ v d n s₁ s₂ c₁ c₂ c3 body c4,
      ClauseParts settings s scrutinee leading clause following s' v d n s₁ s₂ c₁ c₂ c3 body c4 ∧
        c = c₁ ++ (c₂ ++ .jump (d.getD (labelOf s.names.labels)) ::
          (c3 ++ [.mark (labelOf (s.names.labels + 1 + leading.length))])) ++ (body ++ c4) := by
  obtain ⟨v, c₁, s0, labels, d, c₂, s₂, _, hscrut, hdisp, hclauses, rfl⟩ := selection_parts h
  have htests : DispatchCode v none (leading ++ clause :: following)
      (s0.names.labels + 1) c₂ labels d _ :=
    (dispatch_follows hdisp).1
  obtain ⟨hlen, hpresent⟩ := htests.clauses
  obtain ⟨c3, s3, label, body, s4, labels', c4, hleading, hlabel, hclause, hfollowing, rfl⟩ :=
    clauseBodies_split leading hlen hpresent hclauses
  obtain rfl := eq_labelOf_of_getElem? (htests.labels_eq ▸ hlabel)
  have hbefore := yields_beforeClause hscrut hdisp hleading hlabel
  obtain ⟨-, hfirst⟩ := (keeps_scrutineeTemp (le_refl _)).jumpsTo hscrut
  obtain ⟨hle3, hjumps3⟩ := leadingClauses_jumpsTo hleading
  obtain ⟨hle4, hjumps4⟩ := clauseBodies_jumpsTo hfollowing
  obtain ⟨-, hsame, -⟩ := scrutineeTemp_follows hscrut
  rw [hsame] at htests hbefore hfirst hjumps3 hjumps4 ⊢
  rw [Set.Ico_self] at hfirst
  refine ⟨v, d, _, s3, s4, c₁, c₂, c3, body,
    leaveCode (labelOf s.names.labels) following ++ (c4 ++ [.mark (labelOf s.names.labels)]),
    ⟨⟨labels, htests⟩, hbefore, hclause, hfirst, hjumps3, leadingClauses_leave hleading _, ?_,
      ⟨htests.le, hle3.labels⟩, hle4.labels⟩, by simp⟩
  exact (leaveCode_jumpsTo (Set.mem_insert _ _) following).append
    (hjumps4.append (jumpsTo_nil.mark_cons _))

/-- The jump behind the tests goes to the default clause or to the end of the `switch`. -/
lemma DispatchCode.jump_default (h : DispatchCode v none clauses n c labels d n') :
    ∃ j ∈ insert k (Set.Ico n n'), d.getD (labelOf k) = labelOf j := by
  rcases h.default_minted with rfl | ⟨j, hj, rfl⟩
  · exact ⟨k, Set.mem_insert k _, rfl⟩
  · exact ⟨j, Set.mem_insert_of_mem k hj, rfl⟩

/-- What comes before the body of a clause jumps to labels that are minted before it. -/
lemma ClauseParts.before_jumps {clause c3 body c4}
    (h : ClauseParts settings s scrutinee leading clause following s' v d n s₁ s₂
      c₁ c₂ c3 body c4) :
    JumpsTo (c₁ ++ (c₂ ++ .jump (d.getD (labelOf s.names.labels)) ::
        (c3 ++ [.mark (labelOf (s.names.labels + 1 + leading.length))])))
      (Set.Ico s.names.labels s₁.names.labels) := by
  obtain ⟨labels, htests⟩ := h.tests
  obtain ⟨hlt, hle⟩ := h.tests_le
  have hsubset : insert s.names.labels (Set.Ico (s.names.labels + 1) n) ⊆ Set.Ico s.names.labels
      s₁.names.labels := by
    rintro k (rfl | ⟨hlower, hupper⟩) <;> constructor <;> omega
  have hleading : insert s.names.labels (Set.Ico n s₁.names.labels) ⊆ Set.Ico s.names.labels
      s₁.names.labels := by
    rintro k (rfl | ⟨hlower, hupper⟩) <;> constructor <;> omega
  obtain ⟨j, hj, hdefault⟩ := htests.jump_default (k := s.names.labels)
  rw [hdefault]
  exact (h.first_jumps.mono (Set.empty_subset _)).append ((htests.jumpsTo.mono
    ((Set.subset_insert _ _).trans hsubset)).append (JumpsTo.jump_cons (hsubset hj)
      ((h.leading_jumps.mono hleading).append (jumpsTo_nil.mark_cons _))))

end Labels

/-! ## Sites fit -/

/-- The statements of a site can be lowered there, their code is where it should be, and no jump
from elsewhere goes to a label that is minted for it. -/
def Fits (settings : Settings) (code : List Instr) (a : Site) : Prop :=
  ∃ c s', (statements settings a.body).Yields a.state () c s' ∧
    Nested code a.place c (Set.Ico a.state.names.labels s'.names.labels)

section Fit

variable {settings : Settings} {code : List Instr} {a b : Site} {role : Role}

/-- Statements behind a lowering at a site fit if the labels of the code before and after them are
different ones. -/
lemma Nested.fits {x : Lower Unit} {body d} {s' : LowerState}
    (h : Nested code a.place (c₁ ++ (d ++ c₂)) (Set.Ico a.state.names.labels s'.names.labels))
    (hx : x.Yields a.state () c₁ s₁) (hd : (statements settings body).Yields s₁ () d s₂)
    (hle : a.state.names.labels ≤ s₁.names.labels ∧ s₂.names.labels ≤ s'.names.labels)
    (hbefore : JumpsTo c₁ (Set.Ico a.state.names.labels s₁.names.labels))
    (hafter : JumpsTo c₂ (Set.Ico s₁.names.labels s₂.names.labels)ᶜ) :
    Fits settings code (a.after x body) := by
  obtain ⟨-, rfl, rfl⟩ := yields_iff.mp hx
  exact ⟨d, s₂, hd, h.part (Set.Ico_subset_Ico hle.1 hle.2)
    (hbefore.mono Ico_subset_compl_Ico) hafter⟩

/-- A site in one that fits fits as well. -/
lemma Fits.inside (h : Fits settings code a) (hin : Inside settings role a b) :
    Fits settings code b := by
  obtain ⟨c, s', hyields, hnested⟩ := h
  cases hin with
  | item hbody =>
    rw [hbody, yields_statements_append] at hyields
    obtain ⟨c₁, s₁, _, hbefore, hrest, rfl⟩ := hyields
    obtain ⟨_, c₂, s₂, c3, ht, hfollowing, rfl⟩ := yields_bind.mp hrest
    obtain ⟨hle1, hjumps1⟩ := statements_jumpsTo hbefore
    obtain ⟨hle3, hjumps3⟩ := statements_jumpsTo hfollowing
    exact hnested.fits hbefore (yields_statements_singleton.mpr ht)
      ⟨hle1.labels, hle3.labels⟩ hjumps1 (hjumps3.mono Ico_subset_compl_Ico')
  | @sequence _ kind token value ops children hkind hbody =>
    rw [hbody, yields_statements_singleton] at hyields
    have hchildren : (statements settings children).Yields a.state () c s' := by
      rcases hkind with rfl | rfl <;> exact hyields
    exact ⟨c, s', hchildren, hnested⟩
  | inner hbody =>
    rw [hbody, yields_statements_singleton] at hyields
    exact ⟨c, s', yields_statements_singleton.mpr hyields, hnested⟩
  | onlyBody hrest hbody =>
    rw [hbody, yields_statements_singleton] at hyields
    obtain ⟨c₁, s₁, c₂, hcond, hthen, rfl⟩ := conditional_none_parts (yields_only hrest hyields)
    rw [append_assoc] at hnested
    obtain ⟨hle, hjumps⟩ := cond_jumpsTo (j := 0) hcond Nat.zero_lt_one
    exact hnested.fits (yields_freshLabel_bind.mpr hcond) (yields_statements_singleton.mpr hthen)
      ⟨Nat.le_of_succ_le hle, le_refl _⟩ hjumps (jumpsTo_nil.mark_cons _)
  | thenBody he hbody =>
    rw [hbody, yields_statements_singleton] at hyields
    obtain ⟨c₁, s₁, c₂, s₂, c3, hcond, hthen, helse, rfl⟩ :=
      conditional_some_parts (yields_alternative he hyields)
    simp only [append_assoc] at hnested
    obtain ⟨hle1, hjumps1⟩ := cond_jumpsTo (j := 0) hcond Nat.zero_lt_two
    obtain ⟨hle3, hjumps3⟩ := statements_jumpsTo (yields_statements_singleton.mpr helse)
    -- the jump behind the branch goes to a label that is older than those in it
    have hdone : a.state.names.labels + 1 ∈ (Set.Ico s₁.names.labels s₂.names.labels)ᶜ :=
      fun h => by
      have := h.1
      omega
    refine hnested.fits (yields_freshLabel_bind.mpr (yields_freshLabel_bind.mpr hcond))
      (yields_statements_singleton.mpr hthen) ⟨by omega, hle3.labels⟩ hjumps1 ?_
    exact (JumpsTo.mark_cons _ ((hjumps3.mono Ico_subset_compl_Ico').append
      (jumpsTo_nil.mark_cons _))).jump_cons hdone
  | elseBody he hbody =>
    rw [hbody, yields_statements_singleton] at hyields
    obtain ⟨c₁, s₁, c₂, s₂, c3, hcond, hthen, helse, rfl⟩ :=
      conditional_some_parts (yields_alternative he hyields)
    rw [append_assoc] at hnested
    obtain ⟨hle1, hjumps1⟩ := cond_jumpsTo (j := 0) hcond Nat.zero_lt_two
    obtain ⟨hle2, hjumps2⟩ := statements_jumpsTo (yields_statements_singleton.mpr hthen)
    have hstart := hjumps1.mono (Set.Ico_subset_Ico_right hle2.labels)
    have hmiddle := hjumps2.mono (Set.Ico_subset_Ico_left (Nat.le_of_add_right_le hle1))
    have hend : a.state.names.labels + 1 ∈ Set.Ico a.state.names.labels s₂.names.labels :=
      ⟨Nat.le_succ _, lt_of_lt_of_le hle1 hle2.labels⟩
    exact hnested.fits (yields_beforeElse hcond hthen) (yields_statements_singleton.mpr helse)
      ⟨le_trans (Nat.le_of_add_right_le hle1) hle2.labels, le_refl _⟩
      ((hstart.append hmiddle).append ((jumpsTo_nil.mark_cons _).jump_cons hend))
      (jumpsTo_nil.mark_cons _)
  | loopBody hbody =>
    rw [hbody, yields_statements_singleton] at hyields
    obtain ⟨c₁, s₁, c₂, hcond, ht, rfl⟩ := loop_parts (yields_loop hyields)
    rw [append_assoc, ← cons_append] at hnested
    obtain ⟨hle, hjumps⟩ := cond_jumpsTo hcond Nat.one_lt_two
    -- the jump back goes to a label that is older than those of the body
    have hagain : a.state.names.labels ∈ (Set.Ico s₁.names.labels s'.names.labels)ᶜ := fun h => by
      have := h.1
      omega
    exact hnested.fits (yields_beforeLoop hcond) (yields_statements_singleton.mpr ht)
      ⟨Nat.le_of_add_right_le hle, le_refl _⟩ (hjumps.mark_cons _)
      ((jumpsTo_nil.mark_cons _).jump_cons hagain)
  | clause hbody =>
    rw [hbody, yields_statements_singleton] at hyields
    obtain ⟨v, d, n, s₁, s₂, c₁, c₂, c3, body, c4, hparts, rfl⟩ := clause_parts hyields
    obtain ⟨hlt, hle⟩ := hparts.tests_le
    refine hnested.fits hparts.before hparts.lowered ⟨by omega, hparts.body_le⟩ hparts.before_jumps
      (hparts.last_jumps.mono ?_)
    rintro k (rfl | ⟨hlower, -⟩) ⟨hlower', hupper'⟩ <;> omega

/-- The site of a program fits its code. -/
lemma fits_ofProgram {root state} (h : (lower settings root state).outcome = .ok ()) :
    Fits settings (lower settings root state).code (.ofProgram root state) := by
  have hyields := yields_of_outcome h
  generalize (lower settings root state).code = code at hyields ⊢
  unfold lower at hyields
  split at hyields
  · rw [yields_setSymbols_bind] at hyields
    obtain ⟨_, c₁, s₁, _, hcollect, hrest, rfl⟩ := yields_bind.mp hyields
    obtain ⟨_, c₂, s₂, _, hstmt, hunused, rfl⟩ := yields_bind.mp hrest
    obtain ⟨rfl, -, -⟩ := collectAll_follows hcollect
    obtain ⟨rfl, -⟩ := noteUnused_follows (yields_symbols_bind.mp hunused)
    obtain ⟨-, -, rfl⟩ := yields_iff.mp hcollect
    rw [nil_append, append_nil]
    refine ⟨c₂, s₂, yields_statements_singleton.mpr hstmt, .self c₂, fun q hq i hi => ?_⟩
    have hlt := (List.getElem?_eq_some_iff.mp hi).1
    exact absurd ⟨Nat.zero_le q, by simpa [Site.ofProgram] using hlt⟩ hq
  · exact absurd hyields not_yields_fail

/-- Every site of a program fits its code. -/
lemma SiteOf.fits {root state} (ha : SiteOf settings root state a)
    (h : (lower settings root state).outcome = .ok ()) :
    Fits settings (lower settings root state).code a := by
  induction ha with
  | refl => exact fits_ofProgram h
  | tail _ hin ih =>
    obtain ⟨role, hin⟩ := hin
    exact ih.inside hin

end Fit

end ThreeAddress
