import ThreeAddress.Proofs.Lowering.Comparison
import ThreeAddress.Proofs.Lowering.DeadCode

/-!
# What is said to be never executed

Two kinds of notes say of code that it is never executed: those about the body of an `if` or a
`while` and those about the clause of a `switch`. Expressions are lowered without such a note
(`tacit_cond`, `tacit_arith`). A note that is made at a site is about a body directly in it, or it
is made at a smaller site in it (`Site.explains`), and so every note of a program is about a body at
one of its sites (`SiteOf.noted`).
-/

namespace ThreeAddress

open List Lowering Machine

variable {c : List Instr} {ops : List TokenKind} {children clauses : List Tree} {x : Lower Unit}
  {s' s : LowerState} {value : String} {token : Token} {condition t : Tree} {n : Note}

/-- Whether a note says of code that it is never executed. -/
def Note.isIdle (n : Note) : Bool :=
  match n.subject with
  | .neverExecuted | .duplicateCase _ => true
  | _ => false

/-- A lowering says of no code that it is never executed. -/
def Lowering.Tacit {α : Type} (x : Lower α) : Prop := ∀ s, ∀ n ∈ (x s).notes, ¬ n.isIdle = true

section Tacit

variable {α β : Type} {x : Lower α} {f : α → Lower β}

/-- A note of two parts is made by the first, or by the second after the first has succeeded. -/
lemma mem_notes_bind : n ∈ ((x >>= f) s).notes ↔
    n ∈ (x s).notes ∨ ∃ a c s1, x.Yields s a c s1 ∧ n ∈ (f a s1).notes := by
  change n ∈ (Lowering.bind x f s).notes ↔ _
  unfold Lowering.bind Yields
  rcases x s with ⟨_ | a, c, notes, s1⟩ <;> simp

lemma Lowering.Tacit.mem_bind (hx : x.Tacit) (hn : n.isIdle = true) (h : n ∈ ((x >>= f) s).notes) :
    ∃ a c s1, x.Yields s a c s1 ∧ n ∈ (f a s1).notes :=
  (mem_notes_bind.mp h).resolve_left fun h => hx s n h hn

lemma Lowering.Yields.bind {a b c' s1} (hx : x.Yields s a c s1) (hf : (f a).Yields s1 b c' s') :
    (x >>= f).Yields s b (c ++ c') s' :=
  yields_bind.mpr ⟨a, c, s1, c', hx, hf, rfl⟩

lemma Lowering.Tacit.bind (hx : x.Tacit) (hf : ∀ a, (f a).Tacit) : (x >>= f).Tacit := by
  intro s n h hn
  obtain ⟨a, c, s1, -, h⟩ := hx.mem_bind hn h
  exact hf a s1 n h hn

lemma tacit_of_nil (h : ∀ s, (x s).notes = []) : x.Tacit := by
  intro s n hmem
  rw [h s] at hmem
  cases hmem

lemma tacit_pure (a : α) : (pure a : Lower α).Tacit := tacit_of_nil fun _ => rfl

lemma tacit_fail (token : Token) (fault : LowerFault) : (fail token fault : Lower α).Tacit :=
    tacit_of_nil fun _ => rfl

lemma tacit_incomplete : (incomplete : Lower α).Tacit := tacit_of_nil fun _ => rfl

lemma tacit_emit (i : Instr) : (emit i).Tacit := tacit_of_nil fun _ => rfl

lemma tacit_freshLabel : freshLabel.Tacit := tacit_of_nil fun _ => rfl

lemma tacit_note {subject} (h : ¬ Note.isIdle ⟨token, subject⟩ = true) :
    (note token subject).Tacit := by
  intro s n hmem
  obtain rfl := mem_singleton.mp hmem
  exact h

end Tacit

/-! ## Expressions -/

lemma tacit_typeOfName (token : Token) (name : String) : (typeOfName token name).Tacit := by
  refine Tacit.bind (tacit_of_nil fun _ => rfl) fun t => ?_
  cases t.lookup name with
  | ok type => exact tacit_pure type
  | error fault => exact tacit_fail token fault

lemma tacit_useName (token : Token) (name : String) : (useName token name).Tacit := by
  refine Tacit.bind (tacit_typeOfName token name) fun type => ?_
  refine Tacit.bind (tacit_of_nil fun _ => rfl) fun t => ?_
  exact Tacit.bind (tacit_of_nil fun _ => rfl) fun _ => tacit_pure type

/-- Two runs of which only the first is looked at: it says nothing. -/
def tacitly : Lockstep {} {} where
  World := Unit
  order := Lockstep.still
  Rel _ Q x _ := x.Tacit ∧ ∀ ⦃s a c s'⦄, x.Yields s a c s' → ∃ b, Q () a b
  Value _ v v' := v.SameSort v'
  Target _ l l' := l' = l
  Cited _ := True
  gaps := True
  value_const _ := .const
  value_global _ := .global
  value_sort hv := hv
  value_mono _ hv := hv
  target_mono _ hl := hl
  rel_pure {_ _ _ _ a b} hQ :=
    ⟨tacit_pure a, fun _ _ _ _ h => ⟨b, (yields_pure.mp h).1 ▸ hQ () trivial⟩⟩
  rel_bind hx hf := by
    refine ⟨fun s n h hn => ?_, fun s b c s' h => ?_⟩
    · obtain ⟨a, c, s₁, ha, h⟩ := hx.1.mem_bind hn h
      obtain ⟨b, hb⟩ := hx.2 ha
      exact (hf () trivial a b hb).1 s₁ n h hn
    · obtain ⟨a, c, s₁, d, ha, h, -⟩ := yields_bind.mp h
      obtain ⟨b, hb⟩ := hx.2 ha
      exact (hf () trivial a b hb).2 h
  rel_fail token fault := ⟨tacit_fail token fault, fun _ _ _ _ h => absurd h not_yields_fail⟩
  rel_incomplete _ := ⟨tacit_incomplete, fun _ _ _ _ h => absurd h not_yields_incomplete⟩
  rel_emit {_ i _} _ := ⟨tacit_emit i, fun _ u _ _ _ => ⟨u, trivial⟩⟩
  rel_selfCopy x := by
    refine ⟨?_, fun _ u _ _ _ => ⟨u, trivial⟩⟩
    split
    · exact tacit_pure ()
    · exact tacit_emit _
  rel_freshTemp := ⟨tacit_of_nil fun _ => rfl, fun _ v _ _ ⟨_, h⟩ =>
    ⟨v, .refl v, _, _, (Except.ok.inj (congrArg LoweringResult.outcome h)).symm⟩⟩
  rel_freshLabel := ⟨tacit_freshLabel, fun _ l _ _ _ => ⟨l, rfl⟩⟩
  rel_typeOfName token name := ⟨tacit_typeOfName token name, fun _ type _ _ _ => ⟨type, rfl⟩⟩
  rel_useName token name := ⟨tacit_useName token name, fun _ type _ _ _ => ⟨type, rfl⟩⟩

lemma tacit_strip (t : Tree) : (strip t).Tacit := by
  induction t using Tree.induction with
  | absent => exact tacit_incomplete
  | node kind token value ops children ih =>
    cases hop : isTransparent kind ops with
    | true =>
      rw [strip_of_transparent hop]
      cases honly : onlyChild? children with
      | none => exact tacit_fail token _
      | some u => exact ih u (eq_singleton_of_onlyChild honly ▸ mem_singleton_self u)
    | false =>
      unfold strip
      simp only [hop, Bool.false_eq_true, if_false]
      exact tacit_pure _

lemma tacit_arith (t : Tree) : (arith t).Tacit := ((tacitly.twins t.admitted_all).number ()).1

lemma tacit_cond (t : Tree) (holds fails : Option Label) : (cond t holds fails).Tacit := by
  have hexit : ∀ l : Option Label, tacitly.Exit () l l := by
    intro l
    cases l with
    | none => exact .none
    | some l => exact .some rfl
  exact ((tacitly.twins t.admitted_all).condition (hexit holds) (hexit fails)).1

lemma tacit_boolValue (t : Tree) (target : Operand) : (boolValue (cond t) target).Tacit :=
  (tacitly.rel_boolValue (w := ()) (tacitly.twins t.admitted_all).condition (.refl _)).1

/-! ## Notes about bodies -/

/-- The token of the value of a case clause. -/
def Tree.caseToken? : Tree → Option Token
  | .node .caseClause _ _ _ (.node .intLiteral token _ _ _ :: _) => some token
  | _ => none

/-- A note is about statements in their role. -/
inductive Noted (n : Note) : Role → Site → Prop
  | dead {role b t} (hdead : role.IsDead) (hbody : b.body = [t])
      (hn : n = ⟨t.token, .neverExecuted⟩) : Noted n role b
  | repeated {leading clause b token w} (hrepeated : (Role.clause leading clause).IsRepeated)
      (hvalue : clause.caseValue? = some w) (htoken : clause.caseToken? = some token)
      (hn : n = ⟨token, .duplicateCase w⟩) : Noted n (.clause leading clause) b

/-- The notes that are made at a site. -/
def Site.notes (settings : Settings) (a : Site) : List Note :=
  (statements settings a.body a.state).notes

section Statements

variable {settings : Settings} {a : Site}

/-- What stands for a known condition is known. -/
lemma isKnown_of_strip {r b} (hr : r.IsKnown b) : (strip t).Yields s r c s' → t.IsKnown b := by
  fun_induction strip t with
  | case1 => exact fun h => absurd h not_yields_incomplete
  | case2 kind token value ops htransparent k t v o c ih =>
    exact fun h => .under htransparent (ih h)
  | case3 kind token value ops htransparent children hchildren =>
    exact fun h => absurd h not_yields_fail
  | case4 kind token value ops children hopaque => exact fun h => (yields_pure.mp h).1 ▸ hr

/-- A condition that is found to be known in advance is. -/
lemma isKnown_of_constantCondition {b} (h : (constantCondition? condition).Yields s (some b) c s') :
    condition.IsKnown b := by
  obtain ⟨r, c1, s1, c2, hstrip, hknown, -⟩ := yields_bind.mp h
  refine isKnown_of_strip ?_ hstrip
  split at hknown
  · rw [yields_note_bind] at hknown
    obtain ⟨hb, -⟩ := yields_pure.mp hknown
    exact .literal (Option.some.inj hb).symm
  · cases (yields_pure.mp hknown).1

lemma tacit_constantCondition (t : Tree) : (constantCondition? t).Tacit := by
  refine (tacit_strip t).bind fun r => ?_
  split
  · exact Tacit.bind (tacit_note Bool.false_ne_true) fun _ => tacit_pure _
  · exact tacit_pure none

/-- A note that is made after a body has been looked at is about the body or is made later. -/
lemma mem_notes_noteUnreachable {f : Unit → Lower Unit}
    (h : n ∈ ((noteUnreachable t >>= f) s).notes) : n = ⟨t.token, .neverExecuted⟩ ∨
    n ∈ (f () s).notes := by
  cases t with
  | absent => exact .inr h
  | node kind token value ops children =>
    simp only [noteUnreachable] at h
    split at h
    · exact .inr h
    · exact mem_cons.mp h

/-- A note that is made after a condition and a body have been looked at says that the body is never
executed, for the condition is known not to hold, or is made later. -/
lemma mem_notes_noting (hn : n.isIdle = true)
    (h : n ∈ ((constantCondition? condition >>= fun known =>
      if known = some false then noteUnreachable t >>= fun _ => x else x) s).notes) :
    (condition.IsKnown false ∧ n = ⟨t.token, .neverExecuted⟩) ∨ n ∈ (x s).notes := by
  obtain ⟨known, c, s0, hknown, hmore⟩ := (tacit_constantCondition condition).mem_bind hn h
  obtain ⟨-, rfl⟩ := quiet_constantCondition condition hknown
  split at hmore
  · rename_i hfalse
    subst hfalse
    exact (mem_notes_noteUnreachable hmore).imp_left fun hnote =>
      ⟨isKnown_of_constantCondition hknown, hnote⟩
  · exact .inr hmore

lemma tacit_assignment (token : Token) (children : List Tree) :
    (assignment settings token children).Tacit := by
  unfold assignment
  split
  · exact tacit_incomplete
  · rename_i nameToken name nameOps nameChildren value
    refine (tacit_useName nameToken name).bind fun type => ?_
    cases type with
    | bool => exact tacit_boolValue value _
    | num =>
      refine (tacit_arith value).bind fun v => ?_
      split
      · refine Tacit.bind (tacit_note Bool.false_ne_true) fun _ => ?_
        split
        · exact tacit_pure ()
        · exact tacit_emit _
      · exact tacit_emit _
  · exact tacit_fail token _

/-- The scrutinee of a `switch`. -/
lemma tacit_scrutineeTemp (t : Tree) : (scrutineeTemp t).Tacit :=
  (Lockstep.rel_scrutineeTemp (w := ()) (tacitly.twins t.admitted_all) (.inl rfl)).1

/-- A note that is made at the test of a case is about a value that has been met before. -/
lemma mem_notes_caseTest {v seen label} (h : n ∈ (caseTest v seen token label children s).notes) :
    ∃ literalToken text ops grandchildren body w,
      children = .node .intLiteral literalToken text ops grandchildren :: body ∧
      Text.readInt64 text = .ok w ∧
        n = ⟨literalToken, .duplicateCase w⟩ ∧ w ∈ seen := by
  unfold caseTest at h
  split at h
  · cases h
  · rename_i literalToken text ops grandchildren body
    cases hw : Text.readInt64 text with
    | error e =>
      simp only [hw] at h
      cases h
    | ok w =>
      simp only [hw] at h
      split at h
      · rename_i hseen
        rcases mem_cons.mp h with rfl | h
        · exact ⟨literalToken, text, ops, grandchildren, body, w, rfl, hw, rfl,
            by simpa using hseen⟩
        · cases h
      · cases h
  · cases h

/-- A note that is made at the tests of a `switch` is about a clause with the value of an earlier
one. -/
lemma mem_notes_dispatch {v seen d} (h : n ∈ (dispatch v seen d clauses s).notes) :
    ∃ leading clause following token w, clauses = leading ++ clause :: following ∧
    clause.caseValue? = some w ∧
      clause.caseToken? = some token ∧ n = ⟨token, .duplicateCase w⟩ ∧
        (w ∈ seen ∨ ∃ earlier ∈ leading, earlier.caseValue? = some w) := by
  induction clauses generalizing seen d s with
  | nil => cases h
  | cons t clauses ih =>
    -- a note for a later clause is about a value that has been met before this one or is its value
    have hlater : ∀ {seen' d} {s : LowerState}, n ∈ (dispatch v seen' d clauses s).notes →
        (∀ w ∈ seen', w ∈ seen ∨ t.caseValue? = some w) →
        ∃ leading clause following token w, t :: clauses = leading ++ clause :: following ∧
          clause.caseValue? = some w ∧ clause.caseToken? = some token ∧
          n = ⟨token, .duplicateCase w⟩ ∧
            (w ∈ seen ∨ ∃ earlier ∈ leading, earlier.caseValue? = some w) := by
      intro seen' d s hnote hseen
      obtain ⟨leading, clause, following, token, w, rfl, hval, htoken, hn, hmet⟩ := ih hnote
      refine ⟨t :: leading, clause, following, token, w, rfl, hval, htoken, hn, ?_⟩
      rcases hmet with hmet | ⟨earlier, hearlier, hsame⟩
      · exact (hseen w hmet).imp_right fun hsame => ⟨t, mem_cons_self, hsame⟩
      · exact .inr ⟨earlier, mem_cons_of_mem t hearlier, hsame⟩
    unfold dispatch at h
    obtain ⟨label, c0, s0, -, hclause⟩ := (mem_notes_bind.mp h).resolve_left not_mem_nil
    split at hclause
    · cases hclause
    · rename_i token value ops children
      rcases mem_notes_bind.mp hclause with hnote | ⟨w, c1, s1, htest, hmore⟩
      · obtain ⟨literalToken, text, _, _, body, w, rfl, hw, rfl, hseen⟩ := mem_notes_caseTest hnote
        refine ⟨[], _, clauses, literalToken, w, rfl, ?_, rfl, rfl, .inl hseen⟩
        rw [Tree.caseValue?, hw, Except.toOption]
      · obtain ⟨literalToken, text, _, _, body, rfl, hw, -⟩ := yields_caseTest htest
        rcases mem_notes_bind.mp hmore with hnote | ⟨_, _, _, -, hnone⟩
        · refine hlater hnote fun w' hmem => ?_
          rcases mem_cons.mp hmem with rfl | hmem
          · exact .inr (by rw [Tree.caseValue?, hw, Except.toOption])
          · exact .inl hmem
        · cases hnone
    · split at hclause
      · cases hclause
      · rcases mem_notes_bind.mp hclause with hnote | ⟨_, _, _, -, hnone⟩
        · exact hlater hnote fun w hmem => .inl hmem
        · cases hnone
    · cases hclause

/-- A note that is made for the clauses of a `switch` is made for one of them. -/
lemma mem_notes_clauseBodies {done labels} (hn : n.isIdle = true)
    (hlen : labels.length = clauses.length)
    (h : n ∈ (clauseBodies settings done labels clauses s).notes) :
    ∃ leading clause following c s', clauses = leading ++ clause :: following ∧
      (leadingClauses settings done labels leading).Yields s () c s' ∧
        n ∈ (statements settings clause.clauseStatements s').notes := by
  induction clauses generalizing labels s with
  | nil => cases labels <;> cases h
  | cons t clauses ih =>
    obtain ⟨label, labels, rfl⟩ := exists_cons_of_length_eq_add_one hlen
    cases t with
    | absent => cases h
    | node kind token value ops children =>
      rw [clauseBodies_node, ← clauseStatements_node kind token value ops children] at h
      obtain ⟨_, c0, s0, hmark, hbody⟩ := (tacit_emit _).mem_bind hn h
      obtain ⟨-, rfl⟩ := yields_emit.mp hmark
      rcases mem_notes_bind.mp hbody with hnote | ⟨_, c1, s1, hfirst, hrest⟩
      · exact ⟨[], _, clauses, [], s0, rfl, yields_pure.mpr ⟨rfl, rfl, rfl⟩, hnote⟩
      · split at hrest
        · rename_i hempty
          obtain rfl := isEmpty_iff.mp hempty
          cases labels <;> cases hrest
        · obtain ⟨_, _, s2, hjump, hlater⟩ := (tacit_emit _).mem_bind hn hrest
          obtain ⟨-, rfl⟩ := yields_emit.mp hjump
          obtain ⟨leading, clause, following, c2, s', rfl, hleading, hnote⟩ :=
            ih (Nat.succ.inj hlen) hlater
          exact ⟨_ :: leading, clause, following, _, s', rfl,
            hmark.bind (hfirst.bind (hjump.bind hleading)), hnote⟩

/-- A note that is made for an `if` without an `else` is made for its body. -/
lemma mem_notes_conditional_none (hn : n.isIdle = true)
    (h : n ∈ (conditional condition x none s).notes) :
    ∃ c s', (beforeOnly condition).Yields s () c s' ∧ n ∈ (x s').notes := by
  obtain ⟨done, c0, s0, hdone, hcondition⟩ := tacit_freshLabel.mem_bind hn h
  obtain ⟨_, c1, s1, hcond, hbody⟩ := (tacit_cond condition none _).mem_bind hn hcondition
  rcases mem_notes_bind.mp hbody with hnote | ⟨_, _, s2, -, hmark⟩
  · exact ⟨_, s1, hdone.bind hcond, hnote⟩
  · cases hmark

/-- A note that is made for an `if` with an `else` is made for one of its bodies. -/
lemma mem_notes_conditional_some {y} (hn : n.isIdle = true)
    (h : n ∈ (conditional condition (statement settings t) (some y) s).notes) :
    (∃ c s', (beforeThen condition).Yields s () c s' ∧ n ∈ (statement settings t s').notes) ∨
      ∃ c s', (beforeElse settings condition t).Yields s () c s' ∧ n ∈ (y s').notes := by
  obtain ⟨otherwise, c0, s0, hotherwise, hmore⟩ := tacit_freshLabel.mem_bind hn h
  obtain ⟨done, c1, s1, hdone, hcondition⟩ := tacit_freshLabel.mem_bind hn hmore
  obtain ⟨_, c2, s2, hcond, hbodies⟩ := (tacit_cond condition none _).mem_bind hn hcondition
  rcases mem_notes_bind.mp hbodies with hnote | ⟨_, c3, s3, hthen, hleave⟩
  · exact .inl ⟨_, s2, hotherwise.bind (hdone.bind hcond), hnote⟩
  · obtain ⟨_, c4, s4, hjump, hmore⟩ := (tacit_emit _).mem_bind hn hleave
    obtain ⟨_, c5, s5, hmark, helse⟩ := (tacit_emit _).mem_bind hn hmore
    rcases mem_notes_bind.mp helse with hnote | ⟨_, _, _, -, hend⟩
    · exact .inr ⟨_, s5, hotherwise.bind (hdone.bind (hcond.bind (hthen.bind (hjump.bind hmark)))),
        hnote⟩
    · cases hend

/-- A note that is made for a `while` is made for its body. -/
lemma mem_notes_loop (hn : n.isIdle = true) (h : n ∈ (loop condition x s).notes) :
    ∃ c s', (beforeLoop condition).Yields s () c s' ∧ n ∈ (x s').notes := by
  obtain ⟨start, c0, s0, hstart, hmore⟩ := tacit_freshLabel.mem_bind hn h
  obtain ⟨done, c1, s1, hdone, hmore⟩ := tacit_freshLabel.mem_bind hn hmore
  obtain ⟨_, c2, s2, hmark, hcondition⟩ := (tacit_emit _).mem_bind hn hmore
  obtain ⟨_, c3, s3, hcond, hbody⟩ := (tacit_cond condition none _).mem_bind hn hcondition
  rcases mem_notes_bind.mp hbody with hnote | ⟨_, _, s4, -, hend⟩
  · exact ⟨_, s3, hstart.bind (hdone.bind (hmark.bind hcond)), hnote⟩
  · obtain ⟨_, _, s5, -, hend⟩ := (tacit_emit _).mem_bind hn hend
    cases hend

/-- A note that is made for several statements is made for one of them. -/
lemma mem_notes_statements {ts} (h : n ∈ (statements settings ts s).notes) :
    ∃ before t following c s', ts = before ++ t :: following ∧
    (statements settings before).Yields s () c s' ∧
      n ∈ (statement settings t s').notes := by
  induction ts generalizing s with
  | nil => cases h
  | cons t ts ih =>
    rcases mem_notes_bind.mp h with hnote | ⟨_, c1, s1, hfirst, hrest⟩
    · exact ⟨[], t, ts, [], s, rfl, yields_pure.mpr ⟨rfl, rfl, rfl⟩, hnote⟩
    · obtain ⟨before, t', following, c2, s', rfl, hbefore, hnote⟩ := ih hrest
      exact ⟨t :: before, t', following, _, s', rfl, hfirst.bind hbefore, hnote⟩

/-- A note that is made at a site is about a body directly in it, or is made at a smaller site in
it. -/
def Site.Explains (settings : Settings) (n : Note) (a : Site) : Prop :=
  ∃ role b, Inside settings role a b ∧
    (Noted n role b ∨ n ∈ b.notes settings ∧ sizeOf b.body < sizeOf a.body)

/-- One of several statements is at most as large as all of them. -/
lemma sizeOf_singleton_le {ts : List Tree} (h : t ∈ ts) : sizeOf [t] ≤ sizeOf ts := by
  induction ts with
  | nil => cases h
  | cons u ts ih =>
    rcases mem_cons.mp h with rfl | h
    · cases ts with
      | nil => exact le_refl _
      | cons u ts =>
        simp only [cons.sizeOf_spec, nil.sizeOf_spec]
        omega
    · have hle := ih h
      rw [cons.sizeOf_spec u ts]
      omega

lemma sizeOf_clauseStatements_le (t : Tree) : sizeOf t.clauseStatements ≤ sizeOf t := by
  cases t with
  | absent => rfl
  | node kind token value ops children =>
    rw [clauseStatements_node]
    unfold clauseBody
    split <;> simp only [Tree.node.sizeOf_spec, cons.sizeOf_spec] <;> omega

/-- A note that is made for statements behind a lowering is made at their site. -/
lemma Site.mem_notes_after {body} (hx : x.Yields a.state () c s')
    (h : n ∈ (statements settings body s').notes) :
    n ∈ (a.after x body).notes settings := by
  obtain ⟨-, -, rfl⟩ := yields_iff.mp hx
  exact h

/-- A note that is made for a body in a statement. -/
lemma Site.Explains.of_body {role kind} (hin : Inside settings role a (a.after x [t]))
    (hbody : a.body = [.node kind token value ops children]) (ht : t ∈ children)
    (hx : x.Yields a.state () c s') (h : n ∈ (statement settings t s').notes) :
    a.Explains settings n := by
  refine ⟨role, _, hin, .inr ⟨Site.mem_notes_after hx (mem_notes_bind.mpr (.inl h)), ?_⟩⟩
  have hlt := sizeOf_lt_of_mem ht
  rw [hbody]
  simp only [Site.after, cons.sizeOf_spec, nil.sizeOf_spec, Tree.node.sizeOf_spec]
  omega

/-- A note that is made for an `if` without an `else`. -/
lemma Site.explains_only {rest} (hrest : rest = [] ∨ rest = [.absent])
    (hbody : a.body = [.node .conditional token value ops (condition :: t :: rest)])
    (hn : n.isIdle = true)
    (h : n ∈ (statement settings (.node .conditional token value ops (condition :: t :: rest))
        a.state).notes) :
    a.Explains settings n := by
  have hin : Inside settings (.thenBody condition) a (a.after (beforeOnly condition) [t]) :=
    .onlyBody hrest hbody
  have hnoting : n ∈ ((constantCondition? condition >>= fun known =>
      if known = some false then
        noteUnreachable t >>= fun _ => conditional condition (statement settings t) none
      else conditional condition (statement settings t) none) a.state).notes := by
    rcases hrest with rfl | rfl <;> exact h
  rcases mem_notes_noting hn hnoting with ⟨hknown, hnote⟩ | hnote
  · exact ⟨_, _, hin, .inl (.dead hknown rfl hnote)⟩
  · obtain ⟨c, s', hbefore, hnote⟩ := mem_notes_conditional_none hn hnote
    exact .of_body hin hbody (by simp) hbefore hnote

/-- A note that is made for an `if` with an `else`. -/
lemma Site.explains_alternative {e : Tree} (he : e.isAbsent = false)
    (hbody : a.body = [.node .conditional token value ops [condition, t, e]]) (hn : n.isIdle = true)
    (h : n ∈ (statement settings (.node .conditional token value ops [condition, t, e])
      a.state).notes) :
    a.Explains settings n := by
  have hthen : Inside settings (.thenBody condition) a (a.after (beforeThen condition) [t]) :=
    .thenBody he hbody
  have helse : Inside settings (.elseBody condition) a
      (a.after (beforeElse settings condition t) [e]) :=
    .elseBody he hbody
  have hif : n ∈ (conditional condition (statement settings t)
      (some (statement settings e)) a.state).notes →
        a.Explains settings n := by
    intro hnote
    rcases mem_notes_conditional_some hn hnote with ⟨c, s', hbefore, hnote⟩ | ⟨c,
      s', hbefore, hnote⟩
    · exact .of_body hthen hbody (by simp) hbefore hnote
    · exact .of_body helse hbody (by simp) hbefore hnote
  cases e with
  | absent => cases he
  | node kind' token' value' ops' children' =>
    unfold statement at h
    obtain ⟨known, c0, s0, hknown, hmore⟩ := (tacit_constantCondition condition).mem_bind hn h
    obtain ⟨-, rfl⟩ := quiet_constantCondition condition hknown
    match known with
    | some true =>
      rcases mem_notes_noteUnreachable hmore with hnote | hnote
      · exact ⟨_, _, helse, .inl (.dead (isKnown_of_constantCondition hknown) rfl hnote)⟩
      · exact hif hnote
    | some false =>
      rcases mem_notes_noteUnreachable hmore with hnote | hnote
      · exact ⟨_, _, hthen, .inl (.dead (isKnown_of_constantCondition hknown) rfl hnote)⟩
      · exact hif hnote
    | none => exact hif hmore

/-- A note that is made for a `while`. -/
lemma Site.explains_loop (hbody : a.body = [.node .loop token value ops [condition, t]])
    (hn : n.isIdle = true)
    (h : n ∈ (statement settings (.node .loop token value ops [condition, t]) a.state).notes) :
    a.Explains settings n := by
  have hin : Inside settings (.loopBody condition) a (a.after (beforeLoop condition) [t]) :=
    .loopBody hbody
  unfold statement at h
  rcases mem_notes_noting hn h with ⟨hknown, hnote⟩ | hnote
  · exact ⟨_, _, hin, .inl (.dead hknown rfl hnote)⟩
  · obtain ⟨c, s', hbefore, hnote⟩ := mem_notes_loop hn hnote
    exact .of_body hin hbody (by simp) hbefore hnote

/-- A note that is made for a `switch`. -/
lemma Site.explains_selection {scrutinee}
    (hbody : a.body = [.node .selection token value ops (scrutinee :: clauses)])
    (hn : n.isIdle = true)
    (h : n ∈ (statement settings (.node .selection token value ops (scrutinee :: clauses))
        a.state).notes) :
    a.Explains settings n := by
  unfold statement at h
  obtain ⟨v, c1, s1, hscrut, hmore⟩ := (tacit_scrutineeTemp scrutinee).mem_bind hn h
  obtain ⟨done, c2, s2, hdone, hmore⟩ := tacit_freshLabel.mem_bind hn hmore
  rcases mem_notes_bind.mp hmore with hnote | ⟨⟨labels, d⟩, c3, s3, hdisp, hmore⟩
  · obtain ⟨leading, clause, following, literalToken, w, rfl, hval, htoken, hnote, hmet⟩ :=
      mem_notes_dispatch hnote
    refine ⟨_, _, .clause hbody, .inl (.repeated ⟨w, hval, ?_⟩ hval htoken hnote)⟩
    exact hmet.resolve_left not_mem_nil
  · obtain ⟨_, c4, s4, hjump, hmore⟩ := (tacit_emit _).mem_bind hn hmore
    rcases mem_notes_bind.mp hmore with hnote | ⟨_, _, _, -, hend⟩
    · obtain ⟨leading, clause, following, c5, s', rfl, hleading, hnote⟩ :=
        mem_notes_clauseBodies hn (dispatch_follows hdisp).1.clauses.1 hnote
      have hbefore : (beforeClause settings scrutinee leading clause following).Yields
          a.state () _ s' :=
        hscrut.bind (hdone.bind (hdisp.bind
          (hjump.bind (hleading.bind (yields_emit.mpr ⟨rfl, rfl⟩)))))
      refine ⟨_, _, .clause hbody, .inr ⟨Site.mem_notes_after hbefore hnote, ?_⟩⟩
      have hle := sizeOf_clauseStatements_le clause
      have hlt : sizeOf clause < sizeOf (leading ++ clause :: following) :=
        sizeOf_lt_of_mem (by simp)
      rw [hbody]
      simp only [Site.after, cons.sizeOf_spec, nil.sizeOf_spec, Tree.node.sizeOf_spec]
      omega
    · cases hend

/-- A note that is made for a statement. -/
lemma Site.explains (hbody : a.body = [t]) (hn : n.isIdle = true)
    (h : n ∈ (statement settings t a.state).notes) : a.Explains settings n := by
  have hpure : (pure () : Lower Unit).Yields a.state () [] a.state :=
    yields_pure.mpr ⟨rfl, rfl, rfl⟩
  cases t with
  | absent => cases h
  | node kind token value ops children =>
    cases kind with
    | program | block =>
      have hin : Inside settings .part a (a.after (pure ()) children) := .sequence (by simp) hbody
      refine ⟨_, _, hin, .inr ⟨Site.mem_notes_after hpure h, ?_⟩⟩
      rw [hbody]
      simp only [Site.after, cons.sizeOf_spec, nil.sizeOf_spec, Tree.node.sizeOf_spec]
      omega
    | statement =>
      rcases children with _ | ⟨inner, _ | ⟨_, _⟩⟩
      · cases h
      · exact .of_body (.inner hbody) hbody (by simp) hpure h
      · cases h
    | assignment => exact absurd hn (tacit_assignment token children a.state n h)
    | conditional =>
      rcases children with _ | ⟨condition, _ | ⟨t, _ | ⟨e, _ | ⟨_, _⟩⟩⟩⟩
      · cases h
      · cases h
      · exact Site.explains_only (.inl rfl) hbody hn h
      · cases e with
        | absent => exact Site.explains_only (.inr rfl) hbody hn h
        | node => exact Site.explains_alternative rfl hbody hn h
      · cases e <;> cases h
    | loop =>
      rcases children with _ | ⟨condition, _ | ⟨t, _ | ⟨_, _⟩⟩⟩
      · cases h
      · cases h
      · exact Site.explains_loop hbody hn h
      · cases h
    | selection =>
      cases children with
      | nil => cases h
      | cons scrutinee clauses => exact Site.explains_selection hbody hn h
    | _ => cases h

/-- A note that is made at a site of a program is about a body at one of its sites. -/
lemma SiteOf.noted {root : Tree} {state : LowerState} (ha : SiteOf settings root state a)
    (hn : n.isIdle = true) (h : n ∈ a.notes settings) :
    ∃ b c role, SiteOf settings root state b ∧ Inside settings role b c ∧ Noted n role c := by
  induction hsize : sizeOf a.body using Nat.strong_induction_on generalizing a with
  | _ size ih =>
    obtain ⟨before, t, following, c, s', hbody, hbefore, hnote⟩ := mem_notes_statements h
    have hitem : SiteOf settings root state (a.after (statements settings before) [t]) :=
      ha.tail ⟨.part, .item hbody⟩
    obtain ⟨-, -, hstate⟩ := yields_iff.mp hbefore
    obtain ⟨role, b, hin, hnoted | ⟨hnote, hlt⟩⟩ :=
      Site.explains (a := a.after (statements settings before) [t]) rfl hn (hstate ▸ hnote)
    · exact ⟨_, b, role, hitem, hin, hnoted⟩
    · refine ih (sizeOf b.body) ?_ (hitem.tail ⟨role, hin⟩) hnote rfl
      rw [← hsize, hbody]
      exact lt_of_lt_of_le hlt (sizeOf_singleton_le (by simp))

end Statements

/-! ## Programs -/

lemma tacit_collect (t : Tree) : (collect t).Tacit := by
  unfold collect
  split
  · refine Tacit.bind (tacit_of_nil fun _ => rfl) fun before => ?_
    refine Tacit.bind (tacit_of_nil fun _ => rfl) fun _ => ?_
    split
    · exact tacit_fail _ _
    · split
      · exact tacit_note Bool.false_ne_true
      · exact tacit_pure ()
  · exact tacit_incomplete
  · exact tacit_fail _ _

lemma tacit_collectAll (ts : List Tree) : (collectAll ts).Tacit := by
  induction ts with
  | nil => exact tacit_pure ()
  | cons t ts ih => exact (tacit_collect t).bind fun _ => ih

/-- Variables that are not used. -/
lemma tacit_noteUnused (symbols : List Symbol) : (noteUnused symbols).Tacit := by
  induction symbols with
  | nil => exact tacit_pure ()
  | cons symbol symbols ih =>
    unfold noteUnused
    split
    · exact Tacit.bind (tacit_note Bool.false_ne_true) fun _ => ih
    · exact ih

/-- What is said to be never executed in a program is a body at one of its sites. -/
lemma lower_noted {settings root state n} (hn : n.isIdle = true)
    (h : n ∈ (lower settings root state).notes) :
    ∃ a b role, SiteOf settings root state a ∧ Inside settings role a b ∧ Noted n role b := by
  have hprog : ∀ x, x = lower settings root → n ∈ (x state).notes →
      n ∈ (Site.ofProgram root state).notes settings := by
    intro x hx hnote
    unfold lower at hx
    split at hx
    · subst hx
      obtain ⟨_, _, s1, hset, hmore⟩ := Tacit.mem_bind (tacit_of_nil fun _ => rfl) hn hnote
      obtain ⟨_, _, s2, hcollect, hmore⟩ := (tacit_collectAll _).mem_bind hn hmore
      obtain ⟨-, -, rfl⟩ := yields_iff.mp hset
      obtain ⟨-, -, rfl⟩ := yields_iff.mp hcollect
      rcases mem_notes_bind.mp hmore with hstmt | ⟨_, _, s3, -, hunused⟩
      · exact mem_notes_bind.mpr (.inl hstmt)
      · obtain ⟨symbols, _, s4, -, hunused⟩ := Tacit.mem_bind (tacit_of_nil fun _ => rfl) hn hunused
        exact absurd hn (tacit_noteUnused symbols.order s4 n hunused)
    · subst hx
      cases hnote
  exact SiteOf.noted .refl hn (hprog _ rfl h)

/-- What is said to be never executed is not executed. Every note that says so is about a body in
the program. In the code of the program the body of an `if` or a `while` that is not executed for a
condition known in advance is not reachable, and no run executes the mark or the body of a clause of
a `switch` with the value of an earlier one. -/
theorem never_executed_warnings_hold (settings : Settings) (state : LowerState) (root : Tree)
    (program : Program) (hprogram : (generate settings state root).outcome = .ok program) :
    (∀ n ∈ (generate settings state root).notes, n.subject = .neverExecuted ∨
      (∃ w, n.subject = .duplicateCase w) →
      ∃ a b role, SiteOf settings root state a ∧ Inside settings role a b ∧ Noted n role b) ∧
    ∀ a b role, SiteOf settings root state a → Inside settings role a b →
      CodeAt program.code b.place (b.code settings) ∧
      (role.IsDead → ∃ seen, reachable program.code = .ok seen ∧
        ∀ q ∈ Set.Ico b.place (b.place + (b.code settings).length), seen[q]? = some false) ∧
      (role.IsRepeated → ∃ p l, b.place = p + 1 ∧ program.code[p]? = some (.mark l) ∧
        ∀ start limit record r,
          run program.code start limit record = .finished r ∨
          run program.code start limit record = .stopped r →
          ∀ q ∈ r.trace, q ∉ Set.Ico p (b.place + (b.code settings).length)) := by
  obtain ⟨hlower, hcode⟩ := lower_of_generate hprogram
  have hcheck := lower_checkLabels hlower
  refine ⟨fun n hnote hn => lower_noted ?_ hnote, fun a b role ha hin => ?_⟩
  · rcases hn with hn | ⟨w, hn⟩ <;> rw [Note.isIdle, hn]
  · have hfits := ha.fits hlower
    rw [hcode]
    exact ⟨(hfits.inside hin).code_at, fun hdead => hin.not_reachable hfits hdead hcheck,
      fun hrepeated => hin.not_executed hfits hrepeated hcheck⟩

/-- An `if` whose condition holds. -/
def settledBranch : Tree :=
  let x := Tree.leaf .identifier {} "x"
  let number text := Tree.leaf .intLiteral {} text
  .branch .conditional {} [.branch .group {} [.leaf .boolLiteral {} "true"],
    .branch .assignment {} [x, number "1"], .branch .assignment {} [x, number "2"]]

/-- A `switch` with two clauses for one value. -/
def repeatedCase : Tree :=
  let x := Tree.leaf .identifier {} "x"
  let number text := Tree.leaf .intLiteral {} text
  .branch .selection {} [x, .branch .caseClause {}
    [number "1", .branch .assignment {} [x, number "4"]],
    .branch .caseClause {} [number "1", .branch .assignment {} [x, number "5"]]]

/-- A program with code that is never executed. -/
def idleProgram : Tree :=
  .branch .program {} [.node .declaration {} "num" [] [.leaf .identifier {} "x"],
    settledBranch, repeatedCase]

/-- There are notes about both; the `else` is not reachable, and no run executes the second clause.
-/
theorem idleProgram_is_not_executed :
    ∃ program, (generate {} {} idleProgram).outcome = .ok program ∧
    (generate {} {} idleProgram).notes.map Note.subject =
      [.constantCondition "true", .neverExecuted, .duplicateCase 1] ∧
    program.code.length = 15 ∧ (∃ seen, reachable program.code = .ok seen ∧ seen[3]? = some false) ∧
      ∀ start limit record r,
        run program.code start limit record = .finished r ∨
        run program.code start limit record = .stopped r →
        12 ∉ r.trace ∧ 13 ∉ r.trace := by
  have hchildren : SiteOf {} idleProgram {} _ := .tail .refl ⟨_, .sequence (.inl rfl) rfl⟩
  have hbranch : SiteOf {} idleProgram {} _ :=
    .tail hchildren ⟨_, @Inside.item {} _ [_] settledBranch [_] rfl⟩
  have hcase : SiteOf {} idleProgram {} _ :=
    .tail hchildren ⟨_, @Inside.item {} _ [_, _] repeatedCase [] rfl⟩
  have hsubjects : (generate {} {} idleProgram).notes.map Note.subject =
      [.constantCondition "true", .neverExecuted, .duplicateCase 1] := by decide +kernel
  obtain ⟨program, hprogram, hlength⟩ :
      ∃ program, (generate {} {} idleProgram).outcome = .ok program ∧ program.code.length = 15 := by
    have hcode : (generate {} {} idleProgram).outcome.toOption.map (·.code.length) = some 15 := by
      decide +kernel
    cases h : (generate {} {} idleProgram).outcome with
    | error e => rw [h] at hcode; cases hcode
    | ok program => rw [h] at hcode; exact ⟨program, rfl, Option.some.inj hcode⟩
  have hnever := never_executed_warnings_hold {} {} idleProgram program
  obtain ⟨-, hbodies⟩ := hnever hprogram
  obtain ⟨-, hdead, -⟩ := hbodies _ _ _ hbranch (.elseBody rfl rfl)
  obtain ⟨seen, hreachable, hseen⟩ := hdead (.under rfl (.literal rfl))
  obtain ⟨-, -, hrepeated⟩ := hbodies _ _ _ hcase (@Inside.clause {} _ _ _ _ _ [_] _ [] rfl)
  obtain ⟨p, l, hp, -, hrun⟩ := hrepeated ⟨1, rfl, _, List.mem_cons_self, rfl⟩
  obtain rfl : 12 = p := Nat.succ.inj hp
  refine ⟨program, hprogram, hsubjects, hlength, ⟨seen, hreachable, hseen 3 ⟨by decide, by decide⟩⟩,
    fun start limit record r hr => ⟨?_, ?_⟩⟩
  · exact fun hmem => hrun start limit record r hr 12 hmem ⟨by decide, by decide⟩
  · exact fun hmem => hrun start limit record r hr 13 hmem ⟨by decide, by decide⟩

end ThreeAddress
