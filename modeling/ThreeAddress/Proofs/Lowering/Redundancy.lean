import Mathlib.Algebra.Ring.Parity
import ThreeAddress.Proofs.Lowering.Tracking
import ThreeAddress.Proofs.Parser.Shape

/-!
# Redundant prefixes and parentheses

Parentheses, an even run of `!` and signs that cancel out add nothing to the code. An expression is
alike to itself behind such a prefix (`Redundant.alike`), and nodes with alike children are alike
(`Alike.node`), so that the prefix can be put in at any place of a program. A place is given by the
frames around it: the nodes above it, each with the children before and after it.

An odd run of `!` does to an expression what a single one does. A single one exchanges the exits of
a condition, after which other labels are minted; so the program with it is compared with the
program without it only in that it can be lowered.
-/

namespace ThreeAddress

open List Lowering

/-- The kinds of node that an expression can be. -/
def NodeKind.expressions : List NodeKind := expression :: operands

lemma Tree.IsA.isInner {t : Tree} (h : t.IsA NodeKind.expressions) : t.IsInner := by
  have hinner : ∀ kind ∈ NodeKind.expressions, kind ∉ NodeKind.outer := by decide
  obtain ⟨kind, _, _, _, _, hkind, rfl⟩ := h.exists_eq_node
  exact hinner kind hkind

/-! ## Alike trees -/

/-- In the scope `Γ`, the second tree is lowered like the first one wherever the first one can be
lowered, and the declarations are collected in the same way. -/
structure Alike (settings : Settings) (Γ : Scope) (exact : Prop) (t t' : Tree) : Prop where
  lowered : (tracking settings Γ exact).Alike t t'
  declarations : List.Forall₂ (fun d d' => (collect d' : Lower Unit) = collect d)
    t.declarations t'.declarations

section Congruence

variable {settings : Settings} {Γ : Scope} {exact : Prop} {kind : NodeKind}
  {token : Token} {value : String} {ops : List TokenKind} {children children' : List Tree}

/-- A declaration is collected by the root of its name. -/
lemma collect_eq (hlen : children.length = children'.length)
    (hread : Option.Rel (tracking settings Γ exact).SameRoot children.head? children'.head?) :
    (collect (.node kind token value ops children') : Lower Unit) =
    collect (.node kind token value ops children) := by
  cases children with
  | nil => rw [length_eq_zero_iff.mp hlen.symm]
  | cons t rest =>
    obtain ⟨t', rest', rfl⟩ := exists_cons_of_length_eq_add_one hlen.symm
    cases hread with
    | some hroot =>
      cases rest with
      | nil =>
        obtain rfl := length_eq_zero_iff.mp (Nat.succ.inj hlen).symm
        cases hroot with
        | absent => rfl
        | @node nameKind _ _ _ _ _ _ => cases nameKind <;> rfl
      | cons u rest =>
        obtain ⟨u', rest', rfl⟩ := exists_cons_of_length_eq_add_one (Nat.succ.inj hlen).symm
        cases hroot with
        | absent => rfl
        | @node nameKind _ _ _ _ _ _ => cases nameKind <;> rfl

/-- The declarations below alike children are collected alike. -/
lemma rel_declarationsAll (h : Forall₂ (Alike settings Γ exact) children children') :
    Forall₂ (fun d d' => (collect d' : Lower Unit) = collect d) (Tree.declarationsAll children)
      (Tree.declarationsAll children') := by
  induction h with
  | nil => exact .nil
  | cons ht _ ih => exact rel_append ht.declarations ih

/-- Nodes with alike children are alike, if what they read themselves is the same. -/
lemma Alike.node (h : Forall₂ (Alike settings Γ exact) children children')
    (hread : kind ∈ NodeKind.readers →
      Option.Rel (tracking settings Γ exact).SameRoot children.head? children'.head?) :
    Alike settings Γ exact (.node kind token value ops children)
    (.node kind token value ops children') where
  lowered := (tracking_notes settings Γ exact).alike_node trivial (h.imp fun _ _ ht =>
    ht.lowered) hread
  declarations := by
    unfold Tree.declarations
    by_cases hkind : kind = .declaration
    · rw [if_pos hkind, if_pos hkind]
      exact .cons (collect_eq h.length_eq (hread (hkind ▸ .head _))) .nil
    · rw [if_neg hkind, if_neg hkind]
      exact rel_declarationsAll h

/-- A tree is alike to itself. -/
lemma alike_refl (t : Tree) : Alike settings Γ exact t t :=
  ⟨(tracking_notes settings Γ exact).alike t.admitted_all, forall₂_same.mpr fun _ _ => rfl⟩

lemma alike_refl_all (ts : List Tree) : Forall₂ (Alike settings Γ exact) ts ts :=
  forall₂_same.mpr fun t _ => alike_refl t

end Congruence

/-! ## Places -/

namespace Tree

/-- A node without one of its children. -/
structure Frame where
  kind : NodeKind
  token : Token
  value : String
  ops : List TokenKind
  before : List Tree
  after : List Tree

/-- The node with a tree in the place of the child that it lacks. -/
def Frame.plug (f : Frame) (t : Tree) :
    Tree := .node f.kind f.token f.value f.ops (f.before ++ t :: f.after)

/-- The child that is left out is a declared name, the target of an assignment or the value of a
case. -/
def Frame.IsRead (f : Frame) : Prop := f.kind ∈ NodeKind.readers ∧ f.before = []

/-- A tree inside of frames, the innermost of which comes first. -/
def fill : List Frame → Tree → Tree
  | [], t => t
  | f :: frames, t => fill frames (f.plug t)

end Tree

section Places

variable {settings : Settings} {Γ : Scope} {exact : Prop} {t t' : Tree}

variable (h : Alike settings Γ exact t t')
include h

/-- Alike trees in the same frame are alike, if the frame does not read them. -/
lemma Alike.plug {f : Tree.Frame}
    (hread : f.IsRead → (tracking settings Γ exact).SameRoot t t') :
    Alike settings Γ exact (f.plug t) (f.plug t') := by
  refine .node (rel_append (alike_refl_all _) (.cons h (alike_refl_all _))) fun hkind => ?_
  cases hbefore : f.before with
  | nil => exact .some (hread ⟨hkind, hbefore⟩)
  | cons u _ =>
    cases u with
    | absent => exact .some (.absent trivial)
    | node => exact .some (.node trivial)

/-- Alike trees in the same frames are alike, if their roots are the same. -/
lemma Alike.fill_of_sameRoot (hroot : (tracking settings Γ exact).SameRoot t t')
    (frames : List Tree.Frame) : Alike settings Γ exact (.fill frames t) (.fill frames t') ∧
      (tracking settings Γ exact).SameRoot (.fill frames t) (.fill frames t') := by
  induction frames generalizing t t' with
  | nil => exact ⟨h, hroot⟩
  | cons f frames ih => exact ih (h.plug fun _ => hroot) (.node trivial)

/-- Alike trees in a place that is not read give alike programs. -/
lemma Alike.fill {f : Tree.Frame} (hplace : ¬ f.IsRead) (frames : List Tree.Frame) :
    Alike settings Γ exact (.fill (f :: frames) t) (.fill (f :: frames) t') ∧
      (tracking settings Γ exact).SameRoot (.fill (f :: frames) t) (.fill (f :: frames) t') :=
  (h.plug fun hread => absurd hread hplace).fill_of_sameRoot (.node trivial) frames

end Places

/-! ## Programs -/

section Programs

variable {settings : Settings} {exact : Prop} {root root' : Tree} {s s' : LowerState}
  {code : List Instr} {notes : List Note}

lemma collectAll_eq {ds ds'}
    (h : Forall₂ (fun d d' => (collect d' : Lower Unit) = collect d) ds ds') :
    (collectAll ds' : Lower Unit) = collectAll ds := by
  induction h with
  | nil => rfl
  | cons hd _ ih => rw [collectAll, collectAll, hd, ih]

/-- The notes about unused variables depend on the symbols only. -/
lemma tracks_noteUnused {Γ} : Tracks Γ exact (fun _ _ => True)
    (symbols >>= fun t => noteUnused t.order) (symbols >>= fun t => noteUnused t.order) := by
  intro s s' u code notes s1 hs h
  have hnotes : ∀ s : LowerState, (symbols >>= fun t => noteUnused t.order) s =
      ⟨.ok (), [], (s.symbols.order.filter fun x => x.uses = 0).map Note.unused, s⟩ :=
    fun s => noteUnused_eq s.symbols.order s
  rw [hnotes] at h
  cases h
  exact ⟨(), [], _, s', hnotes s', trivial, fun _ => rfl, by rw [hs.symbols], hs⟩

/-- A program that is alike to one that can be lowered can be lowered as well, without other notes;
if `exact` holds, with the same code in the same state. -/
lemma lower_of_alike (h : Alike settings root.scope exact root root')
    (hroot : (tracking settings root.scope exact).SameRoot root root')
    (hlower : lower settings root s = ⟨.ok (), code, notes, s'⟩) :
    ∃ code' notes' s'', lower settings root' s = ⟨.ok (), code', notes', s''⟩ ∧
      (exact → code' = code ∧ s'' = s') ∧ notes'.Sublist notes := by
  cases hroot with
  | absent => cases hlower
  | @node kind token value ops children children' _ =>
    cases kind with
    | program =>
      obtain ⟨_, _, _, _, c1, n1, hset, hprog, rfl, rfl⟩ := bind_eq_ok_iff.mp hlower
      cases hset
      obtain ⟨_, c2, n2, s2, c3, n3, hcollect, hbody, rfl, rfl⟩ := bind_eq_ok_iff.mp hprog
      have hscope := (collectAll_follows ⟨n2, hcollect⟩).2.2
      have hstart : Abreast (Tree.scope (.node .program token value ops children)) exact s2 s2 :=
        ⟨funext fun x => hscope x, rfl, fun _ => rfl⟩
      obtain ⟨_, c3', n3', s3', hbody', -, hcode, hnotes, hs3⟩ :=
        tracks_bind (h.lowered.body ()) (fun _ _ _ => tracks_noteUnused) hstart hbody
      have hcollect' := hcollect
      rw [← collectAll_eq h.declarations] at hcollect'
      refine ⟨[] ++ (c2 ++ c3'), [] ++ (n2 ++ n3'), s3', ?_, fun he => ?_, hnotes.append_left n2⟩
      · refine bind_eq_ok_iff.mpr ⟨(), [], [], _, _, _, rfl, ?_, rfl, rfl⟩
        exact bind_eq_ok_iff.mpr ⟨_, _, _, _, _, _, hcollect', hbody', rfl, rfl⟩
      · exact ⟨by rw [hcode he], hs3.eq he⟩
    | _ => cases hlower

end Programs

/-! ## Prefixes -/

/-- The second expression is the first one in parentheses, or behind a prefix that means nothing: an
even run of `!` if the type of the first one is `bool`, and signs of which an even number changes
the sign if it is `num`. -/
inductive Redundant (s : LowerState) (u : Tree) : Tree → Prop
  | group {token value ops} : Redundant s u (.node .group token value ops [u])
  | negation {token value ops} (htype : (typeOf u s).outcome = .ok .bool)
      (hops : ∀ op ∈ ops, op = .bang) (heven : Even ops.length) :
      Redundant s u (.node .negation token value ops [u])
  | signed {token value ops} (htype : (typeOf u s).outcome = .ok .num)
      (hops : ∀ op ∈ ops, op = .plus ∨ op = .minus) (heven : Even (ops.count .minus)) :
      Redundant s u (.node .signed token value ops [u])

section Prefixes

variable {settings : Settings} {Γ : Scope} {exact : Prop} {kind : NodeKind}
  {token : Token} {value : String} {ops : List TokenKind} {t u : Tree}

lemma decide_odd_add_one (n : Nat) : decide (Odd (n + 1)) = !decide (Odd n) := by
  simp only [Nat.odd_add_one, decide_not]

/-- A run of `!` turns a condition into its opposite if it is odd. -/
lemma bangParity_of_forall (h : ∀ op ∈ ops, op = .bang) :
    bangParity ops = .ok (decide (Odd ops.length)) := by
  induction ops with
  | nil => simp [bangParity]
  | cons op ops ih =>
    obtain ⟨rfl, hops⟩ := forall_mem_cons.mp h
    rw [bangParity, ih hops, length_cons, decide_odd_add_one]
    rfl

/-- Signs change the sign of a number if an odd number of them does. -/
lemma signParity_of_forall (h : ∀ op ∈ ops, op = .plus ∨ op = .minus) :
    signParity ops = .ok (decide (Odd (ops.count .minus))) := by
  induction ops with
  | nil => simp [signParity]
  | cons op ops ih =>
    obtain ⟨hop, hops⟩ := forall_mem_cons.mp h
    rcases hop with rfl | rfl
    · rw [signParity, ih hops, count_cons_of_ne (by decide)]
    · rw [signParity, ih hops, count_cons_self, decide_odd_add_one]
      rfl

lemma onlyChild_of_isA {kinds} (h : u.IsA kinds) : onlyChild? [u] = some u := by
  obtain ⟨_, _, _, _, _, -, rfl⟩ := h.exists_eq_node
  rfl

lemma declarations_of_ne (hkind : kind ≠ .declaration) :
    (Tree.node kind token value ops [u]).declarations = u.declarations := by
  rw [Tree.declarations, if_neg hkind, Tree.declarationsAll, Tree.declarationsAll, append_nil]

/-- An expression is alike to what is lowered like it in every way that an expression is looked at.
-/
lemma alike_of_expression (ht : t.IsA NodeKind.expressions) (hkind : kind ≠ .declaration)
    (hdecls : u.declarations = t.declarations)
    (htype : Tracks Γ exact Eq (typeOf t) (typeOf (.node kind token value ops [u])))
    (hnum : (tracking settings Γ exact).Rel () (tracking settings Γ exact).Value (arith t)
      (arith (.node kind token value ops [u])))
    (hcond : (tracking settings Γ exact).Conds (cond t) (cond (.node kind token value ops [u])))
    (hconstant : Tracks Γ exact (fun r r' => r' = r ∨ True ∧ r' = none) (constantCondition? t)
      (constantCondition? (.node kind token value ops [u]))) :
    Alike settings Γ exact t (.node kind token value ops [u]) where
  lowered := by
    refine ⟨⟨?_, fun _ => htype, fun _ => hnum, hcond⟩, fun _ => hconstant, fun _ =>
      ?_, .inr ⟨trivial, ht.isInner⟩⟩
    · obtain ⟨_, _, _, _, _, -, rfl⟩ := ht.exists_eq_node
      rfl
    · exact tracks_of_stopped fun _ _ _ _ _ => not_yields_statement ht.isInner
  declarations := by
    rw [declarations_of_ne hkind, hdecls]
    exact forall₂_same.mpr fun _ _ => rfl

/-- An expression is alike to a transparent node around it. -/
lemma alike_transparent (hu : u.IsA NodeKind.expressions) (hkind : kind ≠ .declaration)
    (hop : isTransparent kind ops = true) :
    Alike settings Γ exact u (.node kind token value ops [u]) := by
  have hself : (tracking settings Γ exact).Alike u u := (alike_refl u).lowered
  have honly := onlyChild_of_isA hu
  refine alike_of_expression hu hkind rfl ?_ ?_ ?_ ?_
  · rw [typeOf_of_transparent hop, honly]
    exact hself.type ()
  · rw [arith_of_transparent hop, honly]
    exact hself.number ()
  · intro _ holds fails holds' fails' hholds hfails
    rw [cond_of_transparent hop, honly]
    exact hself.condition hholds hfails
  · rw [constantCondition_of_transparent hop, honly]
    exact hself.constant ()

/-- An expression of type `bool` is alike to a run of `!` around an expression if as a condition it
is. -/
lemma alike_negation (ht : t.IsA NodeKind.expressions) (hu : u.IsA NodeKind.expressions)
    (hdecls : u.declarations = t.declarations) (htype : t.typeIn Γ = some .bool)
    (hop : isTransparent .negation ops = false) {odd} (hparity : bangParity ops = .ok odd)
    (hcond : (tracking settings Γ exact).Conds (cond t) fun holds fails =>
      if odd then cond u fails holds else cond u holds fails) :
    Alike settings Γ exact t (.node .negation token value ops [u]) := by
  refine alike_of_expression ht (by decide) hdecls ?_ ?_ ?_ ?_
  · rw [typeOf_of_plain hop, if_neg (by decide)]
    refine (quiet_typeOf t).tracks_pure fun s type code s' hs htypeOf => ?_
    have hfound := typeIn_of_typeOf t htypeOf
    rw [hs, htype] at hfound
    exact (Option.some.inj hfound).symm
  · refine tracks_of_stopped fun s v code s' hs hnum => ?_
    have hfound := typeIn_of_arith t hnum
    rw [hs, htype] at hfound
    cases hfound
  · intro _ holds fails holds' fails' hholds hfails
    rw [cond_negation hop, hparity, onlyChild_of_isA hu]
    exact hcond hholds hfails
  · rw [constantCondition_of_plain hop, if_neg (by decide)]
    exact (quiet_constantCondition t).tracks_pure fun _ _ _ _ _ _ => .inr ⟨trivial, rfl⟩

/-- An expression of type `num` is alike to itself behind signs that cancel out. -/
lemma alike_signed (hu : u.IsA NodeKind.expressions) (htype : u.typeIn Γ = some .num)
    (hop : isTransparent .signed ops = false) (hparity : signParity ops = .ok false) :
    Alike settings Γ exact u (.node .signed token value ops [u]) := by
  have hself : (tracking settings Γ exact).Alike u u := (alike_refl u).lowered
  refine alike_of_expression hu (by decide) rfl ?_ ?_ ?_ ?_
  · rw [typeOf_of_plain hop, if_neg (by decide)]
    refine (quiet_typeOf u).tracks_pure fun s type code s' hs htypeOf => ?_
    have hfound := typeIn_of_typeOf u htypeOf
    rw [hs, htype] at hfound
    exact (Option.some.inj hfound).symm
  · have hsame : (arith (.node .signed token value ops [u]) : Lower Operand) = arith u := by
      rw [arith_signed hop, onlyChild_of_isA hu, hparity]
      exact bind_pure_eq (arith u)
    rw [hsame]
    exact hself.number ()
  · intro _ holds fails holds' fails' _ _
    refine tracks_of_stopped fun s _ code s' hs hcond => ?_
    have hfound := typeIn_of_cond u hcond
    rw [hs, htype] at hfound
    cases hfound
  · rw [constantCondition_of_plain hop, if_neg (by decide)]
    exact (quiet_constantCondition u).tracks_pure fun _ _ _ _ _ _ => .inr ⟨trivial, rfl⟩

/-- An expression is alike to itself with a redundant prefix. -/
lemma Redundant.alike {s w} (h : Redundant s u w) (hu : u.IsA NodeKind.expressions) :
    Alike settings s.scope exact u w := by
  cases h with
  | group => exact alike_transparent hu (by decide) rfl
  | @negation token value ops htype hops heven =>
    cases hop : isTransparent .negation ops with
    | true => exact alike_transparent hu (by decide) hop
    | false =>
      have hparity := bangParity_of_forall hops
      rw [decide_eq_false (Nat.not_odd_iff_even.mpr heven)] at hparity
      have hself : (tracking settings s.scope exact).Alike u u := (alike_refl u).lowered
      exact alike_negation hu hu rfl (typeIn_of_typeOf u (yields_of_outcome htype)) hop
        hparity hself.condition
  | @signed token value ops htype hops heven =>
    cases hop : isTransparent .signed ops with
    | true => exact alike_transparent hu (by decide) hop
    | false =>
      have hparity := signParity_of_forall hops
      rw [decide_eq_false (Nat.not_odd_iff_even.mpr heven)] at hparity
      exact alike_signed hu (typeIn_of_typeOf u (yields_of_outcome htype)) hop hparity

/-- What is said of a condition behind a single `!` can be said of it behind an odd run. -/
lemma alike_odd (hu : u.IsA NodeKind.expressions) (hops : ∀ op ∈ ops, op = .bang)
    (hodd : Odd ops.length) (token' : Token) (value' : String) :
    Alike settings Γ exact (.node .negation token' value' [.bang] [u])
    (.node .negation token value ops [u]) := by
  have hself : (tracking settings Γ exact).Alike u u := (alike_refl u).lowered
  have hparity := bangParity_of_forall hops
  rw [decide_eq_true hodd] at hparity
  have hbang : NodeKind.negation ∈ NodeKind.expressions := by decide
  refine alike_negation hbang hu (declarations_of_ne (by decide)).symm ?_ ?_ hparity ?_
  · rw [Tree.typeIn_of_plain rfl]
    rfl
  · cases ops with
    | nil => exact absurd hodd (by decide)
    | cons => rfl
  · intro _ holds fails holds' fails' hholds hfails
    rw [cond_negation rfl, onlyChild_of_isA hu]
    exact hself.condition hfails hholds

/-- A condition can be put behind a single `!`; the names that are minted afterwards may be others.
-/
lemma alike_bang (hu : u.IsA NodeKind.expressions) (htype : u.typeIn Γ = some .bool) :
    Alike settings Γ False u (.node .negation token value [.bang] [u]) := by
  have hself : (tracking settings Γ False).Alike u u := (alike_refl u).lowered
  exact alike_negation hu hu rfl htype rfl rfl fun _ _ _ _ _ _ _ =>
    hself.condition (.any id) (.any id)

end Prefixes

/-! ## Redundancy -/

/-- Two runs of lowering succeed with the same code in the same state. -/
structure LoweringResult.SameResult (r r' : Lowered Unit) : Prop where
  outcome : r.outcome = .ok ()
  outcome' : r'.outcome = .ok ()
  code : r'.code = r.code
  state : r'.state = r.state

/-- Redundant prefixes and parentheses emit nothing. Let a program be lowered in which an expression
stands at a place where it is no declared name, no target of an assignment and no value of a case.
With a redundant prefix in front of the expression, the program is lowered to the same instructions
in the same state, and no warning is added. If the expression is a condition, the program with an
odd run of `!` in front of it can be lowered as well, to what it is lowered to with a single `!`. -/
theorem redundant_prefixes_emit_nothing (settings : Settings) (frames : List Tree.Frame) (u : Tree)
    (state : LowerState) (hu : u.IsA NodeKind.expressions) (hplace : ∀ f ∈ frames.head?, ¬ f.IsRead)
    (hlower : (lower settings (.fill frames u) state).outcome = .ok ()) :
    (∀ w, Redundant (lower settings (.fill frames u) state).state u w →
      (lower settings (.fill frames u) state).SameResult (lower settings (.fill frames w) state) ∧
        (lower settings (.fill frames w) state).notes.Sublist
        (lower settings (.fill frames u) state).notes) ∧
    ((typeOf u (lower settings (.fill frames u) state).state).outcome = .ok .bool →
      ∀ ops, (∀ op ∈ ops, op = .bang) → Odd ops.length → ∀ token value token' value',
        (lower settings (.fill frames (.node .negation token value [.bang] [u])) state).SameResult
          (lower settings (.fill frames (.node .negation token' value' ops [u])) state)) := by
  cases frames with
  | nil =>
    -- An expression alone is no program.
    obtain ⟨kind, _, _, _, _, hkind, rfl⟩ := hu.exists_eq_node
    cases kind <;> first | cases hlower | exact absurd hkind (by decide)
  | cons f frames =>
    have hf : ¬ f.IsRead := hplace f rfl
    rcases hresult : lower settings (.fill (f :: frames) u) state with ⟨outcome, code, notes, s'⟩
    rw [hresult] at hlower
    obtain rfl : outcome = .ok () := hlower
    have hscope : s'.scope = (Tree.fill (f :: frames) u).scope := (lower_follows ⟨notes, hresult⟩).2
    refine ⟨fun w hw => ?_, fun htype ops hops hodd token value token' value' => ?_⟩
    · have halike : Alike settings s'.scope True u w := hw.alike hu
      rw [hscope] at halike
      obtain ⟨hroot, hhead⟩ := halike.fill hf frames
      obtain ⟨_, _, _, hresult', hsame, hnotes⟩ := lower_of_alike hroot hhead hresult
      obtain ⟨rfl, rfl⟩ := hsame trivial
      rw [hresult']
      exact ⟨⟨rfl, rfl, rfl, rfl⟩, hnotes⟩
    · have hbool := typeIn_of_typeOf u (yields_of_outcome htype)
      rw [hscope] at hbool
      obtain ⟨hroot, hhead⟩ := (alike_bang hu hbool).fill hf frames
      obtain ⟨_, _, _, hresult₁, -, -⟩ := lower_of_alike hroot hhead hresult
      obtain ⟨hroot', hhead'⟩ := (alike_odd hu hops hodd token value).fill hf frames
      obtain ⟨_, _, _, hresult₃, hsame, -⟩ := lower_of_alike hroot' hhead' hresult₁
      obtain ⟨rfl, rfl⟩ := hsame trivial
      rw [hresult₁, hresult₃]
      exact ⟨rfl, rfl, rfl, rfl⟩

/-- The variable `p`. -/
def nameP : Tree := .leaf .identifier {} "p"

/-- The place of the value in `bool p; p = …;`. -/
def assignedPlace : List Tree.Frame :=
  [⟨.expression, {}, "", [], [], []⟩, ⟨.assignment, {}, "", [], [nameP], []⟩,
    ⟨.statement, {}, "", [], [], []⟩, ⟨.block, {}, "", [], [], []⟩,
    ⟨.program, {}, "", [], [.node .declaration {} "bool" [] [nameP]], []⟩]

/-- The assignments `p = (p)` and `p = !!p` are lowered like `p = p`, and `p = !!!p` like `p = !p`.
-/
theorem lower_assignedPlace : (lower {} (.fill assignedPlace nameP) {}).outcome = .ok () ∧
    (lower {} (.fill assignedPlace nameP) {}).SameResult
      (lower {} (.fill assignedPlace (.node .group {} "" [] [nameP])) {}) ∧
    (lower {} (.fill assignedPlace nameP) {}).SameResult
      (lower {} (.fill assignedPlace (.node .negation {} "" [.bang, .bang] [nameP])) {}) ∧
    (lower {} (.fill assignedPlace (.node .negation {} "" [.bang] [nameP])) {}).SameResult
      (lower {} (.fill assignedPlace (.node .negation {} "" [.bang, .bang, .bang] [nameP]))
        {}) := by
  have hlower : (lower {} (.fill assignedPlace nameP) {}).outcome = .ok () := by decide
  have htype : (typeOf nameP (lower {} (.fill assignedPlace nameP) {}).state).outcome =
    .ok .bool := by decide
  have hname : NodeKind.identifier ∈ NodeKind.expressions := by decide
  have hplace : ∀ f ∈ assignedPlace.head?, ¬ f.IsRead := by
    intro f hf hread
    cases hf
    exact absurd hread.1 (by decide)
  have hplaced := redundant_prefixes_emit_nothing {} assignedPlace nameP {}
  obtain ⟨hredundant, hodd⟩ := hplaced hname hplace hlower
  refine ⟨hlower, (hredundant _ .group).1, (hredundant _ (.negation htype ?_ ?_)).1,
    hodd htype _ ?_ ?_ _ _ _ _⟩
  · decide
  · decide
  · decide
  · decide

end ThreeAddress
