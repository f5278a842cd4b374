import ThreeAddress.Proofs.Lowering.Account
import ThreeAddress.Typing

/-!
# Well-typed expressions

On a shaped expression the type checker and lowering agree: it can be lowered as a number when the
checker finds the type `num` and no errors, and as a condition when the checker finds the type
`bool` and no errors. A use is counted at every name in it, no matter how often it is looked at, and
only its literals can be blamed.

`Typing.Agrees` collects what is needed of an expression for that, besides the two equivalences. The
checker has a result and does not leave an expression without type unless it reports an error; and
the type that lowering reads off the outermost node, before it lowers the rest, is the one that the
checker finds. One lemma for each form of expression carries this from the parts to the whole.
-/

namespace ThreeAddress

open List Lowering

variable {ts : List Tree} {fails holds : Option Label}
  {found : Option ValueType × List Typing.Error} {Γ : Scope} {t : Tree} {op : TokenKind}
  {kind : NodeKind} {token : Token} {value : String} {ops : List TokenKind} {children : List Tree}

/-! ## Operators -/

lemma TokenKind.eq_of_isLogical (h : op.isLogical = true) : op = .orOr ∨ op = .andAnd := by
  unfold isLogical at h
  split at h
  · exact .inl rfl
  · exact .inr rfl
  · cases h

lemma TokenKind.eq_of_isAdditive (h : op.isAdditive = true) : op = .plus ∨ op = .minus := by
  unfold isAdditive at h
  split at h
  · exact .inl rfl
  · exact .inr rfl
  · cases h

/-- The operators of sums and products have opcodes. -/
lemma arithOpcode?_ne_none (hkind : kind = .sum ∨ kind = .product) (h : kind.takes op = true) :
    arithOpcode? kind op ≠ none := by
  rcases hkind with rfl | rfl
  · rcases TokenKind.eq_of_isAdditive h with rfl | rfl <;> decide
  · have hmultiplicative : op.isMultiplicative = true := h
    unfold TokenKind.isMultiplicative at hmultiplicative
    split at hmultiplicative <;> first | decide | cases hmultiplicative

lemma relationOpcode?_ne_none (h : op.isRelation = true) : relationOpcode? op ≠ none := by
  unfold TokenKind.isRelation at h
  split at h <;> first | decide | cases h

/-- A node with operators of its level is not transparent. -/
lemma isTransparent_eq_false (hne : ops ≠ []) (hlevel : ∀ op ∈ ops, kind.takes op = true) :
    isTransparent kind ops = false := by
  obtain ⟨op, rest, rfl⟩ := exists_cons_of_ne_nil hne
  have htakes := hlevel op (.head _)
  cases kind <;> first | rfl | cases htakes

/-- A chain that is joined passes the check of its shape. -/
lemma Tree.Joined.checkChain_eq (h : Joined kind ops ts) (token : Token) :
    (checkChain kind token ts.length ops.length : Lower Unit) = pure () := by
  have htwo := h.two_le
  have hcount := h.count
  exact if_neg (by omega)

namespace Typing

/-! ## Agreement on an expression -/

/-- The scope of the declared names. -/
def scopeOf (declared : Declared) : Scope := fun name => declared.lookup name

/-- The checker finds a type for an expression, and no errors in it. -/
def WellTyped (declared : Declared) (t : Tree) (type : ValueType) : Prop :=
  exprType declared t = some (some type, [])

attribute [local simp] exprType

/-- What a part of lowering the tree `root` amounts to in the scope of the declared names. -/
abbrev Lowers {α : Type} (declared : Declared) (root : Tree) (names : List String)
    (x : Lower α) (P : Prop) (R : α → Prop := fun _ => True) : Prop :=
  Accounts (scopeOf declared) root.Blamed names x P R

/-- On the expression `t` the type checker and lowering agree. -/
structure Agrees (declared : Declared) (root t : Tree) : Prop where
  typed : ∃ found, exprType declared t = some found ∧ (found.2 = [] → found.1 ≠ none)
  strips : Lowers declared root [] (strip t) True
  finds : ∀ found, exprType declared t = some found →
    Lowers declared root [] (typeOf t) (found.1 ≠ none) fun type => found.1 = some type
  number : Lowers declared root t.identifiers (arith t) (WellTyped declared t .num)
  condition : ∀ holds fails, Lowers declared root t.identifiers (cond t holds fails)
    (WellTyped declared t .bool)

variable {declared : Declared} {root : Tree} {errors : List Error} {type : ValueType}
  {names : List String}

/-- A result with a type and errors is well typed when it is of that type and there are no errors.
-/
lemma wellTyped_iff (h : exprType declared t = some found) :
    WellTyped declared t type ↔ found.1 = some type ∧ found.2 = [] := by
  rw [WellTyped, h, Option.some.injEq, Prod.ext_iff]

/-- What has to have a type has it when there are no errors and it has not the other type. -/
lemma append_errorIf_eq_nil (type : ValueType) (hfound : found.2 = [] → found.1 ≠ none)
    (fault : Fault) :
    found.2 ++ errorIf (found.1 = some (opposite type)) token fault = [] ↔
    found.1 = some type ∧ found.2 = [] := by
  obtain ⟨foundType, foundErrors⟩ := found
  simp only [append_eq_nil_iff, errorIf, ite_eq_right_iff] at hfound ⊢
  constructor
  · rintro ⟨herrors, hmatch⟩
    obtain ⟨actual, rfl⟩ := Option.ne_none_iff_exists'.mp (hfound herrors)
    refine ⟨?_, herrors⟩
    cases actual <;> cases type <;> simp_all [opposite]
  · rintro ⟨rfl, rfl⟩
    cases type <;> simp [opposite]

/-- A demand is met by an expression of the right type without errors. -/
lemma demand_eq_nil (hfound : found.2 = [] → found.1 ≠ none)
    (role : Role) : demand type role token found = [] ↔ found.1 = some type ∧ found.2 = [] :=
  append_errorIf_eq_nil type hfound (.wanted type role)

/-- An expression on which checker and lowering agree is there. -/
lemma Agrees.eq_node (h : Agrees declared root t) : ∃ kind token value ops children,
    t = .node kind token value ops children := by
  cases t with
  | absent =>
    obtain ⟨found, hfound, -⟩ := h.typed
    simp at hfound
  | node kind token value ops children => exact ⟨kind, token, value, ops, children, rfl⟩

/-! ## Nodes that show their type -/

section

variable (hplain : isTransparent kind ops = false)
include hplain

/-- Lowering finds the node itself when the node does not only stand for its child. -/
lemma lowers_strip :
    Lowers declared root [] (strip (.node kind token value ops children)) True := by
  unfold strip
  rw [if_neg (by simp [hplain])]
  exact accounts_pure trivial

/-- A number is no condition. -/
lemma lowers_cond_false (hshown : shownType? kind = some .num) :
    Lowers declared root names (cond (.node kind token value ops children) holds fails) False := by
  unfold cond
  rw [if_neg (by simp [hplain])]
  cases kind <;> first | exact accounts_unsupported rfl | cases hshown

/-- A condition is no number. -/
lemma lowers_arith_false (hshown : shownType? kind = some .bool) :
    Lowers declared root names (arith (.node kind token value ops children)) False := by
  unfold arith
  rw [if_neg (by simp [hplain])]
  cases kind <;> first | exact accounts_unsupported rfl | cases hshown

/-- A node that shows its type is agreed upon when it can be lowered as what it shows without
errors. -/
lemma agrees_of_shown (hshown : shownType? kind = some type)
    (hchecked : exprType declared (.node kind token value ops children) = some (some type, errors))
    (hnum : type = .num → Lowers declared root names (arith (.node kind token value ops children))
      (errors = []))
    (hcond : type = .bool → ∀ holds fails,
      Lowers declared root names (cond (.node kind token value ops children) holds fails)
        (errors = []))
    (hnames : (Tree.node kind token value ops children).identifiers = names := by rfl) :
    Agrees declared root (.node kind token value ops children) where
  typed := ⟨_, hchecked, fun _ => by simp⟩
  strips := lowers_strip hplain
  finds found hfound := by
    obtain rfl := Option.some.inj (hchecked.symm.trans hfound)
    have hname : kind ≠ .identifier := by
      rintro rfl
      cases hshown
    rw [typeOf_of_plain hplain, if_neg hname, hshown]
    have hpure : Lowers declared root [] (pure type) True fun τ => some type = some τ :=
      accounts_pure rfl
    exact hpure.congr (by simp)
  number := by
    rw [wellTyped_iff hchecked, hnames]
    cases type with
    | num => exact (hnum rfl).congr (by simp)
    | bool => exact (lowers_arith_false hplain hshown).congr (by simp)
  condition holds fails := by
    rw [wellTyped_iff hchecked, hnames]
    cases type with
    | num => exact (lowers_cond_false hplain hshown).congr (by simp)
    | bool => exact (hcond rfl holds fails).congr (by simp)

end

/-! ## Primary expressions -/

/-- A node that only stands for its child is agreed upon with it. -/
lemma Agrees.wrap (h : Agrees declared root t) (htransparent : isTransparent kind ops = true)
    (hchecked : exprType declared (.node kind token value ops [t]) = exprType declared t)
    (hnames : (Tree.node kind token value ops [t]).identifiers = t.identifiers) :
    Agrees declared root (.node kind token value ops [t]) := by
  obtain ⟨k, tk, v, o, c, rfl⟩ := h.eq_node
  refine ⟨by rw [hchecked]; exact h.typed, ?_, fun found hfound => ?_, ?_, fun holds fails => ?_⟩
  · rw [strip_of_transparent htransparent]
    exact h.strips
  · rw [typeOf_of_transparent htransparent]
    exact h.finds found (hchecked ▸ hfound)
  · rw [arith_of_transparent htransparent, WellTyped, hchecked, hnames]
    exact h.number
  · rw [cond_of_transparent htransparent, WellTyped, hchecked, hnames]
    exact h.condition holds fails

/-- A truth value has the type `bool`. -/
lemma agrees_boolean (htext : value = "true" ∨ value = "false") :
    Agrees declared root (.leaf .boolLiteral token value) := by
  refine agrees_of_shown rfl rfl (by rw [exprType]) (by simp) fun _ holds fails => ?_
  unfold cond
  rcases htext with rfl | rfl
  · exact (steady_jumpTo holds).accounts.congr (by simp)
  · exact (steady_jumpTo fails).accounts.congr (by simp)

/-- A number has the type `num` and is in order when it fits in 64 bits. -/
lemma agrees_integer (hroot : root.Contains (.leaf .intLiteral token value)) :
    Agrees declared root (.leaf .intLiteral token value) := by
  refine agrees_of_shown rfl rfl (by rw [exprType]) (fun _ => ?_) (by simp)
  unfold arith
  cases hread : Text.readInt64 value with
  | ok n => exact (accounts_pure trivial).congr (by simp [errorIf, Except.toOption])
  | error e =>
    have hblamed := Tree.Blamed.invalidInteger hroot (Text.not_isInt64_of_error hread)
    exact (accounts_fail fun _ => hblamed).congr (by simp [errorIf, Except.toOption])

/-- A name has its declared type. -/
lemma agrees_identifier : Agrees declared root (.leaf .identifier token value) := by
  have hchecked : exprType declared (.leaf .identifier token value) =
      some (nameType declared token value) := by
    simp [Tree.leaf]
  have hname : (nameType declared token value).1 = scopeOf declared value ∧
      ((nameType declared token value).2 = [] ↔ scopeOf declared value ≠ none) := by
    unfold nameType scopeOf
    cases declared.lookup value <;> simp
  have htyped (type : ValueType) :
      WellTyped declared (.leaf .identifier token value) type ↔
      scopeOf declared value = some type := by
    rw [wellTyped_iff hchecked, hname.1, hname.2]
    exact and_iff_left_of_imp fun h => by simp [h]
  have hnames : (Tree.leaf .identifier token value).identifiers = [value] ++ [] := rfl
  refine ⟨⟨_, hchecked, fun h => ?_⟩, lowers_strip rfl, fun found hfound => ?_, ?_,
    fun holds fails => ?_⟩
  · rw [hname.1]
    exact hname.2.mp h
  · obtain rfl := Option.some.inj (hchecked.symm.trans hfound)
    rw [hname.1]
    exact accounts_typeOfName token value
  · rw [htyped, hnames]
    unfold Tree.leaf arith
    refine ((accounts_useName token value).bind_some (Q := (· = .num)) fun type _ =>
      ?_).congr (by simp)
    cases type with
    | num => exact (accounts_pure trivial).congr (by simp)
    | bool => exact (accounts_unsupported rfl).congr (by simp)
  · rw [htyped, hnames]
    unfold Tree.leaf cond
    refine ((accounts_useName token value).bind_some (Q := (· = .bool)) fun type _ =>
      ?_).congr (by simp)
    cases type with
    | num => exact (accounts_unsupported rfl).congr (by simp)
    | bool => exact (steady_branch _ _ _ holds fails).accounts.congr (by simp)

/-! ## Chains -/

/-- The checker finds no errors in the operands of a chain when all of them have the type that the
chain wants. -/
lemma operandErrors_eq (type) {i} (hops : ops ≠ []) (hlen : i + ts.length ≤ ops.length + 1)
    (h : ∀ t ∈ ts, Agrees declared root t) :
    ∃ errors, operandErrors declared type ops i ts = some errors ∧
      (errors = [] ↔ ∀ t ∈ ts, WellTyped declared t type) := by
  induction ts generalizing i with
  | nil => exact ⟨[], by simp [operandErrors], by simp⟩
  | cons t ts ih =>
    obtain ⟨ht, hts⟩ := forall_mem_cons.mp h
    obtain ⟨found, hfound, htype⟩ := ht.typed
    obtain ⟨more, hmore, hall⟩ := ih (i := i + 1) (by simp only [length_cons] at hlen; omega) hts
    have hindex : i - 1 < ops.length := by
      have := length_pos_iff.mpr hops
      simp only [length_cons] at hlen
      omega
    refine ⟨_, by rw [operandErrors, getElem?_eq_getElem hindex, hfound, hmore]; rfl, ?_⟩
    rw [append_eq_nil_iff, demand_eq_nil htype, hall, forall_mem_cons, wellTyped_iff hfound]

/-- The rest of an arithmetic chain can be lowered when its operands are numbers. -/
lemma lowers_arithChain {acc} (hops : ∀ op ∈ ops, arithOpcode? kind op ≠ none)
    (hlen : ts.length = ops.length) (h : ∀ t ∈ ts, Agrees declared root t) :
    Lowers declared root (Tree.identifiersAll ts) (arithChain kind token acc ops ts)
      (∀ t ∈ ts, WellTyped declared t .num) := by
  induction ts generalizing ops acc with
  | nil =>
    obtain rfl := length_eq_zero_iff.mp hlen.symm
    exact (accounts_pure trivial).congr (by simp)
  | cons t ts ih =>
    obtain ⟨ht, hts⟩ := forall_mem_cons.mp h
    obtain ⟨op, ops, rfl⟩ := exists_cons_of_length_eq_add_one hlen.symm
    obtain ⟨hop, hops⟩ := forall_mem_cons.mp hops
    obtain ⟨code, hcode⟩ := Option.ne_none_iff_exists'.mp hop
    unfold arithChain
    rw [hcode, forall_mem_cons]
    refine ht.number.bind fun _ _ => accounts_freshTemp.skip fun _ _ =>
      (accounts_emit _).skip fun _ _ => ?_
    exact ih hops (Nat.succ.inj hlen) hts

/-- A sum or a product has the type `num`. -/
lemma agrees_arithmetic (hkind : kind = .sum ∨ kind = .product) (hchain : Tree.Joined kind ops ts)
    (h : ∀ t ∈ ts, Agrees declared root t) :
    Agrees declared root (.node kind token value ops ts) := by
  obtain ⟨errors, herrors, hall⟩ := operandErrors_eq .num (i := 0) hchain.ops_ne_nil
    (by simp [hchain.count]) h
  have hplain := isTransparent_eq_false hchain.ops_ne_nil hchain.level
  have hchecked : exprType declared (.node kind token value ops ts) = some (some .num, errors) := by
    rcases hkind with rfl | rfl <;> simp [herrors]
  have hnames : (Tree.node kind token value ops ts).identifiers = Tree.identifiersAll ts := by
    rcases hkind with rfl | rfl <;> rfl
  refine agrees_of_shown hplain (by rcases hkind with rfl | rfl <;> rfl) hchecked
    (fun _ => ?_) (by simp) hnames
  cases ts with
  | nil => cases hchain.count
  | cons first rest =>
    obtain ⟨hfirst, hrest⟩ := forall_mem_cons.mp h
    have hopcodes op hop := arithOpcode?_ne_none hkind (hchain.level op hop)
    have hlowers : Lowers declared root _ (arith first >>= fun acc =>
      arithChain kind token acc ops rest) _ :=
      hfirst.number.bind fun acc _ => lowers_arithChain hopcodes (Nat.succ.inj hchain.count) hrest
    rw [arith_chain hkind hplain, hchain.checkChain_eq]
    exact hlowers.congr (by rw [hall, forall_mem_cons])

/-- A chain of conditions can be lowered when all of them are conditions. -/
lemma lowers_logicChain (hops : ∀ op ∈ ops, op.isLogical = true) (hlen : ts.length = ops.length + 1)
    (h : ∀ t ∈ ts, Agrees declared root t) :
    Lowers declared root (Tree.identifiersAll ts) (logicChain kind token ops ts holds fails)
      (∀ t ∈ ts, WellTyped declared t .bool) := by
  induction ops generalizing ts with
  | nil =>
    obtain ⟨t, rfl⟩ := length_eq_one_iff.mp hlen
    rw [Tree.identifiersAll_singleton]
    exact ((h t (.head _)).condition holds fails).congr (by simp)
  | cons op ops ih =>
    obtain ⟨t, ts, rfl⟩ := exists_cons_of_length_eq_add_one hlen
    obtain ⟨ht, hts⟩ := forall_mem_cons.mp h
    obtain ⟨hop, hops⟩ := forall_mem_cons.mp hops
    have hrest := ih hops (Nat.succ.inj hlen) hts
    rw [forall_mem_cons]
    unfold logicChain
    rcases TokenKind.eq_of_isLogical hop with rfl | rfl <;>
      exact accounts_shortCircuit (fun _ _ => ht.condition _ _) hrest

/-- A chain of conditions has the type `bool`. -/
lemma agrees_logic (hchain : Tree.Joined .logic ops ts) (h : ∀ t ∈ ts, Agrees declared root t) :
    Agrees declared root (.node .logic token value ops ts) := by
  obtain ⟨errors, herrors, hall⟩ := operandErrors_eq .bool (i := 0) hchain.ops_ne_nil
    (by simp [hchain.count]) h
  have hplain := isTransparent_eq_false hchain.ops_ne_nil hchain.level
  have hchecked : exprType declared (.node .logic token value ops ts) =
      some (some .bool, errors) := by
    simp [herrors]
  refine agrees_of_shown hplain rfl hchecked (by simp) fun _ holds fails => ?_
  unfold cond
  rw [if_neg (by simp [hplain]), hall]
  dsimp only
  rw [hchain.checkChain_eq]
  exact lowers_logicChain hchain.level hchain.count h

/-! ## Comparisons -/

section Comparison

variable {left right : Tree} (hleft : Agrees declared root left)
  (hright : Agrees declared root right)
include hleft hright

/-- The checker finds no errors in a comparison when both sides have the same type. -/
lemma comparison_checked : ∃ errors,
    exprType declared (.node .comparison token value [op] [left, right]) =
    some (some .bool, errors) ∧
      (errors = [] ↔ ∃ type, WellTyped declared left type ∧ WellTyped declared right type) := by
  obtain ⟨⟨l, leftErrors⟩, hl, hltype⟩ := hleft.typed
  obtain ⟨⟨r, rightErrors⟩, hr, hrtype⟩ := hright.typed
  simp only [wellTyped_iff hl, wellTyped_iff hr]
  rw [exprType, hl, hr]
  cases l with
  | none => exact ⟨leftErrors ++ rightErrors, rfl, by simpa using fun h => absurd rfl (hltype h)⟩
  | some l =>
    cases r with
    | none =>
      exact ⟨leftErrors ++ rightErrors, rfl, by simpa using fun _ h => absurd rfl (hrtype h)⟩
    | some r =>
      by_cases heq : l = r
      · refine ⟨leftErrors ++ rightErrors, by simp [heq], ?_⟩
        simp [heq]
      · refine ⟨leftErrors ++ rightErrors ++ [⟨token, .compared l r op⟩], by simp [heq], ?_⟩
        simp only [append_eq_nil_iff, cons_ne_nil, and_false, false_iff]
        rintro ⟨type, ⟨hl, -⟩, hr, -⟩
        exact heq (Option.some.inj (hl.trans hr.symm))

/-- A comparison can be lowered when both sides have the same type. -/
lemma lowers_comparison (hop : relationOpcode? op ≠ none) :
    Lowers declared root (left.identifiers ++ right.identifiers)
      (cond (.node .comparison token value [op] [left, right]) holds fails)
      (∃ type, WellTyped declared left type ∧ WellTyped declared right type) := by
  obtain ⟨l, hl, -⟩ := hleft.typed
  obtain ⟨r, hr, -⟩ := hright.typed
  obtain ⟨code, hcode⟩ := Option.ne_none_iff_exists'.mp hop
  unfold cond
  rw [if_neg (by simp [isTransparent])]
  simp only [hcode]
  have htypes : (∃ leftType, l.1 = some leftType ∧ ∃ rightType, r.1 = some rightType ∧
      leftType = rightType ∧
        WellTyped declared left leftType ∧ WellTyped declared right leftType) ↔
          ∃ type, WellTyped declared left type ∧ WellTyped declared right type := by
    constructor
    · rintro ⟨leftType, -, rightType, -, -, htyped⟩
      exact ⟨leftType, htyped⟩
    · rintro ⟨type, hleftType, hrightType⟩
      exact ⟨type, ((wellTyped_iff hl).mp hleftType).1, type,
        ((wellTyped_iff hr).mp hrightType).1, rfl, hleftType, hrightType⟩
  rw [← htypes]
  -- The types of the operands are looked up before they are lowered; only lowering them counts.
  refine (hleft.finds l hl).bind_some fun leftType _ =>
    (hright.finds r hr).bind_some fun rightType _ => ?_
  by_cases heq : leftType = rightType
  · rw [if_neg (not_not_intro heq)]
    refine Accounts.congr ?_ (and_iff_right heq).symm
    cases leftType with
    | bool =>
      exact (accounts_materialize hleft.condition).bind fun _ _ =>
        (accounts_materialize hright.condition).leave fun _ _ => (steady_branch _ _ _ _ _).accounts
    | num =>
      exact hleft.number.bind fun _ _ => hright.number.leave fun _ _ =>
        (steady_branch _ _ _ _ _).accounts
  · rw [if_pos heq]
    exact (accounts_unsupported rfl).congr (by simp [heq])

/-- A comparison has the type `bool`. -/
lemma agrees_comparison (hop : relationOpcode? op ≠ none) :
    Agrees declared root (.node .comparison token value [op] [left, right]) := by
  obtain ⟨errors, hchecked, hsame⟩ := comparison_checked hleft hright
  have hnames : (Tree.node .comparison token value [op] [left, right]).identifiers =
      left.identifiers ++ right.identifiers := congrArg (left.identifiers ++ ·) (append_nil _)
  refine agrees_of_shown rfl rfl hchecked (by simp) (fun _ holds fails => ?_) hnames
  rw [hsame]
  exact lowers_comparison hleft hright hop

end Comparison

/-! ## Signs -/

/-- Signs of numbers change the sign or do not. -/
lemma signParity_eq (h : ∀ op ∈ ops, op.isAdditive = true) :
    ∃ negate, signParity ops = .ok negate := by
  induction ops with
  | nil => exact ⟨false, rfl⟩
  | cons op ops ih =>
    obtain ⟨hop, hops⟩ := forall_mem_cons.mp h
    obtain ⟨negate, hnegate⟩ := ih hops
    rcases TokenKind.eq_of_isAdditive hop with rfl | rfl
    · exact ⟨negate, by rw [signParity, hnegate]⟩
    · exact ⟨!negate, by rw [signParity, hnegate]; rfl⟩

/-- Negations turn a condition into its opposite or do not. -/
lemma bangParity_eq (h : ∀ op ∈ ops, NodeKind.negation.takes op = true) :
    ∃ odd, bangParity ops = .ok odd := by
  induction ops with
  | nil => exact ⟨false, rfl⟩
  | cons op ops ih =>
    obtain ⟨hop, hops⟩ := forall_mem_cons.mp h
    obtain rfl := of_decide_eq_true hop
    obtain ⟨odd, hodd⟩ := ih hops
    exact ⟨!odd, by rw [bangParity, hodd]; rfl⟩

section Signs

variable (h : Agrees declared root t)
include h

/-- A number with signs has the type `num`. -/
lemma agrees_signed (hsigns : Tree.Led .signed ops t) :
    Agrees declared root (.node .signed token value ops [t]) := by
  obtain ⟨found, hfound, htype⟩ := h.typed
  obtain ⟨negate, hnegate⟩ := signParity_eq hsigns.level
  have hplain := isTransparent_eq_false hsigns.ne_nil hsigns.level
  obtain ⟨op, rest, rfl⟩ := exists_cons_of_ne_nil hsigns.ne_nil
  have hchecked : exprType declared (.node .signed token value (op :: rest) [t]) =
      some (some .num, demand .num (.signed op) t.token found) := by
    simp [hfound]
  refine agrees_of_shown hplain rfl hchecked (fun _ => ?_) (by simp) (append_nil _)
  rw [demand_eq_nil htype, ← wellTyped_iff hfound, arith_signed hplain]
  obtain ⟨k, tk, v, o, c, rfl⟩ := h.eq_node
  simp only [onlyChild?, Option.elim_some, hnegate]
  refine h.number.leave fun inner _ => ?_
  cases negate with
  | false => exact accounts_pure trivial
  | true =>
    exact accounts_freshTemp.skip fun _ _ => (accounts_emit _).skip fun _ _ => accounts_pure trivial

/-- A negated condition has the type `bool`. -/
lemma agrees_negation (hsigns : Tree.Led .negation ops t) :
    Agrees declared root (.node .negation token value ops [t]) := by
  obtain ⟨found, hfound, htype⟩ := h.typed
  obtain ⟨odd, hodd⟩ := bangParity_eq hsigns.level
  have hplain := isTransparent_eq_false hsigns.ne_nil hsigns.level
  have hchecked : exprType declared (.node .negation token value ops [t]) =
      some (some .bool, demand .bool .negated t.token found) := by
    simp [hfound]
  refine agrees_of_shown hplain rfl hchecked (by simp) (fun _ holds fails => ?_) (append_nil _)
  rw [demand_eq_nil htype, ← wellTyped_iff hfound, cond_negation hplain, hodd]
  obtain ⟨k, tk, v, o, c, rfl⟩ := h.eq_node
  cases odd with
  | false => exact h.condition holds fails
  | true => exact h.condition fails holds

end Signs

end Typing

/-! ## Shaped expressions -/

/-- On shaped expressions the type checker and lowering agree. -/
lemma Tree.Shaped.agrees {declared root} (h : t.Shaped) (hroot : root.Contains t)
    (hkind : t.IsA (.expression :: NodeKind.operands)) : Typing.Agrees declared root t := by
  induction h with
  | @node kind token value ops children hfits hchildren ih =>
    have hparts : ∀ u ∈ children, u.IsA NodeKind.operands → Typing.Agrees declared root u :=
      fun u hu hoperand =>
      ih u hu (hroot.child hu) (hoperand.mono (subset_cons_self _ _))
    cases hfits with
    | expression hinner | group hinner =>
      exact (hparts _ (.head _) hinner).wrap rfl (by rw [Typing.exprType]) (append_nil _)
    | logic hchain => exact Typing.agrees_logic hchain fun u hu => hparts u hu (hchain.isA u hu)
    | comparison hop hleft hright =>
      exact Typing.agrees_comparison (hparts _ (.head _) hleft)
        (hparts _ (.tail _ (.head _)) hright) (relationOpcode?_ne_none hop)
    | sum hchain =>
      exact Typing.agrees_arithmetic (.inl rfl) hchain fun u hu => hparts u hu (hchain.isA u hu)
    | product hchain =>
      exact Typing.agrees_arithmetic (.inr rfl) hchain fun u hu => hparts u hu (hchain.isA u hu)
    | signed hsigns => exact Typing.agrees_signed (hparts _ (.head _) hsigns.isA) hsigns
    | negation hsigns => exact Typing.agrees_negation (hparts _ (.head _) hsigns.isA) hsigns
    | boolLiteral hval => exact Typing.agrees_boolean hval
    | intLiteral => exact Typing.agrees_integer hroot
    | identifier => exact Typing.agrees_identifier
    | _ => exact absurd hkind (by simp [Tree.IsA, NodeKind.operands])

end ThreeAddress
