import ThreeAddress.Proofs.Lowering.Reasons

/-!
# What a part of lowering amounts to

`Lowering.Accounts Γ E names x P R` says what the lowering `x` comes to in every state with the
scope `Γ`. It succeeds exactly when `P` holds, and its results satisfy `R`. It calls the tree
malformed only for reasons in `E`. If it succeeds, it counts a use of each of `names`, one after the
other, and so keeps the scope.

What a lowering function amounts to is put together from its parts: along `>>=` the conditions are
joined and the names are appended. The lemmas follow the combinators and the functions that emit
code around the parts they are given.
-/

namespace ThreeAddress

open List

/-! ## Occurrences -/

mutual

/-- The names that occur in a tree outside its declarations, each as often as it occurs and in
order. -/
def Tree.identifiers : Tree → List String
  | .absent => []
  | .node kind _ value _ children =>
    if kind = .declaration then []
    else if kind = .identifier then value :: identifiersAll children
    else identifiersAll children

/-- The names that occur in several trees, one tree after the other. -/
def Tree.identifiersAll : List Tree → List String
  | [] => []
  | t :: ts => identifiers t ++ identifiersAll ts

end

@[simp] lemma Tree.identifiersAll_singleton (t : Tree) : identifiersAll [t] = t.identifiers := by
  rw [identifiersAll, identifiersAll, append_nil]

/-- Counting uses keeps the scope. -/
lemma SymbolTable.scope_foldl_use (names : List String) (t : SymbolTable) :
    scope (names.foldl use t) = scope t := by
  induction names generalizing t with
  | nil => rfl
  | cons name names ih => rw [foldl_cons, ih, scope_use]

namespace Lowering

/-- In the scope `Γ` the lowering `x` succeeds exactly when `P` holds, and calls the tree malformed
only for reasons in `E`. If it succeeds, its result satisfies `R`; it counts a use of each of
`names` and changes the symbols in no other way, and it says of no variable that it is never used.
-/
structure Accounts {α : Type} (Γ : Scope) (E : LowerError → Prop) (names : List String)
    (x : Lower α) (P : Prop) (R : α → Prop := fun _ => True) : Prop where
  iff : ∀ {s}, s.scope = Γ → ((∃ a code s', x.Yields s a code s') ↔ P)
  post : ∀ {s a code notes s'}, s.scope = Γ → x s = ⟨.ok a, code, notes, s'⟩ →
    R a ∧ s'.symbols = names.foldl SymbolTable.use s.symbols ∧ ∀ n ∈ notes, n.warning ≠ .unused
  blames : ∀ {s e}, s.scope = Γ → (x s).outcome = .error (.fault e) →
    e.fault.kind = .malformedTree → E e

variable {α β : Type} {Γ : Scope} {E : LowerError → Prop} {names before after : List String}
  {P Q : Prop} {token : Token}

/-! ## Combinators -/

section Combinators

variable {x : Lower α} {f : α → Lower β} {R : α → Prop} {S : β → Prop}

lemma Accounts.congr (h : Accounts Γ E names x P R) (hP : P ↔ Q) : Accounts Γ E names x Q R where
  iff hs := (h.iff hs).trans hP
  post := h.post
  blames := h.blames

lemma Accounts.scope_eq {s a code notes s'} (h : Accounts Γ E names x P R) (hs : s.scope = Γ)
    (hx : x s = ⟨.ok a, code, notes, s'⟩) : s'.scope = Γ := by
  rw [LoweringState.scope, (h.post hs hx).2.1, SymbolTable.scope_foldl_use]
  exact hs

/-- A lowering that always succeeds and leaves the symbols. -/
lemma accounts_of_eq (h : ∀ s, ∃ a code notes minted,
      x s = ⟨.ok a, code, notes, { s with names := minted }⟩ ∧ R a ∧
      ∀ n ∈ notes, n.warning ≠ .unused) : Accounts Γ E [] x True R where
  iff {s} _ := by
    obtain ⟨a, code, notes, minted, hx, -⟩ := h s
    exact iff_of_true ⟨a, code, _, notes, hx⟩ trivial
  post {s b code notes s'} _ hb := by
    obtain ⟨a, _, _, minted, hx, ha, hnotes⟩ := h s
    rw [hb] at hx
    cases hx
    exact ⟨ha, rfl, hnotes⟩
  blames {s e} _ he := by
    obtain ⟨a, _, _, minted, hx, -⟩ := h s
    rw [hx] at he
    cases he

lemma Steady.accounts (h : x.Steady) : Accounts Γ E [] x True := accounts_of_eq fun s => by
    obtain ⟨a, code, minted, _, hx⟩ := h s
    exact ⟨a, code, [], minted, hx, trivial, forall_mem_nil _⟩

/-- Two parts, one after the other, fail in the first one or in the second one. -/
lemma bind_eq_fault {s e} (h : ((x >>= f) s).outcome = .error (.fault e)) :
    (x s).outcome = .error (.fault e) ∨
      ∃ a, x.Yields s a (x s).code (x s).state ∧ (f a (x s).state).outcome = .error (.fault e) := by
  have hbind : (x >>= f) s = Lowering.bind x f s := rfl
  rw [hbind, Lowering.bind] at h
  rcases hx : x s with ⟨outcome, code, notes, s'⟩
  rw [hx] at h
  cases outcome with
  | ok a => exact .inr ⟨a, ⟨notes, hx⟩, h⟩
  | error stop => exact .inl (congrArg _ (Except.error.inj h))

/-- Two parts, one after the other, succeed when both do, and count what both count. -/
lemma Accounts.bind (hx : Accounts Γ E before x P R)
    (hf : ∀ a, R a → Accounts Γ E after (f a) Q S) :
    Accounts Γ E (before ++ after) (x >>= f) (P ∧ Q) S where
  iff {s} hs := by
    constructor
    · rintro ⟨b, code, s', notes, h⟩
      obtain ⟨a, c1, n1, s1, c2, n2, ha, hb, -⟩ := bind_eq_ok_iff.mp h
      have hnext := hf a (hx.post hs ha).1
      exact ⟨(hx.iff hs).mp ⟨a, c1, s1, n1, ha⟩,
        (hnext.iff (hx.scope_eq hs ha)).mp ⟨b, c2, s', n2, hb⟩⟩
    · rintro ⟨hP, hQ⟩
      obtain ⟨a, c1, s1, n1, ha⟩ := (hx.iff hs).mpr hP
      obtain ⟨b, c2, s', n2, hb⟩ := ((hf a (hx.post hs ha).1).iff (hx.scope_eq hs ha)).mpr hQ
      exact ⟨b, _, s', _, bind_eq_ok_iff.mpr ⟨a, c1, n1, s1, c2, n2, ha, hb, rfl, rfl⟩⟩
  post hs h := by
    obtain ⟨a, c1, n1, s1, c2, n2, ha, hb, rfl, rfl⟩ := bind_eq_ok_iff.mp h
    obtain ⟨hR, hs1, hn1⟩ := hx.post hs ha
    obtain ⟨hS, hs', hn2⟩ := (hf a hR).post (hx.scope_eq hs ha) hb
    refine ⟨hS, ?_, forall_mem_append.mpr ⟨hn1, hn2⟩⟩
    rw [hs', hs1, foldl_append]
  blames hs he hkind := by
    rcases bind_eq_fault he with he | ⟨a, ⟨notes, ha⟩, he⟩
    · exact hx.blames hs he hkind
    · exact (hf a (hx.post hs ha).1).blames (hx.scope_eq hs ha) he hkind

lemma Accounts.skip (hx : Accounts Γ E [] x True R) (hf : ∀ a, R a → Accounts Γ E names (f a) Q S) :
    Accounts Γ E names (x >>= f) Q S :=
  (hx.bind hf).congr (iff_of_eq (true_and Q))

lemma Accounts.leave (hx : Accounts Γ E names x P R)
    (hf : ∀ a, R a → Accounts Γ E [] (f a) True S) :
    Accounts Γ E names (x >>= f) P S := by
  have hboth := (hx.bind hf).congr (iff_of_eq (and_true P))
  rwa [append_nil] at hboth

/-- A part that finds something, before a part that depends on what is found. -/
lemma Accounts.bind_some {r : Option α} {Q : α → Prop}
    (hx : Accounts Γ E before x (r ≠ none) fun a => r = some a)
    (hf : ∀ a, r = some a → Accounts Γ E after (f a) (Q a) S) :
    Accounts Γ E (before ++ after) (x >>= f) (∃ a, r = some a ∧ Q a) S := by
  cases r with
  | none =>
    have hboth : Accounts Γ E (before ++ after) (x >>= f) (_ ∧ True) S :=
      hx.bind fun a ha => by cases ha
    exact hboth.congr (by simp)
  | some a =>
    have hboth : Accounts Γ E (before ++ after) (x >>= f) (_ ∧ Q a) S := hx.bind fun b hb => by
      cases hb
      exact hf a rfl
    exact hboth.congr (by simp)

lemma accounts_pure {a} (ha : R a) : Accounts Γ E [] (pure a) True R :=
  accounts_of_eq fun s => ⟨a, [], [], s.names, rfl, ha, forall_mem_nil _⟩

/-- A fault needs a reason if it calls the tree malformed. -/
lemma accounts_fail {fault} (h : fault.kind = .malformedTree → E ⟨token, fault⟩) :
    Accounts Γ E names (fail token fault) False R where
  iff _ := iff_of_false (fun ⟨_, _, _, hx⟩ => not_yields_fail hx) id
  post _ hx := by cases hx
  blames _ he hkind := by
    cases he
    exact h hkind

lemma accounts_unsupported {fault} (h : fault.kind = .unsupportedConstruct) :
    Accounts Γ E names (fail token fault) False R :=
  accounts_fail fun hkind => absurd (h.symm.trans hkind) (by decide)

end Combinators

/-! ## Small steps -/

lemma accounts_emit (i : Instr) : Accounts Γ E [] (emit i) True := (steady_emit i).accounts

lemma accounts_freshTemp : Accounts Γ E [] freshTemp True := steady_freshTemp.accounts

lemma accounts_freshLabel : Accounts Γ E [] freshLabel True := steady_freshLabel.accounts

/-- A note about something else than a variable that is never used. -/
lemma accounts_note {subject} (h : Note.warning ⟨token, subject⟩ ≠ .unused) :
    Accounts Γ E [] (note token subject) True :=
  accounts_of_eq fun s => ⟨(), [], _, s.names, rfl, trivial, forall_mem_singleton.mpr h⟩

/-- A name has the type that the scope gives it, and asking for it is no use. -/
lemma accounts_typeOfName (token : Token) (name : String) :
    Accounts Γ E [] (typeOfName token name) (Γ name ≠ none) fun type => Γ name = some type := by
  have hname : ∀ {s : LowerState}, s.scope = Γ → typeOfName token name s =
      ⟨(Γ name).elim (.error (.fault ⟨token, .undeclared name⟩)) .ok, [], [], s⟩ := by
    rintro s rfl
    simp only [typeOfName, symbols_bind, LoweringState.scope, SymbolTable.scope, SymbolTable.lookup]
    cases SymbolTable.find s.symbols name <;> rfl
  cases hΓ : Γ name with
  | none =>
    rw [hΓ] at hname
    refine ⟨fun hs => ?_, fun hs hx => ?_, fun hs he hkind => ?_⟩
    · refine iff_of_false ?_ (absurd rfl)
      rintro ⟨_, _, _, _, hx⟩
      rw [hname hs] at hx
      cases hx
    · rw [hname hs] at hx
      cases hx
    · rw [hname hs] at he
      cases he
      cases hkind
  | some type =>
    rw [hΓ] at hname
    refine ⟨fun hs => iff_of_true ⟨type, [], _, [], hname hs⟩ (Option.some_ne_none type),
      fun hs hx => ?_, fun hs he => ?_⟩
    · rw [hname hs] at hx
      cases hx
      exact ⟨rfl, rfl, forall_mem_nil _⟩
    · rw [hname hs] at he
      cases he

lemma accounts_useName (token : Token) (name : String) :
    Accounts Γ E [name] (useName token name) (Γ name ≠ none) fun type => Γ name = some type := by
  have hcount : ∀ type, Γ name = some type → Accounts Γ E [name] (do
      setSymbols ((← symbols).use name)
      return type) True fun type => Γ name = some type := fun type htype =>
    { iff := fun _ => iff_of_true ⟨type, [], _, [], rfl⟩ trivial
      post := fun _ hx => by
        cases hx
        exact ⟨htype, rfl, forall_mem_nil _⟩
      blames := fun _ he => by cases he }
  exact ((accounts_typeOfName token name).bind hcount).congr (iff_of_eq (and_true _))

/-! ## Code around conditions -/

section Conditions

variable {condition : Option Label → Option Label → Lower Unit}

/-- A truth value can be written when its condition can be lowered. -/
lemma accounts_boolValue (target : Operand)
    (h : ∀ holds fails, Accounts Γ E names (condition holds fails) P) :
    Accounts Γ E names (boolValue condition target) P := by
  refine accounts_freshLabel.skip fun _ _ => accounts_freshLabel.skip fun _ _ =>
    accounts_freshLabel.skip fun _ _ => (h _ _).leave fun _ _ => ?_
  refine (accounts_emit _).skip fun _ _ => (accounts_emit _).skip fun _ _ =>
    (accounts_emit _).skip fun _ _ => ?_
  exact (accounts_emit _).skip fun _ _ => (accounts_emit _).skip fun _ _ => accounts_emit _

lemma accounts_materialize (h : ∀ holds fails, Accounts Γ E names (condition holds fails) P) :
    Accounts Γ E names (materialize condition) P :=
  accounts_freshTemp.skip fun t _ => (accounts_boolValue t h).leave fun _ _ => accounts_pure trivial

/-- Two joined conditions can be lowered when both can. -/
lemma accounts_shortCircuit {deciding left right}
    (hleft : ∀ decided middle, Accounts Γ E before (left decided middle) P)
    (hright : Accounts Γ E after right Q) :
    Accounts Γ E (before ++ after) (shortCircuit deciding left right) (P ∧ Q) := by
  refine accounts_freshLabel.skip fun middle _ => ?_
  cases deciding with
  | some l => exact (hleft l middle).bind fun _ _ => (accounts_emit _).skip fun _ _ => hright
  | none =>
    refine accounts_freshLabel.skip fun join _ => (hleft join middle).bind fun _ _ => ?_
    exact (accounts_emit _).skip fun _ _ => hright.leave fun _ _ => accounts_emit _

end Conditions

/-! ## Code around bodies -/

section Bodies

variable {condition : Tree} {body : Lower Unit}

/-- Looking whether a condition is known in advance takes no more than finding its node. -/
lemma accounts_constantCondition (h : Accounts Γ E [] (strip condition) True) :
    Accounts Γ E [] (constantCondition? condition) True := by
  refine h.skip fun t _ => ?_
  split
  · exact (accounts_note (by simp [Note.warning])).skip fun _ _ => accounts_pure trivial
  · exact accounts_pure trivial

/-- A note about a body that is never executed. -/
lemma accounts_noteUnreachable (t : Tree) : Accounts Γ E [] (noteUnreachable t) True := by
  cases t with
  | absent => exact accounts_pure trivial
  | node kind token value ops children =>
    rw [noteUnreachable]
    split
    · exact accounts_pure trivial
    · exact accounts_note (by simp [Note.warning])

/-- The notes about a condition that never holds come before a lowering without changing what it
amounts to. -/
lemma Accounts.noted {x : Lower Unit} (hx : Accounts Γ E names x P)
    (hstrip : Accounts Γ E [] (strip condition) True) (t : Tree) :
    Accounts Γ E names (do
      if (← constantCondition? condition) = some false then noteUnreachable t
      x) P := by
  refine (accounts_constantCondition hstrip).skip fun known _ => ?_
  split
  · exact (accounts_noteUnreachable t).skip fun _ _ => hx
  · exact hx

variable (hcond : ∀ holds fails, Accounts Γ E before (cond condition holds fails) P)
  (hbody : Accounts Γ E after body Q)
include hcond hbody

/-- An `if` can be lowered when its parts can. -/
lemma accounts_conditional_none :
    Accounts Γ E (before ++ after) (conditional condition body none) (P ∧ Q) :=
  accounts_freshLabel.skip fun _ _ => (hcond _ _).bind fun _ _ =>
    hbody.leave fun _ _ => accounts_emit _

/-- An `if` with `else` can be lowered when its parts can. -/
lemma accounts_conditional_some {elseBody Q'} (helse : Accounts Γ E names elseBody Q') :
    Accounts Γ E (before ++ (after ++ names))
    (conditional condition body (some elseBody)) (P ∧ Q ∧ Q') := by
  refine accounts_freshLabel.skip fun _ _ => accounts_freshLabel.skip fun _ _ =>
    (hcond _ _).bind fun _ _ => ?_
  refine hbody.bind fun _ _ => (accounts_emit _).skip fun _ _ =>
    (accounts_emit _).skip fun _ _ => ?_
  exact helse.leave fun _ _ => accounts_emit _

/-- A `while` can be lowered when its parts can. -/
lemma accounts_loop : Accounts Γ E (before ++ after) (loop condition body) (P ∧ Q) := by
  refine accounts_freshLabel.skip fun _ _ => accounts_freshLabel.skip fun _ _ =>
    (accounts_emit _).skip fun _ _ => (hcond _ _).bind fun _ _ => hbody.leave fun _ _ => ?_
  exact (accounts_emit _).skip fun _ _ => accounts_emit _

end Bodies

end Lowering

end ThreeAddress
