import ThreeAddress.Proofs.Lowering.Follows

/-!
# Lowering side by side

`Lowering.Tracks Γ exact Q x y` compares a lowering `x` that succeeds with another one, `y`, from
states with the same symbols, of scope `Γ`: then `y` succeeds as well, with a result that `Q`
relates to that of `x`, with the same symbols and without any note that `x` does not make. If
`exact` holds, the states are the same, and `y` emits what `x` emits. Otherwise the names that have
been minted may differ, and nothing is said of the code. Tracking is kept step by step (`tracking`).

Nothing has to be shown where `x` fails, and in this way the types of expressions come in: an
expression that can be lowered as a number has the type `num`, and as a condition `bool`
(`typeIn_of_arith`, `typeIn_of_cond`).
-/

namespace ThreeAddress

open Lowering

variable {s s' : LowerState} {Γ : Scope} {exact : Prop}

/-! ## Types -/

/-- The type of an expression in a scope, as far as its outermost node tells. -/
def Tree.typeIn (Γ : Scope) : Tree → Option ValueType
  | .absent => none
  | .node kind _ value ops children =>
    if isTransparent kind ops then
      match children with
      | [.node k t v o c] => typeIn Γ (.node k t v o c)
      | _ => none
    else if kind = .identifier then Γ value
    else Typing.shownType? kind

/-- A transparent node has the type of its child. -/
lemma Tree.typeIn_of_transparent {Γ kind token value ops children}
    (h : isTransparent kind ops = true) :
    (node kind token value ops children).typeIn Γ = (onlyChild? children).bind (typeIn Γ) := by
  rw [typeIn.eq_def]
  simp only [if_pos h]
  split <;> simp [onlyChild?]

/-- Any other node has the type of its name, or the type that it shows. -/
lemma Tree.typeIn_of_plain {Γ kind token value ops children} (h : isTransparent kind ops = false) :
    (node kind token value ops children).typeIn Γ = if kind =
    .identifier then Γ value else Typing.shownType? kind := by
  rw [typeIn.eq_def]
  simp only [h, Bool.false_eq_true, if_false]

section Types

variable {code : List Instr}

/-- The type that lowering finds is the type in the scope. -/
lemma typeIn_of_typeOf (t : Tree) {type} (h : (typeOf t).Yields s type code s') :
    t.typeIn s.scope = some type := by
  induction t using Tree.induction with
  | absent => exact absurd h (by simp [typeOf, strip, yields_bind])
  | node kind token value ops children ih =>
    cases hop : isTransparent kind ops with
    | true =>
      rw [typeOf_of_transparent hop] at h
      obtain ⟨u, rfl, honly, h⟩ := yields_onlyChild h
      rw [Tree.typeIn_of_transparent hop, honly]
      exact ih u (.head _) h
    | false =>
      rw [typeOf, strip.eq_def] at h
      simp only [hop, Bool.false_eq_true, if_false] at h
      have hkind := (yields_bind_of_eq_nil rfl).mp h
      rw [Tree.typeIn_of_plain hop]
      cases kind <;> simp_all [Typing.shownType?]

/-- What can be lowered as a number has the type `num`. -/
lemma typeIn_of_arith (t : Tree) {v} (h : (arith t).Yields s v code s') :
    t.typeIn s.scope = some .num := by
  induction t using Tree.induction with
  | absent => exact absurd h not_yields_incomplete
  | node kind token value ops children ih =>
    cases hop : isTransparent kind ops with
    | true =>
      rw [arith_of_transparent hop] at h
      obtain ⟨u, rfl, honly, h⟩ := yields_onlyChild h
      rw [Tree.typeIn_of_transparent hop, honly]
      exact ih u (.head _) h
    | false =>
      rw [arith.eq_def] at h
      simp only [hop, Bool.false_eq_true, if_false] at h
      rw [Tree.typeIn_of_plain hop]
      cases kind with
      | identifier =>
        obtain ⟨type, htype, hval⟩ := yields_useName_bind.mp h
        cases type with
        | num => simpa using htype
        | bool => exact absurd hval not_yields_fail
      | intLiteral | sum | product | signed => simp [Typing.shownType?]
      | _ => exact absurd h not_yields_fail

/-- What can be lowered as a condition has the type `bool`. -/
lemma typeIn_of_cond (t : Tree) {holds fails u} (h : (cond t holds fails).Yields s u code s') :
    t.typeIn s.scope = some .bool := by
  induction t using Tree.induction with
  | absent => exact absurd h not_yields_incomplete
  | node kind token value ops children ih =>
    cases hop : isTransparent kind ops with
    | true =>
      rw [cond_of_transparent hop] at h
      obtain ⟨u, rfl, honly, h⟩ := yields_onlyChild h
      rw [Tree.typeIn_of_transparent hop, honly]
      exact ih u (.head _) h
    | false =>
      rw [cond.eq_def] at h
      simp only [hop, Bool.false_eq_true, if_false] at h
      rw [Tree.typeIn_of_plain hop]
      cases kind with
      | identifier =>
        obtain ⟨type, htype, hbranch⟩ := yields_useName_bind.mp h
        cases type with
        | bool => simpa using htype
        | num => exact absurd hbranch not_yields_fail
      | boolLiteral | logic | comparison | negation => simp [Typing.shownType?]
      | _ => exact absurd h not_yields_fail

end Types

/-! ## Tracking -/

namespace Lowering

/-- Two states are abreast: they have the same symbols, of scope `Γ`, and the same names if `exact`
holds. -/
structure Abreast (Γ : Scope) (exact : Prop) (s s' : LowerState) : Prop where
  scope : s.scope = Γ
  symbols : s'.symbols = s.symbols
  names : exact → s'.names = s.names

/-- Whenever `x` succeeds, so does `y` from a state abreast: with a result that is related, without
other notes, and in a state abreast. If `exact` holds, the code is the same. -/
def Tracks {α β : Type} (Γ : Scope) (exact : Prop) (Q : α → β → Prop) (x : Lower α)
    (y : Lower β) : Prop :=
  ∀ ⦃s s' a code notes s₁⦄, Abreast Γ exact s s' → x s = ⟨.ok a, code, notes, s₁⟩ →
    ∃ b code' notes' s₁', y s' = ⟨.ok b, code', notes', s₁'⟩ ∧ Q a b ∧ (exact → code' = code) ∧
      notes'.Sublist notes ∧ Abreast Γ exact s₁ s₁'

section Combinators

variable {α β γ δ : Type} {P : α → β → Prop} {Q : γ → δ → Prop}

/-- States abreast are the same if `exact` holds. -/
lemma Abreast.eq (h : Abreast Γ exact s s') (hexact : exact) : s' = s := by
  rcases s with ⟨names, symbols⟩
  rcases s' with ⟨names', symbols'⟩
  obtain rfl : symbols' = symbols := h.symbols
  obtain rfl : names' = names := h.names hexact
  rfl

lemma tracks_of_stopped {x y} (h : ∀ s a code s', s.scope = Γ → ¬ x.Yields s a code s') :
    Tracks Γ exact Q x y :=
  fun s _ a code notes s1 hs hx => absurd ⟨notes, hx⟩ (h s a code s1 hs.scope)

lemma tracks_pure {c d} (h : Q c d) : Tracks Γ exact Q (pure c) (pure d) := by
  intro s s' a code notes s1 hs hx
  cases hx
  exact ⟨d, [], [], s', rfl, h, fun _ => rfl, .refl _, hs⟩

/-- Two parts, one after the other, are tracked part by part. -/
lemma tracks_bind {x y f g} (hxy : Tracks Γ exact P x y)
    (hfg : ∀ a b, P a b → Tracks Γ exact Q (f a) (g b)) :
    Tracks Γ exact Q (x >>= f) (y >>= g) := by
  intro s s' c code notes s1 hs h
  obtain ⟨a, c1, n1, s2, c2, n2, hx, hf, rfl, rfl⟩ := bind_eq_ok_iff.mp h
  obtain ⟨b, c1', n1', s2', hy, hab, hcode1, hnotes1, hs2⟩ := hxy hs hx
  obtain ⟨d, c2', n2', s1', hg, hcd, hcode2, hnotes2, hs1⟩ := hfg a b hab hs2 hf
  refine ⟨d, c1' ++ c2', n1' ++ n2', s1', ?_, hcd, fun hexact => ?_, hnotes1.append hnotes2, hs1⟩
  · exact bind_eq_ok_iff.mpr ⟨b, c1', n1', s2', c2', n2', hy, hg, rfl, rfl⟩
  · rw [hcode1 hexact, hcode2 hexact]

lemma Tracks.imp {x y R} (h : Tracks Γ exact Q x y) (hQR : ∀ c d, Q c d → R c d) :
    Tracks Γ exact R x y := by
  intro s s' c code notes s1 hs hx
  obtain ⟨d, code', notes', s1', hy, hcd, hrest⟩ := h hs hx
  exact ⟨d, code', notes', s1', hy, hQR c d hcd, hrest⟩

/-- Steady parts track each other, exactly if they are the same. -/
lemma tracks_steady {x y} (hx : x.Steady) (hy : y.Steady) (h : ¬ exact) (hQ : ∀ c d, Q c d) :
    Tracks Γ exact Q x y := by
  intro s s' c code notes s1 hs hxs
  obtain ⟨c1, code1, names, _, hx1⟩ := hx s
  obtain ⟨d, code', names', _, hys⟩ := hy s'
  rw [hxs] at hx1
  cases hx1
  exact ⟨d, code', [], _, hys, hQ c d, fun he => absurd he h, .refl _, hs.scope, hs.symbols,
    fun he => absurd he h⟩

/-- A steady part tracks itself; the results are the same if the states are. -/
lemma tracks_self {x : Lower γ} (hx : x.Steady) :
    Tracks Γ exact (fun c d => exact → d = c) x x := by
  by_cases hexact : exact
  · intro s s' c code notes s1 hs hxs
    obtain ⟨c1, code1, names, _, hx1⟩ := hx s
    rw [hxs] at hx1
    cases hx1
    rw [hs.eq hexact]
    exact ⟨c, code, [], _, hxs, fun _ => rfl, fun _ => rfl, .refl _, hs.scope, rfl, fun _ => rfl⟩
  · exact tracks_steady hx hx hexact fun _ _ he => absurd he hexact

/-- A lowering without effect is tracked by a bare result. -/
lemma Quiet.tracks_pure {x} (hx : x.Quiet) {d}
    (h : ∀ s c code s', s.scope = Γ → x.Yields s c code s' → Q c d) :
    Tracks Γ exact Q x (pure d) := by
  intro s s' c code notes s1 hs hxs
  have hcd := h s c code s1 hs.scope ⟨notes, hxs⟩
  obtain ⟨rfl, rfl⟩ := hx ⟨notes, hxs⟩
  exact ⟨d, [], [], s', rfl, hcd, fun _ => rfl, List.nil_sublist _, hs⟩

/-- A lowering without effect need not be tracked; its notes are left out. -/
lemma Quiet.tracks_skip {x : Lower α} {f y} (hx : x.Quiet) (hf : ∀ a, Tracks Γ exact Q (f a) y) :
    Tracks Γ exact Q (x >>= f) y := by
  intro s s' c code notes s1 hs h
  obtain ⟨a, c1, n1, s2, c2, n2, hxs, hfs, rfl, rfl⟩ := bind_eq_ok_iff.mp h
  obtain ⟨rfl, rfl⟩ := hx ⟨n1, hxs⟩
  obtain ⟨d, code', notes', s1', hy, hcd, hcode, hnotes, hs1⟩ := hf a hs hfs
  exact ⟨d, code', notes', s1', hy, hcd, hcode, hnotes.trans (List.sublist_append_right _ _), hs1⟩

end Combinators

/-! ## Steps -/

/-- Instructions that correspond track each other. -/
lemma tracks_emit {V L} {i : Instr} {i'} (h : i.Corresponds V L i')
    (hV : ∀ v v', V v v' → exact → v' = v) (hL : ∀ l l', L l l' → exact → l' = l) :
    Tracks Γ exact (fun _ _ => True) (emit i) (emit i') := by
  by_cases hexact : exact
  · have hsame : i' = i := by
      cases h with
      | copy hdst hsrc | neg hdst hsrc => rw [hV _ _ hdst hexact, hV _ _ hsrc hexact]
      | binary _ hdst hleft hright =>
          rw [hV _ _ hdst hexact, hV _ _ hleft hexact, hV _ _ hright hexact]
      | jumpIf hleft hright hl | jumpUnless hleft hright hl =>
        rw [hV _ _ hleft hexact, hV _ _ hright hexact, hL _ _ hl hexact]
      | jump hl | mark hl => rw [hL _ _ hl hexact]
    rw [hsame]
    exact (tracks_self (steady_emit i)).imp fun _ _ _ => trivial
  · exact tracks_steady (steady_emit i) (steady_emit i') hexact fun _ _ => trivial

/-- New temporaries track each other. -/
lemma tracks_freshTemp : Tracks Γ exact
    (fun v v' => (v.SameSort v' ∧ (exact → v' = v)) ∧ ∃ name id, v = .temp name id)
    freshTemp freshTemp := by
  intro s s' v code notes s1 hs h
  cases h
  refine ⟨tempOf s'.names.temps, [], [], _, rfl, ⟨⟨.temp, fun he => ?_⟩, _, _, rfl⟩, fun _ =>
    rfl, .refl _, hs.scope,
    hs.symbols, fun he => ?_⟩
  · rw [hs.eq he]
  · rw [hs.eq he]

/-- A name has the same type in both runs. -/
lemma tracks_typeOfName (token : Token) (name : String) :
    Tracks Γ exact Eq (typeOfName token name) (typeOfName token name) := by
  intro s s' type code notes s1 hs h
  rw [typeOfName, symbols_bind] at h
  rw [typeOfName, symbols_bind, hs.symbols]
  cases hlookup : s.symbols.lookup name with
  | error fault =>
    rw [hlookup] at h
    cases h
  | ok found =>
    rw [hlookup] at h
    cases h
    exact ⟨type, [], [], s', rfl, rfl, fun _ => rfl, .refl _, hs⟩

/-- A use of a name is counted in both runs. -/
lemma tracks_useName (token : Token) (name : String) :
    Tracks Γ exact Eq (useName token name) (useName token name) := by
  refine tracks_bind (tracks_typeOfName token name) ?_
  rintro type _ rfl
  intro s s' a code notes s1 hs h
  cases h
  refine ⟨type, [], [], { s' with symbols := s'.symbols.use name }, rfl, rfl, fun _ => rfl, .refl _,
    ?_, ?_, hs.names⟩
  · rw [← hs.scope]
    exact scope_use s name
  · exact congrArg (·.use name) hs.symbols

end Lowering

/-- Tracking relates two runs step by step, no matter how far they have come. The second one may
leave out notes. -/
def tracking (settings : Settings) (Γ : Scope) (exact : Prop) : Lockstep settings settings where
  World := Unit
  order := Lockstep.still
  Rel _ Q x y := Tracks Γ exact (Q ()) x y
  Value _ v v' := v.SameSort v' ∧ (exact → v' = v)
  Target _ l l' := exact → l' = l
  Cited _ := True
  gaps := True
  lenient := True
  loose := ¬ exact
  value_const _ n := ⟨.const n, fun _ => rfl⟩
  value_global _ x := ⟨.global x, fun _ => rfl⟩
  value_sort h := h.1
  value_mono _ h := h
  target_mono _ h := h
  target_loose h he := absurd he h
  rel_pure h := tracks_pure (h () trivial)
  rel_bind hx hf := tracks_bind hx fun a b hab => hf () trivial a b hab
  rel_fail _ _ := tracks_of_stopped fun _ _ _ _ _ => not_yields_fail
  rel_incomplete _ := tracks_of_stopped fun _ _ _ _ _ => not_yields_incomplete
  rel_stopped _ h := tracks_of_stopped fun s a code s' _ => h s a code s'
  rel_quiet _ hx hf := hx.tracks_skip hf
  rel_steady h hx hy hQ := tracks_steady hx hy h fun c d => hQ () c d
  rel_emit h := tracks_emit h (fun _ _ hv => hv.2) fun _ _ hl => hl
  rel_selfCopy x := by
    refine (tracks_self ?_).imp fun _ _ _ => trivial
    split
    · exact steady_pure ()
    · exact steady_emit _
  rel_freshTemp := @fun _ => tracks_freshTemp
  rel_freshLabel := @fun _ => tracks_self steady_freshLabel
  rel_typeOfName := tracks_typeOfName
  rel_useName := tracks_useName

lemma tracking_notes (settings : Settings) (Γ : Scope) (exact : Prop) :
    (tracking settings Γ exact).Notes := by
  intro _ token subject _ s s' u code notes s1 hs h
  cases h
  exact ⟨(), [], _, s', rfl, trivial, fun _ => rfl, .refl _, hs⟩

end ThreeAddress
