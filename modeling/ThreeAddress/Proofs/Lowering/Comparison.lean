import ThreeAddress.Proofs.Names.Range

/-!
# Two runs of lowering

One tree can be lowered twice: from states in which different numbers of names have been minted, in
settings that treat copies of a variable to itself differently, or the second time into a sink. A
`Comparison` fixes what is to be compared: how many more names the second run has minted when it
starts, how the code of the two runs is related, which tokens notes may be about, and whether a run
may stop at an absent node.

`Comparison.Like Q x y` says that two parts of lowering, run from states that correspond, come to
results that correspond: both fail alike or both succeed with results that `Q` relates, their notes
are the same and about tokens that may be cited, the second one has put its code into its sink, and
their states correspond again. This is a `Lockstep`, and so `Comparison.like_statement` and
`Comparison.results_lower` say that it holds of the lowering of any tree whose tokens may be cited.
-/

namespace ThreeAddress

open List Lowering

variable {name : String} {t : SymbolTable} {token : Token}

/-! ## Names that are minted later -/

/-- The label that is minted instead of another one when more names have been minted before. -/
def Label.shift (n : Names) (l : Label) : Label := labelOf (l.id.toNat + n.labels)

/-- The operand that takes the place of another one when more names have been minted before. -/
def Operand.shift (n : Names) : Operand → Operand
  | .temp _ id => tempOf (id.toNat + n.temps)
  | .label l => .label (l.shift n)
  | v => v

/-- The test that takes the place of another one when more names have been minted before. -/
def Test.shift (n : Names) (t : Test) : Test :=
  { t with left := t.left.map (Operand.shift n), right := t.right.map (Operand.shift n) }

/-- The instruction that takes the place of another one when more names have been minted before. -/
def Instr.shift (n : Names) (i : Instr) : Instr :=
  { i with
    result := i.result.map (Operand.shift n)
    args := i.args.map (Option.map (Operand.shift n))
    test := i.test.map (Test.shift n)
    target := i.target.map (Label.shift n) }

@[simp]
lemma Label.shift_labelOf (n : Names) (k : Nat) :
    (labelOf k).shift n = labelOf (k + n.labels) := rfl

@[simp]
lemma Operand.shift_tempOf (n : Names) (k : Nat) : (tempOf k).shift n = tempOf (k + n.temps) := rfl

lemma Operand.shift_eq_global {n} {v : Operand} {x} : v.shift n = .global x ↔ v = .global x := by
  cases v <;> simp [Operand.shift, tempOf]

/-- The code for the copy of a variable to itself. -/
def selfCopy (settings : Settings) (x : String) : List Instr :=
  if settings.feature .elideSelfCopies then [] else [.copy (.global x) (.global x)]

/-! ## Comparisons -/

/-- What is compared in two runs of lowering, in two settings. -/
structure Comparison (settings settings' : Settings) where
  /-- How many more names the second run has minted when it starts. -/
  ahead : Names
  /-- The tokens that notes may be about. -/
  Cited : Token → Prop
  /-- Whether a run may stop at an absent node. -/
  gaps : Prop
  /-- How the code of the two runs is related. -/
  Code : List Instr → List Instr → Prop
  code_nil : Code [] []
  code_append {c c' d d' : List Instr} : Code c c' → Code d d' → Code (c ++ d) (c' ++ d')
  code_emit {i : Instr} : (∀ x, i ≠ .copy (.global x) (.global x)) → Code [i] [i.shift ahead]
  code_selfCopy (x : String) : Code (selfCopy settings x) (selfCopy settings' x)

namespace Comparison

variable {τ : Type} [Sink τ] {settings settings' : Settings} (C : Comparison settings settings')

/-- The trees whose lowering is compared. -/
def Admits (t : Tree) : Prop := t.Admitted C.Cited C.gaps

/-- The symbols of a table may be cited. -/
def Knows (t : SymbolTable) : Prop := ∀ x ∈ t.order, C.Cited x.token

/-- The states of two runs correspond. -/
structure States (s : LowerState) (s' : LoweringState τ) : Prop where
  symbols_eq : s'.symbols = s.symbols
  knows : C.Knows s.symbols
  temps_eq : s'.names.temps = s.names.temps + C.ahead.temps
  labels_eq : s'.names.labels = s.names.labels + C.ahead.labels

/-- The outcomes of two runs correspond. -/
inductive Outcomes {α β : Type} (Q : α → β → Prop) : Except Stop α → Except Stop β → Prop
  | ok {a b} (h : Q a b) : Outcomes Q (.ok a) (.ok b)
  | fault (error : LowerError) : Outcomes Q (.error (.fault error)) (.error (.fault error))
  | incomplete (h : C.gaps) : Outcomes Q (.error .incomplete) (.error .incomplete)

/-- What two runs come to corresponds, if the second one starts with the sink `sink`. -/
structure Results {α β : Type} (Q : α → β → Prop) (sink : τ) (r : Lowered α)
    (r' : LoweringResult τ β) : Prop where
  outcomes : C.Outcomes Q r.outcome r'.outcome
  code : C.Code r.code r'.code
  notes_eq : r'.notes = r.notes
  cited : ∀ n ∈ r.notes, C.Cited n.token
  sink_eq : r'.state.sink = r'.code.foldl Sink.put sink
  states : C.States r.state r'.state

/-- Run from states that correspond, two parts of lowering come to what corresponds. -/
def Like {α β : Type} (Q : α → β → Prop) (x : Lower α) (y : Lowering τ β) : Prop :=
  ∀ s s', C.States s s' → C.Results Q s'.sink (x s) (y s')

/-! ### Basic parts -/

section Basic

variable {α β γ δ : Type} {P : α → β → Prop} {Q : γ → δ → Prop} {C}

lemma like_pure {c d} (h : Q c d) : C.Like Q (pure c) (pure d : Lowering τ δ) :=
  fun _ _ hs => ⟨.ok h, C.code_nil, rfl, forall_mem_nil _, rfl, hs⟩

/-- Two parts, one after the other, correspond if the first ones do and the second ones do for
results that are related. -/
lemma like_bind {x f g} {y : Lowering τ β} (hx : C.Like P x y)
    (hf : ∀ a b, P a b → C.Like Q (f a) (g b)) :
    C.Like Q (x >>= f) (y >>= g) := by
  intro s s' hs
  obtain ⟨houtcomes, hcode, hnotes, hcited, hsink, hstates⟩ := hx s s' hs
  have hxf : (x >>= f) s = Lowering.bind x f s := rfl
  have hyg : (y >>= g) s' = Lowering.bind y g s' := rfl
  rw [hxf, hyg, Lowering.bind, Lowering.bind]
  rcases hxs : x s with ⟨outcome, code, notes, s1⟩
  rcases hys : y s' with ⟨outcome', code', notes', s1'⟩
  rw [hxs, hys] at houtcomes hcode hnotes hstates
  rw [hxs] at hcited
  rw [hys] at hsink
  cases houtcomes with
  | ok hab =>
    obtain ⟨houtcomes2, hcode2, hnotes2, hcited2, hsink2, hstates2⟩ := hf _ _ hab s1 s1' hstates
    refine ⟨houtcomes2, C.code_append hcode hcode2, ?_, ?_, ?_, hstates2⟩
    · exact congrArg₂ (· ++ ·) hnotes hnotes2
    · exact forall_mem_append.mpr ⟨hcited, hcited2⟩
    · rw [foldl_append, ← hsink, hsink2]
  | fault error => exact ⟨.fault error, hcode, hnotes, hcited, hsink, hstates⟩
  | incomplete h => exact ⟨.incomplete h, hcode, hnotes, hcited, hsink, hstates⟩

lemma like_fail {fault} : C.Like Q (fail token fault) (fail token fault : Lowering τ δ) :=
  fun _ _ hs => ⟨.fault _, C.code_nil, rfl, forall_mem_nil _, rfl, hs⟩

lemma like_incomplete (h : C.gaps) : C.Like Q incomplete (incomplete : Lowering τ δ) :=
  fun _ _ hs => ⟨.incomplete h, C.code_nil, rfl, forall_mem_nil _, rfl, hs⟩

/-- The copy of a variable to itself is dealt with as the settings say. -/
lemma like_selfCopy (x : String) : C.Like (fun _ _ => True)
      (if settings.feature .elideSelfCopies then pure () else emit (.copy (.global x) (.global x)))
      (if settings'.feature .elideSelfCopies then pure ()
        else emit (.copy (.global x) (.global x)) : Lowering τ Unit) := by
  have hcode : ∀ {ρ : Type} [Sink ρ] (s : Settings) (state : LoweringState ρ),
      (if s.feature .elideSelfCopies then pure () else emit (.copy (.global x) (.global x)) :
        Lowering ρ Unit) state = ⟨.ok (), selfCopy s x, [],
        { state with sink := (selfCopy s x).foldl Sink.put state.sink }⟩ := by
    intro ρ _ s state
    unfold selfCopy
    split <;> rfl
  intro s s' hs
  rw [hcode, hcode]
  exact ⟨.ok trivial, C.code_selfCopy x, rfl, forall_mem_nil _, rfl, hs.symbols_eq, hs.knows,
    hs.temps_eq, hs.labels_eq⟩

/-- Notes correspond if they are about a token that may be cited. -/
lemma like_note {subject} (htoken : C.Cited token) :
    C.Like (fun _ _ => True) (note token subject) (note token subject : Lowering τ Unit) :=
  fun _ _ hs => ⟨.ok trivial, C.code_nil, rfl, forall_mem_singleton.mpr htoken, rfl, hs⟩

/-- Minted temporaries correspond. -/
lemma like_freshTemp :
    C.Like (fun v v' => v' = v.shift C.ahead ∧ ∃ name id, v = .temp name id) freshTemp
      (freshTemp : Lowering τ Operand) := by
  intro s s' hs
  have htemp : tempOf s'.names.temps = (tempOf s.names.temps).shift C.ahead := by
    rw [hs.temps_eq, Operand.shift_tempOf]
  refine ⟨.ok ⟨htemp, _, _, rfl⟩, C.code_nil, rfl, forall_mem_nil _, rfl,
    hs.symbols_eq, hs.knows, ?_, hs.labels_eq⟩
  show s'.names.temps + 1 = s.names.temps + 1 + C.ahead.temps
  rw [hs.temps_eq]
  omega

/-- Minted labels correspond. -/
lemma like_freshLabel :
    C.Like (fun l l' => l' = l.shift C.ahead) freshLabel (freshLabel : Lowering τ Label) := by
  intro s s' hs
  have hlabel : labelOf s'.names.labels = (labelOf s.names.labels).shift C.ahead := by
    rw [hs.labels_eq, Label.shift_labelOf]
  refine ⟨.ok hlabel, C.code_nil, rfl, forall_mem_nil _, rfl, hs.symbols_eq,
    hs.knows, hs.temps_eq, ?_⟩
  show s'.names.labels + 1 = s.names.labels + 1 + C.ahead.labels
  rw [hs.labels_eq]
  omega

lemma like_symbols :
    C.Like (fun t t' => t = t' ∧ C.Knows t) symbols (symbols : Lowering τ SymbolTable) :=
  fun _ _ hs => ⟨.ok ⟨hs.symbols_eq.symm, hs.knows⟩, C.code_nil, rfl, forall_mem_nil _, rfl, hs⟩

lemma like_setSymbols (ht : C.Knows t) :
    C.Like (fun _ _ => True) (setSymbols t) (setSymbols t : Lowering τ Unit) :=
  fun _ _ hs => ⟨.ok trivial, C.code_nil, rfl, forall_mem_nil _, rfl, rfl, ht,
    hs.temps_eq, hs.labels_eq⟩

/-- Looking up a name gives the same type. -/
lemma like_typeOfName :
    C.Like Eq (typeOfName token name) (typeOfName token name : Lowering τ ValueType) := by
  refine like_bind like_symbols ?_
  rintro t _ ⟨rfl, -⟩
  cases SymbolTable.lookup t name with
  | ok type => exact like_pure rfl
  | error fault => exact like_fail

lemma Knows.use (ht : C.Knows t) (name : String) : C.Knows (t.use name) := by
  intro x hx
  rw [SymbolTable.order_use] at hx
  obtain ⟨y, hy, rfl⟩ := mem_map.mp hx
  split <;> exact ht y hy

/-- Using a name gives the same type. -/
lemma like_useName :
    C.Like Eq (useName token name) (useName token name : Lowering τ ValueType) := by
  refine like_bind like_typeOfName ?_
  rintro type _ rfl
  refine like_bind like_symbols ?_
  rintro t _ ⟨rfl, ht⟩
  exact like_bind (like_setSymbols (ht.use name)) fun _ _ _ => like_pure rfl

end Basic

/-! ### Trees -/

section Trees

variable {C}

/-- Instructions correspond if one is the shift of the other. -/
lemma eq_shift {n} {i : Instr} {i'}
    (h : i.Corresponds (fun v v' => v' = v.shift n) (fun l l' => l' = l.shift n) i') :
    i' = i.shift n ∧ ∀ x, i ≠ .copy (.global x) (.global x) := by
  cases h with
  | copy hdst hsrc hself =>
    subst hdst hsrc
    refine ⟨rfl, fun x hx => ?_⟩
    injection hx with _ hres hargs
    injection hres with hres
    injection hargs with hargs
    injection hargs with hargs
    exact hself x hres hargs
  | neg hdst hsrc =>
    subst hdst hsrc
    exact ⟨rfl, nofun⟩
  | binary hop hdst hleft hright =>
    subst hdst hleft hright
    refine ⟨rfl, fun x hx => ?_⟩
    injection hx with hcopy
    rw [hcopy] at hop
    cases hop
  | jumpIf hleft hright hl | jumpUnless hleft hright hl =>
    subst hleft hright hl
    exact ⟨rfl, nofun⟩
  | jump hl | mark hl =>
    subst hl
    exact ⟨rfl, nofun⟩

variable (C)

/-- A comparison relates two runs step by step, no matter how far they have come. -/
def lockstep : Lockstep settings settings' Unit τ where
  World := Unit
  order := Lockstep.still
  Rel _ Q x y := C.Like (Q ()) x y
  Value _ v v' := v' = v.shift C.ahead
  Target _ l l' := l' = l.shift C.ahead
  Cited := C.Cited
  gaps := C.gaps
  value_const _ _ := rfl
  value_global _ _ := rfl
  value_sort {_ v _} h := h ▸ by cases v <;> constructor
  value_mono _ h := h
  target_mono _ h := h
  rel_pure h := like_pure (h () trivial)
  rel_bind hx hf := like_bind hx fun a b hab => hf () trivial a b hab
  rel_fail _ _ := like_fail
  rel_incomplete h := like_incomplete h
  rel_emit h _ _ hs := (eq_shift h).1 ▸ ⟨.ok trivial, C.code_emit (eq_shift h).2, rfl,
    forall_mem_nil _, rfl, hs.symbols_eq, hs.knows, hs.temps_eq, hs.labels_eq⟩
  rel_selfCopy x := like_selfCopy x
  rel_freshTemp := like_freshTemp
  rel_freshLabel := like_freshLabel
  rel_typeOfName _ _ := like_typeOfName
  rel_useName _ _ := like_useName

variable {C}

/-- The code of a statement corresponds. -/
lemma like_statement {t} (ht : C.Admits t) :
    C.Like (fun _ _ => True) (statement settings t) (statement settings' t : Lowering τ Unit) := by
  have hnotes : (C.lockstep : Lockstep settings settings' Unit τ).Notes :=
    fun _ _ _ htoken => like_note htoken
  exact (hnotes.alike ht).body ()

end Trees

/-! ### Programs -/

section Programs

variable {C}

/-- A declaration adds a symbol with its token, or none. -/
lemma Knows.declare (ht : C.Knows t) (name keyword : String) (htoken : C.Cited token) :
    C.Knows (t.declare name keyword token).2 := by
  have hdeclared := SymbolTable.declared t name keyword token
  generalize t.declare name keyword token = r at hdeclared
  cases hdeclared with
  | added => exact forall_mem_append.mpr ⟨ht, forall_mem_singleton.mpr htoken⟩
  | repeated | refused | invalid => exact ht

/-- A declaration has the same effect. -/
lemma like_collect {d} (hd : C.Admits d) :
    C.Like (fun _ _ => True) (collect d) (collect d : Lowering τ Unit) := by
  unfold collect
  split
  · rename_i token name _ _
    have htoken := (hd.of_node.2 _ mem_cons_self).of_node.1
    refine like_bind like_symbols ?_
    rintro before _ ⟨rfl, hbefore⟩
    refine like_bind (like_setSymbols (hbefore.declare name _ htoken)) fun _ _ _ => ?_
    split
    · exact like_fail
    · split
      · exact like_note htoken
      · exact like_pure trivial
  · exact like_incomplete (hd.of_node.2 _ mem_cons_self).of_absent
  · exact like_fail

/-- Several declarations have the same effect. -/
lemma like_collectAll {ds} (hds : ∀ d ∈ ds, C.Admits d) :
    C.Like (fun _ _ => True) (collectAll ds) (collectAll ds : Lowering τ Unit) := by
  induction ds with
  | nil => exact like_pure trivial
  | cons d ds ih =>
    obtain ⟨hd, hrest⟩ := forall_mem_cons.mp hds
    exact like_bind (like_collect hd) fun _ _ _ => ih hrest

/-- The notes about symbols without uses are the same. -/
lemma like_noteUnused {xs : List Symbol} (h : ∀ x ∈ xs, C.Cited x.token) :
    C.Like (fun _ _ => True) (noteUnused xs) (noteUnused xs : Lowering τ Unit) := by
  induction xs with
  | nil => exact like_pure trivial
  | cons x xs ih =>
    obtain ⟨hx, hrest⟩ := forall_mem_cons.mp h
    unfold noteUnused
    split
    · exact like_bind (like_note hx) fun _ _ _ => ih hrest
    · exact ih hrest

/-- Behind the declarations, the code of a program corresponds. -/
lemma like_program {t} (ht : C.Admits t) : C.Like (fun _ _ => True)
      (do collectAll t.declarations; statement settings t; noteUnused (← symbols).order)
      (do collectAll t.declarations; statement settings' t; noteUnused (← symbols).order :
        Lowering τ Unit) := by
  refine like_bind (like_collectAll ht.declarations) fun _ _ _ => ?_
  refine like_bind (like_statement ht) fun _ _ _ => ?_
  refine like_bind like_symbols ?_
  rintro symbols _ ⟨rfl, hsymbols⟩
  exact like_noteUnused hsymbols

/-- The lowering of a program depends on the names that have been minted before, and on nothing else
of the state it starts from. -/
theorem results_lower {value ops children} (ht : C.Admits (.node .program token value ops children))
    {s : LowerState} {s' : LoweringState τ}
    (htemps : s'.names.temps = s.names.temps + C.ahead.temps)
    (hlabels : s'.names.labels = s.names.labels + C.ahead.labels) :
    C.Results (fun _ _ => True) s'.sink (lower settings (.node .program token value ops children) s)
      (lower settings' (.node .program token value ops children) s') := by
  -- The symbols are replaced at once, so that those left by earlier calls have no effect.
  have hstart : C.States { s with symbols := {} } { s' with symbols := {} } :=
    ⟨rfl, forall_mem_nil _, htemps, hlabels⟩
  exact like_program ht _ _ hstart

end Programs

end Comparison

end ThreeAddress
