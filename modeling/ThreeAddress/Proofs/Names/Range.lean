import Mathlib.Data.Nat.Basic
import Std.Data.String.ToNat
import ThreeAddress.Proofs.Lowering.Lockstep

/-!
# The range of minted names

Lowering only ever uses the temporaries and labels that it has minted itself. This holds of
everything it emits, also before it stops with a fault: if minting begins at the names `b` and has
reached the names `n`, then every instruction emitted so far is `Within b n`.

`Lowering.Keeps b n x Q` says this of a part `x` of lowering that is started at `n` or later, and
that its result satisfies `Q` at the names reached then. The property is put together along `>>=`,
since names that are in range stay in range when more are minted; so it is a `Lockstep`, and holds
of the lowering of any tree.
-/

namespace ThreeAddress

open List Lowering

variable {i : Instr} {token : Token} {b n : Names}

/-! ## Names in range -/

lemma labelOf_name_inj {j k} (h : (labelOf j).name = (labelOf k).name) : j = k :=
  Nat.repr_inj.mp (String.append_right_inj _ |>.mp h)

lemma tempOf_name_inj {j k : Nat} (h : "_t" ++ toString j = "_t" ++ toString k) : j = k :=
  Nat.repr_inj.mp (String.append_right_inj _ |>.mp h)

/-- More names are minted, or the same. -/
structure Names.Le (n n' : Names) : Prop where
  temps : n.temps ≤ n'.temps
  labels : n.labels ≤ n'.labels

instance : Preorder Names where
  le := Names.Le
  le_refl n := ⟨le_refl n.temps, le_refl n.labels⟩
  le_trans _ _ _ h₁ h₂ := ⟨le_trans h₁.temps h₂.temps, le_trans h₁.labels h₂.labels⟩

/-- A label minted from the names `b` on, before the names `n`. -/
def Label.Within (b n : Names) (l : Label) : Prop :=
  ∃ k, b.labels ≤ k ∧ k < n.labels ∧ l = labelOf k

/-- An operand that is a constant, a variable, or a temporary minted from the names `b` on, before
the names `n`. -/
inductive Operand.Within (b n : Names) : Operand → Prop
  | const (w : Int64) : Operand.Within b n (.const w)
  | global (x : String) : Operand.Within b n (.global x)
  | temp {k : Nat} (hlower : b.temps ≤ k) (hupper : k < n.temps) : Operand.Within b n (tempOf k)

/-- An instruction all of whose temporaries and labels are minted from the names `b` on, before the
names `n`. -/
inductive Instr.Within (b n : Names) : Instr → Prop
  | copy {dst src} (hdst : dst.Within b n) (hsrc : src.Within b n) :
      Instr.Within b n (.copy dst src)
  | neg {dst src} (hdst : dst.Within b n) (hsrc : src.Within b n) : Instr.Within b n (.neg dst src)
  | binary {op dst left right} (hop : op.isBinary = true) (hdst : dst.Within b n)
      (hleft : left.Within b n) (hright : right.Within b n) :
      Instr.Within b n (.binary op dst left right)
  | jumpIf {op left right l} (hleft : left.Within b n) (hright : right.Within b n)
      (hl : l.Within b n) : Instr.Within b n (.jumpIf op left right l)
  | jumpUnless {op left right l} (hleft : left.Within b n) (hright : right.Within b n)
      (hl : l.Within b n) : Instr.Within b n (.jumpUnless op left right l)
  | jump {l} (hl : l.Within b n) : Instr.Within b n (.jump l)
  | mark {l} (hl : l.Within b n) : Instr.Within b n (.mark l)

section Within

variable {n' : Names}

lemma Label.Within.mono {l : Label} (h : l.Within b n) (hn : n ≤ n') : l.Within b n' := by
  obtain ⟨k, hlower, hupper, rfl⟩ := h
  exact ⟨k, hlower, Nat.lt_of_lt_of_le hupper hn.labels, rfl⟩

lemma Operand.Within.mono {v : Operand} (h : v.Within b n) (hn : n ≤ n') : v.Within b n' := by
  cases h with
  | const w => exact .const w
  | global x => exact .global x
  | temp hlower hupper => exact .temp hlower (Nat.lt_of_lt_of_le hupper hn.temps)

lemma Instr.Within.mono (h : i.Within b n) (hn : n ≤ n') : i.Within b n' := by
  cases h with
  | copy hdst hsrc => exact .copy (hdst.mono hn) (hsrc.mono hn)
  | neg hdst hsrc => exact .neg (hdst.mono hn) (hsrc.mono hn)
  | binary hop hdst hleft hright =>
    exact .binary hop (hdst.mono hn) (hleft.mono hn) (hright.mono hn)
  | jumpIf hleft hright hl => exact .jumpIf (hleft.mono hn) (hright.mono hn) (hl.mono hn)
  | jumpUnless hleft hright hl => exact .jumpUnless (hleft.mono hn) (hright.mono hn) (hl.mono hn)
  | jump hl => exact .jump (hl.mono hn)
  | mark hl => exact .mark (hl.mono hn)

/-- A mark in range marks a label in range. -/
lemma Instr.Within.of_mark (h : i.Within b n) (hop : i.op = .mark) :
    ∃ k, b.labels ≤ k ∧ k < n.labels ∧ i = .mark (labelOf k) := by
  cases h with
  | copy | neg | jumpIf | jumpUnless | jump => cases hop
  | binary hbinary => exact absurd hop (ne_mark_of_isBinary hbinary)
  | mark hl =>
    obtain ⟨k, hlower, hupper, rfl⟩ := hl
    exact ⟨k, hlower, hupper, rfl⟩

/-- A jump in range goes to a label in range. -/
lemma Instr.Within.of_jump (h : i.Within b n) (hop : i.op.isJump = true) :
    ∃ k, b.labels ≤ k ∧ k < n.labels ∧ i.target = some (labelOf k) := by
  cases h with
  | copy | neg | mark => cases hop
  | @binary op _ _ _ hbinary =>
    have hjump : op.isJump = true := hop
    rw [isJump_of_isBinary hbinary] at hjump
    cases hjump
  | jumpIf _ _ hl | jumpUnless _ _ hl | jump hl =>
    obtain ⟨k, hlower, hupper, rfl⟩ := hl
    exact ⟨k, hlower, hupper, rfl⟩

end Within

/-! ## Lowering that keeps to its names -/

namespace Lowering

/-- Started at the names `n` or later, the lowering `x` uses up no name again, emits instructions in
range only, and its result, if there is one, satisfies `Q` at the names reached. -/
def Keeps {α : Type} (b n : Names) (x : Lower α) (Q : Names → α → Prop) : Prop :=
  ∀ s, n ≤ s.names → s.names ≤ (x s).state.names ∧
    (∀ i ∈ (x s).code, i.Within b (x s).state.names) ∧
      ∀ a, (x s).outcome = .ok a → Q (x s).state.names a

variable {α β : Type} {Q : Names → α → Prop}

/-- A bare result keeps to its names. -/
lemma keeps_pure {a} (h : ∀ n', n ≤ n' → Q n' a) : (pure a : Lower α).Keeps b n Q := by
  intro s hs
  refine ⟨le_refl _, fun i hi => absurd hi not_mem_nil, fun a' ha' => ?_⟩
  cases ha'
  exact h _ hs

/-- Two parts, one after the other, keep to their names if both do, the second with what is known
about the result of the first. -/
lemma keeps_bind {x : Lower β} {f P} (hx : x.Keeps b n P)
    (hf : ∀ n', n ≤ n' → ∀ a, P n' a → (f a).Keeps b n' Q) :
    (x >>= f).Keeps b n Q := by
  intro s hs
  obtain ⟨hnames, hcode, hres⟩ := hx s hs
  have hbind : (x >>= f) s = Lowering.bind x f s := rfl
  rw [hbind, Lowering.bind]
  rcases hxs : x s with ⟨outcome, code, notes, s1⟩
  rw [hxs] at hnames hcode hres
  cases outcome with
  | error e => exact ⟨hnames, hcode, fun a ha => by cases ha⟩
  | ok a =>
    obtain ⟨hnames', hcode', hres'⟩ :=
      hf s1.names (le_trans hs hnames) a (hres a rfl) s1 (le_refl _)
    refine ⟨le_trans hnames hnames', fun i hi => ?_, hres'⟩
    rcases mem_append.mp hi with hi | hi
    · exact (hcode i hi).mono hnames'
    · exact hcode' i hi

lemma Keeps.imp {x : Lower α} {P} (hx : x.Keeps b n Q) (hn : b ≤ n)
    (h : ∀ n' a, b ≤ n' → Q n' a → P n' a) :
    x.Keeps b n P := by
  intro s hs
  obtain ⟨hnames, hcode, hres⟩ := hx s hs
  exact ⟨hnames, hcode, fun a ha => h _ a (le_trans hn (le_trans hs hnames)) (hres a ha)⟩

/-- A lowering that emits nothing and mints nothing keeps to its names. -/
lemma keeps_of_silent {x : Lower α} (hcode : ∀ s, (x s).code = [])
    (hnames : ∀ s, (x s).state.names = s.names)
    (hQ : ∀ s a, n ≤ s.names → (x s).outcome = .ok a → Q s.names a) : x.Keeps b n Q := by
  intro s hs
  refine ⟨by rw [hnames], fun i hi => ?_, fun a ha => ?_⟩
  · rw [hcode] at hi
    exact absurd hi not_mem_nil
  · rw [hnames]
    exact hQ s a hs ha

lemma keeps_fail {fault} : (fail token fault : Lower α).Keeps b n Q :=
  keeps_of_silent (fun _ => rfl) (fun _ => rfl) fun _ _ _ h => by cases h

lemma keeps_incomplete : (incomplete : Lower α).Keeps b n Q :=
  keeps_of_silent (fun _ => rfl) (fun _ => rfl) fun _ _ _ h => by cases h

lemma keeps_note {subject} : (note token subject).Keeps b n fun _ _ => True :=
  keeps_of_silent (fun _ => rfl) (fun _ => rfl) fun _ _ _ _ => trivial

lemma keeps_symbols : symbols.Keeps b n fun _ _ => True :=
  keeps_of_silent (fun _ => rfl) (fun _ => rfl) fun _ _ _ _ => trivial

lemma keeps_setSymbols {t} : (setSymbols t).Keeps b n fun _ _ => True :=
  keeps_of_silent (fun _ => rfl) (fun _ => rfl) fun _ _ _ _ => trivial

lemma keeps_emit (hi : i.Within b n) : (emit i).Keeps b n fun _ _ => True := by
  intro s hs
  refine ⟨le_refl _, fun j hj => ?_, fun _ _ => trivial⟩
  obtain rfl := mem_singleton.mp hj
  exact hi.mono hs

/-- A new temporary is in range. -/
lemma keeps_freshTemp (hn : b ≤ n) : freshTemp.Keeps b n fun n' v => v.Within b n' ∧
    ∃ name id, v = .temp name id := by
  intro s hs
  refine ⟨⟨Nat.le_succ _, le_refl _⟩, fun j hj => absurd hj not_mem_nil, fun v hv => ?_⟩
  cases hv
  exact ⟨.temp (le_trans hn hs).temps (Nat.lt_succ_self _), _, _, rfl⟩

/-- A new label is in range. -/
lemma keeps_freshLabel (hn : b ≤ n) : freshLabel.Keeps b n fun n' l => l.Within b n' := by
  intro s hs
  refine ⟨⟨le_refl _, Nat.le_succ _⟩, fun j hj => absurd hj not_mem_nil, fun l hl => ?_⟩
  cases hl
  exact ⟨_, (le_trans hn hs).labels, Nat.lt_succ_self _, rfl⟩

/-- Looking up a name keeps to the names. -/
lemma keeps_typeOfName {name} : (typeOfName token name).Keeps b n fun _ _ => True :=
  keeps_bind keeps_symbols fun _ _ t _ => by
    cases SymbolTable.lookup t name with
    | ok type => exact keeps_pure fun _ _ => trivial
    | error fault => exact keeps_fail

lemma keeps_useName {name} : (useName token name).Keeps b n fun _ _ => True :=
  keeps_bind keeps_typeOfName fun _ _ _ _ => keeps_bind keeps_symbols fun _ _ _ _ =>
    keeps_bind keeps_setSymbols fun _ _ _ _ => keeps_pure fun _ _ => trivial

/-- The exits of a condition are in range where there are some. -/
structure ExitsWithin (b n : Names) (holds fails : Option Label) : Prop where
  holds : ∀ l, holds = some l → l.Within b n
  fails : ∀ l, fails = some l → l.Within b n

lemma exitsWithin_none_some {fails} (hfails : fails.Within b n) :
    ExitsWithin b n none (some fails) :=
  ⟨fun _ hl => (Option.some_ne_none _ hl.symm).elim, fun _ hl => Option.some.inj hl ▸ hfails⟩

end Lowering

/-! ## Lowering trees -/

/-- Instructions that correspond by being in range are in range. -/
lemma Instr.Corresponds.within {i'}
    (h : i.Corresponds (fun v v' => v' = v ∧ v.Within b n) (fun l l' => l' = l ∧ l.Within b n) i') :
    i.Within b n := by
  cases h with
  | copy hdst hsrc => exact .copy hdst.2 hsrc.2
  | neg hdst hsrc => exact .neg hdst.2 hsrc.2
  | binary hop hdst hleft hright => exact .binary hop hdst.2 hleft.2 hright.2
  | jumpIf hleft hright hl => exact .jumpIf hleft.2 hright.2 hl.2
  | jumpUnless hleft hright hl => exact .jumpUnless hleft.2 hright.2 hl.2
  | jump hl => exact .jump hl.2
  | mark hl => exact .mark hl.2

/-- Keeping to the names that are minted from `b` on. Only one run is looked at, and how far it has
come is said by the names that it has reached. -/
def keeping (settings : Settings) (b : Names) : Lockstep settings settings where
  World := { n : Names // b ≤ n }
  Rel n Q x _ := x.Keeps b n fun n' a => ∃ (hn' : b ≤ n') (c : _), Q ⟨n', hn'⟩ a c
  Value n v v' := v' = v ∧ v.Within b n
  Target n l l' := l' = l ∧ l.Within b n
  Cited _ := True
  gaps := True
  value_const _ c := ⟨rfl, .const c⟩
  value_global _ x := ⟨rfl, .global x⟩
  value_sort h := h.1 ▸ .refl _
  value_mono hn h := ⟨h.1, h.2.mono hn⟩
  target_mono hn h := ⟨h.1, h.2.mono hn⟩
  rel_pure {_ _ n _ _ c} h := keeps_pure fun n' hn' =>
    ⟨le_trans n.2 hn', c, h ⟨n', le_trans n.2 hn'⟩ hn'⟩
  rel_bind hx hf := keeps_bind hx fun n' hn' a ⟨h, c, hc⟩ => hf ⟨n', h⟩ hn' a c hc
  rel_fail _ _ := keeps_fail
  rel_incomplete _ := keeps_incomplete
  rel_emit {n _ _} h := (keeps_emit h.within).imp n.2 fun _ a hn' _ => ⟨hn', a, trivial⟩
  rel_selfCopy {n} x := by
    split
    · exact keeps_pure fun n' hn' => ⟨le_trans n.2 hn', (), trivial⟩
    · exact (keeps_emit (.copy (.global x) (.global x))).imp n.2 fun _ a hn' _ => ⟨hn', a, trivial⟩
  rel_freshTemp {n} := (keeps_freshTemp n.2).imp n.2 fun _ v hn' hv => ⟨hn', v, ⟨rfl, hv.1⟩, hv.2⟩
  rel_freshLabel {n} := (keeps_freshLabel n.2).imp n.2 fun _ l hn' hl => ⟨hn', l, rfl, hl⟩
  rel_typeOfName {n} _ _ := keeps_typeOfName.imp n.2 fun _ type hn' _ => ⟨hn', type, rfl⟩
  rel_useName {n} _ _ := keeps_useName.imp n.2 fun _ type hn' _ => ⟨hn', type, rfl⟩

lemma keeping_notes (settings : Settings) (b : Names) : (keeping settings b).Notes := by
  intro n token subject _
  show (note token subject).Keeps b n.1 fun n' u => ∃ (hn' : b ≤ n') (_ : Unit), True
  exact keeps_note.imp n.2 fun _ u hn' _ => ⟨hn', u, trivial⟩

/-- What is related in this way keeps to the names. -/
lemma keeps_of_rel {α β : Type} {settings : Settings} {x : Lower α} {y : Lower β} {hn : b ≤ n}
    {Q : (keeping settings b).World → α → β → Prop} {P : Names → α → Prop}
    (h : (keeping settings b).Rel ⟨n, hn⟩ Q x y) (hQ : ∀ w a c, Q w a c → P w.1 a) :
    x.Keeps b n P := by
  have hx : x.Keeps b n fun n' a => ∃ (hn' : b ≤ n') (c : β), Q ⟨n', hn'⟩ a c := h
  refine hx.imp hn ?_
  rintro n' a - ⟨hn', c, hc⟩
  exact hQ ⟨n', hn'⟩ a c hc

/-- Lowering a condition with exits in range keeps to the names. -/
lemma keeps_cond (t : Tree) {holds fails} (hn : b ≤ n) (he : ExitsWithin b n holds fails) :
    (cond t holds fails).Keeps b n fun _ _ => True := by
  have hexit : ∀ l : Option Label, (∀ l', l = some l' → l'.Within b n) →
      (keeping {} b).Exit ⟨n, hn⟩ l l := by
    intro l hl
    cases l with
    | none => exact .none
    | some l => exact .some ⟨rfl, hl l rfl⟩
  have hcond := ((keeping {} b).twins t.admitted_all).condition (hexit holds he.holds)
    (hexit fails he.fails)
  exact keeps_of_rel hcond fun _ _ _ _ => trivial

/-- Lowering the scrutinee of a `switch` keeps to the names, and its value is in range. -/
lemma keeps_scrutineeTemp {t} (hn : b ≤ n) :
    (scrutineeTemp t).Keeps b n fun n' v => v.Within b n' := by
  have hscrut : (keeping {} b).Rel ⟨n, hn⟩ _ _ _ :=
    Lockstep.rel_scrutineeTemp ((keeping {} b).twins t.admitted_all) (.inl rfl)
  exact keeps_of_rel hscrut fun _ _ _ hv => hv.2

/-- Lowering a statement keeps to the names. -/
lemma keeps_statement (settings : Settings) (t : Tree) (hn : b ≤ n) :
    (statement settings t).Keeps b n fun _ _ => True := by
  have hstmt : (keeping settings b).Step ⟨n, hn⟩ _ _ :=
    ((keeping_notes settings b).alike t.admitted_all).body _
  exact keeps_of_rel hstmt fun _ _ _ _ => trivial

/-- Lowering several statements keeps to the names. -/
lemma keeps_statements (settings : Settings) (ts : List Tree) (hn : b ≤ n) :
    (statements settings ts).Keeps b n fun _ _ => True := by
  have hstmts : (keeping settings b).Step ⟨n, hn⟩ (statements settings ts)
      (statements settings ts) :=
    Lockstep.rel_statements (forall₂_same.mpr fun t _ =>
      (keeping_notes settings b).alike t.admitted_all)
  exact keeps_of_rel hstmts fun _ _ _ _ => trivial

/-! ## Programs -/

/-- Collecting a declaration keeps to the names. -/
lemma keeps_collect (t : Tree) : (collect t).Keeps b n fun _ _ => True := by
  unfold collect
  split
  · refine keeps_bind keeps_symbols fun _ _ before _ =>
      keeps_bind keeps_setSymbols fun _ _ _ _ => ?_
    split
    · exact keeps_fail
    · split
      · exact keeps_note
      · exact keeps_pure fun _ _ => trivial
  · exact keeps_incomplete
  · exact keeps_fail

/-- Collecting several declarations keeps to the names. -/
lemma keeps_collectAll (ts : List Tree) : (collectAll ts).Keeps b n fun _ _ => True := by
  induction ts generalizing n with
  | nil => exact keeps_pure fun _ _ => trivial
  | cons t ts ih => exact keeps_bind (keeps_collect t) fun _ _ _ _ => ih

/-- Looking for unused variables keeps to the names. -/
lemma keeps_noteUnused (xs : List Symbol) : (noteUnused xs).Keeps b n fun _ _ => True := by
  induction xs generalizing n with
  | nil => exact keeps_pure fun _ _ => trivial
  | cons s rest ih =>
    simp only [noteUnused]
    split
    · exact keeps_bind keeps_note fun _ _ _ _ => ih
    · exact ih

/-- Lowering a program keeps to the names. -/
lemma keeps_lower (settings : Settings) (root : Tree) (hn : b ≤ n) :
    (lower settings root).Keeps b n fun _ _ => True := by
  unfold lower
  split
  · refine keeps_bind keeps_setSymbols fun n1 hn1 _ _ => ?_
    refine keeps_bind (keeps_collectAll _) fun n2 hn2 _ _ => ?_
    refine keeps_bind (keeps_statement settings _ (le_trans hn (le_trans hn1 hn2)))
      fun n3 hn3 _ _ => ?_
    exact keeps_bind keeps_symbols fun _ _ t _ => keeps_noteUnused t.order
  · exact keeps_fail

/-- Whatever lowering a program comes to, it mints names from those of the state on and uses no
others.
-/
theorem lower_within (settings : Settings) (root : Tree) (s : LowerState) :
    s.names ≤ (lower settings root s).state.names ∧
      ∀ i ∈ (lower settings root s).code, i.Within s.names (lower settings root s).state.names :=
  let h := keeps_lower settings root (le_refl s.names) s (le_refl _)
  ⟨h.1, h.2.1⟩

end ThreeAddress
