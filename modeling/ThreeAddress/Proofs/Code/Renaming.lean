import Mathlib.Data.Set.Function
import ThreeAddress.Proofs.Code.Canonical
import ThreeAddress.Proofs.Code.Listing
import ThreeAddress.Proofs.Names.Session

/-!
# Canonical listings as invariants

The canonical listing of code is the listing of code that differs from it by a one-to-one renaming
of the temporaries and labels (`Renaming.exists_renamed_code`), and it is the same for all such
code. Numbers are only ever added to a renaming, so that the names which the instructions got one
after the other are those that the renaming at the end of the code would give them.

A renaming by two functions needs to be one-to-one on the names that occur in the code, no more.
-/

namespace ThreeAddress

/-! ## Renaming by functions -/

/-- The names of the temporaries that occur in code. -/
def tempNames (code : List Instr) : Set String := {x | ∃ i ∈ code, ∃ id, i.Mentions (.temp x id)}

/-- The names of the labels that occur in code. -/
def labelNames (code : List Instr) : Set String := {x | ∃ i ∈ code, i.MentionsLabel x}

/-- Names correspond to what a function makes of them. -/
def RenamedBy (f : String → String) (x y : String) : Prop := y = f x

/-- Names in a set correspond one to one to what a function makes of them, if it is injective there.
-/
lemma biUnique_renamedBy {f names} (hf : Set.InjOn f names) :
    Relator.BiUnique fun x y => x ∈ names ∧ RenamedBy f x y := by
  constructor
  · rintro x y z ⟨hx, rfl⟩ ⟨hy, hxy⟩
    exact hf hx hy hxy
  · rintro x y z ⟨-, rfl⟩ ⟨-, rfl⟩
    rfl

section Restriction

variable {T L T' L' : String → String → Prop}

/-- Operands that correspond under some relations do so under others that hold of the names in them.
-/
lemma Operand.Renamed.imp {v : Operand} {v'} (h : v.Renamed T L v')
    (hT : ∀ x id y, v = .temp x id → T x y → T' x y)
    (hL : ∀ l y, v = .label l → L l.name y → L' l.name y) : v.Renamed T' L' v' := by
  cases h with
  | const w => exact .const w
  | global x => exact .global x
  | temp hname => exact .temp (hT _ _ _ rfl hname)
  | label hname => exact .label (hL _ _ rfl hname)

/-- Instructions that correspond under some relations do so under others that hold of the names in
them. -/
lemma Instr.Renamed.imp {i i' : Instr} (h : i.Renamed T L i')
    (hT : ∀ x id y, i.Mentions (.temp x id) → T x y → T' x y)
    (hL : ∀ x y, i.MentionsLabel x → L x y → L' x y) : i.Renamed T' L' i' := by
  have hoperand : ∀ v v' : Option Operand, (∀ w, v = some w → i.Mentions w) →
      Option.Rel (Operand.Renamed T L) v v' → Option.Rel (Operand.Renamed T' L') v v' := by
    intro v v' hv hrel
    cases hrel with
    | none => exact .none
    | some hw =>
      refine .some (hw.imp ?_ ?_)
      · rintro x id y rfl
        exact hT x id y (hv _ rfl)
      · rintro l y rfl
        exact hL l.name y ⟨l, rfl, .inr (hv _ rfl)⟩
  refine ⟨h.op_eq, hoperand _ _ (fun w hw => .inl hw) h.result, ?_, ?_, ?_⟩
  · have hargs : ∀ v ∈ i.args, ∀ w, v = some w → i.Mentions w := by
      rintro v hv w rfl
      exact .inr (.inl hv)
    have hall := h.args
    generalize i.args = vs at hall hargs
    generalize i'.args = vs' at hall
    induction hall with
    | nil => exact .nil
    | cons hv _ ih =>
      obtain ⟨hfirst, hrest⟩ := List.forall_mem_cons.mp hargs
      exact .cons (hoperand _ _ hfirst hv) (ih hrest)
  · have htests := h.test
    generalize htest : i.test = t at htests
    generalize i'.test = t' at htests
    cases htests with
    | none => exact .none
    | some ht =>
      refine .some ⟨ht.op_eq, hoperand _ _ (fun w hw => ?_) ht.left,
        hoperand _ _ (fun w hw => ?_) ht.right⟩
      · exact .inr (.inr ⟨_, htest, .inl hw⟩)
      · exact .inr (.inr ⟨_, htest, .inr hw⟩)
  · have htargets := h.target
    generalize htarget : i.target = l at htargets
    generalize i'.target = l' at htargets
    cases htargets with
    | none => exact .none
    | some hl => exact .some (hL _ _ ⟨_, rfl, .inl htarget⟩ hl)

/-- Of the relations under which code corresponds only what they say of the names in the code
matters. -/
lemma forall₂_renamed_restrict {code code'} (h : List.Forall₂ (Instr.Renamed T L) code code') :
    List.Forall₂ (Instr.Renamed (fun x y => x ∈ tempNames code ∧ T x y)
      (fun x y => x ∈ labelNames code ∧ L x y)) code code' := by
  have hpart : ∀ part part', (∀ i ∈ part, i ∈ code) → List.Forall₂ (Instr.Renamed T L) part part' →
      List.Forall₂ (Instr.Renamed (fun x y => x ∈ tempNames code ∧ T x y)
        (fun x y => x ∈ labelNames code ∧ L x y)) part part' := by
    intro part part' hsub hparts
    induction hparts with
    | nil => exact .nil
    | cons hi _ ih =>
      obtain ⟨hmem, hrest⟩ := List.forall_mem_cons.mp hsub
      refine .cons (hi.imp ?_ ?_) (ih hrest)
      · intro x id y hx hxy
        exact ⟨⟨_, hmem, id, hx⟩, hxy⟩
      · intro x y hx hxy
        exact ⟨⟨_, hmem, hx⟩, hxy⟩
  exact hpart code code' (fun _ hi => hi) h

end Restriction

/-! ## The renaming that canonical listings make -/

namespace Renaming

/-- Each number belongs to one name and is below the number of names. -/
structure Numbering (numbers : Std.TreeMap String Nat) : Prop where
  lt_size {x : String} {k : Nat} : numbers[x]? = some k → k < numbers.size
  inj {x y : String} {k : Nat} : numbers[x]? = some k → numbers[y]? = some k → x = y

/-- The numbers of names are kept. -/
def Kept (numbers numbers' : Std.TreeMap String Nat) : Prop :=
  ∀ ⦃x : String⦄ ⦃k : Nat⦄, numbers[x]? = some k → numbers'[x]? = some k

/-- A name gets a number, and nothing else changes. -/
lemma numberOf_spec {numbers} (h : Numbering numbers) (x : String) :
    Numbering (numberOf numbers x).2 ∧ Kept numbers (numberOf numbers x).2 ∧
      (numberOf numbers x).2[x]? = some (numberOf numbers x).1 := by
  unfold numberOf
  cases hfound : numbers[x]? with
  | some k => exact ⟨h, fun _ _ hy => hy, hfound⟩
  | none =>
    have hnew : numbers.contains x = false := by
      rw [Std.TreeMap.contains_eq_isSome_getElem?, hfound, Option.isSome_none]
    have hcases : ∀ {y : String} {k : Nat}, (numbers.insert x numbers.size)[y]? = some k →
        (y = x ∧ k = numbers.size) ∨ numbers[y]? = some k := by
      intro y k hy
      rw [Std.TreeMap.getElem?_insert] at hy
      split at hy
      · rename_i heq
        exact .inl ⟨(Std.LawfulEqCmp.compare_eq_iff_eq.mp heq).symm, (Option.some.inj hy).symm⟩
      · exact .inr hy
    refine ⟨⟨?_, ?_⟩, ?_, ?_⟩
    · intro y k hy
      rw [Std.TreeMap.size_insert, hnew, if_neg Bool.false_ne_true]
      rcases hcases hy with ⟨-, rfl⟩ | hold
      · exact Nat.lt_succ_self _
      · exact Nat.lt_succ_of_lt (h.lt_size hold)
    · -- The new number is above all others.
      intro y z k hy hz
      rcases hcases hy with ⟨rfl, rfl⟩ | hold
      · rcases hcases hz with ⟨rfl, -⟩ | hold'
        · rfl
        · exact absurd (h.lt_size hold') (Nat.lt_irrefl _)
      · rcases hcases hz with ⟨rfl, rfl⟩ | hold'
        · exact absurd (h.lt_size hold) (Nat.lt_irrefl _)
        · exact h.inj hold hold'
    · intro y k hy
      have hne : compare x y ≠ .eq := by
        intro heq
        obtain rfl := Std.LawfulEqCmp.compare_eq_iff_eq.mp heq
        rw [hfound] at hy
        cases hy
      rw [Std.TreeMap.getElem?_insert, if_neg hne, hy]
    · exact Std.TreeMap.getElem?_insert_self

/-- The numbers of temporaries and those of labels are numberings. -/
structure Sound (r : Renaming) : Prop where
  temps : Numbering r.temps
  labels : Numbering r.labels

/-- The numbers of temporaries and of labels are kept. -/
structure Grows (r r' : Renaming) : Prop where
  temps : Kept r.temps r'.temps
  labels : Kept r.labels r'.labels

/-- The name that the renaming `r` gives to a temporary. -/
def GivesTemp (r : Renaming) (x y : String) : Prop := ∃ k : Nat, r.temps[x]? = some k ∧
    y = "t" ++ toString k

/-- The name that the renaming `r` gives to a label. -/
def GivesLabel (r : Renaming) (x y : String) : Prop := ∃ k : Nat, r.labels[x]? = some k ∧
    y = "L" ++ toString k

variable {r r' r1 r2 : Renaming}

lemma Grows.refl (r : Renaming) : Grows r r := ⟨fun _ _ h => h, fun _ _ h => h⟩

lemma Grows.trans (h : Grows r r1) (h' : Grows r1 r2) : Grows r r2 :=
  ⟨fun _ _ hx => h'.temps (h.temps hx), fun _ _ hx => h'.labels (h.labels hx)⟩

/-- Names with numbers correspond one to one to the names made from the numbers. -/
lemma biUnique_numbered {numbers} (h : Numbering numbers) (letter : String) :
    Relator.BiUnique fun x y : String => ∃ k : Nat, numbers[x]? = some k ∧
    y = letter ++ toString k := by
  constructor
  · rintro x y z ⟨j, hx, rfl⟩ ⟨k, hy, hjk⟩
    obtain rfl : j = k := Nat.repr_inj.mp ((String.append_right_inj letter).mp hjk)
    exact h.inj hx hy
  · rintro x y z ⟨j, hx, rfl⟩ ⟨k, hx', rfl⟩
    rw [Option.some.inj (hx.symm.trans hx')]

/-- Renaming a part in `r` leads to `r'`: it is sound, keeps the numbers given before, and what it
makes of the part is right for every renaming that keeps the numbers given up to then. -/
structure Leads (r r' : Renaming) (right : Renaming → Prop) : Prop where
  sound : Sound r'
  grows : Grows r r'
  right_of_grows {r'' : Renaming} : Grows r' r'' → right r''

section

variable (h : Sound r)
include h

/-- A label gets the name that later renamings give it. -/
lemma Sound.label (l : Label) :
    Leads r (r.label l).2 fun r' => r'.GivesLabel l.name (r.label l).1.name := by
  obtain ⟨hnumbering, hkept, hnum⟩ := numberOf_spec h.labels l.name
  exact ⟨⟨h.temps, hnumbering⟩, ⟨fun _ _ hx => hx, hkept⟩, fun hgrows =>
    ⟨_, hgrows.labels hnum, rfl⟩⟩

/-- An operand becomes what later renamings make of it. -/
lemma Sound.operand (v : Option Operand) : Leads r (r.operand v).2 fun r' =>
    Option.Rel (Operand.Renamed r'.GivesTemp r'.GivesLabel) v (r.operand v).1 := by
  cases v with
  | none => exact ⟨h, .refl r, fun _ => .none⟩
  | some v =>
    cases v with
    | const w => exact ⟨h, .refl r, fun _ => .some (.const w)⟩
    | global x => exact ⟨h, .refl r, fun _ => .some (.global x)⟩
    | temp x id =>
      obtain ⟨hnumbering, hkept, hnum⟩ := numberOf_spec h.temps x
      refine ⟨⟨hnumbering, h.labels⟩, ⟨hkept, fun _ _ hx => hx⟩, fun hgrows => ?_⟩
      exact .some (.temp ⟨_, hgrows.temps hnum, rfl⟩)
    | label l =>
      obtain ⟨hsound, hgrows, hright⟩ := h.label l
      exact ⟨hsound, hgrows, fun hlater => .some (.label (hright hlater))⟩

/-- Operands become what later renamings make of them. -/
lemma Sound.operands (vs : List (Option Operand)) : Leads r (r.operands vs).2 fun r' =>
    List.Forall₂ (Option.Rel (Operand.Renamed r'.GivesTemp r'.GivesLabel)) vs
    (r.operands vs).1 := by
  induction vs generalizing r with
  | nil => exact ⟨h, .refl r, fun _ => .nil⟩
  | cons v vs ih =>
    obtain ⟨hsound, hgrows, hv⟩ := h.operand v
    obtain ⟨hsound', hgrows', hvs⟩ := ih hsound
    exact ⟨hsound', hgrows.trans hgrows', fun hlater =>
      .cons (hv (hgrows'.trans hlater)) (hvs hlater)⟩

/-- A test becomes what later renamings make of it. -/
lemma Sound.test (t : Option Test) : Leads r (r.test t).2 fun r' =>
    Option.Rel (Test.Renamed r'.GivesTemp r'.GivesLabel) t (r.test t).1 := by
  cases t with
  | none => exact ⟨h, .refl r, fun _ => .none⟩
  | some t =>
    obtain ⟨hsound, hgrows, hleft⟩ := h.operand t.left
    obtain ⟨hsound', hgrows', hright⟩ := hsound.operand t.right
    refine ⟨hsound', hgrows.trans hgrows', fun hlater => .some ⟨rfl, ?_, hright hlater⟩⟩
    exact hleft (hgrows'.trans hlater)

/-- A target becomes what later renamings make of it. -/
lemma Sound.target (l : Option Label) : Leads r (r.target l).2 fun r' =>
    Option.Rel (fun l l' : Label => r'.GivesLabel l.name l'.name) l (r.target l).1 := by
  cases l with
  | none => exact ⟨h, .refl r, fun _ => .none⟩
  | some l =>
    obtain ⟨hsound, hgrows, hright⟩ := h.label l
    exact ⟨hsound, hgrows, fun hlater => .some (hright hlater)⟩

/-- An instruction becomes what later renamings make of it. -/
lemma Sound.instr (i : Instr) :
    Leads r (r.instr i).2 fun r' => i.Renamed r'.GivesTemp r'.GivesLabel (r.instr i).1 := by
  obtain ⟨hsound1, hgrows1, htest⟩ := h.test i.test
  obtain ⟨hsound2, hgrows2, hargs⟩ := hsound1.operands i.args
  obtain ⟨hsound3, hgrows3, hres⟩ := hsound2.operand i.result
  obtain ⟨hsound4, hgrows4, htarget⟩ := hsound3.target i.target
  refine ⟨hsound4, hgrows1.trans (hgrows2.trans (hgrows3.trans hgrows4)), fun hlater => ?_⟩
  have hlater3 := hgrows4.trans hlater
  have hlater2 := hgrows3.trans hlater3
  exact ⟨rfl, hres hlater3, hargs hlater2, htest (hgrows2.trans hlater2), htarget hlater⟩

/-- Code becomes what one renaming, that at its end, makes of it. -/
lemma Sound.code (code : List Instr) : ∃ r', Sound r' ∧ Grows r r' ∧
    List.Forall₂ (Instr.Renamed r'.GivesTemp r'.GivesLabel) code (r.code code) := by
  induction code generalizing r with
  | nil => exact ⟨r, h, .refl r, .nil⟩
  | cons i code ih =>
    obtain ⟨hsound, hgrows, hi⟩ := h.instr i
    obtain ⟨r', hsound', hgrows', hcode⟩ := ih hsound
    exact ⟨r', hsound', hgrows.trans hgrows', .cons (hi hgrows') hcode⟩

end

/-- The code whose listing is the canonical one differs from the code by a one-to-one renaming. -/
lemma exists_renamed_code (code : List Instr) : ∃ T L : String → String → Prop, Relator.BiUnique T ∧
    Relator.BiUnique L ∧ List.Forall₂ (Instr.Renamed T L) code (({} : Renaming).code code) := by
  have hempty : Numbering {} := by
    constructor
    · intro x k hx
      cases hx
    · intro x y k hx
      cases hx
  have hstart : Sound {} := ⟨hempty, hempty⟩
  obtain ⟨r, hsound, -, hcode⟩ := hstart.code code
  exact ⟨_, _, biUnique_numbered hsound.temps "t", biUnique_numbered hsound.labels "L", hcode⟩

end Renaming

/-- Canonical listings forget the names of temporaries and labels. Code whose instructions have the
arguments of their operations has a canonical listing, and so has the code with its temporaries
renamed by `f` and its labels by `g`, whatever numbers they carry; if `f` and `g` are injective on
the names that occur, the two listings are equal. They are the listing of code that differs from
both by a one-to-one renaming. -/
theorem canonical_forgets_names (code code' : List Instr) (f g : String → String)
    (hargs : ∀ i ∈ code, i.op.arity ≤ i.args.length) (hf : Set.InjOn f (tempNames code))
    (hg : Set.InjOn g (labelNames code))
    (hcode : List.Forall₂ (Instr.Renamed (RenamedBy f) (RenamedBy g)) code code') :
    ∃ lines, canonical? code = some lines ∧ canonical? code' = some lines ∧
      ∃ T L plain, Relator.BiUnique T ∧ Relator.BiUnique L ∧
      List.Forall₂ (Instr.Renamed T L) code plain ∧
        listing? plain = some lines := by
  obtain ⟨lines, hlines⟩ := exists_canonical hargs
  have hsame : canonical? code' = canonical? code :=
    canonical?_of_renamed (biUnique_renamedBy hf) (biUnique_renamedBy hg)
    (forall₂_renamed_restrict hcode)
  obtain ⟨T, L, hT, hL, hplain⟩ := Renaming.exists_renamed_code code
  exact ⟨lines, hlines, hsame.trans hlines, T, L, _, hT, hL, hplain, hlines⟩

/-- A loop that counts, with a temporary and two labels. -/
def countingCode : List Instr :=
  [.mark ⟨"_L0", 0⟩, .jumpUnless .lt (.global "i") (.const 3) ⟨"_L1", 1⟩,
    .binary .add (.temp "_t0" 0) (.global "i") (.const 1), .copy (.global "i") (.temp "_t0" 0),
    .jump ⟨"_L0", 0⟩, .mark ⟨"_L1", 1⟩]

/-- The loop with other names, two of which are exchanged, and other numbers. -/
def recountingCode : List Instr :=
  [.mark ⟨"_L1", 7⟩, .jumpUnless .lt (.global "i") (.const 3) ⟨"_L0", 7⟩,
    .binary .add (.temp "x" 4) (.global "i") (.const 1), .copy (.global "i") (.temp "x" (-1)),
    .jump ⟨"_L1", 8⟩, .mark ⟨"_L0", 9⟩]

/-- The canonical listing of the one loop, which is that of the other as well. -/
theorem canonical_recountingCode : canonical? recountingCode =
    some ["L0:", "ifFalse i < 3 goto L1", "t0 = i + 1", "i = t0", "goto L0", "L1:"] := by
  have hcounting : canonical? countingCode =
      some ["L0:", "ifFalse i < 3 goto L1", "t0 = i + 1", "i = t0", "goto L0", "L1:"] :=
      by decide +kernel
  have hargs : ∀ i ∈ countingCode, i.op.arity ≤ i.args.length := by decide
  have htemps : ∀ x ∈ tempNames countingCode, x = "_t0" := by
    rintro x ⟨i, hi, id, hx⟩
    simp only [countingCode, List.mem_cons, List.not_mem_nil, or_false] at hi
    rcases hi with rfl | rfl | rfl | rfl | rfl | rfl <;>
      simp_all [Instr.Mentions, Instr.mark, Instr.jump, Instr.jumpUnless, Instr.binary, Instr.copy]
  have hf : Set.InjOn (fun _ => "x") (tempNames countingCode) := fun x hx y hy _ =>
    (htemps x hx).trans (htemps y hy).symm
  have hg : Function.Injective (Equiv.swap "_L0" "_L1") := (Equiv.swap "_L0" "_L1").injective
  obtain ⟨lines, hlines, hlines', -⟩ :=
    canonical_forgets_names countingCode recountingCode (fun _ => "x") (Equiv.swap "_L0" "_L1")
    hargs hf hg.injOn (by
      have hfirst : RenamedBy (Equiv.swap "_L0" "_L1") "_L0" "_L1" :=
        (Equiv.swap_apply_left _ _).symm
      have hsecond : RenamedBy (Equiv.swap "_L0" "_L1") "_L1" "_L0" :=
        (Equiv.swap_apply_right _ _).symm
      refine .cons ?_ (.cons ?_ (.cons ?_ (.cons ?_ (.cons ?_ (.cons ?_ .nil)))))
      · exact ⟨rfl, .none, .nil, .none, .some hfirst⟩
      · exact ⟨rfl, .none, .nil, .some ⟨rfl, .some (.global _), .some (.const _)⟩, .some hsecond⟩
      · exact ⟨rfl, .some (.temp rfl), .cons (.some (.global _)) (.cons (.some (.const _)) .nil),
          .none, .none⟩
      · exact ⟨rfl, .some (.global _), .cons (.some (.temp rfl)) .nil, .none, .none⟩
      · exact ⟨rfl, .none, .nil, .none, .some hfirst⟩
      · exact ⟨rfl, .none, .nil, .none, .some hsecond⟩)
  rw [hlines', ← hlines, hcounting]

end ThreeAddress
