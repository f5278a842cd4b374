import Mathlib.Data.Set.Lattice
import Mathlib.Order.CompletePartialOrder
import ThreeAddress.Proofs.Code.Renaming
import ThreeAddress.Proofs.Lowering.Unambiguous

/-!
# Canonical listings and isomorphism

Two pieces of generated code with the same canonical listing are the same up to a one-to-one
renaming of their temporaries and of their labels (`canonical_isomorphic`). Each differs by such a
renaming from the code that its canonical listing is the listing of, and this code can be told from
its lines.

Canonical names have no underscore in front, so that a variable may have the name of a temporary. A
listing in which `t0` is a variable can then look like one in which it is a temporary
(`canonical_conflates`). This is ruled out if no variable of the one code is called like a canonical
temporary of the other.
-/

namespace ThreeAddress

open List Lowering

/-! ## Code that is renamed to the same code -/

/-- Names that correspond to the same name. -/
def Common (R R' : String → String → Prop) (x z : String) : Prop := ∃ y, R x y ∧ R' z y

/-- Names that correspond to the same name do so one to one, if both relations are one-to-one. -/
lemma biUnique_common {R R'} (hR : Relator.BiUnique R) (hR' : Relator.BiUnique R') :
    Relator.BiUnique (Common R R') := by
  constructor
  · rintro x x' z ⟨y, hxy, hzy⟩ ⟨y', hxy', hzy'⟩
    obtain rfl := hR'.2 hzy hzy'
    exact hR.1 hxy hxy'
  · rintro x z z' ⟨y, hxy, hzy⟩ ⟨y', hxy', hzy'⟩
    obtain rfl := hR.2 hxy hxy'
    exact hR'.1 hzy hzy'

section Common

variable {α β γ : Type} {A : α → γ → Prop} {B : β → γ → Prop} {C : α → β → Prop}

lemma optionRel_common (hC : ∀ a b c, A a c → B b c → C a b) {x y z} (hx : Option.Rel A x z)
    (hy : Option.Rel B y z) :
    Option.Rel C x y := by
  cases hx with
  | none =>
    cases hy
    exact .none
  | some ha =>
    cases hy with
    | some hb => exact .some (hC _ _ _ ha hb)

lemma forall₂_common (hC : ∀ a b c, A a c → B b c → C a b) {xs ys zs} (hxs : Forall₂ A xs zs)
    (hys : Forall₂ B ys zs) : Forall₂ C xs ys := by
  induction hxs generalizing ys with
  | nil =>
    cases hys
    exact .nil
  | cons ha _ ih =>
    cases hys with
    | cons hb hys => exact .cons (hC _ _ _ ha hb) (ih hys)

lemma exists_mem_of_forall₂ {xs zs} (h : Forall₂ A xs zs) {a} (ha : a ∈ xs) : ∃ c ∈ zs, A a c := by
  induction h with
  | nil => cases ha
  | cons hac _ ih =>
    rcases mem_cons.mp ha with rfl | ha
    · exact ⟨_, mem_cons_self, hac⟩
    · obtain ⟨c, hc, hac⟩ := ih ha
      exact ⟨c, mem_cons_of_mem _ hc, hac⟩

end Common

section Renamed

variable {T L T' L' : String → String → Prop} {i i' j : Instr} {code code' c : List Instr}

/-- Operands that correspond to the same operand. -/
lemma Operand.Renamed.common {v v' w : Operand} (h : v.Renamed T L w) (h' : v'.Renamed T' L' w) :
    v.Renamed (Common T T') (Common L L') v' := by
  cases h with
  | const n =>
    cases h'
    exact .const n
  | global x =>
    cases h'
    exact .global x
  | temp hx =>
    cases h' with
    | temp hz => exact .temp ⟨_, hx, hz⟩
  | label hx =>
    cases h' with
    | label hz => exact .label ⟨_, hx, hz⟩

/-- Instructions that correspond to the same instruction. -/
lemma Instr.Renamed.common (h : i.Renamed T L j) (h' : i'.Renamed T' L' j) :
    i.Renamed (Common T T') (Common L L') i' := by
  have hoperand : ∀ {v v' w : Option Operand}, Option.Rel (Operand.Renamed T L) v w →
      Option.Rel (Operand.Renamed T' L') v' w →
      Option.Rel (Operand.Renamed (Common T T') (Common L L')) v v' :=
    optionRel_common fun _ _ _ hv hv' => hv.common hv'
  refine ⟨h'.op_eq.symm.trans h.op_eq, hoperand h.result h'.result, ?_, ?_, ?_⟩
  · refine forall₂_common ?_ h.args h'.args
    exact fun _ _ _ hv hv' => hoperand hv hv'
  · refine optionRel_common (fun t t' s ht ht' => ?_) h.test h'.test
    exact ⟨ht'.op_eq.symm.trans ht.op_eq, hoperand ht.left ht'.left, hoperand ht.right ht'.right⟩
  · exact optionRel_common (fun _ _ _ hl hl' => ⟨_, hl, hl'⟩) h.target h'.target

lemma exists_of_rel_some {α β : Type} {R : α → β → Prop} {a : α} {x : Option α} {y : Option β}
    (h : Option.Rel R x y) (hx : x = some a) : ∃ b, y = some b ∧ R a b := by
  cases h with
  | none => cases hx
  | some hab => exact ⟨_, rfl, Option.some.inj hx ▸ hab⟩

/-- An operand of an instruction corresponds to one of the renamed instruction. -/
lemma Instr.Renamed.exists_mentions (h : i.Renamed T L i') {v : Operand} (hv : i.Mentions v) :
    ∃ v', v.Renamed T L v' ∧ i'.Mentions v' := by
  rcases hv with hres | harg | ⟨t, htest, hleft | hright⟩
  · obtain ⟨v', hres', hv⟩ := exists_of_rel_some h.result hres
    exact ⟨v', hv, .inl hres'⟩
  · obtain ⟨x, hx, hrel⟩ := exists_mem_of_forall₂ h.args harg
    obtain ⟨v', rfl, hv⟩ := exists_of_rel_some hrel rfl
    exact ⟨v', hv, .inr (.inl hx)⟩
  · obtain ⟨t', htest', ht⟩ := exists_of_rel_some h.test htest
    obtain ⟨v', hleft', hv⟩ := exists_of_rel_some ht.left hleft
    exact ⟨v', hv, .inr (.inr ⟨t', htest', .inl hleft'⟩)⟩
  · obtain ⟨t', htest', ht⟩ := exists_of_rel_some h.test htest
    obtain ⟨v', hright', hv⟩ := exists_of_rel_some ht.right hright
    exact ⟨v', hv, .inr (.inr ⟨t', htest', .inr hright'⟩)⟩

/-- A temporary of code corresponds to one of the renamed code. -/
lemma exists_mem_tempNames (h : Forall₂ (Instr.Renamed T L) code code') {x}
    (hx : x ∈ tempNames code) :
    ∃ y ∈ tempNames code', T x y := by
  obtain ⟨i, hi, id, hmentions⟩ := hx
  obtain ⟨i', hi', hrenamed⟩ := exists_mem_of_forall₂ h hi
  obtain ⟨v', hv', hmentions'⟩ := hrenamed.exists_mentions hmentions
  cases hv' with
  | temp hxy => exact ⟨_, ⟨i', hi', _, hmentions'⟩, hxy⟩

/-- A label of code corresponds to one of the renamed code. -/
lemma exists_mem_labelNames (h : Forall₂ (Instr.Renamed T L) code code') {x : String}
    (hx : x ∈ labelNames code) : ∃ y ∈ labelNames code', L x y := by
  obtain ⟨i, hi, l, rfl, htarget | hmentions⟩ := hx
  · obtain ⟨i', hi', hrenamed⟩ := exists_mem_of_forall₂ h hi
    obtain ⟨l', htarget', hl⟩ := exists_of_rel_some hrenamed.target htarget
    exact ⟨l'.name, ⟨i', hi', l', rfl, .inl htarget'⟩, hl⟩
  · obtain ⟨i', hi', hrenamed⟩ := exists_mem_of_forall₂ h hi
    obtain ⟨v', hv', hmentions'⟩ := hrenamed.exists_mentions hmentions
    cases hv' with
    | label hl => exact ⟨_, ⟨i', hi', _, rfl, .inr hmentions'⟩, hl⟩

/-- A one-to-one relation that leads from each of two sets to the other is a bijection between them.
-/
lemma exists_bijOn {R} (hR : Relator.BiUnique R) {xs ys} (hxs : ∀ x ∈ xs, ∃ y ∈ ys, R x y)
    (hys : ∀ y ∈ ys, ∃ x ∈ xs, R x y) : ∃ f, Set.BijOn f xs ys ∧ ∀ x ∈ xs, ∀ y, R x y →
    RenamedBy f x y := by
  choose! f hf using hxs
  refine ⟨f, ⟨fun x hx => (hf x hx).1, fun x hx x' hx' heq => ?_, fun y hy => ?_⟩,
    fun x hx y hxy => ?_⟩
  · exact hR.1 (hf x hx).2 (heq ▸ (hf x' hx').2)
  · obtain ⟨x, hx, hxy⟩ := hys y hy
    exact ⟨x, hx, hR.2 (hf x hx).2 hxy⟩
  · exact hR.2 hxy (hf x hx).2

/-- Two pieces of code that are renamed one-to-one to the same code are isomorphic. -/
lemma exists_bijections (hT : Relator.BiUnique T) (hL : Relator.BiUnique L)
    (hT' : Relator.BiUnique T') (hL' : Relator.BiUnique L') (h : Forall₂ (Instr.Renamed T L) code c)
    (h' : Forall₂ (Instr.Renamed T' L') code' c) :
    ∃ f g, Set.BijOn f (tempNames code) (tempNames code') ∧
    Set.BijOn g (labelNames code) (labelNames code') ∧
      Forall₂ (Instr.Renamed (RenamedBy f) (RenamedBy g)) code code' := by
  have hforth : Forall₂ (Instr.Renamed (Common T T') (Common L L')) code code' :=
    forall₂_common (fun _ _ _ hi hi' => hi.common hi') h h'
  have hback : Forall₂ (Instr.Renamed (Common T' T) (Common L' L)) code' code :=
    forall₂_common (fun _ _ _ hi hi' => hi.common hi') h' h
  obtain ⟨f, hf, hfR⟩ := exists_bijOn (biUnique_common hT hT')
    (fun x hx => exists_mem_tempNames hforth hx) fun y hy =>
    (exists_mem_tempNames hback hy).imp fun x ⟨hx, z, hy, hx'⟩ => ⟨hx, z, hx', hy⟩
  obtain ⟨g, hg, hgR⟩ := exists_bijOn (biUnique_common hL hL')
    (fun x hx => exists_mem_labelNames hforth hx) fun y hy =>
    (exists_mem_labelNames hback hy).imp fun x ⟨hx, z, hy, hx'⟩ => ⟨hx, z, hx', hy⟩
  refine ⟨f, g, hf, hg, (forall₂_renamed_restrict hforth).imp fun i i' hi => hi.imp ?_ ?_⟩
  · exact fun x _ y _ hxy => hfR x hxy.1 y hxy.2
  · exact fun x y _ hxy => hgR x hxy.1 y hxy.2

end Renamed

/-! ## The code of a canonical listing -/

section Canonical

variable {i : Instr} {words : List String} {code code' : List Instr} {V : Operand → Prop}

/-- An operand keeps its form; only a temporary gets another name, made from its number. -/
lemma Renaming.exists_operand (r : Renaming) {v} (hv : v.Legible "_t") :
    ∃ v', (r.operand (some v)).1 = some v' ∧ v'.Legible "t" ∧
    (v' = v ∨ ∃ x id, v' = .temp x id) := by
  cases hv with
  | const w => exact ⟨_, rfl, .const w, .inl rfl⟩
  | global hx => exact ⟨_, rfl, .global hx, .inl rfl⟩
  | temp k => exact ⟨_, rfl, .temp _, .inr ⟨_, _, rfl⟩⟩

/-- What is written with words still is when it has been renamed; the operands are other temporaries
or the same. -/
lemma Instr.Worded.exists_renamed (hV : ∀ v, V v → v.Legible "_t") (h : i.Worded V "_L" words)
    (r : Renaming) :
    ∃ words', (r.instr i).1.Worded (fun v => v.Legible "t" ∧
      (V v ∨ ∃ x id, v = .temp x id)) "L" words' := by
  have hoperand : ∀ (r : Renaming) {v : Operand}, V v → ∃ v', (r.operand (some v)).1 = some v' ∧
      (v'.Legible "t" ∧ (V v' ∨ ∃ x id, v' = .temp x id)) ∧ ∀ w, v' = .const w → v = .const w := by
    intro r v hv
    obtain ⟨v', hv', hlegible, rfl | ⟨x, id, rfl⟩⟩ := r.exists_operand (hV v hv)
    · exact ⟨v', hv', ⟨hlegible, .inl hv⟩, fun _ h => h⟩
    · exact ⟨_, hv', ⟨hlegible, .inr ⟨x, id, rfl⟩⟩, nofun⟩
  cases h with
  | @unary op dst src hop hdst hsrc hplain =>
    obtain ⟨src', hsrc', hs, hconst⟩ := hoperand r hsrc
    obtain ⟨dst', hdst', hd, -⟩ := hoperand (r.operand (some src)).2 hdst
    have heq : (r.instr (.unary op dst src)).1 = .unary op dst' src' := by
      simp only [Instr.unary, ← hsrc', ← hdst']
      rfl
    rw [heq]
    exact ⟨_, .unary hop hd hs fun hcopy w hw => hplain hcopy w (hconst w hw)⟩
  | @binary op dst left right hop hdst hleft hright =>
    obtain ⟨left', hleft', hl, -⟩ := hoperand r hleft
    obtain ⟨right', hright', hr, -⟩ := hoperand (r.operand (some left)).2 hright
    obtain ⟨dst', hdst', hd, -⟩ := hoperand ((r.operand (some left)).2.operand (some right)).2 hdst
    have heq : (r.instr (.binary op dst left right)).1 = .binary op dst' left' right' := by
      simp only [Instr.binary, ← hleft', ← hright', ← hdst']
      rfl
    rw [heq]
    exact ⟨_, .binary hop hd hl hr⟩
  | @branch op left right wanted k hop hleft hright =>
    obtain ⟨left', hleft', hl, -⟩ := hoperand r hleft
    obtain ⟨right', hright', hr, -⟩ := hoperand (r.operand (some left)).2 hright
    obtain ⟨n, heq⟩ : ∃ n : Nat,
        (r.instr (.branch wanted op left right ⟨"_L" ++ toString k, k⟩)).1 =
        .branch wanted op left' right' ⟨"L" ++ toString n, n⟩ := by
      cases wanted <;>
      · simp only [Instr.branch, Instr.jumpIf, Instr.jumpUnless, ← hleft', ← hright']
        exact ⟨_, rfl⟩
    rw [heq]
    exact ⟨_, .branch wanted n hop hl hr⟩
  | jump k => exact ⟨_, .jump _⟩
  | mark k => exact ⟨_, .mark _⟩

/-- Instructions of renamed code are renamed instructions of the code. -/
lemma Renaming.exists_of_mem_code {r : Renaming} {j} (h : j ∈ r.code code) :
    ∃ i ∈ code, ∃ r' : Renaming, j = (r'.instr i).1 := by
  induction code generalizing r with
  | nil => cases h
  | cons i code ih =>
    rcases mem_cons.mp h with rfl | h
    · exact ⟨i, mem_cons_self, r, rfl⟩
    · obtain ⟨i', hi', hj⟩ := ih h
      exact ⟨i', mem_cons_of_mem _ hi', hj⟩

/-- The operands of the code that the canonical listing of `code` lists. -/
structure Operand.Tidy (code : List Instr) (v : Operand) : Prop where
  legible : v.Legible "t"
  global : ∀ x, v = .global x → x ∈ globalNames code
  temp : ∀ x id, v = .temp x id → x ∈ tempNames (({} : Renaming).code code)

/-- What a canonical listing lists is written with words, if the code is. -/
lemma worded_canonical (h : ∀ i ∈ code, ∃ words, i.Worded (Operand.Legible "_t") "_L" words) :
    ∀ j ∈ ({} : Renaming).code code, ∃ words, j.Worded (Operand.Tidy code) "L" words := by
  intro j hj
  obtain ⟨i, hi, r, rfl⟩ := Renaming.exists_of_mem_code hj
  obtain ⟨words, hwords⟩ := h i hi
  have hmentioned : i.Worded (fun v => v.Legible "_t" ∧ i.Mentions v) "_L" words :=
    hwords.imp fun v hv hlegible => ⟨hlegible, hv⟩
  obtain ⟨words', hwords'⟩ := hmentioned.exists_renamed (fun v hv => hv.1) r
  refine ⟨words', hwords'.imp fun v hv hlegible => ⟨hlegible.1, ?_, ?_⟩⟩
  · rintro x rfl
    rcases hlegible.2 with hkept | ⟨_, _, htemp⟩
    · exact ⟨i, hi, hkept.2⟩
    · cases htemp
  · rintro x id rfl
    exact ⟨_, hj, id, hv⟩

/-- Code can be told from canonical lines, if no variable of the one is called like a temporary of
the other. -/
lemma told_tidy (h : Disjoint (globalNames code) (tempNames (({} : Renaming).code code')))
    (h' : Disjoint (globalNames code') (tempNames (({} : Renaming).code code))) :
    Operand.Told "t" (Operand.Tidy code) (Operand.Tidy code') where
  isTag := ⟨by simp [Text.IsSolid], 't', rfl, by decide⟩
  legible hv := hv.legible
  legible' hv := hv.legible
  apart hx ht := Set.disjoint_left.mp h (hx.global _ rfl) (ht.temp _ _ rfl)
  apart' hx ht := Set.disjoint_left.mp h' (hx.global _ rfl) (ht.temp _ _ rfl)

/-- Code that is written with words and has the same canonical listing is isomorphic. -/
lemma isomorphic_of_canonical (h : ∀ i ∈ code, ∃ words, i.Worded (Operand.Legible "_t") "_L" words)
    (h' : ∀ i ∈ code', ∃ words, i.Worded (Operand.Legible "_t") "_L" words)
    (hV : Operand.Told "t" (Operand.Tidy code) (Operand.Tidy code'))
    (heq : canonical? code = canonical? code') :
    (∃ lines, canonical? code = some lines) ∧
      ∃ f g, Set.BijOn f (tempNames code) (tempNames code') ∧
      Set.BijOn g (labelNames code) (labelNames code') ∧
        Forall₂ (Instr.Renamed (RenamedBy f) (RenamedBy g)) code code' := by
  have hlabel : Text.IsSolid "L" := by simp [Text.IsSolid]
  obtain ⟨lines, hlines, -⟩ := exists_lines (fun hv => (hV.legible hv).isSolid hV.isTag) hlabel
    (worded_canonical h)
  have hcanonical : canonical? code = some lines := listing?_eq_some_iff.mpr hlines
  have hlines' := listing?_eq_some_iff.mp (heq.symm.trans hcanonical)
  have hsame := eq_of_lines hV hlabel (worded_canonical h) (worded_canonical h') hlines hlines'
  obtain ⟨T, L, hT, hL, hrenamed⟩ := Renaming.exists_renamed_code code
  obtain ⟨T', L', hT', hL', hrenamed'⟩ := Renaming.exists_renamed_code code'
  rw [hsame] at hrenamed
  exact ⟨⟨lines, hcanonical⟩, exists_bijections hT hL hT' hL' hrenamed hrenamed'⟩

end Canonical

/-! ## Programs -/

/-- Canonical listings that compare equal come from isomorphic programs, unless a variable of one
program is called like a canonical temporary of the other. A bijection between the temporaries of
the two programs and one between their labels turn the code of the one into that of the other. -/
theorem canonical_isomorphic {settings settings' : Settings} {file file' : Int}
    {source source' : List Char} {root root' : Tree} {state state' : LowerState} {p p' : Program}
    (hsource : Tree.ofSource settings file source = .ok root)
    (hgenerate : (generate settings state root).outcome = .ok p)
    (hsource' : Tree.ofSource settings' file' source' = .ok root')
    (hgenerate' : (generate settings' state' root').outcome = .ok p')
    (hapart : Disjoint (globalNames p.code) (tempNames (({} : Renaming).code p'.code)))
    (hapart' : Disjoint (globalNames p'.code) (tempNames (({} : Renaming).code p.code)))
    (hcanonical : canonical? p.code = canonical? p'.code) :
    (∃ lines, canonical? p.code = some lines) ∧
      ∃ f g, Set.BijOn f (tempNames p.code) (tempNames p'.code) ∧
        Set.BijOn g (labelNames p.code) (labelNames p'.code) ∧
          List.Forall₂ (Instr.Renamed (RenamedBy f) (RenamedBy g)) p.code p'.code :=
  isomorphic_of_canonical (worded_of_source hsource hgenerate)
    (worded_of_source hsource' hgenerate') (told_tidy hapart hapart') hcanonical

/-- A `switch` without clauses, which copies its scrutinee to a temporary. -/
def bareSwitch : List Char := "num x; switch (x) {}".toList

/-- The code of the `switch`, with a temporary and a label of the given number. -/
def bareSwitchCode (k : Nat) : List Instr :=
  [.copy (tempOf k) (.global "x"), .jump (labelOf k), .mark (labelOf k)]

/-- The `switch` is generated twice, the second time with other names. The canonical listings are
the same, and bijections lead from the one program to the other. -/
theorem bareSwitch_isomorphic : ∃ root root' p p', Tree.ofSource {} 0 bareSwitch = .ok root ∧
    (generate {} {} root).outcome = .ok p ∧ Tree.ofSource {} 0 bareSwitch = .ok root' ∧
    (generate {} { names := ⟨1, 1⟩ } root').outcome = .ok p' ∧ p.code = bareSwitchCode 0 ∧
    p'.code = bareSwitchCode 1 ∧
    ∃ f g, Set.BijOn f (tempNames p.code) (tempNames p'.code) ∧
    Set.BijOn g (labelNames p.code) (labelNames p'.code) ∧
      List.Forall₂ (Instr.Renamed (RenamedBy f) (RenamedBy g)) p.code p'.code := by
  have hfirst : (generatedBy? {} bareSwitch).map Program.code = some (bareSwitchCode 0) :=
    by decide +kernel
  have hsecond : (generatedBy? { names := ⟨1, 1⟩ } bareSwitch).map Program.code =
      some (bareSwitchCode 1) := by
    decide +kernel
  obtain ⟨p, hp, hcode⟩ := Option.map_eq_some_iff.mp hfirst
  obtain ⟨p', hp', hcode'⟩ := Option.map_eq_some_iff.mp hsecond
  obtain ⟨root, hsource, hgenerate⟩ := exists_of_generatedBy? hp
  obtain ⟨root', hsource', hgenerate'⟩ := exists_of_generatedBy? hp'
  have hplain : ∀ k ∈ [0, 1], ({} : Renaming).code (bareSwitchCode k) =
      [.copy (.temp "t0" 0) (.global "x"), .jump ⟨"L0", 0⟩, .mark ⟨"L0", 0⟩] := by decide +kernel
  have hapart : ∀ j, ∀ k ∈ [0, 1], Disjoint (globalNames (bareSwitchCode j))
      (tempNames (({} : Renaming).code (bareSwitchCode k))) := by
    intro j k hk
    rw [hplain k hk, Set.disjoint_left]
    rintro x ⟨i, hi, hx⟩ ⟨i', hi', id, hx'⟩
    simp only [bareSwitchCode, List.mem_cons, List.not_mem_nil, or_false] at hi hi'
    rcases hi with rfl | rfl | rfl <;> rcases hi' with rfl | rfl | rfl <;>
      simp_all [Instr.Mentions, Instr.copy, Instr.jump, Instr.mark, tempOf]
  have hcanonical : canonical? p.code = canonical? p'.code := by
    rw [canonical?, canonical?, hcode, hcode', hplain 0 (by decide), hplain 1 (by decide)]
  have hisomorphic := canonical_isomorphic hsource hgenerate hsource' hgenerate'
    (by rw [hcode, hcode']; exact hapart 0 1 (by decide))
    (by rw [hcode, hcode']; exact hapart 1 0 (by decide))
    hcanonical
  exact ⟨root, root', p, p', hsource, hgenerate, hsource', hgenerate', hcode, hcode', hisomorphic.2⟩

/-- The `switch` in a program that declares a variable `t0`. -/
def clashingSwitch : List Char := "num t0, x; switch (x) {}".toList

/-- A program that assigns to `t0` where the other one assigns to a temporary. -/
def clashingCopy : List Char := "num t0, x; t0 = x; if (false) ;".toList

/-- Two programs that declare the same variables and have the same canonical listing are not
isomorphic: what is a temporary in the one is the variable `t0` in the other. -/
theorem canonical_conflates : ∃ root root' p p', Tree.ofSource {} 0 clashingSwitch = .ok root ∧
    (generate {} {} root).outcome = .ok p ∧ Tree.ofSource {} 0 clashingCopy = .ok root' ∧
    (generate {} {} root').outcome = .ok p' ∧ p.globals = p'.globals ∧
    canonical? p.code = some ["t0 = x", "goto L0", "L0:"] ∧ canonical? p'.code = canonical? p.code ∧
    ∀ T L, ¬ List.Forall₂ (Instr.Renamed T L) p.code p'.code := by
  have hswitch : (generatedBy? {} clashingSwitch).map (fun p => (p.globals, p.code)) =
      some ([("t0", .num), ("x", .num)], bareSwitchCode 0) := by decide +kernel
  have hcopy : (generatedBy? {} clashingCopy).map (fun p => (p.globals, p.code)) =
      some ([("t0", .num), ("x", .num)],
        [.copy (.global "t0") (.global "x"), .jump (labelOf 0), .mark (labelOf 0)]) :=
        by decide +kernel
  obtain ⟨p, hp, hparts⟩ := Option.map_eq_some_iff.mp hswitch
  obtain ⟨p', hp', hparts'⟩ := Option.map_eq_some_iff.mp hcopy
  obtain ⟨hglobals, hcode⟩ := Prod.mk.inj hparts
  obtain ⟨hglobals', hcode'⟩ := Prod.mk.inj hparts'
  obtain ⟨root, hsource, hgenerate⟩ := exists_of_generatedBy? hp
  obtain ⟨root', hsource', hgenerate'⟩ := exists_of_generatedBy? hp'
  have hlines : canonical? p.code = some ["t0 = x", "goto L0", "L0:"] := by
    rw [hcode]
    decide +kernel
  have hlines' : canonical? p'.code = some ["t0 = x", "goto L0", "L0:"] := by
    rw [hcode']
    decide +kernel
  refine ⟨root, root', p, p', hsource, hgenerate, hsource', hgenerate',
    hglobals.trans hglobals'.symm, hlines, hlines'.trans hlines.symm, fun T L hrenamed => ?_⟩
  rw [hcode, hcode'] at hrenamed
  cases hrenamed with
  | cons hi _ =>
    -- The first results are a temporary and a variable.
    cases hi.result with
    | some hv => cases hv

end ThreeAddress
