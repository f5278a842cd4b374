import ThreeAddress.Proofs.Code.Canonical
import ThreeAddress.Proofs.Code.Listing
import ThreeAddress.Proofs.Lowering.Comparison

/-!
# Lowering from any state

What earlier calls leave behind matters only for the numbers of the minted names. Lowering a program
from any state gives what it gives from the first one, with every temporary and label moved on by
the numbers of those minted before; so the canonical listing does not depend on the state at all.
-/

namespace ThreeAddress

open Lowering

/-! ## Shifted code -/

/-- Two runs of which the second starts when more names have been minted. -/
def Comparison.shifted (settings : Settings) (n : Names) : Comparison settings settings where
  ahead := n
  Cited _ := True
  gaps := True
  Code c c' := c' = c.map (Instr.shift n)
  code_nil := rfl
  code_append hc hd := by rw [hc, hd, List.map_append]
  code_emit _ := rfl
  code_selfCopy x := by
    unfold selfCopy
    split <;> rfl

/-- Outcomes without a result that correspond are the same. -/
lemma Comparison.Outcomes.eq {settings settings' : Settings} {C : Comparison settings settings'}
    {Q : Unit → Unit → Prop} {x y : Except Stop Unit} (h : C.Outcomes Q x y) : y = x := by
  cases h with
  | ok | fault | incomplete => rfl

/-- Two names that are minted one some numbers after the other. -/
def MintedLater (mint : Nat → String) (ahead : Nat) (name name' : String) : Prop :=
  ∃ k, name = mint k ∧ name' = mint (k + ahead)

/-- Such names correspond one to one, if no name is minted twice. -/
lemma biUnique_mintedLater {mint} (hmint : ∀ j k, mint j = mint k → j = k) (ahead : Nat) :
    Relator.BiUnique (MintedLater mint ahead) := by
  constructor
  · rintro a b c ⟨j, rfl, rfl⟩ ⟨k, rfl, hk⟩
    have hjk := hmint _ _ hk
    rw [Nat.add_right_cancel hjk]
  · rintro a b c ⟨j, rfl, rfl⟩ ⟨k, hk, rfl⟩
    rw [hmint _ _ hk]

section Renamed

variable {b n : Names} (ahead : Names)

lemma Label.Within.renamed {l : Label} (hl : l.Within b n) :
    MintedLater (fun k => (labelOf k).name) ahead.labels l.name (l.shift ahead).name := by
  obtain ⟨k, -, -, rfl⟩ := hl
  exact ⟨k, rfl, rfl⟩

/-- The shift of an operand with a minted name is a renaming. -/
lemma Operand.Within.renamed {v} (hv : v.Within b n) :
    Operand.Renamed (MintedLater (fun k => "_t" ++ toString k) ahead.temps)
      (MintedLater (fun k => (labelOf k).name) ahead.labels) v (v.shift ahead) := by
  cases hv with
  | const w => exact .const w
  | global x => exact .global x
  | @temp k => exact .temp ⟨k, rfl, rfl⟩

/-- The shift of an instruction with minted names is a renaming. -/
lemma Instr.Within.renamed {i : Instr} (hi : i.Within b n) :
    Instr.Renamed (MintedLater (fun k => "_t" ++ toString k) ahead.temps)
      (MintedLater (fun k => (labelOf k).name) ahead.labels) i (i.shift ahead) := by
  cases hi with
  | copy hdst hsrc | neg hdst hsrc =>
    exact ⟨rfl, .some (hdst.renamed ahead), .cons (.some (hsrc.renamed ahead)) .nil, .none, .none⟩
  | binary _ hdst hleft hright =>
    exact ⟨rfl, .some (hdst.renamed ahead),
      .cons (.some (hleft.renamed ahead)) (.cons (.some (hright.renamed ahead)) .nil), .none, .none⟩
  | jumpIf hleft hright hl | jumpUnless hleft hright hl =>
    exact ⟨rfl, .none, .nil, .some ⟨rfl, .some (hleft.renamed ahead), .some (hright.renamed ahead)⟩,
      .some (hl.renamed ahead)⟩
  | jump hl | mark hl => exact ⟨rfl, .none, .nil, .none, .some (hl.renamed ahead)⟩

/-- The canonical listing of code with minted names does not change when the names are shifted. -/
lemma canonical?_map_shift {code} (hcode : ∀ i ∈ code, i.Within b n) :
    canonical? (code.map (Instr.shift ahead)) = canonical? code := by
  refine canonical?_of_renamed (biUnique_mintedLater (fun j k h => tempOf_name_inj h) ahead.temps)
    (biUnique_mintedLater (fun j k h => labelOf_name_inj h) ahead.labels) ?_
  rw [List.forall₂_map_right_iff, List.forall₂_same]
  exact fun i hi => (hcode i hi).renamed ahead

/-- An instruction with minted names has the arguments of its operation. -/
lemma Instr.Within.arity_le {i : Instr} (hi : i.Within b n) : i.op.arity ≤ i.args.length := by
  cases hi with
  | copy | neg => exact le_rfl
  | @binary op _ _ _ hop => cases op <;> first | exact le_rfl | cases hop
  | jumpIf | jumpUnless | jump | mark => exact le_rfl

end Renamed

/-! ## Programs -/

/-- Lowering a program from any state does what it does from the first one, with the minted names
shifted by the numbers of those minted before: it succeeds or fails alike, with the same notes and
the same symbols, emits the same code up to that shift, and mints as many names. The canonical
listing of what it emits is the same from any two states. -/
theorem lower_equivariant (settings : Settings) (token : Token) (value : String)
    (ops : List TokenKind) (children : List Tree) (s : LowerState) :
    let fresh := lower settings (.node .program token value ops children) {}
    let later := lower settings (.node .program token value ops children) s
    later.outcome = fresh.outcome ∧ later.code = fresh.code.map (Instr.shift s.names) ∧
      later.notes = fresh.notes ∧ later.state.symbols = fresh.state.symbols ∧
      later.state.names.temps = fresh.state.names.temps + s.names.temps ∧
      later.state.names.labels = fresh.state.names.labels + s.names.labels ∧
      ∀ s' : LowerState, ∃ lines, canonical? later.code = some lines ∧
        canonical? (lower settings (.node .program token value ops children) s').code =
        some lines := by
  intro fresh later
  have hresults : ∀ s : LowerState, (Comparison.shifted settings s.names).Results
      (fun _ _ => True) () fresh (lower settings (.node .program token value ops children) s) :=
      fun s =>
    Comparison.results_lower (C := .shifted settings s.names) (Tree.admitted_all _)
      (Nat.zero_add _).symm (Nat.zero_add _).symm
  have hwithin := (lower_within settings (.node .program token value ops children) {}).2
  obtain ⟨lines, hlines⟩ := exists_canonical fun i hi => (hwithin i hi).arity_le
  have hcanonical : ∀ s : LowerState,
      canonical? (lower settings (.node .program token value ops children) s).code =
      some lines := by
    intro s
    have hcode : (lower settings (.node .program token value ops children) s).code =
        fresh.code.map (Instr.shift s.names) := (hresults s).code
    rw [hcode, canonical?_map_shift s.names hwithin, hlines]
  obtain ⟨houtcomes, hcode, hnotes, -, -, hsymbols, -, htemps, hlabels⟩ := hresults s
  refine ⟨?_, hcode, hnotes, hsymbols, htemps, hlabels, fun s' =>
    ⟨lines, hcanonical s, hcanonical s'⟩⟩
  exact houtcomes.eq

end ThreeAddress
