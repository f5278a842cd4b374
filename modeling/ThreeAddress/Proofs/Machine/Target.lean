import ThreeAddress.Proofs.Lowering.Regular
import ThreeAddress.Proofs.Token.Names

/-!
# What the target languages share

Both target languages are executed step by step by a function that has no result where an execution
ends or has no meaning. What is executed without jumps is put together piece by piece (`Executes`).
Both leave some quotients of words without a meaning, and in both the variables are printed with
`printf`, one line for each.
-/

namespace ThreeAddress

/-! ## Executions -/

/-- A number of steps leads from a state to another. -/
inductive Runs {σ : Type} (step : σ → Option σ) : Nat → σ → σ → Prop
  | refl {s} : Runs step 0 s s
  | step {k s s₁ s'} (hstep : step s = some s₁) (hrest : Runs step k s₁ s') : Runs step (k + 1) s s'

section Executions

variable {σ : Type} {step : σ → Option σ} {j k : Nat} {s s₁ s2 : σ}

lemma Runs.single (hstep : step s = some s₁) : Runs step 1 s s₁ := .step hstep .refl

lemma Runs.trans (h1 : Runs step j s s₁) (h2 : Runs step k s₁ s2) : Runs step (j + k) s s2 := by
  induction h1 with
  | refl => rwa [Nat.zero_add]
  | step hstep _ ih =>
    rw [Nat.add_right_comm]
    exact .step hstep (ih h2)

/-- Of two executions from one state, the shorter one is the beginning of the longer one. -/
lemma Runs.suffix (h1 : Runs step j s s₁) (h2 : Runs step (j + k) s s2) : Runs step k s₁ s2 := by
  induction h1 with
  | refl => rwa [Nat.zero_add] at h2
  | step hstep _ ih =>
    rw [Nat.add_right_comm] at h2
    cases h2 with
    | step hstep' hrest =>
      cases hstep.symm.trans hstep'
      exact ih hrest

/-- The beginning of an execution. -/
lemma Runs.take (h : Runs step (j + k) s s2) : ∃ s₁, Runs step j s s₁ := by
  induction j generalizing s with
  | zero => exact ⟨s, .refl⟩
  | succ j ih =>
    rw [Nat.add_right_comm] at h
    cases h with
    | step hstep hrest =>
      obtain ⟨s₁, hsteps⟩ := ih hrest
      exact ⟨s₁, .step hstep hsteps⟩

lemma Runs.eq_of_stuck (hstuck : step s = none) (h : Runs step k s s₁) : s₁ = s := by
  cases h with
  | refl => rfl
  | step hstep _ =>
    rw [hstuck] at hstep
    cases hstep

end Executions

/-! ## Straight code -/

/-- A piece of code that stands at the place of a state is executed, and leads to a state behind it
with a property. A place is in one of the parts of the code, and has a number there. -/
def Executes {σ κ α : Type} (step : σ → Option σ) (code : κ → List α)
    (place : σ → κ × Nat) (piece : List α) (s : σ) (Q : σ → Prop) : Prop :=
  CodeAt (code (place s).1) (place s).2 piece →
    ∃ s', Runs step piece.length s s' ∧ place s' = ((place s).1, (place s).2 + piece.length) ∧ Q s'

section Straight

variable {σ κ α : Type} {step : σ → Option σ} {code : κ → List α} {place : σ → κ × Nat}
  {c1 c2 : List α} {s : σ} {P Q : σ → Prop}

lemma executes_nil (h : Q s) : Executes step code place [] s Q := fun _ => ⟨s, .refl, rfl, h⟩

/-- A single instruction. -/
lemma executes_one {i s'} (hstep : (code (place s).1)[(place s).2]? = some i → step s = some s')
    (hplace : place s' = ((place s).1, (place s).2 + 1)) (h : Q s') :
    Executes step code place [i] s Q :=
  fun hcode => ⟨s', .single (hstep hcode.head), hplace, h⟩

lemma Executes.append (h : Executes step code place c1 s P)
    (h' : ∀ s', P s' → Executes step code place c2 s' Q) :
    Executes step code place (c1 ++ c2) s Q := by
  intro hcode
  obtain ⟨s₁, hsteps, hplace, hP⟩ := h hcode.left
  have hcode' : CodeAt (code (place s₁).1) (place s₁).2 c2 := by
    rw [hplace]
    exact hcode.right
  obtain ⟨s2, hsteps', hplace', hQ⟩ := h' s₁ hP hcode'
  refine ⟨s2, ?_, ?_, hQ⟩
  · rw [List.length_append]
    exact hsteps.trans hsteps'
  · rw [hplace', hplace, List.length_append, Nat.add_assoc]

lemma Executes.mono (h : Executes step code place c1 s P) (himp : ∀ s', P s' → Q s') :
    Executes step code place c1 s Q := by
  intro hcode
  obtain ⟨s', hsteps, hplace, hP⟩ := h hcode
  exact ⟨s', hsteps, hplace, himp s' hP⟩

end Straight

/-! ## Quotients -/

/-- Whether a quotient has no meaning. -/
def isUndefinedQuotient (x y : Int64) : Bool := y = 0 || (x = Int64.minValue && y = -1)

lemma isUndefinedQuotient_eq_false {x y} (hy : y ≠ 0) (hmin : ¬ (x = Int64.minValue ∧ y = -1)) :
    isUndefinedQuotient x y = false := by
  simpa [isUndefinedQuotient, hy] using hmin

/-! ## Printing -/

/-- A format with its one conversion replaced by a word in decimal. -/
def formatted? (w : Int64) : List Char → Option (List Char)
  | [] => some []
  | '%' :: 'l' :: 'd' :: cs => if '%' ∈ cs then none else some ((toString w.toInt).toList ++ cs)
  | c :: cs => if c = '%' then none else (formatted? w cs).map (c :: ·)

/-- The format that prints a variable. -/
def formatOf (name : String) : String := name ++ " = %ld\n"

def printedLine (name : String) (w : Int64) : String := name ++ " = " ++ toString w.toInt ++ "\n"

/-- The lines that are printed for variables with given values. -/
def printed (globals : Bindings) (names : List String) : String :=
  String.join (names.map fun x => printedLine x (storeOf globals x))

/-- Characters of a format that are printed as they are. -/
lemma formatted?_append {cs} (hcs : '%' ∉ cs) (w : Int64) (rest : List Char) :
    formatted? w (cs ++ rest) = (formatted? w rest).map (cs ++ ·) := by
  induction cs with
  | nil => simp
  | cons c cs ih =>
    rw [List.mem_cons, not_or] at hcs
    have hc : c ≠ '%' := fun h => hcs.1 h.symm
    rw [List.cons_append, formatted?.eq_3 w c (cs ++ rest) (fun _ hc' _ => hc hc'),
      if_neg hc, ih hcs.2, Option.map_map]
    rfl

/-- The format of a variable prints its line. -/
lemma formatted?_formatOf {x} (hx : Text.IsName x) (w : Int64) :
    formatted? w (formatOf x).toList = some (printedLine x w).toList := by
  have hname : '%' ∉ x.toList := fun h =>
    Text.ne_of_isWordChar (hx.isWordChar '%' h) (show Text.isWordChar '%' = false by decide) rfl
  have hsplit : (formatOf x).toList = x.toList ++ (" = ".toList ++ "%ld\n".toList) :=
    by simp [formatOf]
  have hend : formatted? w "%ld\n".toList = some ((toString w.toInt).toList ++ ['\n']) := rfl
  rw [hsplit, formatted?_append hname, formatted?_append (by decide), hend]
  simp [printedLine]

/-- The lines that are to be printed for a source text, found by running its program from nothing.
Programs with divisions are left out. -/
def printedBy? (source : List Char) (limit : Int) : Option String := do
  let p ← generatedBy? {} source
  match run p.code {} limit false, p.code.all fun i => i.op != .div && i.op != .rem with
  | .finished r, true => some (printed r.globals (p.globals.map Prod.fst))
  | _, _ => none

/-- What is found so comes from a run that finishes and never divides the least word by -1. -/
lemma exists_of_printedBy? {source limit text} (h : printedBy? source limit = some text) :
    ∃ root p r, Tree.ofSource {} 0 source = .ok root ∧
      (generate {} {} root).outcome = .ok p ∧ Machine.NeverOverflows p.code {} ∧
      run p.code {} limit false = .finished r ∧
      printed r.globals (p.globals.map Prod.fst) = text := by
  obtain ⟨p, hp, hprinted⟩ := Option.bind_eq_some_iff.mp h
  obtain ⟨root, hsource, hgenerate⟩ := exists_of_generatedBy? hp
  split at hprinted
  · rename_i r hrun hcode
    exact ⟨root, p, r, hsource, hgenerate, neverOverflows_of_code hcode {}, hrun,
      Option.some.inj hprinted⟩
  · cases hprinted

end ThreeAddress
