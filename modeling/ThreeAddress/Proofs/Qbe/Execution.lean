import ThreeAddress.Proofs.Qbe.Selection

/-!
# Execution of selected lines

A state of the language agrees with a state of the machine if the data words hold the values of the
declared variables, the temporaries of the code have the values that they have in the machine, and
nothing is printed yet. The lines that load operands only assign scratch temporaries with new
numbers, so agreement is kept; the lines that assign a result do in the state what the machine does
with the result.
-/

namespace ThreeAddress

open List Lowering

variable {lines : List Line} {names : List String} {m' : Machine} {last last' : Nat}

/-! ## Executions of the language -/

namespace Il.Module

section Runs

variable {m : Il.Module} {k : Nat} {s s1 : State}

lemma runs_line {l} (hline : m.body[s.next]? = some l) (hexec : l.exec m s = some s1) :
    Runs m.step 1 s s1 := by
  refine .single ?_
  unfold step
  rwa [hline]

lemma runsForever_of_lasting (h : ∀ n, ∃ k s', n ≤ k ∧ Runs m.step k m.start s') :
    m.RunsForever := by
  intro n
  obtain ⟨k, s', hle, hsteps⟩ := h n
  obtain ⟨rest, rfl⟩ := Nat.exists_eq_add_of_le hle
  exact hsteps.take

/-- A line that returns is the last one. -/
lemma step_eq_none_of_returned? {w} (h : m.returned? s = some w) : m.step s = none := by
  unfold returned? at h
  unfold step
  cases hline : m.body[s.next]? with
  | none => rfl
  | some l =>
    rw [hline] at h
    cases l with
    | ret v => rfl
    | _ => cases h

/-- A function that returns has nothing to execute any more when it gets to a state from which it
cannot go on. -/
lemma Returns.eq_of_stuck {w output} (h : m.Returns w output) (hsteps : Runs m.step k m.start s)
    (hstuck : m.step s = none) : m.returned? s = some w := by
  obtain ⟨j, s', hsteps', hreturned, -⟩ := h
  have hend := step_eq_none_of_returned? hreturned
  rcases Nat.le_total j k with hle | hle
  · obtain ⟨n, rfl⟩ := Nat.exists_eq_add_of_le hle
    obtain rfl := (hsteps'.suffix hsteps).eq_of_stuck hend
    exact hreturned
  · obtain ⟨n, rfl⟩ := Nat.exists_eq_add_of_le hle
    obtain rfl := (hsteps.suffix hsteps').eq_of_stuck hstuck
    exact hreturned

/-- A function that runs forever does not return. -/
lemma RunsForever.not_returns (h : m.RunsForever) (w : Int64) (output : String) :
    ¬ m.Returns w output := by
  rintro ⟨j, s', hsteps, hreturned, -⟩
  obtain ⟨s, hlonger⟩ := h (j + 1)
  cases hsteps.suffix hlonger with
  | step hstep _ =>
    rw [step_eq_none_of_returned? hreturned] at hstep
    cases hstep

end Runs

/-- A label is found at the place where it stands. -/
lemma place?_eq {m : Module} {place l} (hvalid : m.Valid) (h : m.body[place]? = some (.label l)) :
    m.place? l = some place := by
  have hnodup := hvalid.labels
  unfold place?
  generalize m.body = body at h hnodup
  induction body generalizing place with
  | nil => cases h
  | cons line body ih =>
    cases place with
    | zero =>
      cases h
      rw [findIdx?_cons, decide_eq_true rfl]
      rfl
    | succ place =>
      have hmem : .label l ∈ body := mem_of_getElem? h
      have hline : line ≠ .label l := by
        rintro rfl
        have hcons : (l :: body.filterMap Line.label?).Nodup := hnodup
        exact (nodup_cons.mp hcons).1 (mem_filterMap.mpr ⟨_, hmem, rfl⟩)
      have hrest : (body.filterMap Line.label?).Nodup := by
        rw [← singleton_append, filterMap_append] at hnodup
        exact hnodup.of_append_right
      rw [findIdx?_cons, ih h hrest]
      simp [hline]

end Il.Module

namespace Qbe

/-! ## The places of instructions -/

/-- The place of the lines for the instruction at an index. -/
def placeOf (code : List Instr) (j : Nat) : Nat :=
  match selectAll {} (code.take j) with
  | .ok (lines, _) => lines.length + 1
  | .error _ => 0

/-- A module of the language is made from a regular program: `s` is the state behind the lines for
its code. -/
structure Compiled (p : Program) (s : State) (il : Il.Module) : Prop where
  regular : p.Regular
  valid : il.Valid
  selected : ∃ lines, selectAll {} p.code = .ok (lines, s) ∧ il = (moduleOf p lines s).il

section Layout

variable {p : Program} {s : State} {il : Il.Module}

/-- Lines for code in two parts are those for the first and then those for the second. -/
lemma selectAll_append (s : State) (c1 c2 : List Instr) : selectAll s (c1 ++ c2) = (do
    let (l1, s1) ← selectAll s c1
    let (l2, s2) ← selectAll s1 c2
    return (l1 ++ l2, s2)) := by
  induction c1 generalizing s with
  | nil =>
    show selectAll s c2 = selectAll s c2 >>= _
    cases selectAll s c2 <;> rfl
  | cons i c1 ih => simp [selectAll, ih]

lemma placeOf_eq {code j} (h : selectAll {} (code.take j) = .ok (lines, s)) :
    placeOf code j = lines.length + 1 := by
  rw [placeOf, h]

/-- The lines of an instruction stand at its place, and those of the next instruction behind them.
-/
lemma Compiled.codeAt_placeOf (h : Compiled p s il) {j i} (hi : p.code[j]? = some i) :
    ∃ s1 li s2, select s1 i = .ok (li, s2) ∧ Selected (p.globals.map Prod.fst) s1 i li s2 ∧
      CodeAt il.body (placeOf p.code j) (li.map Line.il) ∧
      placeOf p.code (j + 1) = placeOf p.code j + li.length := by
  obtain ⟨lines, hlines, rfl⟩ := h.selected
  obtain ⟨hj, rfl⟩ := List.getElem?_eq_some_iff.mp hi
  rw [← take_append_drop j p.code, drop_eq_getElem_cons hj, selectAll_append] at hlines
  obtain ⟨⟨front, s1⟩, hfront, hlines⟩ := bind_eq_ok hlines
  obtain ⟨⟨back, s'⟩, hback, hlines⟩ := bind_eq_ok hlines
  cases hlines
  obtain ⟨li, s2, hselect, hselected⟩ := exists_selected (h.regular.forms _ (getElem_mem hj)) s1
  obtain ⟨_, hone, hback⟩ := bind_eq_ok hback
  cases hselect.symm.trans hone
  obtain ⟨⟨rest, s''⟩, -, hback⟩ := bind_eq_ok hback
  cases hback
  have hnext : selectAll {} (p.code.take (j + 1)) = .ok (front ++ li, s2) := by
    rw [take_succ_eq_append_getElem hj, selectAll_append, hfront]
    simp [selectAll, hselect, bind, Except.bind, pure, Except.pure]
  refine ⟨s1, li, s2, hselect, hselected, ?_, ?_⟩
  · have hbody : (moduleOf p (front ++ (li ++ rest)) s).il.body =
        (Line.block .start :: front).map Line.il ++ (li.map Line.il ++
          (rest ++ endLines s (p.globals.map Prod.fst)).map Line.il) := by
      simp [moduleOf, Module.il]
    have hself := (CodeAt.self (moduleOf p (front ++ (li ++ rest)) s).il.body)
    rw [hbody] at hself ⊢
    refine hself.right.left.at_place ?_
    rw [placeOf_eq hfront, length_map, length_cons, Nat.zero_add]
  · rw [placeOf_eq hfront, placeOf_eq hnext, length_append]
    omega

/-- The lines behind those of the code stand at the place behind the last instruction. -/
lemma Compiled.codeAt_endLines (h : Compiled p s il) : CodeAt il.body (placeOf p.code p.code.length)
    ((endLines s (p.globals.map Prod.fst)).map Line.il) := by
  obtain ⟨lines, hlines, rfl⟩ := h.selected
  have hbody : (moduleOf p lines s).il.body = (Line.block .start :: lines).map Line.il ++
      (endLines s (p.globals.map Prod.fst)).map Line.il := by
    simp [moduleOf, Module.il]
  have hself := CodeAt.self (moduleOf p lines s).il.body
  rw [hbody] at hself ⊢
  refine hself.right.at_place ?_
  rw [placeOf_eq (by rwa [take_length]), length_map, length_cons, Nat.zero_add]

end Layout

/-! ## Agreement -/

/-- A state of the language agrees with a state of the machine. -/
structure Agrees (names : List String) (m : Machine) (s : Il.State) : Prop where
  memory : ∀ x ∈ names, s.memory (variableSymbol x) = some (storeOf m.globals x)
  temps : ∀ (k : Nat) w, m.read (some (tempOf k)) = .ok w → s.temps (Register.temp k).name = some w
  output : s.output = []

/-- Scratch temporaries up to a number, and those of the code. -/
def Register.Below (last : Nat) : Register → Prop
  | temp _ => True
  | scratch n => n ≤ last

/-- A value that depends on such temporaries only. -/
def Value.Below (last : Nat) : Value → Prop
  | const _ => True
  | register r => r.Below last

/-- From a state to another, only scratch temporaries with higher numbers have been assigned. -/
structure Fresh (last : Nat) (s s' : Il.State) : Prop where
  memory : s'.memory = s.memory
  temps : ∀ r : Register, r.Below last → s'.temps r.name = s.temps r.name
  output : s'.output = s.output

section Agreement

variable {m : Machine} {s s1 s' : Il.State}

lemma Fresh.refl : Fresh last s s := ⟨rfl, fun _ _ => rfl, rfl⟩

/-- The scratch temporary with the next number has been assigned. -/
lemma Fresh.set_scratch {n w} :
    Fresh last s { s with
      next := n, temps := Il.set s.temps (Register.scratch (last + 1)).name w } where
  memory := rfl
  temps r hr := by
    have hne : r.name ≠ (Register.scratch (last + 1)).name := by
      intro h
      obtain rfl := Register.name_inj h
      exact absurd hr (Nat.not_succ_le_self last)
    simp [Il.set, hne]
  output := rfl

lemma Register.Below.mono {r : Register} (h : r.Below last) (hle : last ≤ last') :
    r.Below last' := by
  cases r with
  | temp id => trivial
  | scratch n => exact le_trans h hle

/-- What is assigned later has higher numbers. -/
lemma Fresh.trans (h1 : Fresh last s s1) (h2 : Fresh last' s1 s') (hle : last ≤ last') :
    Fresh last s s' where
  memory := h2.memory.trans h1.memory
  temps r hr := (h2.temps r (hr.mono hle)).trans (h1.temps r hr)
  output := h2.output.trans h1.output

lemma Fresh.value? {v : Value} (h : Fresh last s s') (hv : v.Below last) :
    s'.value? v.il = s.value? v.il := by
  cases v with
  | const w => rfl
  | register r => exact h.temps r hv

lemma Fresh.agrees (h : Fresh last s s') (hm : Agrees names m s) : Agrees names m s' where
  memory x hx := by
    rw [h.memory]
    exact hm.memory x hx
  temps k w hw := (h.temps (.temp k) trivial).trans (hm.temps k w hw)
  output := h.output.trans hm.output

lemma Agrees.at {n n'} (h : Agrees names m s) :
    Agrees names { m with next := n } { s with next := n' } where
  memory := h.memory
  temps := h.temps
  output := h.output

/-- A variable that is given a value in both states. -/
lemma Agrees.insert_global {x w} (h : Agrees names m s) :
    Agrees names { m with globals := m.globals.insert x w }
      { s with memory := Il.set s.memory (variableSymbol x) w } where
  memory y hy := by
    show Il.set s.memory (variableSymbol x) w (variableSymbol y) = _
    rw [Il.set, storeOf, Std.TreeMap.getElem?_insert]
    by_cases hxy : x = y
    · simp [hxy]
    · have hsymbol : variableSymbol y ≠ variableSymbol x := fun h =>
        hxy ((String.append_right_inj _).mp h).symm
      rw [if_neg hsymbol, h.memory y hy, if_neg (by simpa using hxy)]
      rfl
  temps := h.temps
  output := h.output

/-- A temporary that is given a value in both states. -/
lemma Agrees.insert_temp {k : Nat} {w : Int64} (h : Agrees names m s) :
    Agrees names { m with temps := m.temps.insert ("_t" ++ toString k) w }
      { s with temps := Il.set s.temps (Register.temp k).name w } where
  memory := h.memory
  temps j w' hw' := by
    show Il.set s.temps (Register.temp k).name w (Register.temp j).name = some w'
    rw [Il.set]
    simp only [Machine.read, tempOf, Std.TreeMap.getElem?_insert] at hw'
    by_cases hjk : j = k
    · subst hjk
      simpa using hw'
    · have hname : (Register.temp j).name ≠ (Register.temp k).name := fun h =>
        hjk (Int.ofNat.inj (Register.temp.inj (Register.name_inj h)))
      have hkey : "_t" ++ toString k ≠ "_t" ++ toString j := fun h => hjk (tempOf_name_inj h).symm
      rw [if_neg hname]
      rw [if_neg (by simpa using hkey)] at hw'
      exact h.temps j w' hw'
  output := h.output

end Agreement

/-! ## Straight lines -/

/-- Lines that stand at the place of a state are executed one after the other, and lead to a state
with a property. -/
def Executes (il : Il.Module) (lines : List Line) (s : Il.State) (Q : Il.State → Prop) : Prop :=
  ThreeAddress.Executes il.step (fun _ : Unit => il.body) (fun s => ((), s.next))
    (lines.map Line.il) s Q

section Straight

variable {il : Il.Module} {m : Machine} {s : Il.State} {last'' : Nat} {load load' : List Line}
  {value value' : Value} {x y w : Int64} {P Q : Il.State → Prop}

/-- The execution of lines that stand at the place of a state. -/
lemma Executes.run (h : Executes il lines s Q) (hcode : CodeAt il.body s.next (lines.map Line.il)) :
    ∃ s', Runs il.step lines.length s s' ∧ s'.next = s.next + lines.length ∧ Q s' := by
  obtain ⟨s', hsteps, hplace, hQ⟩ := h hcode
  rw [length_map] at hsteps hplace
  exact ⟨s', hsteps, (Prod.mk.inj hplace).2, hQ⟩

lemma executes_nil (h : Q s) : Executes il [] s Q := ThreeAddress.executes_nil h

lemma executes_line {l s'} (hexec : l.il.exec il s = some s') (hnext : s'.next = s.next + 1)
    (h : Q s') :
    Executes il [l] s Q := by
  refine executes_one (fun hline => ?_) (congrArg (Prod.mk ()) hnext) h
  unfold Il.Module.step
  rwa [hline]

lemma Executes.append (h : Executes il load s P) (h' : ∀ s', P s' → Executes il load' s' Q) :
    Executes il (load ++ load') s Q := by
  unfold Executes
  rw [map_append]
  exact ThreeAddress.Executes.append h h'

lemma Executes.mono (h : Executes il lines s P) (himp : ∀ s', P s' → Q s') :
    Executes il lines s Q :=
  ThreeAddress.Executes.mono h himp

/-- The label that opens a block is passed. -/
lemma open_executes (s1 : State) (hm : Agrees names m s) :
    Executes il (open? s1).1 s (Agrees names m) := by
  obtain ⟨last, inBlock⟩ := s1
  cases inBlock with
  | true => exact executes_nil hm
  | false => exact executes_line rfl rfl ⟨hm.memory, hm.temps, hm.output⟩

/-- The lines that load an operand give its value. -/
lemma Loaded.executes {v} (h : Loaded names last v load value last') (hm : Agrees names m s)
    (hread : m.read (some v) = .ok x) :
    Executes il load s fun s' => Fresh last s s' ∧ s'.value? value.il = some x ∧
    value.Below last' ∧ last ≤ last' := by
  cases h with
  | const w => exact executes_nil ⟨.refl, congrArg some (Except.ok.inj hread), trivial, le_refl _⟩
  | temp k => exact executes_nil ⟨.refl, hm.temps k x hread, trivial, le_refl _⟩
  | @global name hname =>
    have hx : storeOf m.globals name = x := Except.ok.inj hread
    have hexec : (Line.load (last + 1) name).il.exec il s = some { s with
        next := s.next + 1, temps := Il.set s.temps (Register.scratch (last + 1)).name x } := by
      simp [Line.il, Il.Line.exec, hm.memory name hname, hx]
    refine executes_line hexec rfl ⟨.set_scratch, ?_, le_refl _, Nat.le_succ _⟩
    simp [Value.il, Il.State.value?, Il.set]

/-- The lines that load two operands give their values. -/
lemma Loaded.execute_two {left right} (hleft : Loaded names last left load value last')
    (hright : Loaded names last' right load' value' last'') (hm : Agrees names m s)
    (hx : m.read (some left) = .ok x) (hy : m.read (some right) = .ok y) :
    Executes il (load ++ load') s fun s' =>
      Agrees names m s' ∧ s'.value? value.il = some x ∧ s'.value? value'.il = some y := by
  refine (hleft.executes hm hx).append ?_
  rintro s1 ⟨hfresh1, hval, hbelow, hle⟩
  refine (hright.executes (hfresh1.agrees hm) hy).mono ?_
  rintro s2 ⟨hfresh2, hval', -, -⟩
  refine ⟨(hfresh1.trans hfresh2 hle).agrees hm, ?_, hval'⟩
  rw [hfresh2.value? hbelow, hval]

/-- The lines that assign a result do what the machine does with it. -/
lemma Assigned.executes {dst op args xs} (h : Assigned names last op args dst lines last')
    (hm : Agrees names m s) (hargs : s.values? (args.map Value.il) = some xs)
    (hw : Il.operate? op xs = some w) (hwrite : m.write (some dst) w = .ok m') :
    Executes il lines s (Agrees names m') := by
  cases h with
  | temp k =>
    cases hwrite
    have hexec : (Line.compute (.temp k) op args).il.exec il s = some
        { s with next := s.next + 1, temps := Il.set s.temps (Register.temp k).name w } := by
      simp [Line.il, Il.Line.exec, hargs, hw]
    exact executes_line hexec rfl hm.insert_temp.at
  | @global name hname =>
    cases hwrite
    have hcompute : (Line.compute (.scratch (last + 1)) op args).il.exec il s = some { s with
        next := s.next + 1, temps := Il.set s.temps (Register.scratch (last + 1)).name w } := by
      simp [Line.il, Il.Line.exec, hargs, hw]
    refine (executes_line (Q := (· = _)) hcompute rfl rfl).append ?_
    rintro s1 rfl
    have hagrees : Agrees names m { s with
        next := s.next + 1, temps := Il.set s.temps (Register.scratch (last + 1)).name w } :=
      Fresh.set_scratch.agrees hm
    refine executes_line ?_ rfl hagrees.insert_global.at
    have hstored := hm.memory name hname
    simp [Line.il, Il.Line.exec, Il.State.value?, Il.set, hstored]

end Straight

end Qbe

end ThreeAddress
