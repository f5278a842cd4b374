import ThreeAddress.Backend
import ThreeAddress.Proofs.Lowering.Isomorphism
import ThreeAddress.Proofs.Lowering.Uses
import ThreeAddress.Proofs.Qbe.Selection

/-!
# The blocks, temporaries and symbols of a module

The text of a program has the structure that the intermediate language asks for
(`Il.Module.WellFormed`). For labels and jumps this follows from the blocks that lines form. Scratch
temporaries and the blocks behind jumps draw their numbers from one counter: `Draws` says of lines
that the scratch temporaries they assign have new numbers, each one once, and that they read only
what the block under way has assigned. It holds of the lines of an instruction and is kept when
lines follow others.
-/

namespace ThreeAddress

open List

variable {lines lines' : List Line} {here here' : List String} {l : Line}

/-! ## Rules -/

namespace Il

/-- The temporary that a value is, if it is one. -/
def Value.temps : Value → List String
  | .const _ => []
  | .temp t => [t]

/-- The temporary that a line assigns, if it assigns one. -/
def Line.assigned : Line → List String
  | .load t _ | .compute t _ _ | .compare t _ _ _ => [t]
  | _ => []

/-- The temporaries that a line reads. -/
def Line.reads : Line → List String
  | .store v _ | .branch v _ _ | .print _ v | .ret v => v.temps
  | .compute _ _ args => args.flatMap Value.temps
  | .compare _ _ left right => left.temps ++ right.temps
  | .label _ | .load _ _ | .jump _ => []

/-- The data symbols that a line refers to. -/
def Line.symbols : Line → List String
  | .load _ x | .store _ x | .print x _ => [x]
  | _ => []

/-- The temporaries that the block under way has assigned after a line. -/
def Line.keep (here : List String) : Line → List String
  | .label _ => []
  | l => l.assigned ++ here

/-- Lines read a scratch temporary only after its assignment in the same block; the block under way
has assigned some before. -/
def Local (here : List String) (lines : List Line) : Prop :=
  ∀ before l after, lines = before ++ l :: after → ∀ n : Nat,
    "." ++ toString n ∈ l.reads → "." ++ toString n ∈ before.foldl Line.keep here

/-- The structure of a module: its blocks, its numbered temporaries and its data. -/
structure Module.WellFormed (m : Module) : Prop where
  /-- No label is defined twice. -/
  labels : (m.body.filterMap Line.label?).Nodup
  /-- Jumps go to labels that are defined, and not to the first block. -/
  targets : ∀ l ∈ m.body, ∀ t ∈ l.targets, t ∈ m.body.filterMap Line.label? ∧ t ≠ "start"
  /-- A label comes right after a jump. -/
  jumps : ∀ before l after, m.body = before ++ l :: after → l.targets ≠ [] →
    ∃ t rest, after = .label t :: rest
  /-- The function ends by returning zero, in a block that has not ended. -/
  returns : ∃ lines, m.body = lines ++ [.ret (.const 0)] ∧
    lines.foldlM Line.follow? false = some true
  /-- No numbered temporary is assigned twice. -/
  assigned : ∀ n : Nat, (m.body.flatMap Line.assigned).count ("." ++ toString n) ≤ 1
  /-- Numbered temporaries are read after their assignment in the same block. -/
  reads : Local [] m.body
  /-- No symbol is defined twice. -/
  data : (m.data.map Prod.fst).Nodup
  /-- Symbols that lines refer to are defined. -/
  symbols : ∀ l ∈ m.body, ∀ x ∈ l.symbols, x ∈ m.data.map Prod.fst

section Blocks

variable {m : Module}

/-- Where lines end a block by a return, the block was under way. -/
lemma follow_of_ret {v} (h : (lines ++ [Line.ret v]).foldlM Line.follow? false = some false) :
    lines.foldlM Line.follow? false = some true := by
  rw [foldlM_append] at h
  obtain ⟨b, hb, hret⟩ := Option.bind_eq_some_iff.mp h
  cases b with
  | true => exact hb
  | false => cases hret

/-- Behind a jump that is not at the end of the lines of a function comes a label. -/
lemma exists_label_of_targets {before after l b} (hl : l.targets ≠ [])
    (h : (before ++ l :: after).foldlM Line.follow? false = some b) (hafter : after ≠ []) :
    ∃ t rest, after = .label t :: rest := by
  rw [foldlM_append] at h
  obtain ⟨b1, -, hrest⟩ := Option.bind_eq_some_iff.mp h
  obtain ⟨b2, hjump, hrest⟩ := Option.bind_eq_some_iff.mp hrest
  obtain rfl : b2 = false := by
    cases l with
    | jump | branch =>
      cases b1 with
      | true => exact (Option.some.inj hjump).symm
      | false => cases hjump
    | _ => exact absurd rfl hl
  cases after with
  | nil => exact absurd rfl hafter
  | cons l' rest =>
    obtain ⟨_, hfollow, -⟩ := Option.bind_eq_some_iff.mp hrest
    cases l' with
    | label t => exact ⟨t, rest, rfl⟩
    | _ => cases hfollow

/-- The rules for labels and blocks, where a function begins with its first label and ends with a
return. -/
lemma Module.Valid.labels_and_jumps (h : m.Valid) {rest init}
    (hstart : m.body = .label "start" :: rest) (hret : m.body = init ++ [.ret (.const 0)]) :
    (∀ l ∈ m.body, ∀ t ∈ l.targets, t ∈ m.body.filterMap Line.label? ∧ t ≠ "start") ∧
      ∀ before l after, m.body = before ++ l :: after → l.targets ≠ [] →
      ∃ t rest, after = .label t :: rest := by
  constructor
  · intro l hl t ht
    have hmem : t ∈ m.body.tail.filterMap Line.label? :=
      mem_filterMap.mpr ⟨_, h.targets l hl t ht, rfl⟩
    have hlabels := h.labels
    rw [hstart] at hmem hlabels ⊢
    obtain ⟨hfirst, -⟩ := nodup_cons.mp hlabels
    exact ⟨mem_cons_of_mem _ hmem, fun heq => hfirst (heq ▸ hmem)⟩
  · intro before l after hbody hl
    refine exists_label_of_targets hl (hbody ▸ h.blocks) ?_
    rintro rfl
    obtain ⟨-, hlast⟩ := append_inj' (hbody.symm.trans hret) rfl
    obtain rfl := singleton_inj.mp hlast
    exact hl rfl

end Blocks

lemma foldl_keep_subset (h : here ⊆ here') (lines : List Line) :
    lines.foldl Line.keep here ⊆ lines.foldl Line.keep here' := by
  induction lines generalizing here here' with
  | nil => exact h
  | cons l lines ih =>
    refine ih ?_
    cases l with
    | label t => exact Subset.refl _
    | _ => exact append_subset.mpr ⟨subset_append_left _ _,
        Subset.trans h (subset_append_right _ _)⟩

lemma Local.mono (h : Local here lines) (hsubset : here ⊆ here') : Local here' lines :=
  fun before l after hlines n hn => foldl_keep_subset hsubset before (h before l after hlines n hn)

lemma local_nil : Local here [] := fun before l after h => by simp at h

/-- A line may read what is at hand, and the lines behind it what is at hand after it. -/
lemma local_cons (hl : ∀ n : Nat, "." ++ toString n ∈ l.reads → "." ++ toString n ∈ here)
    (h : Local (l.keep here) lines) : Local here (l :: lines) := by
  intro before l' after hlines n hn
  cases before with
  | nil =>
    cases hlines
    exact hl n hn
  | cons l1 before =>
    obtain ⟨rfl, hrest⟩ := cons.inj hlines
    exact h before l' after hrest n hn

lemma Local.append (h : Local here lines) (h' : Local (lines.foldl Line.keep here) lines') :
    Local here (lines ++ lines') := by
  induction lines generalizing here with
  | nil => exact h'
  | cons l lines ih =>
    refine local_cons (fun n hn => h [] l lines rfl n hn)
      (ih (fun before l' after hlines n hn => ?_) h')
    exact h (l :: before) l' after (congrArg _ hlines) n hn

end Il

/-! ## Numbers -/

namespace Qbe

open Lowering

/-- A block whose label, if it is one of the code, has a natural number. -/
def Block.Proper (b : Block) : Prop := ∀ id, b = .marked id → 0 ≤ id

/-- A value whose temporary, if it is one of the code, has a natural number. -/
def Value.Proper (v : Value) : Prop := ∀ id, v = .register (.temp id) → 0 ≤ id

/-- A line refers to variables that are there, and to proper blocks and temporaries. -/
def Line.Proper (names : List String) : Line → Prop
  | block b | jump b => b.Proper
  | load _ x | store _ x | print x _ => x ∈ names
  | compute dst _ args => ∀ v ∈ .register dst :: args, v.Proper
  | compare _ _ left right => left.Proper ∧ right.Proper
  | branch _ t f => t.Proper ∧ f.Proper
  | ret => True

lemma Block.proper_marked (k : Nat) : Block.Proper (.marked k) := by
  rintro id ⟨⟩
  exact Int.natCast_nonneg k

lemma Value.proper_temp (k : Nat) : Value.Proper (.register (.temp k)) := by
  rintro id ⟨⟩
  exact Int.natCast_nonneg k

/-- A value that, if it is a scratch temporary, is among given names. -/
def Value.AtHand (here : List String) (v : Value) : Prop :=
  ∀ n, v = .register (.scratch n) → (Register.scratch n).name ∈ here

/-- The temporaries at hand after lines. -/
def kept (here : List String) (lines : List Line) : List String :=
  (lines.map Line.il).foldl Il.Line.keep here

/-- Lines refer to what is there; the scratch temporaries that they assign have numbers above `last`
and up to `last'`, each one once; and they read only those at hand. -/
structure Draws (names : List String) (last : Nat) (here : List String) (lines : List Line)
    (last' : Nat) : Prop where
  le : last ≤ last'
  proper : ∀ l ∈ lines, l.Proper names
  assigned : ∀ n, ((lines.map Line.il).flatMap Il.Line.assigned).count (Register.scratch n).name ≤
    if last < n ∧ n ≤ last' then 1 else 0
  reads : Il.Local here (lines.map Line.il)

section Draws

variable {names : List String} {last last1 last2 last' : Nat} {i : Instr} {v dst : Operand}
  {value value' : Value}

lemma draws_nil : Draws names last here [] last :=
  ⟨le_refl _, forall_mem_nil _, fun _ => Nat.zero_le _, Il.local_nil⟩

lemma Draws.append (h : Draws names last here lines last1)
    (h' : Draws names last1 (kept here lines) lines' last') :
    Draws names last here (lines ++ lines') last' where
  le := le_trans h.le h'.le
  proper := forall_mem_append.mpr ⟨h.proper, h'.proper⟩
  assigned n := by
    have hn := h.assigned n
    have hn' := h'.assigned n
    have hle := h.le
    have hle' := h'.le
    rw [map_append, flatMap_append, count_append]
    split at hn <;> split at hn' <;> split <;> omega
  reads := by
    rw [map_append]
    exact h.reads.append h'.reads

lemma Draws.mono (h : Draws names last here lines last') (hsubset : here ⊆ here') :
    Draws names last here' lines last' := { h with reads := h.reads.mono hsubset }

/-- The scratch temporary with the next number. -/
lemma number_of_mem {n} (h : (Register.scratch n).name ∈ [(Register.scratch (last + 1)).name]) :
    last < n ∧ n ≤ last + 1 := by
  obtain ⟨⟩ := Register.name_inj (mem_singleton.mp h)
  exact ⟨Nat.lt_succ_self _, le_refl _⟩

lemma Draws.cons (hproper : l.Proper names) (hle : last ≤ last1)
    (hnew : ∀ n, (Register.scratch n).name ∈ l.il.assigned → last < n ∧ n ≤ last1)
    (hreads : ∀ n, (Register.scratch n).name ∈ l.il.reads → (Register.scratch n).name ∈ here)
    (h : Draws names last1 (l.il.keep here) lines last') :
    Draws names last here (l :: lines) last' := by
  have hone : Draws names last here [l] last1 := by
    refine ⟨hle, forall_mem_singleton.mpr hproper, fun n => ?_, Il.local_cons hreads Il.local_nil⟩
    rw [map_singleton, flatMap_singleton]
    split
    · refine le_trans count_le_length ?_
      cases l <;> simp [Line.il, Il.Line.assigned]
    · rename_i hn
      exact (count_eq_zero.mpr fun hmem => hn (hnew n hmem)).le
  exact hone.append h

/-- A scratch temporary that values at hand are read from is at hand. -/
lemma Value.AtHand.mem (h : value.AtHand here) {n}
    (hn : (Register.scratch n).name ∈ value.il.temps) :
    (Register.scratch n).name ∈ here := by
  cases value with
  | const w => cases hn
  | register r => exact h n (congrArg _ (Register.name_inj (mem_singleton.mp hn)).symm)

/-- An operand is loaded into a value at hand, and what was at hand stays. -/
lemma Loaded.draws (h : Loaded names last v lines value last') (here : List String) :
    Draws names last here lines last' ∧ value.Proper ∧ value.AtHand (kept here lines) ∧
    here ⊆ kept here lines := by
  cases h with
  | const w => exact ⟨draws_nil, nofun, nofun, Subset.refl _⟩
  | temp k => exact ⟨draws_nil, Value.proper_temp k, nofun, Subset.refl _⟩
  | global hx =>
    refine ⟨.cons hx (Nat.le_succ _) (fun _ => number_of_mem)
      nofun draws_nil, nofun, ?_, subset_cons_self _ _⟩
    rintro n ⟨⟩
    exact mem_cons_self

/-- Two operands are loaded into values at hand. -/
lemma Loaded.draws_two {left right load load'} (h : Loaded names last left load value last1)
    (h' : Loaded names last1 right load' value' last') (here : List String) :
    Draws names last here (load ++ load') last' ∧
      ∀ v ∈ [value, value'], v.Proper ∧ v.AtHand (kept here (load ++ load')) := by
  obtain ⟨hdraws, hval, hhand, -⟩ := h.draws here
  obtain ⟨hdraws', hval', hhand', hsubset⟩ := h'.draws (kept here load)
  have hkept : kept here (load ++ load') = kept (kept here load) load' := by simp [kept]
  rw [hkept]
  exact ⟨hdraws.append hdraws', forall_mem_cons.mpr ⟨⟨hval, fun n hn => hsubset (hhand n hn)⟩,
    forall_mem_singleton.mpr ⟨hval', hhand'⟩⟩⟩

/-- A result is assigned from values at hand. -/
lemma Assigned.draws {op args} (h : Assigned names last op args dst lines last')
    (hargs : ∀ v ∈ args, v.Proper ∧ v.AtHand here) : Draws names last here lines last' := by
  have hproper : ∀ v ∈ args, v.Proper := fun v hv => (hargs v hv).1
  have hreads : ∀ (r : Register) n, (Register.scratch n).name ∈ (Line.compute r op args).il.reads →
      (Register.scratch n).name ∈ here := by
    intro r n hn
    obtain ⟨_, hil, hn⟩ := mem_flatMap.mp hn
    obtain ⟨v, hv, rfl⟩ := mem_map.mp hil
    exact (hargs v hv).2.mem hn
  cases h with
  | temp k =>
    refine .cons (forall_mem_cons.mpr ⟨Value.proper_temp k, hproper⟩) (le_refl _) (fun n hn => ?_)
      (hreads _) draws_nil
    cases Register.name_inj (mem_singleton.mp hn)
  | global hx =>
    exact .cons (forall_mem_cons.mpr ⟨nofun, hproper⟩) (Nat.le_succ _) (fun _ => number_of_mem)
      (hreads _) (.cons hx (le_refl _) nofun (fun _ => mem_append_left here) draws_nil)

/-- The label that opens a block, if one is needed. -/
lemma open_draws (names) (s : State) : Draws names s.last [] (open? s).1 (open? s).2 := by
  obtain ⟨last, inBlock⟩ := s
  cases inBlock with
  | true => exact draws_nil
  | false => exact .cons nofun (Nat.le_succ _) nofun nofun draws_nil

/-- The lines of a regular instruction. -/
lemma Selected.draws {s s'} (h : Selected names s i lines s') :
    Draws names s.last [] lines s'.last := by
  have hopen := open_draws names s
  cases h with
  | unary hop hload hassign =>
    obtain ⟨hdraws, hval, hhand, -⟩ := hload.draws (kept [] (open? s).1)
    exact hopen.append (hdraws.append (hassign.draws (forall_mem_singleton.mpr ⟨hval, hhand⟩)))
  | binary hop hleft hright hassign =>
    obtain ⟨hdraws, hargs⟩ := hleft.draws_two hright (kept [] (open? s).1)
    exact hopen.append (hdraws.append (hassign.draws hargs))
  | branch wanted k hop hleft hright =>
    obtain ⟨hdraws, hargs⟩ := hleft.draws_two hright (kept [] (open? s).1)
    obtain ⟨⟨hval, hhand⟩, hargs⟩ := forall_mem_cons.mp hargs
    obtain ⟨hval', hhand'⟩ := forall_mem_singleton.mp hargs
    refine hopen.append (hdraws.append (.cons ⟨hval, hval'⟩ (Nat.le_succ _) (fun _ => number_of_mem)
      (fun n hn => (mem_append.mp hn).elim hhand.mem hhand'.mem) (.cons ?_ (le_refl _) ?_
        (fun n hn => mem_append_left _ ?_) (.cons nofun (Nat.le_succ _) nofun nofun draws_nil))))
    · cases wanted with
      | true => exact ⟨Block.proper_marked k, nofun⟩
      | false => exact ⟨nofun, Block.proper_marked k⟩
    · cases wanted <;> exact nofun
    · cases wanted <;> exact hn
  | jump k => exact hopen.append (.cons (Block.proper_marked k) (le_refl _) nofun nofun draws_nil)
  | mark k => exact .cons (Block.proper_marked k) (le_refl _) nofun nofun draws_nil

/-- The lines of regular code. -/
lemma SelectedAll.draws {s code s'} (h : SelectedAll names s code lines s') :
    Draws names s.last [] lines s'.last := by
  induction h with
  | nil s => exact draws_nil
  | cons hi _ ih => exact hi.draws.append (ih.mono (nil_subset _))

/-- The lines that print variables. -/
lemma printLines_draws (last : Nat) (here : List String) {xs} (hxs : ∀ x ∈ xs, x ∈ names) :
    Draws names last here (printLines last xs) (last + xs.length) := by
  induction xs generalizing last here with
  | nil => exact draws_nil
  | cons x xs ih =>
    obtain ⟨hx, hxs⟩ := forall_mem_cons.mp hxs
    rw [length_cons, Nat.add_comm _ 1, ← Nat.add_assoc]
    exact .cons hx (Nat.le_succ _) (fun _ => number_of_mem) nofun
      (.cons hx (le_refl _) nofun (fun _ => mem_append_left _) (ih (last + 1) _ hxs))

end Draws

/-! ## Programs -/

section Programs

variable {p : Program} {s : State}

/-- The lines of the module of a program. -/
lemma moduleOf_draws (h : Draws (p.globals.map Prod.fst) 0 [] lines s.last) :
    ∃ last', Draws (p.globals.map Prod.fst) 0 [] (moduleOf p lines s).lines last' := by
  have hexit : Draws (p.globals.map Prod.fst) s.last []
      (if s.inBlock then [] else [.block .exit]) s.last := by
    split
    · exact draws_nil
    · exact .cons nofun (le_refl _) nofun nofun draws_nil
  have hret : ∀ last here, Draws (p.globals.map Prod.fst) last here [.ret] last := fun last here =>
    .cons trivial (le_refl _) nofun nofun draws_nil
  have hend := hexit.append ((printLines_draws s.last _ fun x hx => hx).append (hret _ _))
  exact ⟨_, .cons nofun (le_refl _) nofun nofun (h.append (hend.mono (nil_subset _)))⟩

/-- The variables of a program have different symbols. -/
lemma nodup_symbols {names : List String} (h : names.Nodup) :
    (names.map variableSymbol ++ names.map formatSymbol).Nodup := by
  refine (h.map fun x y hxy => (String.append_right_inj _).mp hxy).append
    (h.map fun x y hxy => (String.append_right_inj _).mp hxy) fun z hz hz' => ?_
  obtain ⟨x, -, rfl⟩ := mem_map.mp hz
  obtain ⟨y, -, hxy⟩ := mem_map.mp hz'
  have hhead := congrArg (fun z => z.toList.head?) hxy
  simp [formatSymbol] at hhead

lemma moduleOf_data : (moduleOf p lines s).il.data.map Prod.fst =
    (p.globals.map Prod.fst).map variableSymbol ++ (p.globals.map Prod.fst).map formatSymbol := by
  rw [Module.il, map_append, map_map, map_map]
  rfl

/-- A line refers to symbols of variables. -/
lemma Line.Proper.symbols {names : List String} {l : Line} (h : l.Proper names) :
    ∀ x ∈ l.il.symbols, x ∈ names.map variableSymbol ++ names.map formatSymbol := by
  cases l with
  | load | store =>
    exact forall_mem_singleton.mpr (mem_append_left _ (mem_map_of_mem h))
  | print => exact forall_mem_singleton.mpr (mem_append_right _ (mem_map_of_mem h))
  | _ => exact forall_mem_nil _

/-- The module of a program is well-formed. -/
lemma moduleOf_wellFormed (hnodup : (p.globals.map Prod.fst).Nodup)
    (hvalid : (moduleOf p lines s).il.Valid) {last'}
    (hall : Draws (p.globals.map Prod.fst) 0 [] (moduleOf p lines s).lines last') :
    (moduleOf p lines s).il.WellFormed := by
  have hret : (moduleOf p lines s).il.body =
      ((.block .start :: (lines ++
        ((if s.inBlock then [] else [.block .exit]) ++ printLines s.last
          (p.globals.map Prod.fst)))).map Line.il) ++ [.ret (.const 0)] := by
    simp [moduleOf, Module.il, endLines, Line.il]
  obtain ⟨htargets, hjumps⟩ := hvalid.labels_and_jumps rfl hret
  refine ⟨hvalid.labels, htargets, hjumps, ⟨_, hret, Il.follow_of_ret (hret ▸ hvalid.blocks)⟩,
    fun n => ?_, hall.reads, ?_, ?_⟩
  · refine le_trans (hall.assigned n) ?_
    split <;> omega
  · rw [moduleOf_data]
    exact nodup_symbols hnodup
  · intro l hl x hx
    obtain ⟨line, hline, rfl⟩ := mem_map.mp hl
    rw [moduleOf_data]
    exact (hall.proper line hline).symbols x hx

end Programs

end Qbe

/-- No variable of a program that is generated from a source text is there twice. -/
lemma nodup_globals_of_generate {settings file source root state p}
    (hsource : Tree.ofSource settings file source = .ok root)
    (hgen : (generate settings state root).outcome = .ok p) : (p.globals.map Prod.fst).Nodup := by
  have hlower := (lower_of_generate hgen).1
  rw [globals_of_generate hgen, map_map]
  rcases hres : lower settings root state with ⟨outcome, code, notes, s'⟩
  rw [hres] at hlower
  obtain rfl : outcome = .ok () := hlower
  obtain ⟨t, hcollected, hsymbols, -⟩ := symbols_of_lower (shapedAs_of_parse hsource) hres
  rw [hsymbols, map_map]
  show (t.order.map Symbol.name).Nodup
  rw [hcollected.names]
  exact nodup_eraseDups _

/-- The module of a program that is generated from a source text. -/
lemma Qbe.exists_module {settings file source root state p}
    (hsource : Tree.ofSource settings file source = .ok root)
    (hgen : (generate settings state root).outcome = .ok p) :
    ∃ m : Qbe.Module, emitQbe p = .ok m.text ∧ m.globals = p.globals.map Prod.fst ∧
      (∀ x ∈ m.globals, Text.IsName x) ∧ Il.read m.text = some m.il ∧ m.il.WellFormed ∧
      ∀ l ∈ m.lines, l.Legible ∧ l.Proper m.globals := by
  have hp := regular_of_generate hgen
  have hnames := isName_of_generate hsource hgen
  obtain ⟨lines, s, hlines, hselected⟩ := exists_selectedAll hp.forms {}
  have hselects := hselected.selects hnames (Nodup.of_map _ hp.marks)
  obtain ⟨last', hall⟩ := moduleOf_draws hselected.draws
  have hvalid := moduleOf_valid hp hnames hselects
  refine ⟨moduleOf p lines s, by rw [emitQbe, ofProgram_eq hlines], rfl, hnames,
    read_moduleOf hp hnames hselects,
    moduleOf_wellFormed (nodup_globals_of_generate hsource hgen) hvalid hall, fun l hl => ?_⟩
  exact ⟨moduleOf_legible hnames hselects l hl, hall.proper l hl⟩

/-- The text of a program that is generated from a source text is well-formed. No label is defined
twice, and jumps go to labels that are defined and not to the first one. A label comes right after
every jump, and the function ends by returning zero in a block under way. No numbered temporary is
assigned twice, and it is read only behind its assignment in the same block. No symbol is defined
twice, and those that are referred to are defined. -/
theorem emitQbe_wellFormed (settings : Settings) (file : Int) (source : List Char) (root : Tree)
    (state : LowerState) (program : Program)
    (hsource : Tree.ofSource settings file source = .ok root)
    (hgenerate : (generate settings state root).outcome = .ok program) :
    ∃ text il, emitQbe program = .ok text ∧ Il.read text = some il ∧ il.WellFormed := by
  obtain ⟨m, hemit, -, -, hread, hwellFormed, -⟩ := Qbe.exists_module hsource hgenerate
  exact ⟨m.text, m.il, hemit, hread, hwellFormed⟩

/-- A source text with a branch in a loop. -/
def branchingSource : List Char :=
  "num x; bool b; while (x < 3) { if (b) x = 5; else x = x + 1; b = x == 2; }".toList

/-- The text of its program is well-formed. -/
theorem emitQbe_branchingSource :
    ∃ root program text il, Tree.ofSource {} 0 branchingSource = .ok root ∧
    (generate {} {} root).outcome = .ok program ∧ emitQbe program = .ok text ∧
    Il.read text = some il ∧
    il.WellFormed := by
  have hsome : (generatedBy? {} branchingSource).isSome = true := by decide +kernel
  obtain ⟨program, hprogram⟩ := Option.isSome_iff_exists.mp hsome
  obtain ⟨root, hsource, hgenerate⟩ := exists_of_generatedBy? hprogram
  obtain ⟨text, il, hwellFormed⟩ :=
    emitQbe_wellFormed {} 0 branchingSource root {} program hsource hgenerate
  exact ⟨root, program, text, il, hsource, hgenerate, hwellFormed⟩

end ThreeAddress
