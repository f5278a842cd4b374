import ThreeAddress.Proofs.Llvm.Building

/-!
# Selection succeeds on regular programs

Each part of the translation of an instruction succeeds on what has been built, and what it adds is
known: the instructions that load an operand (`loads`), those that compute a result (`Computes`),
and the end of a block. `Emitted` says this for each form of instruction, if there is a block to
which instructions are added.
-/

namespace ThreeAddress.Llvm

open List Lowering Select

variable {globals done : List String} {s : State} {b : Nat} {dst left right : Operand}

/-! ## Selected instructions -/

/-- The place of an operand in memory. -/
def place? : Operand → Option Place
  | .global x => some (.global x)
  | .temp name _ => some (.slot name)
  | _ => none

/-- The instructions that load an operand; the next result has the number `r`. -/
def loads (r : Nat) (v : Operand) : List Inst := (place? v).toList.map (.load r)

/-- What stands for an operand after it has been loaded. -/
def loaded (r : Nat) : Operand → Value
  | .const w => .const w
  | _ => .result r

/-- The number of the next result after an operand has been loaded. -/
def after (r : Nat) (v : Operand) : Nat := r + (loads r v).length

/-- The arithmetic operation of an opcode. -/
def operation? : Opcode → Option Operation
  | .add => some .add
  | .sub => some .sub
  | .mul => some .mul
  | .div => some .div
  | .rem => some .rem
  | _ => none

/-- The instructions for an operation on operands over given variables. -/
inductive Computes (names : List String) : Instr → List Inst → Prop
  | copy {dst src place} (r : Nat) (hdst : dst.Stored names) (hsrc : src.Valued names)
      (hplace : place? dst = some place) :
      Computes names (.unary .copy dst src) (loads r src ++ [.store (loaded r src) place])
  | neg {dst src place} (r : Nat) (hdst : dst.Stored names) (hsrc : src.Valued names)
      (hplace : place? dst = some place) :
      Computes names (.unary .neg dst src) (loads r src ++
        [.compute (after r src) .sub (.const 0) (loaded r src),
          .store (.result (after r src)) place])
  | binary {op operation dst left right place} (r : Nat) (hop : operation? op = some operation)
      (hdst : dst.Stored names) (hleft : left.Valued names) (hright : right.Valued names)
      (hplace : place? dst = some place) :
      Computes names (.binary op dst left right) (loads r left ++ (loads (after r left) right ++
        [.compute (after (after r left) right) operation (loaded r left)
          (loaded (after r left) right),
          .store (.result (after (after r left) right)) place]))

/-- The instructions for the test of a branch; the truth is the result `r'`. -/
def testInsts (r : Nat) (op : Opcode) (left right : Operand) : List Inst :=
  loads r left ++ (loads (after r left) right ++
    [.compare (after (after r left) right) (predicateOf op) (loaded r left)
      (loaded (after r left) right)])

/-- The end of a block that goes to a target when a truth is as wanted, and through to another block
otherwise. -/
def branchEnd (wanted : Bool) (test : Value) (target through : Nat) : Terminator :=
  if wanted then .branch test target through else .branch test through target

/-- A branch leads to its target or through to the other block. -/
lemma mem_targets_branchEnd {wanted test target through c}
    (hc : c ∈ (branchEnd wanted test target through).targets) :
    c = target ∨ c = through := by
  cases wanted with
  | true => simpa [branchEnd, Terminator.targets] using hc
  | false => simpa [branchEnd, Terminator.targets, or_comm] using hc

/-- What is added for an instruction to the block `b`, which is the current one. -/
inductive Emitted (names : List String) (b : Nat) (s s' : State) : Instr → Prop
  | plain {i insts} (hinsts : Computes names i insts) (hcode : s'.code b = s.code b ++ insts)
      (hcurrent : s'.current = some b) : Emitted names b s s' i
  | branch {wanted op left right l through target} (r : Nat) (hleft : left.Valued names)
      (hright : right.Valued names)
      (hcode : s'.code b = s.code b ++ testInsts r op left right)
      (hexit : s'.exit? b = some (branchEnd wanted
      (.result (after (after r left) right)) target through))
      (htarget : s'.marked[l.name]? = some target) (hcurrent : s'.current = some through)
      (hthrough : s'.code through = []) : Emitted names b s s' (.branch wanted op left right l)
  | jump {l target} (hcode : s'.code b = s.code b) (hexit : s'.exit? b = some (.jump target))
      (htarget : s'.marked[l.name]? = some target) : Emitted names b s s' (.jump l)
  | mark {l next} (hcode : s'.code b = s.code b) (hexit : s'.exit? b = some (.jump next))
      (hcurrent : s'.current = some next) (hnext : s'.code next = []) :
      Emitted names b s s' (.mark l)

/-! ## Parts of the translation -/

lemma bind_ok {α β : Type} {x : Select α} {f : α → Select β} {s s1 : State} {a : α}
    (hx : x s = .ok (a, s1)) :
    (x >>= f) s = f a s1 := by
  show (x s >>= fun r => f r.1 r.2) = _
  rw [hx]
  rfl

lemma bind_get {β : Type} {f : State → Select β} {s : State} : (get >>= f) s = f s s := rfl

/-- From a state to another, only given labels have been named for the first time. -/
def Names (names : List String) (s s' : State) : Prop :=
  ∀ l : String, s'.marked[l]? ≠ none → s.marked[l]? ≠ none ∨ l ∈ names

lemma Names.congr {names s1 s2 s s'} (h : Names names s1 s2) (hs : s1.marked = s.marked)
    (hs' : s'.marked = s2.marked) :
    Names names s s' := by
  intro l hl
  rw [hs'] at hl
  rw [← hs]
  exact h l hl

section Parts

variable {live : List Nat} {v : Operand}

/-- The slot of a temporary is there after it has been asked for. -/
lemma slotOf_ok (hentry : b ≠ entry) (hsize : entry < s.blocks.size) (n : String) :
    ∃ s', slotOf n s = .ok (.slot n, s') ∧ Adds b [] s s' ∧ s'.slots.contains n = true ∧
    s'.results = s.results := by
  cases hn : s.slots.contains n with
  | true =>
    refine ⟨s, ?_, .refl, hn, rfl⟩
    unfold slotOf
    rw [bind_get, hn]
    rfl
  | false =>
    refine ⟨{ s.add entry (.alloca n) with slots := s.slots.insert n }, ?_,
      .slot hentry hsize hn, ?_, rfl⟩
    · unfold slotOf
      rw [bind_get, hn]
      rfl
    · exact Std.TreeSet.contains_insert_self

section Added

variable (hentry : b ≠ entry) (hb : b < s.blocks.size)
include hentry hb

/-- An instruction is added that uses only slots that there are. -/
lemma addTo_ok (i : Inst) (hmakes : i.allocates? = none := by rfl)
    (huses : ∀ n, i.loads? = some n ∨ i.stores? = some n → s.slots.contains n = true := by
      simp [Inst.loads?, Inst.stores?]) :
    ∃ s', addTo b i s = .ok ((), s') ∧ Adds b [i] s s' ∧ s'.results = s.results :=
  ⟨s.add b i, rfl, .inst hentry hb hmakes huses, rfl⟩

/-- An instruction is added that has a result. -/
lemma addResult_ok (i : Nat → Inst) (hmakes : (i s.results).allocates? = none := by rfl)
    (huses : ∀ n, (i s.results).loads? = some n ∨ (i s.results).stores? = some n →
      s.slots.contains n = true := by
      simp [Inst.loads?, Inst.stores?]) :
    ∃ s', addResult b i s = .ok (.result s.results, s') ∧ Adds b [i s.results] s s' ∧
    s'.results = s.results + 1 :=
  ⟨_, rfl, (Adds.inst hentry hb hmakes huses).renumber (s.results + 1), rfl⟩

/-- Operands that can be read are loaded. -/
lemma operand_ok (hv : v.Valued globals) :
    ∃ s', operand globals b (some v) s = .ok (loaded s.results v, s') ∧
    Adds b (loads s.results v) s s' ∧
      s'.results = after s.results v := by
  cases hv with
  | const w => exact ⟨s, rfl, .refl, rfl⟩
  | stored hv =>
    cases hv with
    | @global x hx =>
      obtain ⟨s', hadd, hadds, hresults⟩ := addResult_ok hentry hb fun r => .load r (.global x)
      refine ⟨s', ?_, hadds, hresults⟩
      show (if globals.contains x = true then addResult b fun r => .load r (.global x)
        else fail (.undeclared x)) s = _
      rwa [if_pos (contains_iff_mem.mpr hx)]
    | temp k =>
      obtain ⟨s1, hslot, hadds1, hcontains, hresults1⟩ :=
        slotOf_ok (s := s) hentry (Nat.zero_lt_of_lt hb) ("_t" ++ toString k)
      obtain ⟨s', hadd, hadds, hresults⟩ := addResult_ok (s := s1) hentry (hadds1.size.symm ▸ hb)
        (fun r => .load r (.slot ("_t" ++ toString k))) rfl (by simpa [Inst.loads?, Inst.stores?])
      rw [hresults1] at hadd hadds hresults
      exact ⟨s', (bind_ok hslot).trans hadd, hadds1.trans hadds, hresults⟩

/-- Two operands are loaded one after the other. -/
lemma operands_ok (hleft : left.Valued globals) (hright : right.Valued globals) :
    ∃ s1 s', operand globals b (some left) s = .ok (loaded s.results left, s1) ∧
      operand globals b (some right) s1 = .ok (loaded (after s.results left) right, s') ∧
      Adds b (loads s.results left ++ loads (after s.results left) right) s s' ∧
      s'.results = after (after s.results left) right := by
  obtain ⟨s1, hfirst, hadds1, hresults1⟩ := operand_ok hentry hb hleft
  obtain ⟨s', hsecond, hadds, hresults⟩ :=
    operand_ok (s := s1) hentry (hadds1.size.symm ▸ hb) hright
  rw [hresults1] at hsecond hadds hresults
  exact ⟨s1, s', hfirst, hsecond, hadds1.trans hadds, hresults⟩

/-- A value is stored into an operand that can be written. -/
lemma storeTo_ok (hdst : dst.Stored globals) (value : Value) :
    ∃ place s', place? dst = some place ∧ storeTo globals b (some dst) value s = .ok ((), s') ∧
      Adds b [.store value place] s s' := by
  cases hdst with
  | @global x hx =>
    obtain ⟨s', hadd, hadds, -⟩ := addTo_ok hentry hb (.store value (.global x))
    refine ⟨_, s', rfl, ?_, hadds⟩
    show (if globals.contains x = true then addTo b (.store value (.global x))
      else fail (.undeclared x)) s = _
    rwa [if_pos (contains_iff_mem.mpr hx)]
  | temp k =>
    obtain ⟨s1, hslot, hadds1, hcontains, -⟩ :=
      slotOf_ok (s := s) hentry (Nat.zero_lt_of_lt hb) ("_t" ++ toString k)
    obtain ⟨s', hadd, hadds, -⟩ := addTo_ok (s := s1) hentry (hadds1.size.symm ▸ hb)
      (.store value (.slot ("_t" ++ toString k))) rfl (by simpa [Inst.loads?, Inst.stores?])
    exact ⟨_, s', rfl, (bind_ok hslot).trans hadd, hadds1.trans hadds⟩

/-- The result of an arithmetic operation is stored. -/
lemma arithmetic_ok (hdst : dst.Stored globals) (op : Operation) (x y : Value) :
    ∃ place s', place? dst = some place ∧
    Select.arithmetic globals b op (some dst) [x, y] s = .ok ((), s') ∧
      Adds b [.compute s.results op x y, .store (.result s.results) place] s s' := by
  obtain ⟨s1, hadd, hadds1, -⟩ := addResult_ok hentry hb fun r => .compute r op x y
  obtain ⟨place, s', hplace, hstore, hadds⟩ :=
    storeTo_ok (s := s1) hentry (hadds1.size.symm ▸ hb) hdst (.result s.results)
  exact ⟨place, s', hplace, (bind_ok hadd).trans hstore, hadds1.trans hadds⟩

end Added

/-- A block without a label is live after it has been made, and empty. -/
lemma unmarkedBlock_ok (h : Built done live s) (stem : String) :
    ∃ new s', unmarkedBlock stem s = .ok (new, s') ∧
    Built done (new :: live) s' ∧ Extends s s' ∧ s'.current = s.current ∧ s'.marked = s.marked ∧
    (∀ c, s'.code c = s.code c) ∧ s'.code new = [] := by
  let name := stem ++ "." ++ toString (s.unmarked + 1)
  refine ⟨_, _, rfl, (h.push name).congr rfl rfl rfl, ?_, rfl, rfl, fun c =>
    State.code_push name, ?_⟩
  · exact (Extends.push name).congr rfl rfl
  · exact (State.code_push name).trans State.code_size

/-- The first block and the current one are live, if there is a current one. -/
def Ready (done : List String) (s : State) : Prop := Built done (s.current.toList ++ [entry]) s

lemma Ready.of_some (h : Built done [b, entry] s) (hcur : s.current = some b) : Ready done s := by
  rwa [Ready, hcur]

lemma Ready.of_none (h : Built done [entry] s) (hcur : s.current = none) : Ready done s := by
  rwa [Ready, hcur]

/-- A current block has not ended, and is not the first one. -/
lemma Built.current_open (h : Built done [b, entry] s) :
    b ≠ entry ∧ b < s.blocks.size ∧ s.exit? b = none ∧ s.exit? entry = none :=
  ⟨fun hentry => (nodup_cons.mp h.nodup).1 (hentry ▸ .head _), (h.opened b (.head _)).1,
    (h.opened b (.head _)).2, (h.opened entry (.tail _ (.head _))).2⟩

/-- Instructions are added to the current block, or to a new one if there is none. -/
lemma currentBlock_ok (h : Ready done s) : ∃ b s', currentBlock s = .ok (b, s') ∧
    Built done [b, entry] s' ∧
    Extends s s' ∧ s'.current = some b ∧ s'.marked = s.marked ∧ ∀ c, s.current = some c →
    c = b ∧ s' = s := by
  unfold Ready at h
  cases hcur : s.current with
  | some b =>
    rw [hcur] at h
    refine ⟨b, s, ?_, h, .refl, hcur, rfl, fun c hc => ⟨(Option.some.inj hc).symm, rfl⟩⟩
    unfold currentBlock
    rw [bind_get, hcur]
    rfl
  | none =>
    rw [hcur] at h
    obtain ⟨new, s', hnew, h', hext, -, hmarked, -⟩ := unmarkedBlock_ok h "dead"
    refine ⟨new, { s' with current := some new }, ?_, h'.congr rfl rfl rfl, hext.congr rfl rfl,
      rfl, hmarked, nofun⟩
    unfold currentBlock
    rw [bind_get, hcur]
    simp only
    rw [bind_ok hnew]
    rfl

/-- The block of a label is there after it has been asked for. -/
lemma blockOf_ok (h : Built done live s) (l : Label) :
    ∃ target s', blockOf (some l) s = .ok (target, s') ∧
    Built done live s' ∧ Extends s s' ∧ s'.marked[l.name]? = some target ∧ Names [l.name] s s' ∧
    s'.current = s.current ∧ ∀ c, s'.code c = s.code c := by
  cases hl : s.marked[l.name]? with
  | some target =>
    refine ⟨target, s, ?_, h, .refl, hl, fun _ h => .inl h, rfl, fun _ => rfl⟩
    simp only [blockOf]
    rw [bind_get, hl]
    rfl
  | none =>
    have hextends := Extends.push (s := s) l.name
    have hnew : ∀ l' : String, s.marked[l']? ≠ some s.blocks.size := fun l' hl' =>
      Nat.lt_irrefl _ (h.marked l' _ hl').2
    have hlabel : Built done live
        { s.push l.name with marked := s.marked.insert l.name s.blocks.size } :=
      (h.push l.name).label hl hnew (Nat.ne_zero_of_lt h.size)
      ((State.code_push l.name).trans State.code_size)
    refine ⟨s.blocks.size, _, ?_, hlabel, ?_, Std.TreeMap.getElem?_insert_self, ?_, rfl,
      fun _ => State.code_push l.name⟩
    · simp only [blockOf]
      rw [bind_get, hl]
      rfl
    · exact ⟨hextends.size, hextends.code, hextends.exit, fun _ _ hc => lookup_insert_of_new hl hc⟩
    · intro l' hl'
      obtain ⟨c, hc⟩ := Option.ne_none_iff_exists'.mp hl'
      rcases lookup_insert hc with ⟨hll, -⟩ | hc
      · exact .inr (mem_singleton.mpr hll)
      · exact .inl (by rw [hc]; exact Option.some_ne_none c)

/-- A live block ends, and another one or none becomes the current one. -/
lemma leave_ok (h : Built done (b :: live) s) (next : Option Nat) {t}
    (ht : ∀ c ∈ t.targets, c ≠ entry ∧ c < s.blocks.size) :
    ∃ s', (endBlock b t >>= fun _ => modify fun s => { s with current := next }) s = .ok ((), s') ∧
      Built done live s' ∧ Extends s s' ∧ s'.current = next ∧ s'.exit? b = some t ∧
      (∀ c, s'.code c = s.code c) ∧ s'.marked = s.marked := by
  obtain ⟨hb, hexit⟩ := h.opened b (.head _)
  refine ⟨_, rfl, (h.close ht).congr rfl rfl rfl, (Extends.close hb hexit t).congr rfl rfl,
    rfl, ?_, ?_, rfl⟩
  · show (s.close b t).exit? b = some t
    rw [State.exit?_close hb, if_pos rfl]
  · exact fun c => State.code_close t

/-- The current block ends with a branch. -/
lemma branch_ok (wanted : Bool) {op : Opcode} {i : Instr} {l : Label} (h : Built done [b, entry] s)
    (htest : i.test = some ⟨op, some left, some right⟩) (htarget : i.target = some l)
    (hleft : left.Valued globals) (hright : right.Valued globals) :
    ∃ target through s', Select.branch globals b i wanted s = .ok ((), s') ∧
    Built done [through, entry] s' ∧
      Extends s s' ∧ s'.code b = s.code b ++ testInsts s.results op left right ∧
      s'.exit? b = some (branchEnd wanted (.result (after (after s.results left) right))
        target through) ∧
      s'.marked[l.name]? = some target ∧ Names [l.name] s s' ∧ s'.current = some through ∧
      s'.code through = [] := by
  obtain ⟨hentry, hb, hexit, hfirst⟩ := h.current_open
  obtain ⟨s1, s2, hload, hload', hadds2, hresults⟩ := operands_ok hentry hb hleft hright
  obtain ⟨s3, hcompare, hadds3, -⟩ := addResult_ok (s := s2) hentry (hadds2.size.symm ▸ hb)
    fun r => .compare r (predicateOf op) (loaded s.results left)
    (loaded (after s.results left) right)
  rw [hresults] at hcompare hadds3
  have hadds : Adds b (testInsts s.results op left right) s s3 := by
    have hall := hadds2.trans hadds3
    rwa [append_assoc] at hall
  -- The block that control falls through to is made before that of the label.
  obtain ⟨through, s4, hnew, h4, hext4, -, hmarked4, hcode4, hempty⟩ :=
    unmarkedBlock_ok (h.adds (.head _) hadds) "ft"
  obtain ⟨target, s5, hblock, h5, hext5, hmarked, hnames, -, hcode5⟩ := blockOf_ok h4 l
  have hthrough : through ≠ entry ∧ through < s5.blocks.size :=
    ⟨fun hsame => (nodup_cons.mp h5.nodup).1 (by simp [hsame]), (h5.opened through (.head _)).1⟩
  have htargets : ∀ c ∈ (branchEnd wanted (.result (after (after s.results left) right)) target
      through).targets,
        c ≠ entry ∧ c < s5.blocks.size := by
    intro c hc
    rcases mem_targets_branchEnd hc with rfl | rfl
    · exact h5.marked _ _ hmarked
    · exact hthrough
  obtain ⟨s', hend, h', hext', hcur, hexit', hcode', hmarked'⟩ :=
    leave_ok (h5.perm (.swap b through [entry])) (some through) htargets
  have hext3 := hadds.extends hfirst hexit
  refine ⟨target, through, s', ?_, h', ((hext3.trans hext4).trans hext5).trans hext', ?_, hexit',
    ?_, ?_, hcur, ?_⟩
  · unfold Select.branch
    rw [htest]
    simp only
    rwa [bind_ok hload, bind_ok hload', bind_ok hcompare, bind_ok hnew, htarget, bind_ok hblock]
  · rw [hcode', hcode5, hcode4, hadds.code]
  · rw [hmarked', hmarked]
  · exact hnames.congr (hmarked4.trans hadds.marked) hmarked'
  · rw [hcode', hcode5, hempty]

end Parts

/-! ## Instructions -/

/-- What the translation of an instruction does. -/
structure Effect (globals : List String) (i : Instr) (s s' : State) : Prop where
  ext : Extends s s'
  names : Names (i.target.toList.map Label.name) s s'
  /-- What is added is known if there is a current block. -/
  emitted : ∀ b, s.current = some b → Emitted globals b s s' i
  /-- The block of a marked label is the current one, and empty. -/
  opened : ∀ l, i = .mark l → ∃ next, s'.marked[l.name]? = some next ∧ s'.current = some next ∧
    s'.code next = []

/-- An instruction is translated, and the labels `done` have been marked then. -/
def Translates (globals done : List String) (i : Instr) (s : State) : Prop :=
  ∃ s', instr globals i s = .ok ((), s') ∧ Ready done s' ∧ Effect globals i s s'

section Instructions

variable {i : Instr} {src : Operand}

lemma Computes.op_ne_mark {insts} (h : Computes globals i insts) : i.op ≠ .mark := by
  cases h with
  | copy | neg => nofun
  | binary r hop =>
    rintro rfl
    cases hop

/-- An operation is translated if its instructions are added to the current block. -/
lemma translates_of_computes (h : Ready done s)
    (hi : ∀ b s1, currentBlock s = .ok (b, s1) → b ≠ entry → b < s1.blocks.size →
      ∃ insts s', Computes globals i insts ∧ Adds b insts s1 s' ∧
      instr globals i s = .ok ((), s')) :
    Translates globals done i s := by
  obtain ⟨b, s1, hblock, h1, hext, hcur, hmarked, hsame⟩ := currentBlock_ok h
  obtain ⟨hentry, hb, hexit, hfirst⟩ := h1.current_open
  obtain ⟨insts, s', hinsts, hadds, hinstr⟩ := hi b s1 hblock hentry hb
  refine ⟨s', hinstr, .of_some (h1.adds (.head _) hadds) (hadds.current.trans hcur), ?_, ?_, ?_, ?_⟩
  · exact hext.trans (hadds.extends hfirst hexit)
  · intro l hl
    rw [hadds.marked, hmarked] at hl
    exact .inl hl
  · intro c hc
    obtain ⟨rfl, rfl⟩ := hsame c hc
    exact .plain hinsts hadds.code (hadds.current.trans hcur)
  · rintro l rfl
    exact absurd rfl hinsts.op_ne_mark

/-- A copy or a change of sign is translated. -/
lemma translates_unary {op : Opcode} (hop : op = .copy ∨ op = .neg) (h : Ready done s)
    (hdst : dst.Stored globals) (hsrc : src.Valued globals) :
    Translates globals done (.unary op dst src) s := by
  refine translates_of_computes h fun b s1 hblock hentry hb => ?_
  obtain ⟨s2, hload, hadds2, hresults⟩ := operand_ok hentry hb hsrc
  have hb2 : b < s2.blocks.size := hadds2.size.symm ▸ hb
  have hargs : operands globals b (Instr.unary op dst src).args s1 =
      .ok ([loaded s1.results src], s2) :=
    bind_ok hload
  unfold instr
  rcases hop with rfl | rfl
  · obtain ⟨place, s', hplace, hstore, hadds⟩ := storeTo_ok hentry hb2 hdst (loaded s1.results src)
    refine ⟨_, s', .copy s1.results hdst hsrc hplace, hadds2.trans hadds, ?_⟩
    rwa [if_neg (by nofun), bind_ok hblock, bind_ok hargs]
  · obtain ⟨place, s', hplace, hcompute, hadds⟩ :=
      arithmetic_ok hentry hb2 hdst .sub (.const 0) (loaded s1.results src)
    rw [hresults] at hadds
    refine ⟨_, s', .neg s1.results hdst hsrc hplace, hadds2.trans hadds, ?_⟩
    rwa [if_neg (by nofun), bind_ok hblock, bind_ok hargs]

/-- An arithmetic operation is translated. -/
lemma translates_binary {op : Opcode} (hop : op.isBinary = true) (h : Ready done s)
    (hdst : dst.Stored globals) (hleft : left.Valued globals) (hright : right.Valued globals) :
    Translates globals done (.binary op dst left right) s := by
  refine translates_of_computes h fun b s1 hblock hentry hb => ?_
  obtain ⟨s2, s3, hload, hload', hadds3, hresults⟩ := operands_ok hentry hb hleft hright
  have hargs : operands globals b (Instr.binary op dst left right).args s1 =
      .ok ([loaded s1.results left, loaded (after s1.results left) right], s3) := by
    have hsecond : operands globals b [some right] s2 =
        .ok ([loaded (after s1.results left) right], s3) :=
      bind_ok hload'
    exact (bind_ok hload).trans (bind_ok hsecond)
  obtain ⟨operation, hoperation, hinstr⟩ : ∃ operation, operation? op = some operation ∧
      instr globals (.binary op dst left right) s = Select.arithmetic globals b operation (some dst)
        [loaded s1.results left, loaded (after s1.results left) right] s3 := by
    unfold instr
    rw [if_neg (show (Instr.binary op dst left right).op ≠ .mark from ne_mark_of_isBinary hop),
      bind_ok hblock, bind_ok hargs]
    cases op with
    | add | sub | mul | div | rem => exact ⟨_, rfl, rfl⟩
    | _ => cases hop
  obtain ⟨place, s', hplace, hcompute, hadds⟩ :=
    arithmetic_ok (s := s3) hentry (hadds3.size.symm ▸ hb) hdst operation (loaded s1.results left)
    (loaded (after s1.results left) right)
  rw [hresults] at hadds
  have hall := hadds3.trans hadds
  rw [append_assoc] at hall
  exact ⟨_, s', .binary s1.results hoperation hdst hleft hright hplace, hall, hinstr.trans hcompute⟩

/-- A conditional jump is translated. -/
lemma translates_branch (wanted : Bool) {op : Opcode} {l : Label} (h : Ready done s)
    (hleft : left.Valued globals) (hright : right.Valued globals) :
    Translates globals done (.branch wanted op left right l) s := by
  obtain ⟨b, s1, hblock, h1, hext1, hcur, hmarked1, hsame⟩ := currentBlock_ok h
  have hfields : (Instr.branch wanted op left right l).test = some ⟨op, some left, some right⟩ ∧
      (Instr.branch wanted op left right l).target = some l := by
    cases wanted <;> exact ⟨rfl, rfl⟩
  obtain ⟨target, through, s', hbranch, h', hext, hcode, hexit, hmarked, hnames, hcur', hempty⟩ :=
    branch_ok wanted h1 hfields.1 hfields.2 hleft hright
  refine ⟨s', ?_, .of_some h' hcur', hext1.trans hext, ?_, ?_, ?_⟩
  · cases wanted with
    | true | false =>
      show (currentBlock >>= _) s = _
      rwa [bind_ok hblock]
  · rw [hfields.2]
    exact hnames.congr hmarked1 rfl
  · intro c hc
    obtain ⟨rfl, rfl⟩ := hsame c hc
    exact .branch s1.results hleft hright hcode hexit hmarked hcur' hempty
  · intro l' hl'
    cases wanted with
    | true | false => cases congrArg Instr.op hl'

lemma translates_jump {l : Label} (h : Ready done s) : Translates globals done (.jump l) s := by
  obtain ⟨b, s1, hblock, h1, hext1, hcur, hmarked1, hsame⟩ := currentBlock_ok h
  obtain ⟨target, s2, htarget, h2, hext2, hmarked, hnames, -, hcode2⟩ := blockOf_ok h1 l
  obtain ⟨s', hend, h', hext', hcur', hexit', hcode', hmarked'⟩ :=
    leave_ok (t := .jump target) h2 none (forall_mem_singleton.mpr (h2.marked _ _ hmarked))
  refine ⟨s', ?_, .of_none h' hcur', (hext1.trans hext2).trans hext',
    hnames.congr hmarked1 hmarked', ?_, ?_⟩
  · have hargs : operands globals b (Instr.jump l).args s1 = .ok ([], s1) := rfl
    show (currentBlock >>= _) s = _
    rw [bind_ok hblock, bind_ok hargs]
    exact (bind_ok htarget).trans hend
  · intro c hc
    obtain ⟨rfl, rfl⟩ := hsame c hc
    exact .jump ((hcode' c).trans (hcode2 c)) hexit' (by rw [hmarked', hmarked])
  · intro l' hl'
    cases congrArg Instr.op hl'

/-- A mark is translated if its label has not been marked before. -/
lemma translates_mark {l : Label} (h : Ready done s) (hl : l.name ∉ done) :
    Translates globals (done ++ [l.name]) (.mark l) s := by
  obtain ⟨next, s1, hblock, h1, hext1, hmarked, hnames, hcur1, hcode1⟩ := blockOf_ok h l
  have hempty := (h1.pending next ⟨_, hmarked, hl⟩).2.1
  have hnext := h1.mark hmarked hl
  cases hcur : s.current with
  | none =>
    rw [hcur] at hnext
    refine ⟨{ s1 with current := some next }, ?_, .of_some (hnext.congr rfl rfl rfl) rfl,
      hext1.congr rfl rfl, hnames, ?_, ?_⟩
    · show (blockOf (some l) >>= _) s = _
      rw [bind_ok hblock, bind_get, hcur1, hcur]
      rfl
    · intro b hb
      rw [hcur] at hb
      cases hb
    · intro l' hl'
      cases congrArg Instr.target hl'
      exact ⟨next, hmarked, rfl, hempty⟩
  | some b =>
    rw [hcur] at hnext
    have hlive := hnext.perm (.swap b next [entry])
    obtain ⟨s', hend, h', hext', hcur', hexit', hcode', hmarked'⟩ :=
      leave_ok (t := .jump next) hlive (some next)
      (forall_mem_singleton.mpr (h1.marked _ _ hmarked))
    refine ⟨s', ?_, .of_some h' hcur', hext1.trans hext', hnames.congr rfl hmarked', ?_, ?_⟩
    · show (blockOf (some l) >>= _) s = _
      rw [bind_ok hblock, bind_get, hcur1, hcur]
      obtain ⟨hb, hexit⟩ := hlive.opened b (.head _)
      obtain ⟨name, code, hopen⟩ := State.exists_open_block hb hexit
      simp only
      rwa [hopen]
    · intro c hc
      cases hcur.symm.trans hc
      exact .mark ((hcode' b).trans (hcode1 b)) hexit' hcur' (by rw [hcode', hempty])
    · intro l' hl'
      cases congrArg Instr.target hl'
      exact ⟨next, by rw [hmarked', hmarked], hcur', by rw [hcode', hempty]⟩

/-- Every instruction of a regular program is translated. -/
lemma translates_of_regular (hi : i.Regular globals) (h : Ready done s)
    (hfresh : ∀ l ∈ marked [i], l.name ∉ done) :
    Translates globals (done ++ (marked [i]).map Label.name) i s := by
  have hplain : i.op ≠ .mark → Translates globals done i s →
      Translates globals (done ++ (marked [i]).map Label.name) i s := by
    intro hmark
    rw [marked_cons_of_ne hmark, marked_nil, map_nil, append_nil]
    exact id
  cases hi with
  | unary hop hdst hsrc =>
    exact hplain (by rcases hop with rfl | rfl <;> nofun) (translates_unary hop h hdst hsrc)
  | binary hop hdst hleft hright =>
    exact hplain (ne_mark_of_isBinary hop) (translates_binary hop h hdst hleft hright)
  | branch wanted k hop hleft hright =>
    exact hplain (by cases wanted <;> nofun) (translates_branch wanted h hleft hright)
  | jump k => exact hplain (by nofun) (translates_jump h)
  | mark k => exact translates_mark h (hfresh _ mem_cons_self)

/-- Code in two parts is translated one after the other. -/
lemma instrs_append {c1 c2 : List Instr} {s1 : State} (h : instrs globals c1 s = .ok ((), s1)) :
    instrs globals (c1 ++ c2) s = instrs globals c2 s1 := by
  induction c1 generalizing s with
  | nil =>
    obtain rfl : s = s1 := (Prod.mk.inj (Except.ok.inj h)).2
    rfl
  | cons i c1 ih =>
    obtain ⟨⟨u, s2⟩, hi, hrest⟩ := bind_eq_ok h
    show (instr globals i >>= fun _ => instrs globals (c1 ++ c2)) s = _
    rw [bind_ok hi]
    exact ih hrest

/-- Regular code is translated, and names the labels that it jumps to or marks. -/
lemma instrs_ok {code : List Instr} (hcode : ∀ i ∈ code, i.Regular globals) (h : Ready done s)
    (hfresh : (done ++ (marked code).map Label.name).Nodup) :
    ∃ s', instrs globals code s = .ok ((), s') ∧
      Ready (done ++ (marked code).map Label.name) s' ∧ Extends s s' ∧
      Names (code.flatMap fun i => i.target.toList.map Label.name) s s' := by
  induction code generalizing s done with
  | nil => exact ⟨s, rfl, by simpa using h, .refl, fun l hl => .inl hl⟩
  | cons i code ih =>
    have hmarked : marked (i :: code) = marked [i] ++ marked code := marked_append [i] code
    rw [hmarked, map_append, ← append_assoc] at hfresh ⊢
    have hnew : ∀ l ∈ marked [i], l.name ∉ done := by
      intro l hl hdone
      exact (nodup_append.mp hfresh.of_append_left).2.2 _ hdone _ (mem_map_of_mem hl) rfl
    obtain ⟨s1, hi, h1, heffect⟩ := translates_of_regular (hcode i mem_cons_self) h hnew
    obtain ⟨s', hrest, h', hext, hnames⟩ :=
      ih (fun j hj => hcode j (mem_cons_of_mem _ hj)) h1 hfresh
    refine ⟨s', (bind_ok hi).trans hrest, h', heffect.ext.trans hext, ?_⟩
    intro l hl
    rw [flatMap_cons, mem_append]
    rcases hnames l hl with hl | hl
    · rcases heffect.names l hl with hl | hl
      · exact .inl hl
      · exact .inr (.inl hl)
    · exact .inr (.inr hl)

end Instructions

/-! ## Programs -/

/-- The instructions that print variables; the next result has the number `r`. -/
def printInsts (r : Nat) : List String → List Inst
  | [] => []
  | x :: xs => .format r x :: .load (r + 1) (.global x) :: .print (r + 2) (.result r)
      (.result (r + 1)) :: printInsts (r + 3) xs

/-- All blocks have ended. -/
structure Closed (s : State) : Prop extends Sound s where
  entry_jumps : s.exit? entry = some (.jump body)
  ended : ∀ b, b < s.blocks.size → s.exit? b ≠ none

/-- The state after a program has been translated, compared with that after its code has been. -/
structure Finished (globals : List String) (s s' : State) : Prop where
  closed : Closed s'
  ext : Extends s s'
  /-- The variables are printed behind the code. -/
  prints : ∀ b, s.current = some b →
    s'.exit? b = some .ret ∧ ∃ r, s'.code b = s.code b ++ printInsts r globals

section Programs

variable {p : Program}

lemma code_start : ∀ b, State.code {} b = []
  | 0 => rfl
  | 1 => rfl
  | _ + 2 => rfl

lemma exit?_start : ∀ b, State.exit? {} b = none
  | 0 => rfl
  | 1 => rfl
  | _ + 2 => rfl

/-- In the beginning there are the first block and the current one. -/
lemma ready_start : Ready [] {} := by
  have hsound : Sound {} := by
    refine ⟨by decide, ⟨[], code_start entry, .nil, fun n => by simp⟩, fun b t ht =>
      ?_, fun b _ inst hinst => ?_⟩
    · rw [exit?_start] at ht
      cases ht
    · rw [code_start] at hinst
      cases hinst
  refine ⟨hsound, by decide, ?_, fun l b hb => by simp at hb, fun l l' b hb => by simp at hb,
    forall_mem_nil _, ?_, ?_⟩
  · exact forall_mem_cons.mpr ⟨⟨by decide, exit?_start body⟩,
      forall_mem_singleton.mpr ⟨by decide, exit?_start entry⟩⟩
  · rintro b ⟨l, hl, -⟩
    simp at hl
  · intro b hsize _
    have hlt : b < 2 := hsize
    have hmem : b ∈ [1, 0] := by
      simp only [mem_cons, not_mem_nil, or_false]
      omega
    exact .inl hmem

/-- The instructions that print variables are added to a block. -/
lemma prints_ok (hentry : b ≠ entry) (hb : b < s.blocks.size) (xs : List String) :
    ∃ s', prints b xs s = .ok ((), s') ∧ Adds b (printInsts s.results xs) s s' := by
  induction xs generalizing s with
  | nil => exact ⟨s, rfl, .refl⟩
  | cons x xs ih =>
    obtain ⟨s1, hformat, hadds1, hresults1⟩ := addResult_ok hentry hb fun r => .format r x
    have hb1 : b < s1.blocks.size := hadds1.size.symm ▸ hb
    obtain ⟨s2, hload, hadds2, hresults2⟩ := addResult_ok hentry hb1 fun r => .load r (.global x)
    have hb2 : b < s2.blocks.size := hadds2.size.symm ▸ hb1
    obtain ⟨s3, hprint, hadds3, hresults3⟩ :=
      addResult_ok hentry hb2 fun r => .print r (.result s.results) (.result s1.results)
    obtain ⟨s', hrest, hadds⟩ := ih (s := s3) (hadds3.size.symm ▸ hb2)
    refine ⟨s', ?_, ?_⟩
    · exact (bind_ok hformat).trans ((bind_ok hload).trans ((bind_ok hprint).trans hrest))
    · have hall := hadds1.trans (hadds2.trans (hadds3.trans hadds))
      rwa [hresults3, hresults2, hresults1] at hall

/-- The variables are printed in the current block, or in a new one if there is none. -/
lemma last_ok (h : Ready done s) : ∃ last s', (∀ rest : Nat → Select Unit, (match s.current with
      | some b => pure b >>= rest
      | none => newBlock "exit" >>= rest) s = rest last s') ∧
    Built done [last, entry] s' ∧ Extends s s' ∧ s'.marked = s.marked ∧
    ∀ b, s.current = some b → b = last ∧ s' = s := by
  unfold Ready at h
  cases hcur : s.current with
  | some b =>
    rw [hcur] at h
    exact ⟨b, s, fun _ => rfl, h, .refl, rfl, fun c hc => ⟨(Option.some.inj hc).symm, rfl⟩⟩
  | none =>
    rw [hcur] at h
    exact ⟨_, _, fun _ => rfl, h.push "exit", .push "exit", rfl, nofun⟩

/-- All labels that a regular program names are marked. -/
lemma mem_marked_of_named (hp : p.Regular) {l}
    (hl : l ∈ p.code.flatMap fun i => i.target.toList.map Label.name) :
    l ∈ (marked p.code).map Label.name := by
  obtain ⟨i, hi, hl⟩ := mem_flatMap.mp hl
  obtain ⟨label, hlabel, rfl⟩ := mem_map.mp hl
  rw [Option.mem_toList] at hlabel
  have hmark : .mark label ∈ p.code := by
    by_cases hjump : i.op.isJump = true
    · exact hp.targets i hi hjump label hlabel
    · cases hp.forms i hi with
      | unary | binary => cases hlabel
      | branch wanted => exact absurd (by cases wanted <;> rfl) hjump
      | jump => exact absurd rfl hjump
      | mark =>
        cases hlabel
        exact hi
  exact mem_map_of_mem (mem_filterMap.mpr ⟨_, hmark, rfl⟩)

/-- No block is left for a label that is not marked. -/
lemma not_pending (hp : p.Regular)
    (hnames : Names (p.code.flatMap fun i => i.target.toList.map Label.name) {} s) :
    ¬ Pending s ((marked p.code).map Label.name) b := by
  rintro ⟨l, hl, hdone⟩
  rcases hnames l (by rw [hl]; exact Option.some_ne_none b) with hstart | hnamed
  · exact hstart Std.TreeMap.getElem?_emptyc
  · exact hdone (mem_marked_of_named hp hnamed)

/-- After the current block and the first one have ended, all blocks have, if none is left for a
label. -/
lemma Built.closed (h : Built done [b, entry] s) (hpending : ∀ c, ¬ Pending s done c) :
    Closed ((s.close b .ret).close entry (.jump body)) ∧
    Extends s ((s.close b .ret).close entry (.jump body)) ∧
      ((s.close b .ret).close entry (.jump body)).exit? b = some .ret := by
  obtain ⟨hentry, hb, hopen, -⟩ := h.current_open
  have hend := h.close (t := .ret) (forall_mem_nil _)
  obtain ⟨hsize, hfirst⟩ := hend.opened entry (.head _)
  have hall := hend.close (t := .jump body) (forall_mem_singleton.mpr ⟨by decide, hend.size⟩)
  refine ⟨⟨hall.toSound, ?_, fun c hc hnone => ?_⟩, ?_, ?_⟩
  · rw [State.exit?_close hsize, if_pos rfl]
  · rcases hall.ended c hc hnone with hmem | hleft
    · cases hmem
    · exact hpending c hleft
  · exact (Extends.close hb hopen .ret).trans (.close hsize hfirst (.jump body))
  · rw [State.exit?_close hsize, if_neg hentry, State.exit?_close hb, if_pos rfl]

/-- Regular programs are translated. -/
theorem program_ok (hp : p.Regular) :
    ∃ s s', instrs (p.globals.map Prod.fst) p.code {} = .ok ((), s) ∧
    program (p.globals.map Prod.fst) p.code {} = .ok ((), s') ∧
    Finished (p.globals.map Prod.fst) s s' := by
  obtain ⟨s, hcode, h, -, hnames⟩ := instrs_ok hp.forms ready_start (by simpa using hp.marks)
  rw [nil_append] at h
  obtain ⟨last, s1, hlast, h1, hext1, hmarked1, hsame⟩ := last_ok h
  obtain ⟨hentry, hsize, hopen, hfirst⟩ := h1.current_open
  obtain ⟨s2, hprints, hadds⟩ := prints_ok (s := s1) hentry hsize (p.globals.map Prod.fst)
  have hpending : ∀ c, ¬ Pending s2 ((marked p.code).map Label.name) c := by
    intro c
    rw [Pending, hadds.marked, hmarked1]
    exact not_pending hp hnames
  obtain ⟨hclosed, hext, hret⟩ := (h1.adds (.head _) hadds).closed hpending
  refine ⟨s, (s2.close last .ret).close entry (.jump body), hcode, ?_, hclosed, ?_, ?_⟩
  · unfold program
    rw [bind_ok hcode, bind_get]
    exact (hlast _).trans (bind_ok hprints)
  · exact (hext1.trans (hadds.extends hfirst hopen)).trans hext
  · intro b hb
    obtain ⟨rfl, rfl⟩ := hsame b hb
    refine ⟨hret, s1.results, ?_⟩
    rw [State.code_close, State.code_close, hadds.code]

end Programs

end ThreeAddress.Llvm
