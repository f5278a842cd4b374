import ThreeAddress.Proofs.Llvm.Language

/-!
# Blocks are built for every regular program

While the code of a program is translated, its blocks are of three kinds: those that are live, among
them the first block, which only gets stack slots, and the current one; blocks of labels that have
been named but not marked yet, which are empty; and blocks that have ended. `Built` says this, and
each change of the blocks keeps it. A block that has ended is not touched any more, and instructions
are only added at the end of a block, so that what has been built once can be found in the finished
module (`Extends`).
-/

namespace ThreeAddress.Llvm

open List Lowering

variable {s s1 s' : State} {b : Nat} {done : List String} {live : List Nat}

/-! ## What has been built -/

namespace State

/-- The instructions of a block. -/
def code (s : State) (b : Nat) : List Inst :=
  match s.blocks[b]? with
  | some block => block.code.toList
  | none => []

/-- The end of a block. -/
def exit? (s : State) (b : Nat) : Option Terminator :=
  match s.blocks[b]? with
  | some block => block.terminator
  | none => none

end State

/-- The stack slots are those that the first block makes. -/
def Slotted (s : State) : Prop :=
  ∃ names : List String, s.code entry = names.map .alloca ∧ names.Nodup ∧
    ∀ n, s.slots.contains n = true ↔ n ∈ names

/-- A block is that of a label which is not marked yet. -/
def Pending (s : State) (done : List String) (b : Nat) : Prop :=
  ∃ l, s.marked[l]? = some b ∧ l ∉ done

/-- What holds of the blocks whichever of them have ended. -/
structure Sound (s : State) : Prop where
  size : body < s.blocks.size
  slotted : Slotted s
  /-- Blocks lead to blocks, but not to the first one. -/
  targets : ∀ b t, s.exit? b = some t → ∀ c ∈ t.targets, c ≠ entry ∧ c < s.blocks.size
  /-- Other blocks than the first make no slots, and use those that there are. -/
  used : ∀ b, b ≠ entry → ∀ inst ∈ s.code b, inst.allocates? = none ∧
    ∀ n, inst.loads? = some n ∨ inst.stores? = some n → s.slots.contains n = true

/-- What holds of the blocks after the labels `done` have been marked, while the blocks `live` have
not ended. -/
structure Built (done : List String) (live : List Nat) (s : State) : Prop extends Sound s where
  nodup : live.Nodup
  opened : ∀ b ∈ live, b < s.blocks.size ∧ s.exit? b = none
  marked : ∀ (l : String) b, s.marked[l]? = some b → b ≠ entry ∧ b < s.blocks.size
  distinct : ∀ (l l' : String) b, s.marked[l]? = some b → s.marked[l']? = some b → l = l'
  named : ∀ l ∈ done, s.marked[l]? ≠ none
  /-- The block of a label that is not marked yet is empty. -/
  pending : ∀ b, Pending s done b → b ∉ live ∧ s.code b = [] ∧ s.exit? b = none
  /-- Every other block has ended. -/
  ended : ∀ b, b < s.blocks.size → s.exit? b = none → b ∈ live ∨ Pending s done b

/-- Instructions have been added to blocks that had not ended, and blocks have been ended and made.
-/
structure Extends (s s' : State) : Prop where
  size : s.blocks.size ≤ s'.blocks.size
  code : ∀ b, s.code b <+: s'.code b
  exit : ∀ b t, s.exit? b = some t → s'.exit? b = some t ∧ s'.code b = s.code b
  marked : ∀ (l : String) b, s.marked[l]? = some b → s'.marked[l]? = some b

lemma Extends.refl : Extends s s :=
    ⟨le_refl _, fun _ => prefix_refl _, fun _ _ ht => ⟨ht, rfl⟩, fun _ _ h => h⟩

lemma Extends.trans (h1 : Extends s s1) (h2 : Extends s1 s') : Extends s s' where
  size := le_trans h1.size h2.size
  code b := (h1.code b).trans (h2.code b)
  exit b t ht := by
    obtain ⟨ht1, hcode1⟩ := h1.exit b t ht
    obtain ⟨ht2, hcode2⟩ := h2.exit b t ht1
    exact ⟨ht2, hcode2.trans hcode1⟩
  marked l b h := h2.marked l b (h1.marked l b h)

/-! ## Changes of a state -/

/-- A state with one more block. -/
def State.push (s : State) (name : String) : State := { s with blocks := s.blocks.push { name } }

/-- A state with one more instruction in a block. -/
def State.add (s : State) (b : Nat) (i : Inst) : State :=
  { s with blocks := s.blocks.modify b fun block => { block with code := block.code.push i } }

/-- A state in which a block has ended. -/
def State.close (s : State) (b : Nat) (t : Terminator) : State :=
  { s with blocks := s.blocks.modify b fun block => { block with terminator := some t } }

namespace State

variable {c : Nat}

@[simp] lemma code_push (name : String) : (s.push name).code c = s.code c := by
  unfold code push
  rw [Array.getElem?_push]
  by_cases hc : c = s.blocks.size
  · simp [hc]
  · rw [if_neg hc]

@[simp] lemma exit?_push (name : String) : (s.push name).exit? c = s.exit? c := by
  unfold exit? push
  rw [Array.getElem?_push]
  by_cases hc : c = s.blocks.size
  · simp [hc]
  · rw [if_neg hc]

lemma code_size : s.code s.blocks.size = [] := by simp [code]

/-- A block that has not ended. -/
lemma exists_open_block (hb : b < s.blocks.size) (hexit : s.exit? b = none) :
    ∃ name code, s.blocks[b]? = some { name, code } := by
  obtain ⟨⟨name, code, terminator⟩, hblock⟩ : ∃ block, s.blocks[b]? = some block :=
    ⟨_, Array.getElem?_eq_getElem hb⟩
  unfold exit? at hexit
  rw [hblock] at hexit
  obtain rfl : terminator = none := hexit
  exact ⟨name, code, hblock⟩

@[simp] lemma size_push (name : String) : (s.push name).blocks.size = s.blocks.size + 1 :=
    Array.size_push _

/-- An instruction is added at the end of a block. -/
lemma code_add (hb : b < s.blocks.size) (i : Inst) :
    (s.add b i).code c = if c = b then s.code b ++ [i] else s.code c := by
  unfold code add
  rw [Array.getElem?_modify]
  by_cases hbc : b = c
  · simp [hbc, hbc ▸ hb]
  · rw [if_neg hbc, if_neg fun h => hbc h.symm]

@[simp] lemma exit?_add (i : Inst) : (s.add b i).exit? c = s.exit? c := by
  unfold exit? add
  rw [Array.getElem?_modify]
  by_cases hbc : b = c
  · rw [if_pos hbc]
    cases s.blocks[c]? <;> rfl
  · rw [if_neg hbc]

@[simp] lemma size_add (i : Inst) : (s.add b i).blocks.size = s.blocks.size := Array.size_modify

@[simp] lemma code_close (t : Terminator) : (s.close b t).code c = s.code c := by
  unfold code close
  rw [Array.getElem?_modify]
  by_cases hbc : b = c
  · rw [if_pos hbc]
    cases s.blocks[c]? <;> rfl
  · rw [if_neg hbc]

lemma exit?_close (hb : b < s.blocks.size) (t : Terminator) :
    (s.close b t).exit? c = if c = b then some t else s.exit? c := by
  unfold exit? close
  rw [Array.getElem?_modify]
  by_cases hbc : b = c
  · simp [hbc, hbc ▸ hb]
  · rw [if_neg hbc, if_neg fun h => hbc h.symm]

@[simp] lemma size_close (t : Terminator) : (s.close b t).blocks.size = s.blocks.size :=
    Array.size_modify

end State

/-! ## Steps of building -/

lemma Sound.congr {s'} (h : Sound s) (hblocks : s'.blocks = s.blocks)
    (hslots : s'.slots = s.slots) : Sound s' := by
  obtain ⟨blocks, current, marked, slots, unmarked, results⟩ := s'
  subst hblocks hslots
  exact ⟨h.size, h.slotted, h.targets, h.used⟩

/-- A new block is empty. -/
lemma Sound.push (h : Sound s) (name : String) : Sound (s.push name) where
  size := by
    rw [State.size_push]
    exact Nat.lt_succ_of_lt h.size
  slotted := by
    obtain ⟨names, hcode, hnames⟩ := h.slotted
    exact ⟨names, by rw [State.code_push, hcode], hnames⟩
  targets c t ht d hd := by
    rw [State.exit?_push] at ht
    obtain ⟨hentry, hsize⟩ := h.targets c t ht d hd
    exact ⟨hentry, by rw [State.size_push]; omega⟩
  used c hc := by
    rw [State.code_push]
    exact h.used c hc

/-- A block ends by leading to blocks. -/
lemma Sound.close (h : Sound s) (hb : b < s.blocks.size) {t}
    (ht : ∀ c ∈ t.targets, c ≠ entry ∧ c < s.blocks.size) :
    Sound (s.close b t) where
  size := by
    rw [State.size_close]
    exact h.size
  slotted := by
    obtain ⟨names, hcode, hnames⟩ := h.slotted
    exact ⟨names, by rw [State.code_close, hcode], hnames⟩
  targets c t' ht' d hd := by
    rw [State.size_close]
    rw [State.exit?_close hb] at ht'
    by_cases hcb : c = b
    · rw [if_pos hcb] at ht'
      cases ht'
      exact ht d hd
    · rw [if_neg hcb] at ht'
      exact h.targets c t' ht' d hd
  used c hc := by
    rw [State.code_close]
    exact h.used c hc

/-- Only the blocks, the slots and the labels matter. -/
lemma Built.congr (h : Built done live s) (hblocks : s'.blocks = s.blocks)
    (hslots : s'.slots = s.slots) (hmarked : s'.marked = s.marked) : Built done live s' := by
  obtain ⟨blocks, current, marked, slots, unmarked, results⟩ := s'
  subst hblocks hslots hmarked
  exact ⟨h.toSound.congr rfl rfl, h.nodup, h.opened, h.marked, h.distinct, h.named,
    h.pending, h.ended⟩

/-- The order of the live blocks does not matter. -/
lemma Built.perm {live'} (h : Built done live s) (hperm : live.Perm live') :
    Built done live' s :=
  { h with
    nodup := hperm.nodup_iff.mp h.nodup
    opened := fun b hb => h.opened b (hperm.mem_iff.mpr hb)
    pending := fun b hb => (h.pending b hb).imp_left fun hlive hmem =>
      hlive (hperm.mem_iff.mpr hmem)
    ended := fun b hsize hexit => (h.ended b hsize hexit).imp_left hperm.mem_iff.mp }

lemma Built.push (h : Built done live s) (name : String) :
    Built done (s.blocks.size :: live) (s.push name) where
  toSound := h.toSound.push name
  nodup := nodup_cons.mpr ⟨fun hmem => Nat.lt_irrefl _ (h.opened _ hmem).1, h.nodup⟩
  opened := by
    simp only [forall_mem_cons, State.size_push, State.exit?_push]
    exact ⟨⟨Nat.lt_succ_self _, by simp [State.exit?]⟩, fun c hc =>
      (h.opened c hc).imp_left Nat.lt_succ_of_lt⟩
  marked l c hc := by
    rw [State.size_push]
    exact (h.marked l c hc).imp_right Nat.lt_succ_of_lt
  distinct := h.distinct
  named := h.named
  pending c hc := by
    obtain ⟨hlive, hempty⟩ := h.pending c hc
    obtain ⟨l, hl, -⟩ := hc
    rw [State.code_push, State.exit?_push]
    exact ⟨not_mem_cons_of_ne_of_not_mem (h.marked l c hl).2.ne hlive, hempty⟩
  ended c hsize hexit := by
    rw [State.size_push] at hsize
    rw [State.exit?_push] at hexit
    rcases Nat.lt_succ_iff_lt_or_eq.mp hsize with hsize | rfl
    · exact (h.ended c hsize hexit).imp_left (.tail _)
    · exact .inl (.head _)

lemma Built.close (h : Built done (b :: live) s) {t}
    (ht : ∀ c ∈ t.targets, c ≠ entry ∧ c < s.blocks.size) :
    Built done live (s.close b t) := by
  obtain ⟨hlive, hnodup⟩ := nodup_cons.mp h.nodup
  have hsize := (h.opened b (.head _)).1
  have hother : ∀ c, c ≠ b → (s.close b t).exit? c = s.exit? c := by
    intro c hc
    rw [State.exit?_close hsize, if_neg hc]
  refine ⟨h.toSound.close hsize ht, hnodup, fun c hc => ?_, fun l c hc => ?_, h.distinct,
    h.named, fun c hc => ?_, fun c hsize' hexit => ?_⟩
  · rw [State.size_close, hother c (ne_of_mem_of_not_mem hc hlive)]
    exact h.opened c (.tail _ hc)
  · rw [State.size_close]
    exact h.marked l c hc
  · obtain ⟨hidle, hcode, hexit⟩ := h.pending c hc
    obtain ⟨hcb, hrest⟩ := not_or.mp (mt mem_cons.mpr hidle)
    rw [State.code_close, hother c hcb]
    exact ⟨hrest, hcode, hexit⟩
  · have hcb : c ≠ b := by
      rintro rfl
      rw [State.exit?_close hsize, if_pos rfl] at hexit
      cases hexit
    rw [State.size_close] at hsize'
    rw [hother c hcb] at hexit
    exact (h.ended c hsize' hexit).imp_left fun hmem => (mem_cons.mp hmem).resolve_left hcb

/-- The block of a label is live from the mark on. -/
lemma Built.mark (h : Built done live s) {l} (hl : s.marked[l]? = some b) (hdone : l ∉ done) :
    Built (done ++ [l]) (b :: live) s := by
  obtain ⟨hlive, -, hexit⟩ := h.pending b ⟨l, hl, hdone⟩
  refine ⟨h.toSound, nodup_cons.mpr ⟨hlive, h.nodup⟩,
    forall_mem_cons.mpr ⟨⟨(h.marked l b hl).2, hexit⟩, h.opened⟩,
    h.marked, h.distinct, ?_, ?_, fun c hsize hexit => ?_⟩
  · refine forall_mem_append.mpr ⟨h.named, forall_mem_singleton.mpr ?_⟩
    rw [hl]
    exact Option.some_ne_none b
  · rintro c ⟨l', hl', hdone'⟩
    rw [mem_append, mem_singleton, not_or] at hdone'
    obtain ⟨hidle, hempty⟩ := h.pending c ⟨l', hl', hdone'.1⟩
    refine ⟨not_mem_cons_of_ne_of_not_mem (fun hcb => hdone'.2 ?_) hidle, hempty⟩
    exact h.distinct l' l b (hcb ▸ hl') hl
  · rcases h.ended c hsize hexit with hmem | ⟨l', hl', hdone'⟩
    · exact .inl (.tail _ hmem)
    · by_cases hll : l' = l
      · subst hll
        cases hl.symm.trans hl'
        exact .inl (.head _)
      · exact .inr ⟨l', hl', by simp [hdone', hll]⟩

/-- A block that is looked up was there for its label, or is the one that has been added. -/
lemma lookup_insert {blocks : Std.TreeMap String Nat} {l l' c}
    (h : (blocks.insert l b)[l']? = some c) :
    l' = l ∧ c = b ∨ blocks[l']? = some c := by
  rw [Std.TreeMap.getElem?_insert] at h
  by_cases hll : l = l'
  · subst hll
    rw [if_pos Std.ReflCmp.compare_self] at h
    exact .inl ⟨rfl, (Option.some.inj h).symm⟩
  · rw [if_neg (by simpa using hll)] at h
    exact .inr h

/-- The blocks of other labels stay when one is added for a label that had none. -/
lemma lookup_insert_of_new {blocks : Std.TreeMap String Nat} {l l' : String} {c : Nat}
    (hl : blocks[l]? = none) (h : blocks[l']? = some c) : (blocks.insert l b)[l']? = some c := by
  have hll : l ≠ l' := by
    rintro rfl
    rw [hl] at h
    cases h
  rwa [Std.TreeMap.getElem?_insert, if_neg (by simpa using hll)]

/-- A block that is new is given to a label that has none. -/
lemma Built.label (h : Built done (b :: live) s) {l : String} (hl : s.marked[l]? = none)
    (hnew : ∀ l' : String, s.marked[l']? ≠ some b) (hentry : b ≠ entry) (hcode : s.code b = []) :
    Built done live { s with marked := s.marked.insert l b } := by
  obtain ⟨hlive, hnodup⟩ := nodup_cons.mp h.nodup
  obtain ⟨⟨hsize, hexit⟩, hopened⟩ := forall_mem_cons.mp h.opened
  refine ⟨h.toSound.congr rfl rfl, hnodup, hopened, ?_, ?_, ?_, ?_, ?_⟩
  · intro l' c hc
    rcases lookup_insert hc with ⟨-, rfl⟩ | hc
    · exact ⟨hentry, hsize⟩
    · exact h.marked l' c hc
  · intro l1 l2 c h1 h2
    rcases lookup_insert h1 with ⟨rfl, rfl⟩ | hold1
    · rcases lookup_insert h2 with ⟨rfl, -⟩ | hold2
      · rfl
      · exact absurd hold2 (hnew l2)
    · rcases lookup_insert h2 with ⟨rfl, rfl⟩ | hold2
      · exact absurd hold1 (hnew l1)
      · exact h.distinct l1 l2 c hold1 hold2
  · intro l' hl'
    obtain ⟨c, hc⟩ := Option.ne_none_iff_exists'.mp (h.named l' hl')
    rw [lookup_insert_of_new hl hc]
    exact Option.some_ne_none c
  · rintro c ⟨l', hl', hdone⟩
    rcases lookup_insert hl' with ⟨-, rfl⟩ | hl'
    · exact ⟨hlive, hcode, hexit⟩
    · exact (h.pending c ⟨l', hl', hdone⟩).imp_left fun hidle hmem => hidle (.tail _ hmem)
  · intro c hsize' hexit'
    rcases h.ended c hsize' hexit' with hmem | ⟨l', hl', hdone⟩
    · rcases mem_cons.mp hmem with rfl | hmem
      · exact .inr ⟨l, Std.TreeMap.getElem?_insert_self, fun hdone => h.named l hdone hl⟩
      · exact .inl hmem
    · exact .inr ⟨l', lookup_insert_of_new hl hl', hdone⟩

/-! ## Added instructions -/

/-- Instructions have been added to a block, and the slots that they use have been made. -/
structure Adds (b : Nat) (insts : List Inst) (s s' : State) : Prop where
  size : s'.blocks.size = s.blocks.size
  current : s'.current = s.current
  marked : s'.marked = s.marked
  exit : ∀ c, s'.exit? c = s.exit? c
  code : s'.code b = s.code b ++ insts
  others : ∀ c, c ≠ entry → c ≠ b → s'.code c = s.code c
  first : s.code entry <+: s'.code entry
  slotted : Slotted s → Slotted s'
  slots : ∀ n, s.slots.contains n = true → s'.slots.contains n = true
  used : ∀ inst ∈ insts, inst.allocates? = none ∧
    ∀ n, inst.loads? = some n ∨ inst.stores? = some n → s'.slots.contains n = true

section Added

variable {insts insts' : List Inst}

lemma Adds.refl : Adds b [] s s :=
  ⟨rfl, rfl, rfl, fun _ => rfl, (append_nil _).symm, fun _ _ _ => rfl, prefix_refl _, fun h => h,
    fun _ h => h, forall_mem_nil _⟩

lemma Adds.trans (h : Adds b insts s s1) (h' : Adds b insts' s1 s') :
    Adds b (insts ++ insts') s s' where
  size := h'.size.trans h.size
  current := h'.current.trans h.current
  marked := h'.marked.trans h.marked
  exit c := (h'.exit c).trans (h.exit c)
  code := by rw [h'.code, h.code, append_assoc]
  others c hentry hb := (h'.others c hentry hb).trans (h.others c hentry hb)
  first := h.first.trans h'.first
  slotted hs := h'.slotted (h.slotted hs)
  slots n hn := h'.slots n (h.slots n hn)
  used := by
    intro inst hinst
    rcases mem_append.mp hinst with hinst | hinst
    · exact (h.used inst hinst).imp_right fun huses n hn => h'.slots n (huses n hn)
    · exact h'.used inst hinst

lemma Adds.renumber (h : Adds b insts s s') (results : Nat) : Adds b insts s { s' with results } :=
  ⟨h.size, h.current, h.marked, h.exit, h.code, h.others, h.first, h.slotted, h.slots, h.used⟩

/-- An instruction is added that uses only slots that there are. -/
lemma Adds.inst (hentry : b ≠ entry) (hb : b < s.blocks.size) {inst}
    (hmakes : inst.allocates? = none)
    (huses : ∀ n, inst.loads? = some n ∨ inst.stores? = some n →
      s.slots.contains n = true) :
    Adds b [inst] s (s.add b inst) where
  size := State.size_add inst
  current := rfl
  marked := rfl
  exit c := State.exit?_add inst
  code := by rw [State.code_add hb, if_pos rfl]
  others c _ hc := by rw [State.code_add hb, if_neg hc]
  first := ⟨[], by rw [append_nil, State.code_add hb, if_neg hentry.symm]⟩
  slotted := by
    rintro ⟨names, hcode, hnames⟩
    exact ⟨names, by rw [State.code_add hb, if_neg hentry.symm, hcode], hnames⟩
  slots n hn := hn
  used := forall_mem_singleton.mpr ⟨hmakes, huses⟩

/-- A slot is made that was not there. -/
lemma Adds.slot (hentry : b ≠ entry) (hsize : entry < s.blocks.size) {n}
    (hn : s.slots.contains n = false) :
    Adds b [] s { s.add entry (.alloca n) with slots := s.slots.insert n } := by
  have hothers : ∀ c, c ≠ entry → (s.add entry (.alloca n)).code c = s.code c :=
    fun c hc => by rw [State.code_add hsize, if_neg hc]
  have hfirst : (s.add entry (.alloca n)).code entry = s.code entry ++ [.alloca n] := by
    rw [State.code_add hsize, if_pos rfl]
  refine ⟨State.size_add _, rfl, rfl, fun c => State.exit?_add _, ?_, fun c hc _ => hothers c hc,
    ⟨_, hfirst.symm⟩, ?_, fun n' hn' => ?_, forall_mem_nil _⟩
  · rw [append_nil]
    exact hothers b hentry
  · rintro ⟨names, hcode, hnodup, hnames⟩
    refine ⟨names ++ [n], ?_, ?_, ?_⟩
    · rwa [map_append, ← hcode]
    · have hfresh : n ∉ names := by
        intro hmem
        rw [(hnames n).mpr hmem] at hn
        cases hn
      exact hnodup.append (nodup_singleton n) (disjoint_singleton.mpr hfresh)
    · intro n'
      rw [mem_append, ← hnames, mem_singleton]
      rw [Std.TreeSet.contains_insert, Bool.or_eq_true, beq_iff_eq,
        Std.LawfulEqCmp.compare_eq_iff_eq, or_comm, @eq_comm _ n n']
  · rw [Std.TreeSet.contains_insert, hn', Bool.or_true]

/-- Added instructions use slots that there are. -/
lemma Sound.adds (h : Sound s) (hadds : Adds b insts s s') : Sound s' where
  size := by
    rw [hadds.size]
    exact h.size
  slotted := hadds.slotted h.slotted
  targets c t ht := by
    rw [hadds.exit] at ht
    rw [hadds.size]
    exact h.targets c t ht
  used c hentry inst hinst := by
    have hold (hmem : inst ∈ s.code c) :=
      (h.used c hentry inst hmem).imp_right fun huses n hn => hadds.slots n (huses n hn)
    by_cases hc : c = b
    · subst hc
      rw [hadds.code] at hinst
      rcases mem_append.mp hinst with hinst | hinst
      · exact hold hinst
      · exact hadds.used inst hinst
    · rw [hadds.others c hentry hc] at hinst
      exact hold hinst

/-- Instructions may be added to a live block. -/
lemma Built.adds (h : Built done live s) (hb : b ∈ live) (hadds : Adds b insts s s') :
    Built done live s' := by
  refine ⟨h.toSound.adds hadds, h.nodup, fun c hc => ?_, ?_, ?_, ?_, ?_, fun c hsize hexit => ?_⟩
  · rw [hadds.size, hadds.exit]
    exact h.opened c hc
  · rw [hadds.marked, hadds.size]
    exact h.marked
  · rw [hadds.marked]
    exact h.distinct
  · rw [hadds.marked]
    exact h.named
  · rintro c ⟨l, hl, hdone⟩
    rw [hadds.marked] at hl
    obtain ⟨hidle, hempty⟩ := h.pending c ⟨l, hl, hdone⟩
    rw [hadds.others c (h.marked l c hl).1 (ne_of_mem_of_not_mem hb hidle).symm, hadds.exit]
    exact ⟨hidle, hempty⟩
  · rw [hadds.size] at hsize
    rw [hadds.exit] at hexit
    rw [Pending, hadds.marked]
    exact h.ended c hsize hexit

/-- Added instructions extend what has been built. -/
lemma Adds.extends (h : Adds b insts s s') (hentry : s.exit? entry = none) (hb : s.exit? b = none) :
    Extends s s' where
  size := h.size.ge
  code c := by
    by_cases hc : c = entry
    · rw [hc]
      exact h.first
    · by_cases hcb : c = b
      · rw [hcb, h.code]
        exact prefix_append _ _
      · exact ⟨[], by rw [append_nil, h.others c hc hcb]⟩
  exit c t ht := by
    have hc : c ≠ entry := by
      rintro rfl
      rw [hentry] at ht
      cases ht
    have hcb : c ≠ b := by
      rintro rfl
      rw [hb] at ht
      cases ht
    exact ⟨(h.exit c).trans ht, h.others c hc hcb⟩
  marked l c hc := by rw [h.marked, hc]

lemma Extends.congr (h : Extends s s1) (hblocks : s'.blocks = s1.blocks)
    (hmarked : s'.marked = s1.marked) :
    Extends s s' := by
  obtain ⟨blocks, current, marked, slots, unmarked, results⟩ := s'
  subst hblocks hmarked
  exact ⟨h.size, h.code, h.exit, h.marked⟩

lemma Extends.push (name : String) : Extends s (s.push name) where
  size := by
    rw [State.size_push]
    exact Nat.le_succ _
  code c := ⟨[], by rw [append_nil, State.code_push]⟩
  exit c t ht := ⟨(State.exit?_push name).trans ht, State.code_push name⟩
  marked l c hc := hc

/-- The end of a block that had none extends what has been built. -/
lemma Extends.close (hsize : b < s.blocks.size) (hb : s.exit? b = none) (t : Terminator) :
    Extends s (s.close b t) where
  size := (State.size_close t).ge
  code c := ⟨[], by rw [append_nil, State.code_close]⟩
  exit c t' ht' := by
    have hcb : c ≠ b := by
      rintro rfl
      rw [hb] at ht'
      cases ht'
    exact ⟨by rw [State.exit?_close hsize, if_neg hcb, ht'], State.code_close t⟩
  marked l c hc := hc

end Added

end ThreeAddress.Llvm
