import Mathlib.Data.List.Basic
import ThreeAddress.Proofs.Code.Flow
import ThreeAddress.Proofs.Parser.Shape
import ThreeAddress.Proofs.Text.Decoding

/-!
# Outlines are faithful

The outline of a tree has a line for each node, indented by its depth, with the name of its kind and
then its text in quotes or its operators in brackets. For the nodes of a parsed tree these can be
told from the line (`Tree.Shows`, `Tree.outlineLine_inj`). A tree ends where the next line is not
deeper than its first one, so that trees that stand one after the other, and all their children, can
be told from their lines (`Tree.outlineAll_inj`).
-/

namespace ThreeAddress

open List

/-! ## Lines -/

namespace Tree

/-- The operators of expressions. -/
def operators : List TokenKind :=
  [.plus, .minus, .star, .slash, .percent, .equal, .notEqual, .less, .greater, .lessEqual,
    .greaterEqual, .andAnd, .orOr, .bang]

/-- What a line can show: a kind of node with a name of its own, and a text or operators. -/
structure Shows (kind : NodeKind) (value : String) (ops : List TokenKind) : Prop where
  kind_mem : kind ∈ NodeKind.table
  either : value = "" ∨ ops = []
  ops_subset : ops ⊆ operators

lemma Fits.shows {kind token value ops children} (h : Fits (.node kind token value ops children)) :
    Shows kind value ops := by
  have hops {kind : NodeKind} {ops} (h : ∀ op ∈ ops, kind.takes op = true) : ops ⊆ operators := by
    intro op hop
    have htakes := h op hop
    cases kind <;> first | cases htakes | (cases op <;> first | decide | cases htakes)
  cases h with
  | logic hchain | sum hchain | product hchain => exact ⟨by decide, .inl rfl, hops hchain.level⟩
  | signed hsigns | negation hsigns => exact ⟨by decide, .inl rfl, hops hsigns.level⟩
  | comparison hop => exact ⟨by decide, .inl rfl, hops (forall_mem_singleton.mpr hop)⟩
  | _ => exact ⟨by decide, .inr rfl, nil_subset _⟩

/-- The part of a line behind the kind of a node. -/
def details (value : String) (ops : List TokenKind) : List Char :=
  (if value = "" then [] else ' ' :: (Text.quote value).toList) ++
    if ops = [] then [] else ' ' :: '[' :: [' '].intercalate
      (ops.map (String.toList ∘ TokenKind.spelling)) ++ [']']

lemma toList_outlineLine (depth : Nat) (kind : NodeKind) (value : String) (ops : List TokenKind) :
    (outlineLine depth kind value ops).toList =
      replicate (2 * depth) ' ' ++ (kind.name.toList ++ details value ops) := by
  unfold outlineLine details
  split <;> cases ops <;> simp [String.toList_intercalate]

/-- Operators can be told from how they are listed. -/
lemma operators_inj {ops ops'} (hops : ops ⊆ operators) (hops' : ops' ⊆ operators) (hne : ops ≠ [])
    (hne' : ops' ≠ []) (h : [' '].intercalate (ops.map (String.toList ∘ TokenKind.spelling)) =
      [' '].intercalate (ops'.map (String.toList ∘ TokenKind.spelling))) : ops = ops' := by
  have hsolid {ops} (hops : ops ⊆ operators) :
      ∀ word ∈ ops.map (String.toList ∘ TokenKind.spelling), ' ' ∉ word := by
    have hall : ∀ op ∈ operators, ' ' ∉ op.spelling.toList := by decide
    simpa using fun op hop => hall op (hops hop)
  have hread {ops} (hops : ops ⊆ operators) : (ops.map (String.toList ∘ TokenKind.spelling)).map
      (fun word => operators.find? (·.spelling.toList = word)) = ops.map some := by
    have hall : ∀ op ∈ operators, operators.find? (·.spelling.toList = op.spelling.toList) =
      some op := by decide
    rw [map_map]
    exact map_congr_left fun op hop => hall op (hops hop)
  have hwords := eq_of_intercalate_eq (hsolid hops) (hsolid hops') (by simpa) (by simpa) h
  have hsome := hread hops
  rw [hwords, hread hops'] at hsome
  exact (map_injective_iff.mpr (fun _ _ => Option.some.inj) hsome).symm

/-- The text and the operators of a node can be told from its line. -/
lemma details_inj {kind kind' value value' ops ops'} (h : Shows kind value ops)
    (h' : Shows kind' value' ops') (heq : details value ops = details value' ops') :
    value = value' ∧ ops = ops' := by
  have hforms {value ops} (h : value = "" ∨ ops = []) :
      (value = "" ∧ ops = []) ∨ (value ≠ "" ∧ ops = []) ∨
      (value = "" ∧ ops ≠ ([] : List TokenKind)) := by
    tauto
  have hquote (s : String) : (Text.quote s).toList = '"' ::
      (s.toList.flatMap Text.escape ++ ['"']) :=
    String.toList_ofList
  rcases hforms h.either with ⟨rfl, rfl⟩ | ⟨hval, rfl⟩ | ⟨rfl, hne⟩ <;>
    rcases hforms h'.either with ⟨rfl, rfl⟩ | ⟨hval', rfl⟩ | ⟨rfl, hne'⟩ <;> simp_all [details]
  · refine Text.quote_injective ?_
    rw [← String.toList_inj, hquote, hquote, heq]
  · exact operators_inj h.ops_subset h'.ops_subset hne hne' heq

/-- The number of blanks at the beginning of a line. -/
def indentation (line : String) : Nat := (line.toList.takeWhile (· = ' ')).length

lemma solid_name : ∀ kind ∈ NodeKind.table, kind.name.toList ≠ [] ∧
    ' ' ∉ kind.name.toList := by decide

/-- The depth of a node can be told from its line. -/
lemma indentation_outlineLine {kind value ops} (h : Shows kind value ops) (depth : Nat) :
    indentation (outlineLine depth kind value ops) = 2 * depth := by
  obtain ⟨hne, hsolid⟩ := solid_name kind h.kind_mem
  obtain ⟨c, cs, hname⟩ := exists_cons_of_ne_nil hne
  have hc : c ≠ ' ' := fun hc => hsolid (by simp [hname, hc])
  rw [indentation, toList_outlineLine, hname, takeWhile_append_of_pos (by simp), cons_append,
    takeWhile_cons_of_neg (by simpa), append_nil, length_replicate]

/-- What a line shows can be told from it. -/
lemma outlineLine_inj {depth depth' kind kind' value value' ops ops'} (h : Shows kind value ops)
    (h' : Shows kind' value' ops')
    (heq : outlineLine depth kind value ops = outlineLine depth' kind' value' ops') :
    kind = kind' ∧ value = value' ∧ ops = ops' := by
  have hdepth := indentation_outlineLine h depth
  rw [heq, indentation_outlineLine h', Nat.mul_right_inj (by decide)] at hdepth
  have hlist := congrArg String.toList heq
  rw [toList_outlineLine, toList_outlineLine, hdepth, append_cancel_left_eq] at hlist
  have htake {kind value ops} (h : Shows kind value ops) :
      (kind.name.toList ++ details value ops).takeWhile (· ≠ ' ') = kind.name.toList := by
    have hdetails : (details value ops).takeWhile (· ≠ ' ') = [] := by
      unfold details
      split <;> split <;> simp
    have hsolid : ∀ c ∈ kind.name.toList, decide (c ≠ ' ') = true := fun c hc =>
      decide_eq_true fun hblank => (solid_name kind h.kind_mem).2 (hblank ▸ hc)
    rw [takeWhile_append_of_pos hsolid, hdetails, append_nil]
  have hname := htake h
  rw [hlist, htake h', String.toList_inj] at hname
  have hread : ∀ kind ∈ NodeKind.table, NodeKind.ofName? kind.name = some kind := by decide
  have hkind := hread kind h.kind_mem
  rw [← hname, hread kind' h'.kind_mem] at hkind
  cases hkind
  exact ⟨rfl, details_inj h h' (append_cancel_left hlist)⟩

lemma newline_notMem_outlineLine {kind value ops} (h : Shows kind value ops) (depth : Nat) :
    '\n' ∉ (outlineLine depth kind value ops).toList := by
  have hname : ∀ kind ∈ NodeKind.table, '\n' ∉ kind.name.toList := by decide
  have hops : '\n' ∉ [' '].intercalate (ops.map (String.toList ∘ TokenKind.spelling)) :=
    fun hmem => by
    have hall : ∀ op ∈ operators, '\n' ∉ op.spelling.toList := by decide
    obtain hblank | ⟨word, hword, hmem⟩ := mem_of_mem_intercalate hmem
    · cases hblank
    · obtain ⟨op, hop, rfl⟩ := mem_map.mp hword
      exact hall op (h.ops_subset hop) hmem
  rw [toList_outlineLine, details]
  split <;> split <;> simp [mem_replicate, hname kind h.kind_mem, hops, Text.newline_notMem_quote]

/-! ## Trees -/

mutual

/-- A tree without the tokens of its nodes. -/
def bare : Tree → Tree
  | absent => absent
  | node kind _ value ops children => node kind {} value ops (bareAll children)

/-- Trees without the tokens of their nodes. -/
def bareAll : List Tree → List Tree
  | [] => []
  | t :: ts => bare t :: bareAll ts

end

/-- Lines of which the first is not as deep as a depth. -/
def Above (depth : Nat) (lines : List String) : Prop := ∀ line ∈ lines.head?,
    indentation line < 2 * depth

/-- Trees at a depth, and the lines behind them, can be told from all the lines if those behind them
are not as deep: a tree ends where the next line is not deeper than its first one. -/
lemma outlineAll_inj (ts us : List Tree) {depth rest rest'} (hts : ∀ t ∈ ts, t.Shaped)
    (hus : ∀ u ∈ us, u.Shaped) (hrest : Above depth rest) (hrest' : Above depth rest')
    (h : outlineAll depth ts ++ rest = outlineAll depth us ++ rest') :
    bareAll ts = bareAll us ∧ rest = rest' := by
  have hdeep {depth kind value ops lines} {rest : List String} (hshows : Shows kind value ops)
      (hrest : Above depth rest) : rest ≠ outlineLine depth kind value ops :: lines := by
    rintro rfl
    have hlt := hrest _ rfl
    rw [indentation_outlineLine hshows] at hlt
    exact hlt.false
  have hbehind {depth rest} (ts : List Tree) (hts : ∀ t ∈ ts, t.Shaped) (hrest : Above depth rest) :
      Above (depth + 1) (outlineAll depth ts ++ rest) := by
    cases ts with
    | nil => exact fun line hline => (hrest line hline).trans (by omega)
    | cons t ts =>
      cases hts t (.head _) with
      | node hfits =>
        intro line hline
        simp only [outlineAll, outline, cons_append, head?_cons, Option.mem_def,
          Option.some.injEq] at hline
        rw [← hline, indentation_outlineLine hfits.shows]
        omega
  match ts, us with
  | [], [] => exact ⟨rfl, h⟩
  | [], u :: us =>
    cases hus u (.head _) with
    | node hfits => exact absurd h (hdeep hfits.shows hrest)
  | t :: ts, [] =>
    cases hts t (.head _) with
    | node hfits => exact absurd h.symm (hdeep hfits.shows hrest')
  | t :: ts, u :: us =>
    cases hts t (.head _) with
    | node hfits hchildren =>
      cases hus u (.head _) with
      | node hfits' hchildren' =>
        simp only [outlineAll, outline, cons_append, append_assoc, cons.injEq] at h
        obtain ⟨hline, hlines⟩ := h
        obtain ⟨rfl, rfl, rfl⟩ := outlineLine_inj hfits.shows hfits'.shows hline
        have hts' := fun t ht => hts t (.tail _ ht)
        have hus' := fun u hu => hus u (.tail _ hu)
        obtain ⟨hinner, hlines⟩ := outlineAll_inj _ _ hchildren hchildren' (hbehind ts hts' hrest)
          (hbehind us hus' hrest') hlines
        obtain ⟨hnext, hrests⟩ := outlineAll_inj ts us hts' hus' hrest hrest' hlines
        exact ⟨by simp only [bareAll, bare, hinner, hnext], hrests⟩

/-- No line of an outline has a newline. -/
lemma newline_notMem_outlineAll (ts : List Tree) {depth} (hts : ∀ t ∈ ts, t.Shaped) :
    ∀ line ∈ outlineAll depth ts, '\n' ∉ line.toList := by
  match ts with
  | [] => exact forall_mem_nil _
  | t :: ts =>
    cases hts t (.head _) with
    | node hfits hchildren =>
      refine forall_mem_append.mpr
        ⟨forall_mem_cons.mpr ⟨newline_notMem_outlineLine hfits.shows depth, ?_⟩, ?_⟩
      · exact newline_notMem_outlineAll _ hchildren
      · exact newline_notMem_outlineAll ts fun t ht => hts t (.tail _ ht)

/-- A shaped tree can be told from its outline, up to the tokens of its nodes. -/
lemma bare_eq_of_dump_eq {t u : Tree} (ht : t.Shaped) (hu : u.Shaped) (h : t.dump = u.dump) :
    t.bare = u.bare := by
  have htext (t : Tree) : t.dump.toList = ((outlineAll 0 [t]).map String.toList).flatMap
      (· ++ ['\n']) := by
    simp [dump, outlineAll, String.toList_join, flatMap_map]
  have hlines {t : Tree} (ht : t.Shaped) :
      ∀ line ∈ (outlineAll 0 [t]).map String.toList, '\n' ∉ line :=
    forall_mem_map.mpr (newline_notMem_outlineAll [t] (forall_mem_singleton.mpr ht))
  have heq := congrArg String.toList h
  rw [htext, htext] at heq
  have houtline := map_injective_iff.mpr (fun _ _ => String.toList_inj.mp)
    (eq_of_flatMap_eq (hlines ht) (hlines hu) heq)
  have hnone (line : String) (h : line ∈ ([] : List String).head?) :
    indentation line < 2 * 0 := by cases h
  obtain ⟨hbare, -⟩ := outlineAll_inj [t] [u] (forall_mem_singleton.mpr ht)
    (forall_mem_singleton.mpr hu) hnone hnone (congrArg (· ++ []) houtline)
  exact (cons.inj hbare).1

end Tree

/-- The outline of a parsed tree is faithful: two trees that are parsed from source texts and have
the same outline have the same kinds of nodes, texts, operators and children. -/
theorem dump_faithful (settings settings' : Settings) (file file' : Int)
    (source source' : List Char) (tree tree' : Tree)
    (h : Tree.ofSource settings file source = .ok tree)
    (h' : Tree.ofSource settings' file' source' = .ok tree') (hdump : tree.dump = tree'.dump) :
    tree.bare = tree'.bare :=
  Tree.bare_eq_of_dump_eq (shapedAs_of_parse h).shaped (shapedAs_of_parse h').shaped hdump

/-- Two layouts of a signed product. -/
theorem dump_faithful_layouts : ∃ tree tree', Tree.ofSource {} 0 "x=-(a*2);".toList = .ok tree ∧
    Tree.ofSource {} 1 "x = - ( a * 2 ) ;".toList = .ok tree' ∧ tree.dump = tree'.dump ∧
    tree.bare = tree'.bare := by
  let text := "Program\n  Block\n    Stmt\n      AssignStmt\n        Identifier \"x\"\n        Expr\n" ++
    "          UnaExpr [-]\n            GenValue\n              MulExpr [*]\n                Identifier \"a\"\n" ++
    "                IntValue \"2\"\n"
  have hfirst : (Tree.ofSource {} 0 "x=-(a*2);".toList).toOption.map Tree.dump = some text := by
    decide +kernel
  have hsecond : (Tree.ofSource {} 1 "x = - ( a * 2 ) ;".toList).toOption.map
      Tree.dump = some text := by
    decide +kernel
  obtain ⟨tree, htree, hdump⟩ := ok_of_toOption_map hfirst
  obtain ⟨tree', htree', hdump'⟩ := ok_of_toOption_map hsecond
  have hsame := hdump.trans hdump'.symm
  exact ⟨tree, tree', htree, htree', hsame,
    dump_faithful {} {} 0 1 _ _ tree tree' htree htree' hsame⟩

end ThreeAddress
