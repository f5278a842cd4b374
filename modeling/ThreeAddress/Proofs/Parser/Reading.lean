import ThreeAddress.Proofs.Parser.Grammar

/-!
# What a reading comes to

A reading is compared from a token that it has already looked at, so that an illegal one halts it.
Then a reading that ends in front of an illegal token and one that goes on from there come to the
same. `Read.Comes` says what a reading comes to, and has a rule for every step that the reader
takes.

The rounds that a reading is given do not matter if they are more than the tokens it goes past:
`Read.Leads` is about all such numbers, and about everything that may stand behind these tokens. A
list of tokens settles a reading (`Read.Settles`) if it begins with a text that is read, or if the
reading halts at one of its tokens. Then the tokens before that one are the beginning of a text.
-/

namespace ThreeAddress

open List Read

variable {t : Token} {ts us vs : List Token} {p p' : Cursor}

/-! ## Tokens up to the end -/

/-- The last of the tokens marks the end of the file. -/
def Ended (ts : List Token) : Prop := ∃ eof, ts.getLast? = some eof ∧ eof.kind = .endOfFile

namespace Ended

lemma ne_nil (h : Ended ts) : ts ≠ [] := by
  rintro rfl
  obtain ⟨eof, heof, -⟩ := h
  cases heof

lemma of_append (h : Ended (us ++ ts)) (hts : ts ≠ []) : Ended ts := by
  rwa [Ended, getLast?_append, getLast?_eq_some_getLast hts,
    Option.some_or, ← getLast?_eq_some_getLast hts] at h

/-- Something follows a token that does not mark the end of the file. -/
lemma exists_next (h : Ended (t :: ts)) (ht : t.kind ≠ .endOfFile) :
    ∃ next rest, ts = next :: rest ∧ Ended ts := by
  cases ts with
  | nil =>
    obtain ⟨eof, heof, hkind⟩ := h
    obtain rfl : t = eof := Option.some.inj heof
    exact absurd hkind ht
  | cons next rest =>
    rw [← singleton_append] at h
    exact ⟨next, rest, rfl, h.of_append (cons_ne_nil next rest)⟩

end Ended

/-! ## Cursors -/

/-- A cursor stands at the first of some tokens, of which the last marks the end of the file. -/
structure Cursor.At (p : Cursor) (ts : List Token) : Prop where
  rest : p.tokens.toList.drop p.pos = ts
  current : ts.head? = some p.current
  ended : Ended ts

namespace Read

variable {α β : Type}

lemma refuseIllegal_eq (p : Cursor) : refuseIllegal p = if p.current.kind = .illegal then
    .error (.fault ⟨p.current, .illegal p.current.value⟩) else .ok ((), p) := by
  show (if p.current.kind = .illegal then fail p.current (.illegal p.current.value) else pure ())
    p = _
  split <;> rfl

lemma bind_run (x : Read α) (f : α → Read β) (p : Cursor) :
    (x >>= f) p = x p >>= fun q => f q.1 q.2 := rfl

lemma get_run (f : Cursor → Read β) (p : Cursor) : (get >>= f) p = f p p := rfl

/-- A reading from a token that has been looked at. -/
lemma looked_run (x : Read α) (p : Cursor) :
    (refuseIllegal >>= fun _ => x) p = if p.current.kind = .illegal then
      .error (.fault ⟨p.current, .illegal p.current.value⟩) else x p := by
  rw [bind_run, refuseIllegal_eq]
  split <;> rfl

end Read

namespace Cursor.At

lemma current_eq (h : p.At (t :: ts)) : p.current = t := (Option.some.inj h.current).symm

/-- Going on moves the cursor by one token and looks at the next. It stays inside the array. -/
lemma advance_eq (h : p.At (t :: ts)) (ht : t.kind ≠ .endOfFile) :
    ∃ p' : Cursor, p'.At ts ∧ p'.previous = t ∧ Read.advance p = Read.refuseIllegal p' := by
  obtain ⟨next, ts, rfl, hended⟩ := h.ended.exists_next ht
  have hdrop : p.tokens.toList.drop (p.pos + 1) = next :: ts := by
    rw [← drop_drop, h.rest]
    rfl
  have hsize : p.pos < p.tokens.size - 1 := by
    have hlength := congrArg length h.rest
    simp only [length_drop, Array.length_toList, length_cons] at hlength
    omega
  have hnext : p.tokens[p.pos + 1]? = some next := by
    rw [← Array.getElem?_toList, ← head?_drop, hdrop]
    rfl
  let p' : Cursor := { p with pos := p.pos + 1, current := next, previous := p.current }
  refine ⟨p', ⟨hdrop, rfl, hended⟩, h.current_eq, ?_⟩
  have htoken : tokenAt p.tokens (p.pos + 1) = .ok next := by rw [tokenAt, hnext]
  show (if p.pos < p.tokens.size - 1 then (do
    let next ← tokenAt p.tokens (p.pos + 1)
    set { p with pos := p.pos + 1, current := next, previous := p.current }
    Read.refuseIllegal : Read Unit) else Read.refuseIllegal) p = _
  rw [if_pos hsize, htoken]
  rfl

end Cursor.At

/-! ## What a reading comes to -/

/-- What a reading comes to. -/
inductive Outcome (α : Type)
  /-- A result, in front of tokens. -/
  | done (a : α) (rest : List Token)
  /-- A token that is wrong. -/
  | stuck (t : Token) (fault : ParseFault)

/-- What is said about a token with a fault: an illegal one has a message of its own. -/
def Token.refusal (t : Token) (fault : ParseFault) : ParseError :=
  ⟨t, if t.kind = .illegal then .illegal t.value else fault⟩

/-- Whether the reader can go past a token. -/
def TokenKind.isPassable (kind : TokenKind) : Bool := kind ≠ .endOfFile && kind ≠ .illegal

namespace TokenKind

variable {kind : TokenKind}

lemma ne_endOfFile (h : kind.isPassable = true) : kind ≠ .endOfFile := by
  rintro rfl
  cases h

lemma ne_illegal (h : kind.isPassable = true) : kind ≠ .illegal := by
  rintro rfl
  cases h

lemma isPassable_of_declares (h : declares kind = true) : kind.isPassable = true := by
  cases kind <;> first | rfl | cases h

end TokenKind

/-- Tokens that the reader can go past. -/
def Passable (ts : List Token) : Prop := ∀ t ∈ ts, t.kind.isPassable = true

namespace Passable

lemma cons_iff : Passable (t :: ts) ↔ t.kind.isPassable = true ∧ Passable ts := forall_mem_cons

lemma append_iff : Passable (ts ++ us) ↔ Passable ts ∧ Passable us := forall_mem_append

end Passable

namespace Outcome

variable {α β : Type}

def map (f : α → β) : Outcome α → Outcome β
  | done a rest => done (f a) rest
  | stuck t fault => stuck t fault

/-- A reading ends as an outcome says. In front of an illegal token that is not with the result, but
with an error. -/
def Agrees (o : Outcome α) (r : Except Halt (α × Cursor)) : Prop :=
  match o with
  | done a rest => ∃ p : Cursor, p.At rest ∧ r = (Read.refuseIllegal >>= fun _ => pure a : Read α) p
  | stuck t fault => r = .error (.fault (t.refusal fault))

/-- The reader goes only past tokens that it can go past. -/
def Passes (ts : List Token) : Outcome α → Prop
  | done _ rest => ∃ pre, Passable pre ∧ ts = pre ++ rest
  | stuck _ _ => True

lemma Passes.append {o : Outcome α} (hus : Passable us) (h : o.Passes ts) :
    o.Passes (us ++ ts) := by
  cases o with
  | done a rest =>
    obtain ⟨pre, hpre, rfl⟩ := h
    exact ⟨us ++ pre, Passable.append_iff.mpr ⟨hus, hpre⟩, (append_assoc ..).symm⟩
  | stuck t fault => trivial

end Outcome

namespace Read

variable {α β : Type} {o : Outcome β} {x y : Read β} {kind : TokenKind}

/-- What a reading comes to from some tokens on, once the first of them has been looked at. -/
structure Comes (x : Read α) (ts : List Token) (o : Outcome α) : Prop where
  passes : o.Passes ts
  agrees : ∀ p : Cursor, p.At ts → o.Agrees ((refuseIllegal >>= fun _ => x) p)

namespace Comes

lemma pure (a : α) (ts : List Token) : Comes (pure a) ts (.done a ts) :=
  ⟨⟨[], forall_mem_nil _, rfl⟩, fun p hp => ⟨p, hp, rfl⟩⟩

lemma bind {x : Read α} {f : α → Read β} {a : α} (hx : Comes x ts (.done a us))
    (hf : Comes (f a) us o) :
    Comes (x >>= f) ts o := by
  obtain ⟨⟨pre, hpre, rfl⟩, hx⟩ := hx
  refine ⟨hf.passes.append hpre, fun p hp => ?_⟩
  obtain ⟨p', hp', hx⟩ := hx p hp
  have hbind : (refuseIllegal >>= fun _ => x >>= f) p = (refuseIllegal >>= fun _ => f a) p' := by
    rw [← bind_assoc, bind_run, hx]
    exact congrFun (bind_assoc refuseIllegal (fun _ => Pure.pure a) f) p'
  rw [hbind]
  exact hf.agrees p' hp'

lemma bind_stuck {x : Read α} {fault} (hx : Comes x ts (.stuck t fault)) (f : α → Read β) :
    Comes (x >>= f) ts (.stuck t fault) := by
  refine ⟨trivial, fun p hp => ?_⟩
  show _ = _
  rw [← bind_assoc, bind_run, show _ = _ from hx.agrees p hp]
  rfl

lemma get {f : Cursor → Read β} (hf : ∀ p : Cursor, p.current = t → Comes (f p) (t :: ts) o) :
    Comes (get >>= f) (t :: ts) o := by
  refine ⟨(hf { tokens := #[], current := t } rfl).passes, fun p hp => ?_⟩
  have hlooked := (hf p hp.current_eq).agrees p hp
  rw [looked_run] at hlooked ⊢
  exact hlooked

/-- Looking at a token that has been looked at changes nothing. -/
lemma looked {x : Read β} (hx : Comes x ts o) : Comes (refuseIllegal >>= fun _ => x) ts o := by
  refine ⟨hx.passes, fun p hp => ?_⟩
  have hlooked := hx.agrees p hp
  rw [looked_run, looked_run]
  rw [looked_run] at hlooked
  split
  case isTrue h => rwa [if_pos h] at hlooked
  case isFalse h => rwa [if_neg h] at hlooked

lemma check {f : Bool → Read β} {kinds : TokenKind → Bool}
    (hf : Comes (f (kinds t.kind)) (t :: ts) o) :
    Comes (check kinds >>= f) (t :: ts) o := by
  rw [Read.check, bind_assoc]
  refine looked ?_
  rw [bind_assoc]
  refine get fun p hp => ?_
  rw [hp]
  exact hf

lemma fail (t : Token) (ts : List Token) (fault : ParseFault) :
    Comes (fail (α := β) t fault) (t :: ts) (.stuck t fault) := by
  refine ⟨trivial, fun p hp => ?_⟩
  show _ = _
  rw [looked_run, hp.current_eq, Token.refusal]
  split <;> rfl

lemma advance (ht : t.kind.isPassable = true) : Comes advance (t :: ts) (.done () ts) := by
  refine ⟨⟨[t], forall_mem_singleton.mpr ht, rfl⟩, fun p hp => ?_⟩
  obtain ⟨p', hp', -, hadvance⟩ := hp.advance_eq (TokenKind.ne_endOfFile ht)
  refine ⟨p', hp', ?_⟩
  rw [looked_run, hp.current_eq, if_neg (TokenKind.ne_illegal ht), hadvance, looked_run,
    refuseIllegal_eq]
  rfl

section Branches

variable {kinds : TokenKind → Bool}

lemma check_pos (ht : kinds t.kind = true) (hx : Comes x (t :: ts) o) :
    Comes (Read.check kinds >>= fun b => if b = true then x else y) (t :: ts) o :=
  check (by rwa [ht])

lemma check_neg (ht : kinds t.kind = false) (hy : Comes y (t :: ts) o) :
    Comes (Read.check kinds >>= fun b => if b = true then x else y) (t :: ts) o :=
  check (by rwa [ht])

lemma accepted (ht : t.kind = kind) (hkind : kind.isPassable = true) :
    Comes (accept kind) (t :: ts) (.done true ts) := by
  rw [accept]
  exact check_pos (decide_eq_true ht) (bind (advance (ht ▸ hkind)) (pure _ _))

lemma refused (ht : t.kind ≠ kind) : Comes (accept kind) (t :: ts) (.done false (t :: ts)) := by
  rw [accept]
  exact check_neg (decide_eq_false ht) (pure _ _)

lemma accept_pos (ht : t.kind = kind) (hkind : kind.isPassable = true) (hx : Comes x ts o) :
    Comes (accept kind >>= fun b => if b = true then x else y) (t :: ts) o :=
  bind (accepted ht hkind) hx

lemma accept_neg (ht : t.kind ≠ kind) (hy : Comes y (t :: ts) o) :
    Comes (accept kind >>= fun b => if b = true then x else y) (t :: ts) o :=
  bind (refused ht) hy

variable {f : Token → Read β} {fault : ParseFault}

lemma expect (ht : t.kind = kind) (hkind : kind.isPassable = true) (hf : Comes (f t) ts o) :
    Comes (expect kind fault >>= f) (t :: ts) o := by
  refine bind ?_ hf
  rw [Read.expect]
  subst ht
  refine check_pos (decide_eq_true rfl) ⟨⟨[t], forall_mem_singleton.mpr hkind, rfl⟩, fun p hp => ?_⟩
  obtain ⟨p', hp', hprevious, hadvance⟩ := hp.advance_eq (TokenKind.ne_endOfFile hkind)
  refine ⟨p', hp', ?_⟩
  rw [looked_run, hp.current_eq, if_neg (TokenKind.ne_illegal hkind), bind_run,
    hadvance, ← hprevious, looked_run, refuseIllegal_eq]
  split <;> rfl

lemma expect_stuck (ht : t.kind ≠ kind) :
    Comes (Read.expect kind fault >>= f) (t :: ts) (.stuck t fault) := by
  refine bind_stuck ?_ f
  rw [Read.expect]
  refine check_neg (decide_eq_false ht) (get fun p hp => ?_)
  rw [hp]
  exact fail t ts fault

end Branches

lemma map {x : Read α} {o : Outcome α} (hx : Comes x ts o) (f : α → β) :
    Comes (x >>= fun a => Pure.pure (f a)) ts (o.map f) := by
  cases o with
  | done a us => exact bind hx (pure _ _)
  | stuck t fault => exact bind_stuck hx _

end Comes

end Read

/-! ## Any number of rounds -/

/-- The first of some tokens and one behind them. -/
lemma append_cons_eq (us : List Token) (t : Token) (vs : List Token) :
    us ++ t :: vs = us.headD t :: (us ++ t :: vs).tail := by
  cases us <;> rfl

namespace Read

variable {α β : Type} {x y : Nat → Read β} {pre : List Token} {t' : Token}

/-- What readings come to that go past some tokens to another, whatever stands behind it, in more
rounds than there are tokens to go past. -/
def Leads (x : Nat → Read α) (us : List Token) (t : Token) (o : List Token → Outcome α) : Prop :=
  ∀ n vs, us.length < n → Comes (x n) (us ++ t :: vs) (o (t :: vs))

/-- Readings that go past tokens first, for each of which they may use up a round. -/
lemma Leads.after {o} (d : Nat) (h : Leads y us t' o) (hus : us.headD t' = t) (hd : d ≤ pre.length)
    (hstep : ∀ n ts o, pre.length < n + d → Comes (y n) (t :: ts) o →
      Comes (x (n + d)) (pre ++ t :: ts) o) : Leads x (pre ++ us) t' o := by
  intro n vs hn
  rw [length_append] at hn
  obtain ⟨n, rfl⟩ := Nat.exists_eq_add_of_le' (show d ≤ n by omega)
  have hread := h n vs (by omega)
  rw [append_assoc]
  rw [append_cons_eq us t' vs, hus] at hread ⊢
  exact hstep n _ _ (by omega) hread

/-- A text begins with some tokens. -/
def Begins (Text : List Token → Token → α → Prop) (us : List Token) : Prop :=
  ∃ ws t a, Text (us ++ ws) t a

lemma Begins.of_text {Text : List Token → Token → α → Prop} {a} (h : Text us t a) :
    Begins Text us :=
  ⟨[], t, a, by rwa [append_nil]⟩

/-- Tokens begin with a text, which is read to its end, or reading halts at one of them and a text
begins with those before it. -/
def Settles (x : Nat → Read α) (Text : List Token → Token → α → Prop) (ts : List Token) : Prop :=
  ∃ us t vs, ts = us ++ t :: vs ∧ ((∃ a, Text us t a ∧ Leads x us t (.done a)) ∨
    (∃ fault, fault ≠ .runaway ∧ Leads x us t fun _ => .stuck t fault) ∧ Begins Text us)

namespace Settles

variable {Part : List Token → Token → α → Prop} {Text : List Token → Token → β → Prop}

lemma mono (h : Settles x Text ts) {φ : Nat → Nat} (hφ : ∀ n, n ≤ φ n) :
    Settles (fun n => x (φ n)) Text ts := by
  have hmono {us t o} (h : Leads x us t o) : Leads (fun n => x (φ n)) us t o :=
    fun n vs hn => h (φ n) vs (Nat.lt_of_lt_of_le hn (hφ n))
  obtain ⟨us, t, vs, rfl, ⟨a, htext, hread⟩ | ⟨⟨fault, hne, hread⟩, hmend⟩⟩ := h
  · exact ⟨us, t, vs, rfl, .inl ⟨a, htext, hmono hread⟩⟩
  · exact ⟨us, t, vs, rfl, .inr ⟨⟨fault, hne, hmono hread⟩, hmend⟩⟩

lemma after (pre : List Token) (d : Nat) (h : Settles y (fun us => Text (pre ++ us)) (t :: ts))
    (hd : d ≤ pre.length) (hstep : ∀ n ts o, pre.length < n + d → Comes (y n) (t :: ts) o →
      Comes (x (n + d)) (pre ++ t :: ts) o) : Settles x Text (pre ++ t :: ts) := by
  obtain ⟨us, t', vs, heq, hall⟩ := h
  have hus : us.headD t' = t := by cases us <;> cases heq <;> rfl
  refine ⟨pre ++ us, t', vs, by rw [heq, append_assoc], ?_⟩
  rcases hall with ⟨a, htext, hread⟩ | ⟨⟨fault, hne, hread⟩, ws, t'', a, htext⟩
  · exact .inl ⟨a, htext, hread.after d hus hd hstep⟩
  · exact .inr ⟨⟨fault, hne, hread.after d hus hd hstep⟩, ws, t'', a, by rwa [append_assoc]⟩

lemma step (h : Settles y Text (t :: ts))
    (hstep : ∀ n ts o, Comes (y n) (t :: ts) o → Comes (x n) (t :: ts) o) :
    Settles x Text (t :: ts) :=
  after [] 0 h (Nat.le_refl _) fun n ts o _ h => hstep n ts o h

/-- A token is gone past, for a round. -/
lemma past (hts : Ended ts) (h : Settles y (fun us => Text (t :: us)) ts)
    (hstep : ∀ n ts o, Comes (y n) ts o → Comes (x (n + 1)) (t :: ts) o) :
    Settles x Text (t :: ts) := by
  obtain ⟨next, ts, rfl⟩ := exists_cons_of_ne_nil hts.ne_nil
  exact after [t] 1 h (Nat.le_refl _) fun n ts o _ h => hstep n _ o h

/-- Reading halts at the first token. -/
lemma halt (fault : ParseFault) (hmend : Begins Text [])
    (h : ∀ n ts, Comes (x (n + 1)) (t :: ts) (.stuck t fault)) (ts : List Token)
    (hfault : fault ≠ .runaway := by simp) : Settles x Text (t :: ts) := by
  refine ⟨[], t, ts, rfl, .inr ⟨⟨fault, hfault, fun n vs hn => ?_⟩, hmend⟩⟩
  obtain ⟨n, rfl⟩ := Nat.exists_eq_add_one.mpr hn
  exact h n vs

/-- The text ends before the first token. -/
lemma stop {a : β} (htext : Text [] t a)
    (h : ∀ n ts, Comes (x (n + 1)) (t :: ts) (.done a (t :: ts))) (ts : List Token) :
    Settles x Text (t :: ts) := by
  refine ⟨[], t, ts, rfl, .inl ⟨a, htext, fun n vs hn => ?_⟩⟩
  obtain ⟨n, rfl⟩ := Nat.exists_eq_add_one.mpr hn
  exact h n vs

lemma pure {a : β} (htext : Text [] t a) (ts : List Token) :
    Settles (fun _ => Pure.pure a) Text (t :: ts) :=
  stop htext (fun _ _ => .pure a _) ts

/-- Nothing is left to read, whatever follows. -/
lemma pure_of_ended {a : β} (hts : Ended ts) (htext : ∀ t, Text [] t a) :
    Settles (fun _ => Pure.pure a) Text ts := by
  obtain ⟨t, ts, rfl⟩ := exists_cons_of_ne_nil hts.ne_nil
  exact pure (htext t) ts

/-- The text is one token. -/
lemma token {a : β} (hts : Ended ts) (htext : ∀ t', Text [t] t' a)
    (h : ∀ n ts, Comes (x (n + 1)) (t :: ts) (.done a ts)) : Settles x Text (t :: ts) := by
  obtain ⟨t', ts, rfl⟩ := exists_cons_of_ne_nil hts.ne_nil
  refine ⟨[t], t', ts, rfl, .inl ⟨a, htext t', fun n vs hn => ?_⟩⟩
  obtain ⟨n, rfl⟩ := Nat.exists_eq_add_one.mpr (Nat.zero_lt_of_lt hn)
  exact h n (t' :: vs)

/-- A part is followed by others. If it has tokens, there may be a round less for these. -/
lemma bindAt {z : Nat → Read α} {f : α → Nat → Read β} (d : Nat) (hd : d ≤ 1)
    (hts : Ended (t :: ts)) (h : Settles z Part (t :: ts))
    (hpart : ∀ us t a, Part us t a → d ≤ us.length) (hmend : ∀ us t a, Part us t a → Begins Text us)
    (hstep : ∀ n ts o, Comes (z (n + d) >>= fun a => f a n) (t :: ts) o →
      Comes (x (n + d)) (t :: ts) o)
    (hnext : ∀ us t' vs a, Part us t' a → Ended (t' :: vs) → t :: ts = us ++ t' :: vs →
      Settles (f a) (fun us' => Text (us ++ us')) (t' :: vs)) : Settles x Text (t :: ts) := by
  obtain ⟨us, t', vs, heq, hall⟩ := h
  have hus : us.headD t' = t := by cases us <;> cases heq <;> rfl
  rcases hall with ⟨a, hpart', hread⟩ | ⟨⟨fault, hne, hread⟩, ws, t'', a, hpart'⟩
  · have hbehind := hnext us t' vs a hpart' ((heq ▸ hts).of_append (cons_ne_nil t' vs)) heq
    rw [heq]
    refine after us d hbehind (hpart us t' a hpart') fun n ts o hn h => ?_
    rw [append_cons_eq us t' ts, hus]
    refine hstep n _ o ?_
    rw [← hus, ← append_cons_eq]
    exact .bind (hread _ ts hn) h
  · obtain ⟨ws', t₁, b, htext⟩ := hmend _ _ _ hpart'
    refine ⟨us, t', vs, heq, .inr ⟨⟨fault, hne, fun n vs hn => ?_⟩, ws ++ ws', t₁, b, by
      rwa [← append_assoc]⟩⟩
    obtain ⟨n, rfl⟩ := Nat.exists_eq_add_of_le' (show d ≤ n by omega)
    have hstuck := (hread (n + d) vs hn).bind_stuck fun a => f a n
    rw [append_cons_eq us t' vs, hus] at hstuck ⊢
    exact hstep n _ _ hstuck

/-- A part is followed by others. -/
lemma bind {z : Nat → Read α} {f : α → Nat → Read β} (hts : Ended ts) (h : Settles z Part ts)
    (hmend : ∀ us t a, Part us t a → Begins Text us)
    (hnext : ∀ us t vs a, Part us t a → Ended (t :: vs) → ts = us ++ t :: vs →
      Settles (f a) (fun us' => Text (us ++ us')) (t :: vs)) :
    Settles (fun n => z n >>= fun a => f a n) Text ts := by
  obtain ⟨t, ts, rfl⟩ := exists_cons_of_ne_nil hts.ne_nil
  exact bindAt 0 (Nat.zero_le _) hts h (fun _ _ _ _ => Nat.zero_le _) hmend (fun _ _ _ h => h) hnext

lemma map {z : Nat → Read α} {f : α → β} (hts : Ended ts) (h : Settles z Part ts)
    (htext : ∀ us t a, Part us t a → Text us t (f a)) :
    Settles (fun n => z n >>= fun a => Pure.pure (f a)) Text ts := by
  refine bind hts h (fun us t a hpart => .of_text (htext us t a hpart)) fun us t vs a hpart _ _ =>
    pure ?_ vs
  rw [append_nil]
  exact htext us t a hpart

section Expect

variable {kind : TokenKind} {fault : ParseFault} {f : Token → Nat → Read β}

/-- A token of a kind comes next, and there may be a round less behind it. -/
lemma expect_past (hts : Ended (t :: ts)) (hkind : kind.isPassable = true) (hmend : Begins Text [])
    (hnext : t.kind = kind → Ended ts →
      Settles (fun n => f t (n + 1)) (fun us => Text (t :: us)) ts)
    (hfault : fault ≠ .runaway := by simp) :
    Settles (fun n => Read.expect kind fault >>= fun t => f t n) Text (t :: ts) := by
  by_cases ht : t.kind = kind
  · obtain ⟨-, -, -, hts'⟩ := hts.exists_next (TokenKind.ne_endOfFile (ht ▸ hkind))
    exact (hnext ht hts').past hts' fun n ts o h => .expect ht hkind h
  · exact halt fault hmend (fun n ts => .expect_stuck ht) ts hfault

lemma expect (hts : Ended (t :: ts)) (hkind : kind.isPassable = true) (hmend : Begins Text [])
    (hnext : t.kind = kind → Ended ts → Settles (f t) (fun us => Text (t :: us)) ts)
    (hfault : fault ≠ .runaway := by simp) :
    Settles (fun n => Read.expect kind fault >>= fun t => f t n) Text (t :: ts) :=
  expect_past hts hkind hmend (fun ht hts => (hnext ht hts).mono fun n => Nat.le_succ n) hfault

/-- A token of a kind comes last. -/
lemma expect_last {b : Token → β} (hts : Ended (t :: ts)) (hkind : kind.isPassable = true)
    (htext : ∀ t t' : Token, t.kind = kind → Text [t] t' (b t))
    (hfault : fault ≠ .runaway := by simp) :
    Settles (fun _ => Read.expect kind fault >>= fun t => Pure.pure (b t)) Text (t :: ts) :=
  expect hts hkind ⟨[{ kind := kind }], {}, _, htext _ {} rfl⟩
    (fun ht hts => pure_of_ended hts fun t' => htext t t' ht) hfault

end Expect

end Settles

end Read

end ThreeAddress
