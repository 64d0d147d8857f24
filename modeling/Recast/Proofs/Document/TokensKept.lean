/-
# The tokens of a program are kept

A program that is read without errors is printed with the tokens that it was read from, one by one.
Only the accessors of a property are printed in an order of their own, so the tokens of the text are
compared after its accessors are put in that order.

* `ShortRanks ts`: no type has more brackets than the greatest rank;
* `AccessorScan.tidy s ts`: the tokens with the accessors of every property as they are printed;
* `Carries t At s ps s'`: the pieces `ps`, wherever they are read from a text with the scan at `s`,
  agree with how they are printed, and carry the scan to `s'`;
* `Spells.agrees`: pieces without braces agree token by token; `carries_of_fits`: **every statement
  and declaration is kept**;
* `parse_keeps_tokens`: **so is a whole program**.
-/
import Recast.Proofs.Document.RoundTrip
import Recast.Proofs.Token.Agrees
import Recast.Proofs.Token.Tiles

namespace Recast

/-! ## 1. Types -/

/-- No run of pairs of brackets is longer than the greatest rank. -/
def ShortRanks : List Token → Prop
  | [] => True
  | a :: ts => TypeScan.bracketPairs (a :: ts) ≤ Parse.maxRank ∧ ShortRanks ts

/-- Whether runs of brackets are short can be decided. -/
def ShortRanks.dec : (ts : List Token) → Decidable (ShortRanks ts)
  | [] => isTrue trivial
  | _ :: ts =>
    have := dec ts
    inferInstanceAs (Decidable (_ ∧ _))

instance : DecidablePred ShortRanks := ShortRanks.dec

theorem TypeScan.bracketPairs_le_append (ts us : List Token) :
    bracketPairs ts ≤ bracketPairs (ts ++ us) := by
  fun_induction bracketPairs ts with
  | case1 a b ts h ih =>
    rw [List.cons_append, List.cons_append, bracketPairs, if_pos h]
    exact Nat.succ_le_succ ih
  | case2 | case3 => exact Nat.zero_le _

theorem ShortRanks.of_append : ∀ {ts us : List Token}, ShortRanks (ts ++ us) →
    ShortRanks ts ∧ ShortRanks us
  | [], _, h => ⟨trivial, h⟩
  | a :: ts, us, ⟨hle, h⟩ => by
    obtain ⟨hts, hus⟩ := of_append h
    exact ⟨⟨Nat.le_trans (TypeScan.bracketPairs_le_append (a :: ts) us) hle, hts⟩, hus⟩

theorem Brackets.le_maxRank {n : Nat} {ts : List Token} (h : Brackets n ts) (hr : ShortRanks ts) :
    n ≤ Parse.maxRank := by
  have hpairs : TypeScan.bracketPairs (ts ++ []) = n := (TypeScan.bracketPairs_append h rfl).1
  rw [List.append_nil] at hpairs
  rw [← hpairs]
  cases ts with
  | nil => exact Nat.zero_le _
  | cons a ts => exact hr.1

/-- The tokens of a text whose runs of brackets are short. -/
structure Source (ts : List Token) : Prop where
  faithful : ∀ a ∈ ts, a.Faithful
  short : ShortRanks ts

theorem Source.of_append {ts us : List Token} (h : Source (ts ++ us)) : Source ts ∧ Source us := by
  obtain ⟨hts, hus⟩ := h.short.of_append
  exact ⟨⟨fun a ha => h.faithful a (List.mem_append_left _ ha), hts⟩,
    ⟨fun a ha => h.faithful a (List.mem_append_right _ ha), hus⟩⟩

theorem Source.of_cons {a : Token} {ts : List Token} (h : Source (a :: ts)) :
    a.Faithful ∧ Source ts :=
  ⟨h.faithful a (List.mem_cons_self ..), fun b hb => h.faithful b (List.mem_cons_of_mem _ hb),
    h.short.2⟩

/-- A token of a kind that is always spelled alike agrees with the one that is printed. -/
theorem Token.Faithful.agrees_token {a : Token} {k : TokenKind} (h : a.Faithful) (hk : a.kind = k)
    (hs : k.spelling ≠ "") : a.Agrees k.token :=
  .of_faithful h (fun _ => rfl) hk (hk ▸ hs)

theorem Token.agrees_word {a : Token} (hk : a.kind = .identifier) : a.Agrees (.word a.lexeme) :=
  .of_lexeme hk rfl (by rw [hk]; rfl)

theorem Brackets.agrees {n : Nat} {ts : List Token} (h : Brackets n ts) (hs : Source ts) :
    List.Forall₂ Token.Agrees ts (tokens n) := by
  induction h with
  | none => exact .nil
  | pair ha hb _ ih =>
    obtain ⟨hfa, hs⟩ := hs.of_cons
    obtain ⟨hfb, hs⟩ := hs.of_cons
    exact .cons (hfa.agrees_token ha (by decide)) (.cons (hfb.agrees_token hb (by decide)) (ih hs))

/-- The tokens that a type, or types with commas between them, are printed as. -/
def TypePhrase.tokens : TypePhrase → List Token
  | one w => w.tokens
  | many [] => []
  | many (w :: ws) => w.tokens ++ WrittenType.moreTokens ws

theorem SpellsType.exists_cons {ws : List WrittenType} {ts : List Token}
    (h : SpellsType (.many ws) ts) : ∃ w more, ws = w :: more := by
  cases h with
  | single _ | more _ _ _ => exact ⟨_, _, rfl⟩

/-- **A type agrees with how it is printed.** -/
theorem SpellsType.agrees {ph : TypePhrase} {ts : List Token} (h : SpellsType ph ts) :
    Source ts → List.Forall₂ Token.Agrees ts ph.tokens := by
  induction h with
  | plain hk hb =>
    intro hs
    obtain ⟨-, hs⟩ := hs.of_cons
    rw [Nat.min_eq_left (hb.le_maxRank hs.short), TypePhrase.tokens, WrittenType.tokens,
      WrittenType.argTokens]
    exact .cons (Token.agrees_word hk) (hb.agrees hs)
  | applied hk hl hargs hg hb ih =>
    intro hs
    obtain ⟨-, hs⟩ := hs.of_cons
    obtain ⟨hless, hs⟩ := hs.of_cons
    obtain ⟨hsource, hs⟩ := hs.of_append
    obtain ⟨hgreater, hs⟩ := hs.of_cons
    obtain ⟨w, more, rfl⟩ := hargs.exists_cons
    have htail := List.Forall₂.cons (hgreater.agrees_token hg (by decide)) (hb.agrees hs)
    rw [Nat.min_eq_left (hb.le_maxRank hs.short), TypePhrase.tokens, WrittenType.tokens,
      WrittenType.argTokens, List.cons_append, List.append_assoc (w.tokens ++ _)]
    exact .cons (Token.agrees_word hk) (.cons (hless.agrees_token hl (by decide))
      (List.rel_append (ih hsource) htail))
  | single _ ih =>
    intro hs
    rw [TypePhrase.tokens, WrittenType.moreTokens, List.append_nil]
    exact ih hs
  | more _ hc hmore ih₁ ih₂ =>
    intro hs
    obtain ⟨hfirst, hs⟩ := hs.of_append
    obtain ⟨hcomma, hs⟩ := hs.of_cons
    obtain ⟨w, more, rfl⟩ := hmore.exists_cons
    rw [TypePhrase.tokens, WrittenType.moreTokens]
    exact List.rel_append (ih₁ hfirst) (.cons (hcomma.agrees_token hc (by decide)) (ih₂ hs))

/-! ## 2. Accessors -/

/-- One of the words that start an accessor. -/
def Token.isAccessor (a : Token) : Bool :=
  a.kind = .identifier && (a.lexeme = "get" || a.lexeme = "set")

/-- Where a scan for the accessors of properties stands. -/
inductive AccessorScan where
  /-- Where no accessors can start. -/
  | between
  /-- After the word `class`. -/
  | afterClass
  /-- After a name that is not that of a class. -/
  | afterName
  /-- Between the braces of a property, and whether an accessor so far sets it. -/
  | within (hasSetter : Bool)
  /-- After the word of an accessor. -/
  | afterWord (hasSetter : Bool)
  deriving DecidableEq

namespace AccessorScan

/-- Where the scan stands after a token.  The accessors of a property start at a brace after a name,
if it is not the name of a class. -/
def next : AccessorScan → Token → AccessorScan
  | within b, a =>
    if a.kind = .rightBrace then between
    else if a.isAccessor then afterWord (b || a.lexeme = "set")
    else within b
  | afterWord b, _ => within b
  | s, a =>
    match a.kind with
    | .classWord => afterClass
    | .identifier => if s = afterClass then between else afterName
    | .leftBrace => if s = afterName then within false else between
    | _ => between

/-- What a token is replaced by: the words `get` and `set` with their semicolons are left out, and
those that are printed stand before the brace that closes them. -/
def emit : AccessorScan → Token → List Token
  | within b, a =>
    if a.kind = .rightBrace then Accessors.tokens b ++ [a]
    else if a.isAccessor then [] else [a]
  | afterWord _, a => if a.kind = .semicolon then [] else [a]
  | _, a => [a]

/-- The tokens with the accessors of every property as they are printed. -/
def tidy (s : AccessorScan) : List Token → List Token
  | [] => []
  | a :: ts => s.emit a ++ (s.next a).tidy ts

/-- Where the scan stands after some tokens. -/
def run (s : AccessorScan) (ts : List Token) : AccessorScan := ts.foldl next s

theorem run_append (s : AccessorScan) (ts us : List Token) :
    s.run (ts ++ us) = (s.run ts).run us := List.foldl_append

theorem tidy_append (s : AccessorScan) (ts us : List Token) :
    s.tidy (ts ++ us) = s.tidy ts ++ (s.run ts).tidy us := by
  induction ts generalizing s with
  | nil => rfl
  | cons a ts ih => rw [List.cons_append, tidy, ih, tidy, List.append_assoc]; rfl

/-- Outside of accessors, and not after the word `class`. -/
def Settled (s : AccessorScan) : Prop := s = between ∨ s = afterName

end AccessorScan

/-- A token that neither opens a brace nor starts a class. -/
def Token.Quiet (a : Token) : Prop := a.kind ≠ .leftBrace ∧ a.kind ≠ .classWord

namespace AccessorScan

variable {s : AccessorScan} {a : Token} {ts : List Token}

theorem Settled.emit_eq (hs : s.Settled) (a : Token) : s.emit a = [a] := by
  rcases hs with rfl | rfl <;> rfl

/-- After a quiet token the scan knows whether it was a name. -/
theorem next_of_quiet (hs : s.Settled) (ha : a.Quiet) :
    s.next a = if a.kind = .identifier then afterName else between := by
  obtain ⟨hbrace, hclass⟩ := ha
  rcases hs with rfl | rfl <;> cases hk : a.kind <;> simp_all [next]

theorem tidy_of_quiet (hs : s.Settled) (h : ∀ a ∈ ts, a.Quiet) :
    s.tidy ts = ts ∧ (s.run ts).Settled := by
  induction ts generalizing s with
  | nil => exact ⟨rfl, hs⟩
  | cons a ts ih =>
    have hnext : (s.next a).Settled := by
      rw [next_of_quiet hs (h a (List.mem_cons_self ..))]
      split
      · exact .inr rfl
      · exact .inl rfl
    obtain ⟨htidy, hrun⟩ := ih hnext fun b hb => h b (List.mem_cons_of_mem _ hb)
    refine ⟨?_, hrun⟩
    rw [tidy, hs.emit_eq, htidy]
    rfl

/-- **Accessors are put in the order in which they are printed**, up to their closing brace. -/
theorem tidy_accessors {b : Bool} (h : Accessors b ts) (ha : a.kind = .rightBrace) (found : Bool) :
    (within found).tidy (ts ++ [a]) = Accessors.tokens (found || b) ++ [a] ∧
      (within found).run (ts ++ [a]) = between := by
  induction h generalizing found with
  | none => simp [tidy, emit, run, next, ha]
  | @one name semicolon more ts hname hword hsemicolon _ ih =>
    have haccessor : name.isAccessor = true := by
      simp [Token.isAccessor, hname, hword.symm]
    have hn : (within found).next name = afterWord (found || name.lexeme = "set") := by
      simp [next, hname, haccessor]
    have hs : ∀ found, (afterWord found).next semicolon = within found := fun _ => rfl
    obtain ⟨htidy, hrun⟩ := ih (found || name.lexeme = "set")
    refine ⟨?_, ?_⟩
    · simp only [List.cons_append, tidy, hn, hs, htidy, Bool.or_assoc]
      simp [emit, hname, haccessor, hsemicolon]
    · simpa [run, hn, hs] using hrun

example : (between.tidy (tokenize "class C \x7b int n \x7b set; get; set; \x7d \x7d").1).map
    Token.lexeme =
      ["class", "C", "\x7b", "int", "n", "\x7b", "get", ";", "set", ";", "\x7d", "\x7d", ""] := by
  decide +kernel

end AccessorScan

theorem Accessors.tokens_agree (b : Bool) : List.Forall₂ Token.Agrees (tokens b) (tokens b) := by
  have hword : ∀ n, (Token.word n).Agrees (.word n) := fun _ => .of_lexeme rfl rfl rfl
  have hsemicolon : TokenKind.semicolon.token.Agrees TokenKind.semicolon.token :=
    .of_lexeme rfl rfl rfl
  cases b with
  | false => exact .cons (hword _) (.cons hsemicolon .nil)
  | true => exact .cons (hword _) (.cons hsemicolon (.cons (hword _) (.cons hsemicolon .nil)))

open AccessorScan (between afterName within)

/-! ## 3. Pieces that are carried over -/

/-- All tokens of a text that are the pieces agree, once their accessors are tidy, with the tokens
that the pieces are printed as; the scan goes from one place to another. -/
def Carries (t : SyntaxTree) (At : NodeId → List Token → Prop) (s : AccessorScan) (ps : List Piece)
    (s' : AccessorScan) : Prop :=
  ∀ ts us, Spells t At ps ts → Writes t ps us → Source ts → (∀ b ∈ us, b.Faithful) →
    List.Forall₂ Token.Agrees (s.tidy ts) us ∧ s.run ts = s'

variable {t : SyntaxTree} {At : NodeId → List Token → Prop}

namespace Carries

variable {s s' s'' : AccessorScan} {ps qs : List Piece}

theorem nil : Carries t At s [] s := by
  intro ts us h hw _ _
  cases h
  cases hw
  exact ⟨.nil, rfl⟩

theorem append (h : Carries t At s ps s') (h' : Carries t At s' qs s'') :
    Carries t At s (ps ++ qs) s'' := by
  intro ts us hs hw hsource hfaithful
  obtain ⟨ts₁, ts₂, rfl, hs₁, hs₂⟩ := hs.of_append
  obtain ⟨us₁, us₂, rfl, hw₁, hw₂⟩ := hw.of_append
  obtain ⟨hsource₁, hsource₂⟩ := hsource.of_append
  obtain ⟨hfaithful₁, hfaithful₂⟩ := List.forall_mem_append.mp hfaithful
  obtain ⟨hagrees₁, hrun₁⟩ := h ts₁ us₁ hs₁ hw₁ hsource₁ hfaithful₁
  obtain ⟨hagrees₂, hrun₂⟩ := h' ts₂ us₂ hs₂ hw₂ hsource₂ hfaithful₂
  rw [AccessorScan.tidy_append, AccessorScan.run_append, hrun₁]
  exact ⟨List.rel_append hagrees₁ hagrees₂, hrun₂⟩

theorem node {id : NodeId} {c : Construct} (hc : t.construct? id = some c)
    (h : Carries t At s c.pieces s') : Carries t At s [.node id] s' := by
  intro ts us hs hw hsource hfaithful
  have hpieces := hs.pieces hc
  obtain ⟨us, vs, rfl, hwrites, hnil⟩ := hw.of_node hc
  cases hnil
  rw [List.append_nil] at hfaithful ⊢
  exact h ts us hpieces hwrites hsource hfaithful

/-- Nodes one after another. -/
theorem nodes : ∀ {ids : List NodeId}, (∀ id ∈ ids, Carries t At s [.node id] s) →
    Carries t At s (ids.map .node) s
  | [], _ => nil
  | id :: _, h =>
    (h id (List.mem_cons_self ..)).append (nodes fun k hk => h k (List.mem_cons_of_mem _ hk))

end Carries

/-! ## 4. Pieces without braces -/

/-- A piece that is no brace, no class and no accessors. -/
def Piece.isQuiet : Piece → Bool
  | sign k => k.spelling ≠ "" && k ≠ .leftBrace && k ≠ .classWord
  | accessors _ => false
  | name _ | literal _ | type _ | node _ => true

/-- Pieces without braces whose nodes are expressions. -/
structure QuietPieces (t : SyntaxTree) (ps : List Piece) : Prop where
  quiet : ps.all Piece.isQuiet = true
  exprs : ∀ id ∈ Piece.nodes ps, ∃ l r, Fits t (.expr l r) id

theorem Piece.isQuiet_sign {k : TokenKind} (h : (sign k).isQuiet = true) :
    k.spelling ≠ "" ∧ k ≠ .leftBrace ∧ k ≠ .classWord := by
  simpa [isQuiet, and_assoc] using h

theorem TokenKind.ne_of_inType {k : TokenKind} (h : k.inType = true) :
    k ≠ .leftBrace ∧ k ≠ .classWord := by
  refine ⟨?_, ?_⟩ <;> rintro rfl <;> cases h

theorem Literal.kind_ne (v : Literal) : v.kind ≠ .leftBrace ∧ v.kind ≠ .classWord := by
  cases v with
  | bool b => cases b <;> decide
  | int _ | long _ | float _ | double _ | string _ | null => simp [kind]

/-- A piece without braces agrees with how it is printed. -/
theorem Piece.Spelled.agrees {p : Piece} {ts us : List Token} (h : p.Spelled ts) (hw : p.Written us)
    (hp : p.isQuiet = true) (hs : Source ts) (hf : ∀ b ∈ us, b.Faithful) :
    List.Forall₂ (fun a b => a.Quiet ∧ a.Agrees b) ts us := by
  cases p with
  | node _ => cases h
  | accessors _ => cases hp
  | sign k =>
    obtain ⟨a, rfl, rfl⟩ := h
    obtain ⟨b, rfl, hk⟩ := hw
    obtain ⟨hspelling, hquiet⟩ := isQuiet_sign hp
    have hb := hf b (List.mem_singleton_self _)
    exact .cons ⟨hquiet, .of_faithful hs.of_cons.1 hb hk.symm hspelling⟩ .nil
  | name n =>
    obtain ⟨a, rfl, hka, rfl⟩ := h
    obtain ⟨b, rfl, hkb, hl⟩ := hw
    have hquiet : a.Quiet := by
      rw [Token.Quiet, hka]
      decide
    exact .cons ⟨hquiet, .of_lexeme (hka.trans hkb.symm) hl.symm (by rw [hka]; rfl)⟩ .nil
  | literal v =>
    obtain ⟨a, rfl, hav⟩ := h
    obtain ⟨b, rfl, hbv⟩ := hw
    have hb := hf b (List.mem_singleton_self _)
    have hquiet : a.Quiet := by
      rw [Token.Quiet, Token.kind_of_literal? hav]
      exact v.kind_ne
    exact .cons ⟨hquiet, .of_literal? hs.of_cons.1 hb hav hbv⟩ .nil
  | type w =>
    obtain ⟨-, rfl⟩ := hw
    have htype : SpellsType (.one w) ts := h
    exact (List.forall₂_and_left ..).mpr
      ⟨fun a ha => TokenKind.ne_of_inType (htype.inType a ha), htype.agrees hs⟩

theorem Piece.all_isQuiet_separated : ∀ pss : List (List Piece),
    (separated pss).all isQuiet = pss.all (·.all isQuiet)
  | [] => rfl
  | [ps] => by simp [separated]
  | ps :: qs :: rest => by
    have ih := all_isQuiet_separated (qs :: rest)
    rw [separated, List.all_append, List.all_cons, ih]
    rfl

theorem Construct.quiet_pieces {c : Construct} (h : c.isExpression = true) :
    c.pieces.all Piece.isQuiet = true := by
  have hargs : ∀ ids : List NodeId, (Piece.arguments ids).all Piece.isQuiet = true := by
    intro ids
    simp [Piece.arguments, Piece.all_isQuiet_separated, Piece.isQuiet, TokenKind.spelling]
  cases c with
  | call _ _ | newObject _ _ =>
    rw [pieces]
    simp [hargs, Piece.isQuiet, TokenKind.spelling]
  | assign op _ _ | binary op _ _ | unary op _ => cases op <;> rfl
  | literal _ | ident _ | member _ _ | cast _ _ | paren _ => rfl
  | _ => cases h

theorem QuietPieces.of_nodes_nil {ps : List Piece} (hq : ps.all Piece.isQuiet = true)
    (hn : Piece.nodes ps = []) : QuietPieces t ps := by
  refine ⟨hq, fun k hk => ?_⟩
  rw [hn] at hk
  cases hk

/-- Pieces with one expression among them. -/
theorem QuietPieces.of_expr {ps : List Piece} {e : NodeId} {l r : Nat}
    (hq : ps.all Piece.isQuiet = true) (hn : Piece.nodes ps = [e]) (he : Fits t (.expr l r) e) :
    QuietPieces t ps := by
  refine ⟨hq, fun k hk => ?_⟩
  rw [hn] at hk
  rw [List.mem_singleton.mp hk]
  exact ⟨l, r, he⟩

/-- The pieces of an expression are without braces. -/
theorem QuietPieces.of_fits {id : NodeId} {c : Construct} {l r : Nat} (h : Fits t (.expr l r) id)
    (hc : t.construct? id = some c) : QuietPieces t c.pieces := by
  cases h with
  | node ρ hd ha hk =>
    rw [hc] at hd
    cases hd
    obtain ⟨hexpr, hroles⟩ := ha.isExpression
    refine ⟨c.quiet_pieces hexpr, fun k hmem => ?_⟩
    rw [c.nodes_pieces] at hmem
    obtain ⟨l, r, hrole⟩ := hroles k hmem
    exact ⟨l, r, hrole ▸ hk k hmem⟩

/-- **Pieces without braces agree with how they are printed.** -/
theorem Spells.agrees {ps : List Piece} {ts : List Token} (h : Spells t At ps ts) :
    ∀ {us : List Token}, Writes t ps us → QuietPieces t ps → Source ts → (∀ b ∈ us, b.Faithful) →
      List.Forall₂ (fun a b => a.Quiet ∧ a.Agrees b) ts us := by
  induction h with
  | nil =>
    intro us hw _ _ _
    cases hw
    exact .nil
  | @leaf p ps us ts hp _ ih =>
    intro vs hw hquiet hsource hfaithful
    have hnode : p.isNode = false ∧ Piece.nodes (p :: ps) = Piece.nodes ps := by
      cases p with
      | node _ => cases hp
      | _ => exact ⟨rfl, rfl⟩
    obtain ⟨vs, ws, rfl, hwritten, hw⟩ := hw.of_leaf hnode.1
    obtain ⟨hsource₁, hsource₂⟩ := hsource.of_append
    obtain ⟨hfaithful₁, hfaithful₂⟩ := List.forall_mem_append.mp hfaithful
    obtain ⟨hfirst, hrest⟩ := Bool.and_eq_true_iff.mp hquiet.quiet
    have hexprs := hquiet.exprs
    rw [hnode.2] at hexprs
    exact List.rel_append (hp.agrees hwritten hfirst hsource₁ hfaithful₁)
      (ih hw ⟨hrest, hexprs⟩ hsource₂ hfaithful₂)
  | @node id c ps us ts hc _ _ _ ih₁ ih₂ =>
    intro vs hw hquiet hsource hfaithful
    obtain ⟨vs, ws, rfl, hwrites, hw⟩ := hw.of_node hc
    obtain ⟨hsource₁, hsource₂⟩ := hsource.of_append
    obtain ⟨hfaithful₁, hfaithful₂⟩ := List.forall_mem_append.mp hfaithful
    obtain ⟨l, r, hfit⟩ := hquiet.exprs id (List.mem_cons_self ..)
    have hrest : QuietPieces t ps :=
      ⟨(Bool.and_eq_true_iff.mp hquiet.quiet).2,
        fun k hk => hquiet.exprs k (List.mem_cons_of_mem _ hk)⟩
    exact List.rel_append (ih₁ hwrites (.of_fits hfit hc) hsource₁ hfaithful₁)
      (ih₂ hw hrest hsource₂ hfaithful₂)

/-! ## 5. Statements and declarations -/

namespace Carries

variable {s s' : AccessorScan} {ps qs : List Piece}

/-- One sign, from a place outside of accessors. -/
theorem sign {k : TokenKind} (hk : k.spelling ≠ "") (hemit : ∀ a, s.emit a = [a])
    (hnext : ∀ a : Token, a.kind = k → s.next a = s') : Carries t At s [.sign k] s' := by
  intro ts us hs hw hsource hfaithful
  obtain ⟨a, _, rfl, ha, hnil⟩ := Spells.sign_iff.mp hs
  obtain rfl := Spells.nil_iff.mp hnil
  obtain ⟨us, vs, rfl, ⟨b, rfl, hb⟩, hnil⟩ := hw.of_leaf rfl
  cases hnil
  refine ⟨?_, hnext a ha⟩
  rw [AccessorScan.tidy, hemit]
  refine .cons (.of_faithful hsource.of_cons.1 ?_ (ha.trans hb.symm) (ha ▸ hk)) .nil
  exact hfaithful b (List.mem_singleton_self _)

/-- One name, from a place outside of accessors. -/
theorem name {n : String} (hemit : ∀ a, s.emit a = [a])
    (hnext : ∀ a : Token, a.kind = .identifier → s.next a = s') : Carries t At s [.name n] s' := by
  intro ts us hs hw _ _
  obtain ⟨a, _, rfl, ⟨ha, hl⟩, hnil⟩ := Spells.name_iff.mp hs
  obtain rfl := Spells.nil_iff.mp hnil
  obtain ⟨us, vs, rfl, ⟨b, rfl, hb, hl'⟩, hnil⟩ := hw.of_leaf rfl
  cases hnil
  refine ⟨?_, hnext a ha⟩
  rw [AccessorScan.tidy, hemit]
  exact .cons (.of_lexeme (ha.trans hb.symm) (hl.trans hl'.symm) (by rw [ha]; rfl)) .nil

/-- Pieces without braces, and something after them that does not depend on whether they end with a
name. -/
theorem after_quiet (h : QuietPieces t ps) (hs : s.Settled)
    (hq : ∀ s : AccessorScan, s.Settled → Carries t At s qs s') : Carries t At s (ps ++ qs) s' := by
  intro ts us hspells hw hsource hfaithful
  obtain ⟨ts₁, ts₂, rfl, hs₁, hs₂⟩ := hspells.of_append
  obtain ⟨us₁, us₂, rfl, hw₁, hw₂⟩ := hw.of_append
  obtain ⟨hsource₁, hsource₂⟩ := hsource.of_append
  obtain ⟨hfaithful₁, hfaithful₂⟩ := List.forall_mem_append.mp hfaithful
  obtain ⟨hquiet, hagrees₁⟩ := (List.forall₂_and_left ..).mp (hs₁.agrees hw₁ h hsource₁ hfaithful₁)
  obtain ⟨htidy, hsettled⟩ := AccessorScan.tidy_of_quiet hs hquiet
  obtain ⟨hagrees₂, hrun₂⟩ := hq _ hsettled ts₂ us₂ hs₂ hw₂ hsource₂ hfaithful₂
  rw [AccessorScan.tidy_append, AccessorScan.run_append, htidy]
  exact ⟨List.rel_append hagrees₁ hagrees₂, hrun₂⟩

/-- Pieces without braces up to a sign. -/
theorem upto (ps : List Piece) {k : TokenKind} (h : QuietPieces t ps)
    (hk : (Piece.sign k).isQuiet = true) : Carries t At between (ps ++ [Piece.sign k]) between := by
  obtain ⟨hspelling, hquiet⟩ := Piece.isQuiet_sign hk
  refine after_quiet h (.inl rfl) fun s hs => sign hspelling hs.emit_eq fun a ha => ?_
  have hquiet' : a.Quiet := by
    rw [Token.Quiet, ha]
    exact hquiet
  rw [AccessorScan.next_of_quiet hs hquiet', if_neg]
  intro hident
  rw [← ha, hident] at hspelling
  exact hspelling rfl

theorem brace : Carries t At between [.sign .leftBrace] between :=
  sign (by decide) (fun _ => rfl) fun a ha => by simp [AccessorScan.next, ha]

/-- Nodes between braces. -/
theorem braced {ids : List NodeId} (h : ∀ id ∈ ids, Carries t At between [.node id] between) :
    Carries t At between (ids.map Piece.node ++ [Piece.sign .rightBrace]) between :=
  (nodes h).append (upto [] (.of_nodes_nil rfl rfl) rfl)

theorem block {stmts : List NodeId} (h : ∀ s ∈ stmts, Carries t At between [.node s] between) :
    Carries t At between (Construct.block stmts).pieces between :=
  brace.append (braced h)

/-- The head of a class: its name does not start accessors. -/
theorem classHead {n : String} :
    Carries t At between [.sign .classWord, .name n, .sign .leftBrace] between := by
  have hclass : Carries t At between [.sign .classWord] .afterClass :=
    sign (by decide) (fun _ => rfl) fun a ha => by simp [AccessorScan.next, ha]
  have hname : Carries t At .afterClass [.name n] between :=
    name (fun _ => rfl) fun a ha => by simp [AccessorScan.next, ha]
  exact hclass.append (hname.append brace)

/-- Accessors after the name of a property. -/
theorem accessors {b : Bool} :
    Carries t At afterName [.sign .leftBrace, .accessors b, .sign .rightBrace] between := by
  intro ts us hs hw hsource hfaithful
  obtain ⟨o, _, rfl, ho, hs₁⟩ := Spells.sign_iff.mp hs
  obtain ⟨ts, _, rfl, haccessors, hs₂⟩ := Spells.accessors_iff.mp hs₁
  obtain ⟨c, _, rfl, hc, hnil⟩ := Spells.sign_iff.mp hs₂
  obtain rfl := Spells.nil_iff.mp hnil
  obtain ⟨_, _, rfl, ⟨o', rfl, ho'⟩, hw₁⟩ := hw.of_leaf rfl
  obtain ⟨_, _, rfl, rfl, hw₂⟩ := hw₁.of_leaf rfl
  obtain ⟨_, _, rfl, ⟨c', rfl, hc'⟩, hnil⟩ := hw₂.of_leaf rfl
  cases hnil
  have hnext : afterName.next o = within false := by simp [AccessorScan.next, ho]
  obtain ⟨htidy, hrun⟩ := AccessorScan.tidy_accessors haccessors hc false
  have hopen : o.Agrees o' := .of_faithful (hsource.faithful o (by simp)) (hfaithful o' (by simp))
    (ho.trans ho'.symm) (by rw [ho]; decide)
  have hclose : c.Agrees c' := .of_faithful (hsource.faithful c (by simp)) (hfaithful c' (by simp))
    (hc.trans hc'.symm) (by rw [hc]; decide)
  refine ⟨?_, ?_⟩
  · rw [AccessorScan.tidy, hnext, htidy]
    exact .cons hopen (List.rel_append (Accessors.tokens_agree b) (.cons hclose .nil))
  · rw [← hrun, ← hnext]
    rfl

end Carries

theorem Declarator.quiet_pieces (var : Declarator) : var.pieces.all Piece.isQuiet = true := by
  rcases var with ⟨name, _ | init⟩ <;> rfl

theorem Param.quiet_pieces (p : Param) : p.pieces.all Piece.isQuiet = true := rfl

section Roles

variable {ρ : NodeId → Role} {c : Construct}

/-- The pieces of a statement are carried over if its parts are. -/
theorem Admits.carries_stmt {d : Bool} (ha : Admits t ρ c (.stmt d))
    (hexpr : ∀ {e : NodeId} {l r : Nat}, e ∈ c.children → ρ e = .expr l r → Fits t (.expr l r) e)
    (hstmt : ∀ {s : NodeId} {d : Bool}, s ∈ c.children → ρ s = .stmt d →
      Carries t At between [.node s] between) : Carries t At between c.pieces between := by
  have condition : ∀ {k : TokenKind} {e : NodeId} {l r : Nat}, (Piece.sign k).isQuiet = true →
      e ∈ c.children → ρ e = .expr l r → Carries t At between
        ([Piece.sign k, .sign .leftParen, .node e] ++ [Piece.sign .rightParen]) between := by
    intro k e l r hk hmem hrole
    refine .upto _ (.of_expr ?_ rfl (hexpr hmem hrole)) rfl
    rw [List.all_cons, hk]
    rfl
  have word : ∀ {k : TokenKind}, (Piece.sign k).isQuiet = true →
      Carries t At between [.sign k] between := by
    intro k hk
    exact .upto [] (.of_nodes_nil rfl rfl) hk
  cases ha with
  | @exprStmt e _ _ he _ =>
    have := hexpr (by simp [Construct.children]) he
    exact .upto [.node e] (.of_expr rfl rfl this) rfl
  | @localDecl w vars _ hinit =>
    refine .upto (.type w :: Piece.separated (vars.map Declarator.pieces)) ⟨?_, ?_⟩ rfl
    · simp [Piece.all_isQuiet_separated, Declarator.quiet_pieces, Piece.isQuiet]
    · intro e he
      simp only [Piece.nodes, Piece.nodes_separated, Piece.flatMap_nodes_declarator] at he
      obtain ⟨l, r, hrole⟩ := hinit e he
      exact ⟨l, r, hexpr he hrole⟩
  | @returnStmt value hvalue =>
    cases value with
    | none => exact .upto [.sign .returnWord] (.of_nodes_nil rfl rfl) rfl
    | some e =>
      obtain ⟨l, r, he⟩ := hvalue e rfl
      have := hexpr (by simp [Construct.children]) he
      exact .upto [.sign .returnWord, .node e] (.of_expr rfl rfl this) rfl
  | @yieldStmt e _ _ he =>
    have := hexpr (by simp [Construct.children]) he
    exact .upto [.sign .yieldWord, .sign .returnWord, .node e] (.of_expr rfl rfl this) rfl
  | breakStmt => exact .upto [.sign .breakWord] (.of_nodes_nil rfl rfl) rfl
  | continueStmt => exact .upto [.sign .continueWord] (.of_nodes_nil rfl rfl) rfl
  | emptyStmt => exact word rfl
  | block hall =>
    refine .block fun s hs => ?_
    obtain ⟨d, hd⟩ := hall s hs
    exact hstmt hs hd
  | ifThen he ha | whileStmt he ha =>
    exact (condition rfl (by simp [Construct.children]) he).append
      (hstmt (by simp [Construct.children]) ha)
  | ifElse he ha hb =>
    have hthen := hstmt (by simp [Construct.children]) ha
    have helse := (word (k := .elseWord) rfl).append (hstmt (by simp [Construct.children]) hb)
    exact (condition rfl (by simp [Construct.children]) he).append (hthen.append helse)
  | doStmt ha he =>
    have hbody := (word (k := .doWord) rfl).append (hstmt (by simp [Construct.children]) ha)
    have hend := (condition (k := .whileWord) rfl (by simp [Construct.children]) he).append
      (word (k := .semicolon) rfl)
    exact hbody.append hend

/-- The pieces of a function are carried over if its body is. -/
theorem Carries.function {w : WrittenType} {n : Ident} {params : List Param} {body : NodeId}
    (h : Carries t At between [.node body] between) :
    Carries t At between (Construct.function w n params body).pieces between := by
  have hhead : Carries t At between ((Piece.type w :: .name n.name :: .sign .leftParen ::
      Piece.separated (params.map Param.pieces)) ++ [Piece.sign .rightParen]) between := by
    refine .upto _ ⟨?_, ?_⟩ rfl
    · simp [Piece.all_isQuiet_separated, Param.quiet_pieces, Piece.isQuiet, TokenKind.spelling]
    · simp [Piece.nodes, Param.pieces]
  have := hhead.append h
  simpa [Construct.pieces] using this

/-- The pieces of a property are carried over. -/
theorem Carries.property {w : WrittenType} {n : Ident} {b : Bool} :
    Carries t At between (Construct.property w n b).pieces between := by
  have hhead : Carries t At between ([Piece.type w] ++ [Piece.name n.name]) afterName := by
    refine .after_quiet (.of_nodes_nil rfl rfl) (.inl rfl) fun s hs => ?_
    refine .name hs.emit_eq fun a ha => ?_
    rw [AccessorScan.next_of_quiet hs (by rw [Token.Quiet, ha]; decide), if_pos ha]
  exact hhead.append .accessors

end Roles

/-- **Every statement and declaration is kept.** -/
theorem carries_of_fits {role : Role} {id : NodeId} (h : Fits t role id) :
    (∀ l r, role ≠ .expr l r) → Carries t At between [.node id] between := by
  induction h with
  | @node role id c ρ hc ha hk ih =>
    intro hrole
    refine .node hc ?_
    have expr : ∀ {e : NodeId} {l r : Nat}, e ∈ c.children → ρ e = .expr l r →
        Fits t (.expr l r) e := by
      intro e l r hmem he
      exact he ▸ hk e hmem
    have stmt : ∀ {s : NodeId} {d : Bool}, s ∈ c.children → ρ s = .stmt d →
        Carries t At between [.node s] between := by
      intro s d hmem hs
      exact ih s hmem (by simp [hs])
    cases role with
    | expr l r => exact absurd rfl (hrole l r)
    | stmt d => exact ha.carries_stmt expr stmt
    | body =>
      cases ha with
      | body hall =>
        refine .block fun s hs => ?_
        obtain ⟨d, hd⟩ := hall s hs
        exact stmt hs hd
    | member =>
      cases ha with
      | @field w n init hinit =>
        refine .upto (.type w :: Declarator.pieces ⟨n, init⟩) ⟨?_, fun e he => ?_⟩ rfl
        · exact Declarator.quiet_pieces ⟨n, init⟩
        · rw [Piece.nodes, Piece.nodes_declarator] at he
          obtain ⟨l, r, hrole⟩ := hinit e (Option.mem_toList.mp he)
          exact ⟨l, r, expr he hrole⟩
      | property => exact .property
      | method hs => exact .function (ih _ (by simp [Construct.children]) (by simp [hs]))
    | item =>
      cases ha with
      | item ha _ => exact ha.carries_stmt expr stmt
      | function hs => exact .function (ih _ (by simp [Construct.children]) (by simp [hs]))
      | classDecl hall =>
        refine Carries.classHead.append (.braced fun m hm => ?_)
        exact ih m hm (by simp [hall m hm])

/-! ## 6. Programs -/

/-- A program without floating-point tokens has no floating-point literals. -/
theorem Spells.isExact {ps : List Piece} {ts : List Token} (h : Spells t At ps ts)
    (hexact : ∀ a ∈ ts, a.kind ≠ .floatLiteral ∧ a.kind ≠ .doubleLiteral) {i : NodeId} {v : Literal}
    (hi : t.Under (Piece.nodes ps) i) (hv : t.construct? i = some (.literal v)) :
    v.isExact = true := by
  obtain ⟨us, hus, hnode⟩ := h.of_under hi
  have hpieces := hnode.pieces hv
  obtain ⟨a, _, rfl, ha, -⟩ := Spells.literal_iff.mp hpieces
  obtain ⟨hfloat, hdouble⟩ := hexact a (hus.subset (List.mem_cons_self ..))
  have hk := Token.kind_of_literal? ha
  cases v with
  | float _ => exact absurd hk hfloat
  | double _ => exact absurd hk hdouble
  | int _ | long _ | string _ | bool _ | null => rfl

/-- A program is printed as a text with the tokens that its items are printed as. -/
theorem SyntaxTree.print_lexed {items : List NodeId} (hc : t.construct? t.root = some (.unit items))
    (hall : ∀ id ∈ items, Fits t .item id) (hready : Ready t [t.root]) :
    ∃ us, Writes t (items.map .node) us ∧ (∀ b ∈ us, b.Faithful) ∧
      ∃ toks s, Token.SameBare us toks ∧ (tokenize t.print).1 = toks ++ [⟨.eof, "", s⟩] := by
  obtain ⟨us, hw, hp⟩ := Printer.written_print hc hall hready
  have hreads := @hp [] [] [] (List.forall_mem_nil _) .nil
  rw [indentLines_nil, List.append_nil, List.append_nil] at hreads
  obtain ⟨toks, stop, rest, hlex, hspent, hbare⟩ := hreads.2 .start
  obtain ⟨toks', stop', rest', s, hlex', hspent', htoks⟩ := tokenize_lexed t.print
  obtain rfl := hlex.unique hlex' hspent hspent'
  exact ⟨us, hw, Token.SameBare.faithful hbare hlex.faithful, toks, s, hbare.symm, htoks⟩

/-- **A text that is read without errors loses no token**: it is printed with the tokens that it was
read from, one by one, once the accessors of its properties are tidy, if it has no floating-point
number and no type with more brackets than the greatest rank. -/
theorem parse_keeps_tokens (text : String) (t : SyntaxTree) (h : parse text = .ok t)
    (hexact : ∀ a ∈ (tokenize text).1, a.kind ≠ .floatLiteral ∧ a.kind ≠ .doubleLiteral)
    (hranks : ShortRanks (tokenize text).1) :
    List.Forall₂ Token.Agrees (between.tidy (tokenize text).1) (tokenize t.print).1 := by
  obtain ⟨rfl, herr⟩ := parse_eq_ok_iff.mp h
  obtain ⟨toks, stop, rest, items, ts, hlex, hspent, hroot, hs, hall, -, -, hnone⟩ :=
    parseLenient_sound text
  obtain rfl := hnone herr
  obtain ⟨toks', stop', rest', s, hlex', hspent', htoks⟩ := tokenize_lexed text
  obtain rfl := hlex.unique hlex' hspent hspent'
  rw [htoks] at hexact hranks ⊢
  -- the text can be printed, and what is printed is read again
  have hready : Ready (parseLenient text).1 [(parseLenient text).1.root] := by
    refine parseLenient_ready text (fun k hk => .root hk) fun i v hi hv => ?_
    rcases SyntaxTree.Under.cases_root hi with rfl | hu
    · rw [hroot] at hv
      cases hv
    · rw [SyntaxTree.children_of_construct? hroot] at hu
      refine hs.isExact (fun a ha => hexact a (List.mem_append_left _ ha)) ?_ hv
      rwa [Piece.nodes_map_node]
  obtain ⟨us, hw, hfaithful, printed, s', hbare, hprinted⟩ :=
    SyntaxTree.print_lexed hroot hall hready
  -- its items are carried over
  have hcarries : Carries _ (Placed (parseLenient text).1) between (items.map .node) between :=
    .nodes fun id hid => carries_of_fits (hall id hid) (by simp)
  obtain ⟨hagrees, hrun⟩ := hcarries ts us hs hw ⟨hlex.faithful, hranks.of_append.1⟩ hfaithful
  have hend : Token.Agrees ⟨.eof, "", s⟩ ⟨.eof, "", s'⟩ := .of_lexeme rfl rfl rfl
  rw [hprinted, AccessorScan.tidy_append, hrun]
  exact List.rel_append (hbare.agrees hagrees) (.cons hend .nil)

end Recast
