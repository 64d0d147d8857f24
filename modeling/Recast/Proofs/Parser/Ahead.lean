/-
# Looking ahead and reading agree

The parser looks over a type without reading it, to decide what is declared, and reads the type
afterwards.  These are two recursions over the same tokens, and they agree: where a type is seen ahead, a
type of that length is read, and nowhere else.  What was decided by looking ahead is therefore not undone
by reading.

* `TypeScan.length?`: how many tokens the type ahead has;
* `type?_eq_some_iff_type`: **a type is read exactly where one is seen ahead**, and as far as was seen;
* `localDecl_eq`, `function_eq`: a declaration by the parts that the decision looked at;
* `lookahead_agrees`: what is seen, what is read, and the two decisions.
-/
import Recast.Proofs.Grammar.Lookahead
import Recast.Proofs.Parser.Progress
import Recast.Proofs.Parser.Reading

namespace Recast

/-- The number of tokens of the type at the front of a list of tokens, if there is one. -/
def TypeScan.length? (tokens : List Token) : Option Nat :=
  (type? tokens).map fun rest => tokens.length - rest.length

namespace Parse

open TypeScan (length? type?_eq_some_iff)

variable {p : Parser}

/-! ## 1. Types -/

/-- **A type is read exactly where one is seen ahead**, and as far as was seen. -/
theorem type?_eq_some_iff_type {rest : List Token} :
    TypeScan.type? p.tokens = some rest ↔ ∃ t q, type p = (.ok t, q) ∧ q.tokens = rest := by
  constructor
  · intro hseen
    obtain ⟨t, ts, hp, hts, hend⟩ := type?_eq_some_iff.mp hseen
    obtain ⟨t', ht, -⟩ := type_of_spells hts hp hend
    exact ⟨t', _, ht, rfl⟩
  · rintro ⟨t, q, ht, rfl⟩
    obtain ⟨ts, ⟨hp, -⟩, hts, hend, -⟩ := type_sound ht
    exact type?_eq_some_iff.mpr ⟨t, ts, hp, hts, hend⟩

/-- As many tokens are read as were seen. -/
theorem length?_eq_some_iff {n : Nat} : length? p.tokens = some n ↔
    ∃ t q, type p = (.ok t, q) ∧ n ≤ p.tokens.length ∧ q.tokens = p.tokens.drop n := by
  rw [length?, Option.map_eq_some_iff]
  constructor
  · rintro ⟨rest, hseen, rfl⟩
    obtain ⟨t, q, ht, rfl⟩ := type?_eq_some_iff_type.mp hseen
    obtain ⟨ts, ⟨hp, -⟩, -⟩ := type_sound ht
    refine ⟨t, q, ht, Nat.sub_le _ _, ?_⟩
    rw [hp, List.length_append, Nat.add_sub_cancel_right, List.drop_left]
  · rintro ⟨t, q, ht, hn, hq⟩
    refine ⟨q.tokens, type?_eq_some_iff_type.mpr ⟨t, q, ht, rfl⟩, ?_⟩
    rw [hq, List.length_drop, Nat.sub_sub_self hn]

theorem isSome_length?_iff : (length? p.tokens).isSome = true ↔ ∃ t q, type p = (.ok t, q) := by
  rw [length?, Option.isSome_map, Option.isSome_iff_exists]
  constructor
  · rintro ⟨rest, hseen⟩
    obtain ⟨t, q, ht, -⟩ := type?_eq_some_iff_type.mp hseen
    exact ⟨t, q, ht⟩
  · rintro ⟨t, q, ht⟩
    exact ⟨q.tokens, type?_eq_some_iff_type.mpr ⟨t, q, ht, rfl⟩⟩

/-- A type, a name and a token that are seen ahead are there to be read. -/
theorem exists_type_ident_of_sees {next : TokenKind → Bool}
    (h : TypeScan.sees next p.tokens = true) :
    ∃ t name q r after rest, type p = (.ok t, q) ∧ ident q = (.ok name, r) ∧
      r.tokens = after :: rest ∧ next after.kind = true := by
  obtain ⟨name, after, rest, hseen, hname, hafter⟩ := TypeScan.sees_eq_true_iff.mp h
  obtain ⟨t, q, ht, hq⟩ := type?_eq_some_iff_type.mp hseen
  exact ⟨t, _, q, _, after, rest, ht, ident_of_eq_cons hq hname, rfl, hafter⟩

/-! ## 2. Declarations -/

/-- What is read of a local declaration after its type and its first name. -/
def localDeclAfter (declared : WrittenType) (name : Ident) : Parse NodeId := do
  let init ← initializer
  let more ← if ← eat .comma then separated declarator else pure []
  let _ ← expect .semicolon
  alloc (.localDecl declared (⟨name, init⟩ :: more)) (← spanFrom declared.span)

/-- What is read of a function after its type, its name and the opening parenthesis. -/
def functionAfter (returnType : WrittenType) (name : Ident) : Parse NodeId := do
  let params ← if ← check .rightParen then pure [] else separated param
  let _ ← expect .rightParen
  let body ← block
  alloc (.function returnType name params body) (← spanFrom returnType.span)

/-- A sequence is its first item and, after a comma, a sequence. -/
theorem separated_eq {α : Type} {item : Parse α} (h : ∀ n, Same n item item) :
    separated item = separatedWith item (separated item) := by
  funext p
  exact ((settles_separated h).unfolds _ p (Nat.le_refl _)).1.symm

/-- **A local declaration is a type, a name and the rest.** -/
theorem localDecl_eq : localDecl = (do
    let declared ← type
    let name ← ident
    localDeclAfter declared name) := by
  have hvars : separated declarator = separatedWith declarator (separated declarator) :=
    separated_eq fun _ => eats_declarator.same
  rw [localDecl, hvars]
  simp only [separatedWith, declarator, localDeclAfter, bind_assoc, pure_bind]
  refine bind_congr fun declared => bind_congr fun name => bind_congr fun init => ?_
  refine bind_congr fun b => ?_
  cases b
  · simp
  · simp

/-- **A function is a type, a name, an opening parenthesis and the rest.** -/
theorem function_eq : function = (do
    let returnType ← type
    let name ← ident
    let _ ← expect .leftParen
    functionAfter returnType name) := rfl

/-! ## 3. Both together -/

/-- **Looking ahead agrees with reading.**  A type of `n` tokens is seen ahead exactly where the parser
reads a type, and it reads those `n` tokens; whether or not it succeeds, the tree and the errors stay as
they are.  Where a variable is seen ahead, its type and its name are read and only the rest of the
declaration can fail; so it is with a function, its name and its opening parenthesis. -/
theorem lookahead_agrees (p : Parser) :
    (∀ n, length? p.tokens = some n ↔
      ∃ t q, type p = (.ok t, q) ∧ n ≤ p.tokens.length ∧ q.tokens = p.tokens.drop n) ∧
    ((length? p.tokens).isSome = true ↔ ∃ t q, type p = (.ok t, q)) ∧
    ((type p).2.tree = p.tree ∧ (type p).2.errors = p.errors) ∧
    (TypeScan.isVarDecl p.tokens = true → ∃ t q name r, type p = (.ok t, q) ∧
      ident q = (.ok name, r) ∧ localDecl p = localDeclAfter t name r) ∧
    (TypeScan.isFunctionDecl p.tokens = true → ∃ t q name r paren s, type p = (.ok t, q) ∧
      ident q = (.ok name, r) ∧ expect .leftParen r = (.ok paren, s) ∧
      function p = functionAfter t name s) := by
  refine ⟨fun n => length?_eq_some_iff, isSome_length?_iff, ?_, fun h => ?_, fun h => ?_⟩
  · obtain ⟨ts, hread⟩ := (onlyReads_type p).read
    exact ⟨hread.tree_eq, hread.errors_eq⟩
  · rw [TypeScan.isVarDecl_eq_sees] at h
    obtain ⟨t, name, q, r, -, -, ht, hname, -, -⟩ := exists_type_ident_of_sees h
    refine ⟨t, q, name, r, ht, hname, ?_⟩
    rw [localDecl_eq, bind_of_ok ht, bind_of_ok hname]
  · rw [TypeScan.isFunctionDecl_eq_sees] at h
    obtain ⟨t, name, q, r, after, rest, ht, hname, hr, hafter⟩ := exists_type_ident_of_sees h
    have hparen := expect_of_eq_cons hr (of_decide_eq_true hafter)
    refine ⟨t, q, name, r, after, _, ht, hname, hparen, ?_⟩
    rw [function_eq, bind_of_ok ht, bind_of_ok hname, bind_of_ok hparen]

/-- A variable and a function with nested types. -/
theorem lookahead_agrees_nested :
    let p := Parser.ofText "Map<int, List<Order>[]>[][] orders = load();"
    let q := Parser.ofText "List<int[]> rows(Table t) { }"
    (length? p.tokens = some 15 ∧
      ∃ t r, type p = (.ok t, r) ∧ 15 ≤ p.tokens.length ∧ r.tokens = p.tokens.drop 15) ∧
    (TypeScan.isVarDecl p.tokens = true ∧ ∃ t q name r, type p = (.ok t, q) ∧
      ident q = (.ok name, r) ∧ localDecl p = localDeclAfter t name r) ∧
    (TypeScan.isFunctionDecl q.tokens = true ∧ ∃ t r name r' paren s, type q = (.ok t, r) ∧
      ident r = (.ok name, r') ∧ expect .leftParen r' = (.ok paren, s) ∧
      function q = functionAfter t name s) := by
  intro p q
  have hlen : length? p.tokens = some 15 := by decide +kernel
  have hvar : TypeScan.isVarDecl p.tokens = true := by decide +kernel
  have hfun : TypeScan.isFunctionDecl q.tokens = true := by decide +kernel
  exact ⟨⟨hlen, ((lookahead_agrees p).1 15).mp hlen⟩, ⟨hvar, (lookahead_agrees p).2.2.2.1 hvar⟩,
    hfun, (lookahead_agrees q).2.2.2.2 hfun⟩

end Parse

end Recast
