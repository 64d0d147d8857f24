/-
# Concrete syntax

How a construct is written, as data: a list of pieces, each of them a token, a type or the node of a
part (`Construct.pieces`).  So what a tree has to do with the tokens that it was read from is said
once for all constructs, and not by one rule for each of them.

* `Spells t At ps ts`: the tokens `ts` are, in order, the pieces `ps` over the nodes of the tree `t`,
  and every node on the way has with its own tokens the relation `At`;
* `Spells.of_under`: the tokens of a node are a stretch of the tokens of any node above it;
* `Spells.mono`: growth of the table changes nothing.
-/
import Recast.Proofs.Grammar.Type

namespace Recast

open Recast.Parser (headKind)

/-! ## 1. Pieces -/

/-- One piece of the text of a construct. -/
inductive Piece where
  /-- A token that is told by its kind. -/
  | sign (kind : TokenKind)
  | name (name : String)
  | literal (value : Literal)
  | type (type : WrittenType)
  /-- Accessors of a property, and whether one of them sets it. -/
  | accessors (hasSetter : Bool)
  | node (id : NodeId)

/-- The literal that a token stands for. -/
def Token.literal? (t : Token) : Option Literal :=
  match t.kind with
  | .intLiteral | .longLiteral | .floatLiteral | .doubleLiteral | .stringLiteral =>
    (Literal.ofToken t).toOption
  | .trueWord => some (.bool true)
  | .falseWord => some (.bool false)
  | .nullWord => some .null
  | _ => none

/-- The tokens are accessors, each before a semicolon; the flag tells whether one is a `set`. -/
inductive Accessors : Bool → List Token → Prop
  | none : Accessors false []
  | one {name semicolon : Token} {more : Bool} {ts : List Token} : name.kind = .identifier →
      name.lexeme = "set" ∨ name.lexeme = "get" → semicolon.kind = .semicolon →
      Accessors more ts → Accessors (name.lexeme = "set" || more) (name :: semicolon :: ts)

/-- The tokens are a piece that is not a node. -/
def Piece.Spelled : Piece → List Token → Prop
  | sign k, ts => ∃ a, ts = [a] ∧ a.kind = k
  | name n, ts => ∃ a, ts = [a] ∧ a.kind = .identifier ∧ a.lexeme = n
  | literal v, ts => ∃ a, ts = [a] ∧ a.literal? = some v
  | type w, ts => SpellsType (.one w) ts
  | accessors b, ts => Accessors b ts
  | node _, _ => False

/-- Whether a piece is a node. -/
def Piece.isNode : Piece → Bool
  | node _ => true
  | _ => false

/-- The nodes among some pieces. -/
def Piece.nodes : List Piece → List NodeId
  | [] => []
  | node id :: ps => id :: nodes ps
  | sign _ :: ps | name _ :: ps | literal _ :: ps | type _ :: ps | accessors _ :: ps => nodes ps

/-- Lists of pieces with commas between them. -/
def Piece.separated : List (List Piece) → List Piece
  | [] => []
  | [ps] => ps
  | ps :: qs :: rest => ps ++ sign .comma :: separated (qs :: rest)

/-! ## 2. Constructs -/

/-- The token of a binary operator. -/
def BinaryOp.kind : BinaryOp → TokenKind
  | or => .pipePipe
  | and => .ampAmp
  | eq => .equalEqual
  | ne => .bangEqual
  | lt => .less
  | le => .lessEqual
  | gt => .greater
  | ge => .greaterEqual
  | add => .plus
  | sub => .minus
  | mul => .star
  | div => .slash
  | rem => .percent

/-- The token of an operator before an operand. -/
def UnaryOp.kind : UnaryOp → TokenKind
  | neg => .minus
  | not => .bang

/-- The token of an assignment operator. -/
def AssignOp.kind : AssignOp → TokenKind
  | set => .equal
  | add => .plusEqual
  | sub => .minusEqual
  | mul => .starEqual
  | div => .slashEqual

/-- The pieces of a name with an optional initializer. -/
def Declarator.pieces (var : Declarator) : List Piece :=
  match var.init with
  | none => [.name var.name.name]
  | some init => [.name var.name.name, .sign .equal, .node init]

/-- The pieces of a parameter. -/
def Param.pieces (p : Param) : List Piece := [.type p.type, .name p.name.name]

/-- The pieces of a list of arguments with its parentheses. -/
def Piece.arguments (ids : List NodeId) : List Piece :=
  .sign .leftParen :: (separated (ids.map fun id => [node id]) ++ [.sign .rightParen])

/-- How a construct is written. -/
def Construct.pieces : Construct → List Piece
  | unit items => items.map .node
  | classDecl name members =>
    .sign .classWord :: .name name.name :: .sign .leftBrace ::
      (members.map .node ++ [.sign .rightBrace])
  | field type name init => .type type :: (Declarator.pieces ⟨name, init⟩ ++ [.sign .semicolon])
  | property type name hasSetter =>
    [.type type, .name name.name, .sign .leftBrace, .accessors hasSetter, .sign .rightBrace]
  | function returnType name params body =>
    .type returnType :: .name name.name :: .sign .leftParen ::
      (Piece.separated (params.map Param.pieces) ++ [.sign .rightParen, .node body])
  | block stmts => .sign .leftBrace :: (stmts.map .node ++ [.sign .rightBrace])
  | exprStmt expr => [.node expr, .sign .semicolon]
  | localDecl type vars =>
    .type type :: (Piece.separated (vars.map Declarator.pieces) ++ [.sign .semicolon])
  | returnStmt none => [.sign .returnWord, .sign .semicolon]
  | returnStmt (some value) => [.sign .returnWord, .node value, .sign .semicolon]
  | yieldStmt value => [.sign .yieldWord, .sign .returnWord, .node value, .sign .semicolon]
  | ifStmt condition thenBranch none =>
    [.sign .ifWord, .sign .leftParen, .node condition, .sign .rightParen, .node thenBranch]
  | ifStmt condition thenBranch (some elseBranch) =>
    [.sign .ifWord, .sign .leftParen, .node condition, .sign .rightParen, .node thenBranch,
      .sign .elseWord, .node elseBranch]
  | whileStmt condition body =>
    [.sign .whileWord, .sign .leftParen, .node condition, .sign .rightParen, .node body]
  | doStmt body condition =>
    [.sign .doWord, .node body, .sign .whileWord, .sign .leftParen, .node condition,
      .sign .rightParen, .sign .semicolon]
  | breakStmt => [.sign .breakWord, .sign .semicolon]
  | continueStmt => [.sign .continueWord, .sign .semicolon]
  | emptyStmt => [.sign .semicolon]
  | literal value => [.literal value]
  | ident name => [.name name.name]
  | member object name => [.node object, .sign .dot, .name name.name]
  | call callee args => .node callee :: Piece.arguments args
  | newObject type args => .sign .newWord :: .type type :: Piece.arguments args
  | cast type expr =>
    [.sign .castWord, .sign .less, .type type, .sign .greater, .sign .leftParen, .node expr,
      .sign .rightParen]
  | assign op target value => [.node target, .sign op.kind, .node value]
  | binary op lhs rhs => [.node lhs, .sign op.kind, .node rhs]
  | unary op operand => [.sign op.kind, .node operand]
  | paren inner => [.sign .leftParen, .node inner, .sign .rightParen]

namespace Piece

@[simp]
theorem nodes_append : ∀ ps qs : List Piece, nodes (ps ++ qs) = nodes ps ++ nodes qs
  | [], _ => rfl
  | node id :: ps, qs => congrArg (id :: ·) (nodes_append ps qs)
  | sign _ :: ps, qs | name _ :: ps, qs | literal _ :: ps, qs | type _ :: ps, qs
  | accessors _ :: ps, qs => nodes_append ps qs

@[simp]
theorem nodes_map_node : ∀ ids : List NodeId, nodes (ids.map node) = ids
  | [] => rfl
  | id :: ids => congrArg (id :: ·) (nodes_map_node ids)

@[simp]
theorem nodes_separated : ∀ pss : List (List Piece), nodes (separated pss) = pss.flatMap nodes
  | [] => rfl
  | [ps] => by simp [separated]
  | ps :: qs :: rest => by
    have ih := nodes_separated (qs :: rest)
    rw [separated, nodes_append, nodes, ih]
    rfl

theorem mem_separated {p : Piece} : ∀ {pss : List (List Piece)} {ps : List Piece},
    ps ∈ pss → p ∈ ps → p ∈ separated pss
  | [_], _, hm, hp => by
    rw [List.mem_singleton.mp hm] at hp
    exact hp
  | _ :: _ :: _, _, hm, hp => by
    rcases List.mem_cons.mp hm with rfl | hm
    · exact List.mem_append_left _ hp
    · exact List.mem_append_right _ (List.mem_cons_of_mem _ (mem_separated hm hp))

theorem flatMap_nodes_node : ∀ ids : List NodeId,
    (ids.map fun id => [node id]).flatMap nodes = ids
  | [] => rfl
  | id :: ids => congrArg (id :: ·) (flatMap_nodes_node ids)

@[simp]
theorem nodes_arguments (ids : List NodeId) : nodes (arguments ids) = ids := by
  simp [arguments, nodes, flatMap_nodes_node]

@[simp]
theorem nodes_declarator (var : Declarator) : nodes var.pieces = var.init.toList := by
  rcases var with ⟨name, _ | init⟩ <;> rfl

theorem flatMap_nodes_declarator : ∀ vars : List Declarator,
    (vars.map Declarator.pieces).flatMap nodes = vars.filterMap Declarator.init
  | [] => rfl
  | ⟨_, none⟩ :: vars => by simp [flatMap_nodes_declarator vars]
  | ⟨_, some _⟩ :: vars => by simp [flatMap_nodes_declarator vars]

end Piece

/-- **The nodes among the pieces of a construct are its children, in order.** -/
theorem Construct.nodes_pieces (c : Construct) : Piece.nodes c.pieces = c.children := by
  cases c with
  | unit _ | classDecl _ _ | block _ | field _ _ _ | call _ _ | newObject _ _ =>
    simp [pieces, Piece.nodes, children]
  | function returnType name params body =>
    have hparams : (params.map Param.pieces).flatMap Piece.nodes = [] := by
      simp [Param.pieces, Piece.nodes]
    simp [pieces, Piece.nodes, hparams, children]
  | localDecl type vars =>
    simp [pieces, Piece.nodes, Piece.flatMap_nodes_declarator, children]
  | returnStmt value => cases value <;> rfl
  | ifStmt condition thenBranch elseBranch => cases elseBranch <;> rfl
  | _ => rfl

/-! ## 3. Spelling -/

/-- The tokens are the pieces, one after another; a node is spelled by the pieces of its construct.
Every node has the relation `At` with its tokens. -/
inductive Spells (t : SyntaxTree) (At : NodeId → List Token → Prop) :
    List Piece → List Token → Prop
  | nil : Spells t At [] []
  | leaf {p : Piece} {ps : List Piece} {us ts : List Token} : p.Spelled us → Spells t At ps ts →
      Spells t At (p :: ps) (us ++ ts)
  | node {id : NodeId} {c : Construct} {ps : List Piece} {us ts : List Token} :
      t.construct? id = some c → Spells t At c.pieces us → At id us → Spells t At ps ts →
      Spells t At (.node id :: ps) (us ++ ts)

namespace Spells

variable {t u : SyntaxTree} {At At' : NodeId → List Token → Prop} {ps qs : List Piece}
  {ts us : List Token}

theorem append (h : Spells t At ps ts) (h' : Spells t At qs us) :
    Spells t At (ps ++ qs) (ts ++ us) := by
  induction h with
  | nil => exact h'
  | leaf hp _ ih =>
    rw [List.append_assoc]
    exact .leaf hp ih
  | node hc hk ha _ _ ih =>
    rw [List.append_assoc]
    exact .node hc hk ha ih

theorem of_append : ∀ {ps : List Piece} {ts : List Token}, Spells t At (ps ++ qs) ts →
    ∃ us vs, ts = us ++ vs ∧ Spells t At ps us ∧ Spells t At qs vs
  | [], ts, h => ⟨[], ts, rfl, .nil, h⟩
  | p :: ps, _, h => by
    cases h with
    | leaf hp h =>
      obtain ⟨us, vs, rfl, hus, hvs⟩ := of_append h
      exact ⟨_, vs, (List.append_assoc ..).symm, .leaf hp hus, hvs⟩
    | node hc hk ha h =>
      obtain ⟨us, vs, rfl, hus, hvs⟩ := of_append h
      exact ⟨_, vs, (List.append_assoc ..).symm, .node hc hk ha hus, hvs⟩

/-- One after another: tokens can be cut where pieces can. -/
theorem append_iff : Spells t At (ps ++ qs) ts ↔
    ∃ us vs, ts = us ++ vs ∧ Spells t At ps us ∧ Spells t At qs vs := by
  constructor
  · exact of_append
  · rintro ⟨us, vs, rfl, hus, hvs⟩
    exact hus.append hvs

@[simp]
theorem nil_iff : Spells t At [] ts ↔ ts = [] := by
  constructor
  · intro h
    cases h
    rfl
  · rintro rfl
    exact .nil

theorem leaf_iff {p : Piece} (hp : p.isNode = false) : Spells t At (p :: ps) ts ↔
    ∃ us vs, ts = us ++ vs ∧ p.Spelled us ∧ Spells t At ps vs := by
  constructor
  · intro h
    cases h with
    | leaf hs h => exact ⟨_, _, rfl, hs, h⟩
    | node hc hk ha h => cases hp
  · rintro ⟨us, vs, rfl, hs, h⟩
    exact .leaf hs h

@[simp]
theorem sign_iff {k : TokenKind} : Spells t At (.sign k :: ps) ts ↔
    ∃ a us, ts = a :: us ∧ a.kind = k ∧ Spells t At ps us := by
  rw [leaf_iff rfl]
  constructor
  · rintro ⟨us, vs, rfl, ⟨a, rfl, ha⟩, h⟩
    exact ⟨a, vs, rfl, ha, h⟩
  · rintro ⟨a, us, rfl, ha, h⟩
    exact ⟨[a], us, rfl, ⟨a, rfl, ha⟩, h⟩

@[simp]
theorem name_iff {n : String} : Spells t At (.name n :: ps) ts ↔
    ∃ a us, ts = a :: us ∧ (a.kind = .identifier ∧ a.lexeme = n) ∧ Spells t At ps us := by
  rw [leaf_iff rfl]
  constructor
  · rintro ⟨us, vs, rfl, ⟨a, rfl, ha⟩, h⟩
    exact ⟨a, vs, rfl, ha, h⟩
  · rintro ⟨a, us, rfl, ha, h⟩
    exact ⟨[a], us, rfl, ⟨a, rfl, ha⟩, h⟩

@[simp]
theorem literal_iff {v : Literal} : Spells t At (.literal v :: ps) ts ↔
    ∃ a us, ts = a :: us ∧ a.literal? = some v ∧ Spells t At ps us := by
  rw [leaf_iff rfl]
  constructor
  · rintro ⟨us, vs, rfl, ⟨a, rfl, ha⟩, h⟩
    exact ⟨a, vs, rfl, ha, h⟩
  · rintro ⟨a, us, rfl, ha, h⟩
    exact ⟨[a], us, rfl, ⟨a, rfl, ha⟩, h⟩

@[simp]
theorem type_iff {type : WrittenType} : Spells t At (.type type :: ps) ts ↔
    ∃ us vs, ts = us ++ vs ∧ SpellsType (.one type) us ∧ Spells t At ps vs := leaf_iff rfl

@[simp]
theorem accessors_iff {b : Bool} : Spells t At (.accessors b :: ps) ts ↔
    ∃ us vs, ts = us ++ vs ∧ Accessors b us ∧ Spells t At ps vs := leaf_iff rfl

/-- A node, and what comes after it. -/
theorem node_cons_iff {id : NodeId} : Spells t At (.node id :: ps) ts ↔
    ∃ us vs, ts = us ++ vs ∧ Spells t At [.node id] us ∧ Spells t At ps vs := by
  rw [← List.singleton_append, append_iff]

/-- The tokens of a node are those of its construct. -/
theorem node_iff {id : NodeId} : Spells t At [.node id] ts ↔
    ∃ c, t.construct? id = some c ∧ Spells t At c.pieces ts ∧ At id ts := by
  constructor
  · intro h
    cases h with
    | leaf hp _ => cases hp
    | node hc hk ha h =>
      rw [nil_iff.mp h, List.append_nil]
      exact ⟨_, hc, hk, ha⟩
  · rintro ⟨c, hc, hk, ha⟩
    rw [← List.append_nil ts]
    exact .node hc hk ha .nil

theorem pieces {id : NodeId} {c : Construct} (h : Spells t At [.node id] ts)
    (hc : t.construct? id = some c) : Spells t At c.pieces ts := by
  obtain ⟨d, hd, hk, -⟩ := node_iff.mp h
  rw [hc] at hd
  cases hd
  exact hk

/-- The table may grow, and the relation between nodes and tokens may be another one, as long as
it holds of the nodes that are there. -/
theorem mono (h : Spells t At ps ts)
    (hc : ∀ id c, t.construct? id = some c → u.construct? id = some c)
    (ha : ∀ id us, id < t.size → At id us → At' id us) : Spells u At' ps ts := by
  induction h with
  | nil => exact .nil
  | leaf hp _ ih => exact .leaf hp ih
  | node hid _ hat _ ih₁ ih₂ =>
    exact .node (hc _ _ hid) ih₁ (ha _ _ (SyntaxTree.lt_size_of_construct? hid) hat) ih₂

theorem of_mem_nodes {id : NodeId} (h : Spells t At ps ts) (hid : id ∈ Piece.nodes ps) :
    ∃ us, us <:+: ts ∧ Spells t At [.node id] us := by
  induction h with
  | nil => cases hid
  | @leaf p ps us ts hp _ ih =>
    have hid' : id ∈ Piece.nodes ps := by
      cases p with
      | node _ => cases hp
      | _ => exact hid
    obtain ⟨vs, hvs, h⟩ := ih hid'
    exact ⟨vs, hvs.trans (List.suffix_append us ts).isInfix, h⟩
  | @node id' c ps us ts hc hk ha _ _ ih =>
    rcases List.mem_cons.mp hid with rfl | hid'
    · exact ⟨us, (List.prefix_append us ts).isInfix, node_iff.mpr ⟨c, hc, hk, ha⟩⟩
    · obtain ⟨vs, hvs, h⟩ := ih hid'
      exact ⟨vs, hvs.trans (List.suffix_append us ts).isInfix, h⟩

/-- **The tokens of a node are a stretch of the tokens of everything above it.** -/
theorem of_under {id : NodeId} (h : Spells t At ps ts) (hu : t.Under (Piece.nodes ps) id) :
    ∃ us, us <:+: ts ∧ Spells t At [.node id] us := by
  induction hu with
  | root hid => exact h.of_mem_nodes hid
  | child _ hid ih =>
    obtain ⟨us, hus, h⟩ := ih
    obtain ⟨c, hc, hk, -⟩ := node_iff.mp h
    rw [SyntaxTree.children_of_construct? hc, ← c.nodes_pieces] at hid
    obtain ⟨vs, hvs, h'⟩ := hk.of_mem_nodes hid
    exact ⟨vs, hvs.trans hus, h'⟩

/-- Pieces that are not all nodes and accessors take a token. -/
theorem ne_nil {p : Piece} (h : Spells t At ps ts) (hp : p ∈ ps) (hs : ¬ p.Spelled [])
    (hn : p.isNode = false) : ts ≠ [] := by
  induction h with
  | nil => cases hp
  | @leaf p' ps us ts hp' _ ih =>
    rcases List.mem_cons.mp hp with rfl | hp
    · rintro he
      obtain ⟨rfl, -⟩ := List.append_eq_nil_iff.mp he
      exact hs hp'
    · intro he
      exact ih hp (List.append_eq_nil_iff.mp he).2
  | node _ _ _ _ _ ih =>
    rcases List.mem_cons.mp hp with rfl | hp
    · cases hn
    · intro he
      exact ih hp (List.append_eq_nil_iff.mp he).2

end Spells

/-- Every construct but an empty program takes a token. -/
theorem Spells.node_ne_nil {t : SyntaxTree} {At : NodeId → List Token → Prop} {id : NodeId}
    {ts : List Token} (h : Spells t At [.node id] ts)
    (hu : ∀ items, t.construct? id ≠ some (.unit items)) : ts ≠ [] := by
  obtain ⟨c, hc, hk, -⟩ := node_iff.mp h
  have hsign : ∀ k, ¬ (Piece.sign k).Spelled [] := by
    rintro k ⟨a, ha, -⟩
    cases ha
  have hname : ∀ n, ¬ (Piece.name n).Spelled [] := by
    rintro n ⟨a, ha, -⟩
    cases ha
  cases c with
  | unit items => exact absurd hc (hu items)
  | literal v =>
    refine hk.ne_nil (p := .literal v) (by simp [Construct.pieces]) ?_ rfl
    rintro ⟨a, ha, -⟩
    cases ha
  | ident name => exact hk.ne_nil (p := .name name.name) (by simp [Construct.pieces]) (hname _) rfl
  | returnStmt value =>
    cases value <;>
      exact hk.ne_nil (p := .sign .semicolon) (by simp [Construct.pieces]) (hsign _) rfl
  | ifStmt condition thenBranch elseBranch =>
    cases elseBranch <;>
      exact hk.ne_nil (p := .sign .ifWord) (by simp [Construct.pieces]) (hsign _) rfl
  | classDecl _ _ | property _ _ _ | block _ =>
    exact hk.ne_nil (p := .sign .leftBrace) (by simp [Construct.pieces]) (hsign _) rfl
  | field _ _ _ | exprStmt _ | localDecl _ _ | yieldStmt _ | doStmt _ _ | breakStmt | continueStmt
  | emptyStmt =>
    exact hk.ne_nil (p := .sign .semicolon) (by simp [Construct.pieces]) (hsign _) rfl
  | function _ _ _ _ | whileStmt _ _ | call _ _ | newObject _ _ | cast _ _ | paren _ =>
    exact hk.ne_nil (p := .sign .leftParen) (by simp [Construct.pieces, Piece.arguments]) (hsign _)
      rfl
  | member _ _ => exact hk.ne_nil (p := .sign .dot) (by simp [Construct.pieces]) (hsign _) rfl
  | assign op _ _ => exact hk.ne_nil (p := .sign op.kind) (by simp [Construct.pieces]) (hsign _) rfl
  | binary op _ _ => exact hk.ne_nil (p := .sign op.kind) (by simp [Construct.pieces]) (hsign _) rfl
  | unary op _ => exact hk.ne_nil (p := .sign op.kind) (by simp [Construct.pieces]) (hsign _) rfl

end Recast
