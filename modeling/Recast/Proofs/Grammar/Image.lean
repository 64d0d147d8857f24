/-
# Images of constructs

A construct with other nodes in its slots is written in the same way, with these nodes in place of the
old ones, and has the same needs in its role.  So a copy of a tree can be read back where the tree can,
from the same tokens.

* `Construct.pieces_mapNodes`: other nodes in the slots are other nodes among the pieces;
* `Spells.map`, `Admits.map`: tokens and roles of a construct pass to its image;
* `Copies.spells`, `Copies.fits`, `Copies.pieces`: **a copy is written as the original, fits the same
  roles, and has the same sort of pieces.**
-/
import Recast.Proofs.Grammar.Fits
import Recast.Proofs.Grammar.Writable
import Recast.Proofs.Tree.Copy

namespace Recast

/-! ## 1. Pieces -/

/-- The piece with the image of its node, if it is one. -/
def Piece.mapNode (f : NodeId → NodeId) : Piece → Piece
  | node id => node (f id)
  | p => p

namespace Piece

variable {f : NodeId → NodeId}

theorem map_separated : ∀ pss : List (List Piece),
    (separated pss).map (mapNode f) = separated (pss.map (List.map (mapNode f)))
  | [] => rfl
  | [_] => rfl
  | ps :: qs :: rest => by
    have ih := map_separated (qs :: rest)
    simp only [separated, List.map_append, List.map_cons, ih]
    rfl

@[simp]
theorem map_map_node (ids : List NodeId) :
    (ids.map node).map (mapNode f) = (ids.map f).map node := by
  simp [Function.comp_def, mapNode]

theorem map_arguments (ids : List NodeId) :
    (arguments ids).map (mapNode f) = arguments (ids.map f) := by
  simp [arguments, map_separated, Function.comp_def, mapNode]

theorem map_declarator (var : Declarator) :
    var.pieces.map (mapNode f) = Declarator.pieces ⟨var.name, var.init.map f⟩ := by
  rcases var with ⟨name, _ | init⟩ <;> rfl

theorem map_params (params : List Param) :
    (separated (params.map Param.pieces)).map (mapNode f) = separated (params.map Param.pieces) := by
  rw [map_separated, List.map_map]
  rfl

theorem of_mapNode {P : Piece → Prop} (hP : ∀ i, P (.node i)) {p : Piece} (h : P p) :
    P (p.mapNode f) := by
  cases p with
  | node i => exact hP _
  | sign _ | name _ | literal _ | type _ | accessors _ => exact h

end Piece

/-- **Other nodes in the slots are other nodes among the pieces.** -/
theorem Construct.pieces_mapNodes (f : NodeId → NodeId) (c : Construct) :
    (c.mapNodes f).pieces = c.pieces.map (Piece.mapNode f) := by
  cases c with
  | unit items => exact (Piece.map_map_node items).symm
  | classDecl _ _ | block _ => simp [mapNodes, pieces, Piece.mapNode]
  | field type name init =>
    simp only [mapNodes, pieces, List.map_cons, List.map_append, Piece.map_declarator]
    rfl
  | function _ _ params _ =>
    simp only [mapNodes, pieces, List.map_cons, List.map_append, Piece.map_params]
    rfl
  | localDecl type vars =>
    simp only [mapNodes, pieces, List.map_cons, List.map_append, Piece.map_separated, List.map_map,
      Function.comp_def, Piece.map_declarator]
    rfl
  | call _ args =>
    simp only [mapNodes, pieces, List.map_cons, Piece.map_arguments]
    rfl
  | newObject _ args =>
    simp only [mapNodes, pieces, List.map_cons, Piece.map_arguments]
    rfl
  | returnStmt value => cases value <;> rfl
  | ifStmt _ _ elseBranch => cases elseBranch <;> rfl
  | _ => rfl

theorem Construct.isAssignable_mapNodes (f : NodeId → NodeId) (c : Construct) :
    (c.mapNodes f).isAssignable = c.isAssignable := by
  cases c <;> rfl

/-! ## 2. Tokens -/

namespace Spells

variable {t u : SyntaxTree} {At : NodeId → List Token → Prop} {ps : List Piece} {ts : List Token}
  {f : NodeId → NodeId}

/-- The tokens of some pieces are those of their images, if this holds of the nodes among them. -/
theorem map (h : Spells t At ps ts) (hf : ∀ id ∈ Piece.nodes ps, ∀ us, Spells t At [.node id] us →
    Spells u Anywhere [.node (f id)] us) : Spells u Anywhere (ps.map (Piece.mapNode f)) ts := by
  induction h with
  | nil => exact .nil
  | @leaf p ps us ts hp _ ih =>
    cases p with
    | node id => cases hp
    | _ => exact .leaf hp (ih hf)
  | @node id c ps us ts hc hk ha _ _ ih =>
    refine node_cons_iff.mpr ⟨us, ts, rfl, ?_, ih fun k hk => hf k (List.mem_cons_of_mem _ hk)⟩
    exact hf id (List.mem_cons_self ..) us (node_iff.mpr ⟨c, hc, hk, ha⟩)

/-- The tokens of some pieces are the same in a tree that agrees with this one below them. -/
theorem transfer (h : Spells t At ps ts)
    (hu : ∀ i, t.Under (Piece.nodes ps) i → u.construct? i = t.construct? i) :
    Spells u Anywhere ps ts := by
  induction h with
  | nil => exact .nil
  | @leaf p ps us ts hp _ ih =>
    refine .leaf hp (ih fun i hi => hu i ?_)
    cases p with
    | node id => cases hp
    | _ => exact hi
  | @node id c ps us ts hc _ _ _ ih₁ ih₂ =>
    have hid : t.Under (Piece.nodes (.node id :: ps)) id := .root (List.mem_cons_self ..)
    refine .node ((hu id hid).trans hc) (ih₁ fun i hi => hu i ?_) trivial (ih₂ fun i hi => hu i ?_)
    · refine hi.mono fun k hk => ?_
      rw [c.nodes_pieces] at hk
      exact hid.slot hc hk
    · exact hi.mono fun k hk => .root (List.mem_cons_of_mem _ hk)

end Spells

theorem Undeclared.transfer {t u : SyntaxTree} {decl : List Token → Bool} {e : NodeId}
    (h : Undeclared decl t e) (hu : ∀ i, t.Under [e] i → u.construct? i = t.construct? i) :
    Undeclared decl u e := by
  obtain ⟨ts, hs, hd⟩ := h
  exact ⟨ts, hs.transfer hu, hd⟩

/-! ## 3. Roles -/

/-- **The needs of a construct pass to its image**, if the images of its parts have the roles of the
parts. -/
theorem Admits.map {t u : SyntaxTree} {ρ ρ' : NodeId → Role} {f : NodeId → NodeId} {c : Construct}
    {role : Role} (h : Admits t ρ c role) (hρ : ∀ k ∈ c.children, ρ' (f k) = ρ k)
    (ha : ∀ k ∈ c.children, (t.construct? k).any Construct.isAssignable = true →
      (u.construct? (f k)).any Construct.isAssignable = true)
    (hd : ∀ decl e, c = .exprStmt e → Undeclared decl t e → Undeclared decl u (f e)) :
    Admits u ρ' (c.mapNodes f) role := by
  have hall : ∀ {ids : List NodeId}, (∀ k ∈ ids, k ∈ c.children) →
      (∀ k ∈ ids, ∃ l r, ρ k = .expr l r) → ∀ k ∈ ids.map f, ∃ l r, ρ' k = .expr l r := by
    intro ids hmem h k hk
    obtain ⟨j, hj, rfl⟩ := List.mem_map.mp hk
    rw [hρ j (hmem j hj)]
    exact h j hj
  have hstmts : ∀ {ids : List NodeId}, (∀ k ∈ ids, k ∈ c.children) →
      (∀ k ∈ ids, ∃ d, ρ k = .stmt d) → ∀ k ∈ ids.map f, ∃ d, ρ' k = .stmt d := by
    intro ids hmem h k hk
    obtain ⟨j, hj, rfl⟩ := List.mem_map.mp hk
    rw [hρ j (hmem j hj)]
    exact h j hj
  have hopt : ∀ {o : Option NodeId}, (∀ k ∈ o, k ∈ c.children) →
      (∀ k ∈ o, ∃ l r, ρ k = .expr l r) → ∀ k ∈ o.map f, ∃ l r, ρ' k = .expr l r := by
    intro o hmem h k hk
    obtain ⟨j, hj, rfl⟩ := Option.map_eq_some_iff.mp hk
    rw [hρ j (hmem j hj)]
    exact h j hj
  have hpart : ∀ {k : NodeId} {role : Role}, k ∈ c.children → ρ k = role → ρ' (f k) = role :=
    fun hk h => (hρ _ hk).trans h
  induction h with
  | literal => exact .literal
  | ident => exact .ident
  | paren he => exact .paren (hpart (by simp [Construct.children]) he)
  | cast he => exact .cast (hpart (by simp [Construct.children]) he)
  | newObject hargs => exact .newObject (hall (fun _ hk => hk) hargs)
  | member ho hr => exact .member (hpart (by simp [Construct.children]) ho) hr
  | call hf hr hargs =>
    exact .call (hpart (by simp [Construct.children]) hf) hr
      (hall (fun _ hk => List.mem_cons_of_mem _ hk) hargs)
  | unary he hl => exact .unary (hpart (by simp [Construct.children]) he) hl
  | binary hx hr hy hl =>
    exact .binary (hpart (by simp [Construct.children]) hx) hr
      (hpart (by simp [Construct.children]) hy) hl
  | assign hx hr hassign hy hl =>
    exact .assign (hpart (by simp [Construct.children]) hx) hr
      (ha _ (by simp [Construct.children]) hassign)
      (hpart (by simp [Construct.children]) hy) hl
  | exprStmt he hund =>
    exact .exprStmt (hpart (by simp [Construct.children]) he) (hd _ _ rfl hund)
  | @localDecl w vars hne hvars =>
    refine .localDecl (by simpa using hne) ?_
    rw [Construct.filterMap_init_map]
    exact hall (fun _ hk => hk) hvars
  | returnStmt hv => exact .returnStmt (hopt (fun _ hk => Option.mem_toList.mpr hk) hv)
  | yieldStmt he => exact .yieldStmt (hpart (by simp [Construct.children]) he)
  | breakStmt => exact .breakStmt
  | continueStmt => exact .continueStmt
  | emptyStmt => exact .emptyStmt
  | block hs => exact .block (hstmts (fun _ hk => hk) hs)
  | ifThen he hx =>
    exact .ifThen (hpart (by simp [Construct.children]) he)
      (hpart (by simp [Construct.children]) hx)
  | ifElse he hx hy =>
    exact .ifElse (hpart (by simp [Construct.children]) he)
      (hpart (by simp [Construct.children]) hx)
      (hpart (by simp [Construct.children]) hy)
  | whileStmt he hx =>
    exact .whileStmt (hpart (by simp [Construct.children]) he)
      (hpart (by simp [Construct.children]) hx)
  | doStmt hx he =>
    exact .doStmt (hpart (by simp [Construct.children]) hx)
      (hpart (by simp [Construct.children]) he)
  | body hs => exact .body (hstmts (fun _ hk => hk) hs)
  | field hi => exact .field (hopt (fun _ hk => Option.mem_toList.mpr hk) hi)
  | property => exact .property
  | method hs => exact .method (hpart (by simp [Construct.children]) hs)
  | function hs => exact .function (hpart (by simp [Construct.children]) hs)
  | @classDecl n members hm =>
    refine .classDecl fun k hk => ?_
    obtain ⟨j, hj, rfl⟩ := List.mem_map.mp hk
    exact hpart hj (hm j hj)
  | @item c d _ hund ih =>
    refine .item (ih hρ ha hd hall hstmts hopt hpart) fun e he => ?_
    cases c with
    | exprStmt e' =>
      cases he
      exact hd _ _ rfl (hund e' rfl)
    | _ => cases he

/-! ## 4. Copies -/

namespace Copies

variable {t u : SyntaxTree} {as bs : List NodeId} {a b : NodeId}

/-- **A copy is written as the original.** -/
theorem spells {At : NodeId → List Token → Prop} (ht : t.WellFormed) (h : Copies t u [a] [b]) :
    ∀ {ts : List Token}, Spells t At [.node a] ts → Spells u Anywhere [.node b] ts := by
  refine h.induct (P := fun a b => ∀ {ts}, Spells t At [.node a] ts → Spells u Anywhere [.node b] ts)
    ht fun {a b c f} hc hd hk ts hs => ?_
  have hsp := hs.pieces hc
  refine Spells.node_iff.mpr ⟨_, hd, ?_, trivial⟩
  rw [Construct.pieces_mapNodes]
  refine hsp.map fun k hmem us hus => ?_
  rw [c.nodes_pieces] at hmem
  exact (hk k hmem).2 hus

theorem isAssignable (ht : t.WellFormed) (h : Copies t u [a] [b]) :
    (t.construct? a).any Construct.isAssignable = true →
      (u.construct? b).any Construct.isAssignable = true := by
  refine h.induct (P := fun a b => (t.construct? a).any Construct.isAssignable = true →
    (u.construct? b).any Construct.isAssignable = true) ht fun {a b c f} hc hd _ ha => ?_
  rw [hc] at ha
  rw [hd]
  exact (c.isAssignable_mapNodes f).trans ha

/-- **A copy fits the roles of the original.** -/
theorem fits (ht : t.WellFormed) (hu : u.WellFormed) (h : Copies t u [a] [b]) :
    ∀ {role : Role}, Fits t role a → Fits u role b := by
  refine h.induct (P := fun a b => ∀ {role}, Fits t role a → Fits u role b) ht
    fun {a b c f} hc hd hk role hf => ?_
  cases hf with
  | @node _ _ c' ρ hc' hadmits hfits =>
    rw [hc] at hc'
    cases hc'
    -- the original of each part, so that a copy takes its role
    have hnodup := hu.nodup b
    rw [SyntaxTree.children_of_construct? hd, Construct.children_mapNodes] at hnodup
    obtain ⟨g, hg⟩ : ∃ g : NodeId → NodeId, (c.children.map f).map g = c.children :=
      exists_map_eq hnodup (by simp)
    have hback : ∀ k ∈ c.children, g (f k) = k := by
      rw [List.map_map] at hg
      exact List.map_inj_left.mp (hg.trans (List.map_id' _).symm)
    refine .node (ρ ∘ g) hd (hadmits.map ?_ ?_ ?_) fun k hmem => ?_
    · intro k hmem
      rw [Function.comp_apply, hback k hmem]
    · exact fun k hmem => (hk k hmem).1.isAssignable ht
    · rintro decl e rfl ⟨ts, hs, hdecl⟩
      exact ⟨ts, (hk e (by simp [Construct.children])).1.spells ht hs, hdecl⟩
    · rw [Construct.children_mapNodes] at hmem
      obtain ⟨j, hj, rfl⟩ := List.mem_map.mp hmem
      rw [Function.comp_apply, hback j hj]
      exact (hk j hj).2 (hfits j hj)

/-- What holds of all pieces of the original, whatever nodes stand among them, holds of those of a
copy. -/
theorem pieces {P : Piece → Prop} (hP : ∀ i, P (.node i)) (ht : t.WellFormed)
    (h : Copies t u [a] [b]) : PiecesUnder t P [a] → PiecesUnder u P [b] := by
  refine h.induct (P := fun a b => PiecesUnder t P [a] → PiecesUnder u P [b]) ht
    fun {a b c f} hc hd hk hw i d hi hid => ?_
  have ha : t.Under [a] a := .root (List.mem_singleton_self _)
  rcases SyntaxTree.Under.cases_root hi with rfl | hi
  · rw [hd] at hid
    cases hid
    intro p hp
    rw [Construct.pieces_mapNodes] at hp
    obtain ⟨q, hq, rfl⟩ := List.mem_map.mp hp
    exact Piece.of_mapNode hP (hw a c ha hc q hq)
  · rw [SyntaxTree.children_of_construct? hd, Construct.children_mapNodes] at hi
    obtain ⟨r, hr, hi⟩ := hi.exists_root
    obtain ⟨k, hmem, rfl⟩ := List.mem_map.mp hr
    refine (hk k hmem).2 (fun j e hj => hw j e (hj.mono fun l hl => ?_)) i d hi hid
    rw [List.mem_singleton.mp hl]
    exact ha.slot hc hmem

end Copies

end Recast
