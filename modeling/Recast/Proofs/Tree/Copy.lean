/-
# Copies and detached trees

A factory adds nodes to a tree: copies of what is there, and nodes over them.  What is added hangs
nowhere until an edit puts it in place, and the tree that was there before stays as it is.

* `Construct.mapNodes`: a construct with other nodes in its slots, by a function;
* `Copies t u as bs`: the nodes `bs` of `u` are copies of the nodes `as` of `t`; `Copies.induct`: what
  passes from the parts of a copy to the copy holds of all copies;
* `Sprouts t w roots`: the tree `w` is `t` with detached trees, and `roots` are some of their roots;
* `Sprouts.alloc`: a new node takes some of the roots and is a root itself;
* `Copied t w u roots ids bs`: from `w` to `u`, trees of `t` have been copied, in post-order;
* `Sprouts.copy`: **copying adds one detached tree, and this is a copy.**
-/
import Recast.Proofs.Tree.PostOrder
import Recast.Proofs.Tree.Shape
import Recast.Tree.Build

namespace Recast

/-! ## 1. Constructs with other nodes -/

namespace Construct

/-- The construct with the image of each node in its slot. -/
def mapNodes (f : NodeId → NodeId) : Construct → Construct
  | unit items => unit (items.map f)
  | classDecl name members => classDecl name (members.map f)
  | field type name init => field type name (init.map f)
  | property type name hasSetter => property type name hasSetter
  | function returnType name params body => function returnType name params (f body)
  | block stmts => block (stmts.map f)
  | exprStmt expr => exprStmt (f expr)
  | localDecl type vars => localDecl type (vars.map fun v => ⟨v.name, v.init.map f⟩)
  | returnStmt value => returnStmt (value.map f)
  | yieldStmt value => yieldStmt (f value)
  | ifStmt condition thenBranch elseBranch =>
    ifStmt (f condition) (f thenBranch) (elseBranch.map f)
  | whileStmt condition body => whileStmt (f condition) (f body)
  | doStmt body condition => doStmt (f body) (f condition)
  | breakStmt => breakStmt
  | continueStmt => continueStmt
  | emptyStmt => emptyStmt
  | literal value => literal value
  | ident name => ident name
  | member object name => member (f object) name
  | call callee args => call (f callee) (args.map f)
  | newObject type args => newObject type (args.map f)
  | cast type expr => cast type (f expr)
  | assign op target value => assign op (f target) (f value)
  | binary op lhs rhs => binary op (f lhs) (f rhs)
  | unary op operand => unary op (f operand)
  | paren inner => paren (f inner)

variable {f : NodeId → NodeId}

theorem filterMap_init_map (f : NodeId → NodeId) : ∀ vars : List Declarator,
    (vars.map fun v => (⟨v.name, v.init.map f⟩ : Declarator)).filterMap Declarator.init =
      (vars.filterMap Declarator.init).map f
  | [] => rfl
  | ⟨_, none⟩ :: vars => by simpa using filterMap_init_map f vars
  | ⟨_, some _⟩ :: vars => by simpa using filterMap_init_map f vars

@[simp]
theorem children_mapNodes (c : Construct) : (c.mapNodes f).children = c.children.map f := by
  cases c with
  | localDecl type vars => exact filterMap_init_map f vars
  | field _ _ init | returnStmt init => cases init <;> rfl
  | ifStmt _ _ elseBranch => cases elseBranch <;> rfl
  | _ => rfl

theorem refillInits_map (f : NodeId → NodeId) : ∀ vars : List Declarator,
    refillInits vars ((vars.filterMap Declarator.init).map f) =
      vars.map fun v => ⟨v.name, v.init.map f⟩
  | [] => rfl
  | ⟨_, none⟩ :: vars => by
    simp [refillInits, refillInits_map f vars]
  | ⟨_, some _⟩ :: vars => by
    simp [refillInits, refillInits_map f vars]

/-- Putting images into the slots is mapping. -/
theorem withChildren_map (c : Construct) : c.withChildren (c.children.map f) = c.mapNodes f := by
  have hlist : ∀ ids : List NodeId, refill ids (ids.map f) = ids.map f :=
    fun ids => refill_of_length_eq (List.length_map _)
  cases c with
  | unit _ | classDecl _ _ | block _ | newObject _ _ | call _ _ =>
    simp [withChildren, children, mapNodes, hlist]
  | localDecl type vars => simp [withChildren, children, mapNodes, refillInits_map]
  | field _ _ init | returnStmt init => cases init <;> rfl
  | ifStmt _ _ elseBranch => cases elseBranch <;> rfl
  | _ => rfl

/-- A construct whose nodes are their own images stays. -/
theorem mapNodes_eq_self {c : Construct} (h : ∀ k ∈ c.children, f k = k) : c.mapNodes f = c := by
  have hmap : c.children.map f = c.children :=
    (List.map_congr_left h).trans (List.map_id' c.children)
  rw [← withChildren_map, hmap, withChildren_children]

@[simp]
theorem isExpression_mapNodes (c : Construct) : (c.mapNodes f).isExpression = c.isExpression := by
  cases c <;> rfl

/-- Other nodes in the same slots do not show in the outline. -/
theorem outline_withChildren {c : Construct} {ks : List NodeId}
    (h : ks.length = c.children.length) : (c.withChildren ks).outline = c.outline := by
  have hzero : ∀ {as bs : List NodeId}, bs.length = as.length →
      (refill as bs).map (fun _ => (0 : NodeId)) = as.map fun _ => 0 := by
    intro as bs hl
    rw [refill_of_length_eq hl, List.map_const', List.map_const', hl]
  have hvars : ∀ (vars : List Declarator) (ks : List NodeId),
      (refillInits vars ks).map (fun v => (⟨v.name.unplaced, v.init.map fun _ => 0⟩ : Declarator)) =
        vars.map fun v => ⟨v.name.unplaced, v.init.map fun _ => 0⟩ := by
    intro vars
    induction vars with
    | nil => exact fun _ => rfl
    | cons v vars ih =>
      intro ks
      rcases v with ⟨name, _ | init⟩ <;> rcases ks with _ | ⟨k, ks⟩ <;> simp [refillInits, ih]
  cases c with
  | unit _ | classDecl _ _ | block _ | newObject _ _ =>
    simp only [children] at h
    simp only [withChildren, outline]
    rw [hzero h]
  | call _ args =>
    cases ks with
    | nil => exact absurd h (by simp [children])
    | cons k ks => simp [withChildren, outline, hzero (Nat.succ.inj h)]
  | localDecl type vars => simp only [withChildren, outline, hvars]
  | field _ _ init | returnStmt init => cases init <;> rfl
  | ifStmt _ _ elseBranch => cases elseBranch <;> rfl
  | _ => rfl

end Construct

/-! ## 2. Copies -/

/-- Nodes can be sent to others one by one. -/
theorem exists_map_eq : ∀ {as bs : List NodeId}, as.Nodup → bs.length = as.length →
    ∃ f : NodeId → NodeId, as.map f = bs
  | [], [], _, _ => ⟨id, rfl⟩
  | a :: as, b :: bs, hn, hl => by
    obtain ⟨hna, hn⟩ := List.nodup_cons.mp hn
    obtain ⟨f, hf⟩ := exists_map_eq hn (Nat.succ.inj hl)
    refine ⟨fun k => if k = a then b else f k, ?_⟩
    have htail : as.map (fun k => if k = a then b else f k) = as.map f :=
      List.map_congr_left fun k hk => if_neg fun he : k = a => hna (he ▸ hk)
    rw [List.map_cons, if_pos rfl, htail, hf]

/-- The nodes of the second list are copies of those of the first: the same constructs over copies of
their children. -/
inductive Copies (t u : SyntaxTree) : List NodeId → List NodeId → Prop
  | nil : Copies t u [] []
  | cons {a b : NodeId} {as bs ks : List NodeId} {c : Construct} : t.construct? a = some c →
      Copies t u c.children ks → u.construct? b = some (c.withChildren ks) → Copies t u as bs →
      Copies t u (a :: as) (b :: bs)

namespace Copies

variable {t u v : SyntaxTree} {as bs : List NodeId} {a b : NodeId}

theorem length_eq (h : Copies t u as bs) : bs.length = as.length := by
  induction h with
  | nil => rfl
  | cons _ _ _ _ _ ih => rw [List.length_cons, List.length_cons, ih]

theorem mono (h : Copies t u as bs) (hu : u.Extends v) : Copies t v as bs := by
  induction h with
  | nil => exact .nil
  | cons hc _ hd _ ih₁ ih₂ => exact .cons hc ih₁ (hu.construct?_eq_some hd) ih₂

/-- A copy is a copy in any tree that agrees with this one below it. -/
theorem transfer (h : Copies t u as bs)
    (hu : ∀ i, u.Under bs i → v.construct? i = u.construct? i) : Copies t v as bs := by
  induction h with
  | nil => exact .nil
  | @cons a b as bs ks c hc hk hd hrest ih₁ ih₂ =>
    have hkids : u.children b = ks := by
      rw [SyntaxTree.children_of_construct? hd, Construct.children_withChildren hk.length_eq]
    have hb : u.Under (b :: bs) b := .root (List.mem_cons_self ..)
    refine .cons hc (ih₁ fun i hi => hu i ?_) ((hu b hb).trans hd) (ih₂ fun i hi => hu i ?_)
    · exact hi.mono fun k hk => .child hb (by rwa [hkids])
    · exact hi.mono fun k hk => .root (List.mem_cons_of_mem _ hk)

/-- A copy of one node. -/
theorem node_iff : Copies t u [a] [b] ↔ ∃ c ks, t.construct? a = some c ∧
    Copies t u c.children ks ∧ u.construct? b = some (c.withChildren ks) := by
  constructor
  · intro h
    cases h with
    | cons hc hk hd _ => exact ⟨_, _, hc, hk, hd⟩
  · rintro ⟨c, ks, hc, hk, hd⟩
    exact .cons hc hk hd .nil

/-- The first of several copies is one of the first node. -/
theorem exists_cons {ks : List NodeId} (h : Copies t u (a :: as) ks) :
    ∃ b bs, ks = b :: bs ∧ Copies t u [a] [b] ∧ Copies t u as bs := by
  cases h with
  | cons hc hk hd hrest => exact ⟨_, _, rfl, .cons hc hk hd .nil, hrest⟩

theorem exists_singleton {ks : List NodeId} (h : Copies t u [a] ks) :
    ∃ b, ks = [b] ∧ Copies t u [a] [b] := by
  obtain ⟨b, bs, rfl, hb, hnil⟩ := h.exists_cons
  cases hnil
  exact ⟨b, rfl, hb⟩

theorem of_mem (h : Copies t u as bs) {f : NodeId → NodeId} : as.map f = bs → ∀ {k : NodeId},
    k ∈ as → Copies t u [k] [f k] := by
  induction h with
  | nil => simp
  | @cons a b as bs ks c hc hk hd _ _ ih =>
    intro hf k hmem
    obtain ⟨hb, hbs⟩ := List.cons.inj hf
    rcases List.mem_cons.mp hmem with rfl | hmem
    · rw [hb]
      exact node_iff.mpr ⟨c, ks, hc, hk, hd⟩
    · exact ih hbs hmem

/-- **What passes from the parts of a copy to the copy holds of all copies.** -/
theorem induct {P : NodeId → NodeId → Prop} (ht : t.WellFormed)
    (hstep : ∀ {a b c f}, t.construct? a = some c → u.construct? b = some (c.mapNodes f) →
      (∀ k ∈ c.children, Copies t u [k] [f k] ∧ P k (f k)) → P a b)
    (h : Copies t u [a] [b]) : P a b := by
  have hall : ∀ {as bs : List NodeId}, Copies t u as bs → ∀ f : NodeId → NodeId, as.map f = bs →
      ∀ k ∈ as, P k (f k) := by
    intro as bs h
    induction h with
    | nil => simp
    | @cons a b as bs ks c hc hk hd _ ih₁ ih₂ =>
      intro f hf k hmem
      obtain ⟨hb, hbs⟩ := List.cons.inj hf
      rcases List.mem_cons.mp hmem with rfl | hmem
      · have hnodup := ht.nodup k
        rw [SyntaxTree.children_of_construct? hc] at hnodup
        obtain ⟨g, hg⟩ := exists_map_eq hnodup hk.length_eq
        rw [← hg, Construct.withChildren_map] at hd
        rw [hb]
        exact hstep hc hd fun j hj => ⟨hk.of_mem hg hj, ih₁ g hg j hj⟩
      · exact ih₂ f hbs k hmem
  exact hall h (fun _ => b) rfl a (List.mem_singleton_self _)

/-- A copy has the shape of the original. -/
theorem sameShape (h : Copies t u as bs) : SameShape t u as bs := by
  induction h with
  | nil => exact .nil
  | cons hc hk hd _ ih₁ ih₂ =>
    have hlen := hk.length_eq
    refine .cons hc hd (Construct.outline_withChildren hlen).symm ?_ ih₂
    rw [Construct.children_withChildren hlen]
    exact ih₁

end Copies

/-! ## 3. Detached trees -/

namespace SyntaxTree

variable {t w u : SyntaxTree} {roots : List NodeId} {c : Construct}

/-- The tree `w` is the tree `t` with detached trees besides, and `roots` are different roots of such
trees.  The children of a new node are new and come before it. -/
structure Sprouts (t w : SyntaxTree) (roots : List NodeId) : Prop where
  before : t.WellFormed
  grows : t.Extends w
  wellFormed : w.WellFormed
  root_eq : w.root = t.root
  root_lt : t.root < t.size
  parent_eq : ∀ i < t.size, w.parent? i = t.parent? i
  fresh : ∀ i : Nat, t.size ≤ i → ∀ k : Nat, k ∈ w.children i → t.size ≤ k ∧ k < i
  range : ∀ r : Nat, r ∈ roots → t.size ≤ r ∧ r < w.size
  free : ∀ r ∈ roots, w.parent? r = none
  nodup : roots.Nodup

namespace Sprouts

theorem refl (ht : t.WellFormed) (hr : t.root < t.size) : Sprouts t t [] where
  before := ht
  grows := .refl t
  wellFormed := ht
  root_eq := rfl
  root_lt := hr
  parent_eq _ _ := rfl
  fresh i hi k hk := absurd (lt_size_of_mem_children hk) (Nat.not_lt.mpr hi)
  range := by simp
  free := by simp
  nodup := .nil

/-- **A new node takes some of the roots and is a root itself.** -/
theorem alloc (h : Sprouts t w roots) (rest : List NodeId) (hk : ∀ k ∈ c.children, k ∈ roots)
    (hn : c.children.Nodup) (hrest : ∀ r ∈ rest, r ∈ roots ∧ r ∉ c.children) (hnodup : rest.Nodup)
    (span : Span) :
    Sprouts t (w.alloc c span).2 (rest ++ [w.size]) := by
  have hsize := h.grows.size_le
  have hlt : ∀ k ∈ c.children, k < w.size := fun k hmem => (h.range k (hk k hmem)).2
  refine ⟨h.before, h.grows.trans (.alloc w c span), h.wellFormed.alloc hlt (fun k hmem => ?_) hn span, ?_,
    h.root_lt, fun i hi => ?_, fun i hi k hmem => ?_, fun r hr => ?_, fun r hr => ?_, ?_⟩
  · refine ⟨h.free k (hk k hmem), fun he => ?_⟩
    rw [h.root_eq] at he
    exact Nat.not_le.mpr h.root_lt (he ▸ (h.range k (hk k hmem)).1)
  · rw [root_alloc, h.root_eq]
  · rw [parent?_alloc_of_not_mem, h.parent_eq i hi]
    exact fun hmem => absurd hi (Nat.not_lt.mpr (h.range i (hk i hmem)).1)
  · rw [children_alloc] at hmem
    split at hmem
    · rename_i he
      rw [he]
      exact h.range k (hk k hmem)
    · exact h.fresh i hi k hmem
  · rw [size_alloc]
    rcases List.mem_append.mp hr with hr | hr
    · have hr := h.range r (hrest r hr).1
      exact ⟨hr.1, Nat.lt_succ_of_lt hr.2⟩
    · rw [List.mem_singleton.mp hr]
      exact ⟨hsize, Nat.lt_succ_self _⟩
  · rcases List.mem_append.mp hr with hr | hr
    · rw [parent?_alloc_of_not_mem (hrest r hr).2, h.free r (hrest r hr).1]
    · rw [List.mem_singleton.mp hr, parent?_alloc_of_not_mem fun hmem =>
        Nat.lt_irrefl _ (hlt _ hmem)]
      exact parent?_of_size_le (Nat.le_refl _)
  · refine List.nodup_append.mpr ⟨hnodup, by simp, fun r hr s hs he => ?_⟩
    rw [he, List.mem_singleton.mp hs] at hr
    exact Nat.lt_irrefl _ (h.range _ (hrest _ hr).1).2

theorem children_eq (h : Sprouts t w roots) {i : NodeId} (hi : i < t.size) :
    w.children i = t.children i := by
  rw [children, children, h.grows.construct_eq i hi]

/-- What can be reached from old nodes is what could be reached before. -/
theorem under_iff (h : Sprouts t w roots) {ids : List NodeId} {i : NodeId}
    (hids : ∀ k ∈ ids, k < t.size) : Under w ids i ↔ Under t ids i := by
  constructor
  · intro hu
    refine hu.transfer fun q hq k hk => ?_
    rwa [h.children_eq (h.before.lt_size_of_under hids hq)] at hk
  · intro hu
    refine hu.transfer fun q _ k hk => ?_
    rwa [h.children_eq (lt_size_of_mem_children hk)]

/-- What is below new nodes is new. -/
theorem le_of_under (h : Sprouts t w roots) {ids : List NodeId} {i : NodeId}
    (hids : ∀ k ∈ ids, t.size ≤ k) (hu : Under w ids i) : t.size ≤ i := by
  induction hu with
  | root hi => exact hids _ hi
  | child _ hi ih => exact (h.fresh _ ih _ hi).1

end Sprouts

/-! ## 4. Copying -/

/-- One activity after another. -/
theorem Build.bind_of_eq {α β : Type} {x : Build α} {f : α → Build β} {a : α}
    (h : x w = (a, u)) : (x >>= f) w = f a u := by
  change f (x w).1 (x w).2 = f a u
  rw [h]

theorem copyTo_succ (limit : Nat) (id : NodeId) (t : SyntaxTree) :
    Build.copyTo (limit + 1) id t = (match t.construct? id with
      | none => (pure id : Build NodeId)
      | some c => do
        let copies ← c.children.mapM (Build.copyTo limit)
        Build.node (c.withChildren copies)) t := rfl

/-- Copying is adding nodes without a place: what every such node keeps, a copy keeps. -/
theorem copyTo_keeps {P : SyntaxTree → Prop} (hP : ∀ t c, P t → P (t.alloc c default).2) :
    ∀ (limit : Nat) (id : NodeId) (t : SyntaxTree), P t → P (Build.copyTo limit id t).2
  | 0, _, _, h => h
  | limit + 1, id, t, h => by
    have hall : ∀ (ids : List NodeId) (t : SyntaxTree), P t →
        P ((ids.mapM (Build.copyTo limit) : Build (List NodeId)) t).2 := by
      intro ids
      induction ids with
      | nil => exact fun _ h => h
      | cons id ids ih =>
        intro t h
        rw [List.mapM_cons]
        exact ih _ (copyTo_keeps hP limit id t h)
    cases hc : t.construct? id with
    | none =>
      rw [copyTo_succ, hc]
      exact h
    | some c =>
      rw [copyTo_succ, hc]
      exact hP _ _ (hall c.children t h)

/-- From `w` to `u` the trees at the nodes `ids` of `t` have been copied: `bs` are the copies, and the
new nodes are those of the copies in post-order. -/
structure Copied (t w u : SyntaxTree) (roots ids bs : List NodeId) : Prop where
  sprouts : Sprouts t u (roots ++ bs)
  grows : w.Extends u
  copies : Copies t u ids bs
  order : ∃ ks, PostOrder t ids ks ∧ PostOrder u bs (List.range' w.size ks.length) ∧
    u.size = w.size + ks.length

namespace Copied

variable {v : SyntaxTree} {id k b : NodeId} {ids bs : List NodeId}

theorem nil (h : Sprouts t w roots) : Copied t w w roots [] [] where
  sprouts := by rwa [List.append_nil]
  grows := .refl w
  copies := .nil
  order := ⟨[], .nil, .nil, rfl⟩

/-- One tree is copied, then the others. -/
theorem cons (h : Copied t w v roots [k] [b]) (h' : Copied t v u (roots ++ [b]) ids bs) :
    Copied t w u roots (k :: ids) (b :: bs) where
  sprouts := by simpa using h'.sprouts
  grows := h.grows.trans h'.grows
  copies := by
    obtain ⟨c, ks, hc, hks, hd⟩ := Copies.node_iff.mp h.copies
    exact .cons hc (hks.mono h'.grows) (h'.grows.construct?_eq_some hd) h'.copies
  order := by
    obtain ⟨ks, hks, hnew, hsize⟩ := h.order
    obtain ⟨ls, hls, hnew', hsize'⟩ := h'.order
    refine ⟨ks ++ ls, hks.append hls, ?_, by rw [hsize', hsize, List.length_append, Nat.add_assoc]⟩
    have hold : PostOrder u [b] (List.range' w.size ks.length) :=
      hnew.mono h'.grows fun i hi => by
        rw [hsize]
        exact (List.mem_range'_1.mp hi).2
    rw [List.length_append, ← List.range'_append_1, ← hsize]
    exact hold.append hnew'

/-- **A copy of a node is a new node over the copies of its children.** -/
theorem node {c : Construct} {ks : List NodeId} (hc : t.construct? id = some c)
    (h : Copied t w v roots c.children ks) :
    Copied t w (v.alloc (c.withChildren ks) default).2 roots [id] [v.size] := by
  have hchildren := Construct.children_withChildren h.copies.length_eq
  obtain ⟨hroots, hnodup, hapart⟩ := List.nodup_append.mp h.sprouts.nodup
  have hgrows := Extends.alloc v (c.withChildren ks) default
  have hnew : (v.alloc (c.withChildren ks) default).2.construct? v.size =
      some (c.withChildren ks) := by
    rw [construct?_alloc, if_pos rfl]
  refine ⟨?_, h.grows.trans hgrows, Copies.node_iff.mpr ⟨c, ks, hc, h.copies.mono hgrows, hnew⟩, ?_⟩
  · exact h.sprouts.alloc (c := c.withChildren ks) roots
      (fun k hk => List.mem_append_right _ (by rwa [hchildren] at hk)) (by rwa [hchildren])
      (fun r hr => ⟨List.mem_append_left _ hr, fun hmem => by
        rw [hchildren] at hmem
        exact hapart r hr r hmem rfl⟩) hroots default
  · obtain ⟨is, his, hbelow, hsize⟩ := h.order
    refine ⟨is ++ [id], .node (by rwa [children_of_construct? hc]), ?_, ?_⟩
    · have hlt : ∀ k ∈ List.range' w.size is.length, k < v.size := fun k hk => by
        rw [hsize]
        exact (List.mem_range'_1.mp hk).2
      rw [List.length_append, List.length_singleton, List.range'_concat, Nat.one_mul, ← hsize]
      refine .node ?_
      rw [children_of_construct? hnew, hchildren]
      exact hbelow.mono hgrows hlt
    · rw [size_alloc, hsize, List.length_append, List.length_singleton, Nat.add_assoc]

end Copied

/-- **Within a limit that is not below the height of a tree, all of the tree is copied.** -/
theorem Sprouts.copyTo : ∀ {limit : Nat} {id : NodeId} {w : SyntaxTree} {roots : List NodeId},
    HeightLe t limit id → id < t.size → Sprouts t w roots →
    ∃ b u, Build.copyTo limit id w = (b, u) ∧ Copied t w u roots [id] [b]
  | 0, _, _, _, hheight, _, _ => by cases hheight
  | limit + 1, id, w, roots, hheight, hid, h => by
    have hall : ∀ (ids : List NodeId) {w : SyntaxTree} {roots : List NodeId},
        (∀ k ∈ ids, HeightLe t limit k ∧ k < t.size) → Sprouts t w roots →
        ∃ bs u, (ids.mapM (Build.copyTo limit) : Build (List NodeId)) w = (bs, u) ∧
          Copied t w u roots ids bs := by
      intro ids
      induction ids with
      | nil => exact fun _ h => ⟨[], _, rfl, .nil h⟩
      | cons k ids ih =>
        intro w roots hk h
        obtain ⟨hkheight, hklt⟩ := hk k (List.mem_cons_self ..)
        obtain ⟨b, v, hb, hfirst⟩ := Sprouts.copyTo hkheight hklt h
        obtain ⟨bs, u, hbs, hrest⟩ := ih (fun j hj => hk j (List.mem_cons_of_mem _ hj)) hfirst.sprouts
        refine ⟨b :: bs, u, ?_, hfirst.cons hrest⟩
        rw [List.mapM_cons, Build.bind_of_eq hb, Build.bind_of_eq hbs]
        rfl
    obtain ⟨c, hc⟩ := exists_construct? hid
    obtain ⟨m, hm, hbelow⟩ := hheight.exists_succ
    cases hm
    rw [children_of_construct? hc] at hbelow
    obtain ⟨ks, v, hks, hcopied⟩ := hall c.children (fun k hk => ⟨hbelow k hk, lt_size_of_up
      ((h.before.links k id).mpr (by rwa [children_of_construct? hc]))⟩) h
    refine ⟨v.size, _, ?_, hcopied.node hc⟩
    rw [copyTo_succ, h.grows.construct?_eq_some hc]
    exact Build.bind_of_eq hks

/-- Copying copies all of a tree. -/
theorem Sprouts.copied {id : NodeId} (hid : id < t.size) (h : Sprouts t w roots) :
    ∃ b u, Build.copy id w = (b, u) ∧ Copied t w u roots [id] [b] :=
  h.copyTo (h.before.heightLe_weight (Nat.le_trans (t.weight_le_size id) h.grows.size_le) hid) hid

/-- **Copying adds one detached tree, and this is a copy.** -/
theorem Sprouts.copy {id : NodeId} (hid : id < t.size) (h : Sprouts t w roots) :
    ∃ b u, Build.copy id w = (b, u) ∧ Sprouts t u (roots ++ [b]) ∧ w.Extends u ∧
      Copies t u [id] [b] := by
  obtain ⟨b, u, hb, hcopied⟩ := h.copied hid
  exact ⟨b, u, hb, hcopied.sprouts, hcopied.grows, hcopied.copies⟩

end SyntaxTree

end Recast
