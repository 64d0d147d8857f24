/-
# A statement in its context

A statement of a program gives its place to another one.  What is around it can still be read: the
tokens before and after the old statement are those before and after the new one, and every construct
above it still fits its role.

* `Rewrites.construct?_below`: what is apart from the old statement stays as it is;
* `Rewrites.spells_around`: **the tokens of the program around a place do not depend on what stands
  there**;
* `Rewrites.fits`: **what fitted its role still fits**, if the new statement fits the roles of the old
  one;
* `Fits.ends`: every construct but an expression ends with a delimiter, and `Admits.before_stmt`: so
  does what stands before a statement, or it ends with a keyword.
-/
import Recast.Proofs.Grammar.Image
import Recast.Proofs.Tree.Rewrite

namespace Recast

/-! ## 1. What is apart from a place -/

namespace SyntaxTree

variable {t u : SyntaxTree} {o n i k : NodeId}

namespace Rewrites

/-- **What does not have the old node below it stays as it is**, with everything below it. -/
theorem construct?_below (h : Rewrites t o n u) (hk : Kept t o k) (hno : ¬ Under t [k] o)
    (hi : Under t [k] i) : u.construct? i = t.construct? i := by
  have hkept : Kept t o i := by
    refine ⟨hi.mono fun j hj => ?_, fun hoi => ?_⟩
    · rw [List.mem_singleton.mp hj]
      exact hk.1
    · rcases h.before.comparable hoi hi with hu | hu
      · exact hk.2 hu
      · exact hno hu
  obtain ⟨c, hc⟩ := h.exists_construct hkept
  rw [h.construct_eq i c hkept hc, hc]
  refine congrArg some (Construct.mapNodes_eq_self fun j hj => substNode_of_ne ?_)
  rintro rfl
  exact hno (hi.slot hc hj)

end Rewrites

end SyntaxTree

open SyntaxTree (Rewrites Kept Under)

/-! ## 2. Tokens -/

theorem Piece.exists_of_mem_nodes {k : NodeId} : ∀ {ps : List Piece}, k ∈ nodes ps →
    ∃ qs rs, ps = qs ++ node k :: rs ∧ nodes ps = nodes qs ++ k :: nodes rs
  | [], h => by cases h
  | node id :: ps, h => by
    rcases List.mem_cons.mp h with rfl | h
    · exact ⟨[], ps, rfl, rfl⟩
    · obtain ⟨qs, rs, rfl, hn⟩ := exists_of_mem_nodes h
      exact ⟨node id :: qs, rs, rfl, congrArg (id :: ·) hn⟩
  | sign _ :: ps, h | name _ :: ps, h | literal _ :: ps, h | type _ :: ps, h
  | accessors _ :: ps, h => by
    have h : k ∈ nodes ps := h
    obtain ⟨qs, rs, rfl, hn⟩ := exists_of_mem_nodes h
    exact ⟨_ :: qs, rs, rfl, hn⟩

section Around

variable {t u : SyntaxTree} {At : NodeId → List Token → Prop} {ts : List Token} {o n : NodeId}

/-- The tokens of a construct around one of its parts. -/
theorem Spells.around {c : Construct} {f : NodeId → NodeId} {k : NodeId} (h : Spells t At c.pieces ts)
    (hn : c.children.Nodup) (hk : k ∈ c.children)
    (hf : ∀ j ∈ c.children, j ≠ k → ∀ us, Spells t At [.node j] us →
      Spells u Anywhere [.node (f j)] us) :
    ∃ qs rs before us after, c.pieces = qs ++ Piece.node k :: rs ∧ Spells t At qs before ∧
      Spells t At [.node k] us ∧ ts = before ++ (us ++ after) ∧
      ∀ vs, Spells u Anywhere [.node (f k)] vs →
        Spells u Anywhere (c.mapNodes f).pieces (before ++ (vs ++ after)) := by
  rw [← c.nodes_pieces] at hn hk hf
  obtain ⟨qs, rs, hps, hnodes⟩ := Piece.exists_of_mem_nodes hk
  rw [hnodes] at hn hf
  obtain ⟨-, hrs, hqs⟩ := List.nodup_append.mp hn
  rw [hps] at h
  obtain ⟨before, us', rfl, hbefore, h⟩ := append_iff.mp h
  obtain ⟨us, after, rfl, hus, hafter⟩ := node_cons_iff.mp h
  refine ⟨qs, rs, before, us, after, hps, hbefore, hus, rfl, fun vs hvs => ?_⟩
  rw [Construct.pieces_mapNodes, hps, List.map_append, List.map_cons]
  refine (hbefore.map fun j hj => hf j (by simp [hj]) ?_).append
    (node_cons_iff.mpr ⟨vs, after, rfl, hvs, hafter.map fun j hj => hf j (by simp [hj]) ?_⟩)
  · rintro rfl
    exact hqs j hj j (List.mem_cons_self ..) rfl
  · rintro rfl
    exact (List.nodup_cons.mp hrs).1 hj

/-- **The tokens of the program around a place do not depend on what stands there.**  The place is that
of a node `i` above the old one, in its parent `q`, and what comes before it is what comes before this
parent and what comes before the place in it. -/
theorem SyntaxTree.Rewrites.spells_around (h : Rewrites t o n u) {c : Construct} {i : NodeId}
    (hc : t.construct? t.root = some c) (hs : Spells t At c.pieces ts)
    (hi : Under t (t.children t.root) i) : Under t [i] o →
    ∃ q d qs rs front before us after, t.parent? i = some q ∧ t.construct? q = some d ∧
      d.pieces = qs ++ .node i :: rs ∧ (q = t.root → front = []) ∧ Spells t At qs before ∧
      Spells t At [.node i] us ∧ ts = front ++ (before ++ (us ++ after)) ∧
      ∀ vs, Spells u Anywhere [.node (substNode o n i)] vs →
        Spells u Anywhere (c.mapNodes (substNode o n)).pieces (front ++ (before ++ (vs ++ after))) := by
  -- beside the way to the old node nothing changes
  have hsibling : ∀ {q j k : NodeId}, Kept t o q → j ∈ t.children q → k ∈ t.children q →
      Under t [k] o → j ≠ k → ∀ us, Spells t At [.node j] us →
      Spells u Anywhere [.node (substNode o n j)] us := by
    intro q j k hq hj hk hko hne us hus
    have hno : ¬ Under t [j] o := fun hjo => hne
      (h.before.eq_of_under_siblings ((h.before.links j q).mpr hj) ((h.before.links k q).mpr hk) hjo hko)
    have hjo : j ≠ o := by
      rintro rfl
      exact hno (.root (List.mem_singleton_self _))
    rw [substNode_of_ne hjo]
    exact hus.transfer fun l hl => h.construct?_below (h.kept_child hq hj hjo) hno hl
  induction hi with
  | @root i hi =>
    intro hio
    rw [SyntaxTree.children_of_construct? hc] at hi
    obtain ⟨qs, rs, before, us, after, hps, hbefore, hus, rfl, hput⟩ := hs.around
      (by simpa [SyntaxTree.children_of_construct? hc] using h.before.nodup t.root) hi
      fun j hj => hsibling h.kept_root (by rwa [SyntaxTree.children_of_construct? hc])
        (by rwa [SyntaxTree.children_of_construct? hc]) hio
    refine ⟨t.root, c, qs, rs, [], before, us, after, ?_, hc, hps, fun _ => rfl, hbefore, hus, rfl,
      hput⟩
    rwa [h.before.links, SyntaxTree.children_of_construct? hc]
  | @child q i hq hi ih =>
    intro hio
    have hlink := (h.before.links i q).mpr hi
    have hqo : Under t [q] o := hio.mono fun j hj => by
      rw [List.mem_singleton.mp hj]
      exact .child (.root (List.mem_singleton_self _)) hi
    obtain ⟨q', d', qs', rs', front, before', us', after', hq', -, -, -, hbefore', hus', rfl, hput'⟩ :=
      ih hqo
    have hkept : Kept t o q := by
      refine ⟨hq.mono fun r hr => .child (SyntaxTree.inTree_root t) hr, fun hoq => ?_⟩
      refine h.before.not_under_child hlink (hoq.mono fun r hr => ?_)
      rwa [List.mem_singleton.mp hr]
    obtain ⟨d, hd, hpieces, -⟩ := Spells.node_iff.mp hus'
    have hkids := SyntaxTree.children_of_construct? hd
    rw [hkids] at hi
    obtain ⟨qs, rs, before, us, after, hps, hbefore, hus, rfl, hput⟩ := hpieces.around
      (by simpa [hkids] using h.before.nodup q) hi
      fun j hj => hsibling hkept (by rwa [hkids]) (by rwa [hkids]) hio
    refine ⟨q, d, qs, rs, front ++ before', before, us, after ++ after', hlink, hd, hps, fun hr => ?_,
      hbefore, hus, by simp, fun vs hvs => ?_⟩
    · rw [hr, h.before.top] at hq'
      cases hq'
    · have hnode : Spells u Anywhere [.node q] (before ++ (vs ++ after)) :=
        Spells.node_iff.mpr ⟨_, h.construct_eq q d hkept hd, hput vs hvs, trivial⟩
      have := hput' _ (by rwa [substNode_of_ne (SyntaxTree.Rewrites.ne_of_kept hkept)])
      simpa using this

end Around

/-! ## 3. Roles -/

section Roles

variable {t u : SyntaxTree} {o n : NodeId}

theorem Construct.isExpression_of_isAssignable {c : Construct} (h : c.isAssignable = true) :
    c.isExpression = true := by
  cases c <;> first | rfl | cases h

theorem Admits.expr_of_exprStmt {ρ : NodeId → Role} {role : Role} {e : NodeId}
    (h : Admits t ρ (.exprStmt e) role) : ∃ l r, ρ e = .expr l r := by
  cases h with
  | exprStmt he _ => exact ⟨_, _, he⟩
  | item h _ =>
    cases h with
    | exprStmt he _ => exact ⟨_, _, he⟩

/-- **What fitted its role still fits**, if the new node fits the roles of the old one.  The old node is
not an expression, so that expressions do not change. -/
theorem SyntaxTree.Rewrites.fits (h : Rewrites t o n u) (ho : t.isExpression o = false)
    (hn : ∀ role, Fits t role o → Fits u role n) {role : Role} {i : NodeId} (hf : Fits t role i) :
    Kept t o i → Fits u role i := by
  induction hf with
  | @node role i c ρ hc ha hk ih =>
    intro hi
    have hkids := SyntaxTree.children_of_construct? hc
    have hfresh : ∀ k ∈ c.children, k ≠ o → k ≠ n := by
      rintro k hmem hne rfl
      have hlt := h.lt_size_of_kept (h.kept_child hi (by rwa [hkids]) hne)
      exact Nat.not_le.mpr hlt (h.fresh k (.root (List.mem_singleton_self _))).1
    -- the new node takes the role of the old one
    refine .node (fun k => if k = n then ρ o else ρ k) (h.construct_eq i c hi hc) (ha.map ?_ ?_ ?_) ?_
    · intro k hmem
      by_cases hko : k = o
      · rw [hko, substNode_self, if_pos rfl]
      · rw [substNode_of_ne hko, if_neg (hfresh k hmem hko)]
    · intro k hmem hassign
      obtain ⟨d, hd, hda⟩ := Option.any_eq_true .. |>.mp hassign
      have hko : k ≠ o := by
        rintro rfl
        rw [SyntaxTree.isExpression, hd, Option.any_some, d.isExpression_of_isAssignable hda] at ho
        cases ho
      have hkept := h.kept_child hi (by rwa [hkids]) hko
      rw [substNode_of_ne hko, h.construct_eq k d hkept hd]
      exact (d.isAssignable_mapNodes _).trans hda
    · rintro decl e rfl hund
      obtain ⟨l, r, he⟩ := ha.expr_of_exprStmt
      have hmem : e ∈ (Construct.exprStmt e).children := by simp [Construct.children]
      have hfe : Fits t (.expr l r) e := he ▸ hk e hmem
      have hno : ¬ Under t [e] o := by
        intro hu
        rw [hfe.isExpression_of_under hu] at ho
        cases ho
      have heo : e ≠ o := by
        rintro rfl
        exact hno (.root (List.mem_singleton_self _))
      rw [substNode_of_ne heo]
      exact hund.transfer fun j hj => h.construct?_below (h.kept_child hi (by rwa [hkids]) heo) hno hj
    · intro k hmem
      rw [Construct.children_mapNodes] at hmem
      obtain ⟨j, hj, rfl⟩ := List.mem_map.mp hmem
      by_cases hjo : j = o
      · subst hjo
        rw [substNode_self, if_pos rfl]
        exact hn _ (hk j hj)
      · rw [substNode_of_ne hjo, if_neg (hfresh j hj hjo)]
        exact ih j hj (h.kept_child hi (by rwa [hkids]) hjo)

end Roles

/-! ## 4. What stands before a statement -/

section Ends

variable {t : SyntaxTree} {At : NodeId → List Token → Prop} {ts : List Token}

/-- The tokens end with a delimiter. -/
def EndsShut (ts : List Token) : Prop := ∃ a, ts.getLast? = some a ∧ a.kind.isDelimiter = true

theorem EndsShut.append {us : List Token} (h : EndsShut us) (ts : List Token) : EndsShut (ts ++ us) := by
  obtain ⟨a, ha, hk⟩ := h
  refine ⟨a, ?_, hk⟩
  rw [List.getLast?_append, ha]
  rfl

/-- Pieces end as the last of them does. -/
theorem Spells.getLast {ps : List Piece} {p : Piece} (h : Spells t At (ps ++ [p]) ts) :
    ∃ us vs, ts = us ++ vs ∧ Spells t At [p] vs := by
  obtain ⟨us, vs, hts, -, hvs⟩ := append_iff.mp h
  exact ⟨us, vs, hts, hvs⟩

theorem Spells.endsShut_sign {ps : List Piece} {k : TokenKind} (h : Spells t At (ps ++ [Piece.sign k]) ts)
    (hk : k.isDelimiter = true) : EndsShut ts := by
  obtain ⟨us, vs, rfl, hvs⟩ := h.getLast
  obtain ⟨a, ws, rfl, ha, hws⟩ := sign_iff.mp hvs
  rw [nil_iff.mp hws]
  exact EndsShut.append ⟨a, rfl, by rw [ha, hk]⟩ us

/-- **Every construct but an expression ends with a delimiter.** -/
theorem Fits.ends {role : Role} {i : NodeId} (h : Fits t role i) : (∀ l r, role ≠ .expr l r) →
    ∀ {ts : List Token}, Spells t At [.node i] ts → EndsShut ts := by
  induction h with
  | @node role i c ρ hc ha hk ih =>
    intro hrole ts hs
    have hsp := hs.pieces hc
    have hnode : ∀ (ps : List Piece) (k : NodeId), c.pieces = ps ++ [Piece.node k] → k ∈ c.children →
        (∀ l r, ρ k ≠ .expr l r) → EndsShut ts := by
      intro ps k hps hmem hrole
      rw [hps] at hsp
      obtain ⟨us, vs, rfl, hvs⟩ := hsp.getLast
      exact (ih k hmem hrole hvs).append us
    have hsign : ∀ (ps : List Piece) {k : TokenKind}, c.pieces = ps ++ [Piece.sign k] →
        k.isDelimiter = true → EndsShut ts := by
      intro ps k hps hk
      rw [hps] at hsp
      exact hsp.endsShut_sign hk
    have hstmt : ∀ {d : Bool}, Admits t ρ c (.stmt d) → EndsShut ts := by
      intro d ha
      cases ha with
      | @exprStmt e _ _ _ _ => exact hsign [.node e] rfl rfl
      | @localDecl w vars _ _ =>
        exact hsign (.type w :: Piece.separated (vars.map Declarator.pieces)) rfl rfl
      | @returnStmt value _ =>
        cases value with
        | none => exact hsign [.sign .returnWord] rfl rfl
        | some e => exact hsign [.sign .returnWord, .node e] rfl rfl
      | @yieldStmt e _ _ _ => exact hsign [.sign .yieldWord, .sign .returnWord, .node e] rfl rfl
      | breakStmt => exact hsign [.sign .breakWord] rfl rfl
      | continueStmt => exact hsign [.sign .continueWord] rfl rfl
      | emptyStmt => exact hsign [] rfl rfl
      | @block stmts _ => exact hsign (.sign .leftBrace :: stmts.map .node) rfl rfl
      | @ifThen e a _ _ _ _ hx =>
        exact hnode [.sign .ifWord, .sign .leftParen, .node e, .sign .rightParen] a rfl
          (by simp [Construct.children]) (by simp [hx])
      | @ifElse e a b _ _ _ _ _ hx =>
        exact hnode [.sign .ifWord, .sign .leftParen, .node e, .sign .rightParen, .node a,
          .sign .elseWord] b rfl (by simp [Construct.children]) (by simp [hx])
      | @whileStmt e a _ _ _ _ hx =>
        exact hnode [.sign .whileWord, .sign .leftParen, .node e, .sign .rightParen] a rfl
          (by simp [Construct.children]) (by simp [hx])
      | @doStmt e a _ _ _ _ _ =>
        exact hsign [.sign .doWord, .node a, .sign .whileWord, .sign .leftParen, .node e,
          .sign .rightParen] rfl rfl
    have hfunction : ∀ {w : WrittenType} {n : Ident} {params : List Param} {s : NodeId},
        c = .function w n params s → ρ s = .body → EndsShut ts := by
      rintro w n params s rfl hs
      refine hnode (.type w :: .name n.name :: .sign .leftParen ::
        (Piece.separated (params.map Param.pieces) ++ [Piece.sign .rightParen])) s ?_
        (by simp [Construct.children]) (by simp [hs])
      simp [Construct.pieces]
    cases role with
    | expr l r => exact absurd rfl (hrole l r)
    | stmt d => exact hstmt ha
    | body =>
      cases ha with
      | @body stmts _ => exact hsign (.sign .leftBrace :: stmts.map .node) rfl rfl
    | member =>
      cases ha with
      | @field w n init _ => exact hsign (.type w :: Declarator.pieces ⟨n, init⟩) rfl rfl
      | @property w n b =>
        exact hsign [.type w, .name n.name, .sign .leftBrace, .accessors b] rfl rfl
      | method hs => exact hfunction rfl hs
    | item =>
      cases ha with
      | function hs => exact hfunction rfl hs
      | @classDecl n members _ =>
        exact hsign (.sign .classWord :: .name n.name :: .sign .leftBrace :: members.map .node) rfl rfl
      | item ha _ => exact hstmt ha

/-- Pieces that all end with a delimiter end with one together. -/
theorem Spells.endsShut {ps : List Piece} (h : Spells t At ps ts) (hne : ps ≠ [])
    (hall : ∀ p ∈ ps, ∀ us, Spells t At [p] us → EndsShut us) : EndsShut ts := by
  rcases List.eq_nil_or_concat ps with rfl | ⟨qs, p, rfl⟩
  · exact absurd rfl hne
  · rw [List.concat_eq_append] at h
    obtain ⟨us, vs, rfl, hvs⟩ := h.getLast
    exact (hall p (by simp) vs hvs).append us

/-- A token that ends what comes before a statement: a delimiter or a keyword. -/
def TokenKind.shuts (k : TokenKind) : Bool := k.isDelimiter || k.isKeyword

/-- After the piece `q`, each of the nodes `S` comes directly after a sign that shuts. -/
def Piece.Heralded (S : NodeId → Prop) : Piece → List Piece → Prop
  | _, [] => True
  | q, p :: ps => (∀ k, p = node k → S k → ∃ s, q = sign s ∧ s.shuts = true) ∧ Heralded S p ps

theorem Piece.Heralded.before {S : NodeId → Prop} {k : NodeId} {rs : List Piece} (hk : S k) :
    ∀ {qs ps : List Piece} {q : Piece}, Heralded S q ps → ps = qs ++ node k :: rs →
      ∃ qs' s, q :: qs = qs' ++ [sign s] ∧ s.shuts = true
  | [], _, q, h, hps => by
    subst hps
    obtain ⟨s, rfl, hs⟩ := h.1 k rfl hk
    exact ⟨[], s, rfl, hs⟩
  | p :: qs, _, q, h, hps => by
    subst hps
    obtain ⟨qs', s, he, hs⟩ := before hk h.2 rfl
    exact ⟨q :: qs', s, congrArg (q :: ·) he, hs⟩

/-- What stands before such a node ends with a token that shuts. -/
theorem Spells.shuts_of_heralded {S : NodeId → Prop} {c : Construct} {s : TokenKind} {k : NodeId}
    {ps qs rs : List Piece} (hs : Spells t At qs ts) (hc : c.pieces = .sign s :: ps)
    (hh : Piece.Heralded S (.sign s) ps) (hps : c.pieces = qs ++ .node k :: rs) (hk : S k) :
    ∃ a, ts.getLast? = some a ∧ a.kind.shuts = true := by
  rw [hc] at hps
  cases qs with
  | nil => cases hps
  | cons q qs =>
    obtain ⟨rfl, htail⟩ := List.cons.inj hps
    obtain ⟨qs', s', he, hs'⟩ := hh.before hk htail
    rw [he] at hs
    obtain ⟨us, vs, rfl, hvs⟩ := hs.getLast
    obtain ⟨a, ws, rfl, rfl, hws⟩ := Spells.sign_iff.mp hvs
    rw [Spells.nil_iff.mp hws]
    exact ⟨a, by simp, hs'⟩

/-- In a block what stands before a statement ends with a delimiter, be it the opening brace or
another statement. -/
theorem Spells.endsShut_block {stmts : List NodeId} {k : NodeId} {qs rs : List Piece}
    (hs : Spells t At qs ts) (hstmts : ∀ s ∈ stmts, ∃ d, Fits t (.stmt d) s)
    (hps : (Construct.block stmts).pieces = qs ++ .node k :: rs) : EndsShut ts := by
  refine hs.endsShut ?_ fun p hp us hus => ?_
  · rintro rfl
    cases hps
  · have hmem : p ∈ (Construct.block stmts).pieces := by
      rw [hps]
      exact List.mem_append_left _ hp
    simp only [Construct.pieces, List.mem_cons, List.mem_append, List.mem_map, List.not_mem_nil,
      or_false] at hmem
    rcases hmem with rfl | ⟨s, hs, rfl⟩ | rfl
    · exact @Spells.endsShut_sign _ _ _ [] _ hus rfl
    · obtain ⟨d, hd⟩ := hstmts s hs
      exact hd.ends (by simp) hus
    · exact @Spells.endsShut_sign _ _ _ [] _ hus rfl

/-- **What stands before a statement in a block ends with a delimiter, and elsewhere it does so or ends
with a keyword.** -/
theorem Admits.before_stmt {ρ : NodeId → Role} {c : Construct} {role : Role} {b : Bool} {k : NodeId}
    {qs rs : List Piece} (ha : Admits t ρ c role) (hk : ∀ j ∈ c.children, Fits t (ρ j) j)
    (hps : c.pieces = qs ++ .node k :: rs) (hρ : ρ k = .stmt b) (hs : Spells t At qs ts) :
    (c.isBlock = true ∧ EndsShut ts) ∨
      (c.isBlock = false ∧ ∃ a, ts.getLast? = some a ∧ a.kind.shuts = true) := by
  have hherald : ∀ {s : TokenKind} {ps : List Piece}, c.pieces = .sign s :: ps →
      Piece.Heralded (fun k => ∃ b, ρ k = .stmt b) (.sign s) ps →
      ∃ a, ts.getLast? = some a ∧ a.kind.shuts = true := fun hc hh =>
    hs.shuts_of_heralded hc hh hps ⟨b, hρ⟩
  have hblock : ∀ {stmts : List NodeId}, c = .block stmts → (∀ s ∈ stmts, ∃ d, ρ s = .stmt d) →
      EndsShut ts := by
    rintro stmts rfl hall
    refine hs.endsShut_block (fun s hmem => ?_) hps
    obtain ⟨d, hd⟩ := hall s hmem
    exact ⟨d, hd ▸ hk s hmem⟩
  have hmem : k ∈ c.children := by
    rw [← c.nodes_pieces, hps, Piece.nodes_append]
    exact List.mem_append_right _ (List.mem_cons_self ..)
  have hexpr : ∀ {P : Prop}, (∀ j ∈ c.children, ∃ l r, ρ j = .expr l r) → P := by
    intro P hall
    obtain ⟨l, r, he⟩ := hall k hmem
    rw [hρ] at he
    cases he
  have hstmt : ∀ {d : Bool}, Admits t ρ c (.stmt d) → (c.isBlock = true ∧ EndsShut ts) ∨
      (c.isBlock = false ∧ ∃ a, ts.getLast? = some a ∧ a.kind.shuts = true) := by
    intro d ha
    cases ha with
    | block hall => exact .inl ⟨rfl, hblock rfl hall⟩
    | whileStmt _ _ | doStmt _ _ | ifThen _ _ | ifElse _ _ _ =>
      exact .inr ⟨rfl, hherald rfl (by simp [Piece.Heralded, TokenKind.shuts, TokenKind.isDelimiter,
        TokenKind.isKeyword])⟩
    | exprStmt he _ | yieldStmt he => exact hexpr (by simp [Construct.children, he])
    | localDecl _ hvars => exact hexpr hvars
    | returnStmt hv => exact hexpr fun j hj => hv j (Option.mem_toList.mp hj)
    | breakStmt | continueStmt | emptyStmt => cases hmem
  have hfunction : ∀ {w : WrittenType} {n : Ident} {params : List Param} {s : NodeId} {P : Prop},
      c = .function w n params s → ρ s = .body → P := by
    rintro w n params s P rfl hs
    rw [List.mem_singleton.mp hmem, hs] at hρ
    cases hρ
  cases role with
  | expr l r => exact hexpr ha.isExpression.2
  | stmt d => exact hstmt ha
  | body =>
    cases ha with
    | body hall => exact .inl ⟨rfl, hblock rfl hall⟩
  | member =>
    cases ha with
    | field hi => exact hexpr fun j hj => hi j (Option.mem_toList.mp hj)
    | property => cases hmem
    | method hs => exact hfunction rfl hs
  | item =>
    cases ha with
    | function hs => exact hfunction rfl hs
    | classDecl hm =>
      rw [hm k hmem] at hρ
      cases hρ
    | item ha _ => exact hstmt ha

/-- Only the parts of a whole program are items. -/
theorem Admits.child_ne_item {ρ : NodeId → Role} {c : Construct} {role : Role} {k : NodeId}
    (ha : Admits t ρ c role) (hk : k ∈ c.children) : ρ k ≠ .item := by
  have hexpr : (∃ l r, ρ k = .expr l r) → ρ k ≠ .item := by
    rintro ⟨l, r, h⟩ he
    rw [h] at he
    cases he
  have hstmt : (∃ d, ρ k = .stmt d) → ρ k ≠ .item := by
    rintro ⟨d, h⟩ he
    rw [h] at he
    cases he
  induction ha with
  | item _ _ ih => exact ih hk
  | literal | ident | breakStmt | continueStmt | emptyStmt | property => cases hk
  | paren he | cast he | unary he _ | member he _ | exprStmt he _ | yieldStmt he =>
    rw [List.mem_singleton.mp hk] at hexpr ⊢
    exact hexpr ⟨_, _, he⟩
  | newObject hall | localDecl _ hall => exact hexpr (hall k hk)
  | call hf _ hall =>
    rcases List.mem_cons.mp hk with rfl | hk
    · exact hexpr ⟨_, _, hf⟩
    · exact hexpr (hall k hk)
  | binary hx _ hy _ | assign hx _ _ hy _ =>
    simp only [Construct.children, List.mem_cons, List.not_mem_nil, or_false] at hk
    rcases hk with rfl | rfl
    · exact hexpr ⟨_, _, hx⟩
    · exact hexpr ⟨_, _, hy⟩
  | returnStmt hv => exact hexpr (hv k (Option.mem_toList.mp hk))
  | field hv => exact hexpr (hv k (Option.mem_toList.mp hk))
  | block hall | body hall => exact hstmt (hall k hk)
  | ifThen he hx | whileStmt he hx =>
    simp only [Construct.children, Option.toList, List.mem_cons, List.not_mem_nil, or_false] at hk
    rcases hk with rfl | rfl
    · exact hexpr ⟨_, _, he⟩
    · exact hstmt ⟨_, hx⟩
  | ifElse he hx hy =>
    simp only [Construct.children, Option.toList, List.mem_cons, List.not_mem_nil, or_false] at hk
    rcases hk with rfl | rfl | rfl
    · exact hexpr ⟨_, _, he⟩
    · exact hstmt ⟨_, hx⟩
    · exact hstmt ⟨_, hy⟩
  | doStmt hx he =>
    simp only [Construct.children, List.mem_cons, List.not_mem_nil, or_false] at hk
    rcases hk with rfl | rfl
    · exact hstmt ⟨_, hx⟩
    · exact hexpr ⟨_, _, he⟩
  | method hs | function hs =>
    rw [List.mem_singleton.mp hk, hs]
    simp
  | classDecl hm =>
    rw [hm k hk]
    simp

/-- **The token before a statement of a program is a delimiter**, or a keyword where no list of
statements is around. -/
theorem Spells.before_stmt_of_program {items : List NodeId} {q k : NodeId} {d : Construct}
    {qs rs : List Piece} {front : List Token} (hroot : t.construct? t.root = some (.unit items))
    (hall : ∀ id ∈ items, Fits t .item id) (hq : t.InTree q) (hd : t.construct? q = some d)
    (hps : d.pieces = qs ++ .node k :: rs) (hfront : q = t.root → front = [])
    (hk : ∀ role, Fits t role k → (∃ b, role = .stmt b) ∨ role = .item) (hs : Spells t At qs ts) :
    ∀ a, (front ++ ts).getLast? = some a →
      a.kind.isDelimiter = true ∨ (d.isBlock = false ∧ a.kind.isKeyword = true) := by
  have hends : EndsShut ts → ∀ a, (front ++ ts).getLast? = some a → a.kind.isDelimiter = true := by
    rintro ⟨b, hb, hdelim⟩ a ha
    rw [List.getLast?_append, hb] at ha
    cases ha
    exact hdelim
  intro a ha
  rcases SyntaxTree.Under.cases_root hq with rfl | hu
  · -- items follow each other
    rw [hroot] at hd
    cases hd
    rw [hfront rfl] at ha
    cases qs with
    | nil =>
      rw [nil_iff.mp hs] at ha
      cases ha
    | cons p qs =>
      refine .inl (hends (hs.endsShut (List.cons_ne_nil _ _) fun p' hp' us hus => ?_) a (by
        rw [hfront rfl]
        exact ha))
      have hmem : p' ∈ (Construct.unit items).pieces := by
        rw [hps]
        exact List.mem_append_left _ hp'
      obtain ⟨id, hid, rfl⟩ := List.mem_map.mp hmem
      exact (hall id hid).ends (by simp) hus
  · rw [SyntaxTree.children_of_construct? hroot] at hu
    obtain ⟨role, hf⟩ := Fits.of_under (fun j hj => ⟨.item, hall j hj⟩) hu
    cases hf with
    | @node _ _ d' ρ hd' hadmits hkids =>
      rw [hd] at hd'
      cases hd'
      have hmem : k ∈ d.children := by
        rw [← d.nodes_pieces, hps, Piece.nodes_append]
        exact List.mem_append_right _ (List.mem_cons_self ..)
      obtain ⟨b, hb⟩ : ∃ b, ρ k = .stmt b := by
        rcases hk _ (hkids k hmem) with hb | hi
        · exact hb
        · exact absurd hi (hadmits.child_ne_item hmem)
      rcases hadmits.before_stmt hkids hps hb hs with ⟨-, hshut⟩ | ⟨hblock, b', hb', hshut⟩
      · exact .inl (hends hshut a ha)
      · rw [List.getLast?_append, hb'] at ha
        cases ha
        simp only [TokenKind.shuts, Bool.or_eq_true] at hshut
        exact hshut.imp_right fun h => ⟨hblock, h⟩

end Ends

end Recast
