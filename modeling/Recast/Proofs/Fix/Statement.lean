/-
# The new statement can be read back

The statement that the casting engine builds fits wherever the old one fits, and it can be written if
the old one and the type of the cast can.

* `Undeclared.of_assign`: what comes behind an assignment sign does not decide whether an expression
  looks like a declaration;
* `IsConvertible.fits_stmt`: a convertible statement takes no `else`;
* `Recasts.fits`: **the new statement fits the roles of the old one**;
* `Recasts.pieces`: its names, types and literals are those of the old one, the type of the cast apart;
* `Recasts.writable`: **it can be written.**
-/
import Recast.Proofs.Fix.Cast
import Recast.Proofs.Grammar.Context

namespace Recast

open BindingPower

variable {t u : SyntaxTree} {type : DataType} {c : Convertible} {s : NodeId}

/-! ## 1. Looking ahead -/

/-- Nothing behind a token that cannot stand in a type is seen. -/
theorem lead_append_of_not_inType {a : Token} (ha : a.kind.inType = false) :
    ∀ us vs ws : List Token, lead (us ++ a :: vs) = lead (us ++ a :: ws)
  | [], vs, ws => by
    rw [List.nil_append, List.nil_append, lead_cons_of_not_inType ha, lead_cons_of_not_inType ha]
  | b :: us, vs, ws => by
    have ih := lead_append_of_not_inType ha us vs ws
    simp only [List.cons_append, lead, ih]

/-- A value behind an assignment sign does not decide whether a declaration is seen. -/
theorem Undeclared.of_assign {decl : List Token → Bool}
    (hcongr : ∀ {ts us}, lead ts = lead us → decl ts = decl us) {e e' target target' value k : NodeId}
    (h : Undeclared decl t e) (he : t.construct? e = some (.assign .set target value))
    (he' : u.construct? e' = some (.assign .set target' k))
    (htarget : ∀ us, Spells t Anywhere [.node target] us → Spells u Anywhere [.node target'] us)
    (hk : (∃ vs, Spells t Anywhere [.node value] vs) → ∃ ws, Spells u Anywhere [.node k] ws) :
    Undeclared decl u e' := by
  obtain ⟨ts, hs, hd⟩ := h
  have hpieces := hs.pieces he
  obtain ⟨us, rest, rfl, hus, hrest⟩ := Spells.node_cons_iff.mp hpieces
  obtain ⟨a, vs, rfl, ha, hvs⟩ := Spells.sign_iff.mp hrest
  obtain ⟨ws, hws⟩ := hk ⟨vs, hvs⟩
  refine ⟨us ++ a :: ws, Spells.node_iff.mpr ⟨_, he', ?_, trivial⟩, ?_⟩
  · exact Spells.node_cons_iff.mpr ⟨us, a :: ws, rfl, htarget us hus,
      Spells.sign_iff.mpr ⟨a, ws, rfl, ha, hws⟩⟩
  · have hin : a.kind.inType = false := by
      rw [ha]
      rfl
    rw [← hd]
    simp only [List.append_assoc, List.cons_append]
    exact hcongr (lead_append_of_not_inType hin us _ _)

/-! ## 2. Roles -/

/-- What an expression, a `return`, a `yield` or a declaration is as an item, it is as a statement. -/
theorem Admits.stmt_of_simple {ρ : NodeId → Role} {c : Construct} {role : Role}
    (h : Admits t ρ c role)
    (hc : (∃ e, c = .exprStmt e) ∨ (∃ v, c = .returnStmt v) ∨ (∃ e, c = .yieldStmt e) ∨
      ∃ w vars, c = .localDecl w vars) :
    Admits t ρ c (.stmt false) ∧ (role = .stmt false ∨ role = .item) := by
  rcases hc with ⟨e, rfl⟩ | ⟨v, rfl⟩ | ⟨e, rfl⟩ | ⟨w, vars, rfl⟩
  · cases h with
    | exprStmt he hd => exact ⟨.exprStmt he hd, .inl rfl⟩
    | item h _ =>
      cases h with
      | exprStmt he hd => exact ⟨.exprStmt he hd, .inr rfl⟩
  · cases h with
    | returnStmt hv => exact ⟨.returnStmt hv, .inl rfl⟩
    | item h _ =>
      cases h with
      | returnStmt hv => exact ⟨.returnStmt hv, .inr rfl⟩
  · cases h with
    | yieldStmt he => exact ⟨.yieldStmt he, .inl rfl⟩
    | item h _ =>
      cases h with
      | yieldStmt he => exact ⟨.yieldStmt he, .inr rfl⟩
  · cases h with
    | localDecl hne hv => exact ⟨.localDecl hne hv, .inl rfl⟩
    | item h _ =>
      cases h with
      | localDecl hne hv => exact ⟨.localDecl hne hv, .inr rfl⟩

/-- A convertible statement takes no `else`. -/
theorem IsConvertible.fits_stmt (hc : IsConvertible t c) {role : Role} (h : Fits t role c.stmt) :
    Fits t (.stmt false) c.stmt ∧ (role = .stmt false ∨ role = .item) := by
  cases h with
  | @node _ _ d ρ hs ha hk =>
    have hd : (∃ e, d = .exprStmt e) ∨ (∃ v, d = .returnStmt v) ∨ (∃ e, d = .yieldStmt e) ∨
        ∃ w vars, d = .localDecl w vars := by
      cases hc with
      | assignment hid _ => exact .inl ⟨_, Option.some.inj (hs.symm.trans hid)⟩
      | returned hid => exact .inr (.inl ⟨_, Option.some.inj (hs.symm.trans hid)⟩)
      | yielded hid => exact .inr (.inr (.inl ⟨_, Option.some.inj (hs.symm.trans hid)⟩))
      | declaration hid => exact .inr (.inr (.inr ⟨_, _, Option.some.inj (hs.symm.trans hid)⟩))
    obtain ⟨hstmt, hrole⟩ := ha.stmt_of_simple hd
    exact ⟨.node ρ hs hstmt hk, hrole⟩

/-- An assignment as a statement has a target that can be assigned to, and its value is an expression. -/
theorem Fits.parts_of_assign {stmt e target value : NodeId} {op : AssignOp}
    (h : Fits t (.stmt false) stmt) (hid : t.construct? stmt = some (.exprStmt e))
    (he : t.construct? e = some (.assign op target value)) :
    (t.construct? target).any Construct.isAssignable = true ∧ ∃ l r, Fits t (.expr l r) value := by
  cases h with
  | node ρ hd ha hk =>
    rw [hid] at hd
    cases hd
    cases ha with
    | exprStmt hρ _ =>
      have hf := hρ ▸ hk e (List.mem_singleton_self _)
      cases hf with
      | node ρ' hd ha hk =>
        rw [he] at hd
        cases hd
        cases ha with
        | assign _ _ hassign hρ' _ =>
          exact ⟨hassign, _, _, hρ' ▸ hk value (by simp [Construct.children])⟩

/-- The target of an assignment can be assigned to. -/
theorem IsConvertible.isAssignable_target (hc : IsConvertible t c) {role : Role}
    (h : Fits t role c.stmt) {target : NodeId} (htarget : c.target? = some target) :
    (t.construct? target).any Construct.isAssignable = true := by
  have hstmt := (hc.fits_stmt h).1
  cases hc with
  | assignment hid he =>
    cases htarget
    exact (hstmt.parts_of_assign hid he).1
  | returned _ | yielded _ | declaration _ => cases htarget

/-- The value of a convertible statement is an expression. -/
theorem IsConvertible.fits_source (hc : IsConvertible t c) {role : Role} (h : Fits t role c.stmt) :
    ∃ l r, Fits t (.expr l r) c.source := by
  have hstmt := (hc.fits_stmt h).1
  cases hc with
  | assignment hid he => exact (hstmt.parts_of_assign hid he).2
  | @returned _ value hid =>
    cases hstmt with
    | node ρ hd ha hk =>
      rw [Convertible.stmt, hid] at hd
      cases hd
      cases ha with
      | returnStmt hv =>
        obtain ⟨l, r, he⟩ := hv value rfl
        exact ⟨l, r, he ▸ hk value (List.mem_singleton_self _)⟩
  | @yielded _ value hid =>
    cases hstmt with
    | node ρ hd ha hk =>
      rw [Convertible.stmt, hid] at hd
      cases hd
      cases ha with
      | yieldStmt he => exact ⟨_, _, he ▸ hk value (List.mem_singleton_self _)⟩
  | @declaration _ init w name hid =>
    cases hstmt with
    | node ρ hd ha hk =>
      rw [Convertible.stmt, hid] at hd
      cases hd
      cases ha with
      | localDecl _ hv =>
        obtain ⟨l, r, he⟩ := hv init (List.mem_singleton_self _)
        exact ⟨l, r, he ▸ hk init (List.mem_singleton_self _)⟩

/-- All parts of a convertible statement are expressions. -/
theorem IsConvertible.isExpression_of_under (hc : IsConvertible t c) {role : Role}
    (hf : Fits t role c.stmt) {i : NodeId} (hi : t.Under [c.stmt] i) :
    i = c.stmt ∨ t.isExpression i = true := by
  rcases SyntaxTree.Under.cases_root hi with rfl | hi
  · exact .inl rfl
  right
  obtain ⟨e, he, hi⟩ := hi.exists_root
  cases (hc.fits_stmt hf).1 with
  | node ρ hd ha hk =>
    rw [SyntaxTree.children_of_construct? hd] at he
    have hexpr : ∃ l r, ρ e = .expr l r := by
      cases hc with
      | assignment hid _ =>
        rw [Convertible.stmt, hid] at hd
        cases hd
        rw [List.mem_singleton.mp he]
        exact ha.expr_of_exprStmt
      | returned hid =>
        rw [Convertible.stmt, hid] at hd
        cases hd
        cases ha with
        | returnStmt hv => exact hv e (Option.mem_toList.mp he)
      | yielded hid =>
        rw [Convertible.stmt, hid] at hd
        cases hd
        cases ha with
        | yieldStmt hρ =>
          rw [List.mem_singleton.mp he]
          exact ⟨_, _, hρ⟩
      | declaration hid =>
        rw [Convertible.stmt, hid] at hd
        cases hd
        cases ha with
        | localDecl _ hv => exact hv e he
    obtain ⟨l, r, hρ⟩ := hexpr
    exact Fits.isExpression_of_under (hρ ▸ hk e he) hi

/-- A statement without expression statements in it may stand as an item. -/
theorem Fits.item_of_stmt {i : NodeId} {d : Bool} {cc : Construct} (hc : t.construct? i = some cc)
    (hne : ∀ e, cc ≠ .exprStmt e) (h : Fits t (.stmt d) i) : Fits t .item i := by
  cases h with
  | node ρ hc' ha hk =>
    rw [hc] at hc'
    cases hc'
    exact .node ρ hc (.item ha fun e he => absurd he (hne e)) hk

/-- A cast of a copy can be written with tokens. -/
theorem CastsCopy.exists_spells {value k : NodeId} (ht : t.WellFormed) (h : CastsCopy t u type value k)
    (hw : (WrittenType.ofDataType type).Writable) (hv : ∃ ts, Spells t Anywhere [.node value] ts) :
    ∃ ts, Spells u Anywhere [.node k] ts := by
  obtain ⟨v, hcopy, hk⟩ := h
  obtain ⟨vs, hvs⟩ := hv
  have hws := (WrittenType.prints hw).1
  have hsign : ∀ {k : TokenKind} {ps : List Piece} {ts : List Token}, Spells u Anywhere ps ts →
      Spells u Anywhere (.sign k :: ps) (k.token :: ts) :=
    fun h => Spells.sign_iff.mpr ⟨_, _, rfl, rfl, h⟩
  refine ⟨_, Spells.node_iff.mpr ⟨_, hk, hsign (hsign (Spells.type_iff.mpr ⟨_, _, rfl, hws,
    hsign (hsign (Spells.node_cons_iff.mpr ⟨vs, _, rfl, hcopy.spells ht hvs, hsign .nil⟩))⟩)), trivial⟩⟩

section Roles

variable (ht : t.WellFormed) (hu : u.WellFormed)
include ht hu

/-- A cast of a copy of an expression is an expression that nothing carries on. -/
theorem CastsCopy.fits {value k : NodeId} {l r : Nat} (h : CastsCopy t u type value k)
    (hv : Fits t (.expr l r) value) : Fits u (.expr closed closed) k := by
  obtain ⟨v, hcopy, hk⟩ := h
  refine .node (fun _ => .expr l r) hk (.cast rfl) fun j hj => ?_
  rw [List.mem_singleton.mp hj]
  exact hcopy.fits ht hu hv

/-- An assignment of a cast to a copy of the target is an expression where the assignment is one. -/
theorem CastsCopy.fits_assign {target value a g k e : NodeId} {l r : Nat}
    (hk : CastsCopy t u type value k) (hg : Copies t u [target] [g])
    (he : u.construct? e = some (.assign .set g k))
    (ha : t.construct? a = some (.assign .set target value)) (hf : Fits t (.expr l r) a) :
    ∃ l' r', Fits u (.expr l' r') e := by
  cases hf with
  | node ρ hd hadmits hkids =>
    rw [ha] at hd
    cases hd
    cases hadmits with
    | @assign _ _ _ l r l' r' hρ hr hassign hρ' hl =>
      have htarget := hρ ▸ hkids target (by simp [Construct.children])
      have hvalue := hρ' ▸ hkids value (by simp [Construct.children])
      have hne : k ≠ g := by
        have hnodup := hu.nodup e
        rw [SyntaxTree.children_of_construct? he] at hnodup
        rintro rfl
        exact (List.nodup_cons.mp hnodup).1 (List.mem_singleton_self _)
      refine ⟨_, _, .node (fun j => if j = g then .expr l r else .expr closed closed) he
        (.assign (if_pos rfl) hr (hg.isAssignable ht hassign) (if_neg hne) (by decide)) fun j hj => ?_⟩
      simp only [Construct.children, List.mem_cons, List.not_mem_nil, or_false] at hj
      rcases hj with rfl | rfl
      · rw [if_pos rfl]
        exact hg.fits ht hu htarget
      · rw [if_neg hne]
        exact hk.fits ht hu hvalue

/-- **The new statement fits the roles of the old one.** -/
theorem Recasts.fits (hc : IsConvertible t c) (h : Recasts t u type c s)
    (hw : (WrittenType.ofDataType type).Writable) {role : Role} (hf : Fits t role c.stmt) :
    Fits u role s := by
  -- all shapes but the assignment are statements and items alike
  have hboth : ∀ {cc : Construct}, u.construct? s = some cc → (∀ e, cc ≠ .exprStmt e) →
      Fits u (.stmt false) s → Fits u role s := by
    intro cc hcc hne hs
    rcases (hc.fits_stmt hf).2 with rfl | rfl
    · exact hs
    · exact hs.item_of_stmt hcc hne
  obtain ⟨l, r, hv⟩ := hc.fits_source hf
  cases h with
  | @assignment stmt target value _ e g k hk hg he hs =>
    cases hc with
    | @assignment _ a _ _ hid ha =>
      have hsame : ∀ {decl : List Token → Bool}, (∀ {ts us}, lead ts = lead us → decl ts = decl us) →
          Undeclared decl t a → Undeclared decl u e := fun hcongr hd =>
        hd.of_assign hcongr ha he (fun _ => hg.spells ht) (hk.exists_spells ht hw)
      cases hf with
      | node ρ hd hadmits hkids =>
        rw [Convertible.stmt, hid] at hd
        cases hd
        have hstmt : ∀ {l r}, ρ a = .expr l r → Undeclared TypeScan.isVarDecl t a →
            ∃ ρ', Admits u ρ' (.exprStmt e) (.stmt false) ∧ Fits u (ρ' e) e := by
          intro l r hρ hd
          obtain ⟨l', r', hfe⟩ := hk.fits_assign ht hu hg he ha
            (hρ ▸ hkids a (List.mem_singleton_self _))
          exact ⟨fun _ => .expr l' r', .exprStmt rfl (hsame TypeScan.isVarDecl_congr hd), hfe⟩
        cases hadmits with
        | exprStmt hρ hd =>
          obtain ⟨ρ', hadmits, hfe⟩ := hstmt hρ hd
          exact .node ρ' hs hadmits (by simpa [Construct.children] using hfe)
        | item hadmits hd =>
          cases hadmits with
          | exprStmt hρ hd' =>
            obtain ⟨ρ', hadmits, hfe⟩ := hstmt hρ hd'
            refine .node ρ' hs (.item hadmits ?_) (by simpa [Construct.children] using hfe)
            rintro e' he'
            cases he'
            exact hsame TypeScan.isFunctionDecl_congr (hd a rfl)
  | @returned stmt value _ k hk hs =>
    refine hboth hs (by simp) (.node (fun _ => .expr closed closed) hs
      (.returnStmt fun e _ => ⟨_, _, rfl⟩) fun j hj => ?_)
    rw [List.mem_singleton.mp hj]
    exact hk.fits ht hu hv
  | @yielded stmt value _ k hk hs =>
    refine hboth hs (by simp) (.node (fun _ => .expr closed closed) hs (.yieldStmt rfl) fun j hj => ?_)
    rw [List.mem_singleton.mp hj]
    exact hk.fits ht hu hv
  | @declaration stmt init _ k w name hk ho hs =>
    refine hboth hs (by simp) (.node (fun _ => .expr closed closed) hs
      (.localDecl (by simp) fun e _ => ⟨_, _, rfl⟩) fun j hj => ?_)
    rw [List.mem_singleton.mp hj]
    exact hk.fits ht hu hv

end Roles

/-! ## 3. Pieces -/

/-- A sort of pieces that only names, types and literals may fail to be. -/
structure Piece.Lenient (P : Piece → Prop) : Prop where
  sign : ∀ k, P (.sign k)
  node : ∀ i, P (.node i)

section Pieces

variable {P : Piece → Prop} {i k : NodeId}

/-- A construct with pieces of a sort, over parts with such pieces. -/
theorem PiecesUnder.intro {cc : Construct} (hc : t.construct? i = some cc) (hp : ∀ p ∈ cc.pieces, P p)
    (hk : ∀ k ∈ cc.children, PiecesUnder t P [k]) : PiecesUnder t P [i] := by
  intro j d hj hd
  rcases SyntaxTree.Under.cases_root hj with rfl | hj
  · rw [hc] at hd
    cases hd
    exact hp
  · rw [SyntaxTree.children_of_construct? hc] at hj
    obtain ⟨k, hmem, hj⟩ := hj.exists_root
    exact hk k hmem j d hj hd

/-- The parts have pieces of the sort of the whole. -/
theorem PiecesUnder.of_under (h : PiecesUnder t P [i]) (hk : t.Under [i] k) : PiecesUnder t P [k] :=
  fun j d hj => h j d (hj.mono fun _ hl => List.mem_singleton.mp hl ▸ hk)

theorem CastsCopy.pieces {value : NodeId} (hP : Piece.Lenient P) (ht : t.WellFormed)
    (h : CastsCopy t u type value k) (hw : P (.type (.ofDataType type)))
    (hv : PiecesUnder t P [value]) : PiecesUnder u P [k] := by
  obtain ⟨v, hcopy, hk⟩ := h
  refine .intro hk ?_ fun j hj => ?_
  · simpa [Construct.pieces, hP.sign, hP.node] using hw
  · rw [List.mem_singleton.mp hj]
    exact hcopy.pieces hP.node ht hv

/-- The value of a convertible statement is a part of it. -/
theorem IsConvertible.under_source (hc : IsConvertible t c) : t.Under [c.stmt] c.source := by
  have hroot : t.Under [c.stmt] c.stmt := .root (List.mem_singleton_self _)
  cases hc with
  | assignment hid he =>
    exact (hroot.slot hid (List.mem_singleton_self _)).slot he
      (by simp [Construct.children, Convertible.source])
  | returned hid | yielded hid | declaration hid =>
    exact hroot.slot hid (by simp [Construct.children, Convertible.source])

/-- **The new statement has the sort of pieces that the old one and the type have.** -/
theorem Recasts.pieces (hP : Piece.Lenient P) (ht : t.WellFormed) (hc : IsConvertible t c)
    (h : Recasts t u type c s) (hw : P (.type (.ofDataType type))) (ho : PiecesUnder t P [c.stmt]) :
    PiecesUnder u P [s] := by
  have hv := ho.of_under hc.under_source
  cases h with
  | @assignment stmt target value _ e g k hk hg he hs =>
    have htarget : t.Under [stmt] target := by
      cases hc with
      | assignment hid ha =>
        exact (SyntaxTree.Under.slot (.root (List.mem_singleton_self _)) hid
          (List.mem_singleton_self _)).slot ha (by simp [Construct.children])
    refine .intro hs (by simp [Construct.pieces, hP.sign, hP.node]) fun j hj => ?_
    rw [List.mem_singleton.mp hj]
    refine .intro he (by simp [Construct.pieces, hP.sign, hP.node]) fun j hj => ?_
    simp only [Construct.children, List.mem_cons, List.not_mem_nil, or_false] at hj
    rcases hj with rfl | rfl
    · exact hg.pieces hP.node ht (ho.of_under htarget)
    · exact hk.pieces hP ht hw hv
  | @returned stmt value _ k hk hs =>
    refine .intro hs (by simp [Construct.pieces, hP.sign, hP.node]) fun j hj => ?_
    rw [List.mem_singleton.mp hj]
    exact hk.pieces hP ht hw hv
  | @yielded stmt value _ k hk hs =>
    refine .intro hs (by simp [Construct.pieces, hP.sign, hP.node]) fun j hj => ?_
    rw [List.mem_singleton.mp hj]
    exact hk.pieces hP ht hw hv
  | @declaration stmt init _ k w name hk hid hs =>
    have hname : P (.name name.name) := ho stmt _ (.root (List.mem_singleton_self _)) hid _
      (by simp [Construct.pieces, Declarator.pieces, Piece.separated])
    refine .intro hs ?_ fun j hj => ?_
    · simpa [Construct.pieces, Declarator.pieces, Piece.separated, hP.sign, hP.node, Ident.synthetic]
        using And.intro hw hname
    · rw [List.mem_singleton.mp hj]
      exact hk.pieces hP ht hw hv

end Pieces

theorem Piece.lenient_writable : Piece.Lenient Piece.Writable := ⟨fun _ => trivial, fun _ => trivial⟩

/-- **The new statement can be written if the old one and the type can.** -/
theorem Recasts.writable (ht : t.WellFormed) (hc : IsConvertible t c) (h : Recasts t u type c s)
    (hw : (WrittenType.ofDataType type).Writable) (ho : WritableUnder t [c.stmt]) :
    WritableUnder u [s] :=
  h.pieces Piece.lenient_writable ht hc hw ho

end Recast
