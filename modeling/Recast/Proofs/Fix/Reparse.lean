/-
# The text and the tree of a fix

A fix edits the text and the tree of a document independently: it prints the new statement over the
bytes of the old one, and puts it into the slot of the old one.  Both edits describe the same program.

* `Converts.nameable`, `Converts.fits`, `Converts.ready`: what is put in place can be written and read;
* `Converts.surrounds`: the statement has a place in the program and in its text, and the new node has
  the same;
* `Converts.lexed`: the new text is read as the tokens of the new tree;
* `fix_reparse`: **the text of a fix is read without errors as a tree of the shape that the fix has.**
-/
import Recast.Proofs.Fix.Statement
import Recast.Proofs.Semantics.Nameable
import Recast.Proofs.Tree.PrintedNode

namespace Recast

open SyntaxTree (Rewrites)
open Text (byteSize)

variable {d : Document} {model : SemanticModel} {c : Convertible} {f : Fix} {n s : NodeId}

/-! ## 1. What is put in place -/

namespace Converts

theorem inTree_source (h : Converts d model c f n s) : d.tree.InTree c.source :=
  h.convertible.under_source.mono fun k hk => by
    rw [List.mem_singleton.mp hk]
    exact h.rewrites.inTree

theorem inTree_target (h : Converts d model c f n s) {target : NodeId}
    (ht : c.target? = some target) : d.tree.InTree target := by
  have hin := h.rewrites.inTree
  cases h.convertible with
  | assignment hid he =>
    cases ht
    exact (hin.slot hid (List.mem_singleton_self _)).slot he (by simp [Construct.children])
  | returned _ | yielded _ | declaration _ => cases ht

/-- The old statement is not an expression. -/
theorem not_isExpression (h : Converts d model c f n s) : d.tree.isExpression c.stmt = false := by
  cases h.convertible with
  | assignment hid _ | returned hid | yielded hid | declaration hid =>
    simp [Convertible.stmt, SyntaxTree.isExpression, hid, Construct.isExpression]

/-- **The type of the cast can be named in the program**, if it is not that of `null`. -/
theorem nameable (h : Converts d (Analysis.ofTree d.tree).model c f n s)
    (hnull : f.request.destinationType ≠ .null) : Nameable d.tree f.request.destinationType := by
  have hrooted : d.tree.Rooted := by
    rw [h.tree_eq]
    exact parseLenient_rooted d.text
  have hin : TypesIn d.tree (Nameable d.tree) := by
    rw [h.tree_eq]
    exact parseLenient_typesIn d.text
  have htypes := h.requested.types
  split at htypes
  · rename_i target ht
    obtain ⟨-, info, -, hinfo, -, hd⟩ := htypes
    rw [hd] at hnull ⊢
    exact (hin.typeInfo hrooted (h.inTree_target ht) hinfo).1.resolve_left hnull
  · obtain ⟨info, hinfo, -, hd⟩ := htypes
    rw [hd] at hnull ⊢
    exact (hin.typeInfo hrooted h.inTree_source hinfo).2.resolve_left hnull

section

variable (h : Converts d model c f n s) (hw : (WrittenType.ofDataType f.request.destinationType).Writable)
include h hw

/-- **The new node fits the roles of the old statement.** -/
theorem fits (role : Role) (hf : Fits d.tree role c.stmt) : Fits f.document.tree role n := by
  have hs : ∀ {role}, Fits d.tree role c.stmt → Fits f.document.tree role s := fun hf =>
    h.recasts.fits h.rewrites.before h.rewrites.after h.convertible hw hf
  obtain ⟨p, -, ⟨-, -, rfl⟩ | ⟨-, -, hn⟩⟩ := h.placed
  · exact hs hf
  · obtain ⟨hstmt, hrole⟩ := h.convertible.fits_stmt hf
    have hblock : Fits f.document.tree (.stmt false) n := by
      refine .node (fun _ => .stmt false) hn (.block fun k _ => ⟨false, rfl⟩) fun k hk => ?_
      rw [List.mem_singleton.mp hk]
      exact hs hstmt
    rcases hrole with rfl | rfl
    · exact hblock
    · exact hblock.item_of_stmt hn (by simp)

/-- **The new node can be written** if the old statement can. -/
theorem ready (ho : WritableUnder d.tree [c.stmt]) : Ready f.document.tree [n] := by
  have hs := h.recasts.writable h.rewrites.before h.convertible hw ho
  refine ⟨?_, fun i cc hi hc k hk => ?_⟩
  · obtain ⟨p, -, ⟨-, -, rfl⟩ | ⟨-, -, hn⟩⟩ := h.placed
    · exact hs
    · refine PiecesUnder.intro hn (by simp [Construct.pieces, Piece.Writable]) fun k hk => ?_
      rw [List.mem_singleton.mp hk]
      exact hs
  · refine (h.rewrites.fresh i hi).2 k ?_
    rwa [SyntaxTree.children_of_construct? hc]

end

end Converts

/-! ## 2. The text -/

theorem Text.mem_of_mem_lastLine {cs : List Char} {c : Char} (h : c ∈ lastLine cs) : c ∈ cs := by
  rw [lastLine, List.mem_reverse] at h
  exact List.mem_reverse.mp (List.takeWhile_sublist _ |>.subset h)

/-- A text is cut at two places in one way. -/
theorem Text.eq_of_byteSize_eq {cs b o a b' o' a' : List Char} (h : cs = b ++ (o ++ a))
    (h' : cs = b' ++ (o' ++ a')) (hb : byteSize b = byteSize b')
    (ho : byteSize (b ++ o) = byteSize (b' ++ o')) : b = b' ∧ a = a' := by
  have hcut := splitAtByte?_eq_some_iff.mpr ⟨h.symm, rfl⟩
  rw [splitAtByte?_eq_some_iff.mpr ⟨h'.symm, hb.symm⟩] at hcut
  rw [← List.append_assoc] at h h'
  have hcut' := splitAtByte?_eq_some_iff.mpr ⟨h.symm, rfl⟩
  rw [splitAtByte?_eq_some_iff.mpr ⟨h'.symm, ho.symm⟩] at hcut'
  exact ⟨(Prod.mk.inj (Option.some.inj hcut)).1.symm, (Prod.mk.inj (Option.some.inj hcut')).2.symm⟩

/-- The text of the node that takes the place of a statement, indented as the line of the statement. -/
def Fix.inserted (f : Fix) (before : List Char) (n : NodeId) : List Char :=
  Document.indentLines ((Text.lastLine before).takeWhile Text.isBlank)
    (f.document.tree.printNode n).toList

/-- The place of the statement `o` in a document, and of the node `n` in the text of a fix: the tokens
and the characters that stand before and after it. -/
structure Surrounds (d : Document) (f : Fix) (o n : NodeId) (front back : List Token)
    (before after : List Char) : Prop where
  kind_ne_error : ∀ a ∈ front ++ back, a.kind ≠ .error
  cut : ∃ old, d.text.toList = before ++ (old ++ after)
  offset_eq : (d.tree.spanOf o).offset = byteSize before
  text_eq : f.document.text.toList = before ++ (f.inserted before n ++ after)
  lexes_after : Lexes after back
  /-- Whatever the new text and what follows it are read as, the whole is read so, after the tokens
  that stood before the statement. -/
  lexed : ∀ ts, Solid (f.document.tree.printNode n) →
    (∀ stmts, f.document.tree.construct? n = some (.block stmts) →
      (f.document.tree.printNode n).toList.head? = some '\x7b') →
    Lexes (f.inserted before n ++ after) ts → ∃ toks stop rest,
      Lexed .start f.document.text.toList (front ++ toks) stop rest ∧ Spent rest ∧
        toks.map Token.bare = ts.map Token.bare

/-- **The statement has a place in the program and in its text**, and the new node has the same. -/
theorem Converts.surrounds (h : Converts d model c f n s) (herr : (parseLenient d.text).2 = []) :
    ∃ items role front back before after, d.tree.construct? d.tree.root = some (.unit items) ∧
      (∀ id ∈ items, Fits d.tree .item id) ∧ Fits d.tree role c.stmt ∧
      Surrounds d f c.stmt n front back before after ∧
      ∀ vs, Spells f.document.tree Anywhere [.node n] vs → Spells f.document.tree Anywhere
        ((Construct.unit items).mapNodes (substNode c.stmt n)).pieces (front ++ (vs ++ back)) := by
  obtain ⟨toks, stop, rest, items, ts, hlex, hspent, hroot, hs, hall, -, hok, hnone⟩ :=
    parseLenient_sound d.text
  obtain rfl := hnone herr
  rw [← h.tree_eq] at hroot hs hall
  have hunder : d.tree.Under (d.tree.children d.tree.root) c.stmt := by
    rcases SyntaxTree.Under.cases_root h.rewrites.inTree with he | hu
    · exact absurd he h.rewrites.not_root
    · exact hu
  -- the statement in its context, in the tree and in the text
  obtain ⟨q, cc, qs, rs, front, before, us, after, hq, hcc, hps, hfront, hbefore, hus, rfl, hput⟩ :=
    h.rewrites.spells_around hroot hs hunder (.root (List.mem_singleton_self _))
  obtain ⟨cs, hcs, -, hplaced⟩ := Spells.node_iff.mp hus
  have hspan : d.tree.spanOf c.stmt = cover us := hplaced
  obtain ⟨role, hrole⟩ := Fits.of_under (fun k hk => ⟨.item, hall k hk⟩)
    (SyntaxTree.children_of_construct? hroot ▸ hunder)
  have hne : us ≠ [] := hus.node_ne_nil hrole.construct?_ne_unit
  rw [← List.append_assoc] at hlex hok
  obtain ⟨b, o, a, htext, hoff, hstop, hafter, hreplace⟩ := hlex.replace hspent hne
    fun x hx => hok x (by
      rw [← List.append_assoc]
      exact List.mem_append_left _ hx)
  obtain ⟨b', o', a', htext', -, hoff', hstop', hnew⟩ := h.text_eq
  have hstart : Position.start.offset = 0 := rfl
  rw [hstart, Nat.zero_add] at hoff hstop
  rw [← hspan] at hoff hstop
  obtain ⟨rfl, rfl⟩ := Text.eq_of_byteSize_eq htext htext' (hoff.symm.trans hoff')
    (hstop.symm.trans hstop')
  have hchars : f.document.text.toList = b ++ (f.inserted b n ++ a) := by
    rw [hnew]
    simp [Document.replacementText, Fix.inserted, Text.join, Text.joinTail]
  rw [substNode_self] at hput
  refine ⟨items, role, front ++ before, after, b, a, hroot, hall, hrole,
    ⟨fun x hx => hok x ?_, ⟨o, htext⟩, hoff, hchars, hafter, fun ts hsolid hbrace hts => ?_⟩,
    fun vs hvs => ?_⟩
  · rcases List.mem_append.mp hx with hx | hx
    · exact List.mem_append_left _ hx
    · exact List.mem_append_right _ (List.mem_append_right _ hx)
  · -- what comes before the statement is shut, and a block starts with a brace
    have hshut : ∀ x, (front ++ before).getLast? = some x → x.Shuts (f.inserted b n ++ a) := by
      intro x hx
      have hqin : d.tree.InTree q := h.rewrites.before.inTree_parent h.rewrites.inTree hq
      rcases hbefore.before_stmt_of_program hroot hall hqin hcc hps hfront
        (fun role hr => (h.convertible.fits_stmt hr).2.imp_left fun he => ⟨false, he⟩) x hx with
        hdelim | ⟨hblock, hkey⟩
      · exact .inl hdelim
      · refine .inr ⟨hkey, fun ch hch => ?_⟩
        obtain ⟨p, hp, hplace⟩ := h.placed
        rw [hq] at hp
        cases hp
        have hno : d.tree.isBlock q = false := by
          rw [SyntaxTree.isBlock, hcc]
          exact hblock
        rcases hplace with ⟨hyes, -⟩ | ⟨-, -, hn⟩
        · rw [hno] at hyes
          cases hyes
        · rw [Fix.inserted, List.head?_append, head?_indentLines, hbrace _ hn] at hch
          cases hch
          decide
    obtain ⟨toks, stop', rest', hlex', hspent', hbare⟩ := hreplace _ _ (hsolid.opens _ a) hts hshut
    exact ⟨toks, stop', rest', hchars ▸ hlex', hspent', hbare⟩
  · rw [List.append_assoc]
    exact hput vs hvs

/-- **The new text is read as the tokens of the new tree.** -/
theorem Converts.lexed (h : Converts d model c f n s) (herr : (parseLenient d.text).2 = [])
    (hblank : ∀ ch ∈ d.text.toList, Text.isBlank ch = true → Text.isAsciiBlank ch = true)
    (hfits : ∀ role, Fits d.tree role c.stmt → Fits f.document.tree role n)
    (hready : Ready f.document.tree [n]) :
    ∃ items toks stop rest, d.tree.construct? d.tree.root = some (.unit items) ∧
      (∀ id ∈ items, Fits d.tree .item id) ∧
      Lexed .start f.document.text.toList toks stop rest ∧ Spent rest ∧
      Spells f.document.tree Anywhere
        ((Construct.unit items).mapNodes (substNode c.stmt n)).pieces toks := by
  obtain ⟨items, role, front, back, before, after, hroot, hall, hrole, hplace, hput⟩ :=
    h.surrounds herr
  obtain ⟨⟨vs, hvs, hprints⟩, hsolid, hbrace⟩ :=
    SyntaxTree.printed_node (hfits _ (h.convertible.fits_stmt hrole).1) hready
  have hindent : Blanks ((Text.lastLine before).takeWhile Text.isBlank) := by
    obtain ⟨old, htext⟩ := hplace.cut
    intro ch hch
    refine hblank ch ?_ (List.all_eq_true.mp List.all_takeWhile ch hch)
    rw [htext]
    exact List.mem_append_left _
      (Text.mem_of_mem_lastLine (List.takeWhile_sublist _ |>.subset hch))
  have hreads := hprints.reads hindent (by simp) hplace.lexes_after
  obtain ⟨toks, stop, rest, hlex, hspent, hbare⟩ := hplace.lexed _ hsolid hbrace hreads.2
  refine ⟨items, front ++ toks, stop, rest, hroot, hall, hlex, hspent, (hput vs hvs).of_bare ?_⟩
  have hsame := congrArg (front.map Token.bare ++ ·) hbare.symm
  simpa [Token.SameBare] using hsame

/-! ## 3. Both edits -/

/-- **The text of a fix is read without errors as a tree of the shape that the fix has.**  The document
was read without errors, with no other blanks than those between tokens; the type that is cast to is
not that of `null`, and no floating-point literal is written again. -/
theorem fix_reparse {name text : String} {d : Document} (hd : Document.parse name text = .ok d)
    (hblank : ∀ ch ∈ text.toList, Text.isBlank ch = true → Text.isAsciiBlank ch = true)
    {diagnostic : Diagnostic} {point : CancelPoint} {a a' : Activity} {f : Fix}
    (h : FixProvider.casting.fix d diagnostic point a = (.ok (some f), a'))
    (hnull : f.request.destinationType ≠ .null)
    (hexact : ∀ i v, d.tree.Under [f.replaced] i → d.tree.construct? i = some (.literal v) →
      v.isExact = true) :
    ∃ d', f.document.reparse = .ok d' ∧
      SameShape f.document.tree d'.tree [f.document.tree.root] [d'.tree.root] := by
  obtain ⟨c, produced, working, hfound⟩ := fix_eq_ok h
  obtain ⟨n, s, hc⟩ := hfound.converts (.parse hd)
  obtain ⟨herr, htext⟩ : (parseLenient d.text).2 = [] ∧ d.text = text := by
    obtain ⟨herr, he⟩ := Document.parse_eq_ok_iff.mp hd
    rw [he]
    exact ⟨herr, rfl⟩
  rw [← htext] at hblank
  have hw := (hc.nameable hnull).writable
  have hold : WritableUnder d.tree [c.stmt] := by
    have hstmt : f.replaced = c.stmt := hfound.requested.stmt
    have hin := hc.rewrites.inTree
    rw [hstmt] at hexact
    rw [hc.tree_eq] at hin hexact ⊢
    exact (parseLenient_ready d.text (by simpa using hin) hexact).writable
  obtain ⟨items, toks, stop, rest, hroot, hall, hlex, hspent, hs⟩ :=
    hc.lexed herr hblank (hc.fits hw) (hc.ready hw hold)
  have hunit := hc.rewrites.construct_eq _ _ hc.rewrites.kept_root hroot
  have hitem : ∀ id ∈ items.map (substNode c.stmt n), Fits f.document.tree .item id := by
    intro id hid
    obtain ⟨k, hk, rfl⟩ := List.mem_map.mp hid
    by_cases hko : k = c.stmt
    · subst hko
      rw [substNode_self]
      exact hc.fits hw _ (hall _ hk)
    · rw [substNode_of_ne hko]
      refine hc.rewrites.fits hc.not_isExpression (hc.fits hw) (hall k hk) ?_
      refine hc.rewrites.kept_child hc.rewrites.kept_root ?_ hko
      rwa [SyntaxTree.children_of_construct? hroot]
  obtain ⟨hnone, hshape⟩ := parseLenient_of_spells hunit hitem hlex hspent
    (hs.kind_ne_error (by simp [Construct.pieces, Construct.mapNodes])) hs
  have hd' := Document.reparse_eq_ok_iff.mpr ⟨hnone, rfl⟩
  rw [← hc.rewrites.root_eq] at hshape
  generalize (parseLenient f.document.text).1 = tree at hd' hshape
  exact ⟨_, hd', hshape⟩

end Recast
