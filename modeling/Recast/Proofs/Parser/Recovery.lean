/-
# One bad statement hides nothing else

A statement that cannot be read is reported once and skipped up to its semicolon.  What stands before
it is read as if nothing came after it, and what stands after it is read as if nothing came before it.

* `item_spells`, `items_spell`: what is read without errors is spelled by the tokens that were read,
  whatever their places are, since the parser is in step with itself at places that are in order;
* `itemsUntilEnd_append`: **items that were read without errors are read again before other items**;
* `item_fails`: whether a statement fails does not depend on what comes after its semicolon;
* `itemsUntilEnd_skips`: **after a statement that fails, reading goes on after its semicolon**;
* `parseTokens_skips_statement`: the items before and after a bad statement are those that are read
  without it, and its error comes before those of what follows.
-/
import Recast.Proofs.Parser.Fence
import Recast.Proofs.Parser.Lockstep
import Recast.Proofs.Parser.RereadProgram

namespace Recast

open SyntaxTree

/-! ## 1. Tokens of a parse -/

/-- The parser in front of some tokens of a text, of which nothing has been read. -/
def Parser.ofTokens (tokens : List Token) (endSpan : Span) (textSize : Nat) : Parser where
  tokens := tokens
  endSpan := endSpan
  lastSpan := (tokens.head?.map Token.span).getD endSpan
  textSize := textSize
  tree := .empty
  errors := []

/-- The tree of everything that can be read of some tokens, and the errors of the parser. -/
def parseTokens (tokens : List Token) (endSpan : Span) (textSize : Nat) :
    SyntaxTree × List ParseError :=
  let p := (Parse.program (Parser.ofTokens tokens endSpan textSize)).2
  (p.tree, p.errors)

/-- A text is read by its tokens. -/
theorem parseLenient_eq_parseTokens {text : String} (h : (tokenize text).2 = []) :
    parseLenient text = parseTokens (Parser.ofText text).tokens (Parser.ofText text).endSpan
      (Text.byteSize text.toList) := by
  have hp : Parser.ofText text = Parser.ofTokens (Parser.ofText text).tokens
      (Parser.ofText text).endSpan (Text.byteSize text.toList) := by
    simp [Parser.ofText, Parser.ofLexed, Parser.ofTokens, h]
  rw [parseLenient, parseTokens, ← hp]
  generalize Parse.program (Parser.ofText text) = result
  rfl

/-- What is made of some tokens: their items, and their node as the root. -/
theorem parseTokens_apply (tokens : List Token) (endSpan : Span) (textSize : Nat) :
    ∃ items q, Parse.itemsUntilEnd Parse.item (.ofTokens tokens endSpan textSize) = (.ok items, q) ∧
      (parseTokens tokens endSpan textSize).2 = q.errors ∧
      (parseTokens tokens endSpan textSize).1 =
        { (q.tree.alloc (.unit items) ⟨0, q.textSize, 1, 1⟩).2 with root := q.tree.size } := by
  obtain ⟨items, q, hi, he, ht⟩ := Parse.program_apply (.ofTokens tokens endSpan textSize)
  refine ⟨items, q, hi, ?_⟩
  rw [← he, ← ht]
  exact ⟨rfl, rfl⟩

/-! ## 2. Places in order -/

/-- The tokens at places one after another from `n` on. -/
def Token.spread : Nat → List Token → List Token
  | _, [] => []
  | n, t :: ts => { t with span := ⟨n, 1, 1, 1⟩ } :: spread (n + 1) ts

theorem Token.sameBare_spread : ∀ (n : Nat) (ts : List Token), SameBare ts (spread n ts)
  | _, [] => rfl
  | n, t :: ts => congrArg (t.bare :: ·) (sameBare_spread (n + 1) ts)

theorem Token.le_offset_of_mem_spread : ∀ {n : Nat} {ts : List Token} {a : Token},
    a ∈ spread n ts → n ≤ a.span.offset ∧ a.span.len = 1
  | n, t :: ts, a, h => by
    rcases List.mem_cons.mp h with rfl | h
    · exact ⟨Nat.le_refl n, rfl⟩
    · obtain ⟨hle, hlen⟩ := le_offset_of_mem_spread h
      exact ⟨Nat.le_of_succ_le hle, hlen⟩

theorem Token.ordered_spread : ∀ (n : Nat) (ts : List Token), Ordered (spread n ts)
  | _, [] => ⟨by simp [spread], .nil⟩
  | n, t :: ts => by
    obtain ⟨hlen, hapart⟩ := ordered_spread (n + 1) ts
    constructor
    · intro a ha
      rw [(le_offset_of_mem_spread ha).2]
      exact Nat.zero_lt_one
    · exact .cons (fun a ha => (le_offset_of_mem_spread ha).1) hapart

/-- Every parser is in step with itself at places that are in order. -/
theorem Parser.exists_ordered (p : Parser) : ∃ p' : Parser, Ordered p'.tokens ∧
    p'.errors = p.errors ∧ InStep ⟨0, p.errors, p.errors⟩ p p' :=
  ⟨{ p with tokens := Token.spread 0 p.tokens }, Token.ordered_spread 0 p.tokens, rfl,
    .of_sameBare (Token.sameBare_spread 0 p.tokens)⟩

namespace Parse

/-! ## 3. What is read without errors -/

section Spelled

variable {p q : Parser} {id : NodeId} {ids : List NodeId}

/-- What the same parser has read at other places, without errors, was read here. -/
theorem spells_of_got {p' q' : Parser} {ps : List Piece} {us : List Token}
    (hg : Got false p' ps us q') (hp : Parser.InStep ⟨0, p.errors, p.errors⟩ p p')
    (hp' : p'.errors = p.errors) (hq : Parser.InStep ⟨0, p.errors, p.errors⟩ q q')
    (hsuf : q.tokens <:+ p.tokens) (he : q.errors = p.errors) :
    ∃ ts, p.tokens = ts ++ q.tokens ∧ Spells q'.tree Anywhere ps ts := by
  have hclean : q'.errors = p'.errors := (hq.errors_eq he).trans hp'.symm
  have htokens := hp.tokens
  rw [(hg.whole (.inr hclean)).1] at htokens
  obtain ⟨ts, rest, hts, hus, hrest⟩ := htokens.symm.append_left
  have hlen : q.tokens.length = rest.length := by
    rw [← hq.tokens.length_eq, hrest.length_eq]
  have heq : q.tokens = rest :=
    (List.suffix_of_suffix_length_le hsuf ⟨ts, hts.symm⟩ (Nat.le_of_eq hlen)).eq_of_length hlen
  rw [heq]
  exact ⟨ts, hts, hg.spells.of_bare hus⟩

/-- An item that is read without errors is spelled by its tokens. -/
theorem item_spells (h : item p = (.ok id, q)) (he : q.errors = p.errors) :
    ∃ t id' ts, p.tokens = ts ++ q.tokens ∧ Fits t .item id' ∧ Spells t Anywhere [.node id'] ts := by
  obtain ⟨p', hordered, hp', hpp⟩ := p.exists_ordered
  obtain ⟨hres, hstep⟩ := lockstep_item p p' hpp
  rcases hi : item p' with ⟨r, q'⟩
  rw [h, hi] at hres hstep
  cases hres with
  | ok hid =>
    obtain ⟨us, -, hg, hf⟩ := item_sound hordered hi
    have hsuf := (eats_item p (Nat.le_refl _)).1.2
    rw [h] at hsuf
    obtain ⟨ts, hts, hs⟩ := spells_of_got hg hpp hp' hstep hsuf he
    exact ⟨q'.tree, _, ts, hts, hf, hs⟩

/-- Items that are read without errors up to the end are spelled by all tokens. -/
theorem items_spell (h : itemsUntilEnd item p = (.ok ids, q)) (he : q.errors = p.errors) :
    ∃ (t : SyntaxTree) (ids' : List NodeId), (∀ id ∈ ids', Fits t .item id) ∧
      Spells t Anywhere (ids'.map .node) p.tokens := by
  obtain ⟨p', hordered, hp', hpp⟩ := p.exists_ordered
  obtain ⟨hres, hstep⟩ := lockstep_itemsUntilEnd p p' hpp
  rcases hi : itemsUntilEnd item p' with ⟨r, q'⟩
  rw [h, hi] at hres hstep
  cases hres with
  | @ok _ ids' hids =>
    obtain ⟨us, hg, hall, -⟩ := itemsTo_sound (fun t id => Fits t .item id)
      (fun he h => h.extends he) builds_item (fun p q id ho h => item_sound ho h) hordered hi
    have hend : q.tokens = [] := by
      have := tokens_itemsUntilEnd (fun _ => eats_item) p
      rwa [h] at this
    have hsuf : q.tokens <:+ p.tokens := by
      rw [hend]
      exact List.nil_suffix
    obtain ⟨ts, hts, hs⟩ := spells_of_got hg hpp hp' hstep hsuf he
    rw [hend, List.append_nil] at hts
    rw [hts]
    exact ⟨q'.tree, ids', hall, hs⟩

end Spelled

/-! ## 4. Items one after another -/

section Items

variable {t : SyntaxTree} {p q : Parser} {id : NodeId} {ids : List NodeId} {ts rest : List Token}

theorem itemsUntilEnd_unfold (p : Parser) :
    itemsUntilEnd item p = itemsWith false item (itemsUntilEnd item) p :=
  ((settles_items false fun _ => eats_item).unfolds _ p (Nat.le_refl _)).1.symm

theorem itemsUntilEnd_of_ok {r : Parser} (hne : p.tokens ≠ []) (h : item p = (.ok id, q))
    (hr : itemsUntilEnd item q = (.ok ids, r)) : itemsUntilEnd item p = (.ok (id :: ids), r) := by
  have hopen : closed false p = false := by simp [closed, hne]
  rw [itemsUntilEnd_unfold, itemsWith_of_open hopen, turn, h]
  exact bind_of_ok hr

theorem itemsUntilEnd_of_error {e : ParseError} (hne : p.tokens ≠ []) (h : item p = (.error e, q)) :
    itemsUntilEnd item p = itemsUntilEnd item (recover p.tokens.length e q) := by
  have hopen : closed false p = false := by simp [closed, hne]
  rw [itemsUntilEnd_unfold, itemsWith_of_open hopen, turn, h]

theorem startsItem_of_fits_item (h : Fits t .item id) (hs : Spells t Anywhere [.node id] ts) :
    (Parser.headKind ts).startsItem = true :=
  (item_rebuilds (p := .ofTokens ts default 0) h hs (List.append_nil ts).symm fun _ => by simp).2

/-- Neither an item nor the end of the items is an `else`. -/
theorem headKind_items_ne_else (hall : ∀ id ∈ ids, Fits t .item id)
    (hs : Spells t Anywhere (ids.map .node) ts) (hrest : Parser.headKind rest ≠ .elseWord) :
    Parser.headKind (ts ++ rest) ≠ .elseWord := by
  cases ids with
  | nil =>
    rw [Spells.nil_iff.mp hs]
    exact hrest
  | cons id ids =>
    obtain ⟨us, vs, rfl, hus, -⟩ := Spells.node_cons_iff.mp hs
    have hstart := startsItem_of_fits_item (hall id (by simp)) hus
    have hne : us ≠ [] := by
      rintro rfl
      cases hstart
    rw [List.append_assoc, Parser.headKind_append hne]
    intro he
    rw [he] at hstart
    cases hstart

/-- **Items are read again before other items**, with the same shapes. -/
theorem itemsUntilEnd_append : ∀ {ids : List NodeId} {ts : List Token} {p : Parser},
    (∀ id ∈ ids, Fits t .item id) → Spells t Anywhere (ids.map .node) ts → p.tokens = ts ++ rest →
    Parser.headKind rest ≠ .elseWord → ∃ ids' q, Consumed p ts q ∧ SameShape t q.tree ids ids' ∧
      ∀ more r, itemsUntilEnd item q = (.ok more, r) →
        itemsUntilEnd item p = (.ok (ids' ++ more), r)
  | [], ts, p, _, hs, hp, _ => by
    rw [Spells.nil_iff.mp hs] at hp ⊢
    exact ⟨[], p, .refl p, .nil, fun more r hr => hr⟩
  | id :: ids, ts, p, hall, hs, hp, hrest => by
    obtain ⟨us, vs, rfl, hus, hvs⟩ := Spells.node_cons_iff.mp hs
    rw [List.append_assoc] at hp
    have hids : ∀ k ∈ ids, Fits t .item k := fun k hk => hall k (List.mem_cons_of_mem _ hk)
    have helse := headKind_items_ne_else hids hvs hrest
    obtain ⟨⟨id', q, hx, hcons, hshape⟩, hstart⟩ :=
      item_rebuilds (hall id (by simp)) hus hp fun _ => helse
    obtain ⟨ids', r, hcons', hshape', hmore⟩ :=
      itemsUntilEnd_append hids hvs (hcons.tokens_eq hp) hrest
    have hne : p.tokens ≠ [] := by
      intro hn
      rw [hp] at hn
      rw [(List.append_eq_nil_iff.mp hn).1] at hstart
      cases hstart
    refine ⟨id' :: ids', r, hcons.trans hcons', ?_, fun more s hs => ?_⟩
    · exact (hshape.mono (.refl _) hcons'.tree).append hshape'
    · exact itemsUntilEnd_of_ok hne hx (hmore more s hs)

end Items

/-! ## 5. The statement that fails -/

section Bad

variable {p q : Parser} {g after : List Token} {semi : Token} {e : ParseError}

/-- The tokens of one statement without its semicolon: none of them is a semicolon or a brace, and
it is no condition, no loop and no `else`. -/
structure SimpleStatement (g : List Token) : Prop where
  nonempty : g ≠ []
  inner : ∀ a ∈ g, a.kind.isInner = true
  head : Parser.headKind g ∉ [.ifWord, .whileWord, .doWord, .elseWord]

theorem SimpleStatement.headKind_ne (h : SimpleStatement g) : Parser.headKind g ≠ .semicolon := by
  obtain ⟨a, us, rfl⟩ := List.exists_cons_of_ne_nil h.nonempty
  have ha := h.inner a (by simp)
  intro hk
  rw [Parser.headKind_cons] at hk
  rw [hk] at ha
  cases ha

theorem SimpleStatement.endsAt_item (h : SimpleStatement g) (hsemi : semi.kind = .semicolon)
    (hp : p.tokens = g ++ semi :: after) : EndsAt (semi :: after) p.errors p item := by
  have hkind : p.peek.kind = Parser.headKind g := by
    rw [Parser.kind_peek, hp, Parser.headKind_append h.nonempty]
  have hne := h.headKind_ne
  have hhead := h.head
  rw [← hkind] at hhead hne
  simp only [List.mem_cons, List.not_mem_nil, or_false, not_or] at hhead
  exact Parse.endsAt_item ⟨hsemi, ⟨g, hp, h.inner⟩, rfl⟩ hne hhead.1 hhead.2.1 hhead.2.2.1

/-- **Whether a statement can be read does not depend on what comes after its semicolon.** -/
theorem item_fails (h : SimpleStatement g) (hsemi : semi.kind = .semicolon) {p₀ : Parser}
    {after₀ : List Token} (hp₀ : p₀.tokens = g ++ semi :: after₀) {e₀ : ParseError}
    (hfail : (item p₀).1 = .error e₀) (hp : p.tokens = g ++ semi :: after) :
    ∃ e q, item p = (.error e, q) := by
  rcases hi : item p with ⟨e | id, q⟩
  · exact ⟨e, q, rfl⟩
  · have hends := h.endsAt_item hsemi hp
    unfold EndsAt at hends
    rw [hi] at hends
    obtain ⟨t, id', ts, hts, hf, hs⟩ := item_spells hi hends.2
    have hq : q.tokens = after := hends.1
    rw [hp, hends.1, List.append_cons] at hts
    obtain rfl := List.append_cancel_right hts
    rw [List.append_cons] at hp₀
    have hhead : Parser.headKind (g ++ [semi]) = Parser.headKind g :=
      Parser.headKind_append h.nonempty _
    have helse : Parser.headKind (g ++ [semi]) = .ifWord ∨
        Parser.headKind (g ++ [semi]) = .whileWord → Parser.headKind after₀ ≠ .elseWord := by
      intro hdangling
      rw [hhead] at hdangling
      exact absurd h.head (by rcases hdangling with hk | hk <;> simp [hk])
    obtain ⟨⟨id₀, q₀, hok, -, -⟩, -⟩ := item_rebuilds hf hs hp₀ helse
    rw [hok] at hfail
    cases hfail

/-- The rest of a statement is skipped with its semicolon. -/
theorem skipStatement_append (hsemi : semi.kind = .semicolon) : ∀ {us : List Token} {last : Span},
    (∀ a ∈ us, a.kind.isInner = true) → (skipStatement (us ++ semi :: after) last).1 = after
  | [], last, _ => by
    rw [List.nil_append, skipStatement, if_pos hsemi]
  | a :: us, last, h => by
    have ha := h a (by simp)
    have hne : a.kind ≠ .semicolon := fun hk => by rw [hk] at ha; cases ha
    have hne' : a.kind ≠ .rightBrace := fun hk => by rw [hk] at ha; cases ha
    rw [List.cons_append, skipStatement, if_neg hne, if_neg hne']
    exact skipStatement_append hsemi fun b hb => h b (by simp [hb])

/-- **What is left of a statement is skipped with its semicolon**, if there is any. -/
theorem synchronize_of_fenced {es : List ParseError} {before : Nat}
    (h : Fenced (semi :: after) es q)
    (hne : q.tokens.length = before → Parser.headKind q.tokens ≠ .semicolon) :
    (synchronize before q).2.tokens = after ∧ (synchronize before q).2.errors = es ∧
      (synchronize before q).2.tree = q.tree := by
  obtain ⟨us, hus, hinner⟩ := h.tokens
  by_cases hl : q.tokens.length = before
  · -- nothing was read: one token is skipped in any case, and it is not the semicolon
    cases us with
    | nil =>
      rw [hus] at hl hne
      exact absurd h.fence (hne hl)
    | cons a us =>
      have hadv : advance q = (.ok a, q.read [a] (us ++ semi :: after)) := advance_of_eq_cons hus
      simp only [synchronize, bind_apply, get_apply, hl, if_true, hadv, modify_apply]
      exact ⟨skipStatement_append h.fence fun b hb => hinner b (by simp [hb]), h.errors, rfl⟩
  · simp only [synchronize, bind_apply, get_apply, hl, if_false, modify_apply]
    rw [hus]
    exact ⟨skipStatement_append h.fence hinner, h.errors, trivial⟩

/-- **After a statement that fails, reading goes on after its semicolon**, with one more error. -/
theorem itemsUntilEnd_skips (h : SimpleStatement g) (hsemi : semi.kind = .semicolon)
    (hp : p.tokens = g ++ semi :: after) (hi : item p = (.error e, q)) :
    ∃ r, itemsUntilEnd item p = itemsUntilEnd item r ∧ r.tokens = after ∧
      r.errors = p.errors ++ [e] ∧ p.tree.Extends r.tree := by
  have hends := h.endsAt_item hsemi hp
  unfold EndsAt at hends
  rw [hi] at hends
  have hrec : recover p.tokens.length e q =
      (synchronize p.tokens.length { q with errors := q.errors ++ [e] }).2 := by
    simp [recover, bind_apply, record]
  have hsuf := (eats_item p (Nat.le_refl _)).1.2
  rw [hi] at hsuf
  have hunread : q.tokens.length = p.tokens.length → Parser.headKind q.tokens ≠ .semicolon := by
    intro hlen
    rw [hsuf.eq_of_length hlen, hp, Parser.headKind_append h.nonempty]
    exact h.headKind_ne
  have hfenced : Fenced (semi :: after) (p.errors ++ [e]) { q with errors := q.errors ++ [e] } :=
    ⟨hends.fence, hends.tokens, congrArg (· ++ [e]) hends.errors⟩
  obtain ⟨htokens, herrors, htree⟩ := synchronize_of_fenced hfenced hunread
  rw [← hrec] at htokens herrors htree
  have hext := (builds_item 0 p (pending_nil (Nat.zero_le _))).1.tree
  rw [hi] at hext
  refine ⟨recover p.tokens.length e q, ?_, htokens, herrors, ?_⟩
  · exact itemsUntilEnd_of_error (by simp [hp]) hi
  · rw [htree]
    exact hext

end Bad

end Parse

/-! ## 6. What comes after it -/

/-- A parser that has read something is in step with one that starts at the same tokens. -/
theorem Parser.inStep_ofTokens (r : Parser) (endSpan : Span) (textSize : Nat) :
    InStep ⟨r.tree.size, [], r.errors⟩ (.ofTokens r.tokens endSpan textSize) r where
  tokens := rfl
  size := (Nat.zero_add _).symm
  constructs i := by
    have hnone : r.tree.construct? (i + r.tree.size) = none :=
      construct?_eq_none_iff.mpr (Nat.le_add_left _ _)
    rw [hnone]
    exact .none
  parents i := parent?_of_size_le (Nat.le_add_left _ _)
  errors := ⟨[], [], rfl, (List.append_nil _).symm, .nil⟩

/-- Forests that were built in step have the same shapes. -/
theorem Parser.InStep.sameShape {o : Offset} {p q : Parser} (h : InStep o p q) {lo hi : Nat}
    {ids : List NodeId} (hg : Grown p.tree lo hi ids) :
    SameShape p.tree q.tree ids (ids.map (· + o.nodes)) := by
  induction hg with
  | nil _ => exact .nil
  | @cons _ _ id _ c hc _ _ _ ih₁ ih₂ =>
    have hnode := h.constructs id
    rw [hc] at hnode
    cases hd : q.tree.construct? (id + o.nodes) with
    | none =>
      rw [hd] at hnode
      cases hnode
    | some d =>
      rw [hd] at hnode
      cases hnode with
      | some hcd =>
        refine .cons hc hd hcd.outline ?_ ih₂
        rw [hcd.children]
        exact ih₁

/-! ## 7. The whole of the tokens -/

/-- The root holds the items, and their trees are as they were read. -/
theorem parseTokens_items {tokens : List Token} {endSpan : Span} {textSize : Nat}
    {items : List NodeId} {q : Parser}
    (h : Parse.itemsUntilEnd Parse.item (.ofTokens tokens endSpan textSize) = (.ok items, q)) :
    (parseTokens tokens endSpan textSize).2 = q.errors ∧
      q.tree.Extends (parseTokens tokens endSpan textSize).1 ∧
      (parseTokens tokens endSpan textSize).1.construct?
        (parseTokens tokens endSpan textSize).1.root = some (.unit items) := by
  obtain ⟨items', q', hi, he, ht⟩ := parseTokens_apply tokens endSpan textSize
  rw [h] at hi
  cases hi
  have hext := Extends.alloc q.tree (.unit items) ⟨0, q.textSize, 1, 1⟩
  rw [ht]
  refine ⟨he, ⟨hext.size_le, hext.construct_eq, hext.span_eq⟩, ?_⟩
  exact (construct?_alloc _ _ _ _).trans (if_pos rfl)

/-- Tokens that are read without errors are read again before anything but an `else`. -/
theorem parseTokens_before {P rest : List Token} {s : Span} {n : Nat} {p : Parser}
    (hP : (parseTokens P s n).2 = []) (hp : p.tokens = P ++ rest)
    (hrest : Parser.headKind rest ≠ .elseWord) :
    ∃ ids q, Consumed p P q ∧
      SameShape (parseTokens P s n).1 q.tree
        ((parseTokens P s n).1.children (parseTokens P s n).1.root) ids ∧
      ∀ more r, Parse.itemsUntilEnd Parse.item q = (.ok more, r) →
        Parse.itemsUntilEnd Parse.item p = (.ok (ids ++ more), r) := by
  obtain ⟨read, q, hread, herr, -⟩ := parseTokens_apply P s n
  obtain ⟨t, spelled, hfits, hspells⟩ := Parse.items_spell hread (herr.symm.trans hP)
  have hp₁ : (Parser.ofTokens P s n).tokens = P ++ [] := (List.append_nil P).symm
  obtain ⟨as, q₁, hcons₁, hshape₁, hmore₁⟩ :=
    Parse.itemsUntilEnd_append hfits hspells hp₁ (by simp)
  have hend : Parse.itemsUntilEnd Parse.item q₁ = (.ok [], q₁) := by
    rw [Parse.itemsUntilEnd_unfold]
    exact Parse.itemsWith_of_closed (by simp [Parse.closed, hcons₁.tokens_eq hp₁])
  obtain ⟨-, hext, hroot⟩ := parseTokens_items (hmore₁ [] q₁ hend)
  rw [List.append_nil] at hroot
  obtain ⟨ids, q₂, hcons₂, hshape₂, hmore₂⟩ := Parse.itemsUntilEnd_append hfits hspells hp hrest
  refine ⟨ids, q₂, hcons₂, ?_, hmore₂⟩
  rw [children_of_construct? hroot]
  exact (hshape₁.mono (.refl t) hext).join hshape₂

/-- Whatever was read before, the same items follow, with the same errors. -/
theorem parseTokens_after {s : Span} {n : Nat} {p q : Parser} {ids : List NodeId}
    (h : Parse.itemsUntilEnd Parse.item p = (.ok ids, q)) :
    SameShape (parseTokens p.tokens s n).1 q.tree
        ((parseTokens p.tokens s n).1.children (parseTokens p.tokens s n).1.root) ids ∧
      ∃ es, q.errors = p.errors ++ es ∧
        List.Forall₂ ParseError.Matches (parseTokens p.tokens s n).2 es := by
  obtain ⟨read, q₁, hread, -, -⟩ := parseTokens_apply p.tokens s n
  obtain ⟨herr, hext, hroot⟩ := parseTokens_items hread
  obtain ⟨hres, hstep⟩ := Parse.lockstep_itemsUntilEnd _ _ (p.inStep_ofTokens s n)
  have hgrown := Parse.builds_itemsUntilEnd Parse.builds_item 0 (.ofTokens p.tokens s n)
    (pending_nil (Nat.zero_le _))
  rw [hread] at hres hstep hgrown
  rw [h] at hres hstep
  cases hres with
  | ok hids =>
    constructor
    · rw [children_of_construct? hroot, hids]
      exact (hstep.sameShape (hgrown.2 read rfl).1).mono hext (.refl _)
    · obtain ⟨es, es', hes, hes', hmatch⟩ := hstep.errors
      refine ⟨es', hes', ?_⟩
      rw [herr, hes]
      exact hmatch

/-- **One bad statement hides nothing else.**  Tokens `P` that are read without errors, a statement
`g` that cannot be read, with its semicolon, and any tokens `Q` are read as the items of `P` and the
items of `Q`; the errors are one for the statement and those of `Q`. -/
theorem parseTokens_skips_statement {P g Q : List Token} {semi : Token} {sP sQ s : Span}
    {nP nQ n : Nat} (hP : (parseTokens P sP nP).2 = []) (hg : Parse.SimpleStatement g)
    (hsemi : semi.kind = .semicolon) {p₀ : Parser} {after₀ : List Token}
    (hp₀ : p₀.tokens = g ++ semi :: after₀) {e₀ : ParseError}
    (hfail : (Parse.item p₀).1 = .error e₀) :
    let before := (parseTokens P sP nP).1
    let after := (parseTokens Q sQ nQ).1
    let whole := (parseTokens (P ++ g ++ semi :: Q) s n).1
    ∃ ids ids' e es, whole.construct? whole.root = some (.unit (ids ++ ids')) ∧
      SameShape before whole (before.children before.root) ids ∧
      SameShape after whole (after.children after.root) ids' ∧
      (parseTokens (P ++ g ++ semi :: Q) s n).2 = e :: es ∧
      List.Forall₂ ParseError.Matches (parseTokens Q sQ nQ).2 es := by
  intro before after whole
  have hp : (Parser.ofTokens (P ++ g ++ semi :: Q) s n).tokens = P ++ (g ++ semi :: Q) :=
    List.append_assoc P g _
  have helse : Parser.headKind (g ++ semi :: Q) ≠ .elseWord := by
    rw [Parser.headKind_append hg.nonempty]
    intro hk
    exact absurd hg.head (by simp [hk])
  obtain ⟨ids, p₁, hcons, hshape, hmore⟩ := parseTokens_before hP hp helse
  have hp₁ := hcons.tokens_eq hp
  obtain ⟨e, q, hbad⟩ := Parse.item_fails hg hsemi hp₀ hfail hp₁
  obtain ⟨r, hskip, hr, hre, hext⟩ := Parse.itemsUntilEnd_skips hg hsemi hp₁ hbad
  obtain ⟨ids', w, hrest⟩ := Parse.itemsTo_eq_ok false Parse.item (r.tokens.length + 1) r
  have hread : Parse.itemsUntilEnd Parse.item r = (.ok ids', w) := hrest
  obtain ⟨herr, hext', hroot⟩ := parseTokens_items (hmore ids' w (hskip.trans hread))
  obtain ⟨hshape', es, hes, hmatch⟩ := parseTokens_after (s := sQ) (n := nQ) hread
  have hgrow : r.tree.Extends w.tree := by
    have := (Parse.builds_itemsUntilEnd Parse.builds_item 0 r (pending_nil (Nat.zero_le _))).1.tree
    rwa [hread] at this
  rw [hr] at hshape' hmatch
  refine ⟨ids, ids', e, es, hroot, ?_, ?_, ?_, hmatch⟩
  · exact hshape.mono (.refl _) (hext.trans (hgrow.trans hext'))
  · exact hshape'.mono (.refl _) hext'
  · rw [herr, hes, hre, hcons.errors]
    rfl

/-- An unclosed parenthesis after a condition, and an `else` after it that belongs to nothing. -/
theorem parseTokens_skips_unclosed_parenthesis :
    let P := (Parser.ofText "int x = 1; if (x > 0) x = 2;").tokens
    let g := (Parser.ofText "x = (2").tokens
    let Q := (Parser.ofText "else x = 3; f(x);").tokens
    let before := (parseTokens P default 0).1
    let after := (parseTokens Q default 0).1
    let whole := (parseTokens (P ++ g ++ .semicolon :: Q) default 0).1
    ∃ ids ids' e es, whole.construct? whole.root = some (.unit (ids ++ ids')) ∧
      SameShape before whole (before.children before.root) ids ∧
      SameShape after whole (after.children after.root) ids' ∧
      (parseTokens (P ++ g ++ .semicolon :: Q) default 0).2 = e :: es ∧
      List.Forall₂ ParseError.Matches (parseTokens Q default 0).2 es := by
  intro P g Q
  have hP : (parseTokens P default 0).2 = [] := by decide +kernel
  have hg : Parse.SimpleStatement g := ⟨by decide +kernel, by decide +kernel, by decide +kernel⟩
  have hfail : (Parse.item (.ofTokens (g ++ [.semicolon]) default 0)).1 =
      .error ⟨.expectedToken, default, "expected ')', found ';'"⟩ := by decide +kernel
  exact parseTokens_skips_statement hP hg rfl rfl hfail

end Recast
