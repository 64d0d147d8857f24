/-
# What the parser sees ahead

Two decisions of the parser look ahead over a whole type: whether a variable and whether a function
is declared.  Both depend on the kinds of the tokens only, and on these only as far as a type can
reach.

* `lead ts`: the kinds of the tokens up to and with the first one that cannot stand in a type;
* `isVarDecl_congr`, `isFunctionDecl_congr`: tokens with the same lead look the same;
* `Spells.alike`: **all ways to write an expression look the same**, whatever follows.
-/
import Recast.Proofs.Grammar.Concrete

namespace Recast

open Recast.Parser (headKind)

/-! ## 1. The lead of a list of tokens -/

/-- The kinds of tokens that can stand in a type. -/
def TokenKind.inType : TokenKind → Bool
  | identifier | less | greater | comma | leftBracket | rightBracket => true
  | _ => false

/-- The kinds up to and with the first one that cannot stand in a type. -/
def lead : List Token → List TokenKind
  | [] => []
  | t :: ts => if t.kind.inType then t.kind :: lead ts else [t.kind]

theorem lead_cons_of_inType {a : Token} (h : a.kind.inType = true) (ts : List Token) :
    lead (a :: ts) = a.kind :: lead ts := if_pos h

theorem lead_cons_of_not_inType {a : Token} (h : a.kind.inType = false) (ts : List Token) :
    lead (a :: ts) = [a.kind] := if_neg (by simp [h])

/-- Tokens that can stand in a type are all in the lead. -/
theorem lead_append_of_inType {ts : List Token} (h : ∀ a ∈ ts, a.kind.inType = true)
    (rest : List Token) : lead (ts ++ rest) = ts.map Token.kind ++ lead rest := by
  induction ts with
  | nil => rfl
  | cons a ts ih =>
    rw [List.cons_append, lead_cons_of_inType (h a (by simp)), ih fun b hb => h b (by simp [hb])]
    rfl

/-- A lead that starts with kinds of types comes from tokens of these kinds. -/
theorem exists_of_lead_eq_append : ∀ {ks ls : List TokenKind} {us : List Token},
    (∀ k ∈ ks, k.inType = true) → lead us = ks ++ ls →
    ∃ bs rest, us = bs ++ rest ∧ bs.map Token.kind = ks ∧ lead rest = ls
  | [], ls, us, _, h => ⟨[], us, rfl, rfl, h⟩
  | k :: ks, ls, [], _, h => by simp [lead] at h
  | k :: ks, ls, u :: us, hk, h => by
    cases hu : u.kind.inType with
    | true =>
      rw [lead_cons_of_inType hu, List.cons_append, List.cons.injEq] at h
      obtain ⟨bs, rest, rfl, rfl, hr⟩ := exists_of_lead_eq_append
        (fun l hl => hk l (List.mem_cons_of_mem _ hl)) h.2
      exact ⟨u :: bs, rest, rfl, by rw [List.map_cons, h.1], hr⟩
    | false =>
      rw [lead_cons_of_not_inType hu, List.cons_append, List.cons.injEq] at h
      rw [h.1, hk k (by simp)] at hu
      cases hu

theorem headKind_of_lead_eq_cons {us : List Token} {k : TokenKind} {ks : List TokenKind}
    (h : lead us = k :: ks) : ∃ u vs, us = u :: vs ∧ u.kind = k := by
  cases us with
  | nil => cases h
  | cons u vs =>
    refine ⟨u, vs, rfl, ?_⟩
    unfold lead at h
    split at h <;> exact (List.cons.inj h).1

/-! ## 2. Types -/

theorem Brackets.inType {n : Nat} {ts : List Token} (h : Brackets n ts) :
    ∀ a ∈ ts, a.kind.inType = true := by
  induction h with
  | none => simp
  | pair ha hb _ ih =>
    intro c hc
    rcases List.mem_cons.mp hc with rfl | hc
    · rw [ha]
      rfl
    · rcases List.mem_cons.mp hc with rfl | hc
      · rw [hb]
        rfl
      · exact ih c hc

theorem SpellsType.inType {ph : TypePhrase} {ts : List Token} (h : SpellsType ph ts) :
    ∀ a ∈ ts, a.kind.inType = true := by
  induction h with
  | plain hk hb =>
    intro a ha
    rcases List.mem_cons.mp ha with rfl | ha
    · rw [hk]
      rfl
    · exact hb.inType a ha
  | applied hk hl _ hg hb ih =>
    intro a ha
    simp only [List.mem_cons, List.mem_append] at ha
    rcases ha with rfl | rfl | ha | rfl | ha
    · rw [hk]
      rfl
    · rw [hl]
      rfl
    · exact ih a ha
    · rw [hg]
      rfl
    · exact hb.inType a ha
  | single _ ih => exact ih
  | more _ hc _ ih₁ ih₂ =>
    intro a ha
    simp only [List.mem_append, List.mem_cons] at ha
    rcases ha with ha | rfl | ha
    · exact ih₁ a ha
    · rw [hc]
      rfl
    · exact ih₂ a ha

theorem Brackets.of_kinds {n : Nat} {ts : List Token} (h : Brackets n ts) : ∀ {us : List Token},
    us.map Token.kind = ts.map Token.kind → Brackets n us := by
  induction h with
  | none =>
    intro us hu
    rw [List.map_eq_nil_iff.mp hu]
    exact .none
  | pair ha hb _ ih =>
    intro us hu
    match us, hu with
    | [_], hu => simp at hu
    | a' :: b' :: us, hu =>
      simp only [List.map_cons, List.cons.injEq] at hu
      exact .pair (hu.1.trans ha) (hu.2.1.trans hb) (ih hu.2.2)

/-- The kinds of the tokens decide whether they are a type, though not which. -/
def TypePhrase.Similar : TypePhrase → TypePhrase → Prop
  | one _, one _ => True
  | many _, many _ => True
  | _, _ => False

theorem SpellsType.of_kinds {ph : TypePhrase} {ts : List Token} (h : SpellsType ph ts) :
    ∀ {us : List Token}, us.map Token.kind = ts.map Token.kind →
      ∃ ph', ph.Similar ph' ∧ SpellsType ph' us := by
  induction h with
  | plain hk hb =>
    intro us hu
    match us, hu with
    | a :: us, hu =>
      simp only [List.map_cons, List.cons.injEq] at hu
      exact ⟨.one _, trivial, .plain (s := default) (hu.1.trans hk) (hb.of_kinds hu.2)⟩
  | @applied name less greater args ts us n s hk hl _ hg hb ih =>
    intro vs hv
    match vs, hv with
    | [_], hv => simp at hv
    | a :: b :: vs, hv =>
      simp only [List.map_cons, List.map_append, List.cons.injEq] at hv
      obtain ⟨hka, hkb, hv⟩ := hv
      obtain ⟨us', ws, rfl, hus', hws⟩ := List.map_eq_append_iff.mp hv
      match ws, hws with
      | g :: bs, hws =>
        simp only [List.map_cons, List.cons.injEq] at hws
        obtain ⟨ph', hsim, hargs⟩ := ih hus'
        match ph', hsim with
        | .many args', _ =>
          exact ⟨.one _, trivial, .applied (s := default) (hka.trans hk) (hkb.trans hl) hargs
            (hws.1.trans hg) (hb.of_kinds hws.2)⟩
  | single _ ih =>
    intro us hu
    obtain ⟨ph', hsim, h'⟩ := ih hu
    match ph', hsim with
    | .one type', _ => exact ⟨.many [type'], trivial, .single h'⟩
  | @more type types comma ts us _ hc _ ih₁ ih₂ =>
    intro vs hv
    simp only [List.map_append, List.map_cons] at hv
    obtain ⟨ts', ws, rfl, hts', hws⟩ := List.map_eq_append_iff.mp hv
    match ws, hws with
    | c' :: us', hws =>
      simp only [List.map_cons, List.cons.injEq] at hws
      obtain ⟨ph₁, hsim₁, h₁⟩ := ih₁ hts'
      obtain ⟨ph₂, hsim₂, h₂⟩ := ih₂ hws.2
      match ph₁, hsim₁, ph₂, hsim₂ with
      | .one type', _, .many types', _ =>
        exact ⟨.many (type' :: types'), trivial, .more h₁ (hws.1.trans hc) h₂⟩

namespace TypeScan

/-- A type, a name and one more token, seen in the lead alone. -/
theorem type?_of_lead_eq {ts us rest : List Token} {name next : Token} (h : lead ts = lead us)
    (ht : type? ts = some (name :: next :: rest)) (hn : name.kind = .identifier) :
    ∃ name' next' rest', type? us = some (name' :: next' :: rest') ∧
      name'.kind = .identifier ∧ next'.kind = next.kind := by
  obtain ⟨type, as, rfl, has, -⟩ := type?_eq_some_iff.mp ht
  have hin : name.kind.inType = true := by
    rw [hn]
    rfl
  rw [lead_append_of_inType has.inType, lead_cons_of_inType hin] at h
  have hks : ∀ k ∈ as.map Token.kind, k.inType = true := by
    intro k hk
    obtain ⟨a, ha, rfl⟩ := List.mem_map.mp hk
    exact has.inType a ha
  obtain ⟨bs, us', rfl, hbs, hus'⟩ := exists_of_lead_eq_append hks h.symm
  obtain ⟨name', vs, rfl, hn'⟩ := headKind_of_lead_eq_cons hus'
  rw [lead_cons_of_inType (by rw [hn', hin]), List.cons.injEq] at hus'
  obtain ⟨next', rest', rfl, hnext⟩ : ∃ u ws, vs = u :: ws ∧ u.kind = next.kind := by
    have hl := hus'.2
    unfold lead at hl
    split at hl
    · split at hl <;> cases hl
    · rename_i u ws
      refine ⟨u, ws, rfl, ?_⟩
      split at hl <;> split at hl <;> exact (List.cons.inj hl).1
  obtain ⟨ph', hsim, hbs'⟩ := has.of_kinds hbs
  match ph', hsim with
  | .one type', _ =>
    rw [hn] at hn'
    refine ⟨name', next', rest', type?_eq_some_iff.mpr ⟨type', bs, rfl, hbs', ?_⟩, hn', hnext⟩
    exact .of_headKind (by simp [hn']) (by simp [hn'])

/-- The form that the two decisions share: a type, a name, and a token of some kinds. -/
def sees (next : TokenKind → Bool) (tokens : List Token) : Bool :=
  match type? tokens with
  | some (name :: after :: _) => name.kind = .identifier && next after.kind
  | _ => false

theorem sees_eq_true_iff {next : TokenKind → Bool} {tokens : List Token} :
    sees next tokens = true ↔ ∃ name after rest, type? tokens = some (name :: after :: rest) ∧
      name.kind = .identifier ∧ next after.kind = true := by
  unfold sees
  split
  · rename_i name after rest h
    simp only [h, Bool.and_eq_true, decide_eq_true_eq]
    constructor
    · rintro ⟨hn, ha⟩
      exact ⟨name, after, rest, rfl, hn, ha⟩
    · rintro ⟨name', after', rest', he, hn, ha⟩
      cases he
      exact ⟨hn, ha⟩
  · rename_i h
    simp only [Bool.false_eq_true, false_iff]
    rintro ⟨name, after, rest, he, -⟩
    exact h _ _ _ he

theorem sees_congr {next : TokenKind → Bool} {ts us : List Token} (h : lead ts = lead us) :
    sees next ts = sees next us := by
  have key : ∀ {ts us : List Token}, lead ts = lead us → sees next ts = true →
      sees next us = true := by
    intro ts us h hs
    obtain ⟨name, after, rest, ht, hn, ha⟩ := sees_eq_true_iff.mp hs
    obtain ⟨name', after', rest', hu, hn', ha'⟩ := type?_of_lead_eq h ht hn
    exact sees_eq_true_iff.mpr ⟨name', after', rest', hu, hn', by rw [ha', ha]⟩
  exact Bool.eq_iff_iff.mpr ⟨key h, key h.symm⟩

theorem isFunctionDecl_eq_sees (ts : List Token) :
    isFunctionDecl ts = sees (fun k => k = .leftParen) ts := rfl

theorem isVarDecl_eq_sees (ts : List Token) :
    isVarDecl ts = sees (fun k => k = .equal || k = .comma || k = .semicolon) ts := rfl

/-- **Whether a function is declared depends on the lead only.** -/
theorem isFunctionDecl_congr {ts us : List Token} (h : lead ts = lead us) :
    isFunctionDecl ts = isFunctionDecl us := by
  rw [isFunctionDecl_eq_sees, isFunctionDecl_eq_sees, sees_congr h]

/-- **Whether a variable is declared depends on the lead only.** -/
theorem isVarDecl_congr {ts us : List Token} (h : lead ts = lead us) :
    isVarDecl ts = isVarDecl us := by
  rw [isVarDecl_eq_sees, isVarDecl_eq_sees, sees_congr h]

/-- Nothing is declared where no type starts. -/
theorem sees_of_headKind_ne {next : TokenKind → Bool} {ts : List Token}
    (h : headKind ts ≠ .identifier) : sees next ts = false := by
  rw [Bool.eq_false_iff]
  intro hs
  obtain ⟨name, after, rest, ht, -, -⟩ := sees_eq_true_iff.mp hs
  obtain ⟨type, as, rfl, has, -⟩ := type?_eq_some_iff.mp ht
  exact h (has.headKind_eq _)

/-- A type, a name and a token are seen by what that token is. -/
theorem sees_of_spells {next : TokenKind → Bool} {type : WrittenType} {ts rest : List Token}
    {name after : Token} (h : SpellsType (.one type) ts) (hn : name.kind = .identifier) :
    sees next (ts ++ name :: after :: rest) = next after.kind := by
  have ht : type? (ts ++ name :: after :: rest) = some (name :: after :: rest) :=
    type?_eq_some_iff.mpr ⟨type, ts, rfl, h, .of_headKind (by simp [hn]) (by simp [hn])⟩
  simp [sees, ht, hn]

end TypeScan

/-! ## 3. Expressions -/

/-- Two lists of tokens look the same, whatever follows that looks the same. -/
def Alike (ts us : List Token) : Prop :=
  ∀ rest rest', lead rest = lead rest' → lead (ts ++ rest) = lead (us ++ rest')

namespace Alike

variable {ts us ts' us' : List Token} {a b : Token}

theorem append (h : Alike ts us) (h' : Alike ts' us') : Alike (ts ++ ts') (us ++ us') := by
  intro rest rest' hr
  rw [List.append_assoc, List.append_assoc]
  exact h _ _ (h' _ _ hr)

theorem cons (hk : a.kind = b.kind) (h : a.kind.inType = true → Alike ts us) :
    Alike (a :: ts) (b :: us) := by
  intro rest rest' hr
  cases ha : a.kind.inType with
  | true =>
    rw [List.cons_append, List.cons_append, lead_cons_of_inType ha,
      lead_cons_of_inType (by rw [← hk, ha]), hk, h ha rest rest' hr]
  | false =>
    rw [List.cons_append, List.cons_append, lead_cons_of_not_inType ha,
      lead_cons_of_not_inType (by rw [← hk, ha]), hk]

end Alike

/-- The kind of the token of a literal. -/
def Literal.kind : Literal → TokenKind
  | int _ => .intLiteral
  | long _ => .longLiteral
  | float _ => .floatLiteral
  | double _ => .doubleLiteral
  | string _ => .stringLiteral
  | bool true => .trueWord
  | bool false => .falseWord
  | null => .nullWord

theorem Literal.kind_of_ofToken {a : Token} {v : Literal} (h : Literal.ofToken a = .ok v) :
    a.kind = v.kind := by
  unfold Literal.ofToken at h
  dsimp only at h
  split at h
  all_goals first
    | (rename_i hk; split at h <;> cases h; exact hk)
    | cases h

/-- A literal and the token that it is written with are of the same kind. -/
theorem Token.kind_of_literal? {a : Token} {v : Literal} (h : a.literal? = some v) :
    a.kind = v.kind := by
  have hof : (Literal.ofToken a).toOption = some v → a.kind = v.kind := by
    intro ho
    cases he : Literal.ofToken a with
    | ok w =>
      rw [he] at ho
      cases ho
      exact Literal.kind_of_ofToken he
    | error e =>
      rw [he] at ho
      cases ho
  unfold literal? at h
  split at h
  all_goals first
    | exact hof h
    | (rename_i hk; cases h; exact hk)
    | cases h

/-- The pieces of types and accessors come after a token that cannot stand in a type, so that the
lead does not reach them. -/
def Piece.Plain : List Piece → Prop
  | [] => True
  | sign k :: ps => k.inType = true → Plain ps
  | name _ :: ps | node _ :: ps => Plain ps
  | literal _ :: _ => True
  | type _ :: _ | accessors _ :: _ => False

theorem Construct.plain_pieces {c : Construct} (h : c.isExpression = true) :
    Piece.Plain c.pieces := by
  cases c with
  | literal _ | ident _ | member _ _ | call _ _ | newObject _ _ | cast _ _ | assign _ _ _
  | binary _ _ _ | unary _ _ | paren _ =>
    simp [pieces, Piece.Plain, Piece.arguments, TokenKind.inType]
  | _ => cases h

/-- **All ways to write expressions look the same.** -/
theorem Spells.alike {t : SyntaxTree} {At At' : NodeId → List Token → Prop} {ps : List Piece}
    {ts : List Token} (h : Spells t At ps ts) : ∀ {us : List Token}, Spells t At' ps us →
      Piece.Plain ps → (∀ id, t.Under (Piece.nodes ps) id → t.isExpression id = true) →
      Alike ts us := by
  induction h with
  | nil =>
    intro us h' _ _
    rw [nil_iff.mp h']
    exact fun _ _ hr => hr
  | @leaf p ps us ts hp _ ih =>
    intro vs h' hplain hexpr
    cases p with
    | node id => cases hp
    | type type => cases hplain
    | accessors b => cases hplain
    | sign k =>
      obtain ⟨a, rfl, ha⟩ := hp
      obtain ⟨b, ws, rfl, hb, h'⟩ := sign_iff.mp h'
      refine .cons (ha.trans hb.symm) fun hin => ih h' (hplain ?_) hexpr
      rwa [ha] at hin
    | name n =>
      obtain ⟨a, rfl, ha, -⟩ := hp
      obtain ⟨b, ws, rfl, ⟨hb, -⟩, h'⟩ := name_iff.mp h'
      exact .cons (ha.trans hb.symm) fun _ => ih h' hplain hexpr
    | literal v =>
      obtain ⟨a, rfl, ha⟩ := hp
      obtain ⟨b, ws, rfl, hb, h'⟩ := literal_iff.mp h'
      refine .cons ((Token.kind_of_literal? ha).trans (Token.kind_of_literal? hb).symm) fun hin => ?_
      rw [Token.kind_of_literal? ha] at hin
      rcases v with _ | _ | _ | _ | _ | _ | _ <;> first
        | cases hin
        | (rename_i b; cases b <;> cases hin)
  | @node id c ps us ts hc _ _ _ ih₁ ih₂ =>
    intro vs h' hplain hexpr
    obtain ⟨us', ws, rfl, h₁, h₂⟩ := node_cons_iff.mp h'
    have hk' := h₁.pieces hc
    have hid : t.Under (Piece.nodes (.node id :: ps)) id := .root (List.mem_cons_self ..)
    have hce : c.isExpression = true := by
      simpa [SyntaxTree.isExpression, hc] using hexpr id hid
    refine (ih₁ hk' (Construct.plain_pieces hce) fun i hi => ?_).append
      (ih₂ h₂ hplain fun i hi => ?_)
    · refine hexpr i (hi.mono fun j hj => ?_)
      rw [c.nodes_pieces] at hj
      exact hid.slot hc hj
    · exact hexpr i (hi.mono fun j hj => .root (List.mem_cons_of_mem _ hj))

end Recast
