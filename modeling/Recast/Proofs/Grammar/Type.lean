/-
# The grammar of types

Which tokens spell a written type, as a relation, and its two uses in the parser: looking ahead over
a type and reading one.

* `SpellsType`: a name, its arguments between angle brackets if it has any, and pairs of square
  brackets; more pairs than the greatest rank count as that many;
* `EndsType`: what may follow, so that the type is not read on;
* `type?_eq_some_iff`: **looking ahead finds exactly the types**;
* `type_sound`, `type_of_spells`: reading a type and spelling it are the same, up to places.
-/
import Recast.Proofs.Parser.Run
import Recast.Proofs.Token.Cover
import Recast.Proofs.Tree.Shape

namespace Recast

open Recast.Parser (headKind)

/-! ## 1. The relation -/

/-- So many pairs of square brackets. -/
inductive Brackets : Nat → List Token → Prop
  | none : Brackets 0 []
  | pair {n : Nat} {a b : Token} {ts : List Token} : a.kind = .leftBracket → b.kind = .rightBracket →
      Brackets n ts → Brackets (n + 1) (a :: b :: ts)

/-- What tokens can spell: a type, or types with commas between them. -/
inductive TypePhrase where
  | one (type : WrittenType)
  | many (types : List WrittenType)

/-- The tokens spell the type or types.  Places do not matter. -/
inductive SpellsType : TypePhrase → List Token → Prop
  | plain {name : Token} {ts : List Token} {n : Nat} {s : Span} : name.kind = .identifier →
      Brackets n ts → SpellsType (.one ⟨name.lexeme, [], min n Parse.maxRank, s⟩) (name :: ts)
  | applied {name less greater : Token} {args : List WrittenType} {ts us : List Token} {n : Nat}
      {s : Span} : name.kind = .identifier → less.kind = .less → SpellsType (.many args) us →
      greater.kind = .greater → Brackets n ts →
      SpellsType (.one ⟨name.lexeme, args, min n Parse.maxRank, s⟩)
        (name :: less :: (us ++ greater :: ts))
  | single {type : WrittenType} {ts : List Token} : SpellsType (.one type) ts →
      SpellsType (.many [type]) ts
  | more {type : WrittenType} {types : List WrittenType} {comma : Token} {ts us : List Token} :
      SpellsType (.one type) ts → comma.kind = .comma → SpellsType (.many types) us →
      SpellsType (.many (type :: types)) (ts ++ comma :: us)

/-- What follows the tokens of a type does not carry it on: no further pair of brackets, and no
argument list after a name alone. -/
def EndsType (ts rest : List Token) : Prop :=
  TypeScan.bracketPairs rest = 0 ∧ (ts.length = 1 → headKind rest ≠ .less)

theorem EndsType.of_headKind {ts rest : List Token} (hb : headKind rest ≠ .leftBracket)
    (hl : headKind rest ≠ .less) : EndsType ts rest := by
  refine ⟨?_, fun _ => hl⟩
  unfold TypeScan.bracketPairs
  split
  · rename_i a b us
    exact if_neg fun h => hb h.1
  · rfl

theorem SpellsType.ne_nil {ph : TypePhrase} {ts : List Token} (h : SpellsType ph ts) : ts ≠ [] := by
  induction h with
  | plain _ _ => simp
  | applied _ _ _ _ _ => simp
  | single _ ih => exact ih
  | more _ _ _ _ _ => simp

/-- A type starts with a name. -/
theorem SpellsType.headKind_eq {ph : TypePhrase} {ts : List Token} (h : SpellsType ph ts)
    (rest : List Token) : headKind (ts ++ rest) = .identifier := by
  induction h generalizing rest with
  | plain hk _ => exact hk
  | applied hk _ _ _ _ => exact hk
  | single _ ih => exact ih rest
  | more _ _ _ ih _ =>
    rw [List.append_assoc]
    exact ih _

/-! ## 2. Square brackets -/

namespace TypeScan

/-- The pairs of brackets in front, and what follows them. -/
theorem brackets_append (tokens : List Token) : ∃ bs, Brackets (bracketPairs tokens) bs ∧
    tokens = bs ++ afterBrackets tokens ∧ bracketPairs (afterBrackets tokens) = 0 := by
  fun_induction bracketPairs tokens with
  | case1 a b tokens h ih =>
    obtain ⟨bs, hbs, happ, hrest⟩ := ih
    rw [afterBrackets, if_pos h]
    refine ⟨a :: b :: bs, .pair h.1 h.2 hbs, ?_, hrest⟩
    rw [List.cons_append, List.cons_append, ← happ]
  | case2 a b tokens h =>
    rw [afterBrackets, if_neg h]
    refine ⟨[], .none, rfl, ?_⟩
    rw [bracketPairs, if_neg h]
  | case3 tokens h =>
    have hafter : afterBrackets tokens = tokens := by
      unfold afterBrackets
      split
      · exact absurd rfl (h _ _ _)
      · rfl
    rw [hafter]
    refine ⟨[], .none, rfl, ?_⟩
    unfold bracketPairs
    split
    · exact absurd rfl (h _ _ _)
    · rfl

theorem afterBrackets_of_bracketPairs_eq_zero {rest : List Token} (h : bracketPairs rest = 0) :
    afterBrackets rest = rest := by
  obtain ⟨bs, hbs, happ, -⟩ := brackets_append rest
  rw [h] at hbs
  cases hbs
  exact happ.symm

/-- Brackets before something that is none are all the brackets. -/
theorem bracketPairs_append {n : Nat} {bs rest : List Token} (h : Brackets n bs)
    (hr : bracketPairs rest = 0) :
    bracketPairs (bs ++ rest) = n ∧ afterBrackets (bs ++ rest) = rest := by
  induction h with
  | none => exact ⟨hr, afterBrackets_of_bracketPairs_eq_zero hr⟩
  | pair ha hb _ ih =>
    simp only [List.cons_append]
    rw [bracketPairs, afterBrackets, if_pos ⟨ha, hb⟩, if_pos ⟨ha, hb⟩]
    exact ⟨congrArg (· + 1) ih.1, ih.2⟩

/-! ## 3. Looking ahead -/

/-- Types with commas between them, as far as each of them is a type. -/
theorem separated?_sound {type? : List Token → Option (List Token)}
    (h : ∀ {tokens rest}, type? tokens = some rest → ∃ type ts, tokens = ts ++ rest ∧
      SpellsType (.one type) ts ∧ EndsType ts rest) :
    ∀ {turns : Nat} {tokens rest : List Token}, separated? type? turns tokens = some rest →
      ∃ types ts, tokens = ts ++ rest ∧ SpellsType (.many types) ts
  | 0, _, _, he => by cases he
  | turns + 1, tokens, rest, he => by
    unfold separated? at he
    split at he
    · cases he
    · rename_i c mid hm
      obtain ⟨type, ts, rfl, hts, -⟩ := h hm
      split at he
      · rename_i hc
        obtain ⟨types, us, rfl, hus⟩ := separated?_sound h he
        exact ⟨type :: types, ts ++ c :: us, by simp, .more hts hc hus⟩
      · cases he
        exact ⟨[type], ts, rfl, .single hts⟩
    · rename_i hm
      obtain ⟨type, ts, rfl, hts, -⟩ := h hm
      cases he
      exact ⟨[type], ts, rfl, .single hts⟩

theorem typeTo?_sound : ∀ {depth : Nat} {tokens rest : List Token},
    typeTo? depth tokens = some rest →
      ∃ type ts, tokens = ts ++ rest ∧ SpellsType (.one type) ts ∧ EndsType ts rest
  | 0, _, _, h => by cases h
  | _ + 1, [], _, h => by cases h
  | depth + 1, name :: tokens, rest, h => by
    unfold typeTo? at h
    split at h
    · cases h
    · rename_i hk
      rw [ne_eq, Decidable.not_not] at hk
      split at h
      · rename_i c us
        split at h
        · rename_i hc
          obtain ⟨mid, hmid, rfl⟩ := Option.map_eq_some_iff.mp h
          unfold arguments? at hmid
          split at hmid
          · rename_i g rest' hs
            split at hmid
            · rename_i hg
              cases hmid
              obtain ⟨types, ts, rfl, hts⟩ := separated?_sound typeTo?_sound hs
              obtain ⟨bs, hbs, happ, hz⟩ := brackets_append mid
              refine ⟨_, name :: c :: (ts ++ g :: bs), ?_, .applied (s := default) hk hc hts hg hbs,
                hz, ?_⟩
              · simp only [List.cons_append, List.append_assoc, ← happ]
              · simp
            · cases hmid
          · cases hmid
        · rename_i hc
          cases h
          obtain ⟨bs, hbs, happ, hz⟩ := brackets_append (c :: us)
          refine ⟨_, name :: bs, ?_, .plain (s := default) hk hbs, hz, fun hl => ?_⟩
          · rw [List.cons_append, ← happ]
          · -- a name alone: no bracket was passed over, so the next token is the one tested
            have hbs' : bs = [] := by simpa using hl
            rw [hbs', List.nil_append] at happ
            rw [← happ]
            exact hc
      · cases h
        exact ⟨_, [name], rfl, .plain (s := default) hk .none, rfl, fun _ => by simp⟩

/-- How a list of tokens is scanned that spells types, before something that ends them. -/
def Scans : TypePhrase → List Token → Prop
  | .one _, ts => ∀ (depth : Nat) (rest : List Token), ts.length ≤ depth → EndsType ts rest →
      typeTo? depth (ts ++ rest) = some rest
  | .many _, ts => ∀ (depth turns : Nat) (rest : List Token), ts.length ≤ depth →
      ts.length < turns → headKind rest = .greater →
      separated? (typeTo? depth) turns (ts ++ rest) = some rest

theorem scans_of_spellsType {ph : TypePhrase} {ts : List Token} (h : SpellsType ph ts) :
    Scans ph ts := by
  induction h with
  | @plain name ts n s hk hb =>
    intro depth rest hd hend
    obtain ⟨depth, rfl⟩ : ∃ d, depth = d + 1 := Nat.exists_eq_succ_of_ne_zero (by
      simp only [List.length_cons] at hd
      omega)
    have hafter := (bracketPairs_append hb hend.1).2
    rw [List.cons_append]
    unfold typeTo?
    rw [if_neg (by simp [hk])]
    cases hts : ts ++ rest with
    | nil =>
      rw [hts] at hafter
      rw [← hafter]
      rfl
    | cons c us =>
      rw [hts] at hafter
      have hc : c.kind ≠ .less := by
        cases hb with
        | none =>
          rw [List.nil_append] at hts
          have := hend.2 rfl
          rwa [hts] at this
        | pair ha _ _ =>
          cases hts
          simp [ha]
      simp only [hc, if_false, hafter]
  | @applied name less greater args ts us n s hk hl hargs hg hb ih =>
    intro depth rest hd hend
    simp only [List.length_cons, List.length_append] at hd
    obtain ⟨depth, rfl⟩ : ∃ d, depth = d + 1 := Nat.exists_eq_succ_of_ne_zero (by omega)
    have hsep := ih depth ((us ++ greater :: (ts ++ rest)).length + 1) (greater :: (ts ++ rest))
      (by omega) (by rw [List.length_append]; omega) hg
    rw [List.cons_append]
    unfold typeTo?
    rw [if_neg (by simp [hk])]
    simp only [List.cons_append, List.append_assoc, hl, if_true, arguments?, hsep, hg,
      Option.map_some, (bracketPairs_append hb hend.1).2]
  | single _ ih =>
    intro depth turns rest hd ht hr
    obtain ⟨turns, rfl⟩ : ∃ d, turns = d + 1 := Nat.exists_eq_succ_of_ne_zero (by omega)
    have hone := ih depth rest hd (.of_headKind (by simp [hr]) (by simp [hr]))
    cases rest with
    | nil => cases hr
    | cons g rest =>
      rw [Parser.headKind_cons] at hr
      simp only [separated?, hone, hr, reduceCtorEq, if_false]
  | @more type types comma ts us hts hc hus ih₁ ih₂ =>
    intro depth turns rest hd ht hr
    simp only [List.length_cons, List.length_append] at hd ht
    obtain ⟨turns, rfl⟩ : ∃ d, turns = d + 1 := Nat.exists_eq_succ_of_ne_zero (by omega)
    have hone := ih₁ depth (comma :: us ++ rest) (by omega)
      (.of_headKind (by simp [hc]) (by simp [hc]))
    simp only [List.append_assoc, List.cons_append] at hone ⊢
    simp only [separated?, hone, hc, if_true]
    exact ih₂ depth turns rest (by omega) (by omega) hr

/-- **Looking ahead finds exactly the types.** -/
theorem type?_eq_some_iff {tokens rest : List Token} : type? tokens = some rest ↔
    ∃ type ts, tokens = ts ++ rest ∧ SpellsType (.one type) ts ∧ EndsType ts rest := by
  constructor
  · exact typeTo?_sound
  · rintro ⟨type, ts, rfl, hts, hend⟩
    exact scans_of_spellsType hts _ rest (by simp; omega) hend

end TypeScan

/-! ## 4. Reading -/

namespace Parse

variable {p q : Parser}

theorem brackets_of {n : Nat} {bs rest : List Token} (h : Brackets n bs)
    (hp : p.tokens = bs ++ rest) : brackets n p = (.ok (), p.read bs rest) := by
  induction h generalizing p with
  | none =>
    rw [List.nil_append] at hp
    rw [← hp]
    rfl
  | @pair n a b bs _ _ _ ih =>
    rw [brackets, bind_of_ok (advance_of_eq_cons hp), bind_of_ok (advance_of_eq_cons rfl),
      ih (by rfl), Parser.read_read, Parser.read_read]
    rfl

/-- The end of a type: its brackets, and its span. -/
theorem rank_apply (name : Token) (args : List WrittenType) {bs rest : List Token} {n : Nat}
    (h : Brackets n bs) (hr : TypeScan.bracketPairs rest = 0) (hp : p.tokens = bs ++ rest) :
    (do
      let pairs := TypeScan.bracketPairs (← get).tokens
      brackets pairs
      pure (WrittenType.mk name.lexeme args (min pairs maxRank) (← spanFrom name.span)) :
        Parse WrittenType) p =
      (.ok ⟨name.lexeme, args, min n maxRank, name.span.merge (p.read bs rest).lastSpan⟩,
        p.read bs rest) := by
  have hn := (TypeScan.bracketPairs_append h hr).1
  rw [← hp] at hn
  simp only [bind_apply, get_apply, hn, brackets_of h hp, spanFrom_apply, pure_apply]

/-- A type without arguments. -/
theorem typeWith_plain {argument : Parse WrittenType} {name : Token} {bs rest : List Token} {n : Nat}
    (hk : name.kind = .identifier) (h : Brackets n bs) (hr : EndsType (name :: bs) rest)
    (hp : p.tokens = name :: (bs ++ rest)) :
    typeWith argument p =
      (.ok ⟨name.lexeme, [], min n maxRank, name.span.merge (p.read (name :: bs) rest).lastSpan⟩,
        p.read (name :: bs) rest) := by
  have hless : headKind (bs ++ rest) ≠ .less := by
    cases h with
    | none => exact hr.2 rfl
    | pair ha _ _ => simp [ha]
  have he : eat .less (p.read [name] (bs ++ rest)) = (.ok false, p.read [name] (bs ++ rest)) :=
    eat_of_ne hless
  have hrank := rank_apply (p := p.read [name] (bs ++ rest)) name [] h hr.1 rfl
  rw [Parser.read_read] at hrank
  rw [typeWith, bind_of_ok (peek_apply p), Parser.peek_of_eq_cons hp]
  simp only [hk, ne_eq, not_true_eq_false, if_false]
  rw [bind_of_ok (advance_of_eq_cons hp), bind_of_ok he, if_neg (by simp), bind_of_ok (pure_apply _ _)]
  exact hrank

/-- A type with arguments. -/
theorem typeWith_applied {argument : Parse WrittenType} {name less greater : Token}
    {us bs rest : List Token} {args : List WrittenType} {n : Nat} (hk : name.kind = .identifier)
    (hl : less.kind = .less)
    (hargs : separated argument (p.read [name, less] (us ++ greater :: (bs ++ rest))) =
      (.ok args, p.read (name :: less :: us) (greater :: (bs ++ rest))))
    (hg : greater.kind = .greater) (h : Brackets n bs) (hr : TypeScan.bracketPairs rest = 0)
    (hp : p.tokens = name :: less :: (us ++ greater :: (bs ++ rest))) :
    typeWith argument p =
      (.ok ⟨name.lexeme, args, min n maxRank,
        name.span.merge (p.read (name :: less :: (us ++ greater :: bs)) rest).lastSpan⟩,
        p.read (name :: less :: (us ++ greater :: bs)) rest) := by
  have he : eat .less (p.read [name] (less :: (us ++ greater :: (bs ++ rest)))) =
      (.ok true, p.read [name, less] (us ++ greater :: (bs ++ rest))) := by
    rw [eat_of_eq rfl hl, Parser.read_read]
    rfl
  have hgt : expect .greater (p.read (name :: less :: us) (greater :: (bs ++ rest))) =
      (.ok greater, p.read (name :: less :: (us ++ [greater])) (bs ++ rest)) := by
    rw [expect_of_eq_cons rfl hg, Parser.read_read]
    rfl
  have hrank := rank_apply (p := p.read (name :: less :: (us ++ [greater])) (bs ++ rest)) name args
    h hr rfl
  simp only [Parser.read_read, List.cons_append, List.append_assoc, List.nil_append] at hrank
  rw [typeWith, bind_of_ok (peek_apply p), Parser.peek_of_eq_cons hp]
  simp only [hk, ne_eq, not_true_eq_false, if_false]
  rw [bind_of_ok (advance_of_eq_cons hp), bind_of_ok he, if_pos rfl, bind_of_ok hargs,
    bind_of_ok hgt, bind_of_ok (pure_apply _ _)]
  exact hrank

/-- The tokens `ts` were read, and nothing else happened. -/
def JustRead (p : Parser) (ts : List Token) (q : Parser) : Prop :=
  p.tokens = ts ++ q.tokens ∧ q = p.read ts q.tokens

theorem JustRead.trans {r : Parser} {ts us : List Token} (h : JustRead p ts q)
    (h' : JustRead q us r) : JustRead p (ts ++ us) r := by
  refine ⟨?_, ?_⟩
  · rw [h.1, h'.1, List.append_assoc]
  · rw [h'.2, h.2, Parser.read_read]
    rfl

theorem JustRead.one {t : Token} {ts : List Token} (h : p.tokens = t :: ts) :
    JustRead p [t] (p.read [t] ts) := ⟨h, rfl⟩

/-- Arguments are read by reading each of them. -/
theorem separatedTo_type_sound {argument : Parse WrittenType}
    (h : ∀ {p q : Parser} {type : WrittenType}, argument p = (.ok type, q) →
      ∃ ts, JustRead p ts q ∧ SpellsType (.one type) ts) :
    ∀ {turns : Nat} {p q : Parser} {types : List WrittenType},
      separatedTo argument turns p = (.ok types, q) →
      ∃ ts, JustRead p ts q ∧ SpellsType (.many types) ts
  | 0, p, q, types, he => absurd he (exhausted_ne_ok p q types)
  | turns + 1, p, q, types, he => by
    obtain ⟨type, r, ht, ⟨-, rfl, rfl⟩ | ⟨c, rest, more, hr, hc, hm, rfl⟩⟩ :=
      separatedTo_eq_ok.mp he
    · obtain ⟨ts, hread, hts⟩ := h ht
      exact ⟨ts, hread, .single hts⟩
    · obtain ⟨ts, hread, hts⟩ := h ht
      obtain ⟨us, hread', hus⟩ := separatedTo_type_sound h hm
      exact ⟨ts ++ c :: us, hread.trans ((JustRead.one hr).trans hread'), .more hts hc hus⟩

/-- The span of a type, read through its last token. -/
theorem merge_lastSpan_eq_cover {name : Token} {ts rest : List Token}
    (ho : Ordered (name :: ts)) :
    name.span.merge (p.read (name :: ts) rest).lastSpan = cover (name :: ts) := by
  obtain ⟨-, b, -, hb, -, -⟩ := exists_ends (show name :: ts ≠ [] by simp)
  rw [Parser.read_lastSpan hb, ← cover_singleton name]
  exact cover_merge_last (show Ordered ([name] ++ ts) from ho) (by simp) hb

/-- **What is read as a type spells it**, and its span is what its tokens cover. -/
theorem typeTo_sound : ∀ {depth : Nat} {p q : Parser} {type : WrittenType},
    typeTo depth p = (.ok type, q) → ∃ ts, JustRead p ts q ∧ SpellsType (.one type) ts ∧
      EndsType ts q.tokens ∧ (Ordered p.tokens → type.span = cover ts)
  | 0, p, q, type, h => absurd h (exhausted_ne_ok p q type)
  | depth + 1, p, q, type, h => by
    change typeWith (typeTo depth) p = (.ok type, q) at h
    cases hp : p.tokens with
    | nil =>
      have hk : p.peek.kind = .eof := by rw [Parser.kind_peek, hp]; rfl
      rw [typeWith, bind_of_ok (peek_apply p)] at h
      simp only [hk, ne_eq, reduceCtorEq, not_false_eq_true, if_true] at h
      cases h
    | cons name tokens =>
      by_cases hk : name.kind = .identifier
      · by_cases hl : headKind tokens = .less
        · obtain ⟨less, tokens, rfl⟩ : ∃ l ts, tokens = l :: ts := by
            cases tokens with
            | nil => cases hl
            | cons l ts => exact ⟨l, ts, rfl⟩
          have he : eat .less (p.read [name] (less :: tokens)) =
              (.ok true, p.read [name, less] tokens) := by
            rw [eat_of_eq rfl hl, Parser.read_read]
            rfl
          have h' := h
          rw [typeWith, bind_of_ok (peek_apply p), Parser.peek_of_eq_cons hp] at h'
          simp only [hk, ne_eq, not_true_eq_false, if_false] at h'
          rw [bind_of_ok (advance_of_eq_cons hp), bind_of_ok he, if_pos rfl, bind_eq_ok] at h'
          obtain ⟨args, r, hargs, h'⟩ := h'
          obtain ⟨greater, r', hg, -⟩ := bind_eq_ok.mp h'
          obtain ⟨rest, hr, hgk, rfl⟩ := (expect_eq_ok (by simp)).mp hg
          obtain ⟨us, ⟨htok, hread⟩, hus⟩ := separatedTo_type_sound (fun h => by
            obtain ⟨ts, h₁, h₂, -⟩ := typeTo_sound h
            exact ⟨ts, h₁, h₂⟩) hargs
          obtain ⟨bs, hbs, happ, hz⟩ := TypeScan.brackets_append rest
          generalize TypeScan.afterBrackets rest = rest' at happ hz
          subst happ
          rw [Parser.read_tokens, hr] at htok
          subst htok
          rw [hr, Parser.read_read] at hread
          have hcomp := typeWith_applied hk hl (hread ▸ hargs) hgk hbs hz hp
          rw [hcomp] at h
          cases h
          refine ⟨name :: less :: (us ++ greater :: bs), ⟨?_, rfl⟩, .applied hk hl hus hgk hbs,
            ⟨hz, by simp⟩, ?_⟩
          · simp [hp]
          · intro ho
            refine merge_lastSpan_eq_cover (ho.sublist ?_)
            simp
        · obtain ⟨bs, hbs, happ, hz⟩ := TypeScan.brackets_append tokens
          generalize TypeScan.afterBrackets tokens = rest at happ hz
          subst happ
          have hend : EndsType (name :: bs) rest := by
            refine ⟨hz, fun hlen => ?_⟩
            have hbs' : bs = [] := by simpa using hlen
            rwa [hbs', List.nil_append] at hl
          rw [typeWith_plain hk hbs hend hp] at h
          cases h
          refine ⟨name :: bs, ⟨hp, rfl⟩, .plain hk hbs, hend, ?_⟩
          intro ho
          refine merge_lastSpan_eq_cover (ho.sublist ?_)
          simp
      · rw [typeWith, bind_of_ok (peek_apply p), Parser.peek_of_eq_cons hp] at h
        simp only [hk, ne_eq, not_false_eq_true, if_true] at h
        cases h

theorem type_apply (p : Parser) : Parse.type p = typeTo (p.tokens.length + 1) p :=
  bind_of_ok (limit_apply p)

theorem type_sound {type : WrittenType} (h : Parse.type p = (.ok type, q)) :
    ∃ ts, JustRead p ts q ∧ SpellsType (.one type) ts ∧ EndsType ts q.tokens ∧
      (Ordered p.tokens → type.span = cover ts) := by
  rw [type_apply] at h
  exact typeTo_sound h

/-- How tokens that spell types are read: the same types come out, up to places. -/
def Yields : TypePhrase → List Token → Prop
  | .one type, ts => ∀ (depth : Nat) (p : Parser) (rest : List Token), ts.length ≤ depth →
      p.tokens = ts ++ rest → EndsType ts rest →
      ∃ type', typeTo depth p = (.ok type', p.read ts rest) ∧ type'.unplaced = type.unplaced
  | .many types, ts => ∀ (depth turns : Nat) (p : Parser) (rest : List Token), ts.length ≤ depth →
      ts.length < turns → p.tokens = ts ++ rest → headKind rest = .greater →
      ∃ types', separatedTo (typeTo depth) turns p = (.ok types', p.read ts rest) ∧
        WrittenType.unplacedAll types' = WrittenType.unplacedAll types

theorem yields_of_spellsType {ph : TypePhrase} {ts : List Token} (h : SpellsType ph ts) :
    Yields ph ts := by
  induction h with
  | @plain name bs n s hk hb =>
    intro depth p rest hd hp hend
    obtain ⟨depth, rfl⟩ : ∃ d, depth = d + 1 := Nat.exists_eq_succ_of_ne_zero (by
      simp only [List.length_cons] at hd
      omega)
    exact ⟨_, typeWith_plain hk hb hend hp, rfl⟩
  | @applied name less greater args bs us n s hk hl _ hg hb ih =>
    intro depth p rest hd hp hend
    simp only [List.length_cons, List.length_append] at hd
    obtain ⟨depth, rfl⟩ : ∃ d, depth = d + 1 := Nat.exists_eq_succ_of_ne_zero (by omega)
    simp only [List.cons_append, List.append_assoc] at hp
    obtain ⟨args', hargs, hsame⟩ := ih depth
      ((us ++ greater :: (bs ++ rest)).length + 1)
      (p.read [name, less] (us ++ greater :: (bs ++ rest))) (greater :: (bs ++ rest))
      (by omega) (by rw [List.length_append]; omega) rfl hg
    rw [Parser.read_read] at hargs
    refine ⟨_, typeWith_applied hk hl hargs hg hb hend.1 hp, ?_⟩
    simp only [WrittenType.unplaced, hsame]
  | single _ ih =>
    intro depth turns p rest hd ht hp hr
    obtain ⟨turns, rfl⟩ : ∃ d, turns = d + 1 := Nat.exists_eq_succ_of_ne_zero (by omega)
    obtain ⟨type', hone, hsame⟩ := ih depth p rest hd hp (.of_headKind (by simp [hr]) (by simp [hr]))
    refine ⟨[type'], separatedTo_eq_ok.mpr ⟨type', _, hone, .inl ⟨?_, rfl, rfl⟩⟩, ?_⟩
    · simp [hr]
    · simp only [WrittenType.unplacedAll, hsame]
  | @more type types comma ts us _ hc _ ih₁ ih₂ =>
    intro depth turns p rest hd ht hp hr
    simp only [List.length_cons, List.length_append] at hd ht
    simp only [List.cons_append, List.append_assoc] at hp
    obtain ⟨turns, rfl⟩ : ∃ d, turns = d + 1 := Nat.exists_eq_succ_of_ne_zero (by omega)
    obtain ⟨type', hone, hsame⟩ := ih₁ depth p (comma :: (us ++ rest)) (by omega) hp
      (.of_headKind (by simp [hc]) (by simp [hc]))
    obtain ⟨types', hmore, hsame'⟩ := ih₂ depth turns (p.read (ts ++ [comma]) (us ++ rest)) rest
      (by omega) (by omega) rfl hr
    rw [Parser.read_read, List.append_assoc, List.singleton_append] at hmore
    refine ⟨type' :: types', separatedTo_eq_ok.mpr ⟨type', _, hone, .inr
      ⟨comma, us ++ rest, types', rfl, hc, ?_, rfl⟩⟩, ?_⟩
    · rw [Parser.read_read]
      exact hmore
    · simp only [WrittenType.unplacedAll, hsame, hsame']

/-- **Tokens that spell a type are read as that type.** -/
theorem type_of_spells {type : WrittenType} {ts rest : List Token} (h : SpellsType (.one type) ts)
    (hp : p.tokens = ts ++ rest) (hend : EndsType ts rest) :
    ∃ type', Parse.type p = (.ok type', p.read ts rest) ∧ type'.unplaced = type.unplaced := by
  rw [type_apply]
  refine yields_of_spellsType h (p.tokens.length + 1) p rest ?_ hp hend
  simp [hp]
  omega

end Parse

end Recast
