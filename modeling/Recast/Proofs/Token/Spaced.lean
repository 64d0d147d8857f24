/-
# Tokens with blanks between them

No token depends on what stands around it: where a token of a text ends, it also ends before a blank.
So the tokens of a text, written with one blank between each two of them, are read one by one again,
whatever stood between them before.

* `Reads.lexeme`: **a token of a text is read before a blank as well**;
* `Lexed.reads_join`: so are all tokens, with a blank between each two of them;
* `tokenize_spaced`: **a text keeps its tokens when all that stands between them is a blank**.
-/
import Recast.Proofs.Token.Local
import Recast.Proofs.Token.Tiles
import Recast.Text.Join

namespace Recast

open Text (join joinTail)

/-! ## 1. A blank after each token -/

/-- **A token of a text is read before a blank as well.** -/
theorem Reads.lexeme {cs skipped tail r : List Char} {c : Char} {k : TokenKind} {ts : List Token}
    (ht : Scan.trivia cs = (skipped, c :: tail)) (hk : (Scan.token c tail).result = .ok k)
    (hr : Halts r) (h : Lexes r ts) :
    Reads ((Scan.token c tail).lexeme ++ r)
      (⟨k, String.ofList (Scan.token c tail).lexeme, default⟩ :: ts) := by
  obtain ⟨s, hs, htail⟩ := Scan.token_lexeme_eq_cons c tail
  obtain ⟨d, tail', he, hblank, hmark, hslash⟩ := Scan.opens_of_token ht hk
  cases he
  have htok : Scan.token c (s ++ (Scan.token c tail).rest) =
      ⟨.ok k, c :: s, (Scan.token c tail).rest⟩ := by
    rw [← htail, ← hk, ← hs]
  rw [hs]
  refine .token hblank hmark (fun hc => ?_) ?_ h
  · -- a slash is followed by a blank now, or by what followed it before
    have hnone := hslash hc
    cases s with
    | nil => exact ⟨fun h => (hr.spec h).2.2.2.1 rfl, fun h => (hr.spec h).2.2.2.2.1 rfl⟩
    | cons d s =>
      rw [htail] at hnone
      exact hnone
  · rw [String.toList_ofList]
    exact Scan.token_local htok (.inr hr)

theorem halts_joinTail : ∀ words : List String, Halts (joinTail " " words).toList
  | [] => .nil
  | word :: words => by
    rw [joinTail, String.toList_append, String.toList_append]
    exact .blank _

/-- A blank in front of each word is one in front of the words with a blank between them. -/
theorem Reads.joinTail {words : List String} {ts : List Token}
    (h : Reads (join " " words).toList ts) : Reads (joinTail " " words).toList ts := by
  cases words with
  | nil => exact h
  | cons word words =>
    have hback : Text.joinTail " " (word :: words) = " " ++ join " " (word :: words) := by
      rw [Text.joinTail, join, String.append_assoc]
    rw [hback, String.toList_append]
    exact h.blank (by decide)

/-- **All tokens of a text are read with a blank between each two of them.** -/
theorem Lexed.reads_join {pos stop : Position} {cs rest : List Char} {toks : List Token}
    (h : Lexed pos cs toks stop rest) (hok : ∀ a ∈ toks, a.kind ≠ .error) :
    Reads (join " " (toks.map Token.lexeme)).toList toks := by
  induction h with
  | nil => exact .nil
  | @cons pos stop cs skipped tail rest c toks ht _ ih =>
    have hmore := (ih fun a ha => hok a (List.mem_cons_of_mem _ ha)).joinTail
    have hk := Token.result_of_kind rfl (hok _ (List.mem_cons_self ..))
    rw [List.map_cons, join, String.toList_append]
    have := Reads.lexeme ht hk (halts_joinTail _) hmore.2
    simpa [Reads, Lexes, Token.scanned, Token.bare] using this

/-! ## 2. Whole texts -/

/-- The spellings of some tokens, but for the end of a text, with a blank between each two of them. -/
def spaced (toks : List Token) : String :=
  join " " ((toks.filter fun a => a.kind ≠ .eof).map Token.lexeme)

/-- **A text keeps its tokens when all that stands between them is a blank**: a text without errors
whose tokens are written with one blank between each two of them is read without errors as tokens
of the same kinds and spellings. -/
theorem tokenize_spaced (text : String) (h : (tokenize text).2 = []) :
    (tokenize (spaced (tokenize text).1)).2 = [] ∧
      (tokenize (spaced (tokenize text).1)).1.map Token.bare = (tokenize text).1.map Token.bare := by
  obtain ⟨toks, stop, rest, hlex, hspent, htoks, herr⟩ := tokenize_eq text
  have hok := herr.mp h
  have hspaced : spaced (tokenize text).1 = join " " (toks.map Token.lexeme) := by
    have hall : toks.filter (fun a => a.kind ≠ .eof) = toks :=
      List.filter_eq_self.mpr fun a ha => decide_eq_true (hlex.kind_ne_eof ha)
    rw [spaced, htoks, List.filter_append, hall]
    simp [Token.endOf]
  have hreads := hlex.reads_join hok
  rw [← hspaced] at hreads
  obtain ⟨herrors, toks', htoks', hbare⟩ := tokenize_of_lexes hreads.2 hok
  refine ⟨herrors, ?_⟩
  rw [htoks', htoks]
  simp [hbare]

end Recast
